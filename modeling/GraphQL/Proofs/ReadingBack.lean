import GraphQL.Proofs.Placeless
import GraphQL.Proofs.PrintedScalars
import GraphQL.Proofs.Printing
import GraphQL.Proofs.Takes
import GraphQL.Reading.Selection

/-!
Literals, types, arguments and directives are read back as they are written.

Each is read in front of anything that cannot be taken for a part of it. Literals and types nest; the
bound on their nesting is no less than the number of their pieces, and inside there are fewer.
-/

namespace GraphQL

theorem enclosed_append (opening closing : Punctuator) (inside rest : List Piece) :
    enclosed opening closing inside ++ rest = opening.piece :: (inside ++ closing.piece :: rest) := by
  rw [enclosed, List.cons_append, List.append_assoc, List.singleton_append]

theorem enclosed_length (opening closing : Punctuator) (inside : List Piece) :
    (enclosed opening closing inside).length = inside.length + 2 := by
  rw [enclosed, List.length_cons, List.length_append, List.length_singleton]

theorem part_length_le {γ : Type} {pieces : γ → List Piece} {values : List γ} {value : γ}
    (member : value ∈ values) : (pieces value).length ≤ (values.flatMap pieces).length := by
  obtain ⟨before, after, rfl⟩ := List.append_of_mem member
  rw [List.flatMap_append, List.flatMap_cons, List.length_append, List.length_append]
  omega

theorem item_pieces (items : List (Located Literal)) :
    itemPieces items = items.flatMap fun item => item.node.pieces := by
  induction items with
  | nil => rw [itemPieces, List.flatMap_nil]
  | cons item rest ih => rw [itemPieces, ih, List.flatMap_cons]

/-- A field of an object literal. -/
def literalFieldPiece (field : Located String × Located Literal) : List Piece :=
  namePiece field.1.node :: Punctuator.colon.piece :: field.2.node.pieces

theorem literal_field_pieces (fields : List (Located String × Located Literal)) :
    literalFieldPieces fields = fields.flatMap literalFieldPiece := by
  induction fields with
  | nil => rw [literalFieldPieces, List.flatMap_nil]
  | cons field rest ih =>
      rw [literalFieldPieces, ih, List.flatMap_cons, literalFieldPiece]

/-- A number is written as a float token, which is read as the number. -/
structure Single.ReadsBack (x : Single) : Prop where
  token : (Token.float (DecimalStyle.plain.write x)).WellFormed
  read : Binary.read? .single (DecimalStyle.plain.write x).toList = some x

/-- Names are valid, each object names a field once, and floats are of a certain kind. -/
inductive Literal.Formed (float : Single → Prop) (isConstant : Bool) : Literal → Prop where
  | null : Formed float isConstant .null
  | int (value : Int32) : Formed float isConstant (.int value)
  | float {value : Single} (holds : float value) : Formed float isConstant (.float value)
  | string (text : String) : Formed float isConstant (.string text)
  | bool (value : Bool) : Formed float isConstant (.bool value)
  | enum {name : String} (allowed : IsEnumName name) : Formed float isConstant (.enum name)
  | variable {name : String} (free : isConstant = false) (valid : Name.isValid name = true) :
      Formed float isConstant (.variable name)
  | list {items} (each : ∀ item ∈ items, Formed float isConstant item.node) :
      Formed float isConstant (.list items)
  | object {fields} (distinct : (fields.map fun field => field.1.node).Nodup)
      (named : ∀ field ∈ fields, field.1.Valid)
      (each : ∀ field ∈ fields, Formed float isConstant field.2.node) :
      Formed float isConstant (.object fields)

/-- What can be written, and besides the numbers that are read back. -/
abbrev Literal.Spelled (isConstant : Bool) : Literal → Prop :=
  Literal.Formed Single.ReadsBack isConstant

mutual

theorem Literal.Writable.spelled {isConstant : Bool} :
    ∀ {literal : Literal}, literal.Writable isConstant → literal.Spelled isConstant
  | .null, _ => .null
  | .int value, _ => .int value
  | .float _, writable => by
      rw [Literal.Writable] at writable
      exact writable.elim
  | .string text, _ => .string text
  | .bool value, _ => .bool value
  | .enum _, writable => by
      rw [Literal.Writable] at writable
      exact .enum writable
  | .variable _, writable => by
      rw [Literal.Writable] at writable
      exact .variable writable.1 writable.2
  | .list items, writable => by
      rw [Literal.Writable] at writable
      exact .list (items_spelled items writable)
  | .object fields, writable => by
      rw [Literal.Writable] at writable
      have each := literal_fields_spelled fields writable.2
      exact .object writable.1 (fun field member => (each field member).1)
        fun field member => (each field member).2

theorem items_spelled {isConstant : Bool} :
    ∀ items : List (Located Literal), ItemsWritable isConstant items →
      ∀ item ∈ items, item.node.Spelled isConstant
  | [], _ => List.forall_mem_nil _
  | ⟨_, _⟩ :: rest, writable => by
      rw [ItemsWritable] at writable
      exact List.forall_mem_cons.mpr ⟨writable.1.spelled, items_spelled rest writable.2⟩

theorem literal_fields_spelled {isConstant : Bool} :
    ∀ fields : List (Located String × Located Literal), LiteralFieldsWritable isConstant fields →
      ∀ field ∈ fields, field.1.Valid ∧ field.2.node.Spelled isConstant
  | [], _ => List.forall_mem_nil _
  | (_, ⟨_, _⟩) :: rest, writable => by
      rw [LiteralFieldsWritable] at writable
      exact List.forall_mem_cons.mpr
        ⟨⟨writable.1, writable.2.1.spelled⟩, literal_fields_spelled rest writable.2.2⟩

end

theorem no_directives_writable : Directives.Writable none := ⟨nofun, nofun, nofun⟩

theorem no_arguments_writable : ArgumentsWritable none := ⟨nofun, nofun, nofun⟩

/-- Tokens that close something, and the end token. -/
def closingTokens : List Token :=
  [.punctuator .bracketClose, .punctuator .braceClose, .punctuator .parenClose, .endOfFile]

theorem literal_begins (literal : Literal) : Avoids closingTokens literal.pieces := by
  cases literal with
  | enum name =>
      rw [Literal.pieces]
      exact .named (Token.of_word_name name) (by decide)
  | _ =>
      rw [Literal.pieces]
      simp [Avoids, closingTokens, enclosed, Token.plain]

theorem literal_length_pos (literal : Literal) : 0 < literal.pieces.length :=
  List.length_pos_of_ne_nil (literal_begins literal).ne_nil

theorem directives_begin {tokens : List Token} (apart : .punctuator .at ∉ tokens)
    (directives : List (Located Directive))
    (there : directives.flatMap (fun directive => directive.node.pieces) ≠ []) :
    Avoids tokens (directives.flatMap fun directive => directive.node.pieces) := by
  cases directives with
  | nil => exact absurd rfl there
  | cons first others => exact apart

/-- The words of enum values are keywords or mean nothing else. -/
theorem enum_word {name : String} (allowed : IsEnumName name) :
    Token.ofWord name = .name name ∨
      ∃ word, Token.ofWord name = .keyword word ∧ word.text = name := by
  have apart : name ≠ "true" ∧ name ≠ "false" ∧ name ≠ "null" := by simpa using allowed.2
  cases known : Keyword.ofText? name with
  | none => exact .inl (by simp [Token.ofWord, apart, known])
  | some word =>
      exact .inr ⟨word, by simp [Token.ofWord, apart, known], Keyword.of_text_eq known⟩

/-- Where nothing but places differs, names are as distinct as the others. -/
theorem names_distinct {γ : Type} {change : γ → γ} {values others : List γ}
    (name : γ → Located String) (same : values.map change = others.map change)
    (kept : ∀ value, (name (change value)).node = (name value).node)
    (distinct : ((others.map name).map (·.node)).Nodup) :
    ((values.map name).map (·.node)).Nodup := by
  have bare (list : List γ) : (list.map change).map (fun value => (name value).node) =
      (list.map name).map (·.node) := by
    rw [List.map_map, List.map_map]
    exact List.map_congr_left fun value _ => kept value
  rw [← bare, same, bare]
  exact distinct

namespace Reader

variable {rest : List Piece}

/-- A list between two marks is read, its names turn out to be distinct, and reading goes on. -/
theorem distinct_list_takes {β γ : Type} {item : Reader γ} {opening closing : Punctuator}
    {kind : NameKind} {name : γ → Located String} {change : γ → γ} {pieces : γ → List Piece}
    {values : List γ} {avoided : List Token} {next : Located (List γ) → Reader β}
    {left : List Piece} {property : β → Prop} (filled : values ≠ [])
    (distinct : ((values.map name).map (·.node)).Nodup)
    (each : ∀ value ∈ values, ∀ rest, Avoids avoided rest →
      Takes item (pieces value ++ rest) rest fun found => change found = change value)
    (kept : ∀ value, (name (change value)).node = (name value).node)
    (begins : ∀ value ∈ values,
      Avoids (.punctuator closing :: .endOfFile :: avoided) (pieces value))
    (closes : .punctuator closing ∉ avoided) (follows : rest ≠ [])
    (later : ∀ found : Located (List γ), found.node.map change = values.map change →
      Takes (next found) rest left property) :
    Takes
      (do
        let found ← delimitedNonempty (.punctuator opening) item (.punctuator closing)
        rejectRepeats kind (found.node.map name)
        next found)
      (enclosed opening closing (values.flatMap pieces) ++ rest) left property := by
  rw [enclosed_append]
  refine (Takes.delimited_nonempty filled each begins closes follows).bind fun found same => ?_
  have apart := names_distinct name same kept distinct
  exact (Takes.reject_repeats kind apart).bind fun _ _ => later found same

theorem constant_takes {piece : Piece} (literal : Literal) (follows : rest ≠ []) :
    Takes (constant literal) (piece :: rest) rest fun found => found.node = literal := by
  rw [constant]
  exact (Takes.next follows).bind fun taken _ => .pure rfl

theorem integer_takes {piece : Piece} (value : Int32) (follows : rest ≠ []) :
    Takes (integer (toString value.toInt)) (piece :: rest) rest
      fun found => found.node = .int value := by
  rw [integer]
  refine (Takes.next follows).bind fun taken _ => ?_
  rw [int_read_back]
  exact .pure (congrArg Literal.int (Int32.ofInt_toInt value))

theorem floating_takes {piece : Piece} {value : Single} (back : value.ReadsBack)
    (follows : rest ≠ []) :
    Takes (floating (DecimalStyle.plain.write value)) (piece :: rest) rest
      fun found => found.node = .float value := by
  rw [floating]
  refine (Takes.next follows).bind fun taken _ => ?_
  rw [back.read]
  exact .pure rfl

theorem string_takes {piece : Piece} (text : String) (follows : rest ≠ []) :
    Takes (string (Literal.printString text)) (piece :: rest) rest
      fun found => found.node = .string text := by
  rw [string]
  refine (Takes.next follows).bind fun taken _ => ?_
  rw [printed_unquoted]
  exact .pure (congrArg Literal.string String.ofList_toList)

theorem variable_takes (name : String) (follows : rest ≠ []) :
    Takes variableLiteral (Punctuator.dollar.piece :: namePiece name :: rest) rest
      fun found => found.node = .variable name := by
  rw [variableLiteral]
  refine (Takes.expect _ (List.cons_ne_nil _ _)).bind fun dollar _ => ?_
  refine (Takes.name (Token.of_word_name name) follows).bind fun found same => ?_
  exact .pure (congrArg Literal.variable same)

/-- The word of an enum value is read as that value. -/
theorem enum_takes {isConstant : Bool} {name : String} (allowed : IsEnumName name) {depth : Nat}
    (follows : rest ≠ []) :
    Takes (literalWithin isConstant (depth + 1)) (namePiece name :: rest) rest
      fun found => found.node = .enum name := by
  rw [literalWithin]
  refine Takes.peek.bind fun found same => ?_
  rcases enum_word allowed with word | ⟨keyword, word, rfl⟩
  · rw [same, show (namePiece name).token = .name name from word]
    exact constant_takes _ follows
  · rw [same, show (namePiece keyword.text).token = .keyword keyword from word]
    exact constant_takes _ follows

/-- A reader of values takes a literal in front of anything and finds it again. -/
abbrev ReadsLiteral (value : Reader (Located Literal)) (literal : Literal) : Prop :=
  ∀ rest : List Piece, rest ≠ [] → Takes value (literal.pieces ++ rest) rest
    fun found => found.node.placeless = literal.placeless

theorem list_literal_takes {value : Reader (Located Literal)} {items : List (Located Literal)}
    (reads : ∀ item ∈ items, ReadsLiteral value item.node) (follows : rest ≠ []) :
    Takes
      (do
        let found ← delimited (.punctuator .bracketOpen) value (.punctuator .bracketClose)
        pure (found.map .list))
      ((Literal.list items).pieces ++ rest) rest
      fun found : Located Literal => found.node.placeless = (Literal.list items).placeless := by
  have each : ∀ item ∈ items, ∀ rest, Avoids [] rest →
      Takes value (item.node.pieces ++ rest) rest
        fun found => found.node.placeless = item.node.placeless :=
    fun item member rest after => reads item member rest after.ne_nil
  have begins : ∀ item ∈ items,
      Avoids [.punctuator .bracketClose, .endOfFile] item.node.pieces :=
    fun item _ => (literal_begins item.node).mono (by decide)
  rw [Literal.pieces, enclosed_append, item_pieces]
  refine (Takes.delimited each begins (by decide) follows).bind fun found same => .pure ?_
  rw [Located.map, Literal.placeless, Literal.placeless, placeless_items, placeless_items,
    placeless_list same]

/-- A field of an object literal is read back if its value is. -/
theorem literal_field_takes {value : Reader (Located Literal)}
    {field : Located String × Located Literal} (reads : ReadsLiteral value field.2.node)
    (follows : rest ≠ []) :
    Takes (literalField value) (literalFieldPiece field ++ rest) rest fun found =>
      found.1.bareName = field.1.bareName ∧
        found.2.node.placeless = field.2.node.placeless := by
  have more : field.2.node.pieces ++ rest ≠ [] := (literal_begins field.2.node).append.ne_nil
  rw [literalField, literalFieldPiece, List.cons_append, List.cons_append]
  refine (Takes.name (Token.of_word_name _) (List.cons_ne_nil _ _)).bind fun key named => ?_
  refine (Takes.expect _ more).bind fun colon _ => ?_
  refine (reads rest follows).bind fun content same => .pure ?_
  exact ⟨congrArg Located.unplaced named, same⟩

theorem object_literal_takes {value : Reader (Located Literal)}
    {fields : List (Located String × Located Literal)}
    (distinct : (fields.map fun field => field.1.node).Nodup)
    (reads : ∀ field ∈ fields, ReadsLiteral value field.2.node) (follows : rest ≠ []) :
    Takes
      (do
        let found ← delimited (.punctuator .braceOpen) (literalField value)
          (.punctuator .braceClose)
        rejectRepeats .inputField (found.node.map (·.1))
        pure (found.map .object))
      ((Literal.object fields).pieces ++ rest) rest
      fun found : Located Literal => found.node.placeless = (Literal.object fields).placeless := by
  let view (field : Located String × Located Literal) : Located String × Located Literal :=
    (field.1.bareName, field.2.placeless Literal.placeless)
  have each : ∀ field ∈ fields, ∀ rest, Avoids [] rest →
      Takes (literalField value) (literalFieldPiece field ++ rest) rest
        fun found => view found = view field :=
    fun field member rest after =>
      (literal_field_takes (reads field member) after.ne_nil).mono
        fun found same => Prod.ext same.1 (Located.placeless_eq same.2)
  have begins : ∀ field ∈ fields,
      Avoids [.punctuator .braceClose, .endOfFile] (literalFieldPiece field) :=
    fun field _ => .named (Token.of_word_name _) (by decide)
  rw [Literal.pieces, enclosed_append, literal_field_pieces]
  refine (Takes.delimited each begins (by decide) follows).bind fun found same => ?_
  have apart : ((found.node.map (·.1)).map (·.node)).Nodup := by
    refine names_distinct (·.1) same (fun _ => rfl) ?_
    rwa [List.map_map]
  refine (Takes.reject_repeats _ apart).bind fun _ _ => .pure ?_
  rw [Located.map, Literal.placeless, Literal.placeless, placeless_fields, placeless_fields]
  exact congrArg Literal.object same

/-- Literals are read back; nothing that follows them matters. -/
theorem literal_within_takes {isConstant : Bool} {depth : Nat} {literal : Literal}
    (spelled : literal.Spelled isConstant) (deep : literal.pieces.length ≤ depth)
    (follows : rest ≠ []) :
    Takes (literalWithin isConstant depth) (literal.pieces ++ rest) rest
      fun found => found.node.placeless = literal.placeless := by
  -- On the depth alone: the reader recurses on it, and what is inside has fewer pieces.
  induction depth generalizing literal rest with
  | zero => exact absurd (literal_length_pos literal) (Nat.not_lt.mpr deep)
  | succ depth ih =>
      have kept {found : Located Literal} (same : found.node = literal) :
          found.node.placeless = literal.placeless := congrArg Literal.placeless same
      cases spelled with
      | float back =>
          rw [Literal.pieces, literalWithin]
          refine Takes.peek.bind fun found same => ?_
          rw [same]
          exact (floating_takes back follows).mono fun found => kept
      | enum allowed =>
          rw [Literal.pieces]
          exact (enum_takes allowed follows).mono fun found => kept
      | null =>
          rw [Literal.pieces, literalWithin]
          refine Takes.peek.bind fun found same => ?_
          rw [same]
          exact (constant_takes _ follows).mono fun found => kept
      | bool value =>
          rw [Literal.pieces, literalWithin]
          refine Takes.peek.bind fun found same => ?_
          rw [same]
          exact (constant_takes _ follows).mono fun found => kept
      | int value =>
          rw [Literal.pieces, literalWithin]
          refine Takes.peek.bind fun found same => ?_
          rw [same]
          exact (integer_takes value follows).mono fun found => kept
      | string text =>
          rw [Literal.pieces, literalWithin]
          refine Takes.peek.bind fun found same => ?_
          rw [same]
          exact (string_takes text follows).mono fun found => kept
      | «variable» free =>
          rw [Literal.pieces, literalWithin, free]
          refine Takes.peek.bind fun found same => ?_
          rw [same]
          exact (variable_takes _ follows).mono fun found => kept
      | @list items each =>
          rw [Literal.pieces, enclosed_length, item_pieces] at deep
          have reads : ∀ item ∈ items, ReadsLiteral (literalWithin isConstant depth) item.node := by
            intro item member rest after
            have shorter := @part_length_le _ (fun item => item.node.pieces) _ _ member
            exact ih (each item member) (by omega) after
          have read := list_literal_takes reads follows
          rw [Literal.pieces] at read ⊢
          rw [literalWithin]
          refine Takes.peek.bind fun found same => ?_
          rw [same]
          exact read
      | @object fields distinct named each =>
          rw [Literal.pieces, enclosed_length, literal_field_pieces] at deep
          have reads : ∀ field ∈ fields,
              ReadsLiteral (literalWithin isConstant depth) field.2.node := by
            intro field member rest after
            have shorter := @part_length_le _ literalFieldPiece _ _ member
            rw [literalFieldPiece, List.length_cons, List.length_cons] at shorter
            exact ih (each field member) (by omega) after
          have read := object_literal_takes distinct reads follows
          rw [Literal.pieces] at read ⊢
          rw [literalWithin]
          refine Takes.peek.bind fun found same => ?_
          rw [same]
          exact read

theorem literal_takes {isConstant : Bool} {literal : Literal}
    (spelled : literal.Spelled isConstant) (follows : rest ≠ []) :
    Takes (Reader.literal isConstant) (literal.pieces ++ rest) rest
      fun found => found.node.placeless = literal.placeless := by
  rw [Reader.literal]
  refine Takes.count.bind fun cursor counted => literal_within_takes spelled ?_ follows
  rw [counted, List.length_append]
  omega

theorem type_begins (type : TypeRef) : Avoids (.punctuator .bang :: closingTokens) type.pieces := by
  induction type with
  | named name => exact .named (Token.of_word_name name) (by decide)
  | list element => simp [TypeRef.pieces, Avoids, closingTokens, enclosed, Token.plain]
  | nonNull inner ih => exact ih.append

/-- A type without an exclamation mark is read up to where the mark would stand. -/
theorem base_takes {depth : Nat} {type : TypeRef} {input rest : List Piece}
    {property : Located TypeRef → Prop} (plain : type.isNonNull = false)
    (inner : ∀ element, type = .list element → ∀ rest, Avoids [.punctuator .bang] rest →
      Takes (typeWithin depth) (element.pieces ++ rest) rest fun found => found.node = element)
    (follows : input ≠ [])
    (marked : ∀ found : Located TypeRef, found.node = type →
      Takes (nonNullMark found) input rest property) :
    Takes (typeWithin (depth + 1)) (type.pieces ++ input) rest property := by
  rw [typeWithin]
  cases type with
  | named name =>
      have no_list : Avoids [.punctuator .bracketOpen, .endOfFile] (namePiece name :: input) :=
        .named (Token.of_word_name name) (by decide)
      refine (Takes.skip_missing no_list (by decide) (by decide)).bind fun found missing => ?_
      rw [missing]
      refine (Takes.name (Token.of_word_name name) follows).bind fun found same => ?_
      exact marked _ (congrArg TypeRef.named same)
  | list element =>
      have more : element.pieces ++ Punctuator.bracketClose.piece :: input ≠ [] :=
        (type_begins element).append.ne_nil
      rw [TypeRef.pieces, enclosed_append]
      refine (Takes.skip_present more).bind fun found present => ?_
      obtain ⟨opening, rfl⟩ := present
      have closes : Avoids [.punctuator .bang] (Punctuator.bracketClose.piece :: input) := by
        simp [Avoids, Token.plain]
      refine (inner element rfl _ closes).bind fun content same => ?_
      refine (Takes.expect _ follows).bind fun closing _ => ?_
      exact marked _ (congrArg TypeRef.list same)
  | nonNull inner => cases plain

theorem type_within_takes {depth : Nat} {type : TypeRef} (writable : type.Writable)
    (deep : type.pieces.length ≤ depth) {rest : List Piece}
    (after : Avoids [.punctuator .bang] rest) :
    Takes (typeWithin depth) (type.pieces ++ rest) rest fun found => found.node = type := by
  induction depth generalizing type rest with
  | zero =>
      have filled := List.length_pos_of_ne_nil (type_begins type).ne_nil
      exact absurd filled (Nat.not_lt.mpr deep)
  | succ depth ih =>
      have unmarked (found : Located TypeRef) (same : found.node = type) :
          Takes (nonNullMark found) rest rest fun found => found.node = type := by
        rw [nonNullMark]
        refine (Takes.sees_other after (by decide)).bind fun marked absent => ?_
        rw [absent]
        exact .pure same
      cases type with
      | named name =>
          exact base_takes rfl (fun _ impossible => by cases impossible) after.ne_nil unmarked
      | list element =>
          refine base_takes rfl (fun inner same rest after => ?_) after.ne_nil unmarked
          cases same
          have proper : element.Writable := writable
          rw [TypeRef.pieces, enclosed_length] at deep
          exact ih proper (by omega) after
      | nonNull inner =>
          obtain ⟨proper, plain⟩ := writable
          rw [TypeRef.pieces, List.length_append, List.length_singleton] at deep
          rw [TypeRef.pieces, List.append_assoc, List.singleton_append]
          refine base_takes plain (fun element same rest after => ?_) (List.cons_ne_nil _ _)
            fun found same => ?_
          · subst same
            have inside : element.Writable := proper
            rw [TypeRef.pieces, enclosed_length] at deep
            exact ih inside (by omega) after
          · rw [nonNullMark]
            refine (Takes.sees_present _).bind fun marked present => ?_
            rw [present, if_pos rfl]
            exact (Takes.next after.ne_nil).bind fun mark _ => .pure (congrArg TypeRef.nonNull same)

theorem type_takes {type : TypeRef} (writable : type.Writable) {rest : List Piece}
    (after : Avoids [.punctuator .bang] rest) :
    Takes typeRef (type.pieces ++ rest) rest fun found => found.node = type := by
  rw [typeRef]
  refine Takes.count.bind fun cursor counted => type_within_takes writable ?_ after
  rw [counted, List.length_append]
  omega

theorem default_begins {tokens : List Token} (apart : .punctuator .equals ∉ tokens)
    (default : Option (Located Literal)) (there : defaultPieces default ≠ []) :
    Avoids tokens (defaultPieces default) := by
  cases default with
  | none => exact absurd rfl there
  | some literal => exact apart

/-- A default is read if it is there; where it is missing, something else must follow. -/
theorem default_takes {default : Option (Located Literal)}
    (writable : ∀ literal ∈ default, literal.node.Writable true) {rest : List Piece}
    (after : Avoids [.punctuator .equals, .endOfFile] rest) :
    Takes defaultValue (defaultPieces default ++ rest) rest fun found =>
      found.map (Located.placeless Literal.placeless) =
        default.map (Located.placeless Literal.placeless) := by
  rw [defaultValue]
  cases default with
  | none =>
      refine (Takes.skip_missing after (by decide) (by decide)).bind fun found missing => ?_
      rw [missing]
      exact .pure rfl
  | some literal =>
      rw [defaultPieces, List.cons_append]
      refine (Takes.skip_present (literal_begins literal.node).append.ne_nil).bind
        fun found present => ?_
      obtain ⟨mark, rfl⟩ := present
      refine (literal_takes (writable literal rfl).spelled after.ne_nil).bind fun value same => ?_
      exact .pure (congrArg some (Located.placeless_eq same))

theorem argument_takes {argument : Argument} (writable : argument.value.node.Writable false)
    {rest : List Piece} (follows : rest ≠ []) :
    Takes Reader.argument (argument.pieces ++ rest) rest
      fun found => found.placeless = argument.placeless := by
  have more : argument.value.node.pieces ++ rest ≠ [] :=
    (literal_begins argument.value.node).append.ne_nil
  rw [Reader.argument, Argument.pieces, List.cons_append, List.cons_append]
  refine (Takes.name (Token.of_word_name _) (List.cons_ne_nil _ _)).bind fun key named => ?_
  refine (Takes.expect _ more).bind fun colon _ => ?_
  refine (literal_takes writable.spelled follows).bind fun value same => .pure ?_
  exact congrArg₂ Argument.mk (congrArg Located.unplaced named) (Located.placeless_eq same)

theorem arguments_take {arguments : Option (Located (List Argument))}
    (writable : ArgumentsWritable arguments) {rest : List Piece}
    (after : Avoids [.punctuator .parenOpen] rest) :
    Takes Reader.arguments (argumentPieces arguments ++ rest) rest
      fun found => placelessArguments found = placelessArguments arguments := by
  rw [Reader.arguments]
  cases arguments with
  | none =>
      refine (Takes.sees_other after (by decide)).bind fun found absent => ?_
      rw [absent]
      exact .pure rfl
  | some list =>
      have each : ∀ argument ∈ list.node, ∀ rest, Avoids [] rest →
          Takes Reader.argument (argument.pieces ++ rest) rest
            fun found => found.placeless = argument.placeless :=
        fun argument member rest after =>
          argument_takes (writable.values list rfl argument member) after.ne_nil
      have begins : ∀ argument ∈ list.node,
          Avoids [.punctuator .parenClose, .endOfFile] argument.pieces :=
        fun argument _ => .named (Token.of_word_name _) (by decide)
      rw [argumentPieces]
      refine (Takes.sees_present _).bind fun found present => ?_
      rw [present, if_pos rfl]
      refine distinct_list_takes (writable.filled list rfl) (writable.names list rfl).distinct
        each (fun _ => rfl) begins (by decide) after.ne_nil fun found same => .pure ?_
      exact congrArg some (Located.placeless_eq same)

theorem directive_takes {directive : Directive} (writable : ArgumentsWritable directive.arguments)
    {rest : List Piece} (after : Avoids [.punctuator .parenOpen] rest) :
    Takes Reader.directive (directive.pieces ++ rest) rest
      fun found => found.node.placeless = directive.placeless := by
  rw [Reader.directive, Directive.pieces, List.cons_append, List.cons_append]
  have more : argumentPieces directive.arguments ++ rest ≠ [] := by
    simp [after.ne_nil]
  refine (Takes.expect _ (List.cons_ne_nil _ _)).bind fun mark _ => ?_
  refine (Takes.name (Token.of_word_name _) more).bind fun name named => ?_
  refine (arguments_take writable after).bind fun found same => .pure ?_
  exact congrArg₂ Directive.mk (congrArg Located.unplaced named) same

/-- As many directives are read as are written, and then something else follows. -/
theorem directive_run_takes {directives : List (Located Directive)}
    (writable : ∀ directive ∈ directives, ArgumentsWritable directive.node.arguments)
    {rest : List Piece} (after : Avoids [.punctuator .at, .punctuator .parenOpen] rest) {count : Nat}
    (enough : directives.length ≤ count) :
    Takes (directiveRun count) (directives.flatMap (fun directive => directive.node.pieces) ++ rest)
      rest fun found => found.map (Located.placeless Directive.placeless) =
        directives.map (Located.placeless Directive.placeless) := by
  induction directives generalizing count with
  | nil =>
      cases count with
      | zero => exact .pure rfl
      | succ count =>
          rw [directiveRun]
          refine (Takes.sees_other after (by decide)).bind fun found absent => ?_
          rw [absent]
          exact .pure rfl
  | cons directive others ih =>
      obtain ⟨left, rfl⟩ := Nat.exists_eq_add_one.mpr (Nat.zero_lt_of_lt enough)
      have later := ih (fun other member => writable other (List.mem_cons_of_mem _ member))
        (Nat.le_of_succ_le_succ enough)
      have next : Avoids [.punctuator .parenOpen]
          (others.flatMap (fun directive => directive.node.pieces) ++ rest) :=
        .optional (directives_begin (by decide) others) (after.mono (by decide))
      rw [directiveRun, List.flatMap_cons, List.append_assoc]
      refine (Takes.sees_present _).bind fun found present => ?_
      rw [present, if_pos rfl]
      refine (directive_takes (writable directive List.mem_cons_self) next).bind fun first same => ?_
      refine later.bind fun rest same_rest => .pure ?_
      exact congrArg₂ List.cons (Located.placeless_eq same) same_rest

theorem directives_take {directives : Directives} (writable : directives.Writable)
    {rest : List Piece} (after : Avoids [.punctuator .at, .punctuator .parenOpen] rest) :
    Takes Reader.directives (directives.pieces ++ rest) rest
      fun found => Directives.placeless found = directives.placeless := by
  have shorter := @parts_length _ (fun directive : Located Directive => directive.node.pieces)
    (directives.getD []) fun directive _ => List.cons_ne_nil _ _
  rw [Reader.directives]
  refine Takes.count.bind fun cursor counted => ?_
  have enough : (directives.getD []).length ≤ cursor.length := by
    rw [counted, List.length_append]
    exact Nat.le_trans shorter (Nat.le_add_right _ _)
  refine (directive_run_takes writable.arguments after enough).bind fun found same => .pure ?_
  have filled := writable.filled
  cases directives with
  | none =>
      rw [List.map_eq_nil_iff.mp same]
      rfl
  | some list =>
      cases found with
      | nil =>
          have nothing : list = [] := List.map_eq_nil_iff.mp same.symm
          rw [nothing] at filled
          exact absurd rfl filled
      | cons first more => exact congrArg some same

end Reader

/-! Pieces of what can be written are found again where they are written. -/

/-- All pieces of a row are found again where they are written. -/
abbrev AllProper (pieces : List Piece) : Prop := ∀ piece ∈ pieces, piece.Proper

section Proper

theorem AllProper.nil : AllProper [] := fun _ absent => by cases absent

theorem AllProper.cons {piece : Piece} {rest : List Piece} (first : piece.Proper)
    (others : AllProper rest) : AllProper (piece :: rest) :=
  List.forall_mem_cons.mpr ⟨first, others⟩

theorem AllProper.append {first second : List Piece} (left : AllProper first)
    (right : AllProper second) : AllProper (first ++ second) :=
  List.forall_mem_append.mpr ⟨left, right⟩

theorem AllProper.parts {γ : Type} {pieces : γ → List Piece} {values : List γ}
    (each : ∀ value ∈ values, AllProper (pieces value)) : AllProper (values.flatMap pieces) := by
  intro piece member
  obtain ⟨value, among, inside⟩ := List.mem_flatMap.mp member
  exact each value among piece inside

theorem described_proper {name : String} (valid : Name.isValid name = true)
    {description : Option String} (described : Described description) :
    ((Token.ofWord name).described description).Proper where
  back := word_scans_back valid
  ordinary text same := by
    have named := Token.of_word_name name
    rw [show Token.ofWord name = .description text from same] at named
    cases named
  described := described

theorem name_proper {name : String} (valid : Name.isValid name = true) : (namePiece name).Proper :=
  described_proper valid fun _ absent => by cases absent

/-- Tokens that are no descriptions and have none in front of them. -/
theorem plain_proper {token : Token} (back : token.ScansBack)
    (ordinary : ∀ text, token ≠ .description text) : token.plain.Proper where
  back := back
  ordinary := ordinary
  described text absent := by cases absent

theorem mark_proper (mark : Punctuator) : mark.piece.Proper :=
  plain_proper (scans_back_of_cut_off fun rest _ => punctuator_cut_off mark rest)
    fun text impossible => by cases impossible

/-- Keywords are words, and may have descriptions in front of them. -/
theorem keyword_proper (word : Keyword) {description : Option String}
    (described : Described description) : ((Token.keyword word).described description).Proper := by
  have same : Token.keyword word = Token.ofWord word.text := by cases word <;> rfl
  have valid : Name.isValid word.text = true := by cases word <;> decide
  rw [same]
  exact described_proper valid described

theorem plain_keyword_proper (word : Keyword) : word.piece.Proper :=
  keyword_proper word fun _ absent => by cases absent

theorem enclosed_proper {opening closing : Punctuator} {inside : List Piece}
    (proper : AllProper inside) : AllProper (enclosed opening closing inside) :=
  .cons (mark_proper opening) (proper.append (.cons (mark_proper closing) .nil))

theorem string_proper (text : String) :
    (Token.string (Literal.printString text)).plain.Proper :=
  plain_proper (string_scans_back text) fun other impossible => by cases impossible

theorem literal_proper {isConstant : Bool} {literal : Literal}
    (spelled : literal.Spelled isConstant) : AllProper literal.pieces := by
  induction spelled with
  | null =>
      rw [Literal.pieces]
      exact .cons (@name_proper "null" (by decide)) .nil
  | int value =>
      rw [Literal.pieces]
      exact .cons (plain_proper (int_scans_back _) fun text impossible => by cases impossible) .nil
  | float back =>
      rw [Literal.pieces]
      exact .cons (plain_proper back.token.scans_back fun text impossible => by cases impossible)
        .nil
  | string text =>
      rw [Literal.pieces]
      exact .cons (string_proper text) .nil
  | bool value =>
      rw [Literal.pieces]
      cases value with
      | true => exact .cons (@name_proper "true" (by decide)) .nil
      | false => exact .cons (@name_proper "false" (by decide)) .nil
  | enum allowed =>
      rw [Literal.pieces]
      exact .cons (name_proper allowed.1) .nil
  | «variable» free valid =>
      rw [Literal.pieces]
      exact .cons (mark_proper _) (.cons (name_proper valid) .nil)
  | list each ih =>
      rw [Literal.pieces, item_pieces]
      exact enclosed_proper (.parts ih)
  | object distinct named each ih =>
      rw [Literal.pieces, literal_field_pieces]
      exact enclosed_proper (.parts fun field member =>
        .cons (name_proper (named field member)) (.cons (mark_proper _) (ih field member)))

theorem type_proper {type : TypeRef} (writable : type.Writable) : AllProper type.pieces := by
  induction type with
  | named name => exact .cons (name_proper writable) .nil
  | list element ih => exact enclosed_proper (ih writable)
  | nonNull inner ih => exact (ih writable.1).append (.cons (mark_proper _) .nil)

theorem default_proper {default : Option (Located Literal)}
    (writable : ∀ literal ∈ default, literal.node.Writable true) :
    AllProper (defaultPieces default) := by
  cases default with
  | none => exact .nil
  | some literal => exact .cons (mark_proper _) (literal_proper (writable literal rfl).spelled)

theorem arguments_proper {arguments : Option (Located (List Argument))}
    (writable : ArgumentsWritable arguments) : AllProper (argumentPieces arguments) := by
  cases arguments with
  | none => exact .nil
  | some list =>
      refine enclosed_proper (.parts fun argument member => ?_)
      have valid := (writable.names list rfl).valid _ (List.mem_map_of_mem member)
      exact .cons (name_proper valid) (.cons (mark_proper _)
        (literal_proper (writable.values list rfl argument member).spelled))

theorem directives_proper {directives : Directives} (writable : directives.Writable) :
    AllProper directives.pieces :=
  .parts fun directive member => .cons (mark_proper _)
    (.cons (name_proper (writable.names directive member))
      (arguments_proper (writable.arguments directive member)))

end Proper

end GraphQL
