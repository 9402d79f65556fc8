import GraphQL.Proofs.Placeless
import GraphQL.Reading.Selection
import Mathlib.Logic.Basic

/-!
Readers of the query language never look at places.

Where two cursors have the same tokens, a reader succeeds on both or on neither. What it yields is
the same up to places, what it leaves are the same tokens again, and its error tells of the same
cause. Descriptions are compared by what is seen of them, so the same statements serve those who
look at descriptions and those who do not.
-/

namespace GraphQL

theorem Located.placeless_node {α β : Type} {change : α → β} {located other : Located α}
    (same : located.placeless change = other.placeless change) :
    change located.node = change other.node := congrArg Located.node same

/-- An argument is found without its place where it is found. -/
theorem find_argument_placeless (name : String) (arguments : Option (Located (List Argument))) :
    findArgument? name (placelessArguments arguments) =
      (findArgument? name arguments).map (Located.placeless Literal.placeless) := by
  cases arguments with
  | none => rfl
  | some list =>
      change ((list.node.map Argument.placeless).find? fun argument =>
        argument.name.node == name).map Argument.value = _
      rw [List.find?_map, Option.map_map, findArgument?, Option.map_map]
      rfl

theorem directive_argument_placeless (directive : Directive) (name : String) :
    directive.placeless.argument? name =
      (directive.argument? name).map (Located.placeless Literal.placeless) :=
  find_argument_placeless name directive.arguments

/-- The tokens of a cursor without places, each with what is seen of its description. -/
def Cursor.words (view : Option String → Option String) (cursor : Cursor) :
    List (Token × Option String) :=
  cursor.map fun entry => (entry.token.node, view entry.description)

namespace Reader

variable {α β γ δ : Type} {view : Option String → Option String}

/-- What is seen of a result, given what is seen of its value: no places. -/
def seen (view : Option String → Option String) (look : α → γ) :
    EStateM.Result (Located ParseError) Cursor α →
      Except ParseError (γ × List (Token × Option String))
  | .ok value left => .ok (look value, left.words view)
  | .error error _ => .error error.node

/-- On cursors of the same words two readers do the same, as far as it is seen. -/
structure Alike (view : Option String → Option String) (look : α → γ) (left right : Reader α) :
    Prop where
  run : ∀ cursor other, cursor.words view = other.words view →
    seen view look (left.run cursor) = seen view look (right.run other)

/-- A reader does the same on cursors of the same words. -/
abbrev Steady (view : Option String → Option String) (look : α → γ) (reader : Reader α) : Prop :=
  Alike view look reader reader

namespace Alike

variable {look : α → γ} {final : β → δ}

theorem pure {value other : α} (same : look value = look other) :
    Alike view look (Pure.pure value) (Pure.pure other) :=
  ⟨fun _ _ words => congrArg Except.ok (Prod.ext same words)⟩

theorem bind {left right : Reader α} {next after : α → Reader β}
    (first : Alike view look left right)
    (second : ∀ value other, look value = look other →
      Alike view final (next value) (after other)) :
    Alike view final (left >>= next) (right >>= after) := by
  refine ⟨fun cursor other words => ?_⟩
  have begun := first.run cursor other words
  change seen view final (EStateM.bind left next cursor) =
    seen view final (EStateM.bind right after other)
  change seen view look (left cursor) = seen view look (right other) at begun
  rw [EStateM.bind, EStateM.bind]
  cases ran : left cursor with
  | error error rest =>
      cases also : right other with
      | error _ _ =>
          rw [ran, also] at begun
          exact congrArg Except.error (Except.error.inj begun)
      | ok _ _ =>
          rw [ran, also] at begun
          cases begun
  | ok value rest =>
      cases also : right other with
      | error _ _ =>
          rw [ran, also] at begun
          cases begun
      | ok copy left =>
          rw [ran, also] at begun
          obtain ⟨same, ahead⟩ := Prod.mk.inj (Except.ok.inj begun)
          exact (second value copy same).run rest left ahead

/-- What is yielded at the end is made of what was read. -/
theorem map {left right : Reader α} {finish make : α → β} (first : Alike view look left right)
    (same : ∀ value other, look value = look other → final (finish value) = final (make other)) :
    Alike view final (left >>= fun value => Pure.pure (finish value))
      (right >>= fun value => Pure.pure (make value)) :=
  first.bind fun value other alike => pure (same value other alike)

theorem mono {left right : Reader α} {coarse : α → δ} (alike : Alike view look left right)
    (coarser : ∀ value other, look value = look other → coarse value = coarse other) :
    Alike view coarse left right := by
  refine ⟨fun cursor other words => ?_⟩
  have both := alike.run cursor other words
  generalize left.run cursor = first at both ⊢
  generalize right.run other = second at both ⊢
  cases first <;> cases second
  · obtain ⟨same, ahead⟩ := Prod.mk.inj (Except.ok.inj both)
    exact congrArg Except.ok (Prod.ext (coarser _ _ same) ahead)
  · cases both
  · cases both
  · exact congrArg Except.error (Except.error.inj both)

theorem fail (span place : Span) (error : ParseError) :
    Alike view look (Reader.fail span error) (Reader.fail place error) :=
  ⟨fun _ _ _ => rfl⟩

/-- What is next decides by its token alone. -/
theorem peek {next after : Located Token → Reader α}
    (second : ∀ found other, found.node = other.node → Alike view look (next found) (after other)) :
    Alike view look (Reader.peek >>= next) (Reader.peek >>= after) := by
  have looked : Alike view Located.node Reader.peek Reader.peek := by
    refine ⟨fun cursor other words => ?_⟩
    cases cursor with
    | nil =>
        obtain rfl : other = [] := List.map_eq_nil_iff.mp words.symm
        rfl
    | cons entry rest =>
        obtain ⟨copy, more, rfl, first, -⟩ := List.map_eq_cons_iff.mp words.symm
        exact congrArg Except.ok (Prod.ext (congrArg Prod.fst first).symm words)
  exact looked.bind second

/-- How many tokens are left is the same. -/
theorem count {next after : Cursor → Reader α}
    (second : ∀ cursor other : Cursor, cursor.length = other.length →
      Alike view look (next cursor) (after other)) :
    Alike view look (get >>= next) (get >>= after) := by
  have whole : Alike view (Cursor.words view) (get : Reader Cursor) get :=
    ⟨fun cursor other words => congrArg Except.ok (Prod.ext words words)⟩
  refine whole.bind fun cursor other words => second cursor other ?_
  simpa [Cursor.words] using congrArg List.length words

end Alike

theorem description_steady : Steady view view takeDescription := by
  refine ⟨fun cursor other words => ?_⟩
  cases cursor with
  | nil =>
      obtain rfl : other = [] := List.map_eq_nil_iff.mp words.symm
      rfl
  | cons entry rest =>
      obtain ⟨copy, more, rfl, first, others⟩ := List.map_eq_cons_iff.mp words.symm
      obtain ⟨token, described⟩ := Prod.mk.inj first
      refine congrArg Except.ok (Prod.ext described.symm ?_)
      exact congrArg₂ List.cons (Prod.ext token.symm rfl) others.symm

theorem next_steady : Steady view Located.node next := by
  refine ⟨fun cursor other words => ?_⟩
  match cursor, words with
  | [], words =>
      obtain rfl : other = [] := List.map_eq_nil_iff.mp words.symm
      rfl
  | [last], words =>
      obtain ⟨copy, rfl, -⟩ := List.map_eq_singleton_iff.mp words.symm
      rfl
  | entry :: following :: rest, words =>
      obtain ⟨copy, more, rfl, first, others⟩ := List.map_eq_cons_iff.mp words.symm
      obtain ⟨second, behind, rfl, -, -⟩ := List.map_eq_cons_iff.mp others
      exact congrArg Except.ok (Prod.ext (congrArg Prod.fst first).symm others.symm)

section Tokens

variable {look : α → γ}

theorem reject_steady (error : Token → ParseError) : Steady view look (reject error) :=
  next_steady.bind fun found other same => same ▸ .fail found.span other.span _

theorem expect_steady (token : Token) : Steady view Located.node (expect token) := by
  refine .peek fun found other same => ?_
  rw [same]
  split
  · exact next_steady
  · exact reject_steady _

theorem skip_steady (token : Token) : Steady view Option.isSome (skip? token) := by
  refine .peek fun found other same => ?_
  rw [same]
  split
  · exact next_steady.map fun _ _ _ => rfl
  · split
    · exact .fail _ _ _
    · exact .pure rfl

/-- An optional token leads to the one or to the other reader. -/
theorem Alike.skip {token : Token} {next after : Option (Located Token) → Reader α}
    (absent : Alike view look (next none) (after none))
    (present : ∀ found other, Alike view look (next (some found)) (after (some other))) :
    Alike view look (skip? token >>= next) (skip? token >>= after) := by
  refine (skip_steady token).bind fun found other same => ?_
  cases found <;> cases other
  · exact absent
  · cases same
  · cases same
  · exact present _ _

theorem sees_steady (token : Token) : Steady view id (sees token) :=
  .peek fun found other same => .pure (by rw [same])

theorem Alike.sees {token : Token} {next after : Bool → Reader α}
    (both : ∀ seen, Alike view look (next seen) (after seen)) :
    Alike view look (Reader.sees token >>= next) (Reader.sees token >>= after) :=
  (sees_steady token).bind fun found other same => by
    obtain rfl : found = other := same
    exact both found

theorem name_steady : Steady view Located.bareName name := by
  refine .peek fun found other same => ?_
  rw [same]
  split
  · exact .fail _ _ _
  · cases other.node.asName? with
    | some text => exact next_steady.map fun _ _ _ => rfl
    | none => exact reject_steady _

end Tokens

section Lists

variable {look : α → γ} {item : Reader α}

theorem items_until_steady (closing : Token) (each : Steady view look item) (count : Nat) :
    Steady view (fun read => read.1.map look) (itemsUntil closing item count) := by
  induction count with
  | zero => exact .peek fun found other _ => .fail _ _ _
  | succ count ih =>
      rw [itemsUntil]
      refine .skip ?_ fun _ _ => .pure rfl
      refine each.bind fun first copy same => ?_
      exact ih.map fun rest others same_rest => congrArg₂ List.cons same same_rest

theorem delimited_steady (opening closing : Token) (each : Steady view look item) :
    Steady view (Located.placeless (List.map look)) (delimited opening item closing) := by
  refine (expect_steady opening).bind fun start begin _ => ?_
  refine .count fun cursor other length => ?_
  rw [length]
  exact (items_until_steady closing each _).map fun _ _ same => congrArg Located.unplaced same

theorem delimited_nonempty_steady (opening closing : Token) (each : Steady view look item) :
    Steady view (Located.placeless (List.map look)) (delimitedNonempty opening item closing) := by
  refine (expect_steady opening).bind fun start begin _ => ?_
  refine each.bind fun first copy same => ?_
  refine .count fun cursor other length => ?_
  rw [length]
  exact (items_until_steady closing each _).map fun _ _ others =>
    congrArg Located.unplaced (congrArg₂ List.cons same others)

/-- Which name repeats is decided by the names alone. -/
theorem first_repeat_bare (seen : List String) (names : List (Located String)) :
    (firstRepeat? seen names).map Located.node =
      (firstRepeat? seen (names.map Located.bareName)).map Located.node := by
  induction names generalizing seen with
  | nil => rfl
  | cons name rest ih =>
      rw [firstRepeat?, List.map_cons, firstRepeat?]
      change _ = Option.map _ (if name.node ∈ seen then _ else
        firstRepeat? (name.node :: seen) (rest.map Located.bareName))
      split
      · rfl
      · exact ih _

/-- Items of which the same is seen have the same names, if these are seen. -/
theorem repeats_alike {kind : NameKind} {key : α → Located String} (bare : γ → Located String)
    (shown : ∀ value, bare (look value) = (key value).bareName) {items others : List α}
    (same : items.map look = others.map look) :
    Alike view id (rejectRepeats kind (items.map key)) (rejectRepeats kind (others.map key)) := by
  have names (list : List α) :
      (list.map key).map Located.bareName = (list.map look).map bare := by
    simp only [List.map_map]
    exact List.map_congr_left fun value _ => (shown value).symm
  have found : (firstRepeat? [] (items.map key)).map Located.node =
      (firstRepeat? [] (others.map key)).map Located.node := by
    rw [first_repeat_bare, names, same, ← names, ← first_repeat_bare]
  rw [rejectRepeats, rejectRepeats]
  cases first : firstRepeat? [] (items.map key) <;> cases second : firstRepeat? [] (others.map key)
  · exact .pure rfl
  · simp [first, second] at found
  · simp [first, second] at found
  · rename_i name other
    have same_name : name.node = other.node := by simpa [first, second] using found
    dsimp only
    rw [same_name]
    exact .fail _ _ _

/-- A nonempty list whose items have names that must not repeat. -/
theorem named_list_steady (opening closing : Token) (kind : NameKind) {key : α → Located String}
    (bare : γ → Located String) (shown : ∀ value, bare (look value) = (key value).bareName)
    (each : Steady view look item) :
    Steady view (Located.placeless (List.map look)) (do
      let list ← delimitedNonempty opening item closing
      rejectRepeats kind (list.node.map key)
      pure list) := by
  refine (delimited_nonempty_steady opening closing each).bind fun list other same => ?_
  exact (repeats_alike bare shown (congrArg Located.node same)).bind fun _ _ _ => .pure same

end Lists

section Literals

abbrev lookLiteral : Located Literal → Located Literal := Located.placeless Literal.placeless

theorem constant_steady (literal : Literal) : Steady view lookLiteral (constant literal) :=
  next_steady.map fun _ _ _ => rfl

theorem integer_steady (raw : String) : Steady view lookLiteral (integer raw) := by
  refine next_steady.bind fun found other _ => ?_
  cases integerLiteral? raw.toList with
  | none => exact .fail _ _ _
  | some n => exact .pure rfl

theorem floating_steady (raw : String) : Steady view lookLiteral (floating raw) := by
  refine next_steady.bind fun found other _ => ?_
  cases Binary.read? .single raw.toList with
  | none => exact .fail _ _ _
  | some x => exact .pure rfl

theorem string_steady (raw : String) : Steady view lookLiteral (string raw) := by
  refine next_steady.bind fun found other _ => ?_
  cases unquote raw.toList with
  | error error => exact .fail _ _ _
  | ok text => exact .pure rfl

theorem variable_literal_steady : Steady view lookLiteral variableLiteral := by
  refine (expect_steady _).bind fun dollar mark _ => ?_
  refine name_steady.map fun found other same => ?_
  exact congrArg (fun name => Located.unplaced (Literal.variable name))
    (Located.placeless_node same)

/-- What is seen of a field of an object literal. -/
abbrev lookField (field : Located String × Located Literal) : Located String × Located Literal :=
  (field.1.bareName, lookLiteral field.2)

theorem literal_field_steady {value : Reader (Located Literal)}
    (each : Steady view lookLiteral value) : Steady view lookField (literalField value) := by
  refine name_steady.bind fun key copy same => ?_
  refine (expect_steady _).bind fun colon mark _ => ?_
  exact each.map fun content other alike => Prod.ext same alike

theorem literal_within_steady (isConstant : Bool) (depth : Nat) :
    Steady view lookLiteral (literalWithin isConstant depth) := by
  induction depth with
  | zero => exact .peek fun found other _ => .fail _ _ _
  | succ depth ih =>
      rw [literalWithin]
      refine .peek fun found other same => ?_
      rw [same]
      split
      · refine (delimited_steady _ _ ih).map fun items others alike => ?_
        refine Located.placeless_eq ?_
        rw [Located.map, Located.map, Literal.placeless, Literal.placeless, placeless_items,
          placeless_items]
        exact congrArg (fun list => Literal.list (Located.node list)) alike
      · refine (delimited_steady _ _ (literal_field_steady ih)).bind fun fields others alike => ?_
        have list : fields.node.map lookField = others.node.map lookField :=
          congrArg Located.node alike
        refine (repeats_alike Prod.fst (fun _ => rfl) list).bind fun _ _ _ => .pure ?_
        refine Located.placeless_eq ?_
        rw [Located.map, Located.map, Literal.placeless, Literal.placeless, placeless_fields,
          placeless_fields]
        exact congrArg Literal.object list
      · split
        · exact reject_steady _
        · exact variable_literal_steady
      · exact integer_steady _
      · exact floating_steady _
      · exact string_steady _
      · exact constant_steady _
      · exact constant_steady _
      · exact constant_steady _
      · exact constant_steady _
      · exact .fail _ _ _
      · exact reject_steady _

theorem literal_steady (isConstant : Bool) : Steady view lookLiteral (literal isConstant) := by
  refine .count fun cursor other length => ?_
  rw [length]
  exact literal_within_steady isConstant _

/-- What is seen of a type reference. -/
abbrev lookType : Located TypeRef → Located TypeRef := Located.placeless id

theorem non_null_mark_alike {type other : Located TypeRef} (same : type.node = other.node) :
    Alike view lookType (nonNullMark type) (nonNullMark other) := by
  refine .sees fun marked => ?_
  cases marked with
  | false => exact .pure (congrArg Located.unplaced same)
  | true =>
      refine next_steady.map fun _ _ _ => ?_
      exact congrArg (fun inner => Located.unplaced (TypeRef.nonNull inner)) same

theorem type_within_steady (depth : Nat) : Steady view lookType (typeWithin depth) := by
  induction depth with
  | zero => exact .peek fun found other _ => .fail _ _ _
  | succ depth ih =>
      refine .skip ?_ fun opening mark => ?_
      · refine name_steady.bind fun found other same => non_null_mark_alike ?_
        exact congrArg TypeRef.named (Located.placeless_node same)
      · refine ih.bind fun element other same => ?_
        refine (expect_steady _).bind fun closing stop _ => non_null_mark_alike ?_
        exact congrArg TypeRef.list (Located.placeless_node same)

theorem type_ref_steady : Steady view lookType typeRef := by
  refine .count fun cursor other length => ?_
  rw [length]
  exact type_within_steady _

end Literals

section Selections

theorem argument_steady : Steady view Argument.placeless argument := by
  refine name_steady.bind fun found other same => ?_
  refine (expect_steady _).bind fun colon mark _ => ?_
  exact (literal_steady false).map fun value copy alike => congrArg₂ Argument.mk same alike

theorem arguments_steady : Steady view placelessArguments arguments := by
  refine .sees fun opened => ?_
  cases opened with
  | false => exact .pure rfl
  | true =>
      refine (delimited_nonempty_steady _ _ argument_steady).bind fun list other same => ?_
      have names := Located.placeless_node same
      refine (repeats_alike Argument.name (fun _ => rfl) names).bind fun _ _ _ => .pure ?_
      exact congrArg some same

theorem directive_steady : Steady view (Located.placeless Directive.placeless) directive := by
  refine (expect_steady _).bind fun mark sign _ => ?_
  refine name_steady.bind fun found other same => ?_
  refine arguments_steady.map fun list copy alike => ?_
  exact congrArg Located.unplaced (congrArg₂ Directive.mk same alike)

theorem directive_run_steady (count : Nat) :
    Steady view (List.map (Located.placeless Directive.placeless)) (directiveRun count) := by
  induction count with
  | zero => exact .pure rfl
  | succ count ih =>
      refine .sees fun marked => ?_
      cases marked with
      | false => exact .pure rfl
      | true =>
          refine directive_steady.bind fun first copy same => ?_
          exact ih.map fun rest others alike => congrArg₂ List.cons same alike

theorem directives_steady : Steady view Directives.placeless directives := by
  refine .count fun cursor other length => ?_
  rw [length]
  refine (directive_run_steady _).map fun run others same => ?_
  cases run <;> cases others
  · rfl
  · cases same
  · cases same
  · exact congrArg some same

/-- What is seen of a selection set. -/
abbrev lookSet : Located (List Selection) → Located (List Selection) :=
  Located.placeless placelessSelections

section Fields

variable {set : Reader (Located (List Selection))} (sets : Steady view lookSet set)

include sets

theorem field_parts_alike (start begin : Position) {aliasName copyName : Option (Located String)}
    {name other : Located String}
    (same_alias : aliasName.map Located.bareName = copyName.map Located.bareName)
    (same_name : name.bareName = other.bareName) :
    Alike view Selection.placeless (fieldParts set start aliasName name)
      (fieldParts set begin copyName other) := by
  refine arguments_steady.bind fun list copy same => ?_
  refine directives_steady.bind fun marks others alike => ?_
  refine .sees fun opened => ?_
  cases opened with
  | false =>
      refine .pure ?_
      simp only [Located.between, Selection.placeless, same_alias, same_name, same, alike]
  | true =>
      refine sets.map fun found other_set same_set => ?_
      have selections : placelessSelections found.node = placelessSelections other_set.node :=
        congrArg Located.node same_set
      simp only [Located.between, Selection.placeless, same_alias, same_name, same, alike,
        selections]

theorem field_steady : Steady view Selection.placeless (field set) := by
  refine name_steady.bind fun first copy same => ?_
  refine .skip (field_parts_alike sets _ _ rfl same) fun colon mark => ?_
  refine name_steady.bind fun found other alike => ?_
  exact field_parts_alike sets _ _ (congrArg some same) alike

theorem inline_parts_alike (start begin : Position) {condition other : Option (Located String)}
    (same : condition.map Located.bareName = other.map Located.bareName) :
    Alike view Selection.placeless (inlineParts set start condition)
      (inlineParts set begin other) := by
  refine directives_steady.bind fun marks others alike => ?_
  refine sets.map fun found other_set same_set => ?_
  have selections : placelessSelections found.node = placelessSelections other_set.node :=
    congrArg Located.node same_set
  simp only [Located.between, Selection.placeless, same, alike, selections]

theorem spread_steady : Steady view Selection.placeless (spread set) := by
  refine (expect_steady _).bind fun dots other_dots _ => ?_
  refine .peek fun found other same => ?_
  rw [same]
  split
  · refine next_steady.bind fun _ _ _ => ?_
    refine name_steady.bind fun condition copy alike => ?_
    exact inline_parts_alike sets _ _ (congrArg some alike)
  · exact inline_parts_alike sets _ _ rfl
  · exact inline_parts_alike sets _ _ rfl
  · exact .fail _ _ _
  · split
    · refine name_steady.bind fun name copy alike => ?_
      refine directives_steady.map fun marks others same_marks => ?_
      simp only [Located.between, Selection.placeless, alike, same_marks]
    · exact reject_steady _

end Fields

theorem selection_set_within_steady (depth : Nat) :
    Steady view lookSet (selectionSetWithin depth) := by
  induction depth with
  | zero => exact .peek fun found other _ => .fail _ _ _
  | succ depth ih =>
      have each : Steady view Selection.placeless (do
          if ← sees (.punctuator .spread) then spread (selectionSetWithin depth)
          else field (selectionSetWithin depth)) := by
        refine .sees fun dotted => ?_
        cases dotted with
        | true => exact spread_steady ih
        | false => exact field_steady ih
      refine (delimited_nonempty_steady _ _ each).mono fun found other same => ?_
      refine congrArg Located.unplaced ?_
      rw [placeless_selections, placeless_selections]
      exact congrArg Located.node same

theorem selection_set_steady : Steady view lookSet selectionSet := by
  refine .count fun cursor other length => ?_
  rw [length]
  exact selection_set_within_steady _

theorem default_value_steady : Steady view (Option.map lookLiteral) defaultValue := by
  refine .skip (.pure rfl) fun _ _ => ?_
  exact (literal_steady true).map fun _ _ same => congrArg some same

theorem variable_definition_steady :
    Steady view VariableDefinition.placeless variableDefinition := by
  refine (expect_steady _).bind fun dollar mark _ => ?_
  refine name_steady.bind fun found other same => ?_
  refine (expect_steady _).bind fun _ _ _ => ?_
  refine type_ref_steady.bind fun type copy same_type => ?_
  refine default_value_steady.map fun value default alike => ?_
  have name : found.node = other.node := Located.placeless_node same
  simp only [VariableDefinition.placeless, Located.between, Located.placeless, name, alike]
  exact congrArg (fun type => VariableDefinition.mk _ type _) same_type

theorem variable_definitions_steady :
    Steady view (Option.map (Located.placeless (List.map VariableDefinition.placeless)))
      variableDefinitions := by
  refine .sees fun opened => ?_
  cases opened with
  | false => exact .pure rfl
  | true =>
      refine (delimited_nonempty_steady _ _ variable_definition_steady).bind
        fun list other same => ?_
      have names := Located.placeless_node same
      refine (repeats_alike VariableDefinition.name (fun _ => rfl) names).bind
        fun _ _ _ => .pure ?_
      exact congrArg some same

theorem operation_name_steady : Steady view (Option.map Located.bareName) operationName := by
  refine .peek fun found other same => ?_
  rw [same]
  cases other.node.asName? with
  | none => exact .pure rfl
  | some text => exact name_steady.map fun _ _ alike => congrArg some alike

/-- What is seen of an operation. -/
abbrev lookOperation : Located Operation → Located Operation :=
  Located.placeless Operation.placeless

theorem bare_query_steady : Steady view lookOperation bareQuery := by
  refine selection_set_steady.map fun found other same => Located.placeless_eq ?_
  have selections : placelessSelections found.node = placelessSelections other.node :=
    congrArg Located.node same
  simp only [Located.map, Operation.placeless, selections]

theorem keyword_operation_steady (kind : OperationKind) :
    Steady view lookOperation (keywordOperation kind) := by
  refine next_steady.bind fun keyword word _ => ?_
  refine operation_name_steady.bind fun name copy same_name => ?_
  refine variable_definitions_steady.bind fun list other same => ?_
  refine directives_steady.bind fun marks others alike => ?_
  refine selection_set_steady.map fun found copy_set same_set => Located.placeless_eq ?_
  have selections : placelessSelections found.node = placelessSelections copy_set.node :=
    congrArg Located.node same_set
  simp only [Located.between, Operation.placeless, same_name, same, alike, selections]

theorem fragment_steady :
    Steady view (Located.placeless Fragment.placeless) fragment := by
  refine (expect_steady _).bind fun keyword word _ => ?_
  refine name_steady.bind fun found other same => ?_
  have name : found.node = other.node := Located.placeless_node same
  rw [name]
  split
  · exact .fail _ _ _
  · refine (expect_steady _).bind fun _ _ _ => ?_
    refine name_steady.bind fun condition copy same_condition => ?_
    refine directives_steady.bind fun marks others alike => ?_
    refine selection_set_steady.map fun set copy_set same_set => Located.placeless_eq ?_
    have selections : placelessSelections set.node = placelessSelections copy_set.node :=
      congrArg Located.node same_set
    simp only [Located.between, Fragment.placeless, same, same_condition, alike, selections]

end Selections
end Reader

end GraphQL
