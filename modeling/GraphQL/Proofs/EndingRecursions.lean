import GraphQL.Proofs.GuardedRounds

/-!
The recursions of the languages, one round each.

Lists of all sorts, literals, types and selection sets are read by counted recursions. Their rounds
are said here without any count. Each takes a token before it asks for a further round, be it a mark
that opens something or an item of a list.
-/

namespace GraphQL

namespace Reader

/-- One round of reading items up to a closing token. -/
def itemsRound {α : Type} (closing : Token) (item : Reader α)
    (later : Reader (List α × Position)) : Reader (List α × Position) := do
  match ← skip? closing with
  | some token => pure ([], token.span.stop)
  | none => do
      let first ← item
      let (rest, stop) ← later
      pure (first :: rest, stop)

/-- One round of reading items up to a token that is not taken. -/
def itemsBeforeRound {α : Type} (item : Reader α) (closing : Token) (later : Reader (List α)) :
    Reader (List α) := do
  let first ← item
  if ← sees closing then pure [first]
  else
    let rest ← later
    pure (first :: rest)

def directiveRound (later : Reader (List (Located Directive))) :
    Reader (List (Located Directive)) := do
  if ← sees (.punctuator .at) then
    let first ← directive
    let rest ← later
    pure (first :: rest)
  else pure []

def memberRound (later : Reader (List (Located String))) : Reader (List (Located String)) := do
  match ← skip? (.punctuator .pipe) with
  | none => pure []
  | some _ => do
      let first ← name
      let rest ← later
      pure (first :: rest)

/-- One level of literals, with a reader for the next one. -/
def literalRound (isConstant : Bool) (inner : Reader (Located Literal)) :
    Reader (Located Literal) := do
  let found ← peek
  match found.node with
  | .punctuator .bracketOpen => do
      let items ← delimited (.punctuator .bracketOpen) inner (.punctuator .bracketClose)
      pure (items.map .list)
  | .punctuator .braceOpen => do
      let fields ← delimited (.punctuator .braceOpen) (literalField inner)
        (.punctuator .braceClose)
      rejectRepeats .inputField (fields.node.map (·.1))
      pure (fields.map .object)
  | .punctuator .dollar =>
      if isConstant then reject fun token => .unexpectedToken token.text
      else variableLiteral
  | .int raw => integer raw
  | .float raw => floating raw
  | .string raw => string raw
  | .bool value => constant (.bool value)
  | .null => constant .null
  | .name text => constant (.enum text)
  | .keyword word => constant (.enum word.text)
  | .endOfFile => fail found.span .unexpectedEnd
  | _ => reject fun token => .unexpectedToken token.text

/-- One level of types, with a reader for the next one. -/
def typeRound (inner : Reader (Located TypeRef)) : Reader (Located TypeRef) := do
  match ← skip? (.punctuator .bracketOpen) with
  | some opening => do
      let element ← inner
      let closing ← expect (.punctuator .bracketClose)
      nonNullMark (.between opening.span.start closing.span.stop (.list element.node))
  | none => do
      let typeName ← name
      nonNullMark (typeName.map .named)

/-- A selection, with a reader for selection sets. -/
def selectionItem (set : Reader (Located (List Selection))) : Reader Selection := do
  if ← sees (.punctuator .spread) then spread set else field set

/-- One level of selection sets, with a reader for the next one. -/
def selectionSetRound (inner : Reader (Located (List Selection))) :
    Reader (Located (List Selection)) :=
  delimitedNonempty (.punctuator .braceOpen) (selectionItem inner) (.punctuator .braceClose)

end Reader

/-- A counted recursion that refuses the next token when the count is used up. -/
theorem used_up_operates {α : Type} {least : Nat} :
    Operates least (do
      let found ← Reader.peek
      Reader.fail found.span .unexpectedEnd : Reader α) :=
  Operates.peek.look fun _ => .fail _ _

section Lists

theorem items_recursion {α : Type} (closing : Token) {item : Reader α} (takes : Operates 1 item) :
    Recursion 0 (Reader.itemsRound closing item) (Reader.itemsUntil closing item) where
  unrolled _ := rfl
  starts := used_up_operates
  guarded := by
    refine .skip (fun token => .closed (.pure _)) ?_
    exact .mono (.take takes fun first => Round.gap.finish fun ⟨_, _⟩ => .pure _) le_rfl
      (Nat.zero_le _)

theorem items_before_round {α : Type} (closing : Token) {item : Reader α}
    (takes : Operates 1 item) : Round 0 1 0 (Reader.itemsBeforeRound item closing) := by
  refine .mono (.take takes fun first => ?_) le_rfl (Nat.zero_le _)
  exact .look (.sees _) fun ended => .branch (.closed (.pure _)) (Round.gap.finish fun _ => .pure _)

end Lists

section Literals

open Reader

theorem constant_operates (literal : Literal) : Operates 1 (constant literal) :=
  Operates.next.take fun _ => .pure _

theorem integer_operates (raw : String) : Operates 1 (integer raw) := by
  refine Operates.next.take fun token => ?_
  split
  · exact .fail _ _
  · exact .pure _

theorem floating_operates (raw : String) : Operates 1 (floating raw) := by
  refine Operates.next.take fun token => ?_
  split
  · exact .fail _ _
  · exact .pure _

theorem string_operates (raw : String) : Operates 1 (string raw) := by
  refine Operates.next.take fun token => ?_
  split
  · exact .fail _ _
  · exact .pure _

theorem variable_literal_operates : Operates 1 variableLiteral :=
  (Operates.expect _).take fun _ => Operates.name.look fun _ => .pure _

variable {γ : Type} {inner behind least : Nat}

theorem literal_field_round {value : Reader γ → Reader (Located Literal)}
    (made : Round inner (behind - 1) least value) :
    Round inner behind 1 fun hole => literalField (value hole) := by
  refine .take .name fun key => .look (.expect _) fun colon => ?_
  exact .mono (made.finish fun content => .pure _) le_rfl (Nat.zero_le _)

theorem literal_recursion (isConstant : Bool) :
    Recursion 1 (literalRound isConstant) (literalWithin isConstant) where
  unrolled _ := rfl
  starts := used_up_operates
  guarded := by
    have refused : Operates 1 (reject fun token => .unexpectedToken token.text :
      Reader (Located Literal)) := .reject _
    refine .look .peek fun found => ?_
    generalize found.node = node
    cases node with
    | punctuator mark =>
        cases mark with
        | bracketOpen => exact (Round.delimited _ _ .gap).finish fun items => .pure _
        | braceOpen =>
            refine (Round.delimited _ _ (literal_field_round .gap)).finish fun fields => ?_
            exact (Operates.reject_repeats _ _).look fun _ => .pure _
        | dollar => exact .closed (.branch refused variable_literal_operates)
        | _ => exact .closed refused
    | int raw => exact .closed (integer_operates raw)
    | float raw => exact .closed (floating_operates raw)
    | string raw => exact .closed (string_operates raw)
    | bool | null | name | keyword => exact .closed (constant_operates _)
    | endOfFile => exact .closed (.fail _ _)
    | description => exact .closed refused

end Literals

section Types

open Reader

theorem non_null_mark_operates (type : Located TypeRef) : Operates 0 (nonNullMark type) :=
  (Operates.sees _).look fun _ => .branch (Operates.next.look fun _ => .pure _) (.pure _)

theorem type_recursion : Recursion 1 typeRound typeWithin where
  unrolled _ := rfl
  starts := used_up_operates
  guarded := by
    refine .skip (fun opening => ?_) (.closed ?_)
    · refine Round.gap.finish fun element => (Operates.expect _).look fun closing => ?_
      exact non_null_mark_operates _
    · exact Operates.name.take fun typeName => non_null_mark_operates _

end Types

section Arguments

open Reader

theorem literal_operates (isConstant : Bool) : Operates 1 (literal isConstant) :=
  (literal_recursion isConstant).counted

theorem type_ref_operates : Operates 1 typeRef := type_recursion.counted

theorem argument_operates : Operates 1 argument :=
  Operates.name.take fun _ => (Operates.expect _).look fun _ =>
    (literal_operates false).look fun _ => .pure _

theorem arguments_operate : Operates 0 arguments := by
  refine (Operates.sees _).look fun _ => .branch ?_ (.pure _)
  refine (Operates.delimited_nonempty _ _ argument_operates.any).look fun list => ?_
  exact (Operates.reject_repeats _ _).look fun _ => .pure _

theorem directive_operates : Operates 1 directive :=
  (Operates.expect _).take fun _ => Operates.name.look fun _ =>
    arguments_operate.look fun _ => .pure _

theorem directive_recursion : Recursion 0 directiveRound directiveRun where
  unrolled _ := rfl
  starts := .pure _
  guarded := by
    refine .look (.sees _) fun there => .branch ?_ (.closed (.pure _))
    exact .mono (.take directive_operates fun first => Round.gap.finish fun _ => .pure _) le_rfl
      (Nat.zero_le _)

theorem directives_operate : Operates 0 directives :=
  directive_recursion.counted.look fun _ => .pure _

end Arguments

section Selections

open Reader

variable {γ : Type} {inner behind least : Nat} {set : Reader γ → Reader (Located (List Selection))}

theorem field_parts_round (made : Round inner behind least set) (start : Position)
    (aliasName : Option (Located String)) (fieldName : Located String) :
    Round inner behind 0 fun hole => fieldParts (set hole) start aliasName fieldName := by
  refine .look arguments_operate fun list => .look directives_operate fun marks => ?_
  refine .look (.sees _) fun open_brace => .branch ?_ (.closed (.pure _))
  exact .mono (made.finish fun found => .pure _) le_rfl (Nat.zero_le _)

theorem field_round (made : Round inner (behind - 1) least set) :
    Round inner behind 1 fun hole => field (set hole) := by
  refine .take .name fun first => .look (.skip _) fun colon => ?_
  cases colon with
  | none => exact field_parts_round made _ _ _
  | some token => exact .look .name fun fieldName => field_parts_round made _ _ _

theorem inline_parts_round (made : Round inner behind least set) (start : Position)
    (condition : Option (Located String)) :
    Round inner behind 0 fun hole => inlineParts (set hole) start condition := by
  refine .look directives_operate fun marks => ?_
  exact .mono (made.finish fun found => .pure _) le_rfl (Nat.zero_le _)

theorem spread_round (made : Round inner (behind - 1) least set) :
    Round inner behind 1 fun hole => spread (set hole) := by
  refine .take (.expect _) fun dots => .look .peek fun found => ?_
  generalize found.node = node
  have named : Operates 0 (do
      let fragmentName ← name
      let marks ← directives
      pure (.spread (.between dots.span.start (directivesStop marks fragmentName.span.stop)
        ⟨fragmentName, marks⟩)) : Reader Selection) :=
    Operates.name.look fun _ => directives_operate.look fun _ => .pure _
  have refused : Operates 0 (reject fun other =>
      .expectedToken ["Name", "on", "\x7b", "@"] other.text : Reader Selection) := .reject _
  cases node with
  | keyword word =>
      cases word with
      | on => exact .look .next fun _ => .look .name fun _ => inline_parts_round made _ _
      | _ => exact .closed named
  | punctuator mark =>
      cases mark with
      | braceOpen | «at» => exact inline_parts_round made _ _
      | _ => exact .closed refused
  | endOfFile => exact .closed (.fail _ _)
  | bool value => cases value <;> exact .closed named
  | name | null => exact .closed named
  | string | float | int | description => exact .closed refused

theorem selection_item_round (made : Round inner (behind - 1) least set) :
    Round inner behind 1 fun hole => selectionItem (set hole) :=
  .look (.sees _) fun _ => .branch (spread_round made) (field_round made)

theorem selection_set_recursion : Recursion 1 selectionSetRound selectionSetWithin where
  unrolled _ := rfl
  starts := used_up_operates
  guarded := .delimited_nonempty _ _ (selection_item_round .gap)

end Selections

end GraphQL
