import GraphQL.Proofs.RequestPhrases
import GraphQL.Proofs.RetoldCursors

/-!
Requests in sources with other descriptions.

The query language does not look at descriptions, so the same is read from both sources. What may be
missing at the end of a request is followed by something that may not be.
-/

namespace GraphQL.Reader

variable {α : Type} {told : Retelling}

/-- The same is read from both sources. -/
abbrev ReadsSame (told : Retelling) (reader twin : Reader α) : Prop :=
  Echoes told told.Cursors told.Cursors (Copied id) reader twin

/-- The same is read from both sources, whatever the descriptions in front of it are. -/
abbrev TakesSame (told : Retelling) (reader twin : Reader α) : Prop :=
  ∀ placed, Echoes told (told.Facing placed) told.Cursors (Copied id) reader twin

section Lists

variable {item twin : Reader α}

theorem delimited_same (opening closing : Token) (each : ReadsSame told item twin) :
    ReadsSame told (delimited opening item closing) (delimited opening twin closing) := by
  have list := delimited_echoes opening closing each
  rwa [list_copy_same] at list

theorem delimited_nonempty_same (opening closing : Token) (each : ReadsSame told item twin) :
    TakesSame told (delimitedNonempty opening item closing)
      (delimitedNonempty opening twin closing) := by
  intro placed
  have list := @delimited_nonempty_placed _ told item twin id placed opening closing each
  rwa [list_copy_same] at list

/-- A list in parentheses that may be missing, of items whose names must not repeat. -/
theorem optional_list_same (kind : NameKind) (key : α → Located String)
    (each : ReadsSame told item twin) :
    ReadsSame told
      (do
        if ← sees (.punctuator .parenOpen) then
          let list ← delimitedNonempty (.punctuator .parenOpen) item (.punctuator .parenClose)
          rejectRepeats kind (list.node.map key)
          pure (some list)
        else pure none)
      (do
        if ← sees (.punctuator .parenOpen) then
          let list ← delimitedNonempty (.punctuator .parenOpen) twin (.punctuator .parenClose)
          rejectRepeats kind (list.node.map key)
          pure (some list)
        else pure none) := by
  refine .sees fun opened => ?_
  cases opened with
  | false => exact .pure rfl
  | true =>
      refine (Echoes.widen (delimited_nonempty_same _ _ each _)).step fun list => ?_
      exact (repeats_echoes kind _).step fun _ => .pure rfl

end Lists

section Literals

theorem constant_same (literal : Literal) : ReadsSame told (constant literal) (constant literal) :=
  next_echoes.step fun _ => .pure rfl

theorem integer_same (raw : String) : ReadsSame told (integer raw) (integer raw) := by
  refine next_echoes.step fun found => ?_
  split
  · exact .fail
  · exact .pure rfl

theorem floating_same (raw : String) : ReadsSame told (floating raw) (floating raw) := by
  refine next_echoes.step fun found => ?_
  split
  · exact .fail
  · exact .pure rfl

theorem string_same (raw : String) : ReadsSame told (string raw) (string raw) := by
  refine next_echoes.step fun found => ?_
  split
  · exact .fail
  · exact .pure rfl

theorem variable_literal_same : ReadsSame told variableLiteral variableLiteral :=
  (expect_echoes _).step fun _ => name_echoes.step fun _ => .pure rfl

theorem literal_field_same {value twin : Reader (Located Literal)}
    (each : ReadsSame told value twin) :
    ReadsSame told (literalField value) (literalField twin) :=
  name_echoes.step fun _ => (expect_echoes _).step fun _ => each.step fun _ => .pure rfl

theorem literal_within_same (isConstant : Bool) {depth other : Nat}
    (allows : told.Allows depth other) :
    ReadsSame told (literalWithin isConstant depth) (literalWithin isConstant other) := by
  induction depth generalizing other with
  | zero => exact .none_allowed (literalWithin isConstant) told.cursors_heads allows rfl rfl
  | succ depth ih =>
      obtain ⟨less, rfl, fewer⟩ := allows.pred
      refine .peek told.cursors_heads (fun found _ => ?_) fun found ended => ?_
      · split
        · exact (delimited_same _ _ (ih fewer)).step fun _ => .pure rfl
        · refine (delimited_same _ _ (literal_field_same (ih fewer))).step fun _ => ?_
          exact (repeats_echoes _ _).step fun _ => .pure rfl
        · split
          · exact reject_echoes _
          · exact variable_literal_same
        · exact integer_same _
        · exact floating_same _
        · exact string_same _
        · exact constant_same _
        · exact constant_same _
        · exact constant_same _
        · exact constant_same _
        · exact .fail
        · exact reject_echoes _
      · rw [ended]
        exact .fail

theorem literal_same (isConstant : Bool) :
    ReadsSame told (literal isConstant) (literal isConstant) :=
  .count fun _ _ allows => literal_within_same isConstant allows

theorem non_null_mark_same (type : Located TypeRef) :
    ReadsSame told (nonNullMark type) (nonNullMark type) := by
  refine .sees fun marked => ?_
  cases marked with
  | false => exact .pure rfl
  | true => exact next_echoes.step fun _ => .pure rfl

theorem type_within_same {depth other : Nat} (allows : told.Allows depth other) :
    ReadsSame told (typeWithin depth) (typeWithin other) := by
  induction depth generalizing other with
  | zero => exact .none_allowed typeWithin told.cursors_heads allows rfl rfl
  | succ depth ih =>
      obtain ⟨less, rfl, fewer⟩ := allows.pred
      refine (skip_echoes _).step fun opened => ?_
      cases opened with
      | none => exact name_echoes.step fun _ => non_null_mark_same _
      | some opening =>
          exact (ih fewer).step fun _ => (expect_echoes _).step fun _ => non_null_mark_same _

theorem type_ref_same : ReadsSame told typeRef typeRef :=
  .count fun _ _ allows => type_within_same allows

end Literals

section Directives

theorem argument_same : ReadsSame told argument argument :=
  name_echoes.step fun _ => (expect_echoes _).step fun _ => (literal_same false).step fun _ =>
    .pure rfl

theorem arguments_same : ReadsSame told arguments arguments :=
  optional_list_same .argument (·.name) argument_same

theorem directive_same : ReadsSame told directive directive :=
  (expect_echoes _).step fun _ => name_echoes.step fun _ => arguments_same.step fun _ => .pure rfl

/-- What is a phrase of its own takes at least one token. -/
theorem part_shortens {form : Form α} {reader : Reader α} (builds : Parses reader form)
    (alone : ∀ value parts, form value parts → ∃ span inside, parts = [.node span inside])
    {cursor left : Cursor} {found : α} (ran : reader.run cursor = .ok found left) :
    left.length < cursor.length := by
  obtain ⟨parts, tokens, placed, formed, -⟩ := builds.run cursor found left (fun _ _ => trivial) ran
  obtain ⟨span, inside, rfl⟩ := alone found parts formed
  obtain ⟨first, begins, -⟩ := (placed _ (List.mem_singleton.mpr rfl)).covering
  have filled := List.length_pos_of_mem (List.mem_of_mem_head? begins)
  have lengths := congrArg List.length tokens
  simp only [Cursor.tokens, part_leaves, List.flatMap_singleton, List.length_map,
    List.length_append] at lengths
  omega

theorem directive_shortens {cursor left : Cursor} {found : Located Directive}
    (ran : directive.run cursor = .ok found left) : left.length < cursor.length :=
  part_shortens directive_builds (fun _ _ ⟨_⟩ => ⟨_, _, rfl⟩) ran

/--
As many directives are read from the second source, where more of them are allowed only if there
is no room for them: each directive of the first source leaves fewer tokens.
-/
theorem directive_run_same {count other : Nat} (allows : told.Allows count other)
    {cursor later : Cursor} (cursors : told.Cursors cursor later)
    (enough : cursor.length ≤ count) :
    Echo told told.Cursors (Copied id) ((directiveRun count).run cursor)
      ((directiveRun other).run later) := by
  induction count generalizing other cursor later with
  | zero => exact absurd (List.eq_nil_of_length_eq_zero (Nat.le_zero.mp enough)) cursors.filled
  | succ count ih =>
      obtain ⟨less, rfl, fewer⟩ := allows.pred
      rw [directiveRun, directiveRun, sees_run, sees_run,
        decide_eq_decide.mpr (ahead_echoes cursors .at)]
      cases decide (ahead? cursor = .punctuator .at) with
      | false => exact ⟨[], later, rfl, rfl, cursors⟩
      | true =>
          refine (directive_same.run cursor later cursors).bind ?_
          rintro first _ left behind ran - rfl rest
          have shorter := directive_shortens ran
          refine (ih fewer rest (by omega)).bind ?_
          rintro others _ last final - - rfl ended
          exact ⟨_, final, rfl, rfl, ended⟩

theorem directives_same : ReadsSame told directives directives := by
  refine ⟨fun cursor other cursors => ?_⟩
  refine (directive_run_same cursors.allows cursors (Nat.le_refl _)).bind ?_
  rintro run _ left later - - rfl rest
  exact ⟨_, later, rfl, rfl, rest⟩

end Directives

section Selections

variable {selectionSet twin : Reader (Located (List Selection))}

theorem field_parts_same (each : ReadsSame told selectionSet twin) (start : Position)
    (aliasName : Option (Located String)) (fieldName : Located String) :
    ReadsSame told (fieldParts selectionSet start aliasName fieldName)
      (fieldParts twin start aliasName fieldName) := by
  refine arguments_same.step fun list => directives_same.step fun marks => .sees fun opened => ?_
  cases opened with
  | false => exact .pure rfl
  | true => exact each.step fun _ => .pure rfl

theorem field_same (each : ReadsSame told selectionSet twin) :
    ReadsSame told (field selectionSet) (field twin) := by
  refine name_echoes.step fun first => (skip_echoes _).step fun colon => ?_
  cases colon with
  | none => exact field_parts_same each _ _ _
  | some _ => exact name_echoes.step fun _ => field_parts_same each _ _ _

theorem inline_parts_same (each : ReadsSame told selectionSet twin) (start : Position)
    (typeCondition : Option (Located String)) :
    ReadsSame told (inlineParts selectionSet start typeCondition)
      (inlineParts twin start typeCondition) :=
  directives_same.step fun _ => each.step fun _ => .pure rfl

theorem spread_same (each : ReadsSame told selectionSet twin) :
    ReadsSame told (spread selectionSet) (spread twin) := by
  refine (expect_echoes _).step fun dots => ?_
  refine .peek told.cursors_heads (fun found _ => ?_) fun found ended => ?_
  · split
    · exact next_echoes.step fun _ => name_echoes.step fun _ => inline_parts_same each _ _
    · exact inline_parts_same each _ _
    · exact inline_parts_same each _ _
    · exact .fail
    · split
      · exact name_echoes.step fun _ => directives_same.step fun _ => .pure rfl
      · exact reject_echoes _
  · rw [ended]
    exact .fail

theorem selection_set_within_same {depth other : Nat} (allows : told.Allows depth other) :
    TakesSame told (selectionSetWithin depth) (selectionSetWithin other) := by
  induction depth generalizing other with
  | zero => exact fun _ => .none_allowed selectionSetWithin told.facing_heads allows rfl rfl
  | succ depth ih =>
      obtain ⟨less, rfl, fewer⟩ := allows.pred
      refine delimited_nonempty_same _ _ (.sees fun spreads => ?_)
      cases spreads with
      | true => exact spread_same (.widen (ih fewer _))
      | false => exact field_same (.widen (ih fewer _))

theorem selection_set_within_fails_at_end (depth : Nat) :
    FailsAtEnd (selectionSetWithin depth) := by
  cases depth with
  | zero => exact fun _ _ _ _ ran => by cases ran
  | succ depth => exact (expect_fails_at_end (.punctuator .braceOpen)).first

theorem selection_set_same : TakesSame told Reader.selectionSet Reader.selectionSet :=
  fun placed => .count_placed (fun _ _ allows => selection_set_within_same allows placed)
    fun _ => selection_set_within_fails_at_end _

end Selections

section Operations

theorem default_value_same : ReadsSame told defaultValue defaultValue := by
  refine (skip_echoes _).step fun equals => ?_
  cases equals with
  | none => exact .pure rfl
  | some _ => exact (literal_same true).step fun _ => .pure rfl

theorem variable_definition_same : ReadsSame told variableDefinition variableDefinition :=
  (expect_echoes _).step fun _ => name_echoes.step fun _ => (expect_echoes _).step fun _ =>
    type_ref_same.step fun _ => default_value_same.step fun _ => .pure rfl

theorem variable_definitions_same : ReadsSame told variableDefinitions variableDefinitions :=
  optional_list_same .variable (·.name) variable_definition_same

theorem bare_query_same : TakesSame told bareQuery bareQuery :=
  fun placed => (selection_set_same placed).step fun _ => .pure rfl

/-- What may read nothing leaves the end token where it was, for what fails there. -/
theorem FailsAtEnd.behind {β : Type} {form : Form β} {reader : Reader β} {next : β → Reader α}
    (builds : Parses reader form) (fails : ∀ value, FailsAtEnd (next value)) :
    FailsAtEnd (reader >>= next) := by
  intro entry ended value left ran
  obtain ⟨first, middle, begun, finished⟩ := run_bind ran
  obtain ⟨parts, tokens, -, -, remains⟩ := builds.run _ first middle (fun _ _ => trivial) begun
  obtain ⟨last, rfl⟩ : ∃ last, middle = [last] := by
    have filled := List.length_pos_of_ne_nil (remains (List.cons_ne_nil _ _))
    have lengths := congrArg List.length tokens
    simp only [Cursor.tokens, List.length_map, List.length_append, List.length_singleton]
      at filled lengths
    exact List.length_eq_one_iff.mp (by omega)
  have same : entry.token = last.token := by
    rcases List.append_eq_singleton_iff.mp tokens.symm with ⟨-, whole⟩ | ⟨-, whole⟩
    · exact (List.cons.inj whole).1.symm
    · cases whole
  exact fails first last (same ▸ ended) value left finished

theorem selection_set_fails_at_end : FailsAtEnd Reader.selectionSet :=
  fun entry => selection_set_within_fails_at_end 1 entry

/-- An operation needs a selection set, so it does not end with its name. -/
theorem keyword_operation_same (kind : OperationKind) :
    TakesSame told (keywordOperation kind) (keywordOperation kind) := by
  refine fun placed => next_placed.bind fun _ keyword taken => ?_
  obtain ⟨rfl, -⟩ := taken
  unfold operationName
  rw [bind_assoc]
  refine .peek told.cursors_heads (fun found _ => ?_) fun found ended => ?_
  · cases found.node.asName? with
    | none =>
        rw [pure_bind]
        exact variable_definitions_same.step fun _ => directives_same.step fun _ =>
          (Echoes.widen (selection_set_same _)).step fun _ => .pure rfl
    | some text =>
        rw [bind_assoc]
        exact name_echoes.step fun operation => variable_definitions_same.step fun _ =>
          directives_same.step fun _ => (Echoes.widen (selection_set_same _)).step fun _ => .pure rfl
  · rw [ended]
    change FailsAtEnd (variableDefinitions >>= _)
    exact .behind variable_definitions_builds fun _ => .behind directives_builds fun _ =>
      selection_set_fails_at_end.first

theorem fragment_same : TakesSame told fragment fragment := by
  refine fun placed => (expect_placed _).bind fun _ keyword taken => ?_
  obtain ⟨rfl, -⟩ := taken
  refine name_echoes.step fun fragmentName => ?_
  split
  · exact .fail
  · exact (expect_echoes _).step fun _ => name_echoes.step fun _ => directives_same.step fun _ =>
      (Echoes.widen (selection_set_same _)).step fun _ => .pure rfl

end Operations

end GraphQL.Reader
