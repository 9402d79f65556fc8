import GraphQL.Proofs.ReplacedLists

/-!
Requests in two sources that differ in one word.

Each reader yields something well-formed and tells all lists in it, so that a name in any of them is
followed into the second source. Names that stand alone are taken there as they are.
-/

namespace GraphQL.Reader

/-- What is told of something well-formed: names that are to be compared, and lists that were. -/
structure Tells (names : List (Located String)) (good : Prop) (inside : NameList → Prop)
    (own : List (Located String)) (lists : List NameList) : Prop where
  own : own = names
  good : good
  inside : ∀ list, inside list → list ∈ lists

variable {change : Replacement} {apt bare : Prop} {ahead : Located Token → Prop}

/--
A list between two marks whose entries have different names. What is told of its entries is told of
the list, and its names are compared, if the word that differs can be one of them.
-/
theorem named_list_followed {α β : Type} (fits : Prop) {item : Reader α} {key : α → Located String}
    {good : α → Prop} {inside : α → NameList → Prop}
    (follows : Follows change fits False item item
      (fun value copy => change.Names (key value) (key copy))
      fun value => Tells [key value] (good value) (inside value))
    (valid : ∀ value, good value → (key value).Valid)
    (fit : ∀ value, good value → (key value).node = change.word → fits)
    {opening closing : Punctuator} (opens : opening ≠ .at) (closes : closing ≠ .at)
    {kind : NameKind} {finish finishing : Located (List α) → β}
    {goal : β → List (Located String) → List NameList → Prop}
    (told : ∀ (list : Located (List α)) own lists,
      EachTold (fun value => Tells [key value] (good value) (inside value)) list.node own lists →
        list.node ≠ [] → NamesInOrder (list.node.map key) →
          goal (finish list) [] ((kind, list.node.map key) :: lists)) :
    FollowsFrom change apt ahead bare
      (delimitedNonempty (.punctuator opening) item (.punctuator closing) >>= fun list =>
        rejectRepeats kind (list.node.map key) >>= fun _ => pure (finish list))
      (delimitedNonempty (.punctuator opening) item (.punctuator closing) >>= fun list =>
        rejectRepeats kind (list.node.map key) >>= fun _ => pure (finishing list))
      (fun _ _ => True) goal := by
  have list := @delimited_nonempty_followed _ change fits True ahead _ _ _ _ follows
    (.punctuator opening) (.punctuator closing) rfl (by simpa) (by simpa)
  refine (entries_compared list (fun _ _ _ found => found.1)
    (fun value _ _ one => ⟨one.own, valid value one.good⟩) (fun _ _ like => like) ?_).mono ?_
    fun _ _ => id
  · rintro values own lists ⟨each, -⟩ order repeats
    obtain ⟨name, member, word⟩ := order.word_repeats repeats
    rw [each.keys fun _ _ _ one => one.own] at member
    obtain ⟨value, among, rfl⟩ := List.mem_map.mp member
    obtain ⟨_, _, one, -⟩ := each.member among
    exact fit value one.good word
  · rintro result own lists ⟨rfl, list, inner, rfl, ⟨each, filled⟩, names, rfl⟩
    exact ⟨[], List.Sublist.refl _, told list _ inner each filled names⟩

section Literals

variable {isConstant : Bool}

abbrev LiteralTold (isConstant : Bool) (literal : Located Literal) :
    List (Located String) → List NameList → Prop :=
  Tells [] (literal.node.WellFormed isConstant) literal.node.Lists

theorem scalar_told {literal : Located Literal} (good : literal.node.WellFormed isConstant)
    (flat : ∀ list, ¬ literal.node.Lists list) : LiteralTold isConstant literal [] [] where
  own := rfl
  good := good
  inside list there := absurd there (flat list)

/-- A token that is no mark is taken as what it means. -/
theorem scalar_followed {token : Token} (plain : token ≠ .punctuator .at)
    {finish : Located Token → Reader (Located Literal)}
    (finished : ∀ found copy, FollowsFrom change apt (fun _ => True) False (finish found)
      (finish copy) (fun _ _ => True) (LiteralTold isConstant)) :
    FollowsFrom change apt (fun found => found.node = token) bare (next >>= finish)
      (next >>= finish) (fun _ _ => True) (LiteralTold isConstant) := by
  have apart (found : Located Token) (here : found.node = token) :
      found.node ≠ .punctuator .at := here ▸ plain
  exact (FollowsFrom.next apart).step fun found copy _ _ => finished found copy

theorem constant_followed {token : Token} (plain : token ≠ .punctuator .at) {literal : Literal}
    (good : literal.WellFormed isConstant) (flat : ∀ list, ¬ literal.Lists list) :
    FollowsFrom change apt (fun found => found.node = token) bare (constant literal)
      (constant literal) (fun _ _ => True) (LiteralTold isConstant) :=
  scalar_followed plain fun _ _ => .pure trivial (scalar_told good flat)

theorem integer_followed (raw : String) :
    FollowsFrom change apt (fun found => found.node = .int raw) bare (integer raw) (integer raw)
      (fun _ _ => True) (LiteralTold isConstant) := by
  refine scalar_followed (by simp) fun found copy => ?_
  cases integerLiteral? raw.toList with
  | none => exact .fail
  | some n => exact .pure trivial (scalar_told (.int _) fun list inside => by cases inside)

theorem floating_followed (raw : String) :
    FollowsFrom change apt (fun found => found.node = .float raw) bare (floating raw) (floating raw)
      (fun _ _ => True) (LiteralTold isConstant) := by
  refine scalar_followed (by simp) fun found copy => ?_
  cases Binary.read? .single raw.toList with
  | none => exact .fail
  | some x => exact .pure trivial (scalar_told (.float _) fun list inside => by cases inside)

theorem string_followed (raw : String) :
    FollowsFrom change apt (fun found => found.node = .string raw) bare (string raw) (string raw)
      (fun _ _ => True) (LiteralTold isConstant) := by
  refine scalar_followed (by simp) fun found copy => ?_
  cases unquote raw.toList with
  | error error => exact .fail
  | ok text => exact .pure trivial (scalar_told (.string _) fun list inside => by cases inside)

theorem variable_followed :
    FollowsFrom change apt ahead bare variableLiteral variableLiteral (fun _ _ => True)
      (LiteralTold false) := by
  unfold variableLiteral
  refine (FollowsFrom.expect (by simp)).step fun dollar _ _ _ => ?_
  refine FollowsFrom.bare_name.step fun name _ _ valid => ?_
  exact .pure trivial (scalar_told (.variable rfl valid) fun list inside => by cases inside)

theorem literal_field_followed {value : Reader (Located Literal)}
    (follows : Follows change apt False value value (fun _ _ => True) (LiteralTold isConstant)) :
    Follows change apt False (literalField value) (literalField value)
      (fun field copy => change.Names field.1 copy.1)
      fun field => Tells [field.1] (field.1.Valid ∧ field.2.node.WellFormed isConstant)
        field.2.node.Lists := by
  unfold literalField
  refine FollowsFrom.name.bind fun key copy own lists like told => ?_
  obtain ⟨rfl, rfl, valid, _⟩ := told
  refine (FollowsFrom.expect (by simp)).step fun colon _ _ _ => ?_
  refine follows.bind fun content _ own lists _ told => ?_
  obtain ⟨rfl, good, inside⟩ := told
  exact .pure like ⟨rfl, ⟨valid, good⟩, by simpa using inside⟩

theorem items_told {items : Located (List (Located Literal))} {own : List (Located String)}
    {lists : List NameList} (told : EachTold (LiteralTold isConstant) items.node own lists) :
    LiteralTold isConstant (items.map .list) own lists where
  own := told.unnamed fun _ _ _ each => each.own
  good := .list fun item member =>
    have ⟨_, _, each, _⟩ := told.member member
    each.good
  inside list there := by
    cases there with
    | item member inside =>
        obtain ⟨_, _, each, among⟩ := told.member member
        exact among (each.inside list inside)

theorem fields_told {fields : Located (List (Located String × Located Literal))}
    {own : List (Located String)} {lists : List NameList}
    (told : EachTold (fun field => Tells [field.1]
      (field.1.Valid ∧ field.2.node.WellFormed isConstant) field.2.node.Lists) fields.node own
      lists)
    (names : NamesInOrder (fields.node.map Prod.fst)) :
    LiteralTold isConstant (fields.map .object) []
      ((.inputField, fields.node.map Prod.fst) :: lists) where
  own := rfl
  good := .object names.keyed fun field member =>
    have ⟨_, _, each, _⟩ := told.member member
    each.good.2
  inside list there := by
    cases there with
    | object => exact List.mem_cons_self
    | field member inside =>
        obtain ⟨_, _, each, among⟩ := told.member member
        exact List.mem_cons_of_mem _ (among (each.inside list inside))

theorem object_followed {value : Reader (Located Literal)}
    (follows : Follows change True False value value (fun _ _ => True) (LiteralTold isConstant)) :
    FollowsFrom change apt ahead bare
      (do
        let fields ← delimited (.punctuator .braceOpen) (literalField value)
          (.punctuator .braceClose)
        rejectRepeats .inputField (fields.node.map (·.1))
        pure (fields.map .object))
      (do
        let fields ← delimited (.punctuator .braceOpen) (literalField value)
          (.punctuator .braceClose)
        rejectRepeats .inputField (fields.node.map (·.1))
        pure (fields.map .object))
      (fun _ _ => True) (LiteralTold isConstant) := by
  have fields := @delimited_followed _ change True True ahead _ _ _ _
    (literal_field_followed follows) (.punctuator .braceOpen) (.punctuator .braceClose) rfl (by simp) (by simp)
  refine (entries_compared fields (fun _ _ _ told => told)
    (fun _ _ _ told => ⟨told.own, told.good.1⟩) (fun _ _ like => like)
    fun _ _ _ _ _ _ => trivial).mono ?_ fun _ _ => id
  rintro result own lists ⟨rfl, list, inner, rfl, told, names, rfl⟩
  exact ⟨[], List.Sublist.refl _, fields_told told names⟩

theorem literal_within_followed (isConstant : Bool) (depth : Nat) :
    Follows change apt False (literalWithin isConstant depth) (literalWithin isConstant depth)
      (fun _ _ => True) (LiteralTold isConstant) := by
  induction depth with
  | zero =>
      rw [literalWithin]
      exact .peek fun found copy _ _ => .fail
  | succ depth ih =>
      rw [literalWithin]
      refine .peek fun found copy word same => ?_
      rw [same]
      split
      · rename_i here
        rw [here]
        refine (delimited_followed ih rfl (by simp) (by simp)).bind
          fun items _ own lists _ told => ?_
        refine .pure trivial ?_
        rw [List.append_nil, List.append_nil]
        exact items_told told
      · rename_i here
        rw [here]
        exact object_followed (ih.settled fun _ _ _ told => told.own)
      · rename_i here
        rw [here]
        split
        · exact .reject
        · rename_i free
          obtain rfl : isConstant = false := by simpa using free
          exact variable_followed
      · rename_i raw here
        rw [here]
        exact (integer_followed raw).knowing fun token there => there ▸ here
      · rename_i raw here
        rw [here]
        exact (floating_followed raw).knowing fun token there => there ▸ here
      · rename_i raw here
        rw [here]
        exact (string_followed raw).knowing fun token there => there ▸ here
      · rename_i value here
        rw [here]
        exact (constant_followed (by simp) (.bool value) fun list inside => by cases inside).knowing
          fun token there => there ▸ here
      · rename_i here
        rw [here]
        exact (constant_followed (by simp) .null fun list inside => by cases inside).knowing
          fun token there => there ▸ here
      · rename_i text here
        rw [here] at word ⊢
        exact (constant_followed (by simp) (.enum (Token.Means.name.enum_name word))
          fun list inside => by cases inside).knowing fun token there => there ▸ here
      · rename_i keyword here
        rw [here] at word ⊢
        exact (constant_followed (by simp) (.enum (Token.Means.keyword.enum_name word))
          fun list inside => by cases inside).knowing fun token there => there ▸ here
      · exact .fail
      · exact .reject

theorem literal_followed (isConstant : Bool) :
    Follows change apt False (literal isConstant) (literal isConstant) (fun _ _ => True)
      (LiteralTold isConstant) := by
  unfold literal
  refine Glances.count.bind fun cursor other length => ?_
  rw [length]
  exact literal_within_followed isConstant _

end Literals

section Types

abbrev TypeTold : Located TypeRef → List (Located String) → List NameList → Prop :=
  Plain fun type => type.node.Writable

theorem non_null_mark_followed {type copy : Located TypeRef} (good : type.node.Writable)
    (nullable : type.node.isNonNull = false) :
    Follows change apt False (nonNullMark type) (nonNullMark copy) (fun _ _ => True) TypeTold := by
  unfold nonNullMark
  refine .sees rfl ?_ (.pure trivial ⟨rfl, rfl, good⟩)
  refine (FollowsFrom.next fun found here => by simp [here]).step fun mark _ _ _ => ?_
  exact .pure trivial ⟨rfl, rfl, good, nullable⟩

theorem type_within_followed (depth : Nat) :
    Follows change apt False (typeWithin depth) (typeWithin depth) (fun _ _ => True) TypeTold := by
  induction depth with
  | zero =>
      rw [typeWithin]
      exact .peek fun found copy _ _ => .fail
  | succ depth ih =>
      rw [typeWithin]
      refine .skip_cases rfl (by simp) (fun opening _ => ?_) ?_
      · refine ih.step fun element _ _ good => ?_
        refine (FollowsFrom.expect (by simp)).step fun closing _ _ _ => ?_
        exact non_null_mark_followed good rfl
      · exact FollowsFrom.bare_name.step fun typeName _ _ valid => non_null_mark_followed valid rfl

theorem type_ref_followed :
    Follows change apt False typeRef typeRef (fun _ _ => True) TypeTold := by
  unfold typeRef
  refine Glances.count.bind fun cursor other length => ?_
  rw [length]
  exact type_within_followed _

end Types

section Arguments

theorem argument_followed :
    Follows change apt False argument argument
      (fun argument copy => change.Names argument.name copy.name)
      fun argument => Tells [argument.name]
        (argument.name.Valid ∧ argument.value.node.WellFormed false) argument.value.node.Lists := by
  unfold argument
  refine FollowsFrom.name.bind fun argumentName copy own lists like told => ?_
  obtain ⟨rfl, rfl, valid, _⟩ := told
  refine (FollowsFrom.expect (by simp)).step fun colon _ _ _ => ?_
  refine (literal_followed false).bind fun value _ own lists _ told => ?_
  obtain ⟨rfl, good, inside⟩ := told
  exact .pure like ⟨rfl, ⟨valid, good⟩, by simpa using inside⟩

abbrev ArgumentsTold (arguments : Option (Located (List Argument))) :
    List (Located String) → List NameList → Prop :=
  Tells [] (ArgumentsWellFormed arguments) (ArgumentsList arguments)

theorem no_arguments_told : ArgumentsTold none [] [] where
  own := rfl
  good := {
    filled := fun _ absent => by cases absent
    keyed := fun _ absent => by cases absent
    values := fun _ absent => by cases absent }
  inside _ there := by cases there

theorem arguments_told {list : Located (List Argument)} {own : List (Located String)}
    {lists : List NameList}
    (told : EachTold (fun argument => Tells [argument.name]
      (argument.name.Valid ∧ argument.value.node.WellFormed false) argument.value.node.Lists)
      list.node own lists) (filled : list.node ≠ [])
    (names : NamesInOrder (list.node.map (·.name))) :
    ArgumentsTold (some list) [] ((.argument, list.node.map (·.name)) :: lists) where
  own := rfl
  good := {
    filled := by
      rintro _ ⟨⟩
      exact filled
    keyed := by
      rintro _ ⟨⟩
      exact names.keyed
    values := by
      rintro _ ⟨⟩ argument member
      obtain ⟨_, _, each, -⟩ := told.member member
      exact each.good.2 }
  inside list there := by
    cases there with
    | names => exact List.mem_cons_self
    | value member inside =>
        obtain ⟨_, _, each, among⟩ := told.member member
        exact List.mem_cons_of_mem _ (among (each.inside list inside))

theorem arguments_followed :
    Follows change apt False arguments arguments (fun _ _ => True) ArgumentsTold := by
  unfold arguments
  refine .sees rfl ?_ (.pure trivial no_arguments_told)
  exact named_list_followed True argument_followed (fun _ good => good.1)
    (fun _ _ _ => trivial) (by simp) (by simp) fun _ _ _ => arguments_told

/-- A directive behind its mark. -/
theorem directive_rest_followed {mark copy : Located Token} :
    Follows change apt False
      (do
        let directiveName ← name
        let list ← arguments
        let stop :=
          match list with
          | some located => located.span.stop
          | none => directiveName.span.stop
        pure (.between mark.span.start stop ⟨directiveName, list⟩ : Located Directive))
      (do
        let directiveName ← name
        let list ← arguments
        let stop :=
          match list with
          | some located => located.span.stop
          | none => directiveName.span.stop
        pure (.between copy.span.start stop ⟨directiveName, list⟩ : Located Directive))
      (fun _ _ => True) fun directive =>
        Tells [] directive.node.WellFormed (ArgumentsList directive.node.arguments) := by
  refine FollowsFrom.bare_name.step fun directiveName _ _ valid => ?_
  refine arguments_followed.bind fun list _ own lists _ told => ?_
  obtain ⟨rfl, good, inside⟩ := told
  refine .pure trivial ⟨rfl, ⟨valid, good⟩, ?_⟩
  rw [List.append_nil]
  exact inside

/-- The arguments of a directive are among the lists that were compared. -/
theorem directive_followed :
    FollowsFrom change apt ahead False directive directive (fun _ _ => True) fun directive =>
      Tells [] directive.node.WellFormed (ArgumentsList directive.node.arguments) := by
  refine ⟨fun cursor other value left orderly cursors known ran => ?_⟩
  obtain ⟨mark, middle, begun, ended⟩ := run_bind ran
  obtain ⟨entry, second, rest, rfl, marked, rfl, rfl⟩ := expect_ran begun
  cases cursors with
  | @cons _ copy _ others first behind =>
      have taken : Followed change apt False (expect (.punctuator .at)) change.Tokens
          (entry :: second :: rest) (copy :: others) (second :: rest) entry.token [entry.token] []
          [] := by
        refine .token copy.token first behind fun here => ?_
        cases behind with
        | cons => exact expect_run ((first.kept here).trans marked) _ _
      obtain ⟨copied, later, like, later_cursors, continued⟩ := taken.bind orderly
      obtain ⟨more, own, lists, told, followed, listed⟩ := directive_rest_followed.run _ later value
        left (orderly.behind taken.past) later_cursors (fun _ _ => trivial) ended
      refine ⟨_, _, _, told, continued followed, ?_⟩
      intro place among longer found after read list inside
      rcases List.suffix_cons_iff.mp among with rfl | inner
      · obtain ⟨same, -⟩ := EStateM.Result.ok.inj (read.symm.trans ran)
        exact told.inside list (same ▸ inside)
      · exact listed place inner longer found after read list inside

theorem directive_run_followed (count : Nat) :
    Follows change apt False (directiveRun count) (directiveRun count) (fun _ _ => True) fun run =>
      Tells [] (∀ directive ∈ run, directive.node.WellFormed) fun list =>
        ∃ directive ∈ run, ArgumentsList directive.node.arguments list := by
  induction count with
  | zero =>
      rw [directiveRun]
      exact .pure trivial ⟨rfl, List.forall_mem_nil _, by simp⟩
  | succ count ih =>
      rw [directiveRun]
      refine .sees rfl ?_ (.pure trivial ⟨rfl, List.forall_mem_nil _, by simp⟩)
      refine directive_followed.bind fun first _ own lists _ told => ?_
      obtain ⟨rfl, good, inside⟩ := told
      refine ih.bind fun rest _ own more _ told => ?_
      obtain ⟨rfl, others, within⟩ := told
      refine .pure trivial ⟨rfl, List.forall_mem_cons.mpr ⟨good, others⟩, fun list there => ?_⟩
      rw [List.append_nil]
      obtain ⟨directive, member, listed⟩ := there
      rcases List.mem_cons.mp member with rfl | later
      · exact List.mem_append_left _ (inside list listed)
      · exact List.mem_append_right _ (within list ⟨directive, later, listed⟩)

abbrev DirectivesTold (marks : Directives) : List (Located String) → List NameList → Prop :=
  Tells [] marks.WellFormed marks.Lists

theorem directives_followed :
    Follows change apt False directives directives (fun _ _ => True) DirectivesTold := by
  unfold directives
  refine Glances.count.bind fun cursor other length => ?_
  rw [length]
  refine (directive_run_followed _).bind fun run _ own lists _ told => ?_
  obtain ⟨rfl, good, inside⟩ := told
  refine .pure trivial ?_
  rw [List.append_nil, List.append_nil]
  cases run with
  | nil => exact ⟨rfl, ⟨by simp, by simp⟩, fun list there => by simp [Directives.Lists] at there⟩
  | cons first rest => exact ⟨rfl, ⟨by simp, good⟩, inside⟩

end Arguments

section Selections

abbrev SetTold (set : Located (List Selection)) : List (Located String) → List NameList → Prop :=
  Tells [] (SelectionsWellFormed set.node) (SelectionsList set.node)

abbrev SelectionTold (selection : Selection) : List (Located String) → List NameList → Prop :=
  Tells [] selection.WellFormed selection.Lists

variable {set : Reader (Located (List Selection))}
  (sets : Follows change apt False set set (fun _ _ => True) SetTold)
include sets

theorem field_parts_followed {start begins : Position} {aliasName other : Option (Located String)}
    {fieldName copy : Located String} (aliased : ∀ name ∈ aliasName, name.Valid)
    (valid : fieldName.Valid) :
    Follows change apt False (fieldParts set start aliasName fieldName)
      (fieldParts set begins other copy) (fun _ _ => True) SelectionTold := by
  unfold fieldParts
  refine arguments_followed.bind fun list _ own lists _ told => ?_
  obtain ⟨rfl, given, given_lists⟩ := told
  refine directives_followed.bind fun marks _ own more _ told => ?_
  obtain ⟨rfl, marked, marked_lists⟩ := told
  refine .sees rfl ?_ ?_
  · refine (sets.knowing fun _ _ => trivial).bind fun found _ own others _ told => ?_
    obtain ⟨rfl, selected, selected_lists⟩ := told
    refine .pure trivial ⟨rfl, .field aliased valid given marked ?_ ?_, fun list there => ?_⟩
    · exact fun empty => selected.filled (Option.some.inj empty)
    · rintro _ ⟨⟩
      exact selected.each
    · rw [List.append_nil]
      cases there with
      | arguments inside => exact List.mem_append_left _ (given_lists list inside)
      | field inside =>
          exact List.mem_append_right _ (List.mem_append_left _ (marked_lists list inside))
      | selected same member inside =>
          cases same
          exact List.mem_append_right _ (List.mem_append_right _
            (selected_lists list ⟨_, member, inside⟩))
  · refine .pure trivial ⟨rfl, .field aliased valid given marked ?_ ?_, fun list there => ?_⟩
    · exact fun empty => by cases empty
    · exact fun _ absent => by cases absent
    · rw [List.append_nil]
      cases there with
      | arguments inside => exact List.mem_append_left _ (given_lists list inside)
      | field inside => exact List.mem_append_right _ (marked_lists list inside)
      | selected same member inside => cases same

theorem field_followed :
    Follows change apt False (field set) (field set) (fun _ _ => True) SelectionTold := by
  unfold field
  refine FollowsFrom.bare_name.step fun first copy _ valid => ?_
  refine .skip_cases rfl (by simp) (fun _ _ => ?_) ?_
  · refine FollowsFrom.bare_name.step fun fieldName _ _ named => ?_
    refine field_parts_followed sets ?_ named
    rintro _ ⟨⟩
    exact valid
  · exact field_parts_followed sets (fun _ absent => by cases absent) valid

theorem inline_parts_followed {start begins : Position} {condition other : Option (Located String)}
    (valid : ∀ name ∈ condition, name.Valid) :
    FollowsFrom change apt ahead False (inlineParts set start condition)
      (inlineParts set begins other) (fun _ _ => True) SelectionTold := by
  unfold inlineParts
  refine (directives_followed.knowing fun _ _ => trivial).bind fun marks _ own lists _ told => ?_
  obtain ⟨rfl, marked, marked_lists⟩ := told
  refine sets.bind fun found _ own more _ told => ?_
  obtain ⟨rfl, selected, selected_lists⟩ := told
  refine .pure trivial ⟨rfl, .inline valid marked selected.filled selected.each, ?_⟩
  intro list there
  rw [List.append_nil]
  cases there with
  | inline inside => exact List.mem_append_left _ (marked_lists list inside)
  | inlined member inside =>
      exact List.mem_append_right _ (selected_lists list ⟨_, member, inside⟩)

theorem spread_followed :
    FollowsFrom change apt ahead False (spread set) (spread set) (fun _ _ => True)
      SelectionTold := by
  unfold spread
  refine (FollowsFrom.expect (by simp)).step fun dots _ _ _ => ?_
  refine .peek fun found copy word same => ?_
  rw [same]
  split
  · rename_i here
    rw [here]
    have plain (token : Located Token) (there : token = found) :
        token.node ≠ .punctuator .at := by simp [there, here]
    refine (FollowsFrom.next plain).step fun _ _ _ _ => ?_
    refine FollowsFrom.bare_name.step fun condition _ _ valid => ?_
    refine inline_parts_followed sets ?_
    rintro _ ⟨⟩
    exact valid
  · rename_i here
    rw [here]
    exact (inline_parts_followed sets fun _ absent => by cases absent).less
      (by simp [Token.asName?])
  · rename_i here
    rw [here]
    exact (inline_parts_followed sets fun _ absent => by cases absent).less
      (by simp [Token.asName?])
  · exact .fail
  · split
    · rename_i text named
      refine FollowsFrom.bare_name.step fun fragmentName _ _ valid => ?_
      refine directives_followed.bind fun marks _ own lists _ told => ?_
      obtain ⟨rfl, marked, inside⟩ := told
      refine .pure trivial ⟨rfl, .spread valid marked, fun list there => ?_⟩
      rw [List.append_nil]
      cases there with
      | spread within => exact inside list within
    · exact .reject

end Selections

section Sets

theorem set_told {set : Located (List Selection)} {own : List (Located String)}
    {lists : List NameList} (told : EachTold SelectionTold set.node own lists)
    (filled : set.node ≠ []) : SetTold set own lists where
  own := told.unnamed fun _ _ _ each => each.own
  good := ⟨filled, fun selection member =>
    have ⟨_, _, each, _⟩ := told.member member
    each.good⟩
  inside list there := by
    obtain ⟨selection, member, inside⟩ := there
    obtain ⟨_, _, each, among⟩ := told.member member
    exact among (each.inside list inside)

theorem selection_set_within_followed (depth : Nat) :
    Follows change apt False (selectionSetWithin depth) (selectionSetWithin depth)
      (fun _ _ => True) SetTold := by
  induction depth with
  | zero =>
      rw [selectionSetWithin]
      exact .peek fun found copy _ _ => .fail
  | succ depth ih =>
      rw [selectionSetWithin]
      refine (delimited_nonempty_followed (.sees rfl (spread_followed ih) (field_followed ih)) rfl
        (by simp) (by simp)).mono ?_ fun _ _ _ => trivial
      exact fun set own lists told => ⟨own, List.Sublist.refl _, set_told told.1 told.2⟩

theorem selection_set_followed :
    FollowsFrom change apt ahead False selectionSet selectionSet (fun _ _ => True) SetTold := by
  unfold selectionSet
  refine Glances.count.bind fun cursor other length => ?_
  rw [length]
  exact (selection_set_within_followed _).knowing fun _ _ => trivial

end Sets

section Operations

abbrev DefaultTold (default : Option (Located Literal)) :
    List (Located String) → List NameList → Prop :=
  Tells [] (∀ literal ∈ default, literal.node.WellFormed true) (DefaultLists default)

theorem default_value_followed :
    Follows change apt False defaultValue defaultValue (fun _ _ => True) DefaultTold := by
  unfold defaultValue
  refine .skip_cases rfl (by simp) (fun _ _ => ?_) ?_
  · refine (literal_followed true).bind fun value _ own lists _ told => ?_
    obtain ⟨rfl, good, inside⟩ := told
    refine .pure trivial ⟨rfl, ?_, ?_⟩
    · rintro _ ⟨⟩
      exact good
    · rintro list ⟨_, ⟨⟩, there⟩
      rw [List.append_nil]
      exact inside list there
  · refine .pure trivial ⟨rfl, fun _ absent => (by cases absent), fun list there => ?_⟩
    obtain ⟨_, absent, -⟩ := there
    cases absent

/-- A name may begin with a mark in front of it. -/
theorem marked_name {mark twin : Located Token} (marks : change.Tokens mark twin)
    {name copy : Located String} (like : change.Names name copy) :
    change.Names (.between mark.span.start name.span.stop name.node)
      (.between twin.span.start copy.span.stop copy.node) := by
  obtain ⟨_, _, last, there, whole, moved⟩ := like.moved
  refine ⟨like.same, _, marks.paired, last, there, ?_, ?_⟩
  · rw [whole]
    rfl
  · rw [moved]
    rfl

theorem variable_definition_followed :
    Follows change apt False variableDefinition variableDefinition
      (fun definition copy => change.Names definition.name copy.name)
      fun definition => Tells [definition.name]
        (definition.name.Valid ∧ definition.WellFormed) (DefaultLists definition.default) := by
  have ending : Follows change apt False variableDefinition variableDefinition
      (fun definition copy => change.Names definition.name copy.name)
      fun definition own lists => ∃ name, stops [definition.name] = stops [name] ∧ Tells [name]
        (definition.name.Valid ∧ definition.WellFormed) (DefaultLists definition.default) own
        lists := by
    unfold variableDefinition
    refine (FollowsFrom.expect (by simp)).step fun dollar mark marks _ => ?_
    refine FollowsFrom.name.bind fun variableName copy own lists like told => ?_
    obtain ⟨rfl, rfl, valid, _⟩ := told
    refine (FollowsFrom.expect (by simp)).step fun colon _ _ _ => ?_
    refine type_ref_followed.step fun type _ _ typed => ?_
    refine default_value_followed.bind fun value _ own lists _ told => ?_
    obtain ⟨rfl, good, inside⟩ := told
    refine .pure (marked_name marks like) ⟨variableName, rfl, rfl, ⟨valid, typed, good⟩, ?_⟩
    rw [List.append_nil]
    exact inside
  -- The place of a variable ends where its word does.
  refine ending.mono ?_ fun _ _ => id
  rintro definition own lists ⟨name, same, rfl, good, inside⟩
  exact ⟨[definition.name], same ▸ List.Sublist.refl _, rfl, good, inside⟩

abbrev VariablesTold (definitions : Option (Located (List VariableDefinition))) :
    List (Located String) → List NameList → Prop :=
  Tells [] (VariablesWellFormed definitions) (VariablesList definitions)

theorem no_variables_told : VariablesTold none [] [] where
  own := rfl
  good := {
    filled := fun _ absent => by cases absent
    keyed := fun _ absent => by cases absent
    each := fun _ absent => by cases absent }
  inside _ there := by cases there

theorem variables_told {list : Located (List VariableDefinition)} {own : List (Located String)}
    {lists : List NameList}
    (told : EachTold (fun definition => Tells [definition.name]
      (definition.name.Valid ∧ definition.WellFormed) (DefaultLists definition.default))
      list.node own lists) (filled : list.node ≠ [])
    (names : NamesInOrder (list.node.map (·.name))) :
    VariablesTold (some list) [] ((.variable, list.node.map (·.name)) :: lists) where
  own := rfl
  good := {
    filled := by
      rintro _ ⟨⟩
      exact filled
    keyed := by
      rintro _ ⟨⟩
      exact names.keyed
    each := by
      rintro _ ⟨⟩ definition member
      obtain ⟨_, _, each, -⟩ := told.member member
      exact each.good.2 }
  inside list there := by
    cases there with
    | names => exact List.mem_cons_self
    | default member inside =>
        obtain ⟨_, _, each, among⟩ := told.member member
        exact List.mem_cons_of_mem _ (among (each.inside list inside))

theorem variable_definitions_followed :
    Follows change apt False variableDefinitions variableDefinitions (fun _ _ => True)
      VariablesTold := by
  unfold variableDefinitions
  refine .sees rfl ?_ (.pure trivial no_variables_told)
  exact named_list_followed True variable_definition_followed (fun _ good => good.1)
    (fun _ _ _ => trivial) (by simp) (by simp) fun _ _ _ => variables_told

theorem operation_name_followed :
    Follows change apt False operationName operationName (fun _ _ => True)
      (Plain fun operation => ∀ name ∈ operation, name.Valid) := by
  unfold operationName
  refine .peek fun found copy word same => ?_
  rw [same]
  split
  · refine FollowsFrom.bare_name.step fun operation _ _ valid => .pure trivial ⟨rfl, rfl, ?_⟩
    rintro _ ⟨⟩
    exact valid
  · rename_i unnamed
    rw [unnamed]
    refine (FollowsFrom.pure trivial ⟨rfl, rfl, fun _ absent => ?_⟩).less (by simp)
    cases absent

abbrev OperationTold (operation : Located Operation) :
    List (Located String) → List NameList → Prop :=
  Tells [] operation.node.WellFormed operation.node.Lists

theorem bare_query_followed :
    FollowsFrom change apt ahead False bareQuery bareQuery (fun _ _ => True) OperationTold := by
  unfold bareQuery
  refine selection_set_followed.bind fun set _ own lists _ told => ?_
  obtain ⟨rfl, good, inside⟩ := told
  refine .pure trivial ⟨rfl, ?_, fun list there => ?_⟩
  · exact {
      name := fun _ absent => by cases absent
      definitions := no_variables_told.good
      directives := ⟨by simp [Located.map], by simp [Located.map]⟩
      selections := good }
  · rw [List.append_nil]
    cases there with
    | definitions absent => cases absent
    | directives absent => simp [Directives.Lists, Located.map] at absent
    | selections there => exact inside list there

theorem keyword_operation_followed (kind : OperationKind) :
    FollowsFrom change apt (fun found => found.node ≠ .punctuator .at) bare (keywordOperation kind)
      (keywordOperation kind) (fun _ _ => True) OperationTold := by
  unfold keywordOperation
  refine (FollowsFrom.next fun _ => id).step fun keyword _ _ _ => ?_
  refine operation_name_followed.step fun operation _ _ named => ?_
  refine variable_definitions_followed.bind fun definitions _ own lists _ told => ?_
  obtain ⟨rfl, defined, defined_lists⟩ := told
  refine directives_followed.bind fun marks _ own more _ told => ?_
  obtain ⟨rfl, marked, marked_lists⟩ := told
  refine selection_set_followed.bind fun set _ own others _ told => ?_
  obtain ⟨rfl, selected, selected_lists⟩ := told
  refine .pure trivial ⟨rfl, ⟨named, defined, marked, selected⟩, fun list there => ?_⟩
  rw [List.append_nil]
  cases there with
  | definitions inside => exact List.mem_append_left _ (defined_lists list inside)
  | directives inside =>
      exact List.mem_append_right _ (List.mem_append_left _ (marked_lists list inside))
  | selections inside =>
      exact List.mem_append_right _ (List.mem_append_right _ (selected_lists list inside))

theorem fragment_followed :
    FollowsFrom change apt ahead bare fragment fragment (fun _ _ => True) fun fragment =>
      Tells [] fragment.node.WellFormed fragment.node.Lists := by
  unfold fragment
  refine (FollowsFrom.expect (by simp)).step fun keyword _ _ _ => ?_
  refine FollowsFrom.bare_name.step fun fragmentName copy same valid => ?_
  rw [same]
  split
  · exact .fail
  · rename_i other
    refine (FollowsFrom.expect (by simp)).step fun on _ _ _ => ?_
    refine FollowsFrom.bare_name.step fun condition _ _ conditioned => ?_
    refine directives_followed.bind fun marks _ own lists _ told => ?_
    obtain ⟨rfl, marked, marked_lists⟩ := told
    refine selection_set_followed.bind fun set _ own more _ told => ?_
    obtain ⟨rfl, selected, selected_lists⟩ := told
    refine .pure trivial ⟨rfl, ⟨valid, other, conditioned, marked, selected⟩, fun list there => ?_⟩
    rw [List.append_nil]
    cases there with
    | directives inside => exact List.mem_append_left _ (marked_lists list inside)
    | selections inside => exact List.mem_append_right _ (selected_lists list inside)

end Operations

end GraphQL.Reader
