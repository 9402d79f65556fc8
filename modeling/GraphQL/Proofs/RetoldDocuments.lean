import GraphQL.Proofs.RetoldTypes
import GraphQL.Proofs.TypePhrases

/-!
Documents in sources with other descriptions.

A source that ends like another one gives the same document with its descriptions told anew, or fails
in the same way. A source in which something else stands behind the definitions of another one gives
these definitions first, and then what is read there.
-/

namespace GraphQL

def Document.retold (tell : Position → Option String → Option String) (document : Document) :
    Document :=
  { document with definitions := document.definitions.map (Definition.retold tell) }

namespace Reader

variable {told : Retelling}

theorem definition_echoes :
    Echoes told told.Cursors told.Cursors (Copied (Definition.retold told.tell)) definition
      definition := by
  obtain ⟨body, same, fails, echoes⟩ := definition_entrance
  rw [same]
  refine .describe (fun start text => (echoes told start text _).mono ?_) fails
  intro value made entitled
  cases entitled with
  | operation => rfl
  | fragment => rfl
  | @type located there described =>
      subst there described
      rfl
  | @extension located there described =>
      subst there described
      rfl

theorem definition_shortens {cursor left : Cursor} {found : Definition}
    (ran : definition.run cursor = .ok found left) : left.length < cursor.length := by
  refine part_shortens definition_builds (fun value parts formed => ?_) ran
  cases formed with
  | operation node | fragment node | type node | extension node =>
      cases node
      exact ⟨_, _, rfl⟩

/-- Definitions are read from both sources until both are at their ends. -/
theorem definitions_echoes (closed : told.Closed) (count : Nat) :
    Echoes told told.Cursors told.Cursors (Copied (List.map (Definition.retold told.tell)))
      (definitions count) (definitions count) := by
  induction count with
  | zero => exact .exhausted told.cursors_heads
  | succ count ih =>
      refine definition_echoes.bind fun first _ same => ⟨fun cursor other cursors => ?_⟩
      obtain rfl := same
      have ahead : ahead? other = ahead? cursor := by
        cases cursors with
        | last | cons => rfl
        | onward goes => exact absurd closed (Retelling.unclosed goes)
      rw [sees_run, sees_run, ahead]
      cases decide (ahead? cursor = .endOfFile) with
      | true => exact ⟨_, other, rfl, rfl, cursors⟩
      | false =>
          refine (ih.run cursor other cursors).bind ?_
          rintro _ rest left later - - rfl ended
          exact ⟨_, later, rfl, rfl, ended⟩

/-- More definitions may be allowed than there are. -/
theorem definitions_allowed {count more : Nat} (enough : count ≤ more) {cursor left : Cursor}
    {found : List Definition} (ran : (definitions count).run cursor = .ok found left) :
    (definitions more).run cursor = .ok found left := by
  induction count generalizing more cursor found with
  | zero =>
      obtain ⟨_, _, -, failed⟩ := run_bind ran
      cases failed
  | succ count ih =>
      obtain ⟨less, rfl⟩ := Nat.exists_eq_add_one.mpr (Nat.lt_of_lt_of_le (Nat.succ_pos _) enough)
      obtain ⟨first, middle, begun, others⟩ := run_bind ran
      rw [definitions, run_ok_bind begun, sees_run]
      rw [sees_run] at others
      revert others
      cases decide (ahead? middle = .endOfFile) with
      | true => exact id
      | false =>
          intro others
          obtain ⟨rest, final, read, ended⟩ := run_bind others
          cases ended
          exact run_ok_bind (ih (Nat.le_of_succ_le_succ enough) read)

/--
Where other definitions stand in place of the end of a source, they are read behind those of the
source.
-/
theorem definitions_onward {more last : Cursor} {back : List Definition}
    (goes : told.more = some more) {least : Nat} (least_enough : least ≤ more.length)
    (read : (definitions least).run more = .ok back last) {count allowed : Nat}
    {cursor other left : Cursor} {front : List Definition} (cursors : told.Cursors cursor other)
    (enough : other.length ≤ allowed) (ran : (definitions count).run cursor = .ok front left) :
    (definitions allowed).run other =
      .ok (front.map (Definition.retold told.tell) ++ back) last := by
  induction count generalizing allowed cursor other front with
  | zero =>
      obtain ⟨_, _, -, failed⟩ := run_bind ran
      cases failed
  | succ count ih =>
      obtain ⟨first, middle, begun, others⟩ := run_bind ran
      have echo := definition_echoes.run cursor other cursors
      rw [begun] at echo
      obtain ⟨_, later, also, rfl, between⟩ := echo
      have shorter := definition_shortens also
      obtain ⟨less, rfl⟩ := Nat.exists_eq_add_one.mpr (Nat.zero_lt_of_lt (shorter.trans_le enough))
      rw [definitions, run_ok_bind also]
      rw [sees_run] at others ⊢
      cases between with
      | last closed => exact absurd closed (Retelling.unclosed goes)
      | @onward entry following follows ended =>
          obtain rfl := Option.some.inj (goes.symm.trans follows)
          have here : decide (ahead? [entry] = .endOfFile) = true := decide_eq_true ended
          have there : decide (ahead? more = .endOfFile) = false := by
            obtain ⟨word, span, description, rest, rfl⟩ := told.begins _ goes
            rfl
          rw [here] at others
          cases others
          rw [there]
          refine (run_ok_bind (definitions_allowed (by omega) read)).trans ?_
          rfl
      | @cons entry rest beyond visible onward =>
          have here : decide (ahead? (entry :: rest) = .endOfFile) = false := decide_eq_false visible
          have there : decide (ahead? (told.entry entry :: beyond) = .endOfFile) = false :=
            decide_eq_false visible
          rw [here] at others
          obtain ⟨found, final, remaining, ended⟩ := run_bind others
          cases ended
          rw [there]
          refine (run_ok_bind (ih (.cons visible onward) (by omega) remaining)).trans ?_
          rfl

end Reader

namespace Document

variable {told : Retelling}

theorem declared_retold (tell : Position → Option String → Option String) (text : Option String)
    (definition : Definition) : (definition.retoldAs tell text).declared? = definition.declared? := by
  match definition with
  | .operation _ => rfl
  | .fragment _ => rfl
  | .extension _ => rfl
  | .type ⟨type, _⟩ => cases type <;> rfl

/-- Descriptions do not decide which documents are refused. -/
theorem of_definitions_retold (tell : Position → Option String → Option String)
    (definitions : List Definition) (span : Span) :
    ofDefinitions (definitions.map (Definition.retold tell)) span =
      (ofDefinitions definitions span).map (Document.retold tell) := by
  have declared : (definitions.map (Definition.retold tell)).filterMap Definition.declared? =
      definitions.filterMap Definition.declared? := by
    rw [List.filterMap_map]
    exact List.filterMap_congr fun definition _ => declared_retold tell _ definition
  rw [ofDefinitions, ofDefinitions, declared]
  cases firstRedeclared? [] (definitions.filterMap Definition.declared?) <;> rfl

theorem of_cursor_retold (closed : told.Closed) {cursor other : Cursor}
    (cursors : told.Cursors cursor other) :
    ofCursor other = (ofCursor cursor).map (Document.retold told.tell) := by
  have heads {first second : Cursor} (same : told.Cursors first second) :
      second.head?.map Entry.token = first.head?.map Entry.token := by
    cases same with
    | last | cons => rfl
    | onward goes => exact absurd closed (Retelling.unclosed goes)
  have places {α : Type} (place : Located Token → α) {first second : Cursor}
      (same : told.Cursors first second) :
      (second.head?.map fun entry => place entry.token) =
        first.head?.map fun entry => place entry.token := by
    simpa only [Option.map_map, Function.comp_def] using congrArg (Option.map place) (heads same)
  have read := (Reader.definitions_echoes closed cursor.length).run cursor other cursors
  rw [ofCursor, ofCursor, ← cursors.allows.2 closed, places (·.span.start) cursors]
  cases ran : (Reader.definitions cursor.length).run cursor with
  | ok found left =>
      rw [ran] at read
      obtain ⟨_, later, also, rfl, ended⟩ := read
      rw [also]
      dsimp only
      rw [places (·.span.stop) ended]
      exact of_definitions_retold told.tell found _
  | error error left =>
      rw [ran] at read
      obtain ⟨later, also⟩ := read closed
      rw [also]
      rfl

end Document

end GraphQL
