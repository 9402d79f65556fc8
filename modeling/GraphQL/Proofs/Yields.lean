import GraphQL.Reading.Document

/-!
What readers yield.

A reader that succeeds hands over something of which a property holds, whatever it was read from.
Such properties go through the combinators: what every item of a list yields, all items have.
-/

namespace GraphQL

namespace Reader

variable {α β : Type}

section Runs

variable {reader : Reader α} {next : α → Reader β} {cursor middle left : Cursor} {value : α}

/-- What two readers in a row yield comes from what each of them does. -/
theorem run_bind {result : β} (ran : (reader >>= next).run cursor = .ok result left) :
    ∃ value middle, reader.run cursor = .ok value middle ∧
      (next value).run middle = .ok result left := by
  change EStateM.bind reader next cursor = .ok result left at ran
  cases first : reader cursor with
  | ok value middle =>
      rw [EStateM.bind, first] at ran
      exact ⟨value, middle, first, ran⟩
  | error error middle =>
      rw [EStateM.bind, first] at ran
      cases ran

theorem run_ok_bind (ran : reader.run cursor = .ok value middle) :
    (reader >>= next).run cursor = (next value).run middle := by
  change EStateM.bind reader next cursor = _
  change reader cursor = _ at ran
  rw [EStateM.bind, ran]
  rfl

theorem run_error_bind {error : Located ParseError} (ran : reader.run cursor = .error error middle) :
    (reader >>= next).run cursor = .error error middle := by
  change EStateM.bind reader next cursor = _
  change reader cursor = _ at ran
  rw [EStateM.bind, ran]

end Runs

/-- Whatever a reader succeeds with has a property. -/
structure Yields (reader : Reader α) (property : α → Prop) : Prop where
  holds : ∀ cursor value rest, reader.run cursor = .ok value rest → property value

namespace Yields

variable {property : α → Prop} {result : β → Prop}

theorem pure {value : α} (holds : property value) : Yields (Pure.pure value) property where
  holds cursor found rest ended := by
    cases ended
    exact holds

theorem bind {reader : Reader α} {next : α → Reader β} (first : Yields reader property)
    (second : ∀ value, property value → Yields (next value) result) :
    Yields (reader >>= next) result where
  holds cursor found rest ended := by
    obtain ⟨value, later, ran, after⟩ := run_bind ended
    exact (second value (first.holds cursor value later ran)).holds later found rest after

/-- What comes first does not matter. -/
theorem after {reader : Reader α} {next : α → Reader β}
    (second : ∀ value, Yields (next value) result) : Yields (reader >>= next) result := by
  have anything : Yields reader fun _ => True := ⟨fun _ _ _ _ => trivial⟩
  exact anything.bind fun value _ => second value

theorem fail {span : Span} {error : ParseError} :
    Yields (Reader.fail span error : Reader α) property :=
  ⟨fun _ _ _ ended => by cases ended⟩

theorem reject {error : Token → ParseError} : Yields (Reader.reject error : Reader α) property :=
  .after fun _ => .fail

theorem items_until {item : Reader α} (each : Yields item property) (closing : Token)
    (count : Nat) :
    Yields (itemsUntil closing item count) fun read => ∀ value ∈ read.1, property value := by
  induction count with
  | zero =>
      rw [itemsUntil]
      exact .after fun _ => .fail
  | succ count ih =>
      rw [itemsUntil]
      apply after
      intro skipped
      cases skipped with
      | some token => exact .pure fun _ absent => by cases absent
      | none =>
          apply each.bind
          intro first holds
          apply ih.bind
          rintro ⟨others, stop⟩ all
          apply pure
          intro value member
          rcases List.mem_cons.mp member with rfl | later
          · exact holds
          · exact all value later

theorem delimited {item : Reader α} (each : Yields item property) (opening closing : Token) :
    Yields (Reader.delimited opening item closing) fun list =>
      ∀ value ∈ list.node, property value := by
  rw [Reader.delimited]
  apply after
  intro start
  apply after
  intro cursor
  apply (each.items_until closing _).bind
  rintro ⟨items, stop⟩ all
  exact .pure all

theorem delimited_nonempty {item : Reader α} (each : Yields item property)
    (opening closing : Token) :
    Yields (delimitedNonempty opening item closing) fun list =>
      ∀ value ∈ list.node, property value := by
  rw [delimitedNonempty]
  apply after
  intro start
  apply each.bind
  intro first holds
  apply after
  intro cursor
  apply (each.items_until closing _).bind
  rintro ⟨others, stop⟩ all
  apply pure
  intro value member
  rcases List.mem_cons.mp member with rfl | later
  · exact holds
  · exact all value later

end Yields

/-- Where no name repeats, all names differ, also from those seen before. -/
theorem first_repeat_none {seen : List String} {names : List (Located String)}
    (none_repeats : firstRepeat? seen names = none) :
    (names.map (·.node)).Nodup ∧ ∀ name ∈ names, name.node ∉ seen := by
  induction names generalizing seen with
  | nil => exact ⟨List.nodup_nil, fun _ absent => by cases absent⟩
  | cons name rest ih =>
      rw [firstRepeat?] at none_repeats
      by_cases repeated : name.node ∈ seen
      · rw [if_pos repeated] at none_repeats
        cases none_repeats
      · rw [if_neg repeated] at none_repeats
        obtain ⟨distinct, fresh⟩ := ih none_repeats
        refine ⟨List.nodup_cons.mpr ⟨fun again => ?_, distinct⟩, fun other member => ?_⟩
        · obtain ⟨other, member, same⟩ := List.mem_map.mp again
          exact fresh other member (same ▸ List.mem_cons_self)
        · rcases List.mem_cons.mp member with rfl | later
          · exact repeated
          · exact fun before => fresh other later (List.mem_cons_of_mem _ before)

/-- Names that all differ, also from those seen before, do not repeat. -/
theorem first_repeat_distinct {seen : List String} {names : List (Located String)}
    (distinct : (names.map (·.node)).Nodup) (fresh : ∀ name ∈ names, name.node ∉ seen) :
    firstRepeat? seen names = none := by
  induction names generalizing seen with
  | nil => rfl
  | cons name rest ih =>
      obtain ⟨apart, others⟩ := List.nodup_cons.mp distinct
      rw [firstRepeat?, if_neg (fresh name List.mem_cons_self)]
      refine ih others fun other member seen => ?_
      rcases List.mem_cons.mp seen with same | before
      · exact apart (List.mem_map.mpr ⟨other, member, same⟩)
      · exact fresh other (List.mem_cons_of_mem _ member) before

theorem reject_repeats_yields (kind : NameKind) (names : List (Located String)) :
    Yields (rejectRepeats kind names) fun _ => (names.map (·.node)).Nodup := by
  rw [rejectRepeats]
  cases repeated : firstRepeat? [] names with
  | none => exact .pure (first_repeat_none repeated).1
  | some name => exact .fail

/-- What single definitions have, all have that are read. -/
theorem definitions_yield {property : Definition → Prop} (each : Yields definition property)
    (count : Nat) : Yields (definitions count) fun list => ∀ one ∈ list, property one := by
  induction count with
  | zero =>
      rw [definitions]
      exact .after fun _ => .fail
  | succ count ih =>
      rw [definitions]
      apply each.bind
      intro first holds
      apply Yields.after
      intro ends
      cases ends with
      | true => exact .pure (List.forall_mem_singleton.mpr holds)
      | false => exact ih.bind fun others all => .pure (List.forall_mem_cons.mpr ⟨holds, all⟩)

end Reader

/-- What the reader of definitions yields, all definitions have of a document that was read. -/
theorem Document.of_text_yields {property : Definition → Prop}
    (each : Reader.Yields Reader.definition property) {text : List Char} {document : Document}
    (read : Document.ofText text = .ok document) :
    ∀ definition ∈ document.definitions, property definition := by
  rw [ofText, ofStream] at read
  split at read
  · cases read
  · rename_i cursor _
    rw [ofCursor] at read
    dsimp only at read
    split at read
    · cases read
    · rename_i definitions rest ran
      rw [ofDefinitions] at read
      split at read
      · cases read
      · cases read
        exact (Reader.definitions_yield each cursor.length).holds _ _ _ ran

end GraphQL
