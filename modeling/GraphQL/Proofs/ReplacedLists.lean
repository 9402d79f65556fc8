import GraphQL.Proofs.ReplacedWords
import Mathlib.Data.List.Nodup

/-!
Lists of names in two sources that differ in one word.

Names of a list are gathered entry by entry. Where they are compared, the list is known to hold
different names in order; in the second source it is refused if the word that differs is one of its
names and now repeats another one.
-/

namespace GraphQL

/-- No two names end at one place. -/
theorem NamesInOrder.stop_injective {names : List (Located String)} (order : NamesInOrder names)
    {first second : Located String} (one : first ∈ names) (other : second ∈ names)
    (same : first.span.stop = second.span.stop) : first = second := by
  have apart : (stops names).Nodup :=
    List.pairwise_map.mpr (order.ordered.imp fun less equal => by simp [equal] at less)
  exact List.inj_on_of_nodup_map apart one other same

/-- Where names repeat only in the second source, the word that differs there is one of them. -/
theorem NamesInOrder.word_repeats {names : List (Located String)} (order : NamesInOrder names)
    {change : Replacement} (repeats : ¬ (names.map change.text).Nodup) :
    ∃ name ∈ names, name.node = change.word := by
  by_contra fresh
  have other (name : Located String) (member : name ∈ names) : name.node ≠ change.word :=
    fun same => fresh ⟨name, member, same⟩
  refine repeats (List.Nodup.map_on ?_ order.different.distinct.of_map)
  intro first one second another same
  rw [Replacement.text, Replacement.text] at same
  split at same <;> split at same
  · rename_i here there
    exact order.stop_injective one another (here.trans there.symm)
  · exact absurd same.symm (other second another)
  · exact absurd same (other first one)
  · exact List.inj_on_of_nodup_map order.different.distinct one another same

/-- Things that were read one behind the other, with their names and lists. -/
inductive EachTold {α : Type} (tells : α → List (Located String) → List NameList → Prop) :
    List α → List (Located String) → List NameList → Prop where
  | nil : EachTold tells [] [] []
  | cons {value values own others lists more} (first : tells value own lists)
      (rest : EachTold tells values others more) :
      EachTold tells (value :: values) (own ++ others) (lists ++ more)

namespace EachTold

variable {α : Type} {tells : α → List (Located String) → List NameList → Prop} {values : List α}
  {own : List (Located String)} {lists : List NameList}

theorem member (told : EachTold tells values own lists) {value : α} (among : value ∈ values) :
    ∃ names inner, tells value names inner ∧ inner ⊆ lists := by
  induction told with
  | nil => cases among
  | cons first rest ih =>
      rcases List.mem_cons.mp among with rfl | later
      · exact ⟨_, _, first, List.subset_append_left _ _⟩
      · obtain ⟨names, inner, there, within⟩ := ih later
        exact ⟨names, inner, there, List.Subset.trans within (List.subset_append_right _ _)⟩

/-- Where each entry has one name, these are the names of the list. -/
theorem keys {key : α → Located String} (told : EachTold tells values own lists)
    (each : ∀ value own lists, tells value own lists → own = [key value]) :
    own = values.map key := by
  induction told with
  | nil => rfl
  | cons first rest ih => rw [each _ _ _ first, ih, List.map_cons, List.singleton_append]

theorem unnamed (told : EachTold tells values own lists)
    (each : ∀ value own lists, tells value own lists → own = []) : own = [] := by
  induction told with
  | nil => rfl
  | cons first rest ih => rw [each _ _ _ first, ih, List.append_nil]

end EachTold

namespace Reader

variable {α β : Type} {change : Replacement} {apt bare : Prop}
  {ahead : Located Token → Prop} {reader twin : Reader α} {same : α → α → Prop}
  {tells : α → List (Located String) → List NameList → Prop}

section Lists

variable (follows : Follows change apt False reader twin same tells)
include follows

theorem items_until_followed {closing : Token} (unnamed : closing.asName? = none)
    (plain : closing ≠ .punctuator .at) (count : Nat) :
    Follows change apt False (itemsUntil closing reader count) (itemsUntil closing twin count)
      (fun found copy => List.Forall₂ same found.1 copy.1) fun found => EachTold tells found.1 := by
  induction count with
  | zero =>
      rw [itemsUntil, itemsUntil]
      exact .peek fun found copy _ _ => .fail
  | succ count ih =>
      rw [itemsUntil, itemsUntil]
      refine .skip_cases unnamed plain (fun _ _ => .pure .nil .nil) ?_
      refine follows.bind fun first second own lists like told => ?_
      refine ih.bind fun rest others more inner rest_like rest_told => ?_
      refine .pure (.cons like rest_like) ?_
      simpa using EachTold.cons told rest_told

theorem delimited_followed {opening closing : Token} (unnamed : closing.asName? = none)
    (apart : opening ≠ .punctuator .at) (plain : closing ≠ .punctuator .at) :
    FollowsFrom change apt ahead bare (delimited opening reader closing)
      (delimited opening twin closing) (fun list copy => List.Forall₂ same list.node copy.node)
      fun list => EachTold tells list.node := by
  rw [delimited, delimited]
  refine (FollowsFrom.expect apart).step fun start copy _ _ => ?_
  refine Glances.count.bind fun cursor other length => ?_
  rw [length]
  refine (items_until_followed follows unnamed plain _).bind
    fun found copy own lists like told => ?_
  refine .pure like ?_
  simpa only [List.append_nil, Located.between] using told

theorem delimited_nonempty_followed {opening closing : Token} (unnamed : closing.asName? = none)
    (apart : opening ≠ .punctuator .at) (plain : closing ≠ .punctuator .at) :
    FollowsFrom change apt ahead bare (delimitedNonempty opening reader closing)
      (delimitedNonempty opening twin closing)
      (fun list copy => List.Forall₂ same list.node copy.node)
      fun list own lists => EachTold tells list.node own lists ∧ list.node ≠ [] := by
  rw [delimitedNonempty, delimitedNonempty]
  refine (FollowsFrom.expect apart).step fun start copy _ _ => ?_
  refine follows.bind fun first second own lists like told => ?_
  refine Glances.count.bind fun cursor other length => ?_
  rw [length]
  refine (items_until_followed follows unnamed plain _).bind
    fun found copy more inner others rest => ?_
  refine .pure (.cons like others) ⟨?_, List.cons_ne_nil _ _⟩
  simpa only [List.append_nil, Located.between] using EachTold.cons told rest

end Lists

/-- Names in a row repeat where one of them occurred before. -/
theorem first_repeat_some {names : List (Located String)}
    (repeats : ¬ (names.map (·.node)).Nodup) : ∃ name, firstRepeat? [] names = some name := by
  by_contra absent
  refine repeats (@first_repeat_none [] _ ?_).1
  exact Option.eq_none_iff_forall_ne_some.mpr fun name found => absent ⟨name, found⟩

section Rejecting

variable {kind : NameKind} {names : List (Located String)} {cursor left : Cursor}

theorem reject_repeats_ran (ran : (rejectRepeats kind names).run cursor = .ok () left) :
    firstRepeat? [] names = none ∧ left = cursor := by
  unfold rejectRepeats at ran
  split at ran
  · rename_i fresh
    cases ran
    exact ⟨fresh, rfl⟩
  · cases ran

theorem reject_repeats_run (fresh : firstRepeat? [] names = none) :
    (rejectRepeats kind names).run cursor = .ok () cursor := by
  rw [rejectRepeats, fresh]
  rfl

theorem reject_repeats_failed {name : Located String}
    (repeated : firstRepeat? [] names = some name) :
    (rejectRepeats kind names).run cursor =
      .error ⟨.duplicate kind name.node, name.span⟩ cursor := by
  rw [rejectRepeats, repeated]
  rfl

end Rejecting

/-- The copies of names are named like them, but for the word that differs. -/
theorem copied_texts {names copies : List (Located String)}
    (renamed : List.Forall₂ change.Names names copies) :
    copies.map (·.node) = names.map change.text := by
  induction renamed with
  | nil => rfl
  | cons first _ ih => rw [List.map_cons, List.map_cons, first.same, ih]

theorem texts_kept {names : List (Located String)} (elsewhere : change.stop ∉ stops names) :
    names.map change.text = names.map (·.node) := by
  refine List.map_congr_left fun name member => if_neg fun here => elsewhere ?_
  exact here ▸ List.mem_map_of_mem member

/--
Once the names of a list were compared, they are in order. In the second source the list is refused
if the word that differs makes a name repeat, and nothing changes if the word is elsewhere.
-/
theorem compared {kind : NameKind} {after : Prop} {view : α → List (Located String)}
    {finish finishing : α → β} (follows : FollowsFrom change apt ahead True reader twin same tells)
    (owned : ∀ value own lists, tells value own lists → own = view value ∧ ∀ name ∈ own, name.Valid)
    (renamed : ∀ value copy, same value copy →
      List.Forall₂ change.Names (view value) (view copy))
    (fits : ∀ value own lists, tells value own lists → NamesInOrder own →
      ¬ (own.map change.text).Nodup → apt) :
    FollowsFrom change after ahead bare
      (reader >>= fun value => rejectRepeats kind (view value) >>= fun _ => pure (finish value))
      (twin >>= fun value => rejectRepeats kind (view value) >>= fun _ => pure (finishing value))
      (fun _ _ => True)
      fun result own lists => own = [] ∧ ∃ value inner, result = finish value ∧
        tells value (view value) inner ∧ NamesInOrder (view value) ∧
        lists = (kind, view value) :: inner := by
  refine ⟨fun cursor other result left orderly cursors known ran => ?_⟩
  obtain ⟨value, middle, begun, checked⟩ := run_bind ran
  obtain ⟨_, final, passed, ended⟩ := run_bind checked
  obtain ⟨taken, own, lists, told, followed, listed⟩ :=
    follows.run cursor other value middle orderly cursors known begun
  obtain ⟨rfl, valid⟩ := owned value own lists told
  obtain ⟨fresh, rfl⟩ := reject_repeats_ran passed
  have distinct := (first_repeat_none fresh).1
  cases ended
  obtain ⟨filled, unowned⟩ := followed.bared trivial
  obtain ⟨copy, later, like, later_cursors, went_on⟩ := followed.goes_on
  have copied := copied_texts (renamed value copy like)
  have ordered : (view value).Pairwise fun first second =>
      first.span.stop.index < second.span.stop.index := by
    have ends : (stops taken).Pairwise fun first second => first.index < second.index :=
      List.pairwise_map.mpr (orderly.in_order followed.past)
    have own_ends := ends.sublist followed.names
    rw [stops, List.pairwise_map] at own_ends
    exact own_ends
  refine ⟨taken, [], (kind, view value) :: lists, ⟨rfl, value, lists, rfl, told,
    ⟨⟨valid, distinct⟩, ordered⟩, rfl⟩, ?_, ?_⟩
  · exact {
      past := followed.past
      names := List.nil_sublist _
      listed := List.forall_mem_cons.mpr
        ⟨⟨followed.names, ⟨valid, distinct⟩, ordered⟩, followed.listed⟩
      unlisted := fun token begins =>
        List.forall_mem_cons.mpr ⟨unowned token begins, followed.unlisted token begins⟩
      bared := fun _ => ⟨filled, fun _ _ => List.not_mem_nil⟩
      goes_on := by
        refine ⟨finishing copy, later, trivial, later_cursors, fun spared => ?_⟩
        have elsewhere : change.stop ∉ stops taken := fun here =>
          absurd (spared here).2 List.not_mem_nil
        rw [texts_kept fun here => elsewhere (followed.names.subset here)] at copied
        have passes := @first_repeat_distinct [] _ (copied ▸ distinct) fun _ _ => List.not_mem_nil
        rw [run_ok_bind (went_on fun here => absurd here elsewhere),
          run_ok_bind (reject_repeats_run passes)]
        rfl
      complains := by
        refine List.forall_mem_cons.mpr ⟨fun hit repeats => ?_, fun list member hit repeats => ?_⟩
        · have apt := fits value _ lists told ⟨⟨valid, distinct⟩, ordered⟩ repeats
          obtain ⟨repeated, found⟩ := first_repeat_some (copied ▸ repeats)
          rw [run_ok_bind (went_on fun _ => ⟨apt, hit⟩),
            run_error_bind (reject_repeats_failed found)]
          exact ⟨_, repeated, later, renamed value copy like, found, rfl⟩
        · exact complains_bind (followed.complains list member hit repeats) }
  · intro place among longer found last ran list inside
    exact List.mem_cons_of_mem _ (listed place among longer found last ran list inside)

/-- Entries of a list are compared by their names. -/
theorem entries_compared {kind : NameKind} {after : Prop} {key : α → Located String}
    {finish finishing : Located (List α) → β} {reader twin : Reader (Located (List α))}
    {found : Located (List α) → List (Located String) → List NameList → Prop}
    (follows : FollowsFrom change apt ahead True reader twin
      (fun list copy => List.Forall₂ same list.node copy.node) found)
    (each : ∀ list own lists, found list own lists → EachTold tells list.node own lists)
    (owned : ∀ value own lists, tells value own lists → own = [key value] ∧ (key value).Valid)
    (renamed : ∀ value copy, same value copy → change.Names (key value) (key copy))
    (fits : ∀ list own lists, found list own lists → NamesInOrder own →
      ¬ (own.map change.text).Nodup → apt) :
    FollowsFrom change after ahead bare
      (reader >>= fun list => rejectRepeats kind (list.node.map key) >>= fun _ =>
        pure (finish list))
      (twin >>= fun list => rejectRepeats kind (list.node.map key) >>= fun _ =>
        pure (finishing list))
      (fun _ _ => True)
      fun result own lists => own = [] ∧ ∃ list inner, result = finish list ∧
        found list (list.node.map key) inner ∧ NamesInOrder (list.node.map key) ∧
        lists = (kind, list.node.map key) :: inner := by
  refine compared follows ?_ ?_ fits
  · intro list own lists told
    have own_keys := (each list own lists told).keys fun value own lists told =>
      (owned value own lists told).1
    refine ⟨own_keys, own_keys ▸ List.forall_mem_map.mpr fun value member => ?_⟩
    obtain ⟨names, inner, one, -⟩ := (each list own lists told).member member
    exact (owned value names inner one).2
  · intro list copy like
    rw [List.forall₂_map_left_iff, List.forall₂_map_right_iff]
    exact like.imp renamed

end Reader

end GraphQL
