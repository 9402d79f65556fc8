import Mathlib.Data.Finset.Card
import Mathlib.Logic.Relation

/-!
Things that lead to each other without coming back.

Where nothing leads back to itself, every step leads to something that reaches less. So how much of
what is known a thing reaches bounds the steps that can be taken from it.
-/

namespace GraphQL

variable {α : Type} [DecidableEq α] {leads : α → α → Prop} {known : List α}

open Classical in
/-- How many of the known things a thing reaches. -/
noncomputable def reachCount (leads : α → α → Prop) (known : List α) (start : α) : Nat :=
  (known.toFinset.filter fun other => Relation.TransGen leads start other).card

theorem reach_count_lt (acyclic : ∀ thing, ¬Relation.TransGen leads thing thing) {thing other : α}
    (member : other ∈ known) (step : leads thing other) :
    reachCount leads known other < reachCount leads known thing := by
  apply Finset.card_lt_card
  refine ⟨fun reached inside => ?_, fun back => ?_⟩
  · simp only [Finset.mem_filter] at inside ⊢
    exact ⟨inside.1, .head step inside.2⟩
  · have itself := @back other (by simpa using ⟨member, .single step⟩)
    simp only [Finset.mem_filter] at itself
    exact acyclic other itself.2

theorem reach_count_lt_length (acyclic : ∀ thing, ¬Relation.TransGen leads thing thing) {thing : α}
    (member : thing ∈ known) : reachCount leads known thing < known.length := by
  classical
  refine Nat.lt_of_lt_of_le (Finset.card_lt_card ⟨Finset.filter_subset _ _, fun back => ?_⟩)
    (List.toFinset_card_le known)
  have itself := back (List.mem_toFinset.mpr member)
  simp only [Finset.mem_filter] at itself
  exact acyclic thing itself.2

end GraphQL
