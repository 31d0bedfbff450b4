import Mathlib.Data.Finset.Card

/-!
Finite sets of things that need providers. A set is closed if it has the providers of its
members. Where nothing needs itself in a circle, a closed set is reached from any smaller one
by adding things one at a time, each after its providers.
-/
namespace DependencyOrder
variable {α : Type} (providers : α → Finset α)

def Closed (s : Finset α) : Prop := ∀ a ∈ s, providers a ⊆ s

def Circular (s : Finset α) : Prop :=
  ∃ t ⊆ s, t.Nonempty ∧ ∀ a ∈ t, ∃ b ∈ t, b ∈ providers a

variable {providers} {small large left right : Finset α}

theorem Circular.mono (circle : Circular providers small) (sub : small ⊆ large) :
    Circular providers large := by
  obtain ⟨t, inside, rest⟩ := circle
  exact ⟨t, inside.trans sub, rest⟩

variable [DecidableEq α]

theorem exists_next (closed : Closed providers large) (straight : ¬ Circular providers large)
    (sub : small ⊂ large) : ∃ a ∈ large \ small, providers a ⊆ small := by
  by_contra none
  push Not at none
  refine straight ⟨large \ small, Finset.sdiff_subset, Finset.sdiff_nonempty.mpr sub.not_subset, ?_⟩
  intro a outside
  obtain ⟨b, needed, missing⟩ := Finset.not_subset.mp (none a outside)
  have inside := closed a (Finset.mem_sdiff.mp outside).1 needed
  exact ⟨b, Finset.mem_sdiff.mpr ⟨inside, missing⟩, needed⟩

theorem Closed.climb {motive : Finset α → Prop} (closed : Closed providers small)
    (closedLarge : Closed providers large) (straight : ¬ Circular providers large)
    (sub : small ⊆ large) (start : motive small)
    (step : ∀ s a, Closed providers s → s ⊆ large → a ∈ large → a ∉ s → providers a ⊆ s →
      motive s → motive (insert a s)) : motive large := by
  induction missing : (large \ small).card using Nat.strongRecOn generalizing small with
  | ind count ih =>
    rcases sub.eq_or_ssubset with rfl | proper
    · exact start
    obtain ⟨a, outside, needs⟩ := exists_next closedLarge straight proper
    obtain ⟨inside, fresh⟩ := Finset.mem_sdiff.mp outside
    have grown : Closed providers (insert a small) := by
      intro b member
      rcases Finset.mem_insert.mp member with rfl | old
      · exact needs.trans (Finset.subset_insert _ _)
      · exact (closed b old).trans (Finset.subset_insert _ _)
    have fewer : (large \ insert a small).card < count := by
      rw [← missing, Finset.sdiff_insert]
      exact Finset.card_lt_card (Finset.erase_ssubset outside)
    exact ih _ fewer grown (Finset.insert_subset inside sub)
      (step small a closed sub inside fresh needs start) rfl

theorem not_circular_union (straightLeft : ¬ Circular providers left)
    (straightRight : ¬ Circular providers right)
    (oneWay : ∀ a ∈ left, Disjoint (providers a) right) : ¬ Circular providers (left ∪ right) := by
  rintro ⟨t, inside, nonempty, circle⟩
  by_cases meets : (t ∩ left).Nonempty
  · refine straightLeft ⟨t ∩ left, Finset.inter_subset_right, meets, ?_⟩
    intro a member
    obtain ⟨inT, inLeft⟩ := Finset.mem_inter.mp member
    obtain ⟨b, inCircle, needed⟩ := circle a inT
    rcases Finset.mem_union.mp (inside inCircle) with onLeft | onRight
    · exact ⟨b, Finset.mem_inter.mpr ⟨inCircle, onLeft⟩, needed⟩
    · exact absurd onRight (Finset.disjoint_left.mp (oneWay a inLeft) needed)
  · refine straightRight ⟨t, ?_, nonempty, circle⟩
    intro a member
    rcases Finset.mem_union.mp (inside member) with onLeft | onRight
    · exact absurd ⟨a, Finset.mem_inter.mpr ⟨member, onLeft⟩⟩ meets
    · exact onRight

end DependencyOrder
