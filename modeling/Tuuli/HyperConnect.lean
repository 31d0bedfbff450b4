import Mathlib.Data.Finset.Card

/-!
Sets of nodes that a hypergraph connects: single nodes, and unions of two
disjoint connected sets with an edge from one to the other. A frontier of a
set meets every edge that leaves the set for permitted nodes, so every larger
permitted connected set meets the frontier.
-/
namespace HyperConnect

variable {α : Type} [DecidableEq α]

inductive Constructible (nodes : Finset α) (E : Finset α → Finset α → Prop) : Finset α → Prop
  | single {v : α} : v ∈ nodes → Constructible nodes E {v}
  | join {A B u w : Finset α} : Constructible nodes E A → Constructible nodes E B →
      Disjoint A B → E u w → u ⊆ A → w ⊆ B → Constructible nodes E (A ∪ B)

namespace Constructible

variable {nodes A : Finset α} {E : Finset α → Finset α → Prop}

theorem nonempty (h : Constructible nodes E A) : A.Nonempty := by
  induction h with
  | single member => exact Finset.singleton_nonempty _
  | join left right disjoint edge inA inB ihA ihB => exact ihA.mono Finset.subset_union_left

theorem subset (h : Constructible nodes E A) : A ⊆ nodes := by
  induction h with
  | single member => exact Finset.singleton_subset_iff.mpr member
  | join left right disjoint edge inA inB ihA ihB => exact Finset.union_subset ihA ihB

theorem exists_edge (symm : ∀ {u w}, E u w → E w u) (h : Constructible nodes E A) {S : Finset α}
    (nonempty : S.Nonempty) (inside : S ⊆ A) (proper : S ≠ A) :
    ∃ u w, E u w ∧ u ⊆ S ∧ w ⊆ A \ S := by
  induction h generalizing S with
  | @single v member =>
    rcases Finset.subset_singleton_iff.mp inside with rfl | rfl
    · simp at nonempty
    · exact absurd rfl proper
  | @join A B u w left right disjoint edge inA inB ihA ihB =>
    -- a part that splits one side has its edge there; otherwise the part is a side
    by_cases splitA : (S ∩ A).Nonempty ∧ S ∩ A ≠ A
    · obtain ⟨u', w', edge', inside', outside'⟩ :=
        ihA splitA.1 Finset.inter_subset_right splitA.2
      refine ⟨u', w', edge', inside'.trans Finset.inter_subset_left, fun x member => ?_⟩
      obtain ⟨inA', notS⟩ := Finset.mem_sdiff.mp (outside' member)
      exact Finset.mem_sdiff.mpr ⟨Finset.mem_union_left _ inA', fun inS =>
        notS (Finset.mem_inter.mpr ⟨inS, inA'⟩)⟩
    by_cases splitB : (S ∩ B).Nonempty ∧ S ∩ B ≠ B
    · obtain ⟨u', w', edge', inside', outside'⟩ :=
        ihB splitB.1 Finset.inter_subset_right splitB.2
      refine ⟨u', w', edge', inside'.trans Finset.inter_subset_left, fun x member => ?_⟩
      obtain ⟨inB', notS⟩ := Finset.mem_sdiff.mp (outside' member)
      exact Finset.mem_sdiff.mpr ⟨Finset.mem_union_right _ inB', fun inS =>
        notS (Finset.mem_inter.mpr ⟨inS, inB'⟩)⟩
    have whole : ∀ {C : Finset α}, ¬ ((S ∩ C).Nonempty ∧ S ∩ C ≠ C) → Disjoint S C ∨ C ⊆ S := by
      intro C unsplit
      by_cases meets : (S ∩ C).Nonempty
      · exact .inr (Finset.inter_eq_right.mp (not_not.mp (fun ne => unsplit ⟨meets, ne⟩)))
      · exact .inl (Finset.disjoint_iff_inter_eq_empty.mpr (Finset.not_nonempty_iff_eq_empty.mp meets))
    rcases whole splitA with awayA | inS <;> rcases whole splitB with awayB | inS'
    · have away := Finset.disjoint_union_right.mpr ⟨awayA, awayB⟩
      exact absurd (away.eq_bot_of_le inside) nonempty.ne_empty
    · refine ⟨w, u, symm edge, inB.trans inS', fun x member => ?_⟩
      exact Finset.mem_sdiff.mpr ⟨Finset.mem_union_left _ (inA member), fun inS =>
        Finset.disjoint_left.mp awayA inS (inA member)⟩
    · refine ⟨u, w, edge, inA.trans inS, fun x member => ?_⟩
      exact Finset.mem_sdiff.mpr ⟨Finset.mem_union_right _ (inB member), fun inS =>
        Finset.disjoint_left.mp awayB inS (inB member)⟩
    · exact absurd (Finset.Subset.antisymm inside (Finset.union_subset inS inS')) proper

theorem cases_of_mem (symm : ∀ {u w}, E u w → E w u) (h : Constructible nodes E A) {v : α}
    (member : v ∈ A) : A = {v} ∨ ∃ B C u w, Constructible nodes E B ∧ Constructible nodes E C ∧
      Disjoint B C ∧ E u w ∧ u ⊆ B ∧ w ⊆ C ∧ v ∈ B ∧ A = B ∪ C := by
  cases h with
  | single node => exact .inl (by rw [Finset.mem_singleton.mp member])
  | @join A B u w left right disjoint edge inA inB =>
    rcases Finset.mem_union.mp member with inLeft | inRight
    · exact .inr ⟨A, B, u, w, left, right, disjoint, edge, inA, inB, inLeft, rfl⟩
    · exact .inr ⟨B, A, w, u, right, left, disjoint.symm, symm edge, inB, inA, inRight,
        Finset.union_comm _ _⟩

end Constructible

/-- `N` meets every edge that leads from inside `S` to nodes outside `S` and `F`. -/
def Frontier (E : Finset α → Finset α → Prop) (S N F : Finset α) : Prop :=
  ∀ ⦃u w⦄, E u w → u ⊆ S → Disjoint w S → Disjoint w F → ¬ Disjoint w N

variable {S N F : Finset α} {E : Finset α → Finset α → Prop}

theorem Frontier.meets {nodes A : Finset α} (symm : ∀ {u w}, E u w → E w u)
    (frontier : Frontier E S N F) (h : Constructible nodes E A) (nonempty : S.Nonempty)
    (grows : S ⊂ A) (permitted : A ∩ F ⊆ S) : (A ∩ N).Nonempty := by
  obtain ⟨u, w, edge, inside, outside⟩ := h.exists_edge symm nonempty grows.subset grows.ne
  have away : Disjoint w S := Finset.disjoint_left.mpr (fun x member =>
    (Finset.mem_sdiff.mp (outside member)).2)
  have free : Disjoint w F := Finset.disjoint_left.mpr (fun x member forbidden =>
    Finset.disjoint_left.mp away member (permitted (Finset.mem_inter.mpr
      ⟨(Finset.mem_sdiff.mp (outside member)).1, forbidden⟩)))
  obtain ⟨x, inW, inN⟩ := Finset.not_disjoint_iff.mp (frontier edge inside away free)
  exact ⟨x, Finset.mem_inter.mpr ⟨(Finset.mem_sdiff.mp (outside inW)).1, inN⟩⟩

def Extends (E : Finset α → Finset α → Prop) (S N F G N' : Finset α) : Prop :=
  ∀ ⦃u w⦄, E u w → u ⊆ S ∪ G → ¬ u ⊆ S → Disjoint w (S ∪ F ∪ N) → ¬ Disjoint w N'

theorem Frontier.step {G N' : Finset α} (frontier : Frontier E S N F)
    (extension : Extends E S N F G N') : Frontier E (S ∪ G) N' ((F ∪ N) \ (S ∪ G)) := by
  intro u w edge inside away free
  have avoids : Disjoint w (S ∪ F ∪ N) := by
    refine Finset.disjoint_left.mpr (fun x inW member => ?_)
    have notGrown := Finset.disjoint_left.mp away inW
    have notForbidden := Finset.disjoint_left.mp free inW
    simp only [Finset.mem_union, Finset.mem_sdiff, not_and, not_not] at member notGrown notForbidden
    rcases member with (inS | inF) | inN
    · exact notGrown (.inl inS)
    · exact notGrown (notForbidden (.inl inF))
    · exact notGrown (notForbidden (.inr inN))
  by_cases old : u ⊆ S
  · simp only [Finset.disjoint_union_right] at avoids
    exact absurd avoids.2 (frontier edge old avoids.1.1 avoids.1.2)
  · exact extension edge inside old avoids

end HyperConnect
