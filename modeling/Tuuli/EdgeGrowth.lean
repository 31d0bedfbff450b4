import Tuuli.HyperConnect

/-!
Enlarging the two sides of one edge. Connected sets that meet have a connected
union, so without the edge the nodes fall into components; the enlarged edge
can be used exactly when each of its sides lies in one of them.
-/
namespace HyperConnect

variable {α : Type} [DecidableEq α] {nodes A B : Finset α} {E : Finset α → Finset α → Prop}

namespace Constructible

theorem mono {E' : Finset α → Finset α → Prop} (h : Constructible nodes E A)
    (keeps : ∀ {u w}, E u w → E' u w) : Constructible nodes E' A := by
  induction h with
  | single member => exact .single member
  | join left right disjoint edge inA inB ihA ihB => exact .join ihA ihB disjoint (keeps edge) inA inB

theorem union (symm : ∀ {u w}, E u w → E w u) (first : Constructible nodes E A)
    (second : Constructible nodes E B) (meets : ¬ Disjoint A B) :
    Constructible nodes E (A ∪ B) := by
  induction second generalizing A with
  | @single v member =>
    rw [Finset.disjoint_singleton_right, not_not] at meets
    rw [Finset.union_eq_left.mpr (Finset.singleton_subset_iff.mpr meets)]
    exact first
  | @join B C u w left right disjoint edge inB inC ihB ihC =>
    rw [← Finset.union_assoc]
    by_cases awayB : Disjoint A B
    · by_cases awayC : Disjoint A C
      · exact absurd (Finset.disjoint_union_right.mpr ⟨awayB, awayC⟩) meets
      · -- the part that meets `A` is added first, the other one over the edge
        rw [Finset.union_right_comm]
        exact .join (ihC first awayC) left (Finset.disjoint_union_left.mpr ⟨awayB, disjoint.symm⟩)
          (symm edge) (inC.trans Finset.subset_union_right) inB
    · by_cases awayC : Disjoint (A ∪ B) C
      · exact .join (ihB first awayB) right awayC edge (inB.trans Finset.subset_union_right) inC
      · exact ihC (ihB first awayB) awayC

end Constructible

def WithEdge (E : Finset α → Finset α → Prop) (L R u w : Finset α) : Prop :=
  E u w ∨ (u = L ∧ w = R) ∨ (u = R ∧ w = L)

variable {L R L' R' : Finset α}

omit [DecidableEq α] in
theorem WithEdge.symm (symm : ∀ {u w}, E u w → E w u) {u w : Finset α} (edge : WithEdge E L R u w) :
    WithEdge E L R w u := by
  rcases edge with old | ⟨rfl, rfl⟩ | ⟨rfl, rfl⟩
  · exact .inl (symm old)
  · exact .inr (.inr ⟨rfl, rfl⟩)
  · exact .inr (.inl ⟨rfl, rfl⟩)

theorem Constructible.without_edge (h : Constructible nodes (WithEdge E L R) A) :
    Constructible nodes E A ∨ ((∃ X, Constructible nodes E X ∧ L ⊆ X) ∧
      ∃ Y, Constructible nodes E Y ∧ R ⊆ Y) := by
  induction h with
  | single member => exact .inl (.single member)
  | @join A B u w left right disjoint edge inA inB ihA ihB =>
    rcases ihA with withoutA | sides
    · rcases ihB with withoutB | sides
      · rcases edge with old | ⟨rfl, rfl⟩ | ⟨rfl, rfl⟩
        · exact .inl (.join withoutA withoutB disjoint old inA inB)
        · exact .inr ⟨⟨A, withoutA, inA⟩, B, withoutB, inB⟩
        · exact .inr ⟨⟨B, withoutB, inB⟩, A, withoutA, inA⟩
      · exact .inr sides
    · exact .inr sides

theorem Constructible.grow_edge (symm : ∀ {u w}, E u w → E w u) (nonemptyLeft : L.Nonempty)
    (nonemptyRight : R.Nonempty) (left : L ⊆ L') (right : R ⊆ R') {X Y : Finset α}
    (conX : Constructible nodes E X) (inX : L' ⊆ X) (conY : Constructible nodes E Y) (inY : R' ⊆ Y)
    (h : Constructible nodes (WithEdge E L R) A) :
    ∃ B, A ⊆ B ∧ Constructible nodes (WithEdge E L' R') B := by
  have symm' : ∀ {u w}, WithEdge E L' R' u w → WithEdge E L' R' w u := fun edge => edge.symm symm
  have conX' : Constructible nodes (WithEdge E L' R') X := conX.mono .inl
  have conY' : Constructible nodes (WithEdge E L' R') Y := conY.mono .inl
  -- sets around the two old sides reach the new sides through `X` and `Y`
  have reach : ∀ {C D : Finset α}, Constructible nodes (WithEdge E L' R') C →
      Constructible nodes (WithEdge E L' R') D → L ⊆ C → R ⊆ D →
      ∃ B, C ∪ D ⊆ B ∧ Constructible nodes (WithEdge E L' R') B := by
    intro C D conC conD inC inD
    have meetsX : ¬ Disjoint C X := by
      obtain ⟨x, inL⟩ := nonemptyLeft
      exact Finset.not_disjoint_iff.mpr ⟨x, inC inL, inX (left inL)⟩
    have meetsY : ¬ Disjoint D Y := by
      obtain ⟨x, inR⟩ := nonemptyRight
      exact Finset.not_disjoint_iff.mpr ⟨x, inD inR, inY (right inR)⟩
    have wideC := conC.union symm' conX' meetsX
    have wideD := conD.union symm' conY' meetsY
    refine ⟨(C ∪ X) ∪ (D ∪ Y), Finset.union_subset_union Finset.subset_union_left
      Finset.subset_union_left, ?_⟩
    by_cases apart : Disjoint (C ∪ X) (D ∪ Y)
    · exact .join wideC wideD apart (.inr (.inl ⟨rfl, rfl⟩))
        (inX.trans Finset.subset_union_right) (inY.trans Finset.subset_union_right)
    · exact wideC.union symm' wideD apart
  induction h with
  | single member => exact ⟨_, Finset.Subset.refl _, .single member⟩
  | @join A B u w _ _ _ edge inA inB ihA ihB =>
    obtain ⟨C, insideC, conC⟩ := ihA
    obtain ⟨D, insideD, conD⟩ := ihB
    rcases edge with old | ⟨rfl, rfl⟩ | ⟨rfl, rfl⟩
    · refine ⟨C ∪ D, Finset.union_subset_union insideC insideD, ?_⟩
      by_cases apart : Disjoint C D
      · exact .join conC conD apart (.inl old) (inA.trans insideC) (inB.trans insideD)
      · exact conC.union symm' conD apart
    · obtain ⟨whole, inside, con⟩ := reach conC conD (inA.trans insideC) (inB.trans insideD)
      exact ⟨whole, (Finset.union_subset_union insideC insideD).trans inside, con⟩
    · obtain ⟨whole, inside, con⟩ := reach conD conC (inB.trans insideD) (inA.trans insideC)
      rw [Finset.union_comm] at inside
      exact ⟨whole, (Finset.union_subset_union insideC insideD).trans inside, con⟩

/-- When all nodes are connected, they stay so under the larger edge exactly when it is not
needed or each of its sides lies in a set that does not need it. -/
theorem constructible_grow_edge_iff (symm : ∀ {u w}, E u w → E w u) (nonemptyLeft : L.Nonempty)
    (nonemptyRight : R.Nonempty) (left : L ⊆ L') (right : R ⊆ R')
    (whole : Constructible nodes (WithEdge E L R) nodes) :
    Constructible nodes (WithEdge E L' R') nodes ↔ Constructible nodes E nodes ∨
      ((∃ X, Constructible nodes E X ∧ L' ⊆ X) ∧ ∃ Y, Constructible nodes E Y ∧ R' ⊆ Y) := by
  constructor
  · exact Constructible.without_edge
  · rintro (unneeded | ⟨⟨X, conX, inX⟩, Y, conY, inY⟩)
    · exact unneeded.mono .inl
    · obtain ⟨B, inside, con⟩ := Constructible.grow_edge symm nonemptyLeft nonemptyRight left
        right conX inX conY inY whole
      have same : B = nodes := Finset.Subset.antisymm con.subset inside
      exact same ▸ con

end HyperConnect
