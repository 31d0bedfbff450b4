import Tuuli.BagJoins

/-!
Reordering laws of bag joins. Each law is stated for inputs within disjoint
column sets `A`, `B` and `D`, and for predicates that do not read the columns
of the input they are moved past. The conditional laws name the columns on
which a predicate has to reject NULLs.
-/
namespace BagJoins

variable {C V : Type} {A B D P Q : Set C} {p q : Row C V → Option Bool} {R S T : Multiset (Row C V)}
  {r : Row C V}

/-- Two joins that extend the same left input commute. -/
theorem leftJoin_left_asscom (k m : LeftJoin) (readsP : Reads P p) (readsQ : Reads Q q)
    (freeP : Disjoint D P) (freeQ : Disjoint B Q) (disjoint : Disjoint B D) (hS : BagWithin B S)
    (hT : BagWithin D T) :
    leftJoin m q (leftJoin k p R S) T = leftJoin k p (leftJoin m q R T) S := by
  rw [leftJoin_leftJoin, leftJoin_leftJoin]
  refine Multiset.bind_congr (fun r _ => ?_)
  calc (appended k p S r).bind
        (fun s => (appended m q T (concat r s)).map (concat (concat r s)))
      = (appended k p S r).bind
          (fun s => (appended m q T r).map (fun t => concat (concat r s) t)) := by
        refine Multiset.bind_congr (fun s hs => ?_)
        rw [appended_congr (fun t _ =>
          concat_skip_middle readsQ freeQ (appended_within hS hs) r t)]
    _ = (appended m q T r).bind
          (fun t => (appended k p S r).map (fun s => concat (concat r s) t)) :=
        Multiset.bind_map_comm _ _
    _ = (appended m q T r).bind
          (fun t => (appended k p S (concat r t)).map (concat (concat r t))) := by
        refine Multiset.bind_congr (fun t ht => ?_)
        have tWithin := appended_within hT ht
        rw [appended_congr (fun s _ => concat_skip_middle readsP freeP tWithin r s)]
        exact Multiset.map_congr rfl (fun s hs =>
          concat_right_comm disjoint (appended_within hS hs) tWithin r)

/-- A predicate blind to the appended columns selects before the join as after it. -/
theorem partners_leftJoin (m : LeftJoin) (readsP : Reads P p) (freeP : Disjoint D P)
    (hT : BagWithin D T) (r : Row C V) :
    partners p (leftJoin m q S T) r = leftJoin m q (partners p S r) T := by
  induction S using Multiset.induction_on with
  | empty => rfl
  | cons s S ih =>
    have same : ∀ t ∈ appended m q T s, p (concat r (concat s t)) = p (concat r s) := by
      intro t ht
      rw [← concat_assoc]
      exact concat_skip_right readsP freeP (appended_within hT ht)
    have split : leftJoin m q (s ::ₘ S) T
        = (appended m q T s).map (concat s) + leftJoin m q S T := Multiset.cons_bind ..
    rw [split]
    simp only [partners, Multiset.filter_add] at ih ⊢
    rw [ih, Multiset.filter_map]
    by_cases holds : p (concat r s) = some true
    · have all : (appended m q T s).filter
          ((fun u => p (concat r u) = some true) ∘ concat s) = appended m q T s :=
        Multiset.filter_eq_self.mpr (fun t ht => (same t ht).trans holds)
      rw [all, Multiset.filter_cons_of_pos (p := fun u => p (concat r u) = some true) S holds]
      exact (Multiset.cons_bind ..).symm
    · have none : (appended m q T s).filter
          ((fun u => p (concat r u) = some true) ∘ concat s) = 0 :=
        Multiset.filter_eq_nil.mpr (fun t ht h => holds ((same t ht).symm.trans h))
      rw [none, Multiset.filter_cons_of_neg (p := fun u => p (concat r u) = some true) S holds]
      simp

theorem matched_row_assoc (m : LeftJoin) (readsP : Reads P p) (readsQ : Reads Q q)
    (freeP : Disjoint D P) (freeQ : Disjoint A Q) (hT : BagWithin D T) (hr : Within A r) :
    (partners p S r).bind (fun s => (appended m q T (concat r s)).map (concat (concat r s)))
      = (partners p (leftJoin m q S T) r).map (concat r) := by
  rw [partners_leftJoin m readsP freeP hT, leftJoin, Multiset.map_bind]
  refine Multiset.bind_congr (fun s _ => ?_)
  have same : appended m q T (concat r s) = appended m q T s := by
    refine appended_congr (fun t _ => ?_)
    rw [concat_assoc]
    exact concat_skip_left readsQ freeQ hr
  rw [Multiset.map_map, same]
  exact Multiset.map_congr rfl (fun t _ => concat_assoc r s t)

theorem leftJoin_inner_assoc (m : LeftJoin) (readsP : Reads P p) (readsQ : Reads Q q)
    (freeP : Disjoint D P) (freeQ : Disjoint A Q) (hR : BagWithin A R) (hT : BagWithin D T) :
    leftJoin m q (leftJoin .inner p R S) T = leftJoin .inner p R (leftJoin m q S T) := by
  rw [leftJoin_leftJoin]
  exact Multiset.bind_congr (fun r hr =>
    matched_row_assoc m readsP readsQ freeP freeQ hT (hR r hr))

theorem leftJoin_outer_card_ne_zero (hS : S.card ≠ 0) : (leftJoin .outer q S T).card ≠ 0 := by
  obtain ⟨s, hs⟩ := Multiset.card_pos_iff_exists_mem.mp (Nat.pos_of_ne_zero hS)
  have kept : ∃ t, t ∈ appended .outer q T s := by
    simp only [appended]
    split
    · exact ⟨nullRow, Multiset.mem_singleton_self _⟩
    · rename_i some
      exact Multiset.card_pos_iff_exists_mem.mp (Nat.pos_of_ne_zero some)
  obtain ⟨t, ht⟩ := kept
  exact (Multiset.card_pos_iff_exists_mem.mpr ⟨concat s t,
    Multiset.mem_bind.mpr ⟨s, hs, Multiset.mem_map_of_mem _ ht⟩⟩).ne'

theorem partners_eq_zero_of_rejects (rejects : RejectsNulls B q) (hT : BagWithin D T)
    (disjoint : Disjoint B D) (nulls : ∀ c ∈ B, r c = none) : (partners q T r).card = 0 := by
  refine partners_eq_zero_iff.mpr (fun t ht => rejects _ (fun c hc => ?_))
  have outside : c ∉ D := Set.disjoint_left.mp disjoint hc
  simp [concat, nulls c hc, hT t ht c outside]

theorem Within.null_on (hr : Within A r) (disjoint : Disjoint A B) : ∀ c ∈ B, r c = none :=
  fun c hc => hr c (fun member => Set.disjoint_left.mp disjoint member hc)

theorem leftJoin_outer_assoc (readsP : Reads P p) (readsQ : Reads Q q) (freeP : Disjoint D P)
    (freeQ : Disjoint A Q) (disjointAB : Disjoint A B) (disjointBD : Disjoint B D)
    (rejects : RejectsNulls B q) (hR : BagWithin A R) (hT : BagWithin D T) :
    leftJoin .outer q (leftJoin .outer p R S) T = leftJoin .outer p R (leftJoin .outer q S T) := by
  rw [leftJoin_leftJoin]
  refine Multiset.bind_congr (fun r hr => ?_)
  have inner := partners_leftJoin (q := q) (S := S) .outer readsP freeP hT r
  by_cases unmatched : (partners p S r).card = 0
  · -- the unmatched row is NULL on `B`, so the second join keeps it as it is
    have alone := partners_eq_zero_of_rejects rejects hT disjointBD
      ((hR r hr).null_on disjointAB)
    have empty : (partners p (leftJoin .outer q S T) r).card = 0 := by
      rw [inner, Multiset.card_eq_zero.mp unmatched, leftJoin_zero, Multiset.card_zero]
    rw [appended_outer_unmatched unmatched, appended_outer_unmatched empty]
    simp [appended_outer_unmatched alone]
  · have some : (partners p (leftJoin .outer q S T) r).card ≠ 0 := by
      rw [inner]
      exact leftJoin_outer_card_ne_zero unmatched
    rw [appended_outer_matched unmatched, appended_outer_matched some]
    exact matched_row_assoc .outer readsP readsQ freeP freeQ hT (hR r hr)

theorem leftJoin_inner_eq_bind (p : Row C V → Option Bool) (R S : Multiset (Row C V)) :
    leftJoin .inner p R S = R.bind (fun r => S.bind (fun s =>
      if p (concat r s) = some true then {concat r s} else 0)) := by
  refine Multiset.bind_congr (fun r _ => ?_)
  simp only [appended, partners, Multiset.filter_eq_bind, Multiset.map_bind]
  refine Multiset.bind_congr (fun s _ => ?_)
  split <;> simp

theorem leftJoin_inner_comm (disjoint : Disjoint A B) (hR : BagWithin A R) (hS : BagWithin B S) :
    leftJoin .inner p R S = leftJoin .inner p S R := by
  rw [leftJoin_inner_eq_bind, leftJoin_inner_eq_bind, Multiset.bind_bind]
  refine Multiset.bind_congr (fun s hs => Multiset.bind_congr (fun r hr => ?_))
  rw [concat_comm_of_disjoint disjoint (hR r hr) (hS s hs)]

theorem leftJoin_inner_right_asscom (readsP : Reads P p) (readsQ : Reads Q q) (freeP : Disjoint B P)
    (freeQ : Disjoint A Q) (disjointAB : Disjoint A B) (disjointAD : Disjoint A D)
    (hR : BagWithin A R) (hS : BagWithin B S) (hT : BagWithin D T) :
    leftJoin .inner p R (leftJoin .inner q S T) = leftJoin .inner q S (leftJoin .inner p R T) := by
  have hST : BagWithin (B ∪ D) (leftJoin .inner q S T) := leftJoin_within hS hT
  calc leftJoin .inner p R (leftJoin .inner q S T)
      = leftJoin .inner p (leftJoin .inner q S T) R :=
        leftJoin_inner_comm (Set.disjoint_union_right.mpr ⟨disjointAB,disjointAD⟩) hR hST
    _ = leftJoin .inner q S (leftJoin .inner p T R) :=
        leftJoin_inner_assoc .inner readsQ readsP freeQ freeP hS hR
    _ = leftJoin .inner q S (leftJoin .inner p R T) := by
        rw [leftJoin_inner_comm disjointAD hR hT]

/-! Full outer joins: the matched rows, and the unmatched rows of both inputs. -/

theorem leftJoin_outer_eq_add (p : Row C V → Option Bool) (R S : Multiset (Row C V)) :
    leftJoin .outer p R S = leftJoin .inner p R S + leftJoin .anti p R S := by
  simp only [leftJoin]
  rw [← Multiset.bind_add]
  refine Multiset.bind_congr (fun r _ => ?_)
  by_cases unmatched : (partners p S r).card = 0
  · simp [appended, Multiset.card_eq_zero.mp unmatched]
  · simp only [appended, if_neg unmatched, Multiset.map_zero, add_zero]

theorem fullJoin_comm (disjoint : Disjoint A B) (hR : BagWithin A R) (hS : BagWithin B S) :
    fullJoin p R S = fullJoin p S R := by
  simp only [fullJoin, leftJoin_outer_eq_add]
  rw [leftJoin_inner_comm disjoint hR hS, add_assoc, add_assoc, add_comm (leftJoin .anti p R S)]

theorem leftJoin_anti_congr {S S' : Multiset (Row C V)}
    (same : ∀ r ∈ R, (partners p S r).card = 0 ↔ (partners p S' r).card = 0) :
    leftJoin .anti p R S = leftJoin .anti p R S' := by
  refine Multiset.bind_congr (fun r hr => ?_)
  simp only [appended, same r hr]

theorem leftJoin_outer_of_rejects (rejects : RejectsNulls B q) (disjointAB : Disjoint A B)
    (disjointBD : Disjoint B D) (hR : BagWithin A R) (hT : BagWithin D T) :
    leftJoin .outer q R T = R := by
  have kept : ∀ r ∈ R, (appended .outer q T r).map (concat r) = {r} := by
    intro r hr
    have alone := partners_eq_zero_of_rejects rejects hT disjointBD
      ((hR r hr).null_on disjointAB)
    simp [appended_outer_unmatched alone]
  rw [leftJoin, Multiset.bind_congr kept, Multiset.bind_singleton, Multiset.map_id']

theorem leftJoin_anti_within (hR : BagWithin A R) : BagWithin A (leftJoin .anti p R S) := by
  intro u hu
  simp only [leftJoin, Multiset.mem_bind, Multiset.mem_map, appended] at hu
  obtain ⟨r, hr, s, hs, rfl⟩ := hu
  split at hs
  · rw [Multiset.mem_singleton.mp hs, concat_nullRow]
    exact hR r hr
  · simp at hs

theorem partners_leftJoin_outer_eq_zero_iff (readsQ : Reads Q q) (freeQ : Disjoint B Q)
    (hS : BagWithin B S) (t : Row C V) :
    (partners q (leftJoin .outer p R S) t).card = 0 ↔ (partners q R t).card = 0 := by
  rw [partners_leftJoin .outer readsQ freeQ hS]
  constructor
  · intro empty
    by_contra some
    exact leftJoin_outer_card_ne_zero some empty
  · intro empty
    rw [Multiset.card_eq_zero.mp empty, leftJoin_zero, Multiset.card_zero]

theorem leftJoin_anti_outer (readsQ : Reads Q q) (freeQ : Disjoint B Q) (hS : BagWithin B S) :
    leftJoin .anti q T (leftJoin .outer p R S) = leftJoin .anti q T R :=
  leftJoin_anti_congr (fun t _ => partners_leftJoin_outer_eq_zero_iff readsQ freeQ hS t)

variable (readsP : Reads P p)

include readsP

theorem fullJoin_outer_left_asscom (readsQ : Reads Q q) (freeP : Disjoint D P)
    (freeQ : Disjoint B Q) (disjointAB : Disjoint A B) (disjointAD : Disjoint A D)
    (disjointBD : Disjoint B D) (rejects : RejectsNulls A p) (hS : BagWithin B S)
    (hT : BagWithin D T) :
    fullJoin q (leftJoin .outer p R S) T = leftJoin .outer p (fullJoin q R T) S := by
  have unmatched : BagWithin D (leftJoin .anti q T R) := leftJoin_anti_within hT
  calc fullJoin q (leftJoin .outer p R S) T
      = leftJoin .outer p (leftJoin .outer q R T) S + leftJoin .anti q T R := by
        rw [fullJoin, leftJoin_anti_outer readsQ freeQ hS,
          leftJoin_left_asscom .outer .outer readsP readsQ freeP freeQ disjointBD hS hT]
    _ = leftJoin .outer p (leftJoin .outer q R T) S
          + leftJoin .outer p (leftJoin .anti q T R) S := by
        rw [leftJoin_outer_of_rejects rejects disjointAD.symm disjointAB unmatched hS]
    _ = leftJoin .outer p (fullJoin q R T) S := by rw [fullJoin, leftJoin_add]

omit readsP in
theorem leftJoin_anti_full (readsQ : Reads Q q) (freeQ : Disjoint B Q) (disjointAB : Disjoint A B)
    (disjointAD : Disjoint A D) (rejects : RejectsNulls A q) (hS : BagWithin B S)
    (hT : BagWithin D T) : leftJoin .anti q T (fullJoin p R S) = leftJoin .anti q T R := by
  refine leftJoin_anti_congr (fun t ht => ?_)
  have unmatched : BagWithin B (leftJoin .anti p S R) := leftJoin_anti_within hS
  have alone : (partners q (leftJoin .anti p S R) t).card = 0 :=
    partners_eq_zero_of_rejects rejects unmatched disjointAB ((hT t ht).null_on disjointAD.symm)
  have split : (partners q (fullJoin p R S) t).card
      = (partners q (leftJoin .outer p R S) t).card := by
    rw [fullJoin, partners, Multiset.filter_add, Multiset.card_add]
    exact congrArg _ alone
  rw [split, partners_leftJoin_outer_eq_zero_iff readsQ freeQ hS]

/-- Two full joins that extend the same left input commute. -/
theorem fullJoin_left_asscom (readsQ : Reads Q q) (freeP : Disjoint D P) (freeQ : Disjoint B Q)
    (disjointAB : Disjoint A B) (disjointAD : Disjoint A D) (disjointBD : Disjoint B D)
    (rejectsP : RejectsNulls A p) (rejectsQ : RejectsNulls A q) (hS : BagWithin B S)
    (hT : BagWithin D T) : fullJoin q (fullJoin p R S) T = fullJoin p (fullJoin q R T) S := by
  have leftOver : BagWithin B (leftJoin .anti p S R) := leftJoin_anti_within hS
  have rightOver : BagWithin D (leftJoin .anti q T R) := leftJoin_anti_within hT
  have lhs : fullJoin q (fullJoin p R S) T
      = leftJoin .outer q (leftJoin .outer p R S) T + leftJoin .anti p S R
        + leftJoin .anti q T R := by
    rw [fullJoin, leftJoin_anti_full readsQ freeQ disjointAB disjointAD rejectsQ hS hT]
    rw [fullJoin, leftJoin_add,
      leftJoin_outer_of_rejects rejectsQ disjointAB.symm disjointAD leftOver hT]
  have rhs : fullJoin p (fullJoin q R T) S
      = leftJoin .outer p (leftJoin .outer q R T) S + leftJoin .anti q T R
        + leftJoin .anti p S R := by
    rw [fullJoin, leftJoin_anti_full readsP freeP disjointAD disjointAB rejectsP hT hS]
    rw [fullJoin, leftJoin_add,
      leftJoin_outer_of_rejects rejectsP disjointAD.symm disjointAB rightOver hS]
  rw [lhs, rhs, leftJoin_left_asscom .outer .outer readsP readsQ freeP freeQ disjointBD hS hT]
  exact add_right_comm _ _ _

theorem fullJoin_outer_assoc (readsQ : Reads Q q) (freeP : Disjoint D P) (freeQ : Disjoint A Q)
    (disjointAB : Disjoint A B) (disjointAD : Disjoint A D) (disjointBD : Disjoint B D)
    (rejects : RejectsNulls B q) (hR : BagWithin A R) (hS : BagWithin B S) (hT : BagWithin D T) :
    leftJoin .outer q (fullJoin p R S) T = fullJoin p R (leftJoin .outer q S T) := by
  have hST : BagWithin (B ∪ D) (leftJoin .outer q S T) := leftJoin_within hS hT
  calc leftJoin .outer q (fullJoin p R S) T
      = leftJoin .outer q (fullJoin p S R) T := by rw [fullJoin_comm disjointAB hR hS]
    _ = fullJoin p (leftJoin .outer q S T) R :=
        (fullJoin_outer_left_asscom readsQ readsP freeQ freeP disjointBD disjointAB.symm
          disjointAD.symm rejects hT hR).symm
    _ = fullJoin p R (leftJoin .outer q S T) :=
        fullJoin_comm (Set.disjoint_union_left.mpr ⟨disjointAB.symm,disjointAD.symm⟩) hST hR

theorem fullJoin_assoc (readsQ : Reads Q q) (freeP : Disjoint D P) (freeQ : Disjoint A Q)
    (disjointAB : Disjoint A B) (disjointAD : Disjoint A D) (disjointBD : Disjoint B D)
    (rejectsP : RejectsNulls B p) (rejectsQ : RejectsNulls B q) (hR : BagWithin A R)
    (hS : BagWithin B S) (hT : BagWithin D T) :
    fullJoin q (fullJoin p R S) T = fullJoin p R (fullJoin q S T) := by
  have hST : BagWithin (B ∪ D) (fullJoin q S T) := fullJoin_within hS hT
  calc fullJoin q (fullJoin p R S) T
      = fullJoin q (fullJoin p S R) T := by rw [fullJoin_comm disjointAB hR hS]
    _ = fullJoin p (fullJoin q S T) R :=
        fullJoin_left_asscom readsP readsQ freeP freeQ disjointAB.symm disjointBD
          disjointAD rejectsP rejectsQ hR hT
    _ = fullJoin p R (fullJoin q S T) :=
        fullJoin_comm (Set.disjoint_union_left.mpr ⟨disjointAB.symm,disjointAD.symm⟩) hST hR

/-- Two full joins that share their right input commute. -/
theorem fullJoin_right_asscom (readsQ : Reads Q q) (freeP : Disjoint B P) (freeQ : Disjoint A Q)
    (disjointAB : Disjoint A B) (disjointAD : Disjoint A D) (disjointBD : Disjoint B D)
    (rejectsP : RejectsNulls D p) (rejectsQ : RejectsNulls D q) (hR : BagWithin A R)
    (hS : BagWithin B S) (hT : BagWithin D T) :
    fullJoin p R (fullJoin q S T) = fullJoin q S (fullJoin p R T) := by
  have hST : BagWithin (B ∪ D) (fullJoin q S T) := fullJoin_within hS hT
  have hTR : BagWithin (D ∪ A) (fullJoin p T R) := fullJoin_within hT hR
  calc fullJoin p R (fullJoin q S T)
      = fullJoin p (fullJoin q S T) R :=
        fullJoin_comm (Set.disjoint_union_right.mpr ⟨disjointAB,disjointAD⟩) hR hST
    _ = fullJoin p (fullJoin q T S) R := by rw [fullJoin_comm disjointBD hS hT]
    _ = fullJoin q (fullJoin p T R) S :=
        fullJoin_left_asscom readsQ readsP freeQ freeP disjointBD.symm disjointAD.symm
          disjointAB.symm rejectsQ rejectsP hS hR
    _ = fullJoin q S (fullJoin p T R) :=
        fullJoin_comm (Set.disjoint_union_left.mpr ⟨disjointBD.symm,disjointAB⟩) hTR hS
    _ = fullJoin q S (fullJoin p R T) := by rw [fullJoin_comm disjointAD hR hT]

end BagJoins
