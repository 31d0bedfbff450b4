import Tuuli.RegionSemantics

/-!
The operator-pair tables `FAssociative`, `FLeftAsscom` and `FRightAsscom` read
as bag equations. A nested pair fixes the inputs `e1`, `e2`, `e3` of the two
joins; a positive table entry licenses the reordered expression.
-/
namespace JoinRegion
open BagJoins

variable {V : Type}

inductive PairLaw where
  | associativeLeft
  | associativeRight
  | leftAsscom
  | rightAsscom
  deriving DecidableEq, Repr

def PairLaw.Nested (left right : CEdge V) (e2 : CBitSet) : PairLaw → Prop
  | associativeLeft | leftAsscom => e2 ⊆ left.right ∧ left.all ⊆ right.left
  | associativeRight | rightAsscom => e2 ⊆ right.left ∧ right.all ⊆ left.right

def PairLaw.Scoped (atoms : List CAtom) (left right : CEdge V) (e1 e2 e3 : CBitSet) :
    PairLaw → Prop
  | associativeLeft | associativeRight =>
    left.predicate.usedColumns ⊆ pcrsNodes atoms (e1 ∪ e2) ∧
      right.predicate.usedColumns ⊆ pcrsNodes atoms (e2 ∪ e3)
  | leftAsscom =>
    left.predicate.usedColumns ⊆ pcrsNodes atoms (e1 ∪ e2) ∧
      right.predicate.usedColumns ⊆ pcrsNodes atoms (e1 ∪ e3)
  | rightAsscom =>
    left.predicate.usedColumns ⊆ pcrsNodes atoms (e1 ∪ e3) ∧
      right.predicate.usedColumns ⊆ pcrsNodes atoms (e2 ∪ e3)

structure NestedPair (V : Type) where
  law : PairLaw
  atoms : List CAtom
  left : CEdge V
  right : CEdge V
  e1 : CBitSet
  e2 : CBitSet
  e3 : CBitSet
  distinct : ColumnsDisjoint atoms
  leftSupported : fCDCSupportedJoin left.joinType = true
  rightSupported : fCDCSupportedJoin right.joinType = true
  leftSides : Disjoint left.left left.right
  rightSides : Disjoint right.left right.right
  first : e1 ⊆ left.left
  third : e3 ⊆ right.right
  nested : law.Nested left right e2
  wellScoped : law.Scoped atoms left right e1 e2 e3

namespace NestedPair

def licensed (nullRejecting : CPredicate V → CColRefSet → Bool) (pair : NestedPair V) : Bool :=
  match pair.law with
  | .associativeLeft | .associativeRight =>
    fAssociative nullRejecting pair.atoms pair.left pair.right
  | .leftAsscom => fLeftAsscom nullRejecting pair.atoms pair.left pair.right
  | .rightAsscom => fRightAsscom nullRejecting pair.atoms pair.left pair.right

def leftRows (pair : NestedPair V) (R S : Multiset (Row ℕ V)) : Multiset (Row ℕ V) :=
  joinRows pair.left.joinType pair.left.predicate R S

def rightRows (pair : NestedPair V) (R S : Multiset (Row ℕ V)) : Multiset (Row ℕ V) :=
  joinRows pair.right.joinType pair.right.predicate R S

def sides (pair : NestedPair V) (R S T : Multiset (Row ℕ V)) :
    Multiset (Row ℕ V) × Multiset (Row ℕ V) :=
  match pair.law with
  | .associativeLeft | .associativeRight =>
    (pair.rightRows (pair.leftRows R S) T, pair.leftRows R (pair.rightRows S T))
  | .leftAsscom =>
    (pair.rightRows (pair.leftRows R S) T, pair.leftRows (pair.rightRows R T) S)
  | .rightAsscom =>
    (pair.leftRows R (pair.rightRows S T), pair.rightRows S (pair.leftRows R T))

def Reorders (pair : NestedPair V) : Prop :=
  ∀ R S T, RowsOf pair.atoms pair.e1 R → RowsOf pair.atoms pair.e2 S →
    RowsOf pair.atoms pair.e3 T → (pair.sides R S T).1 = (pair.sides R S T).2

def WrongSide (pair : NestedPair V) : Prop :=
  pair.law = .leftAsscom ∧ pair.left.joinType = .fullOuterJoin ∧
    pair.right.joinType = .leftOuterJoin ∧
    ¬ RejectsNulls (pcrsNodes pair.atoms pair.e1 : Set ℕ) pair.right.predicate.value

variable {nullRejecting : CPredicate V → CColRefSet → Bool} {R S T : Multiset (Row ℕ V)}

theorem disjoint12 (pair : NestedPair V) : Disjoint pair.e1 pair.e2 := by
  have inside : pair.e2 ⊆ pair.left.right := by
    have nested := pair.nested
    cases law : pair.law <;> rw [law] at nested
    · exact nested.1
    · exact (nested.1.trans Finset.subset_union_left).trans nested.2
    · exact nested.1
    · exact (nested.1.trans Finset.subset_union_left).trans nested.2
  exact (pair.leftSides.mono_left pair.first).mono_right inside

theorem disjoint13 (pair : NestedPair V) : Disjoint pair.e1 pair.e3 := by
  have nested := pair.nested
  cases law : pair.law <;> rw [law] at nested
  case associativeLeft | leftAsscom =>
    have inside : pair.e1 ⊆ pair.right.left :=
      (pair.first.trans Finset.subset_union_left).trans nested.2
    exact (pair.rightSides.mono_left inside).mono_right pair.third
  case associativeRight | rightAsscom =>
    have inside : pair.e3 ⊆ pair.left.right :=
      (pair.third.trans Finset.subset_union_right).trans nested.2
    exact (pair.leftSides.mono_left pair.first).mono_right inside

theorem disjoint23 (pair : NestedPair V) : Disjoint pair.e2 pair.e3 := by
  have inside : pair.e2 ⊆ pair.right.left := by
    have nested := pair.nested
    cases law : pair.law <;> rw [law] at nested
    · exact (nested.1.trans Finset.subset_union_right).trans nested.2
    · exact nested.1
    · exact (nested.1.trans Finset.subset_union_right).trans nested.2
    · exact nested.1
  exact (pair.rightSides.mono_left inside).mono_right pair.third

theorem columns_disjoint (pair : NestedPair V) {m n : CBitSet} (disjoint : Disjoint m n) :
    Disjoint (pcrsNodes pair.atoms m : Set ℕ) (pcrsNodes pair.atoms n) :=
  pcrsNodes_disjoint pair.distinct disjoint

variable (sound : NullRejectionSound nullRejecting) (pair : NestedPair V)

include sound pair

theorem associative_sound
    (scope : PairLaw.associativeLeft.Scoped pair.atoms pair.left pair.right pair.e1 pair.e2 pair.e3)
    (inLeft : pair.e2 ⊆ pair.left.right) (inRight : pair.e2 ⊆ pair.right.left)
    (answer : fAssociative nullRejecting pair.atoms pair.left pair.right = true)
    (hR : RowsOf pair.atoms pair.e1 R) (hS : RowsOf pair.atoms pair.e2 S)
    (hT : RowsOf pair.atoms pair.e3 T) :
    pair.rightRows (pair.leftRows R S) T = pair.leftRows R (pair.rightRows S T) := by
  have readsP := pair.left.predicate.reads
  have readsQ := pair.right.predicate.reads
  have freeP := columns_free pair.distinct scope.1 pair.disjoint13.symm pair.disjoint23.symm
  have freeQ := columns_free pair.distinct scope.2 pair.disjoint12 pair.disjoint13
  have columns12 := pair.columns_disjoint pair.disjoint12
  have columns13 := pair.columns_disjoint pair.disjoint13
  have columns23 := pair.columns_disjoint pair.disjoint23
  have awayRight := pair.rightSides.mono_right pair.third
  simp only [fAssociative] at answer
  split at answer
  · rename_i types
    have rejects := rejects_of_fNullRejecting sound pair.distinct answer inRight awayRight scope.2
    rcases types with ⟨outer | full, lower⟩
    · simp only [leftRows, rightRows, outer, lower, joinRows]
      exact leftJoin_outer_assoc readsP readsQ freeP freeQ columns12 columns23 rejects hR hT
    · simp only [leftRows, rightRows, full, lower, joinRows]
      exact fullJoin_outer_assoc readsP readsQ freeP freeQ columns12 columns13 columns23
        rejects hR hS hT
  · split at answer
    · rename_i types
      simp only [Bool.and_eq_true] at answer
      have awayLeft := (pair.leftSides.mono_left pair.first).symm
      have rejectsP := rejects_of_fNullRejecting sound pair.distinct answer.1 inLeft awayLeft
        (Finset.union_comm pair.e1 pair.e2 ▸ scope.1)
      have rejectsQ := rejects_of_fNullRejecting sound pair.distinct answer.2 inRight
        awayRight scope.2
      simp only [leftRows, rightRows, types.1, types.2, joinRows]
      exact fullJoin_assoc readsP readsQ freeP freeQ columns12 columns13 columns23
        rejectsP rejectsQ hR hS hT
    · simp only [fInnerJoin, Bool.and_eq_true, decide_eq_true_eq, bne_iff_ne] at answer
      obtain ⟨k, kind⟩ := leftKind_of_supported pair.rightSupported answer.2
      simp only [leftRows, rightRows, joinRows_of_leftKind kind]
      simp only [answer.1, joinRows]
      exact leftJoin_inner_assoc k readsP readsQ freeP freeQ hR hT

theorem left_asscom_sound (law : pair.law = .leftAsscom) (rightSide : ¬ pair.WrongSide)
    (answer : fLeftAsscom nullRejecting pair.atoms pair.left pair.right = true)
    (hS : RowsOf pair.atoms pair.e2 S) (hT : RowsOf pair.atoms pair.e3 T) :
    pair.rightRows (pair.leftRows R S) T = pair.leftRows (pair.rightRows R T) S := by
  have scope := pair.wellScoped
  have nested := pair.nested
  rw [law] at scope nested
  have readsP := pair.left.predicate.reads
  have readsQ := pair.right.predicate.reads
  have freeP := columns_free pair.distinct scope.1 pair.disjoint13.symm pair.disjoint23.symm
  have freeQ := columns_free pair.distinct scope.2 pair.disjoint12.symm pair.disjoint23
  have columns12 := pair.columns_disjoint pair.disjoint12
  have columns13 := pair.columns_disjoint pair.disjoint13
  have columns23 := pair.columns_disjoint pair.disjoint23
  have awayLeft := pair.leftSides.mono_right nested.1
  have awayRight := pair.rightSides.mono_right pair.third
  have firstInRight : pair.e1 ⊆ pair.right.left :=
    (pair.first.trans Finset.subset_union_left).trans nested.2
  have rejectsLeft : fNullRejecting nullRejecting pair.atoms pair.left pair.left.left = true →
      RejectsNulls (pcrsNodes pair.atoms pair.e1 : Set ℕ) pair.left.predicate.value :=
    fun h => rejects_of_fNullRejecting sound pair.distinct h pair.first awayLeft scope.1
  by_cases full : pair.right.joinType = .fullOuterJoin
  · simp only [fLeftAsscom, full, bne_self_eq_false, Bool.false_or, reduceCtorEq, if_false,
      if_true] at answer
    split at answer
    · rename_i outer
      simp only [leftRows, rightRows, outer, full, joinRows]
      exact fullJoin_outer_left_asscom readsP readsQ freeP freeQ columns12 columns13 columns23
        (rejectsLeft answer) hS hT
    · split at answer
      · rename_i leftFull
        simp only [Bool.and_eq_true] at answer
        have rejectsRight := rejects_of_fNullRejecting sound pair.distinct answer.2
          firstInRight awayRight scope.2
        simp only [leftRows, rightRows, leftFull, full, joinRows]
        exact fullJoin_left_asscom readsP readsQ freeP freeQ columns12 columns13 columns23
          (rejectsLeft answer.1) rejectsRight hS hT
      · exact absurd answer (by simp)
  · obtain ⟨m, kindRight⟩ := leftKind_of_supported pair.rightSupported full
    by_cases leftFull : pair.left.joinType = .fullOuterJoin
    · have outer : pair.right.joinType = .leftOuterJoin := by
        simp only [fLeftAsscom, leftFull, reduceCtorEq, if_false, if_true, full] at answer
        split at answer
        · assumption
        · exact absurd answer (by simp)
      have rejects : RejectsNulls (pcrsNodes pair.atoms pair.e1 : Set ℕ)
          pair.right.predicate.value := by
        by_contra accepts
        exact rightSide ⟨law, leftFull, outer, accepts⟩
      simp only [leftRows, rightRows, leftFull, outer, joinRows]
      exact (fullJoin_outer_left_asscom readsQ readsP freeQ freeP columns13 columns12
        columns23.symm rejects hT hS).symm
    · obtain ⟨k, kindLeft⟩ := leftKind_of_supported pair.leftSupported leftFull
      simp only [leftRows, rightRows, joinRows_of_leftKind kindLeft,
        joinRows_of_leftKind kindRight]
      exact leftJoin_left_asscom k m readsP readsQ freeP freeQ columns23 hS hT

theorem right_asscom_sound (law : pair.law = .rightAsscom)
    (answer : fRightAsscom nullRejecting pair.atoms pair.left pair.right = true)
    (hR : RowsOf pair.atoms pair.e1 R) (hS : RowsOf pair.atoms pair.e2 S)
    (hT : RowsOf pair.atoms pair.e3 T) :
    pair.leftRows R (pair.rightRows S T) = pair.rightRows S (pair.leftRows R T) := by
  have scope := pair.wellScoped
  have nested := pair.nested
  rw [law] at scope nested
  have readsP := pair.left.predicate.reads
  have readsQ := pair.right.predicate.reads
  have freeP := columns_free pair.distinct scope.1 pair.disjoint12.symm pair.disjoint23
  have freeQ := columns_free pair.distinct scope.2 pair.disjoint12 pair.disjoint13
  have columns12 := pair.columns_disjoint pair.disjoint12
  have columns13 := pair.columns_disjoint pair.disjoint13
  have columns23 := pair.columns_disjoint pair.disjoint23
  simp only [fRightAsscom] at answer
  split at answer
  · rename_i types
    simp only [Bool.and_eq_true] at answer
    have thirdInLeft : pair.e3 ⊆ pair.left.right :=
      (pair.third.trans Finset.subset_union_right).trans nested.2
    have rejectsP := rejects_of_fNullRejecting sound pair.distinct answer.1 thirdInLeft
      (pair.leftSides.mono_left pair.first).symm
      (Finset.union_comm pair.e1 pair.e3 ▸ scope.1)
    have rejectsQ := rejects_of_fNullRejecting sound pair.distinct answer.2 pair.third
      (pair.rightSides.mono_left nested.1).symm
      (Finset.union_comm pair.e2 pair.e3 ▸ scope.2)
    simp only [leftRows, rightRows, types.1, types.2, joinRows]
    exact fullJoin_right_asscom readsP readsQ freeP freeQ columns12 columns13 columns23
      rejectsP rejectsQ hR hS hT
  · simp only [fInnerJoin, Bool.and_eq_true, decide_eq_true_eq] at answer
    simp only [leftRows, rightRows, answer.1, answer.2, joinRows]
    exact leftJoin_inner_right_asscom readsP readsQ freeP freeQ columns12 columns13 hR hS hT

/-- A row of the third input that is accepted without a partner from `e1` separates the two
expressions: one extends the unmatched row of `e2` by it, the other loses it. -/
theorem wrong_side_breaks (answer : pair.licensed nullRejecting = true) (wrong : pair.WrongSide) :
    ¬ pair.Reorders := by
  obtain ⟨law, full, outer, accepts⟩ := wrong
  have scope := pair.wellScoped
  rw [law] at scope
  have rejects : RejectsNulls (pcrsNodes pair.atoms pair.right.right : Set ℕ)
      pair.right.predicate.value := by
    simp only [licensed, law, fLeftAsscom, full, outer, reduceCtorEq, if_false, if_true] at answer
    exact sound _ _ answer
  simp only [RejectsNulls, not_forall, not_not] at accepts
  obtain ⟨row, nulls, holds⟩ := accepts
  let third : Row ℕ V := fun c => if c ∈ pcrsNodes pair.atoms pair.e3 then row c else none
  have thirdWithin : Within (pcrsNodes pair.atoms pair.e3 : Set ℕ) third :=
    fun c hc => if_neg hc
  have thirdHolds : pair.right.predicate.value third = some true := by
    rw [← holds]
    refine pair.right.predicate.reads third row (fun c hc => ?_)
    have inScope := scope.2 hc
    rw [pcrsNodes_union, Finset.mem_union] at inScope
    by_cases inThird : c ∈ pcrsNodes pair.atoms pair.e3
    · exact if_pos inThird
    · exact (if_neg inThird).trans (nulls c (inScope.resolve_right inThird)).symm
  intro reorders
  have equation := reorders 0 {nullRow} {third} (by simp [RowsOf, BagWithin])
    (by simp [RowsOf, BagWithin, within_nullRow])
    (by simpa [RowsOf, BagWithin] using thirdWithin)
  have same : third = nullRow := by
    simpa [sides, law, leftRows, rightRows, full, outer, joinRows, fullJoin, leftJoin, appended,
      partners, thirdHolds, Multiset.filter_singleton] using equation
  exact rejects nullRow (fun _ _ => rfl) (same ▸ thirdHolds)

omit pair sound

/-- A positive table entry is a bag equality for all inputs exactly when it is not the
entry that asks about the wrong side, or that side makes no difference. -/
theorem licensed_reorders_iff {nullRejecting : CPredicate V → CColRefSet → Bool}
    (sound : NullRejectionSound nullRejecting) (pair : NestedPair V) :
    (pair.licensed nullRejecting = true → pair.Reorders) ↔
      (pair.licensed nullRejecting = true → ¬ pair.WrongSide) := by
  refine ⟨fun reorders answer wrong => wrong_side_breaks sound pair answer wrong
    (reorders answer), fun rightSide answer R S T hR hS hT => ?_⟩
  have nested := pair.nested
  have scope := pair.wellScoped
  cases law : pair.law <;> simp only [licensed, law] at answer <;> rw [law] at nested scope <;>
    simp only [sides, law]
  case associativeLeft =>
    exact associative_sound sound pair scope nested.1
      ((nested.1.trans Finset.subset_union_right).trans nested.2) answer hR hS hT
  case associativeRight =>
    exact associative_sound sound pair scope
      ((nested.1.trans Finset.subset_union_left).trans nested.2) nested.1 answer hR hS hT
  case leftAsscom =>
    have answered : pair.licensed nullRejecting = true := by simpa only [licensed, law] using answer
    exact left_asscom_sound sound pair law (rightSide answered) answer hS hT
  case rightAsscom => exact right_asscom_sound sound pair law answer hR hS hT

def fullBelowOuter (conjunct : CConjunct Unit) (scope : conjunct.usedColumns ⊆ {0, 2}) :
    NestedPair Unit where
  law := .leftAsscom
  atoms := columnAtoms 3
  left := ⟨.fullOuterJoin, {0}, {1}, ⟨[equality 0 1]⟩, none, ∅, ∅, []⟩
  right := ⟨.leftOuterJoin, {0, 1}, {2}, ⟨[conjunct]⟩, none, ∅, ∅, []⟩
  e1 := {0}
  e2 := {1}
  e3 := {2}
  distinct := columnAtoms_distinct 3
  leftSupported := rfl
  rightSupported := rfl
  leftSides := by decide
  rightSides := show Disjoint ({0, 1} : CBitSet) {2} by decide
  first := by decide
  third := Finset.Subset.refl {2}
  nested := ⟨Finset.Subset.refl {1}, Finset.Subset.refl {0, 1}⟩
  wellScoped := by
    have columns : pcrsNodes (columnAtoms 3) ({0} ∪ {2}) = {0, 2} := by decide
    refine ⟨by decide, ?_⟩
    rw [columns]
    simpa [CPredicate.usedColumns] using scope

theorem licensed_reorders_iff_keyed :
    (fullBelowOuter (equality 0 2) (by decide)).licensed decideNullRejecting = true ∧
      (fullBelowOuter (equality 0 2) (by decide)).Reorders := by
  have answer : (fullBelowOuter (equality 0 2) (by decide)).licensed decideNullRejecting
      = true := by decide
  refine ⟨answer, (licensed_reorders_iff decideNullRejecting_sound _).mpr ?_ answer⟩
  rintro - ⟨-, -, -, accepts⟩
  refine accepts (fun row nulls => ?_)
  have unmatched : row 0 = none := nulls 0 (by decide)
  simp [fullBelowOuter, CPredicate.value, equality, unmatched, and3]

/-- `IS NOT NULL` on the third input is answered as null-rejecting, and the two expressions
differ. -/
theorem full_below_outer_not_reordered :
    NullRejectionSound decideNullRejecting ∧
      (fullBelowOuter (isNotNull 2) (by decide)).licensed decideNullRejecting = true ∧
      ¬ (fullBelowOuter (isNotNull 2) (by decide)).Reorders := by
  have answer : (fullBelowOuter (isNotNull 2) (by decide)).licensed decideNullRejecting
      = true := by decide
  refine ⟨decideNullRejecting_sound, answer,
    wrong_side_breaks decideNullRejecting_sound _ answer ⟨rfl, rfl, rfl, fun rejects => ?_⟩⟩
  exact rejects (rowOf {2}) (by decide) (by decide)

end NestedPair

end JoinRegion
