import Tuuli.ConstraintObjects
import Tuuli.RangeEnds

/-!
The set operations of `CConstraintInterval` as an algebra: which sets the results denote, that
their ends are ends of the operands, and what `FContainsInterval` tells.
-/
namespace Constraints
open OrderedSpans

section Intervals
variable {D : Type} [LinearOrder D]

/-- The finite ends of the ranges are values, none is the NULL datum. -/
def CConstraintInterval.ValueEnds (pci : CConstraintInterval D) : Prop :=
  AllEnds (· ≠ some ⊥) pci.ranges

namespace CConstraintInterval

def fContainsInterval (column : CColRef D) (this pci : CConstraintInterval D) : Bool :=
  if this.isConstraintUnbounded then true
  else if pci.isConstraintUnbounded || (!this.includesNull && pci.includesNull) then false
  else (pci.pciDifference this).fContradiction column

variable {column : CColRef D} {this pci : CConstraintInterval D} {value : Option D}

theorem has_of_isConstraintUnbounded (unbounded : pci.isConstraintUnbounded = true) :
    pci.Has value := by
  unfold RangeInterval.isConstraintUnbounded at unbounded
  obtain ⟨withNull, rest⟩ := Bool.and_eq_true_iff.mp unbounded
  split at rest
  · rename_i range only
    obtain ⟨openLeft, openRight⟩ := Bool.and_eq_true_iff.mp rest
    cases value with
    | none => exact withNull
    | some d =>
      refine ⟨range, by simp [only], ?_⟩
      rw [CRange.Has, CRange.fAboveLeft, CRange.fBelowRight, Option.isNone_iff_eq_none.mp openLeft,
        Option.isNone_iff_eq_none.mp openRight]
      exact ⟨rfl, rfl⟩
  · cases rest

theorem not_has_of_fContradiction (values : pci.ValueEnds)
    (contradiction : pci.fContradiction column = true) : ¬ pci.Has value := by
  unfold RangeInterval.fContradiction at contradiction
  obtain ⟨withoutNull, rest⟩ := Bool.and_eq_true_iff.mp contradiction
  cases value with
  | none =>
    rw [has_none]
    simpa using withoutNull
  | some d =>
    rintro ⟨range, listed, above, below⟩
    split at rest
    · rename_i none
      rw [none] at listed
      exact absurd listed List.not_mem_nil
    · rename_i single only
      rw [only, List.mem_singleton] at listed
      subst listed
      simp only [Bool.and_eq_true_iff, decide_eq_true_eq, Option.isSome_iff_exists] at rest
      obtain ⟨⟨⟨⟨⟨type, isBool⟩, openLeft⟩, openRight⟩, a, isLeft⟩, b, isRight⟩ := rest
      have ends := values range (by rw [only]; exact List.mem_singleton_self _)
      rw [CRange.EndsIn, isLeft, isRight] at ends
      obtain ⟨a, rfl⟩ := WithBot.ne_bot_iff_exists.mp fun bot => ends.1 (congrArg some bot)
      obtain ⟨b, rfl⟩ := WithBot.ne_bot_iff_exists.mp fun bot => ends.2 (congrArg some bot)
      simp only [CRange.fAboveLeft, CRange.fBelowRight, isLeft, isRight, openLeft, openRight,
        decide_eq_true_eq, WithBot.coe_lt_coe] at above below
      rcases type.only d with rfl | rfl
      · exact (type.bounds a).1.not_gt above
      · exact (type.bounds b).2.not_gt below
    · cases rest

theorem valueEnds_pciUnion (valuesThis : this.ValueEnds) (valuesPci : pci.ValueEnds) :
    (this.pciUnion pci).ValueEnds :=
  unionLoop_ends valuesThis valuesPci allEnds_nil

theorem valueEnds_pciIntersect (valuesThis : this.ValueEnds) (valuesPci : pci.ValueEnds) :
    (this.pciIntersect pci).ValueEnds :=
  intersectLoop_ends valuesThis valuesPci allEnds_nil

theorem valueEnds_pciDifference (valuesThis : this.ValueEnds) (valuesPci : pci.ValueEnds) :
    (this.pciDifference pci).ValueEnds :=
  differenceLoop_ends valuesThis valuesPci allEnds_nil allEnds_none

theorem valueEnds_pciComplement {complement : CConstraintInterval D} (values : this.ValueEnds)
    (result : this.pciComplement column = some complement) : complement.ValueEnds := by
  obtain ⟨-, result⟩ := Option.ite_none_right_eq_some.mp result
  cases result
  refine valueEnds_pciDifference (fun range only => ?_) values
  rw [List.mem_singleton.mp only, unboundedRange]
  split <;> exact ⟨by simp, by simp⟩

theorem has_of_fContainsInterval (valuesThis : this.ValueEnds) (valuesPci : pci.ValueEnds)
    (contains : this.fContainsInterval column pci = true) (has : pci.Has value) :
    this.Has value := by
  unfold fContainsInterval at contains
  split_ifs at contains with unbounded
  · exact has_of_isConstraintUnbounded unbounded
  · have none := @not_has_of_fContradiction D _ column (pci.pciDifference this) value
      (valueEnds_pciDifference valuesPci valuesThis) contains
    rw [has_pciDifference] at none
    by_contra missing
    exact none ⟨has, missing⟩

theorem exists_has [DenselyOrdered D] [NoMinOrder D] [NoMaxOrder D] [Nonempty D]
    (values : pci.ValueEnds) {range : CRange (WithBot D)} (listed : range ∈ pci.ranges) :
    ∃ d : D, range.Has d := by
  have proper := pci.ordered.nonempty range listed
  obtain ⟨valueLeft, valueRight⟩ := values range listed
  obtain ⟨left, eriLeft, right, eriRight⟩ := range
  have value : ∀ {bound : WithBot D}, (some bound ≠ some ⊥) → ∃ d : D, (d : WithBot D) = bound :=
    fun isValue => WithBot.ne_bot_iff_exists.mp fun bot => isValue (congrArg some bot)
  cases left with
  | none =>
    cases right with
    | none =>
      obtain ⟨d⟩ := ‹Nonempty D›
      exact ⟨d, rfl, rfl⟩
    | some b =>
      obtain ⟨b, rfl⟩ := value valueRight
      obtain ⟨d, less⟩ := exists_lt b
      cases eriRight <;> exact ⟨d, rfl, by simp [CRange.fBelowRight, less, less.le]⟩
  | some a =>
    obtain ⟨a, rfl⟩ := value valueLeft
    cases right with
    | none =>
      obtain ⟨d, greater⟩ := exists_gt a
      cases eriLeft <;> exact ⟨d, by simp [CRange.fAboveLeft, greater, greater.le], rfl⟩
    | some b =>
      obtain ⟨b, rfl⟩ := value valueRight
      simp only [CRange.lower_eq, CRange.upper_eq] at proper
      cases eriLeft <;> cases eriRight <;>
        simp only [lowerCut, upperCut, Cut.before_lt_after, Cut.before_lt_before,
          Cut.after_lt_after, Cut.after_lt_before, WithBot.coe_le_coe, WithBot.coe_lt_coe]
          at proper
      · exact ⟨a, by simp [CRange.Has, CRange.fAboveLeft, CRange.fBelowRight, proper]⟩
      · exact ⟨a, by simp [CRange.Has, CRange.fAboveLeft, CRange.fBelowRight, proper]⟩
      · exact ⟨b, by simp [CRange.Has, CRange.fAboveLeft, CRange.fBelowRight, proper]⟩
      · obtain ⟨d, above, below⟩ := exists_between proper
        exact ⟨d, by simp [CRange.Has, CRange.fAboveLeft, CRange.fBelowRight, above, below]⟩

/-- The operations keep ranges in order, apart and proper, which every interval carries, and ends
that are values. They denote the sets they are named after, for every ordered type. -/
theorem range_list_algebra (valuesThis : this.ValueEnds) (valuesPci : pci.ValueEnds)
    (constrainable : column.constrainable = true) :
    ((this.pciUnion pci).ValueEnds ∧
      ∀ value, (this.pciUnion pci).Has value ↔ this.Has value ∨ pci.Has value) ∧
    ((this.pciIntersect pci).ValueEnds ∧
      ∀ value, (this.pciIntersect pci).Has value ↔ this.Has value ∧ pci.Has value) ∧
    ((this.pciDifference pci).ValueEnds ∧
      ∀ value, (this.pciDifference pci).Has value ↔ this.Has value ∧ ¬ pci.Has value) ∧
    (∃ complement, this.pciComplement column = some complement ∧ complement.ValueEnds ∧
      ∀ value, complement.Has value ↔ ¬ this.Has value) ∧
    (this.fContainsInterval column pci = true → ∀ value, pci.Has value → this.Has value) ∧
    (∀ result : CConstraintInterval D, result.ValueEnds → Ordered result.ranges ∧
      ([DenselyOrdered D] → [NoMinOrder D] → [NoMaxOrder D] → [Nonempty D] →
        ∀ range ∈ result.ranges, ∃ d : D, range.Has d)) := by
  obtain ⟨complement, result⟩ : ∃ complement, this.pciComplement column = some complement :=
    ⟨_, if_pos constrainable⟩
  refine ⟨⟨valueEnds_pciUnion valuesThis valuesPci, fun _ => has_pciUnion⟩,
    ⟨valueEnds_pciIntersect valuesThis valuesPci, fun _ => has_pciIntersect⟩,
    ⟨valueEnds_pciDifference valuesThis valuesPci, fun _ => has_pciDifference⟩,
    ⟨complement, result, valueEnds_pciComplement valuesThis result, fun _ =>
      has_pciComplement result⟩, ?_, ?_⟩
  · intro contains value has
    exact has_of_fContainsInterval valuesThis valuesPci contains has
  · intro result values
    refine ⟨result.ordered, ?_⟩
    intro _ _ _ _ range listed
    exact exists_has values listed

def threeRanges : CConstraintInterval ℤ where
  ranges := [⟨some (1 : ℤ), .eriIncluded, some (3 : ℤ), .eriIncluded⟩,
    ⟨some (5 : ℤ), .eriExcluded, some (8 : ℤ), .eriExcluded⟩,
    ⟨some (10 : ℤ), .eriIncluded, none, .eriExcluded⟩]
  includesNull := true
  ordered := by decide

def twoRanges : CConstraintInterval ℤ where
  ranges := [⟨none, .eriExcluded, some (2 : ℤ), .eriExcluded⟩,
    ⟨some (7 : ℤ), .eriIncluded, some (12 : ℤ), .eriIncluded⟩]
  includesNull := false
  ordered := by decide

def integerColumn : CColRef ℤ := ⟨true, none⟩

theorem threeRanges_twoRanges_algebra :
    threeRanges.ValueEnds ∧ twoRanges.ValueEnds ∧ integerColumn.constrainable = true ∧
    (∀ value, (threeRanges.pciUnion twoRanges).Has value ↔
      threeRanges.Has value ∨ twoRanges.Has value) ∧
    (∀ value, (threeRanges.pciIntersect twoRanges).Has value ↔
      threeRanges.Has value ∧ twoRanges.Has value) ∧
    (∀ value, (threeRanges.pciDifference twoRanges).Has value ↔
      threeRanges.Has value ∧ ¬ twoRanges.Has value) ∧
    (∃ complement, threeRanges.pciComplement integerColumn = some complement ∧
      ∀ value, complement.Has value ↔ ¬ threeRanges.Has value) ∧
    (threeRanges.fContainsInterval integerColumn twoRanges = true →
      ∀ value, twoRanges.Has value → threeRanges.Has value) := by
  have first : threeRanges.ValueEnds := by simp [threeRanges, ValueEnds, AllEnds, CRange.EndsIn]
  have second : twoRanges.ValueEnds := by simp [twoRanges, ValueEnds, AllEnds, CRange.EndsIn]
  obtain ⟨union, intersection, difference, ⟨complement, result, -, has⟩, contains, -⟩ :=
    @range_list_algebra ℤ _ integerColumn _ _ first second rfl
  exact ⟨first, second, rfl, union.2, intersection.2, difference.2, ⟨complement, result, has⟩,
    contains⟩

def aboveFalse : CConstraintInterval Bool where
  ranges := [⟨some false, .eriExcluded, none, .eriExcluded⟩]
  includesNull := false
  ordered := ordered_singleton.mpr Cut.after_lt_top

def belowTrue : CConstraintInterval Bool where
  ranges := [⟨none, .eriExcluded, some true, .eriExcluded⟩]
  includesNull := false
  ordered := ordered_singleton.mpr Cut.bot_lt_before

/-- Every range of the operands holds a value, and the range that they share holds none. -/
theorem intersection_range_without_value :
    (∀ range ∈ aboveFalse.ranges, ∃ d : Bool, range.Has d) ∧
    (∀ range ∈ belowTrue.ranges, ∃ d : Bool, range.Has d) ∧
    ∃ range ∈ (aboveFalse.pciIntersect belowTrue).ranges, ∀ d : Bool, ¬ range.Has d := by
  decide

end CConstraintInterval
end Intervals
end Constraints
