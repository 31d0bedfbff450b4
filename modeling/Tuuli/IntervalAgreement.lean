import Tuuli.Intervals
import Tuuli.RangeEnds

/-!
The set operations of intervals for a comparator that need not be an order, such as that of
doubles: they denote the sets they are named after as long as the comparator is right about the
ends of the ranges.
-/
namespace Constraints
open OrderedSpans

section Operations
variable {D : Type} [LinearOrder D] [comp : CComparator (WithBot D)] {known : WithBot D → Prop}
  {this pci : RangeInterval D} {column : CColRef D}

/-- Ranges in order whose finite ends are known. -/
structure RangeInterval.Proper (known : WithBot D → Prop) (pci : RangeInterval D) : Prop where
  ordered : Ordered pci.ranges
  ends : AllEnds (KnownEnd known) pci.ranges

omit comp in
theorem properEmpty {includesNull : Bool} :
    (pciEmpty includesNull : RangeInterval D).Proper known :=
  ⟨ordered_nil, allEnds_nil⟩

/-- The ends of the universe of a boolean column are known. -/
def CColRef.KnownBounds (known : WithBot D → Prop) (column : CColRef D) : Prop :=
  ∀ type ∈ column.boolType, known type.fls ∧ known type.tru

omit comp in
theorem properWhole {includesNull : Bool} (bounds : column.KnownBounds known) :
    (wholeInterval column includesNull).toRangeInterval.Proper known := by
  refine ⟨(wholeInterval column includesNull).ordered, fun range only => ?_⟩
  rw [List.mem_singleton.mp only, unboundedRange]
  cases isBool : column.boolType with
  | none => exact ⟨fun _ => nofun, fun _ => nofun⟩
  | some type =>
    obtain ⟨first, second⟩ := bounds type isBool
    constructor
    · rintro d ⟨⟩
      exact first
    · rintro d ⟨⟩
      exact second

variable (agrees : comp.AgreesOn known)

include agrees

theorem pciUnion_spec (first : this.Proper known) (second : pci.Proper known) :
    (this.pciUnion pci).Proper known ∧
      ∀ value, (this.pciUnion pci).Has value ↔ this.Has value ∨ pci.Has value := by
  have same : this.pciUnion pci =
      (CConstraintInterval.pciUnion ⟨this, first.ordered⟩ ⟨pci, second.ordered⟩).toRangeInterval := by
    rw [RangeInterval.pciUnion, unionLoop_agrees agrees first.ends second.ends allEnds_nil]
    rfl
  refine ⟨⟨?_, unionLoop_ends first.ends second.ends allEnds_nil⟩, fun value => ?_⟩
  · rw [same]
    exact CConstraintInterval.ordered _
  · rw [same]
    exact CConstraintInterval.has_pciUnion

theorem pciIntersect_spec (first : this.Proper known) (second : pci.Proper known) :
    (this.pciIntersect pci).Proper known ∧
      ∀ value, (this.pciIntersect pci).Has value ↔ this.Has value ∧ pci.Has value := by
  have same : this.pciIntersect pci = (CConstraintInterval.pciIntersect ⟨this, first.ordered⟩
      ⟨pci, second.ordered⟩).toRangeInterval := by
    rw [RangeInterval.pciIntersect, intersectLoop_agrees agrees first.ends second.ends]
    rfl
  refine ⟨⟨?_, intersectLoop_ends first.ends second.ends allEnds_nil⟩, fun value => ?_⟩
  · rw [same]
    exact CConstraintInterval.ordered _
  · rw [same]
    exact CConstraintInterval.has_pciIntersect

theorem pciDifference_agrees (first : this.Proper known) (second : pci.Proper known) :
    this.pciDifference pci = (CConstraintInterval.pciDifference ⟨this, first.ordered⟩
      ⟨pci, second.ordered⟩).toRangeInterval := by
  rw [RangeInterval.pciDifference,
    differenceLoop_agrees agrees first.ends second.ends allEnds_nil allEnds_none]
  rfl

theorem pciDifference_spec (first : this.Proper known) (second : pci.Proper known) :
    (this.pciDifference pci).Proper known ∧
      ∀ value, (this.pciDifference pci).Has value ↔ this.Has value ∧ ¬ pci.Has value := by
  have same := pciDifference_agrees agrees first second
  refine ⟨⟨?_, differenceLoop_ends first.ends second.ends allEnds_nil allEnds_none⟩, fun value => ?_⟩
  · rw [same]
    exact CConstraintInterval.ordered _
  · rw [same]
    exact CConstraintInterval.has_pciDifference

theorem covers_pciDifference (first : this.Proper known) (second : pci.Proper known)
    {x : Cut (WithBot D)} : Covers (this.pciDifference pci).ranges x ↔
      Covers this.ranges x ∧ ¬ Covers pci.ranges x := by
  rw [pciDifference_agrees agrees first second]
  exact CConstraintInterval.covers_pciDifference

theorem pciComplement_spec {complement : RangeInterval D} (bounds : column.KnownBounds known)
    (proper : this.Proper known) (result : this.pciComplement column = some complement) :
    complement.Proper known ∧ ∀ value, complement.Has value ↔ ¬ this.Has value := by
  obtain ⟨whole, unbounded, rfl⟩ := Option.map_eq_some_iff.mp result
  obtain ⟨-, unbounded⟩ := Option.ite_none_right_eq_some.mp unbounded
  cases unbounded
  obtain ⟨built, has⟩ := pciDifference_spec agrees (properWhole bounds) proper
  refine ⟨built, fun value => (has value).trans (and_iff_right ?_)⟩
  exact (@has_wholeInterval D _ column value true).mpr fun _ => rfl

end Operations

section Datums
variable {E : Type} [LinearOrder E] {comp : CComparator E} {known : E → Prop} {elements : List E}
  {prev : E} (agrees : comp.AgreesOn known)

include agrees

theorem deduplicate_agrees (first : known prev) (rest : ∀ d ∈ elements, known d) :
    @deduplicate E comp prev elements = @deduplicate E CComparator.ofOrder prev elements := by
  induction elements generalizing prev with
  | nil => rfl
  | cons d later ih =>
    obtain ⟨here, further⟩ := List.forall_mem_cons.mp rest
    simp only [deduplicate]
    rw [(agrees d prev here first).1, ih first further, ih here further]

theorem cDatumSortedSet_agrees (all : ∀ d ∈ elements, known d) :
    @cDatumSortedSet E comp elements = @cDatumSortedSet E CComparator.ofOrder elements := by
  have sorted : elements.insertionSort (fun a b => @CComparator.isLessThanOrEqual E comp a b) =
      elements.insertionSort
        (fun a b => @CComparator.isLessThanOrEqual E CComparator.ofOrder a b) := by
    refine insertionSort_congr fun a first b second => ?_
    obtain ⟨eq, lt⟩ := agrees a b (all a first) (all b second)
    unfold CComparator.isLessThanOrEqual
    rw [eq, lt]
  unfold cDatumSortedSet
  rw [sorted]
  cases equation : elements.insertionSort
      (fun a b => @CComparator.isLessThanOrEqual E CComparator.ofOrder a b) with
  | nil => rfl
  | cons first rest =>
    have listed : ∀ d ∈ first :: rest, known d := by
      intro d member
      rw [← equation] at member
      exact all d ((List.mem_insertionSort _).mp member)
    obtain ⟨atFirst, later⟩ := List.forall_mem_cons.mp listed
    dsimp only
    rw [deduplicate_agrees agrees atFirst later]

end Datums

end Constraints
