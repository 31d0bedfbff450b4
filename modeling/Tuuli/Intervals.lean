import Mathlib.Data.List.Sort
import Tuuli.RangeLists

/-!
`CConstraintInterval`: ranges of the datums of one column, and whether NULL is in. A column
holds a value or NULL. The datums of the constants are the values and the NULL datum, which the
comparator puts below all of them. A comparator that is an order keeps the ranges in order.
-/
namespace Constraints
open OrderedSpans

structure BoolType (D : Type) [LinearOrder D] where
  fls : D
  tru : D
  fls_lt_tru : fls < tru
  only : ∀ d, d = fls ∨ d = tru

theorem BoolType.bounds {D : Type} [LinearOrder D] (type : BoolType D) (d : D) :
    type.fls ≤ d ∧ d ≤ type.tru := by
  rcases type.only d with rfl | rfl
  · exact ⟨le_rfl, type.fls_lt_tru.le⟩
  · exact ⟨type.fls_lt_tru.le, le_rfl⟩

/-- What of the type of a column the intervals depend on. -/
structure CColRef (D : Type) [LinearOrder D] where
  constrainable : Bool
  boolType : Option (BoolType D)

/-- The two members of a `CConstraintInterval` of the source, whatever comparator built them. -/
structure RangeInterval (D : Type) where
  ranges : List (CRange (WithBot D))
  includesNull : Bool
  deriving DecidableEq

/-- An interval whose ranges are in order. -/
structure CConstraintInterval (D : Type) [LinearOrder D] extends RangeInterval D where
  ordered : Ordered ranges

def datum {D : Type} : Option D → WithBot D
  | none => ⊥
  | some d => d

def constantOf {D : Type} (d : WithBot D) : Option D :=
  WithBot.recBotCoe none some d

section Columns
variable {D : Type} [LinearOrder D]

namespace RangeInterval

def Has (pci : RangeInterval D) : Option D → Prop
  | none => pci.includesNull = true
  | some d => ∃ range ∈ pci.ranges, range.Has d

instance (pci : RangeInterval D) : (value : Option D) → Decidable (pci.Has value)
  | none => inferInstanceAs (Decidable (_ = true))
  | some d => inferInstanceAs (Decidable (∃ range ∈ pci.ranges, range.Has d))

theorem has_some {pci : RangeInterval D} {d : D} :
    pci.Has (some d) ↔ Covers pci.ranges (Cut.before (d : WithBot D)) :=
  exists_congr fun _ => and_congr_right fun _ => CRange.has_iff

theorem has_none {pci : RangeInterval D} : pci.Has none ↔ pci.includesNull = true := Iff.rfl

section Operations
variable [CComparator (WithBot D)]

def pciUnion (this pci : RangeInterval D) : RangeInterval D where
  ranges := unionLoop (this.ranges.length + pci.ranges.length) this.ranges pci.ranges []
  includesNull := this.includesNull || pci.includesNull

def pciIntersect (this pci : RangeInterval D) : RangeInterval D where
  ranges := intersectLoop (this.ranges.length + pci.ranges.length) this.ranges pci.ranges []
  includesNull := this.includesNull && pci.includesNull

def pciDifference (this pci : RangeInterval D) : RangeInterval D where
  ranges := differenceLoop (this.ranges.length + pci.ranges.length) this.ranges pci.ranges [] none
  includesNull := this.includesNull && !pci.includesNull

end Operations

end RangeInterval

namespace CConstraintInterval

def Has (pci : CConstraintInterval D) : Option D → Prop := pci.toRangeInterval.Has

instance (pci : CConstraintInterval D) (value : Option D) : Decidable (pci.Has value) :=
  inferInstanceAs (Decidable (pci.toRangeInterval.Has value))

theorem has_some {pci : CConstraintInterval D} {d : D} :
    pci.Has (some d) ↔ Covers pci.ranges (Cut.before (d : WithBot D)) :=
  RangeInterval.has_some

theorem has_none {pci : CConstraintInterval D} : pci.Has none ↔ pci.includesNull = true := Iff.rfl

theorem before_nil {ranges : List (CRange (WithBot D))} : Before [] ranges :=
  fun _ listed => absurd listed List.not_mem_nil

theorem union_merging (this pci : CConstraintInterval D) : Merging [] this.ranges pci.ranges :=
  ⟨ordered_nil, this.ordered, pci.ordered, before_nil, before_nil⟩

theorem intersect_sharing (this pci : CConstraintInterval D) : Sharing [] this.ranges pci.ranges :=
  ⟨ordered_nil, this.ordered, pci.ordered, fun _ listed => absurd listed List.not_mem_nil⟩

theorem difference_cutting (this pci : CConstraintInterval D) :
    Cutting [] this.ranges pci.ranges none :=
  ⟨ordered_nil, this.ordered, pci.ordered, before_nil, fun _ => rfl,
    fun r none => absurd none (Option.not_mem_none r)⟩

def pciUnion (this pci : CConstraintInterval D) : CConstraintInterval D :=
  ⟨this.toRangeInterval.pciUnion pci.toRangeInterval,
    (unionLoop_spec le_rfl (union_merging this pci)).1⟩

def pciIntersect (this pci : CConstraintInterval D) : CConstraintInterval D :=
  ⟨this.toRangeInterval.pciIntersect pci.toRangeInterval,
    (intersectLoop_spec le_rfl (intersect_sharing this pci)).1⟩

def pciDifference (this pci : CConstraintInterval D) : CConstraintInterval D :=
  ⟨this.toRangeInterval.pciDifference pci.toRangeInterval,
    (differenceLoop_spec le_rfl (difference_cutting this pci)).1⟩

variable {this pci : CConstraintInterval D} {value : Option D}

theorem has_pciUnion : (this.pciUnion pci).Has value ↔ this.Has value ∨ pci.Has value := by
  cases value with
  | none => simp [has_none, pciUnion, RangeInterval.pciUnion]
  | some d =>
    simp only [has_some, pciUnion, RangeInterval.pciUnion]
    rw [(unionLoop_spec le_rfl (union_merging this pci)).2]
    simp

theorem has_pciIntersect :
    (this.pciIntersect pci).Has value ↔ this.Has value ∧ pci.Has value := by
  cases value with
  | none => simp [has_none, pciIntersect, RangeInterval.pciIntersect]
  | some d =>
    simp only [has_some, pciIntersect, RangeInterval.pciIntersect]
    rw [(intersectLoop_spec le_rfl (intersect_sharing this pci)).2]
    simp

theorem covers_pciDifference {x : Cut (WithBot D)} :
    Covers (this.pciDifference pci).ranges x ↔ Covers this.ranges x ∧ ¬ Covers pci.ranges x := by
  simp only [pciDifference, RangeInterval.pciDifference]
  rw [(differenceLoop_spec le_rfl (difference_cutting this pci)).2]
  simp [current]

theorem has_pciDifference :
    (this.pciDifference pci).Has value ↔ this.Has value ∧ ¬ pci.Has value := by
  cases value with
  | none => simp [has_none, pciDifference, RangeInterval.pciDifference]
  | some d => simp only [has_some, covers_pciDifference]

end CConstraintInterval

/-- From the lower to the higher value of a boolean type, or without ends. -/
def unboundedRange (column : CColRef D) : CRange (WithBot D) :=
  match column.boolType with
  | some type => ⟨some type.fls, .eriIncluded, some type.tru, .eriIncluded⟩
  | none => ⟨none, .eriExcluded, none, .eriExcluded⟩

theorem unboundedRange_proper (column : CColRef D) :
    lower (unboundedRange column) < upper (unboundedRange column) := by
  unfold unboundedRange
  cases column.boolType with
  | none => exact WithBot.bot_lt_coe _
  | some type => exact Cut.before_lt_after.mpr (WithBot.coe_le_coe.mpr type.fls_lt_tru.le)

theorem unboundedRange_has (column : CColRef D) (d : D) : (unboundedRange column).Has d := by
  rw [CRange.has_iff]
  unfold unboundedRange
  cases column.boolType with
  | none => exact ⟨bot_le, Cut.before_lt_top⟩
  | some type =>
    exact ⟨Cut.before_le_before.mpr (WithBot.coe_le_coe.mpr (type.bounds d).1),
      Cut.before_lt_after.mpr (WithBot.coe_le_coe.mpr (type.bounds d).2)⟩

def wholeInterval (column : CColRef D) (includesNull : Bool) : CConstraintInterval D :=
  ⟨⟨[unboundedRange column], includesNull⟩, ordered_singleton.mpr (unboundedRange_proper column)⟩

/-- No interval (a null pointer) for a type that cannot be constrained. -/
def pciUnbounded (column : CColRef D) (includesNull : Bool) : Option (RangeInterval D) :=
  if column.constrainable then some (wholeInterval column includesNull).toRangeInterval else none

/-- `none` where the source follows the null pointer of the missing universe. -/
def RangeInterval.pciComplement [CComparator (WithBot D)] (this : RangeInterval D)
    (column : CColRef D) : Option (RangeInterval D) :=
  (pciUnbounded column true).map fun whole => whole.pciDifference this

def CConstraintInterval.pciComplement (this : CConstraintInterval D) (column : CColRef D) :
    Option (CConstraintInterval D) :=
  if column.constrainable then some ((wholeInterval column true).pciDifference this) else none

def pciEmpty (includesNull : Bool) : RangeInterval D := ⟨[], includesNull⟩

section Meaning
variable {column : CColRef D} {this pci : CConstraintInterval D} {value : Option D}
  {includesNull : Bool}

theorem has_wholeInterval :
    (wholeInterval column includesNull).Has value ↔ value = none → includesNull = true := by
  cases value with
  | none => simp [CConstraintInterval.has_none, wholeInterval]
  | some d =>
    refine iff_of_true ?_ (fun none => absurd none (Option.some_ne_none d))
    exact ⟨_, List.mem_singleton_self _, unboundedRange_has column d⟩

theorem has_pciComplement (result : this.pciComplement column = some pci) :
    pci.Has value ↔ ¬ this.Has value := by
  obtain ⟨-, result⟩ := Option.ite_none_right_eq_some.mp result
  cases result
  rw [CConstraintInterval.has_pciDifference, has_wholeInterval]
  exact and_iff_right fun _ => rfl

theorem has_pciEmpty : (pciEmpty includesNull : RangeInterval D).Has value ↔
    value = none ∧ includesNull = true := by
  cases value with
  | none => simp [RangeInterval.has_none, pciEmpty]
  | some d => simp [RangeInterval.has_some, pciEmpty]

end Meaning

end Columns

section Constants
variable {E : Type}

/-- One range, or the two ranges around the constant for `<>`, for which IS DISTINCT FROM
calls it too. -/
def pciRangeFromColConstCmp : ECmpType → E → List (CRange E)
  | .ecmptNEq, w => [.ofCmp .ecmptL w, .ofCmp .ecmptG w]
  | cmp, w => [.ofCmp cmp w]

variable [LinearOrder E] {v w : E}

/-- Whether two datums compare as the operator says. -/
def cmpHolds : ECmpType → E → E → Bool
  | .ecmptEq, v, w => v = w
  | .ecmptNEq, v, w => v ≠ w
  | .ecmptL, v, w => v < w
  | .ecmptLEq, v, w => v ≤ w
  | .ecmptG, v, w => w < v
  | .ecmptGEq, v, w => w ≤ v

theorem pciRangeFromColConstCmp_ordered (cmp : ECmpType) :
    Ordered (pciRangeFromColConstCmp cmp w) := by
  have below : lower (CRange.ofCmp .ecmptL w) < upper (CRange.ofCmp .ecmptL w) :=
    Cut.bot_lt_before
  have above : lower (CRange.ofCmp .ecmptG w) < upper (CRange.ofCmp .ecmptG w) :=
    Cut.after_lt_top
  cases cmp with
  | ecmptEq => exact ordered_singleton.mpr (Cut.before_lt_after.mpr le_rfl)
  | ecmptL => exact ordered_singleton.mpr below
  | ecmptLEq => exact ordered_singleton.mpr Cut.bot_lt_after
  | ecmptG => exact ordered_singleton.mpr above
  | ecmptGEq => exact ordered_singleton.mpr Cut.before_lt_top
  | ecmptNEq =>
    refine ordered_cons.mpr ⟨below, before_singleton.mpr ?_, ordered_singleton.mpr above⟩
    intro s only
    rw [List.mem_singleton.mp only]
    exact Cut.before_le_after.mpr le_rfl

theorem exists_pciRangeFromColConstCmp (cmp : ECmpType) :
    (∃ range ∈ pciRangeFromColConstCmp cmp w, range.Has v) ↔ cmpHolds cmp v w = true := by
  cases cmp with
  | ecmptEq =>
    have between : (w ≤ v ∧ v ≤ w) ↔ v = w := le_antisymm_iff.symm.trans eq_comm
    simpa [pciRangeFromColConstCmp, CRange.ofCmp, CRange.Has, CRange.fAboveLeft,
      CRange.fBelowRight, cmpHolds] using between
  | _ =>
    simp [pciRangeFromColConstCmp, CRange.ofCmp, CRange.Has, CRange.fAboveLeft,
      CRange.fBelowRight, cmpHolds]

end Constants

section Sorting
variable {α : Type} {r s : α → α → Prop} [DecidableRel r] [DecidableRel s]

theorem orderedInsert_congr {a : α} {list : List α} (same : ∀ b ∈ list, r a b ↔ s a b) :
    list.orderedInsert r a = list.orderedInsert s a := by
  induction list with
  | nil => rfl
  | cons b rest ih =>
    obtain ⟨first, later⟩ := List.forall_mem_cons.mp same
    rw [List.orderedInsert_cons, List.orderedInsert_cons, ih later]
    simp only [first]

theorem insertionSort_congr {list : List α} (same : ∀ a ∈ list, ∀ b ∈ list, r a b ↔ s a b) :
    list.insertionSort r = list.insertionSort s := by
  induction list with
  | nil => rfl
  | cons a rest ih =>
    have later : ∀ b ∈ rest, ∀ c ∈ rest, r b c ↔ s b c := fun b first c second =>
      same b (List.mem_cons_of_mem a first) c (List.mem_cons_of_mem a second)
    rw [List.insertionSort_cons, List.insertionSort_cons, ih later]
    refine orderedInsert_congr fun b listed => ?_
    exact same a List.mem_cons_self b
      (List.mem_cons_of_mem a ((List.mem_insertionSort s).mp listed))

end Sorting

section Arrays
variable {E : Type}

section Datums
open CComparator
variable [CComparator E]

/-- `IDatumCmp` does not put the first datum after the second. -/
def CComparator.isLessThanOrEqual (a b : E) : Bool := equals a b || isLessThan a b

def deduplicate (prev : E) : List E → List E
  | [] => []
  | datum :: rest =>
    if equals datum prev then deduplicate prev rest else datum :: deduplicate datum rest

/-- `CDatumSortedSet` of the elements that are not NULL. -/
def cDatumSortedSet (elements : List E) : List E :=
  match elements.insertionSort (fun a b => isLessThanOrEqual a b) with
  | [] => []
  | first :: rest => first :: deduplicate first rest

end Datums

def inRanges (sorted : List E) : List (CRange E) :=
  sorted.map (CRange.ofCmp .ecmptEq)

/-- `(-inf, X) (X, Y) (Y, Z) (Z, inf)` for NOT IN, from the datum before on. -/
def notInRanges (prev : Option E) : List E → List (CRange E)
  | [] => [⟨prev, .eriExcluded, none, .eriExcluded⟩]
  | datum :: rest =>
    ⟨prev, .eriExcluded, some datum, .eriExcluded⟩ :: notInRanges (some datum) rest

variable [LinearOrder E] {prev v : E} {elements sorted : List E}

theorem mem_deduplicate {list : List E} : v ∈ prev :: deduplicate prev list ↔ v ∈ prev :: list := by
  induction list generalizing prev with
  | nil => rfl
  | cons datum rest ih =>
    rw [deduplicate]
    split
    · rename_i same
      rw [ih, CComparator.equals_iff.mp same]
      simp
    · rw [List.mem_cons, ih, ← List.mem_cons]

theorem deduplicate_increasing {list : List E} (nondecreasing : (prev :: list).Pairwise (· ≤ ·)) :
    (prev :: deduplicate prev list).Pairwise (· < ·) := by
  induction list generalizing prev with
  | nil => exact List.pairwise_singleton _ _
  | cons datum rest ih =>
    obtain ⟨first, later⟩ := List.pairwise_cons.mp nondecreasing
    rw [deduplicate]
    split
    · rename_i same
      rw [CComparator.equals_iff.mp same] at later
      exact ih later
    · rename_i differs
      have increasing := ih later
      have less : prev < datum := lt_of_le_of_ne (first datum List.mem_cons_self) fun same =>
        differs (CComparator.equals_iff.mpr same.symm)
      refine List.pairwise_cons.mpr ⟨fun w listed => ?_, increasing⟩
      rcases List.mem_cons.mp listed with rfl | after
      · exact less
      · exact less.trans ((List.pairwise_cons.mp increasing).1 w after)

theorem mem_cDatumSortedSet : v ∈ cDatumSortedSet elements ↔ v ∈ elements := by
  refine Iff.trans ?_ (List.mem_insertionSort fun a b : E => CComparator.isLessThanOrEqual a b)
  rw [cDatumSortedSet]
  cases elements.insertionSort (fun a b => CComparator.isLessThanOrEqual a b) with
  | nil => rfl
  | cons first rest => exact mem_deduplicate

theorem isLessThanOrEqual_iff {a b : E} : CComparator.isLessThanOrEqual a b = true ↔ a ≤ b := by
  rw [CComparator.isLessThanOrEqual, Bool.or_eq_true, CComparator.equals_iff,
    CComparator.isLessThan_iff, le_iff_eq_or_lt]

theorem cDatumSortedSet_increasing : (cDatumSortedSet elements).Pairwise (· < ·) := by
  have nondecreasing := List.pairwise_insertionSort (· ≤ ·) elements
  rw [cDatumSortedSet, insertionSort_congr fun a _ b _ => @isLessThanOrEqual_iff E _ a b]
  cases sortedList : elements.insertionSort (· ≤ ·) with
  | nil => exact List.Pairwise.nil
  | cons first rest =>
    rw [sortedList] at nondecreasing
    exact deduplicate_increasing nondecreasing

theorem inRanges_ordered (increasing : sorted.Pairwise (· < ·)) : Ordered (inRanges sorted) := by
  constructor
  · intro range listed
    obtain ⟨w, -, rfl⟩ := List.mem_map.mp listed
    exact Cut.before_lt_after.mpr le_rfl
  · exact List.pairwise_map.mpr (increasing.imp fun less => Cut.after_le_before.mpr less)

theorem exists_inRanges : (∃ range ∈ inRanges sorted, range.Has v) ↔ v ∈ sorted := by
  constructor
  · rintro ⟨range, listed, above, below⟩
    obtain ⟨w, member, rfl⟩ := List.mem_map.mp listed
    have same : w = v := le_antisymm (of_decide_eq_true above) (of_decide_eq_true below)
    exact same ▸ member
  · intro member
    exact ⟨_, List.mem_map_of_mem member, decide_eq_true le_rfl, decide_eq_true le_rfl⟩

theorem has_open {left right : Option E} :
    (⟨left, .eriExcluded, right, .eriExcluded⟩ : CRange E).Has v ↔
      (∀ p ∈ left, p < v) ∧ ∀ q ∈ right, v < q := by
  cases left <;> cases right <;> simp [CRange.Has, CRange.fAboveLeft, CRange.fBelowRight]

variable {last : Option E}

theorem notInRanges_starts (increasing : (last.toList ++ sorted).Pairwise (· < ·)) :
    ∀ range ∈ notInRanges last sorted, lowerCut last .eriExcluded ≤ lower range := by
  induction sorted generalizing last with
  | nil =>
    intro range only
    rw [List.mem_singleton.mp only]
    exact le_rfl
  | cons datum rest ih =>
    obtain ⟨-, later, less⟩ := List.pairwise_append.mp increasing
    intro range listed
    rcases List.mem_cons.mp listed with rfl | further
    · exact le_rfl
    · refine le_trans ?_ (@ih (some datum) later range further)
      cases last with
      | none => exact bot_le
      | some p =>
        exact Cut.after_le_after.mpr
          (less p (List.mem_singleton_self p) datum List.mem_cons_self).le

theorem notInRanges_ordered (increasing : (last.toList ++ sorted).Pairwise (· < ·)) :
    Ordered (notInRanges last sorted) := by
  induction sorted generalizing last with
  | nil => exact ordered_singleton.mpr (lowerCut_lt_top last .eriExcluded)
  | cons datum rest ih =>
    obtain ⟨-, later, less⟩ := List.pairwise_append.mp increasing
    refine ordered_cons.mpr ⟨?_, ?_, @ih (some datum) later⟩
    · cases last with
      | none => exact Cut.bot_lt_before
      | some p =>
        exact Cut.after_lt_before.mpr (less p (List.mem_singleton_self p) datum List.mem_cons_self)
    · intro first only range further
      rw [List.mem_singleton.mp only]
      have starts := @notInRanges_starts E _ rest (some datum) later range further
      exact (Cut.before_le_after.mpr le_rfl).trans starts

theorem exists_notInRanges (increasing : (last.toList ++ sorted).Pairwise (· < ·)) :
    (∃ range ∈ notInRanges last sorted, range.Has v) ↔ v ∉ sorted ∧ ∀ p ∈ last, p < v := by
  induction sorted generalizing last with
  | nil => simp [notInRanges, has_open]
  | cons datum rest ih =>
    obtain ⟨-, later, less⟩ := List.pairwise_append.mp increasing
    have beyond := (List.pairwise_cons.mp later).1
    simp only [notInRanges, List.mem_cons, exists_eq_or_imp, has_open, not_or,
      @ih (some datum) later, Option.mem_some_iff, forall_eq']
    constructor
    · rintro (⟨after, before⟩ | ⟨notLater, after⟩)
      · exact ⟨⟨before.ne, fun member => before.not_gt (beyond v member)⟩, after⟩
      · refine ⟨⟨after.ne', notLater⟩, fun p is_last => ?_⟩
        exact (less p (Option.mem_toList.mpr is_last) datum List.mem_cons_self).trans after
    · rintro ⟨⟨differs, notLater⟩, after⟩
      rcases lt_or_gt_of_ne differs with before | past
      · exact .inl ⟨after, before⟩
      · exact .inr ⟨notLater, past⟩

end Arrays

end Constraints
