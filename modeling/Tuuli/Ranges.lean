import Tuuli.OrderedSpans

/-!
`CRange` over the datums of one type, and what its comparisons and its set operations mean
for the cuts at its ends. An infinite end is `none`. The operations compare datums by the
comparator of their type, which need not be an order: doubles are equal if they are close. What
the operations mean is said for comparators that are the order of the datums.
-/
namespace Constraints
open OrderedSpans

inductive ERangeInclusion where
  | eriIncluded
  | eriExcluded
  deriving DecidableEq, Repr

def eriInverseInclusion : ERangeInclusion → ERangeInclusion
  | .eriIncluded => .eriExcluded
  | .eriExcluded => .eriIncluded

/-- The comparison operators of the source but `EcmptIDF` and `EcmptOther`. -/
inductive ECmpType where
  | ecmptEq
  | ecmptNEq
  | ecmptL
  | ecmptLEq
  | ecmptG
  | ecmptGEq
  deriving DecidableEq, Repr

/-- `CDefaultComparator` for the datums of one type. -/
class CComparator (E : Type) where
  equals : E → E → Bool
  isLessThan : E → E → Bool

namespace CComparator
variable {E : Type}

def isGreaterThan [CComparator E] (a b : E) : Bool := isLessThan b a

/-- The comparator of integers, dates and times: the order of the datums. -/
instance (priority := low) ofOrder [LinearOrder E] : CComparator E where
  equals a b := a = b
  isLessThan a b := a < b

variable [LinearOrder E] {a b : E}

@[simp] theorem equals_iff : equals a b = true ↔ a = b := decide_eq_true_iff

@[simp] theorem isLessThan_iff : isLessThan a b = true ↔ a < b := decide_eq_true_iff

@[simp] theorem isGreaterThan_iff : isGreaterThan a b = true ↔ b < a := decide_eq_true_iff

end CComparator

structure CRange (E : Type) where
  left : Option E
  eriLeft : ERangeInclusion
  right : Option E
  eriRight : ERangeInclusion
  deriving DecidableEq

namespace CRange

variable {E : Type}

/-- The range of `col cmp datum`; one range cannot describe `<>`, for which the constructor
leaves both ends open. -/
def ofCmp (cmp : ECmpType) (datum : E) : CRange E :=
  match cmp with
  | .ecmptEq => ⟨some datum, .eriIncluded, some datum, .eriIncluded⟩
  | .ecmptL => ⟨none, .eriExcluded, some datum, .eriExcluded⟩
  | .ecmptLEq => ⟨none, .eriExcluded, some datum, .eriIncluded⟩
  | .ecmptG => ⟨some datum, .eriExcluded, none, .eriExcluded⟩
  | .ecmptGEq => ⟨some datum, .eriIncluded, none, .eriExcluded⟩
  | .ecmptNEq => ⟨none, .eriExcluded, none, .eriExcluded⟩

section Values
variable [LinearOrder E]

def fAboveLeft (range : CRange E) (value : E) : Bool :=
  match range.left, range.eriLeft with
  | none, _ => true
  | some bound, .eriIncluded => bound ≤ value
  | some bound, .eriExcluded => bound < value

def fBelowRight (range : CRange E) (value : E) : Bool :=
  match range.right, range.eriRight with
  | none, _ => true
  | some bound, .eriIncluded => value ≤ bound
  | some bound, .eriExcluded => value < bound

/-- The values between the two ends. -/
def Has (range : CRange E) (value : E) : Prop :=
  range.fAboveLeft value = true ∧ range.fBelowRight value = true

instance (range : CRange E) (value : E) : Decidable (range.Has value) :=
  inferInstanceAs (Decidable (_ ∧ _))

end Values

section Operations
open CComparator
variable [CComparator E]

def fDisjointLeft (this range : CRange E) : Bool :=
  match this.right, range.left with
  | some right, some left =>
    if isLessThan right left then true
    else if equals right left then this.eriRight = .eriExcluded ∨ range.eriLeft = .eriExcluded
    else false
  | _, _ => false

def fStartsBefore (this range : CRange E) : Bool :=
  match range.left, this.left with
  | none, left => left.isNone
  | some _, none => true
  | some other, some left =>
    if isLessThan left other then true
    else if isGreaterThan left other then false
    else this.eriLeft = .eriIncluded ∧ range.eriLeft = .eriExcluded

def fStartsWithOrBefore (this range : CRange E) : Bool :=
  if this.fStartsBefore range then true
  else match range.left, this.left with
    | none, none => true
    | some other, some left => equals left other ∧ this.eriLeft = range.eriLeft
    | _, _ => false

def fEndsAfter (this range : CRange E) : Bool :=
  match range.right, this.right with
  | none, right => right.isNone
  | some _, none => true
  | some other, some right =>
    if isGreaterThan right other then true
    else if isLessThan right other then false
    else this.eriRight = .eriIncluded ∧ range.eriRight = .eriExcluded

def fEndsWithOrAfter (this range : CRange E) : Bool :=
  if this.fEndsAfter range then true
  else match range.right, this.right with
    | none, none => true
    | some other, some right => equals right other ∧ this.eriRight = range.eriRight
    | _, _ => false

def contains (this range : CRange E) : Bool :=
  this.fStartsWithOrBefore range && this.fEndsWithOrAfter range

def fOverlapsLeft (this range : CRange E) : Bool :=
  this.fStartsBefore range && !this.fEndsAfter range && !this.fDisjointLeft range

def fOverlapsRight (this range : CRange E) : Bool :=
  this.fEndsAfter range && !this.fStartsBefore range && !range.fDisjointLeft this

def prngIntersect (this range : CRange E) : Option (CRange E) :=
  if this.contains range then some range
  else if range.contains this then some this
  else if this.fOverlapsLeft range then
    some ⟨range.left, range.eriLeft, this.right, this.eriRight⟩
  else if this.fOverlapsRight range then
    some ⟨this.left, this.eriLeft, range.right, range.eriRight⟩
  else none

def prngDifferenceLeft (this range : CRange E) : Option (CRange E) :=
  if this.fDisjointLeft range then some this
  else if range.left ≠ none ∧ this.fStartsBefore range then
    some ⟨this.left, this.eriLeft, range.left, eriInverseInclusion range.eriLeft⟩
  else none

def prngDifferenceRight (this range : CRange E) : Option (CRange E) :=
  if range.fDisjointLeft this then some this
  else if range.right ≠ none ∧ this.fEndsAfter range then
    some ⟨range.right, eriInverseInclusion range.eriRight, this.right, this.eriRight⟩
  else none

def sameEnd : Option E → Option E → Bool
  | some first, some second => equals first second
  | none, none => true
  | _, _ => false

/-- The source compares the two datums without a check for an infinite end; ranges in order
have none where they meet. -/
def prngExtend (this range : CRange E) : Option (CRange E) :=
  if (range.eriLeft = .eriIncluded ∨ this.eriRight = .eriIncluded) ∧
      sameEnd range.left this.right then
    some ⟨this.left, this.eriLeft, range.right, range.eriRight⟩
  else none

end Operations

end CRange

section Cuts
variable {E : Type}

def lowerCut : Option E → ERangeInclusion → Cut E
  | none, _ => ⊥
  | some bound, .eriIncluded => .before bound
  | some bound, .eriExcluded => .after bound

def upperCut : Option E → ERangeInclusion → Cut E
  | none, _ => ⊤
  | some bound, .eriIncluded => .after bound
  | some bound, .eriExcluded => .before bound

instance : HasSpan (CRange E) (Cut E) where
  lower range := lowerCut range.left range.eriLeft
  upper range := upperCut range.right range.eriRight

variable {bound : Option E} {eri : ERangeInclusion}

theorem CRange.lower_eq (range : CRange E) : lower range = lowerCut range.left range.eriLeft := rfl

theorem CRange.upper_eq (range : CRange E) :
    upper range = upperCut range.right range.eriRight := rfl

theorem upperCut_inverse (finite : bound ≠ none) :
    upperCut bound (eriInverseInclusion eri) = lowerCut bound eri := by
  cases bound with
  | none => exact absurd rfl finite
  | some bound => cases eri <;> rfl

theorem lowerCut_inverse (finite : bound ≠ none) :
    lowerCut bound (eriInverseInclusion eri) = upperCut bound eri := by
  cases bound with
  | none => exact absurd rfl finite
  | some bound => cases eri <;> rfl

variable [LinearOrder E]

theorem lowerCut_lt_top (bound : Option E) (eri : ERangeInclusion) : lowerCut bound eri < ⊤ := by
  cases bound with
  | none => exact WithBot.bot_lt_coe _
  | some bound =>
    cases eri with
    | eriIncluded => exact Cut.before_lt_top
    | eriExcluded => exact Cut.after_lt_top

theorem bot_lt_upperCut (bound : Option E) (eri : ERangeInclusion) : ⊥ < upperCut bound eri := by
  cases bound with
  | none => exact WithBot.bot_lt_coe _
  | some bound =>
    cases eri with
    | eriIncluded => exact Cut.bot_lt_after
    | eriExcluded => exact Cut.bot_lt_before

theorem lowerCut_eq_bot : lowerCut bound eri = ⊥ ↔ bound = none := by
  cases bound with
  | none => exact ⟨fun _ => rfl, fun _ => rfl⟩
  | some bound =>
    constructor
    · intro bottom
      cases eri with
      | eriIncluded => exact absurd bottom Cut.bot_lt_before.ne'
      | eriExcluded => exact absurd bottom Cut.bot_lt_after.ne'
    · intro infinite
      cases infinite

theorem upperCut_eq_top : upperCut bound eri = ⊤ ↔ bound = none := by
  cases bound with
  | none => exact ⟨fun _ => rfl, fun _ => rfl⟩
  | some bound =>
    constructor
    · intro atTop
      cases eri with
      | eriIncluded => exact absurd atTop Cut.after_lt_top.ne
      | eriExcluded => exact absurd atTop Cut.before_lt_top.ne
    · intro infinite
      cases infinite

end Cuts

namespace CRange

variable {E : Type} [LinearOrder E] {this range : CRange E} {value : E}

theorem fAboveLeft_iff : range.fAboveLeft value = true ↔ lower range ≤ Cut.before value := by
  rw [lower_eq, fAboveLeft]
  cases range.left with
  | none => exact iff_of_true rfl bot_le
  | some bound => cases range.eriLeft <;> simp [lowerCut]

theorem fBelowRight_iff : range.fBelowRight value = true ↔ Cut.before value < upper range := by
  rw [upper_eq, fBelowRight]
  cases range.right with
  | none => exact iff_of_true rfl Cut.before_lt_top
  | some bound => cases range.eriRight <;> simp [upperCut]

theorem has_iff : range.Has value ↔
    lower range ≤ Cut.before value ∧ Cut.before value < upper range :=
  and_congr fAboveLeft_iff fBelowRight_iff

theorem fDisjointLeft_iff : this.fDisjointLeft range = true ↔ upper this ≤ lower range := by
  rw [lower_eq, upper_eq, fDisjointLeft]
  cases this.right with
  | none => exact iff_of_false Bool.false_ne_true (not_le.mpr (lowerCut_lt_top _ _))
  | some a =>
    cases range.left with
    | none => exact iff_of_false Bool.false_ne_true (not_le.mpr (bot_lt_upperCut _ _))
    | some b =>
      simp only [CComparator.isLessThan_iff, CComparator.equals_iff]
      rcases lt_trichotomy a b with less | rfl | greater
      · rw [if_pos less]
        cases this.eriRight <;> cases range.eriLeft <;> simp [lowerCut, upperCut, less, less.le]
      · rw [if_neg (lt_irrefl a), if_pos rfl]
        cases this.eriRight <;> cases range.eriLeft <;> simp [lowerCut, upperCut]
      · rw [if_neg greater.not_gt, if_neg greater.ne']
        cases this.eriRight <;> cases range.eriLeft <;>
          simp [lowerCut, upperCut, greater, greater.le]

theorem fStartsBefore_iff : this.fStartsBefore range = true ↔
    lower this < lower range ∨ (this.left = none ∧ range.left = none) := by
  rw [lower_eq, lower_eq, fStartsBefore]
  cases range.left with
  | none =>
    cases this.left with
    | none => simp
    | some a => simp [lowerCut]
  | some b =>
    cases this.left with
    | none =>
      refine iff_of_true rfl (.inl ?_)
      rw [lowerCut, bot_lt_iff_ne_bot, ne_eq, lowerCut_eq_bot]
      exact Option.some_ne_none b
    | some a =>
      simp only [reduceCtorEq, and_false, or_false, CComparator.isLessThan_iff,
        CComparator.isGreaterThan_iff]
      rcases lt_trichotomy a b with less | rfl | greater
      · rw [if_pos less]
        cases this.eriLeft <;> cases range.eriLeft <;> simp [lowerCut, less, less.le]
      · rw [if_neg (lt_irrefl a), if_neg (lt_irrefl a)]
        cases this.eriLeft <;> cases range.eriLeft <;> simp [lowerCut]
      · rw [if_neg greater.not_gt, if_pos greater]
        cases this.eriLeft <;> cases range.eriLeft <;> simp [lowerCut, greater, greater.le]

theorem fStartsWithOrBefore_iff : this.fStartsWithOrBefore range = true ↔
    lower this ≤ lower range := by
  rw [lower_eq, lower_eq, fStartsWithOrBefore, fStartsBefore]
  cases range.left with
  | none =>
    cases this.left with
    | none => simp [lowerCut]
    | some a =>
      have later : ¬ lowerCut (some a) this.eriLeft ≤ ⊥ := by simp [lowerCut_eq_bot]
      simpa [lowerCut] using later
  | some b =>
    cases this.left with
    | none => simp [lowerCut]
    | some a =>
      rcases lt_trichotomy a b with less | rfl | greater
      · cases this.eriLeft <;> cases range.eriLeft <;> simp [lowerCut, less, less.le]
      · cases this.eriLeft <;> cases range.eriLeft <;> simp [lowerCut]
      · cases this.eriLeft <;> cases range.eriLeft <;>
          simp [lowerCut, greater.not_gt, greater, greater.ne']

theorem fEndsAfter_iff : this.fEndsAfter range = true ↔
    upper range < upper this ∨ (this.right = none ∧ range.right = none) := by
  rw [upper_eq, upper_eq, fEndsAfter]
  cases range.right with
  | none =>
    cases this.right with
    | none => simp
    | some a => simp [upperCut]
  | some b =>
    cases this.right with
    | none =>
      refine iff_of_true rfl (.inl ?_)
      rw [upperCut.eq_def none, lt_top_iff_ne_top, ne_eq, upperCut_eq_top]
      exact Option.some_ne_none b
    | some a =>
      simp only [reduceCtorEq, and_false, or_false, CComparator.isLessThan_iff,
        CComparator.isGreaterThan_iff]
      rcases lt_trichotomy a b with less | rfl | greater
      · rw [if_neg less.not_gt, if_pos less]
        cases this.eriRight <;> cases range.eriRight <;> simp [upperCut, less, less.le]
      · rw [if_neg (lt_irrefl a), if_neg (lt_irrefl a)]
        cases this.eriRight <;> cases range.eriRight <;> simp [upperCut]
      · rw [if_pos greater]
        cases this.eriRight <;> cases range.eriRight <;> simp [upperCut, greater, greater.le]

theorem fEndsWithOrAfter_iff : this.fEndsWithOrAfter range = true ↔
    upper range ≤ upper this := by
  rw [upper_eq, upper_eq, fEndsWithOrAfter, fEndsAfter]
  cases range.right with
  | none =>
    cases this.right with
    | none => simp [upperCut]
    | some a =>
      have earlier : ¬ ⊤ ≤ upperCut (some a) this.eriRight := by simp [upperCut_eq_top]
      simpa [upperCut] using earlier
  | some b =>
    cases this.right with
    | none => simp [upperCut]
    | some a =>
      rcases lt_trichotomy a b with less | rfl | greater
      · cases this.eriRight <;> cases range.eriRight <;>
          simp [upperCut, less.not_gt, less, less.ne]
      · cases this.eriRight <;> cases range.eriRight <;> simp [upperCut]
      · cases this.eriRight <;> cases range.eriRight <;> simp [upperCut, greater, greater.le]

theorem le_of_fStartsBefore (before : this.fStartsBefore range = true) : lower this ≤ lower range :=
  fStartsWithOrBefore_iff.mp (by rw [fStartsWithOrBefore, if_pos before])

theorem le_of_fEndsAfter (after : this.fEndsAfter range = true) : upper range ≤ upper this :=
  fEndsWithOrAfter_iff.mp (by rw [fEndsWithOrAfter, if_pos after])

theorem le_of_not_fEndsAfter (notAfter : ¬ this.fEndsAfter range = true) :
    upper this ≤ upper range :=
  not_lt.mp fun less => notAfter (fEndsAfter_iff.mpr (.inl less))

theorem contains_iff : this.contains range = true ↔
    lower this ≤ lower range ∧ upper range ≤ upper this := by
  rw [contains, Bool.and_eq_true_iff, fStartsWithOrBefore_iff, fEndsWithOrAfter_iff]

/-- Ranges of which neither contains the other overlap on the left when they meet and the
first one starts first. -/
theorem fOverlapsLeft_iff (notInner : ¬ this.contains range = true)
    (notOuter : ¬ range.contains this = true) :
    this.fOverlapsLeft range = true ↔
      lower this < lower range ∧ upper this < upper range ∧ lower range < upper this := by
  rw [contains_iff, not_and, not_le] at notInner notOuter
  simp only [fOverlapsLeft, Bool.and_eq_true_iff, Bool.not_eq_true', ← Bool.not_eq_true]
  rw [fDisjointLeft_iff, not_le]
  constructor
  · rintro ⟨⟨before, -⟩, meets⟩
    have starts := le_of_fStartsBefore before
    have ends := notInner starts
    refine ⟨lt_of_not_ge fun same => ?_, ends, meets⟩
    exact (notOuter same).not_gt ends
  · rintro ⟨starts, ends, meets⟩
    refine ⟨⟨fStartsBefore_iff.mpr (.inl starts), fun after => ?_⟩, meets⟩
    exact (le_of_fEndsAfter after).not_gt ends

theorem fOverlapsRight_iff (notInner : ¬ this.contains range = true)
    (notOuter : ¬ range.contains this = true) :
    this.fOverlapsRight range = true ↔
      lower range < lower this ∧ upper range < upper this ∧ lower this < upper range := by
  rw [contains_iff, not_and', not_le] at notInner notOuter
  simp only [fOverlapsRight, Bool.and_eq_true_iff, Bool.not_eq_true', ← Bool.not_eq_true]
  rw [fDisjointLeft_iff, not_le]
  constructor
  · rintro ⟨⟨after, -⟩, meets⟩
    have ends := le_of_fEndsAfter after
    have starts := notInner ends
    refine ⟨starts, lt_of_not_ge fun same => ?_, meets⟩
    exact (notOuter same).not_gt starts
  · rintro ⟨starts, ends, meets⟩
    refine ⟨⟨fEndsAfter_iff.mpr (.inl ends), fun before => ?_⟩, meets⟩
    exact (le_of_fStartsBefore before).not_gt starts

/-- What two ranges share. -/
theorem prngIntersect_piece (properThis : lower this < upper this)
    (properRange : lower range < upper range) :
    Piece (this.prngIntersect range).toList (max (lower this) (lower range))
      (min (upper this) (upper range)) := by
  unfold prngIntersect
  by_cases inner : this.contains range = true
  · obtain ⟨starts, ends⟩ := contains_iff.mp inner
    rw [if_pos inner, max_eq_right starts, min_eq_right ends]
    exact piece_singleton rfl rfl properRange
  rw [if_neg inner]
  by_cases outer : range.contains this = true
  · obtain ⟨starts, ends⟩ := contains_iff.mp outer
    rw [if_pos outer, max_eq_left starts, min_eq_left ends]
    exact piece_singleton rfl rfl properThis
  rw [if_neg outer]
  by_cases onLeft : this.fOverlapsLeft range = true
  · obtain ⟨starts, ends, meets⟩ := (fOverlapsLeft_iff inner outer).mp onLeft
    rw [if_pos onLeft, max_eq_right starts.le, min_eq_left ends.le]
    exact piece_singleton rfl rfl meets
  rw [if_neg onLeft]
  by_cases onRight : this.fOverlapsRight range = true
  · obtain ⟨starts, ends, meets⟩ := (fOverlapsRight_iff inner outer).mp onRight
    rw [if_pos onRight, max_eq_left starts.le, min_eq_right ends.le]
    exact piece_singleton rfl rfl meets
  rw [if_neg onRight]
  apply piece_nil
  rw [fOverlapsLeft_iff inner outer] at onLeft
  rw [fOverlapsRight_iff inner outer] at onRight
  rw [contains_iff] at inner outer
  rcases lt_trichotomy (lower this) (lower range) with starts | same | starts
  · have ends : upper this < upper range := not_le.mp fun later => inner ⟨starts.le, later⟩
    have apart : upper this ≤ lower range := not_lt.mp fun meets => onLeft ⟨starts, ends, meets⟩
    exact (min_le_left _ _).trans (apart.trans (le_max_right _ _))
  · rcases le_total (upper range) (upper this) with ends | ends
    · exact absurd ⟨same.le, ends⟩ inner
    · exact absurd ⟨same.ge, ends⟩ outer
  · have ends : upper range < upper this := not_le.mp fun later => outer ⟨starts.le, later⟩
    have apart : upper range ≤ lower this := not_lt.mp fun meets => onRight ⟨starts, ends, meets⟩
    exact (min_le_right _ _).trans (apart.trans (le_max_left _ _))

/-- What of the range lies left of the other. -/
theorem prngDifferenceLeft_piece (properThis : lower this < upper this) :
    Piece (this.prngDifferenceLeft range).toList (lower this)
      (min (upper this) (lower range)) := by
  unfold prngDifferenceLeft
  by_cases apart : this.fDisjointLeft range = true
  · rw [if_pos apart, min_eq_left (fDisjointLeft_iff.mp apart)]
    exact piece_singleton rfl rfl properThis
  rw [if_neg apart]
  rw [fDisjointLeft_iff, not_le] at apart
  rw [min_eq_right apart.le]
  by_cases starts : lower this < lower range
  · have finite : range.left ≠ none := by
      intro infinite
      rw [lower_eq range, infinite] at starts
      exact absurd starts not_lt_bot
    have split : range.left ≠ none ∧ this.fStartsBefore range = true :=
      ⟨finite, fStartsBefore_iff.mpr (.inl starts)⟩
    rw [if_pos split]
    exact piece_singleton rfl (upperCut_inverse finite) starts
  · have whole : ¬ (range.left ≠ none ∧ this.fStartsBefore range = true) := by
      rintro ⟨finite, before⟩
      rcases fStartsBefore_iff.mp before with less | ⟨-, infinite⟩
      · exact starts less
      · exact finite infinite
    rw [if_neg whole]
    exact piece_nil (not_lt.mp starts)

/-- What of the range lies right of the other. -/
theorem prngDifferenceRight_piece (properThis : lower this < upper this) :
    Piece (this.prngDifferenceRight range).toList (max (lower this) (upper range))
      (upper this) := by
  unfold prngDifferenceRight
  by_cases apart : range.fDisjointLeft this = true
  · rw [if_pos apart, max_eq_left (fDisjointLeft_iff.mp apart)]
    exact piece_singleton rfl rfl properThis
  rw [if_neg apart]
  rw [fDisjointLeft_iff, not_le] at apart
  rw [max_eq_right apart.le]
  by_cases ends : upper range < upper this
  · have finite : range.right ≠ none := by
      intro infinite
      rw [upper_eq range, infinite] at ends
      exact absurd ends not_top_lt
    have split : range.right ≠ none ∧ this.fEndsAfter range = true :=
      ⟨finite, fEndsAfter_iff.mpr (.inl ends)⟩
    rw [if_pos split]
    exact piece_singleton (lowerCut_inverse finite) rfl ends
  · have whole : ¬ (range.right ≠ none ∧ this.fEndsAfter range = true) := by
      rintro ⟨finite, after⟩
      rcases fEndsAfter_iff.mp after with less | ⟨-, infinite⟩
      · exact ends less
      · exact finite infinite
    rw [if_neg whole]
    exact piece_nil (not_lt.mp ends)

theorem sameEnd_iff {first second : Option E} : sameEnd first second = true ↔ first = second := by
  cases first <;> cases second <;> simp [sameEnd]

theorem prngExtend_some {extended : CRange E} (apart : upper this ≤ lower range)
    (result : this.prngExtend range = some extended) :
    lower extended = lower this ∧ upper extended = upper range ∧ upper this = lower range := by
  unfold prngExtend at result
  split at result
  · rename_i meets
    obtain ⟨closed, same⟩ := meets
    cases result
    refine ⟨rfl, rfl, ?_⟩
    rw [upper_eq, lower_eq, sameEnd_iff.mp same] at apart ⊢
    cases bound : this.right with
    | none =>
      rw [bound] at apart
      exact absurd apart (not_le.mpr (lowerCut_lt_top _ _))
    | some value =>
      rw [bound] at apart
      rcases closed with closed | closed <;> rw [closed] at apart ⊢
      · cases eri : this.eriRight with
        | eriIncluded =>
          rw [eri] at apart
          exact absurd (Cut.after_le_before.mp apart) (lt_irrefl value)
        | eriExcluded => rfl
      · cases eri : range.eriLeft with
        | eriIncluded =>
          rw [eri] at apart
          exact absurd (Cut.after_le_before.mp apart) (lt_irrefl value)
        | eriExcluded => rfl
  · cases result

end CRange

end Constraints
