import Tuuli.RangeConversion

/-!
An interval and the scalar expression it is turned into: an array comparison, or the disjunction
of the comparisons of its ranges. What the expression is converted back to has all values of the
interval, and no others if every part of the expression is converted.
-/
namespace Constraints
open OrderedSpans
open ScalarExpr (EArrCmpType)

section Arrays
variable {D : Type} [LinearOrder D] [comp : CComparator (WithBot D)] {known : WithBot D → Prop}
  {settings : Settings} {column : CColRef D} {inferNullsAs : Bool} {q : RangeInterval D}
  {cmpOp : ECmpType → Option D → Option ℕ} {arrayCmp : ECmpType → Bool} {e : CScalar D}
  {quantifier : EArrCmpType} {cmpType : ECmpType} {listed : List (WithBot D)} {v : D}

omit [LinearOrder D] comp in
theorem mem_constants : some v ∈ listed.map constantOf ↔ (v : WithBot D) ∈ listed := by
  rw [List.mem_map]
  constructor
  · rintro ⟨d, mem, same⟩
    exact constantOf_eq_some.mp same ▸ mem
  · exact fun mem => ⟨v, mem, rfl⟩

omit [LinearOrder D] comp in
theorem known_constants (all : ∀ d ∈ listed, known d) :
    ∀ d ∈ nonNull (listed.map constantOf), known d := by
  intro d mem
  obtain ⟨v, isElement, rfl⟩ := List.mem_map.mp mem
  exact all v (mem_constants.mp (List.reduceOption_mem_iff.mp isElement))

omit comp in
theorem scalarArrayCmp_cases
    (result : RangeInterval.pexprScalarArrayCmp cmpOp arrayCmp quantifier cmpType listed = some e) :
    (∃ d, listed = [d] ∧ e = pexprScalarCmp cmpOp cmpType d) ∨
      e = .arrayCmp quantifier cmpType (listed.map constantOf) := by
  obtain ⟨-, result⟩ := Option.ite_none_right_eq_some.mp result
  split at result
  · rename_i d _
    cases result
    exact .inl ⟨d, rfl, rfl⟩
  · cases result
    exact .inr rfl

omit comp in
theorem datums_scalarArrayCmp (all : ∀ d ∈ listed, known d)
    (result : RangeInterval.pexprScalarArrayCmp cmpOp arrayCmp quantifier cmpType listed = some e) :
    ∀ d ∈ datums settings column .emdindSentinel e, known d := by
  rcases scalarArrayCmp_cases result with ⟨d, rfl, rfl⟩ | rfl
  · exact datums_scalarCmp (all d (List.mem_singleton_self d))
  · exact known_constants all

variable (agrees : comp.AgreesOn known) (all : ∀ d ∈ listed, known d)

include agrees all

theorem has_in (result : RangeInterval.pexprScalarArrayCmp cmpOp arrayCmp quantifier .ecmptEq
      listed = some e) (run : converted settings column inferNullsAs e = some (some q)) :
    q.Has (some v) ↔ (v : WithBot D) ∈ listed := by
  rcases scalarArrayCmp_cases result with ⟨d, rfl, rfl⟩ | rfl
  · rw [has_scalarCmp run, List.mem_singleton]
    exact decide_eq_true_iff
  · rw [converted, pciIntervalFromScalarExpr] at run
    split at run
    · unfold pcnstrIntervalFromScalarArrayCmp at run
      split at run
      · cases run
      · cases run
        rw [hasIn agrees (known_constants all), mem_constants]
    · cases run

theorem has_notIn (result : RangeInterval.pexprScalarArrayCmp cmpOp arrayCmp quantifier .ecmptNEq
      listed = some e) (run : converted settings column inferNullsAs e = some (some q)) :
    q.Has (some v) ↔ (v : WithBot D) ∉ listed := by
  rcases scalarArrayCmp_cases result with ⟨d, rfl, rfl⟩ | rfl
  · rw [has_scalarCmp run, List.mem_singleton]
    exact decide_eq_true_iff
  · rw [converted, pciIntervalFromScalarExpr] at run
    split at run
    · unfold pcnstrIntervalFromScalarArrayCmp at run
      split at run
      · cases run
      · dsimp only at run
        split at run
        · cases run
        · cases run
          rw [hasNotIn agrees (known_constants all), mem_constants]
    · cases run

end Arrays

section RangeArrays
variable {D : Type} [LinearOrder D] [comp : CComparator (WithBot D)] {known : WithBot D → Prop}
  {ranges rest : List (CRange (WithBot D))} {range r : CRange (WithBot D)} {v : D}

omit comp in
/-- Among several ranges in order none is without ends. -/
theorem finite_of_ordered (ordered : Ordered ranges) (several : 1 < ranges.length)
    (mem : range ∈ ranges) (infinite : range.left = none) : range.right ≠ none := by
  intro unbounded
  have bottom : lower range = ⊥ := by rw [CRange.lower_eq, infinite]; rfl
  have top : upper range = ⊤ := by rw [CRange.upper_eq, unbounded]; rfl
  obtain ⟨before, after, rfl⟩ := List.append_of_mem mem
  obtain ⟨-, later, between⟩ := ordered_append.mp ordered
  cases before with
  | cons s _ =>
    have meets := between s List.mem_cons_self range List.mem_cons_self
    rw [bottom, le_bot_iff] at meets
    exact (bot_lt_upperCut s.right s.eriRight).ne' meets
  | nil =>
    cases after with
    | nil => simp at several
    | cons t _ =>
      have meets := (ordered_cons.mp later).2.1 range (List.mem_singleton_self range) t
        List.mem_cons_self
      rw [top, top_le_iff] at meets
      exact (lowerCut_lt_top t.left t.eriLeft).ne meets

variable (agrees : comp.AgreesOn known) (ends : AllEnds (KnownEnd known) ranges)
  (ordered : Ordered ranges)

include agrees ends ordered

theorem points_has (several : 1 < ranges.length) (points : ranges.all CRange.fPoint = true) :
    (∃ range ∈ ranges, range.Has (v : WithBot D)) ↔
      (v : WithBot D) ∈ ranges.filterMap CRange.right := by
  have isPoint := List.all_eq_true.mp points
  have at_end : ∀ range ∈ ranges, (range.Has (v : WithBot D) ↔ range.right = some (v : WithBot D)) := by
    intro range mem
    have same := right_eq_left_of_fPoint agrees (ends range mem) (isPoint range mem)
    cases isLeft : range.left with
    | none => exact absurd (same.trans isLeft) (finite_of_ordered ordered several mem isLeft)
    | some d =>
      rw [point_has agrees (ends range mem) (isPoint range mem) isLeft, same, isLeft,
        Option.some_inj, eq_comm]
  rw [List.mem_filterMap]
  exact exists_congr fun range => and_congr_right fun mem => at_end range mem

end RangeArrays

section MeetingRanges
variable {D : Type} [LinearOrder D] [comp : CComparator (WithBot D)] {known : WithBot D → Prop}
  {rest : List (CRange (WithBot D))} {r s : CRange (WithBot D)} {v : D}

theorem meeting_datum (agrees : comp.AgreesOn known)
    (ends : AllEnds (KnownEnd known) (r :: s :: rest)) (ordered : Ordered (r :: s :: rest))
    (meets : RangeInterval.fMeetsOpen (r :: s :: rest) = true) :
    ∃ m, r.right = some m ∧ upper r = Cut.before m ∧ lower s = Cut.after m := by
  rw [RangeInterval.fMeetsOpen] at meets
  simp only [Bool.and_eq_true, decide_eq_true_eq] at meets
  obtain ⟨⟨⟨openRight, openLeft⟩, same⟩, -⟩ := meets
  obtain ⟨first, others⟩ := allEnds_cons.mp ends
  have both : (⟨r.right, .eriExcluded, s.left, .eriExcluded⟩ :
      CRange (WithBot D)).EndsIn (KnownEnd known) := ⟨first.2, (allEnds_cons.mp others).1.1⟩
  rw [CRange.sameEnd_agrees agrees both both] at same
  have same : r.right = s.left := CRange.sameEnd_iff.mp same
  rw [CRange.upper_eq, CRange.lower_eq, ← same, openRight, openLeft]
  cases isRight : r.right with
  | some m => exact ⟨m, rfl, rfl, rfl⟩
  | none =>
    -- an end without a datum would leave no place for the second range
    have apart := (ordered_cons.mp ordered).2.1 r (List.mem_singleton_self r) s List.mem_cons_self
    rw [CRange.upper_eq, CRange.lower_eq, ← same, isRight] at apart
    exact absurd (top_le_iff.mp apart) (lowerCut_lt_top none s.eriLeft).ne

omit comp in
/-- A range after `r` does not end at a datum below the end of `r`. -/
theorem ends_after {m d : WithBot D} {t : CRange (WithBot D)} (ends : upper r = Cut.before m)
    (proper : lower t < upper t) (later : upper r ≤ lower t) (isRight : t.right = some d) :
    m ≤ d := by
  have below : upper t ≤ Cut.after d := by
    rw [CRange.upper_eq, isRight]
    cases t.eriRight with
    | eriIncluded => exact le_rfl
    | eriExcluded => exact Cut.before_le_after.mpr le_rfl
  rw [ends] at later
  exact Cut.before_lt_after.mp ((later.trans_lt proper).trans_le below)

/-- Ranges that meet at open ends leave out the datums at which they meet. -/
theorem meeting_has (agrees : comp.AgreesOn known) (ends : AllEnds (KnownEnd known) (r :: rest))
    (ordered : Ordered (r :: rest)) (meets : RangeInterval.fMeetsOpen (r :: rest) = true)
    (unbounded : ((r :: rest).getLast?.bind CRange.right).isNone = true) :
    Covers (r :: rest) (Cut.before (v : WithBot D)) ↔
      (v : WithBot D) ∉ (r :: rest).dropLast.filterMap CRange.right ∧
        lower r ≤ Cut.before (v : WithBot D) := by
  induction rest generalizing r with
  | nil =>
    have infinite : r.right = none := by simpa using unbounded
    have top : upper r = ⊤ := by rw [CRange.upper_eq, infinite]; rfl
    simp [covers_cons, covers_nil, top, Cut.before_lt_top]
  | cons s rest ih =>
    obtain ⟨m, isRight, ends_at, starts_at⟩ := meeting_datum agrees ends ordered meets
    obtain ⟨proper, before, later⟩ := ordered_cons.mp ordered
    have further : RangeInterval.fMeetsOpen (s :: rest) = true := by
      rw [RangeInterval.fMeetsOpen, Bool.and_eq_true] at meets
      exact meets.2
    have last : ((s :: rest).getLast?.bind CRange.right).isNone = true := by
      rwa [List.getLast?_cons_cons] at unbounded
    rw [covers_cons, ih (allEnds_cons.mp ends).2 later further last, ends_at, starts_at,
      Cut.before_lt_before, Cut.after_le_before, List.dropLast_cons_cons,
      List.filterMap_cons_some isRight, List.mem_cons, not_or]
    have not_later : (v : WithBot D) < m →
        (v : WithBot D) ∉ (s :: rest).dropLast.filterMap CRange.right := by
      intro less mem
      obtain ⟨t, inside, isEnd⟩ := List.mem_filterMap.mp mem
      have listed := List.dropLast_subset _ inside
      exact less.not_ge (ends_after ends_at (later.nonempty t listed)
        (before r (List.mem_singleton_self r) t listed) isEnd)
    constructor
    · rintro (⟨above, less⟩ | ⟨notListed, greater⟩)
      · exact ⟨⟨less.ne, not_later less⟩, above⟩
      · refine ⟨⟨greater.ne', notListed⟩, ?_⟩
        rw [ends_at] at proper
        exact (proper.trans (Cut.before_lt_before.mpr greater)).le
    · rintro ⟨⟨other, notListed⟩, above⟩
      rcases lt_or_gt_of_ne other with less | greater
      · exact .inl ⟨above, less⟩
      · exact .inr ⟨notListed, greater⟩

end MeetingRanges

section Intervals
variable {D : Type} [LinearOrder D] [comp : CComparator (WithBot D)] {known : WithBot D → Prop}
  {settings : Settings} {column : CColRef D} {inferNullsAs : Bool} {pci q : RangeInterval D}
  {cmpOp : ECmpType → Option D → Option ℕ} {arrayCmp : ECmpType → Bool} {e : CScalar D}
  {value : Option D} {v : D}

/-- No range between two booleans has the NULL datum as its lower end: such a range counts as
empty though it has the lower boolean. -/
def RangeInterval.Honest (column : CColRef D) (pci : RangeInterval D) : Prop :=
  pci.fContradiction column = true → ∀ range ∈ pci.ranges, range.left ≠ some ⊥

omit comp in
theorem BoolType.not_between (type : BoolType D) {a b : WithBot D} (notNull : a ≠ ⊥)
    (above : a < v) (below : (v : WithBot D) < b) : False := by
  obtain ⟨low, rfl⟩ := WithBot.ne_bot_iff_exists.mp notNull
  obtain ⟨high, rfl⟩ := WithBot.ne_bot_iff_exists.mp (bot_le.trans_lt below).ne'
  have first := WithBot.coe_lt_coe.mp above
  have second := WithBot.coe_lt_coe.mp below
  rcases type.only v with rfl | rfl
  · exact first.not_ge (type.bounds low).1
  · exact second.not_ge (type.bounds high).2

omit comp in
theorem contradiction_range {range : CRange (WithBot D)} (listed : range ∈ pci.ranges)
    (contradiction : pci.fContradiction column = true) :
    ∃ type a b, column.boolType = some type ∧
      range = ⟨some a, .eriExcluded, some b, .eriExcluded⟩ := by
  obtain ⟨ranges, includesNull⟩ := pci
  obtain ⟨left, eriLeft, right, eriRight⟩ := range
  rw [RangeInterval.fContradiction, Bool.and_eq_true] at contradiction
  have empty := contradiction.2
  dsimp only at empty listed
  split at empty
  · exact absurd listed List.not_mem_nil
  · cases List.mem_singleton.mp listed
    simp only [Bool.and_eq_true, decide_eq_true_eq, Option.isSome_iff_exists] at empty
    obtain ⟨⟨⟨⟨⟨type, isBool⟩, rfl⟩, rfl⟩, ⟨a, rfl⟩⟩, ⟨b, rfl⟩⟩ := empty
    exact ⟨type, a, b, isBool, rfl⟩
  · cases empty

omit comp in
theorem not_has_of_contradiction (honest : pci.Honest column)
    (contradiction : pci.fContradiction column = true) : ¬ pci.Has value := by
  cases value with
  | none =>
    rw [RangeInterval.fContradiction, Bool.and_eq_true, Bool.not_eq_true'] at contradiction
    rw [RangeInterval.has_none, contradiction.1]
    exact Bool.false_ne_true
  | some d =>
    rintro ⟨range, listed, has⟩
    have notNull := honest contradiction range listed
    obtain ⟨type, a, b, -, rfl⟩ := contradiction_range listed contradiction
    have between : a < d ∧ (d : WithBot D) < b := by
      simpa [CRange.Has, CRange.fAboveLeft, CRange.fBelowRight] using has
    exact type.not_between (fun isNull => notNull (congrArg some isNull)) between.1 between.2

omit comp in
theorem has_of_isConstraintUnbounded (unbounded : pci.isConstraintUnbounded = true) :
    pci.Has value := by
  obtain ⟨ranges, includesNull⟩ := pci
  rw [RangeInterval.isConstraintUnbounded, Bool.and_eq_true] at unbounded
  obtain ⟨withNull, whole⟩ := unbounded
  cases value with
  | none => exact withNull
  | some d =>
    dsimp only at whole
    split at whole
    · rename_i range
      rw [Bool.and_eq_true, Option.isNone_iff_eq_none, Option.isNone_iff_eq_none] at whole
      refine ⟨range, List.mem_singleton_self range, ?_⟩
      simp [CRange.Has, CRange.fAboveLeft, CRange.fBelowRight, whole.1, whole.2]
    · cases whole

theorem constrainable_of_pciNot {derived : Derived D}
    (run : pciNot column derived = some (some q)) : column.constrainable = true := by
  unfold pciNot at run
  split at run
  · cases run
  · cases run
  · obtain ⟨complement, isComplement, -⟩ := Option.map_eq_some_iff.mp run
    obtain ⟨whole, unbounded, -⟩ := Option.map_eq_some_iff.mp isComplement
    exact (Option.ite_none_right_eq_some.mp unbounded).1

theorem honest_complement {complement : RangeInterval D} (agrees : comp.AgreesOn known)
    (bounds : column.KnownBounds known) (proper : pci.Proper known)
    (result : pci.pciComplement column = some complement) : complement.Honest column := by
  intro contradiction range listed isLeft
  have ordered := (pciComplement_spec agrees bounds proper result).1.ordered
  obtain ⟨type, a, b, isBool, rfl⟩ := contradiction_range listed contradiction
  obtain ⟨whole, unbounded, rfl⟩ := Option.map_eq_some_iff.mp result
  obtain ⟨-, unbounded⟩ := Option.ite_none_right_eq_some.mp unbounded
  cases unbounded
  have covered := ((covers_pciDifference agrees (properWhole bounds) proper).mp
    ⟨_, listed, le_rfl, ordered.nonempty _ listed⟩).1
  cases isLeft
  obtain ⟨span, only, above, -⟩ := covered
  rw [List.mem_singleton.mp only, unboundedRange, isBool] at above
  exact absurd (Cut.before_le_after.mp above) (WithBot.not_coe_le_bot type.fls)

/-- `e` is the array comparison made of an interval, before a test for NULL is added. -/
def RangeInterval.IsArray (cmpOp : ECmpType → Option D → Option ℕ) (arrayCmp : ECmpType → Bool)
    (pci : RangeInterval D) (e : CScalar D) : Prop :=
  (pci.fConvertsToIn = true ∧ RangeInterval.pexprScalarArrayCmp cmpOp arrayCmp .any .ecmptEq
    (pci.ranges.filterMap CRange.right) = some e) ∨
  (pci.fConvertsToNotIn = true ∧ RangeInterval.pexprScalarArrayCmp cmpOp arrayCmp .all .ecmptNEq
    (pci.ranges.dropLast.filterMap CRange.right) = some e)

theorem pexprScalar_interval_cases
    (result : pci.pexprScalar settings column cmpOp arrayCmp = some e) :
    (pci.fContradiction column = true ∧ e = .const (some false)) ∨
    (∃ a, pci.IsArray cmpOp arrayCmp a ∧
      e = if pci.includesNull then pexprConjDisj false [a, .nullTest] [] else a) ∨
    e = pci.pexprConstructDisjunctionScalar cmpOp := by
  unfold RangeInterval.pexprScalar at result
  split at result
  · rename_i contradiction
    cases result
    exact .inl ⟨contradiction, rfl⟩
  · right
    split at result
    · split at result
      · cases result
      · cases result
        exact .inr rfl
      · rename_i pexpr made
        cases result
        left
        unfold RangeInterval.pexprConstructArrayScalar at made
        dsimp only at made
        split at made
        · cases made
        · rename_i none
          split at made <;> cases made
        · rename_i a isArray
          cases made
          refine ⟨a, ?_, rfl⟩
          split at isArray
          · rename_i isIn
            exact .inl ⟨isIn, Option.some.inj isArray⟩
          · split at isArray
            · rename_i isNotIn
              exact .inr ⟨isNotIn, Option.some.inj isArray⟩
            · cases isArray
    · cases result
      exact .inr rfl

variable (agrees : comp.AgreesOn known) (proper : pci.Proper known)

include agrees proper

omit comp agrees in
theorem known_rights {ranges : List (CRange (WithBot D))} (listed : ranges ⊆ pci.ranges) :
    ∀ d ∈ ranges.filterMap CRange.right, known d := by
  intro d mem
  obtain ⟨range, inside, isRight⟩ := List.mem_filterMap.mp mem
  exact (proper.ends range (listed inside)).2 d isRight

/-- The array comparison of an interval has its values, whatever is said of NULL. -/
theorem array_exact (isArray : pci.IsArray cmpOp arrayCmp e)
    (run : converted settings column inferNullsAs e = some (some q)) :
    q.Has (some v) ↔ pci.Has (some v) := by
  rcases isArray with ⟨isIn, result⟩ | ⟨isNotIn, result⟩
  · rw [has_in agrees (known_rights proper (List.Subset.refl _)) result run]
    rw [RangeInterval.fConvertsToIn, Bool.and_eq_true, decide_eq_true_eq] at isIn
    exact (points_has agrees proper.ends proper.ordered isIn.1 isIn.2).symm
  · rw [has_notIn agrees (known_rights proper (List.dropLast_subset _)) result run,
      RangeInterval.has_some]
    obtain ⟨ranges, includesNull⟩ := pci
    simp only [RangeInterval.fConvertsToNotIn, Bool.and_eq_true, decide_eq_true_eq] at isNotIn
    obtain ⟨⟨⟨several, infinite⟩, unbounded⟩, meets⟩ := isNotIn
    match ranges with
    | [] => simp at several
    | r :: rest =>
      rw [meeting_has agrees proper.ends proper.ordered meets unbounded, CRange.lower_eq]
      have bottom : r.left = none := by simpa using infinite
      rw [bottom]
      exact (and_iff_left bot_le).symm

omit agrees in
theorem datums_array (isArray : pci.IsArray cmpOp arrayCmp e) :
    ∀ d ∈ datums settings column .emdindSentinel e, known d := by
  rcases isArray with ⟨-, result⟩ | ⟨-, result⟩
  · exact datums_scalarArrayCmp (known_rights proper (List.Subset.refl _)) result
  · exact datums_scalarArrayCmp (known_rights proper (List.dropLast_subset _)) result

omit agrees in
theorem datums_withNull (isArray : pci.IsArray cmpOp arrayCmp e) :
    ∀ x ∈ [e, .nullTest], ∀ d ∈ datums settings column .emdindSentinel x, known d := by
  refine List.forall_mem_cons.mpr ⟨datums_array proper isArray, ?_⟩
  rintro x only d mem
  rw [List.mem_singleton.mp only] at mem
  exact absurd mem List.not_mem_nil

omit agrees in
theorem datums_ranges :
    ∀ x ∈ pci.ranges.map (CRange.pexprScalar cmpOp) ++ if pci.includesNull then [.nullTest] else [],
      ∀ d ∈ datums settings column .emdindSentinel x, known d := by
  intro x mem d inside
  rcases List.mem_append.mp mem with isRange | isNull
  · obtain ⟨range, listed, rfl⟩ := List.mem_map.mp isRange
    exact datums_range (proper.ends range listed) d inside
  · split at isNull
    · rw [List.mem_singleton.mp isNull] at inside
      exact absurd inside List.not_mem_nil
    · exact absurd isNull List.not_mem_nil

omit agrees in
theorem datums_interval (result : pci.pexprScalar settings column cmpOp arrayCmp = some e) :
    ∀ d ∈ datums settings column .emdindSentinel e, known d := by
  rcases pexprScalar_interval_cases result with ⟨-, rfl⟩ | ⟨a, isArray, rfl⟩ | rfl
  · exact fun d mem => absurd mem List.not_mem_nil
  · split
    · exact datums_pexprConjDisj (datums_withNull proper isArray)
    · exact datums_array proper isArray
  · unfold RangeInterval.pexprConstructDisjunctionScalar
    dsimp only
    split
    · split <;> exact fun d mem => absurd mem List.not_mem_nil
    · exact datums_pexprConjDisj (datums_ranges proper)

omit agrees proper in
theorem converted_nullTest : converted settings column inferNullsAs (.nullTest : CScalar D) =
    some (some (pciEmpty true)) := by
  rw [converted, pciIntervalFromScalarExpr]

omit agrees proper in
theorem has_nullTest (run : converted settings column inferNullsAs .nullTest = some (some q)) :
    q.Has value ↔ value = none := by
  rw [converted_nullTest] at run
  cases run
  rw [has_pciEmpty]
  simp

variable (bounds : column.KnownBounds known)

include bounds

omit proper in
theorem has_notNull
    (run : converted settings column inferNullsAs (.boolNot .nullTest) = some (some q)) :
    q.Has value ↔ value ≠ none := by
  rw [converted, pciIntervalFromScalarExpr] at run
  obtain ⟨p, derived, -, complement⟩ := pciNot_spec agrees bounds run fun p derived => by
    rw [pciIntervalFromScalarExpr] at derived
    cases derived
    exact properEmpty
  rw [complement, has_nullTest derived]

theorem has_of_disjunction
    (run : converted settings column inferNullsAs (pci.pexprConstructDisjunctionScalar cmpOp) =
      some (some q)) (inside : pci.Has value) : q.Has value := by
  unfold RangeInterval.pexprConstructDisjunctionScalar at run
  dsimp only at run
  split at run
  · split at run
    · exact has_of_converted_true run
    · rename_i without
      refine (has_notNull agrees bounds run).mpr ?_
      rintro rfl
      exact without inside
  · cases value with
    | none =>
      refine has_disj agrees bounds (datums_ranges proper) run (List.mem_append_right _ ?_)
        fun p derived => (has_nullTest derived).mpr rfl
      rw [if_pos (show pci.includesNull = true from inside)]
      exact List.mem_singleton_self _
    | some d =>
      obtain ⟨range, listed, has⟩ := inside
      refine has_disj agrees bounds (datums_ranges proper) run
        (List.mem_append_left _ (List.mem_map_of_mem listed)) fun p derived => ?_
      exact has_of_range agrees (proper.ends range listed) bounds derived has

theorem has_of_interval (honest : pci.Honest column)
    (result : pci.pexprScalar settings column cmpOp arrayCmp = some e)
    (run : converted settings column inferNullsAs e = some (some q)) (inside : pci.Has value) :
    q.Has value := by
  rcases pexprScalar_interval_cases result with ⟨contradiction, -⟩ | ⟨a, isArray, rfl⟩ | rfl
  · exact absurd inside (not_has_of_contradiction honest contradiction)
  · split at run
    · rename_i withNull
      cases value with
      | none =>
        exact has_disj agrees bounds (datums_withNull proper isArray) run
          (List.mem_cons_of_mem a (List.mem_singleton_self _))
          fun p derived => (has_nullTest derived).mpr rfl
      | some d =>
        exact has_disj agrees bounds (datums_withNull proper isArray) run List.mem_cons_self
          fun p derived => (array_exact agrees proper isArray derived).mpr inside
    · rename_i without
      cases value with
      | none => exact absurd inside without
      | some d => exact (array_exact agrees proper isArray run).mpr inside
  · exact has_of_disjunction agrees proper bounds run inside

variable (constrainable : column.constrainable = true)

include constrainable

theorem interval_of_disjunction
    (run : converted settings column inferNullsAs (pci.pexprConstructDisjunctionScalar cmpOp) =
      some (some q))
    (complete : fComplete settings column (pci.pexprConstructDisjunctionScalar cmpOp) = true)
    (has : q.Has (some v)) : pci.Has (some v) := by
  unfold RangeInterval.pexprConstructDisjunctionScalar at run complete
  dsimp only at run complete
  split at run
  · rename_i always
    obtain ⟨range, only, isTrue⟩ := List.map_eq_singleton_iff.mp
      (List.map_map.symm.trans always)
    have isConst := eq_const isTrue
    have listed : range ∈ pci.ranges := only ▸ List.mem_singleton_self range
    have derived : converted settings column inferNullsAs (range.pexprScalar cmpOp) =
        some (some (wholeInterval column true).toRangeInterval) := by
      rw [isConst]
      exact converted_true constrainable
    have whole : fComplete settings column (range.pexprScalar cmpOp) = true := by
      rw [isConst]
      simp [fComplete, fConverts, constrainable]
    exact ⟨range, listed, range_of_has agrees (proper.ends range listed) bounds constrainable
      derived whole (has_wholeInterval.mpr fun _ => rfl)⟩
  · rename_i several
    rw [if_neg several] at complete
    obtain ⟨x, listed, whole, p, derived, inside⟩ := exists_of_has_disj agrees bounds
      (datums_ranges proper) constrainable run complete has
    rcases List.mem_append.mp listed with isRange | isNull
    · obtain ⟨range, member, rfl⟩ := List.mem_map.mp isRange
      exact ⟨range, member,
        range_of_has agrees (proper.ends range member) bounds constrainable derived whole inside⟩
    · split at isNull
      · rw [List.mem_singleton.mp isNull] at derived
        exact absurd ((has_nullTest derived).mp inside) (Option.some_ne_none v)
      · exact absurd isNull List.not_mem_nil

theorem interval_of_has (result : pci.pexprScalar settings column cmpOp arrayCmp = some e)
    (run : converted settings column inferNullsAs e = some (some q))
    (complete : fComplete settings column e = true) (has : q.Has (some v)) :
    pci.Has (some v) := by
  rcases pexprScalar_interval_cases result with ⟨-, rfl⟩ | ⟨a, isArray, rfl⟩ | rfl
  · exact absurd has (not_has_of_converted_false run)
  · split at run
    · rename_i withNull
      rw [if_pos withNull] at complete
      obtain ⟨x, listed, -, p, derived, inside⟩ := exists_of_has_disj agrees bounds
        (datums_withNull proper isArray) constrainable run complete has
      rcases List.mem_cons.mp listed with rfl | only
      · exact (array_exact agrees proper isArray derived).mp inside
      · rw [List.mem_singleton.mp only] at derived
        exact absurd ((has_nullTest derived).mp inside) (Option.some_ne_none v)
    · exact (array_exact agrees proper isArray run).mp has
  · exact interval_of_disjunction agrees proper bounds constrainable run complete has

end Intervals

end Constraints
