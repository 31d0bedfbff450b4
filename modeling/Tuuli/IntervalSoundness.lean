import Mathlib.Algebra.Order.Ring.Abs
import Mathlib.Algebra.Order.Ring.Rat
import Tuuli.ConversionForms
import Tuuli.IntervalConnectives

/-!
What a derived interval means. One lemma for each form of expression says that its interval is
right on one side if those of its parts are and the form fits; the comparator has to be right
about the constants of the expression. A value for which the expression counts is then never
missing from its interval.
-/
namespace Constraints
open OrderedSpans TruthValues
open ScalarExpr (EBoolTest EArrCmpType)

section Leaves
variable {D : Type} [LinearOrder D] [comp : CComparator (WithBot D)] {known : WithBot D → Prop}
  {settings : Settings} {column : CColRef D} {inferNullsAs : Bool} {cmpType : ECmpType}
  {elements : List (Option D)} {bound : Bound}

/-- Whatever interval is derived of the expression is proper, and right on each side on which the
expression fits. -/
def Sound (settings : Settings) (column : CColRef D) (known : WithBot D → Prop)
    (expr : CScalar D) : Prop :=
  ∀ inferNullsAs accessMethod pci,
    pciIntervalFromScalarExpr settings column inferNullsAs accessMethod expr = some (some pci) →
    (∀ d ∈ datums settings column accessMethod expr, known d) →
    pci.Proper known ∧ ∀ bound, Fits settings column bound inferNullsAs accessMethod expr →
      ∀ value, bound.Right (pci.Has value) (Holds inferNullsAs (expr.truth value))

omit [LinearOrder D] comp in
theorem knownEnds_ofCmp {d : WithBot D} (isKnown : known d) (cmpType : ECmpType) :
    (CRange.ofCmp cmpType d).EndsIn (KnownEnd known) := by
  have finite : KnownEnd known (some d) := by
    rintro _ ⟨⟩
    exact isKnown
  have infinite : KnownEnd known none := fun _ => nofun
  cases cmpType with
  | ecmptEq => exact ⟨finite, finite⟩
  | ecmptNEq => exact ⟨infinite, infinite⟩
  | ecmptL => exact ⟨infinite, finite⟩
  | ecmptLEq => exact ⟨infinite, finite⟩
  | ecmptG => exact ⟨finite, infinite⟩
  | ecmptGEq => exact ⟨finite, infinite⟩

omit comp in
theorem proper_colConstCmp {constant : Option D} (isKnown : known (datum constant)) :
    (pciIntervalFromColConstCmp cmpType constant inferNullsAs).Proper known := by
  refine ⟨pciRangeFromColConstCmp_ordered cmpType, ?_⟩
  have ends := knownEnds_ofCmp isKnown
  cases cmpType with
  | ecmptNEq => exact allEnds_cons.mpr ⟨ends _, allEnds_some.mpr (ends _)⟩
  | _ => exact allEnds_some.mpr (ends _)

omit comp in
theorem has_colConstCmp {constant : Option D} {d : D} :
    (pciIntervalFromColConstCmp cmpType constant inferNullsAs).Has (some d) ↔
      cmpHolds cmpType (d : WithBot D) (datum constant) = true :=
  exists_pciRangeFromColConstCmp cmpType

omit comp in
theorem cmpHolds_coe {v w : D} :
    cmpHolds cmpType (v : WithBot D) (w : WithBot D) = cmpHolds cmpType v w := by
  cases cmpType <;> simp [cmpHolds]

omit comp in
theorem holds_compare {d : D} {element : Option D} :
    Holds inferNullsAs (compare cmpType (some d) element) ↔
      match element with
      | some w => cmpHolds cmpType d w = true
      | none => inferNullsAs = true := by
  cases element with
  | none => exact holds_none
  | some w => exact holds_some

omit comp in
theorem right_cmp {constant : Option D} (fits : CmpFits bound inferNullsAs cmpType constant)
    (value : Option D) :
    bound.Right ((pciIntervalFromColConstCmp cmpType constant inferNullsAs).Has value)
      (Holds inferNullsAs (compare cmpType value constant)) := by
  cases value with
  | none => exact Bound.right_of_iff holds_none.symm
  | some d =>
    rw [has_colConstCmp, holds_compare]
    cases constant with
    | some w => exact Bound.right_of_iff (by rw [datum, cmpHolds_coe])
    | none =>
      cases bound with
      | upper =>
        intro inferred
        have among := fits inferred
        cases cmpType <;> simp_all [cmpHolds, datum]
      | lower =>
        intro holds
        by_contra notInferred
        have among := fits (Bool.eq_false_of_not_eq_true notInferred)
        cases cmpType <;> simp_all [cmpHolds, datum]

/-! ### Array comparisons -/

omit [LinearOrder D] comp in
theorem mem_nonNull {d : D} : (d : WithBot D) ∈ nonNull elements ↔ some d ∈ elements := by
  rw [nonNull, ← List.reduceOption_mem_iff]
  exact List.mem_map_of_injective WithBot.coe_injective

section Elements
variable (agrees : comp.AgreesOn known) (all : ∀ d ∈ nonNull elements, known d)

include agrees all

theorem mem_sortedElements {d : WithBot D} :
    d ∈ cDatumSortedSet (nonNull elements) ↔ d ∈ nonNull elements := by
  rw [cDatumSortedSet_agrees agrees all]
  exact mem_cDatumSortedSet

theorem sortedElements_increasing : (cDatumSortedSet (nonNull elements)).Pairwise (· < ·) := by
  rw [cDatumSortedSet_agrees agrees all]
  exact cDatumSortedSet_increasing

theorem properIn : (⟨inRanges (cDatumSortedSet (nonNull elements)), inferNullsAs⟩ :
    RangeInterval D).Proper known := by
  refine ⟨inRanges_ordered (sortedElements_increasing agrees all), fun range listed => ?_⟩
  obtain ⟨d, mem, rfl⟩ := List.mem_map.mp listed
  exact knownEnds_ofCmp (all d ((mem_sortedElements agrees all).mp mem)) _

theorem hasIn {d : D} : (⟨inRanges (cDatumSortedSet (nonNull elements)), inferNullsAs⟩ :
    RangeInterval D).Has (some d) ↔ some d ∈ elements :=
  exists_inRanges.trans ((mem_sortedElements agrees all).trans mem_nonNull)

omit [LinearOrder D] comp agrees all in
theorem notInRanges_ends {last : Option (WithBot D)} {sorted : List (WithBot D)}
    (isKnown : KnownEnd known last) (listed : ∀ d ∈ sorted, known d) :
    AllEnds (KnownEnd known) (notInRanges last sorted) := by
  induction sorted generalizing last with
  | nil => exact allEnds_some.mpr ⟨isKnown, fun _ => nofun⟩
  | cons d rest ih =>
    obtain ⟨here, later⟩ := List.forall_mem_cons.mp listed
    have atDatum : KnownEnd known (some d) := by
      rintro _ ⟨⟩
      exact here
    exact allEnds_cons.mpr ⟨⟨isKnown, atDatum⟩, ih atDatum later⟩

theorem properNotIn : (⟨notInRanges none (cDatumSortedSet (nonNull elements)), inferNullsAs⟩ :
    RangeInterval D).Proper known := by
  refine ⟨@notInRanges_ordered _ _ _ none (sortedElements_increasing agrees all), ?_⟩
  exact notInRanges_ends (fun _ => nofun) fun d mem =>
    all d ((mem_sortedElements agrees all).mp mem)

theorem hasNotIn {d : D} : (⟨notInRanges none (cDatumSortedSet (nonNull elements)), inferNullsAs⟩ :
    RangeInterval D).Has (some d) ↔ some d ∉ elements := by
  have increasing : (Option.toList none ++ cDatumSortedSet (nonNull elements)).Pairwise (· < ·) :=
    sortedElements_increasing agrees all
  refine (exists_notInRanges increasing).trans ?_
  rw [mem_sortedElements agrees all, mem_nonNull]
  simp

theorem exists_value_of_sorted (some_sorted : ¬ (cDatumSortedSet (nonNull elements)).isEmpty = true) :
    ∃ w, some w ∈ elements := by
  rw [List.isEmpty_iff] at some_sorted
  obtain ⟨d, mem⟩ := List.exists_mem_of_ne_nil _ some_sorted
  obtain ⟨w, kept, -⟩ := List.mem_map.mp ((mem_sortedElements agrees all).mp mem)
  exact ⟨w, List.reduceOption_mem_iff.mp kept⟩

end Elements

omit comp in
theorem holds_anyArray {value : Option D} :
    Holds inferNullsAs (CScalar.truth value (.arrayCmp .any cmpType elements)) ↔
      ∃ element ∈ elements, Holds inferNullsAs (compare cmpType value element) := by
  rw [CScalar.truth, holds_disj]
  simp

omit comp in
theorem holds_allArray {value : Option D} :
    Holds inferNullsAs (CScalar.truth value (.arrayCmp .all cmpType elements)) ↔
      ∀ element ∈ elements, Holds inferNullsAs (compare cmpType value element) := by
  rw [CScalar.truth, holds_conj]
  simp

omit comp in
theorem holds_array_null (listed : elements ≠ []) (quantifier : EArrCmpType) :
    Holds inferNullsAs (CScalar.truth none (.arrayCmp quantifier cmpType elements)) ↔
      inferNullsAs = true := by
  obtain ⟨first, mem⟩ := List.exists_mem_of_ne_nil elements listed
  have unknown : ∀ element : Option D, Holds inferNullsAs (compare cmpType none element) ↔
      inferNullsAs = true := fun _ => holds_none
  cases quantifier with
  | any =>
    rw [holds_anyArray]
    exact ⟨fun ⟨e, _, holds⟩ => (unknown e).mp holds, fun inferred => ⟨first, mem, (unknown _).mpr
      inferred⟩⟩
  | all =>
    rw [holds_allArray]
    exact ⟨fun holds => (unknown first).mp (holds first mem), fun inferred e _ => (unknown e).mpr
      inferred⟩

omit comp in
theorem right_in (listed : elements ≠ []) {quantifier : EArrCmpType} {d : D}
    (fits : ArrayFits bound inferNullsAs elements quantifier .ecmptEq) :
    bound.Right (some d ∈ elements)
      (Holds inferNullsAs (CScalar.truth (some d) (.arrayCmp quantifier .ecmptEq elements))) := by
  cases quantifier with
  | any =>
    rw [holds_anyArray]
    cases bound with
    | upper =>
      rintro ⟨element, mem, holds⟩
      cases element with
      | none => exact absurd mem (fits rfl (holds_compare.mp holds))
      | some w =>
        have same : d = w := of_decide_eq_true (holds_compare.mp holds)
        exact same ▸ mem
    | lower =>
      intro mem
      exact ⟨some d, mem, holds_compare.mpr (decide_eq_true rfl)⟩
  | all =>
    rw [holds_allArray]
    cases bound with
    | upper =>
      intro holds
      have same : ∀ {w}, some w ∈ elements → some d ∈ elements := by
        intro w mem
        have equal : d = w := of_decide_eq_true (holds_compare.mp (holds _ mem))
        exact equal ▸ mem
      obtain ⟨first, mem⟩ := List.exists_mem_of_ne_nil elements listed
      cases first with
      | none =>
        obtain ⟨w, among⟩ := fits (holds_compare.mp (holds _ mem))
        exact same among
      | some w => exact same mem
    | lower =>
      intro mem element among
      refine holds_compare.mpr ?_
      cases element with
      | none =>
        by_contra notInferred
        exact fits.2 (Bool.eq_false_of_not_eq_true notInferred) among d mem
      | some w => exact decide_eq_true (fits.1 d w mem among)

omit comp in
theorem right_notIn (some_value : ∃ w, some w ∈ elements) {quantifier : EArrCmpType} {d : D}
    (fits : ArrayFits bound inferNullsAs elements quantifier .ecmptNEq) :
    bound.Right (some d ∉ elements)
      (Holds inferNullsAs (CScalar.truth (some d) (.arrayCmp quantifier .ecmptNEq elements))) := by
  cases quantifier with
  | any =>
    rw [holds_anyArray]
    cases bound with
    | upper =>
      rintro ⟨element, mem, holds⟩ among
      cases element with
      | none => exact (fits rfl).2 (holds_compare.mp holds) mem
      | some w => exact of_decide_eq_true (holds_compare.mp holds) ((fits rfl).1 d w among mem)
    | lower =>
      intro outside
      obtain ⟨w, mem⟩ := some_value
      refine ⟨some w, mem, holds_compare.mpr (decide_eq_true ?_)⟩
      rintro rfl
      exact outside mem
  | all =>
    rw [holds_allArray]
    cases bound with
    | upper =>
      intro holds among
      exact of_decide_eq_true (holds_compare.mp (holds _ among)) rfl
    | lower =>
      intro outside element mem
      refine holds_compare.mpr ?_
      cases element with
      | none =>
        by_contra notInferred
        exact fits rfl (Bool.eq_false_of_not_eq_true notInferred) mem
      | some w =>
        refine decide_eq_true ?_
        rintro rfl
        exact outside mem

theorem sound_arrayCmp (agrees : comp.AgreesOn known) (quantifier : EArrCmpType)
    (cmpType : ECmpType) (elements : List (Option D)) :
    Sound settings column known (.arrayCmp quantifier cmpType elements) := by
  intro inferNullsAs accessMethod pci run all
  rw [datums] at all
  rw [pciIntervalFromScalarExpr] at run
  split at run
  · unfold pcnstrIntervalFromScalarArrayCmp at run
    split at run
    · cases run
    rename_i listed
    rw [List.isEmpty_iff] at listed
    split at run
    · cases run
      refine ⟨properIn agrees all, fun bound fits value => ?_⟩
      cases value with
      | none => exact Bound.right_of_iff (holds_array_null listed quantifier).symm
      | some d =>
        rw [hasIn agrees all]
        exact right_in listed fits
    · split at run
      · cases run
      rename_i some_sorted
      cases run
      refine ⟨properNotIn agrees all, fun bound fits value => ?_⟩
      cases value with
      | none => exact Bound.right_of_iff (holds_array_null listed quantifier).symm
      | some d =>
        rw [hasNotIn agrees all]
        exact right_notIn (exists_value_of_sorted agrees all some_sorted) fits
    · cases run
  · cases run

/-! ### Other leaves -/

theorem sound_nullTest : Sound settings column known (.nullTest : CScalar D) := by
  intro inferNullsAs accessMethod pci run _
  rw [pciIntervalFromScalarExpr] at run
  cases run
  refine ⟨properEmpty, fun bound _ value => Bound.right_of_iff ?_⟩
  rw [has_pciEmpty, CScalar.truth, holds_some, Option.isNone_iff_eq_none]
  exact and_iff_left rfl

theorem sound_ident (type : BoolType D) : Sound settings column known (.ident type) := by
  intro inferNullsAs accessMethod pci run all
  rw [pciIntervalFromScalarExpr] at run
  cases run
  refine ⟨proper_colConstCmp (all _ (List.mem_singleton_self _)), fun bound _ value => ?_⟩
  refine (@right_cmp D _ inferNullsAs .ecmptEq bound (some type.tru) trivial value).congr Iff.rfl ?_
  cases value <;> rfl

theorem sound_cmp (mdidOp : ℕ) (cmpType : ECmpType) (constant : Option D) :
    Sound settings column known (.cmp mdidOp cmpType constant) := by
  intro inferNullsAs accessMethod pci run all
  rw [pciIntervalFromScalarExpr] at run
  split at run
  · cases run
  · cases run
    refine ⟨proper_colConstCmp (all _ (List.mem_singleton_self _)), fun bound fits value => ?_⟩
    exact right_cmp fits value

section Negated
variable (agrees : comp.AgreesOn known) (bounds : column.KnownBounds known)

include agrees bounds

theorem sound_isDistinctFrom (constant : Option D) :
    Sound settings column known (.isDistinctFrom constant) := by
  intro inferNullsAs accessMethod pci run all
  rw [pciIntervalFromScalarExpr] at run
  cases constant with
  | none =>
    obtain ⟨complement, result, same⟩ := Option.map_eq_some_iff.mp run
    cases same
    obtain ⟨proper, has⟩ := pciComplement_spec agrees bounds properEmpty result
    refine ⟨proper, fun bound _ value => Bound.right_of_iff ?_⟩
    rw [has, has_pciEmpty, CScalar.truth, holds_some, decide_eq_true_iff]
    exact not_congr (and_iff_left rfl)
  | some d =>
    cases run
    refine ⟨proper_colConstCmp (all _ (List.mem_singleton_self _)), fun bound _ value => ?_⟩
    apply Bound.right_of_iff
    rw [CScalar.truth, holds_some, decide_eq_true_iff]
    cases value with
    | none => exact iff_of_true rfl nofun
    | some v =>
      rw [has_colConstCmp, datum, cmpHolds_coe]
      simp [cmpHolds]

omit agrees in
theorem sound_const (truth : Option Bool) : Sound settings column known (.const truth) := by
  intro inferNullsAs accessMethod pci run _
  rw [pciIntervalFromScalarExpr] at run
  split at run
  · rename_i isTrue
    obtain ⟨-, whole⟩ := Option.ite_none_right_eq_some.mp (Option.some.inj run)
    cases whole
    refine ⟨properWhole bounds, fun bound _ value => Bound.right_of_iff ?_⟩
    rw [CScalar.truth, isTrue]
    exact iff_of_true (has_wholeInterval.mpr fun _ => rfl) (holds_some.mpr rfl)
  · rename_i notTrue
    cases run
    refine ⟨properEmpty, fun bound fits value => ?_⟩
    rw [has_pciEmpty, CScalar.truth]
    rcases truth with - | (_ | _)
    · cases bound with
      | upper =>
        intro inferred
        exact absurd (fits rfl rfl) (by simp [holds_none.mp inferred])
      | lower => exact fun has => absurd has.2 Bool.false_ne_true
    · exact Bound.right_of_iff (iff_of_false (by simp) (by simp [holds_some]))
    · exact absurd rfl notTrue

end Negated

end Leaves

/-! ### Connectives -/

section Composition
variable {D : Type} [LinearOrder D] [comp : CComparator (WithBot D)] {known : WithBot D → Prop}
  {settings : Settings} {column : CColRef D} {first child : CScalar D} {rest : List (CScalar D)}
  (agrees : comp.AgreesOn known) (bounds : column.KnownBounds known)

omit comp in
theorem truths_eq_map {value : Option D} : CScalar.truths value rest = rest.map (·.truth value) := by
  induction rest with
  | nil => rfl
  | cons child rest ih => rw [CScalar.truths, ih, List.map_cons]

omit comp in
theorem holds_boolAnd {inferNullsAs : Bool} {value : Option D} :
    Holds inferNullsAs (CScalar.truth value (.boolAnd first rest)) ↔
      ∀ child ∈ first :: rest, Holds inferNullsAs (child.truth value) := by
  rw [CScalar.truth, holds_conj, truths_eq_map]
  simp

omit comp in
theorem holds_boolOr {inferNullsAs : Bool} {value : Option D} :
    Holds inferNullsAs (CScalar.truth value (.boolOr first rest)) ↔
      ∃ child ∈ first :: rest, Holds inferNullsAs (child.truth value) := by
  rw [CScalar.truth, holds_disj, truths_eq_map]
  simp

omit comp in
theorem known_child {accessMethod : EmdindexType}
    (all : ∀ d ∈ datumsAll settings column accessMethod (first :: rest), known d)
    (listed : child ∈ first :: rest) (converts : fConverts settings column accessMethod child = true) :
    ∀ d ∈ datums settings column accessMethod child, known d :=
  fun d mem => all d (mem_datumsAll listed converts mem)

theorem fConverts_of_derived {inferNullsAs : Bool} {accessMethod : EmdindexType}
    {pci : RangeInterval D}
    (run : pciIntervalFromScalarExpr settings column inferNullsAs accessMethod child =
      some (some pci)) : fConverts settings column accessMethod child = true :=
  (isSome_derived inferNullsAs accessMethod child run).symm

omit comp in
theorem unknownTest_cases {pci : RangeInterval D}
    (run : pciIntervalFromScalarNullAndUnknownTest child = some pci) :
    ∃ type, child = .ident type ∧ pci = pciEmpty true := by
  cases child with
  | ident type =>
    cases run
    exact ⟨type, rfl, rfl⟩
  | _ => cases run

include agrees

theorem sound_boolAnd (children : ∀ child ∈ first :: rest, Sound settings column known child) :
    Sound settings column known (.boolAnd first rest) := by
  intro inferNullsAs accessMethod pci run all
  have parts : ∀ child ∈ first :: rest, ∀ p, pciIntervalFromScalarExpr settings column
      inferNullsAs accessMethod child = some (some p) → _ := fun child listed p derived =>
    children child listed inferNullsAs accessMethod p derived
      (known_child all listed (fConverts_of_derived derived))
  obtain ⟨proper, derivable, has⟩ :=
    boolAnd_spec agrees run fun child listed p derived => (parts child listed p derived).1
  refine ⟨proper, fun bound fits value => ?_⟩
  have fitting := @conjunctsFit_iff D _ settings column bound inferNullsAs accessMethod
    (first :: rest) |>.mp fits
  cases bound with
  | upper =>
    intro holds
    refine (has value).mpr fun child listed p derived => ?_
    have fit := (fitting child listed).1 (fConverts_of_derived derived)
    exact (parts child listed p derived).2 .upper fit value (holds_boolAnd.mp holds child listed)
  | lower =>
    intro inside
    refine holds_boolAnd.mpr fun child listed => ?_
    obtain ⟨d, derived⟩ := derivable child listed
    have converts := (fitting child listed).2 rfl
    -- A conjunct that converts has an interval, so none has been left out.
    obtain ⟨p, rfl⟩ := Option.isSome_iff_exists.mp ((isSome_derived _ _ child derived).trans converts)
    exact (parts child listed p derived).2 .lower ((fitting child listed).1 converts) value
      ((has value).mp inside child listed p derived)

theorem sound_boolOr (children : ∀ child ∈ first :: rest, Sound settings column known child) :
    Sound settings column known (.boolOr first rest) := by
  intro inferNullsAs accessMethod pci run all
  have parts : ∀ child ∈ first :: rest, ∀ p, pciIntervalFromScalarExpr settings column
      inferNullsAs accessMethod child = some (some p) → _ := fun child listed p derived =>
    children child listed inferNullsAs accessMethod p derived
      (known_child all listed (fConverts_of_derived derived))
  obtain ⟨proper, derivable, has⟩ :=
    boolOr_spec agrees run fun child listed p derived => (parts child listed p derived).1
  refine ⟨proper, fun bound fits value => ?_⟩
  have fitting := @disjunctsFit_iff D _ settings column bound inferNullsAs accessMethod
    (first :: rest) |>.mp fits
  cases bound with
  | upper =>
    intro holds
    obtain ⟨child, listed, counts⟩ := holds_boolOr.mp holds
    obtain ⟨p, derived⟩ := derivable child listed
    exact (has value).mpr ⟨child, listed, p, derived,
      (parts child listed p derived).2 .upper (fitting child listed) value counts⟩
  | lower =>
    intro inside
    obtain ⟨child, listed, p, derived, holds⟩ := (has value).mp inside
    exact holds_boolOr.mpr ⟨child, listed,
      (parts child listed p derived).2 .lower (fitting child listed) value holds⟩

include bounds

theorem right_not {expr : CScalar D} {inferNullsAs childInfers : Bool} {result : RangeInterval D}
    (sound : Sound settings column known child)
    (run : pciNot column (pciIntervalFromScalarExpr settings column childInfers .emdindSentinel
      child) = some (some result))
    (all : ∀ d ∈ datums settings column .emdindSentinel child, known d)
    (turns : ∀ value, Holds inferNullsAs (expr.truth value) ↔
      ¬ Holds childInfers (child.truth value)) :
    result.Proper known ∧ ∀ bound : Bound,
      Fits settings column bound.flip childInfers .emdindSentinel child →
        ∀ value, bound.Right (result.Has value) (Holds inferNullsAs (expr.truth value)) := by
  have part := fun p derived => sound childInfers .emdindSentinel p derived all
  obtain ⟨p, derived, proper, has⟩ := pciNot_spec agrees bounds run fun p derived =>
    (part p derived).1
  refine ⟨proper, fun bound fits value => ?_⟩
  have right := (part p derived).2 bound.flip fits value
  exact right.not.congr (has value) (turns value)

theorem sound_boolNot (sound : Sound settings column known child) :
    Sound settings column known (.boolNot child) := by
  intro inferNullsAs accessMethod pci run all
  rw [pciIntervalFromScalarExpr] at run
  exact right_not agrees bounds sound run all fun value => holds_neg

theorem sound_booleanTest (test : EBoolTest) (sound : Sound settings column known child) :
    Sound settings column known (.booleanTest test child) := by
  intro inferNullsAs accessMethod pci run all
  cases test with
  | isTrue =>
    rw [pciIntervalFromScalarExpr] at run
    obtain ⟨proper, right⟩ := sound false .emdindSentinel pci run all
    refine ⟨proper, fun bound fits value => (right bound fits value).congr Iff.rfl ?_⟩
    simp [CScalar.truth, holds_some, EBoolTest.holds, holds_false_iff]
  | isNotFalse =>
    rw [pciIntervalFromScalarExpr] at run
    obtain ⟨proper, right⟩ := sound true .emdindSentinel pci run all
    refine ⟨proper, fun bound fits value => (right bound fits value).congr Iff.rfl ?_⟩
    simp [CScalar.truth, holds_some, EBoolTest.holds, holds_true_iff]
  | isNotTrue =>
    rw [pciIntervalFromScalarExpr] at run
    refine right_not agrees bounds sound run all fun value => ?_
    simp [CScalar.truth, holds_some, EBoolTest.holds, holds_false_iff]
  | isFalse =>
    rw [pciIntervalFromScalarExpr] at run
    refine right_not agrees bounds sound run all fun value => ?_
    simp [CScalar.truth, holds_some, EBoolTest.holds, holds_true_iff]
  | isUnknown =>
    rw [pciIntervalFromScalarExpr] at run
    obtain ⟨type, rfl, rfl⟩ := unknownTest_cases (Option.some.inj run)
    refine ⟨properEmpty, fun bound _ value => Bound.right_of_iff ?_⟩
    rw [has_pciEmpty]
    cases value <;> simp [CScalar.truth, holds_some, EBoolTest.holds]
  | isNotUnknown =>
    rw [pciIntervalFromScalarExpr] at run
    have proper : ∀ p, some (pciIntervalFromScalarNullAndUnknownTest child) = some (some p) →
        p.Proper known := by
      intro p derived
      obtain ⟨-, -, rfl⟩ := unknownTest_cases (Option.some.inj derived)
      exact properEmpty
    obtain ⟨p, derived, built, has⟩ := pciNot_spec agrees bounds run proper
    obtain ⟨type, rfl, rfl⟩ := unknownTest_cases (Option.some.inj derived)
    refine ⟨built, fun bound _ value => Bound.right_of_iff ?_⟩
    rw [has, has_pciEmpty]
    cases value <;> simp [CScalar.truth, holds_some, EBoolTest.holds]

end Composition

section Whole
variable {D : Type} [LinearOrder D] [comp : CComparator (WithBot D)] {known : WithBot D → Prop}
  {settings : Settings} {column : CColRef D}

mutual

theorem sound_expr (agrees : comp.AgreesOn known) (bounds : column.KnownBounds known) :
    (expr : CScalar D) → Sound settings column known expr
  | .nullTest => sound_nullTest
  | .booleanTest test child =>
    sound_booleanTest agrees bounds test (sound_expr agrees bounds child)
  | .boolAnd first rest => sound_boolAnd agrees
    (List.forall_mem_cons.mpr ⟨sound_expr agrees bounds first, sound_exprs agrees bounds rest⟩)
  | .boolOr first rest => sound_boolOr agrees
    (List.forall_mem_cons.mpr ⟨sound_expr agrees bounds first, sound_exprs agrees bounds rest⟩)
  | .boolNot child => sound_boolNot agrees bounds (sound_expr agrees bounds child)
  | .ident type => sound_ident type
  | .cmp mdidOp cmpType constant => sound_cmp mdidOp cmpType constant
  | .isDistinctFrom constant => sound_isDistinctFrom agrees bounds constant
  | .const truth => sound_const bounds truth
  | .arrayCmp quantifier cmpType elements => sound_arrayCmp agrees quantifier cmpType elements
  | .other truth => by
    intro inferNullsAs accessMethod pci run _
    rw [pciIntervalFromScalarExpr] at run
    cases run

theorem sound_exprs (agrees : comp.AgreesOn known) (bounds : column.KnownBounds known) :
    (children : List (CScalar D)) → ∀ child ∈ children, Sound settings column known child
  | [] => fun _ listed => absurd listed List.not_mem_nil
  | child :: rest =>
    List.forall_mem_cons.mpr ⟨sound_expr agrees bounds child, sound_exprs agrees bounds rest⟩

end

/-- The datums that the derivation compares: the constants of the parts that convert, and the ends
of the universe of a boolean column. -/
def Compared (settings : Settings) (column : CColRef D) (accessMethod : EmdindexType)
    (expr : CScalar D) (d : WithBot D) : Prop :=
  d ∈ datums settings column accessMethod expr ∨
    ∃ type ∈ column.boolType, d = type.fls ∨ d = type.tru

/-- A conjunct that does not convert makes the negation of the conjunction lose every value of the
other conjunct for which it is FALSE. -/
theorem dropped_conjunct_excludes {part : CScalar D} {p : RangeInterval D} {value : Option D}
    (agrees : comp.AgreesOn known) (bounds : column.KnownBounds known)
    (constrainable : column.constrainable = true) (proper : p.Proper known) (has : p.Has value)
    (derived : pciIntervalFromScalarExpr settings column true .emdindSentinel part =
      some (some p)) (accessMethod : EmdindexType) :
    ∃ pci, pciIntervalFromScalarExpr settings column false accessMethod
        (.boolNot (.boolAnd part [.other fun _ => some false])) = some (some pci) ∧
      CScalar.truth value (.boolNot (.boolAnd part [.other fun _ => some false])) = some true ∧
      ¬ pci.Has value := by
  have whole : p.pciComplement column =
      some ((wholeInterval column true).toRangeInterval.pciDifference p) := by
    rw [RangeInterval.pciComplement, pciUnbounded, if_pos constrainable]
    rfl
  refine ⟨(wholeInterval column true).toRangeInterval.pciDifference p, ?_, ?_, ?_⟩
  · rw [pciIntervalFromScalarExpr, Bool.not_false, pciIntervalFromScalarExpr, derived]
    simp only [pciIntervalFromScalarBoolAnd, pciIntervalFromScalarExpr, pciAnd, pciNot, whole]
    rfl
  · rw [CScalar.truth, CScalar.truth, conj_of_mem_false]
    · rfl
    · simp [CScalar.truths, CScalar.truth]
  · rw [(pciComplement_spec agrees bounds proper whole).2]
    exact not_not_intro has

end Whole

section Excluded

/-- A column of a type without a special universe, such as an integer. -/
def plainColumn {D : Type} [LinearOrder D] : CColRef D := ⟨true, none⟩

def plainSettings : Settings := ⟨true, false, fun _ _ => true⟩

/-- `NOT (x = 1 AND other)`, where the other conjunct is FALSE and cannot be converted. -/
def negatedConjunction : CScalar ℕ :=
  .boolNot (.boolAnd (.cmp 0 .ecmptEq (some 1)) [.other fun _ => some false])

example : ∃ pci, pciIntervalFromScalarExpr plainSettings plainColumn false .emdindSentinel
      (.arrayCmp .any .ecmptNEq [some 1, some 2] : CScalar ℕ) = some (some pci) ∧
    CScalar.truth (some 1) (.arrayCmp .any .ecmptNEq [some 1, some 2]) = some true ∧
    ¬ pci.Has (some 1) :=
  ⟨_, rfl, rfl, by decide⟩

end Excluded

section Doubles

/-- The comparator of `float4`, `float8` and `numeric`: datums within `CStatistics::Epsilon` are
equal, and NULL is below all of them. -/
@[reducible] def doubleComparator : CComparator (WithBot ℚ) where
  equals a b :=
    match constantOf a, constantOf b with
    | none, none => true
    | some a, some b => |a - b| ≤ 1 / 100000
    | _, _ => false
  isLessThan a b :=
    match constantOf a, constantOf b with
    | none, some _ => true
    | some a, some b => 1 / 100000 < b - a
    | _, none => false

/-- `NOT (x >= 1 AND x < 2) OR (x IN (3, NULL) AND other)`. -/
def outsideOrListed : CScalar ℚ :=
  .boolOr (.boolNot (.boolAnd (.cmp 0 .ecmptGEq (some 1)) [.cmp 1 .ecmptL (some 2)]))
    [.boolAnd (.arrayCmp .any .ecmptEq [some 3, none]) [.other fun _ => some true]]

example : @pciIntervalFromScalarExpr ℚ _ doubleComparator plainSettings plainColumn false
      .emdindSentinel (.boolAnd (.cmp 0 .ecmptG (some 1.000001)) [.cmp 1 .ecmptL (some 1.000002)]) =
    some (some (pciEmpty false)) := by
  decide +kernel

end Doubles

end Constraints
