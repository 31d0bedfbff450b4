import Tuuli.ConstraintObjects
import Tuuli.IntervalSoundness

/-!
A range and the comparisons it is turned into. What they are converted back to has all values of
the range, and no others if all of them are converted. NULL constants stand for the NULL datum
here, as the comparisons of ranges take them. Lists of expressions are joined by `PexprConjDisj`.
-/
namespace Constraints
open OrderedSpans
open ScalarExpr (EArrCmpType)

section Lists
variable {D : Type} [LinearOrder D] {fConj : Bool} {exprs final : List (CScalar D)} {e : CScalar D}

theorem eq_const {b : Bool} (isConst : constValue e = some b) : e = .const (some b) := by
  cases e with
  | const truth =>
    cases isConst
    rfl
  | _ => cases isConst

def joined (fConj : Bool) : List (CScalar D) → CScalar D
  | [] => .const (some fConj)
  | [only] => only
  | first :: rest => if fConj then .boolAnd first rest else .boolOr first rest

def kept (fConj : Bool) (exprs : List (CScalar D)) : List (CScalar D) :=
  exprs.filter fun e => constValue e ≠ some fConj

theorem mem_kept : e ∈ kept fConj exprs ↔ e ∈ exprs ∧ constValue e ≠ some fConj := by
  rw [kept, List.mem_filter, decide_eq_true_iff]

theorem pexprConjDisj_cases :
    (.const (some (!fConj)) ∈ exprs ∧ pexprConjDisj fConj exprs final = .const (some (!fConj))) ∨
      pexprConjDisj fConj exprs final = joined fConj (final ++ kept fConj exprs) := by
  induction exprs generalizing final with
  | nil =>
    right
    rw [kept, List.filter_nil, List.append_nil]
    match final with
    | [] => rfl
    | [only] => rfl
    | first :: second :: rest => rfl
  | cons e rest ih =>
    rw [pexprConjDisj]
    split
    · rename_i skipped
      rw [kept, List.filter_cons_of_neg (by simp [skipped])]
      rcases @ih final with ⟨listed, result⟩ | result
      · exact .inl ⟨List.mem_cons_of_mem e listed, result⟩
      · exact .inr result
    · rename_i other
      split
      · rename_i decides
        exact .inl ⟨eq_const decides ▸ List.mem_cons_self, rfl⟩
      · rw [kept, List.filter_cons_of_pos (by simp [other])]
        rcases @ih (final ++ [e]) with ⟨listed, result⟩ | result
        · exact .inl ⟨List.mem_cons_of_mem e listed, result⟩
        · right
          rw [result, List.append_assoc]
          rfl

theorem pexprConjDisj_decided (decides : .const (some (!fConj)) ∈ exprs) :
    pexprConjDisj fConj exprs final = .const (some (!fConj)) := by
  induction exprs generalizing final with
  | nil => exact absurd decides List.not_mem_nil
  | cons e rest ih =>
    rw [pexprConjDisj]
    rcases List.mem_cons.mp decides with rfl | later
    · rw [constValue, if_neg (by simp), if_pos rfl]
    · split
      · exact ih later
      · split
        · rfl
        · exact ih later

variable {settings : Settings} {column : CColRef D} {known : WithBot D → Prop}

theorem fConverts_disj
    (all : ∀ e ∈ exprs, fConverts settings column .emdindSentinel e = true) :
    fConverts settings column .emdindSentinel (pexprConjDisj false exprs []) = true := by
  rcases @pexprConjDisj_cases D _ false exprs [] with ⟨listed, result⟩ | result
  · rw [result]
    exact all _ listed
  rw [result, List.nil_append]
  have remaining : ∀ e ∈ kept false exprs, fConverts settings column .emdindSentinel e = true :=
    fun e mem => all e (mem_kept.mp mem).1
  revert remaining
  generalize kept false exprs = rest
  intro remaining
  match rest with
  | [] => rfl
  | [only] => exact remaining only (List.mem_singleton_self only)
  | first :: second :: rest => exact (@fAllConvert_iff D _ settings column _ _).mpr remaining

theorem datums_joined
    (all : ∀ e ∈ exprs, ∀ d ∈ datums settings column .emdindSentinel e, known d) :
    ∀ d ∈ datums settings column .emdindSentinel (joined fConj exprs), known d := by
  have several : ∀ children : List (CScalar D), (∀ e ∈ children, e ∈ exprs) →
      ∀ d ∈ datumsAll settings column .emdindSentinel children, known d := by
    intro children listed
    induction children with
    | nil => exact fun d mem => absurd mem List.not_mem_nil
    | cons e rest ih =>
      obtain ⟨here, later⟩ := List.forall_mem_cons.mp listed
      intro d mem
      rcases List.mem_append.mp mem with first | second
      · split at first
        · exact all e here d first
        · exact absurd first List.not_mem_nil
      · exact ih later d second
  match exprs with
  | [] => exact fun d mem => absurd mem List.not_mem_nil
  | [only] => exact all only (List.mem_singleton_self only)
  | first :: second :: rest =>
    cases fConj with
    | true => exact several (first :: second :: rest) fun _ => id
    | false => exact several (first :: second :: rest) fun _ => id

theorem datums_pexprConjDisj
    (all : ∀ e ∈ exprs, ∀ d ∈ datums settings column .emdindSentinel e, known d) :
    ∀ d ∈ datums settings column .emdindSentinel (pexprConjDisj fConj exprs []), known d := by
  rcases @pexprConjDisj_cases D _ fConj exprs [] with ⟨-, result⟩ | result
  · rw [result]
    exact fun d mem => absurd mem List.not_mem_nil
  · rw [result]
    exact datums_joined fun e mem => all e (mem_kept.mp mem).1

mutual

/-- Every part of the expression converts. -/
def fComplete (settings : Settings) (column : CColRef D) : CScalar D → Bool
  | .boolAnd first rest | .boolOr first rest =>
    fComplete settings column first && fAllComplete settings column rest
  | .boolNot child => fComplete settings column child
  | expr => fConverts settings column .emdindSentinel expr

def fAllComplete (settings : Settings) (column : CColRef D) : List (CScalar D) → Bool
  | [] => true
  | child :: rest => fComplete settings column child && fAllComplete settings column rest

end

theorem fAllComplete_iff : fAllComplete settings column exprs = true ↔
    ∀ e ∈ exprs, fComplete settings column e = true := by
  induction exprs with
  | nil => simp [fAllComplete]
  | cons e rest ih => simp [fAllComplete, ih]

mutual

theorem fConverts_of_fComplete : (e : CScalar D) → fComplete settings column e = true →
    fConverts settings column .emdindSentinel e = true
  | .boolAnd first rest, complete => by
    rw [fComplete, Bool.and_eq_true] at complete
    rw [fConverts, fConverts_of_fComplete first complete.1, Bool.true_or]
  | .boolOr first rest, complete => by
    rw [fComplete, Bool.and_eq_true] at complete
    rw [fConverts, fConverts_of_fComplete first complete.1,
      fAllConvert_of_fAllComplete rest complete.2, Bool.true_and]
  | .boolNot child, complete => by
    rw [fComplete] at complete
    rw [fConverts, fConverts_of_fComplete child complete]
  | .ident _, complete => by rwa [fComplete] at complete <;> nofun
  | .const _, complete => by rwa [fComplete] at complete <;> nofun
  | .cmp _ _ _, complete => by rwa [fComplete] at complete <;> nofun
  | .isDistinctFrom _, complete => by rwa [fComplete] at complete <;> nofun
  | .arrayCmp _ _ _, complete => by rwa [fComplete] at complete <;> nofun
  | .nullTest, complete => by rwa [fComplete] at complete <;> nofun
  | .booleanTest _ _, complete => by rwa [fComplete] at complete <;> nofun
  | .other _, complete => by rwa [fComplete] at complete <;> nofun

theorem fAllConvert_of_fAllComplete : (exprs : List (CScalar D)) →
    fAllComplete settings column exprs = true →
    fAllConvert settings column .emdindSentinel exprs = true
  | [], _ => rfl
  | e :: rest, complete => by
    rw [fAllComplete, Bool.and_eq_true] at complete
    rw [fAllConvert, fConverts_of_fComplete e complete.1,
      fAllConvert_of_fAllComplete rest complete.2, Bool.true_and]

end

end Lists

section Combining
variable {D : Type} [LinearOrder D] [comp : CComparator (WithBot D)] {known : WithBot D → Prop}
  {settings : Settings} {column : CColRef D} {inferNullsAs : Bool} {p : RangeInterval D}
  {e : CScalar D} {exprs : List (CScalar D)} {value : Option D}

/-- What the constructors of constraints convert a scalar expression to. -/
abbrev converted (settings : Settings) (column : CColRef D) (inferNullsAs : Bool)
    (e : CScalar D) : Derived D :=
  pciIntervalFromScalarExpr settings column inferNullsAs .emdindSentinel e

theorem converted_true (constrainable : column.constrainable = true) :
    converted settings column inferNullsAs (.const (some true)) =
      some (some (wholeInterval column true).toRangeInterval) := by
  rw [converted, pciIntervalFromScalarExpr, if_pos rfl, pciUnbounded, if_pos constrainable]

theorem has_of_converted_true
    (run : converted settings column inferNullsAs (.const (some true)) = some (some p)) :
    p.Has value := by
  rw [converted, pciIntervalFromScalarExpr, if_pos rfl] at run
  obtain ⟨-, whole⟩ := Option.ite_none_right_eq_some.mp (Option.some.inj run)
  cases whole
  exact has_wholeInterval.mpr fun _ => rfl

omit comp in
/-- The parts of a list whose joined expression converts as a whole do, unless one of them decides
the result. -/
theorem fComplete_parts {fConj : Bool} (constrainable : column.constrainable = true)
    (complete : fComplete settings column (pexprConjDisj fConj exprs []) = true) :
    .const (some (!fConj)) ∈ exprs ∨ ∀ e ∈ exprs, fComplete settings column e = true := by
  rcases @pexprConjDisj_cases D _ fConj exprs [] with ⟨listed, -⟩ | result
  · exact .inl listed
  right
  intro e member
  by_cases skipped : constValue e = some fConj
  · rw [eq_const skipped]
    simp [fComplete, fConverts, constrainable]
  have remains : e ∈ kept fConj exprs := mem_kept.mpr ⟨member, skipped⟩
  rw [result, List.nil_append] at complete
  revert complete remains
  generalize kept fConj exprs = rest
  intro complete remains
  match rest with
  | [] => exact absurd remains List.not_mem_nil
  | [only] =>
    rw [List.mem_singleton.mp remains]
    exact complete
  | first :: second :: rest =>
    refine (@fAllComplete_iff D _ (first :: second :: rest) settings column).mp ?_ e remains
    cases fConj with
    | true => exact complete
    | false => exact complete

omit comp in
theorem not_has_pciEmpty : ¬ (pciEmpty false : RangeInterval D).Has value := by
  rw [has_pciEmpty]
  simp

theorem converted_false : converted settings column inferNullsAs (.const (some false) : CScalar D) =
    some (some (pciEmpty false)) := by
  rw [converted, pciIntervalFromScalarExpr, if_neg (by simp)]

theorem not_has_of_converted_false
    (run : converted settings column inferNullsAs (.const (some false)) = some (some p)) :
    ¬ p.Has value := by
  rw [converted_false] at run
  cases run
  exact not_has_pciEmpty

variable (agrees : comp.AgreesOn known) (bounds : column.KnownBounds known)

include agrees bounds

theorem proper_converted (all : ∀ d ∈ datums settings column .emdindSentinel e, known d)
    (run : converted settings column inferNullsAs e = some (some p)) : p.Proper known :=
  (sound_expr agrees bounds e inferNullsAs .emdindSentinel p run all).1

variable (all : ∀ e ∈ exprs, ∀ d ∈ datums settings column .emdindSentinel e, known d)

include all

theorem has_conj
    (run : converted settings column inferNullsAs (pexprConjDisj true exprs []) = some (some p))
    (parts : ∀ e ∈ exprs, ∀ q, converted settings column inferNullsAs e = some (some q) →
      q.Has value) : p.Has value := by
  rcases @pexprConjDisj_cases D _ true exprs [] with ⟨listed, -⟩ | result
  · exact absurd (parts _ listed _ converted_false) not_has_pciEmpty
  rw [result, List.nil_append] at run
  have listed : ∀ e ∈ kept true exprs, e ∈ exprs := fun e mem => (mem_kept.mp mem).1
  revert run listed
  generalize kept true exprs = rest
  intro run listed
  match rest with
  | [] => exact has_of_converted_true run
  | [only] => exact parts only (listed only (List.mem_singleton_self only)) p run
  | first :: second :: rest =>
    obtain ⟨-, -, has⟩ := boolAnd_spec agrees run fun child mem q derived =>
      proper_converted agrees bounds (all child (listed child mem)) derived
    exact (has value).mpr fun child mem q derived => parts child (listed child mem) q derived

theorem has_disj
    (run : converted settings column inferNullsAs (pexprConjDisj false exprs []) = some (some p))
    (member : e ∈ exprs)
    (part : ∀ q, converted settings column inferNullsAs e = some (some q) → q.Has value) :
    p.Has value := by
  rcases @pexprConjDisj_cases D _ false exprs [] with ⟨-, result⟩ | result
  · rw [result] at run
    exact has_of_converted_true run
  have remains : e ∈ kept false exprs := by
    refine mem_kept.mpr ⟨member, fun isFalse => ?_⟩
    rw [eq_const isFalse] at part
    exact not_has_pciEmpty (part _ converted_false)
  rw [result, List.nil_append] at run
  have listed : ∀ e ∈ kept false exprs, e ∈ exprs := fun e mem => (mem_kept.mp mem).1
  revert run listed remains
  generalize kept false exprs = rest
  intro run remains listed
  match rest with
  | [] => exact absurd remains List.not_mem_nil
  | [only] =>
    rw [List.mem_singleton.mp remains] at part
    exact part p run
  | first :: second :: rest =>
    obtain ⟨-, derivable, has⟩ := boolOr_spec agrees run fun child mem q derived =>
      proper_converted agrees bounds (all child (listed child mem)) derived
    obtain ⟨q, derived⟩ := derivable e remains
    exact (has value).mpr ⟨e, remains, q, derived, part q derived⟩

variable (constrainable : column.constrainable = true)

include constrainable

theorem exists_of_has_conj
    (run : converted settings column inferNullsAs (pexprConjDisj true exprs []) = some (some p))
    (complete : fComplete settings column (pexprConjDisj true exprs []) = true)
    (has : p.Has value) (member : e ∈ exprs) :
    fComplete settings column e = true ∧
      ∃ q, converted settings column inferNullsAs e = some (some q) ∧ q.Has value := by
  rcases @pexprConjDisj_cases D _ true exprs [] with ⟨-, result⟩ | result
  · rw [result] at run
    exact absurd has (not_has_of_converted_false run)
  by_cases skipped : constValue e = some true
  · rw [eq_const skipped]
    refine ⟨by simp [fComplete, fConverts, constrainable], _, converted_true constrainable, ?_⟩
    exact has_wholeInterval.mpr fun _ => rfl
  have remains : e ∈ kept true exprs := mem_kept.mpr ⟨member, skipped⟩
  rw [result, List.nil_append] at run complete
  have listed : ∀ e ∈ kept true exprs, e ∈ exprs := fun e mem => (mem_kept.mp mem).1
  revert run complete listed remains
  generalize kept true exprs = rest
  intro run complete remains listed
  match rest with
  | [] => exact absurd remains List.not_mem_nil
  | [only] =>
    rw [List.mem_singleton.mp remains]
    exact ⟨complete, p, run, has⟩
  | first :: second :: rest =>
    obtain ⟨-, derivable, has_iff⟩ := boolAnd_spec agrees run fun child mem q derived =>
      proper_converted agrees bounds (all child (listed child mem)) derived
    have whole : fComplete settings column e = true :=
      (@fAllComplete_iff D _ (first :: second :: rest) settings column).mp complete e remains
    obtain ⟨d, derived⟩ := derivable e remains
    have isSome := (isSome_derived _ _ e derived).trans (fConverts_of_fComplete e whole)
    obtain ⟨q, rfl⟩ := Option.isSome_iff_exists.mp isSome
    exact ⟨whole, q, derived, (has_iff value).mp has e remains q derived⟩

theorem exists_of_has_disj
    (run : converted settings column inferNullsAs (pexprConjDisj false exprs []) = some (some p))
    (complete : fComplete settings column (pexprConjDisj false exprs []) = true)
    (has : p.Has value) :
    ∃ e ∈ exprs, fComplete settings column e = true ∧
      ∃ q, converted settings column inferNullsAs e = some (some q) ∧ q.Has value := by
  rcases @pexprConjDisj_cases D _ false exprs [] with ⟨listed, -⟩ | result
  · refine ⟨_, listed, by simp [fComplete, fConverts, constrainable], _,
      converted_true constrainable, ?_⟩
    exact has_wholeInterval.mpr fun _ => rfl
  rw [result, List.nil_append] at run complete
  have listed : ∀ e ∈ kept false exprs, e ∈ exprs := fun e mem => (mem_kept.mp mem).1
  revert run complete listed
  generalize kept false exprs = rest
  intro run complete listed
  match rest with
  | [] => exact absurd has (not_has_of_converted_false run)
  | [only] => exact ⟨only, listed only (List.mem_singleton_self only), complete, p, run, has⟩
  | first :: second :: rest =>
    obtain ⟨-, -, has_iff⟩ := boolOr_spec agrees run fun child mem q derived =>
      proper_converted agrees bounds (all child (listed child mem)) derived
    obtain ⟨child, mem, q, derived, inside⟩ := (has_iff value).mp has
    have whole := (@fAllComplete_iff D _ (first :: second :: rest) settings column).mp complete
    exact ⟨child, listed child mem, whole child mem, q, derived, inside⟩

end Combining

section Comparisons
variable {D : Type} [LinearOrder D] [comp : CComparator (WithBot D)] {known : WithBot D → Prop}
  {settings : Settings} {column : CColRef D} {inferNullsAs : Bool} {q : RangeInterval D}
  {cmpOp : ECmpType → Option D → Option ℕ} {cmpType : ECmpType} {d : WithBot D} {v : D}

omit [LinearOrder D] comp in
theorem datum_constantOf (d : WithBot D) : datum (constantOf d) = d := by
  induction d using WithBot.recBotCoe with
  | bot => rfl
  | coe d => rfl

omit [LinearOrder D] comp in
theorem constantOf_eq_some : constantOf d = some v ↔ d = v := by
  induction d using WithBot.recBotCoe with
  | bot => exact iff_of_false nofun WithBot.bot_ne_coe
  | coe d => exact Option.some_inj.trans WithBot.coe_inj.symm

theorem converted_scalarCmp
    (run : converted settings column inferNullsAs (pexprScalarCmp cmpOp cmpType d) =
      some (some q)) : q = pciIntervalFromColConstCmp cmpType (constantOf d) inferNullsAs := by
  unfold pexprScalarCmp at run
  split at run
  · rw [converted, pciIntervalFromScalarExpr] at run
    split at run
    · cases run
    · cases run
      rfl
  · rw [converted, pciIntervalFromScalarExpr] at run
    cases run

theorem has_scalarCmp
    (run : converted settings column inferNullsAs (pexprScalarCmp cmpOp cmpType d) =
      some (some q)) : q.Has (some v) ↔ cmpHolds cmpType (v : WithBot D) d = true := by
  rw [converted_scalarCmp run, has_colConstCmp, datum_constantOf]

omit comp in
theorem datums_scalarCmp (isKnown : known d) :
    ∀ x ∈ datums settings column .emdindSentinel (pexprScalarCmp cmpOp cmpType d), known x := by
  unfold pexprScalarCmp
  split
  · intro x only
    rw [List.mem_singleton.mp only, datum_constantOf]
    exact isKnown
  · exact fun x mem => absurd mem List.not_mem_nil

end Comparisons

section Ranges
variable {D : Type} [LinearOrder D] [comp : CComparator (WithBot D)] {known : WithBot D → Prop}
  {settings : Settings} {column : CColRef D} {inferNullsAs : Bool} {q : RangeInterval D}
  {cmpOp : ECmpType → Option D → Option ℕ} {range : CRange (WithBot D)} {v : D}

/-- The comparisons with the ends of a range. -/
def endComparisons (cmpOp : ECmpType → Option D → Option ℕ) (range : CRange (WithBot D)) :
    List (CScalar D) :=
  (pexprScalarCompEnd cmpOp range.left range.eriLeft .ecmptGEq .ecmptG).toList ++
    (pexprScalarCompEnd cmpOp range.right range.eriRight .ecmptLEq .ecmptL).toList

def ERangeInclusion.cmp (eri : ERangeInclusion) (included excluded : ECmpType) : ECmpType :=
  if eri = .eriIncluded then included else excluded

omit comp in
theorem mem_endComparisons {e : CScalar D} : e ∈ endComparisons cmpOp range ↔
    (∃ d, range.left = some d ∧ e = pexprScalarCmp cmpOp (range.eriLeft.cmp .ecmptGEq .ecmptG) d) ∨
      ∃ d, range.right = some d ∧
        e = pexprScalarCmp cmpOp (range.eriRight.cmp .ecmptLEq .ecmptL) d := by
  simp only [endComparisons, List.mem_append, Option.mem_toList, pexprScalarCompEnd,
    Option.map_eq_some_iff, ERangeInclusion.cmp, eq_comm]

omit comp in
theorem range_has_iff : range.Has (v : WithBot D) ↔
    (∀ d, range.left = some d →
      cmpHolds (range.eriLeft.cmp .ecmptGEq .ecmptG) (v : WithBot D) d = true) ∧
    ∀ d, range.right = some d →
      cmpHolds (range.eriRight.cmp .ecmptLEq .ecmptL) (v : WithBot D) d = true := by
  obtain ⟨left, eriLeft, right, eriRight⟩ := range
  cases left <;> cases right <;> cases eriLeft <;> cases eriRight <;>
    simp [CRange.Has, CRange.fAboveLeft, CRange.fBelowRight, ERangeInclusion.cmp, cmpHolds]

theorem pexprScalar_cases :
    (∃ d, range.left = some d ∧ range.fPoint = true ∧
      range.pexprScalar cmpOp = pexprScalarCmp cmpOp .ecmptEq d) ∨
    range.pexprScalar cmpOp = pexprConjDisj true (endComparisons cmpOp range) [] := by
  unfold CRange.pexprScalar
  split
  · rename_i d isLeft
    split
    · rename_i point
      exact .inl ⟨d, isLeft, point, rfl⟩
    · right
      rw [endComparisons, isLeft]
  · rename_i infinite
    right
    rw [endComparisons, infinite]
    rfl

variable (agrees : comp.AgreesOn known) (ends : range.EndsIn (KnownEnd known))

include ends

omit comp in
theorem datums_endComparisons :
    ∀ e ∈ endComparisons cmpOp range, ∀ d ∈ datums settings column .emdindSentinel e, known d := by
  intro e mem
  rcases mem_endComparisons.mp mem with ⟨d, isLeft, rfl⟩ | ⟨d, isRight, rfl⟩
  · exact datums_scalarCmp (ends.1 d isLeft)
  · exact datums_scalarCmp (ends.2 d isRight)

theorem datums_range :
    ∀ d ∈ datums settings column .emdindSentinel (range.pexprScalar cmpOp), known d := by
  rcases @pexprScalar_cases D _ comp cmpOp range with ⟨d, isLeft, -, result⟩ | result
  · rw [result]
    exact datums_scalarCmp (ends.1 d isLeft)
  · rw [result]
    exact datums_pexprConjDisj (datums_endComparisons ends)

include agrees

theorem right_eq_left_of_fPoint (point : range.fPoint = true) : range.right = range.left := by
  have same : CRange.sameEnd range.right range.left = true := (of_decide_eq_true point).2.2
  have both : (⟨range.right, .eriExcluded, range.left, .eriExcluded⟩ :
      CRange (WithBot D)).EndsIn (KnownEnd known) := ⟨ends.2, ends.1⟩
  rw [CRange.sameEnd_agrees agrees both both] at same
  exact CRange.sameEnd_iff.mp same

theorem point_has {d : WithBot D} (point : range.fPoint = true) (isLeft : range.left = some d) :
    range.Has (v : WithBot D) ↔ (v : WithBot D) = d := by
  have isRight := (right_eq_left_of_fPoint agrees ends point).trans isLeft
  obtain ⟨closedLeft, closedRight, -⟩ := of_decide_eq_true point
  simp only [CRange.Has, CRange.fAboveLeft, CRange.fBelowRight, isLeft, isRight, closedLeft,
    closedRight, decide_eq_true_eq]
  exact ⟨fun between => le_antisymm between.2 between.1, fun same => ⟨same.ge, same.le⟩⟩

variable (bounds : column.KnownBounds known)

include bounds

theorem has_of_range
    (run : converted settings column inferNullsAs (range.pexprScalar cmpOp) = some (some q))
    (inside : range.Has (v : WithBot D)) : q.Has (some v) := by
  rcases @pexprScalar_cases D _ comp cmpOp range with ⟨d, isLeft, point, result⟩ | result
  · rw [result] at run
    exact (has_scalarCmp run).mpr (decide_eq_true ((point_has agrees ends point isLeft).mp inside))
  · rw [result] at run
    obtain ⟨above, below⟩ := range_has_iff.mp inside
    refine has_conj agrees bounds (datums_endComparisons ends) run fun e mem p derived => ?_
    rcases mem_endComparisons.mp mem with ⟨d, isLeft, rfl⟩ | ⟨d, isRight, rfl⟩
    · exact (has_scalarCmp derived).mpr (above d isLeft)
    · exact (has_scalarCmp derived).mpr (below d isRight)

theorem range_of_has (constrainable : column.constrainable = true)
    (run : converted settings column inferNullsAs (range.pexprScalar cmpOp) = some (some q))
    (complete : fComplete settings column (range.pexprScalar cmpOp) = true)
    (has : q.Has (some v)) : range.Has (v : WithBot D) := by
  rcases @pexprScalar_cases D _ comp cmpOp range with ⟨d, isLeft, point, result⟩ | result
  · rw [result] at run
    exact (point_has agrees ends point isLeft).mpr
      (of_decide_eq_true ((has_scalarCmp run).mp has))
  · rw [result] at run complete
    have parts := fun e (mem : e ∈ endComparisons cmpOp range) =>
      (exists_of_has_conj agrees bounds (datums_endComparisons ends) constrainable run complete
        has mem).2
    refine range_has_iff.mpr ⟨fun d isLeft => ?_, fun d isRight => ?_⟩
    · obtain ⟨p, derived, holds⟩ := parts _ (mem_endComparisons.mpr (.inl ⟨d, isLeft, rfl⟩))
      exact (has_scalarCmp derived).mp holds
    · obtain ⟨p, derived, holds⟩ := parts _ (mem_endComparisons.mpr (.inr ⟨d, isRight, rfl⟩))
      exact (has_scalarCmp derived).mp holds

end Ranges

end Constraints
