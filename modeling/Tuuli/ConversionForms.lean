import Tuuli.IntervalDerivation

/-!
Which expressions the derivation of intervals converts and which of them it reads as they are
meant, by their form. The derivation leaves out conjuncts that it does not convert, which makes an
interval too large and, below a negation, too small; it reads `op ANY` and `op ALL` alike, drops
NULL elements, and compares with NULL as with a datum below all values.
-/
namespace Constraints
open ScalarExpr (EBoolTest EArrCmpType)

/-- An interval is to have all values that count, or none but these. -/
inductive Bound where
  | upper
  | lower
  deriving DecidableEq, Repr

namespace Bound

def flip : Bound → Bound
  | upper => lower
  | lower => upper

def Right : Bound → (has counts : Prop) → Prop
  | upper, has, counts => counts → has
  | lower, has, counts => has → counts

variable {bound : Bound} {has counts : Prop}

theorem right_of_iff (same : has ↔ counts) : bound.Right has counts := by
  cases bound with
  | upper => exact same.mpr
  | lower => exact same.mp

theorem Right.congr {has' counts' : Prop} (right : bound.Right has counts) (same : has' ↔ has)
    (counted : counts' ↔ counts) : bound.Right has' counts' := by
  rw [same, counted]
  exact right

theorem Right.not (right : bound.flip.Right has counts) : bound.Right (¬ has) (¬ counts) := by
  cases bound with
  | upper => exact fun fails is => fails (right is)
  | lower => exact fun fails is => fails (right is)

end Bound

section Forms
variable {D : Type} [LinearOrder D]

def CScalar.fIdent : CScalar D → Bool
  | .ident _ => true
  | _ => false

mutual

/-- The expression has an interval, unless the source follows a null pointer. -/
def fConverts (settings : Settings) (column : CColRef D) (accessMethod : EmdindexType) :
    CScalar D → Bool
  | .booleanTest test child =>
    match test with
    | .isUnknown | .isNotUnknown => child.fIdent
    | _ => fConverts settings column .emdindSentinel child
  | .boolAnd first rest =>
    fConverts settings column accessMethod first || fAnyConverts settings column accessMethod rest
  | .boolOr first rest =>
    fConverts settings column accessMethod first && fAllConvert settings column accessMethod rest
  | .boolNot child => fConverts settings column .emdindSentinel child
  | .cmp mdidOp _ _ =>
    !(settings.considerOpfamilies && !settings.fOpInOpfamily accessMethod mdidOp)
  | .const truth => truth ≠ some true || column.constrainable
  | .arrayCmp _ cmpType elements =>
    settings.arrayConstraints && !elements.isEmpty &&
      (cmpType = .ecmptEq || cmpType = .ecmptNEq)
  | .nullTest | .ident _ | .isDistinctFrom _ => true
  | .other _ => false

def fAnyConverts (settings : Settings) (column : CColRef D) (accessMethod : EmdindexType) :
    List (CScalar D) → Bool
  | [] => false
  | child :: rest =>
    fConverts settings column accessMethod child || fAnyConverts settings column accessMethod rest

def fAllConvert (settings : Settings) (column : CColRef D) (accessMethod : EmdindexType) :
    List (CScalar D) → Bool
  | [] => true
  | child :: rest =>
    fConverts settings column accessMethod child && fAllConvert settings column accessMethod rest

end

mutual

def datums (settings : Settings) (column : CColRef D) (accessMethod : EmdindexType) :
    CScalar D → List (WithBot D)
  | .booleanTest test child =>
    match test with
    | .isUnknown | .isNotUnknown => []
    | _ => datums settings column .emdindSentinel child
  | .boolAnd first rest | .boolOr first rest =>
    (if fConverts settings column accessMethod first then datums settings column accessMethod first
      else []) ++ datumsAll settings column accessMethod rest
  | .boolNot child => datums settings column .emdindSentinel child
  | .ident type => [type.tru]
  | .cmp _ _ constant => [datum constant]
  | .isDistinctFrom constant => nonNull [constant]
  | .arrayCmp _ _ elements => nonNull elements
  | _ => []

def datumsAll (settings : Settings) (column : CColRef D) (accessMethod : EmdindexType) :
    List (CScalar D) → List (WithBot D)
  | [] => []
  | child :: rest =>
    (if fConverts settings column accessMethod child then datums settings column accessMethod child
      else []) ++ datumsAll settings column accessMethod rest

end

/-- A comparison with NULL is never true. Its interval has all values above the NULL datum or
none. -/
def CmpFits (bound : Bound) (inferNullsAs : Bool) (cmpType : ECmpType) : Option D → Prop
  | some _ => True
  | none =>
    match bound with
    | .upper => inferNullsAs = true → cmpType ∈ [.ecmptNEq, .ecmptG, .ecmptGEq]
    | .lower => inferNullsAs = false → cmpType ∈ [.ecmptEq, .ecmptL, .ecmptLEq]

def OneValue (elements : List (Option D)) : Prop :=
  ∀ a b, some a ∈ elements → some b ∈ elements → a = b

/-- `= ANY` and `<> ALL` are IN and NOT IN but for NULL elements; `= ALL` and `<> ANY` are if the
elements are one value. -/
def ArrayFits (bound : Bound) (inferNullsAs : Bool) (elements : List (Option D)) :
    EArrCmpType → ECmpType → Prop
  | .any, .ecmptEq => bound = .upper → inferNullsAs = true → none ∉ elements
  | .all, .ecmptNEq => bound = .lower → inferNullsAs = false → none ∉ elements
  | .all, .ecmptEq =>
    match bound with
    | .upper => inferNullsAs = true → ∃ d, some d ∈ elements
    | .lower => OneValue elements ∧
      (inferNullsAs = false → none ∈ elements → ∀ d, some d ∉ elements)
  | .any, .ecmptNEq =>
    bound = .upper → OneValue elements ∧ (inferNullsAs = true → none ∉ elements)
  | _, _ => True

mutual

/-- The interval of the expression is right on one side: nothing below is left out or read
otherwise where that would move the bound the wrong way. -/
def Fits (settings : Settings) (column : CColRef D) (bound : Bound) (inferNullsAs : Bool)
    (accessMethod : EmdindexType) : CScalar D → Prop
  | .booleanTest test child =>
    match test with
    | .isTrue => Fits settings column bound false .emdindSentinel child
    | .isNotFalse => Fits settings column bound true .emdindSentinel child
    | .isNotTrue => Fits settings column bound.flip false .emdindSentinel child
    | .isFalse => Fits settings column bound.flip true .emdindSentinel child
    | .isUnknown | .isNotUnknown => True
  | .boolAnd first rest =>
    ((fConverts settings column accessMethod first = true →
        Fits settings column bound inferNullsAs accessMethod first) ∧
      (bound = .lower → fConverts settings column accessMethod first = true)) ∧
      ConjunctsFit settings column bound inferNullsAs accessMethod rest
  | .boolOr first rest =>
    Fits settings column bound inferNullsAs accessMethod first ∧
      DisjunctsFit settings column bound inferNullsAs accessMethod rest
  | .boolNot child => Fits settings column bound.flip (!inferNullsAs) .emdindSentinel child
  | .cmp _ cmpType constant => CmpFits bound inferNullsAs cmpType constant
  | .const truth => truth = none → bound = .upper → inferNullsAs = false
  | .arrayCmp quantifier cmpType elements =>
    ArrayFits bound inferNullsAs elements quantifier cmpType
  | .nullTest | .ident _ | .isDistinctFrom _ | .other _ => True

def ConjunctsFit (settings : Settings) (column : CColRef D) (bound : Bound) (inferNullsAs : Bool)
    (accessMethod : EmdindexType) : List (CScalar D) → Prop
  | [] => True
  | child :: rest =>
    ((fConverts settings column accessMethod child = true →
        Fits settings column bound inferNullsAs accessMethod child) ∧
      (bound = .lower → fConverts settings column accessMethod child = true)) ∧
      ConjunctsFit settings column bound inferNullsAs accessMethod rest

def DisjunctsFit (settings : Settings) (column : CColRef D) (bound : Bound) (inferNullsAs : Bool)
    (accessMethod : EmdindexType) : List (CScalar D) → Prop
  | [] => True
  | child :: rest =>
    Fits settings column bound inferNullsAs accessMethod child ∧
      DisjunctsFit settings column bound inferNullsAs accessMethod rest

end

variable {settings : Settings} {column : CColRef D} {bound : Bound} {inferNullsAs : Bool}
  {accessMethod : EmdindexType} {child first : CScalar D} {rest children : List (CScalar D)}

theorem fAllConvert_iff : fAllConvert settings column accessMethod children = true ↔
    ∀ child ∈ children, fConverts settings column accessMethod child = true := by
  induction children with
  | nil => simp [fAllConvert]
  | cons child rest ih => simp [fAllConvert, ih]

theorem conjunctsFit_iff :
    ConjunctsFit settings column bound inferNullsAs accessMethod children ↔
      ∀ child ∈ children, (fConverts settings column accessMethod child = true →
          Fits settings column bound inferNullsAs accessMethod child) ∧
        (bound = .lower → fConverts settings column accessMethod child = true) := by
  induction children with
  | nil => simp [ConjunctsFit]
  | cons child rest ih => simp [ConjunctsFit, ih]

theorem disjunctsFit_iff :
    DisjunctsFit settings column bound inferNullsAs accessMethod children ↔
      ∀ child ∈ children, Fits settings column bound inferNullsAs accessMethod child := by
  induction children with
  | nil => simp [DisjunctsFit]
  | cons child rest ih => simp [DisjunctsFit, ih]

theorem mem_datumsAll {d : WithBot D} (listed : child ∈ children)
    (converts : fConverts settings column accessMethod child = true)
    (mem : d ∈ datums settings column accessMethod child) :
    d ∈ datumsAll settings column accessMethod children := by
  induction children with
  | nil => exact absurd listed List.not_mem_nil
  | cons other rest ih =>
    rw [datumsAll]
    rcases List.mem_cons.mp listed with rfl | later
    · exact List.mem_append_left _ (by rwa [if_pos converts])
    · exact List.mem_append_right _ (ih later)

end Forms

section Converting
variable {D : Type} [LinearOrder D] [comp : CComparator (WithBot D)] {settings : Settings}
  {column : CColRef D}

omit [LinearOrder D] in
theorem isSome_pciAnd {pci pciChild : Option (RangeInterval D)} :
    (pciAnd pci pciChild).isSome = (pci.isSome || pciChild.isSome) := by
  cases pci <;> cases pciChild <;> rfl

theorem isSome_pciNot {derived : Derived D} {result : Option (RangeInterval D)}
    (run : pciNot column derived = some result) :
    ∃ d, derived = some d ∧ result.isSome = d.isSome := by
  unfold pciNot at run
  split at run
  · cases run
  · cases run
    exact ⟨none, rfl, rfl⟩
  · obtain ⟨complement, -, rfl⟩ := Option.map_eq_some_iff.mp run
    exact ⟨_, rfl, rfl⟩

omit [LinearOrder D] in
theorem isSome_unionRounds {fuel : ℕ} {pcis : List (RangeInterval D)} (listed : pcis ≠ []) :
    (unionRounds fuel pcis).isSome = true := by
  induction fuel generalizing pcis with
  | zero =>
    cases pcis with
    | nil => exact absurd rfl listed
    | cons pci rest => rfl
  | succ fuel ih =>
    match pcis with
    | [] => exact absurd rfl listed
    | [pci] => rfl
    | pci1 :: pci2 :: rest => exact ih (List.cons_ne_nil _ _)

omit comp in
theorem isSome_unknownTest (child : CScalar D) :
    (pciIntervalFromScalarNullAndUnknownTest child).isSome = child.fIdent := by
  cases child <;> rfl

omit [LinearOrder D] in
theorem isSome_arrayCmp {cmpType : ECmpType} {elements : List (Option D)} {inferNullsAs : Bool}
    {result : Option (RangeInterval D)}
    (run : pcnstrIntervalFromScalarArrayCmp cmpType elements inferNullsAs = some result) :
    result.isSome = (!elements.isEmpty && (cmpType = .ecmptEq || cmpType = .ecmptNEq)) := by
  unfold pcnstrIntervalFromScalarArrayCmp at run
  cases empty : elements.isEmpty with
  | true =>
    rw [if_pos empty] at run
    cases run
    rfl
  | false =>
    rw [if_neg (by simp [empty])] at run
    cases cmpType with
    | ecmptNEq =>
      dsimp only at run
      split at run
      · cases run
      · cases run
        rfl
    | _ =>
      cases run
      rfl

mutual

/-- A derivation that ends has an interval exactly if the expression is of a form that
converts. -/
theorem isSome_derived (inferNullsAs : Bool) (accessMethod : EmdindexType) (expr : CScalar D)
    {result : Option (RangeInterval D)}
    (run : pciIntervalFromScalarExpr settings column inferNullsAs accessMethod expr = some result) :
    result.isSome = fConverts settings column accessMethod expr := by
  cases expr with
  | nullTest =>
    rw [pciIntervalFromScalarExpr] at run
    cases run
    rfl
  | booleanTest test child =>
    cases test with
    | isTrue =>
      rw [pciIntervalFromScalarExpr] at run
      exact isSome_derived false _ child run
    | isNotFalse =>
      rw [pciIntervalFromScalarExpr] at run
      exact isSome_derived true _ child run
    | isNotTrue =>
      rw [pciIntervalFromScalarExpr] at run
      obtain ⟨d, derived, same⟩ := isSome_pciNot run
      exact same.trans (isSome_derived false _ child derived)
    | isFalse =>
      rw [pciIntervalFromScalarExpr] at run
      obtain ⟨d, derived, same⟩ := isSome_pciNot run
      exact same.trans (isSome_derived true _ child derived)
    | isUnknown =>
      rw [pciIntervalFromScalarExpr] at run
      cases run
      exact isSome_unknownTest child
    | isNotUnknown =>
      rw [pciIntervalFromScalarExpr] at run
      obtain ⟨d, derived, same⟩ := isSome_pciNot run
      cases derived
      exact same.trans (isSome_unknownTest child)
  | boolAnd first rest =>
    rw [pciIntervalFromScalarExpr] at run
    split at run
    · cases run
    · rename_i pci isFirst
      rw [isSome_conjuncts inferNullsAs accessMethod rest run,
        isSome_derived inferNullsAs accessMethod first isFirst]
      rfl
  | boolOr first rest =>
    rw [pciIntervalFromScalarExpr] at run
    rw [fConverts]
    split at run
    · cases run
    · rename_i isFirst
      cases run
      rw [← isSome_derived inferNullsAs accessMethod first isFirst]
      rfl
    · rename_i pci isFirst
      rw [← isSome_derived inferNullsAs accessMethod first isFirst, Option.isSome_some,
        Bool.true_and]
      split at run
      · cases run
      · rename_i isRest
        cases run
        exact isSome_disjuncts inferNullsAs accessMethod rest isRest
      · rename_i pcis isRest
        cases run
        rw [isSome_unionRounds (List.cons_ne_nil _ _)]
        exact isSome_disjuncts inferNullsAs accessMethod rest isRest
  | boolNot child =>
    rw [pciIntervalFromScalarExpr] at run
    obtain ⟨d, derived, same⟩ := isSome_pciNot run
    exact same.trans (isSome_derived _ _ child derived)
  | ident type =>
    rw [pciIntervalFromScalarExpr] at run
    cases run
    rfl
  | cmp mdidOp cmpType constant =>
    rw [pciIntervalFromScalarExpr] at run
    rw [fConverts]
    split at run
    · rename_i outside
      cases run
      rw [outside]
      rfl
    · rename_i inside
      cases run
      rw [Bool.eq_false_of_not_eq_true inside]
      rfl
  | isDistinctFrom constant =>
    rw [pciIntervalFromScalarExpr] at run
    cases constant with
    | none =>
      obtain ⟨complement, -, rfl⟩ := Option.map_eq_some_iff.mp run
      rfl
    | some d =>
      cases run
      rfl
  | const truth =>
    rw [pciIntervalFromScalarExpr] at run
    rw [fConverts]
    split at run
    · rename_i isTrue
      cases run
      rw [pciUnbounded]
      cases column.constrainable <;> simp [isTrue]
    · rename_i notTrue
      cases run
      simp [notTrue]
  | arrayCmp quantifier cmpType elements =>
    rw [pciIntervalFromScalarExpr] at run
    rw [fConverts]
    split at run
    · rename_i enabled
      rw [isSome_arrayCmp run, enabled, Bool.true_and]
    · rename_i disabled
      cases run
      rw [Bool.eq_false_of_not_eq_true disabled]
      rfl
  | other truth =>
    rw [pciIntervalFromScalarExpr] at run
    cases run
    rfl

theorem isSome_conjuncts (inferNullsAs : Bool) (accessMethod : EmdindexType)
    (children : List (CScalar D)) {pci result : Option (RangeInterval D)}
    (run : pciIntervalFromScalarBoolAnd settings column inferNullsAs accessMethod pci children =
      some result) :
    result.isSome = (pci.isSome || fAnyConverts settings column accessMethod children) := by
  cases children with
  | nil =>
    rw [pciIntervalFromScalarBoolAnd] at run
    cases run
    rw [fAnyConverts, Bool.or_false]
  | cons child rest =>
    rw [pciIntervalFromScalarBoolAnd] at run
    split at run
    · cases run
    · rename_i pciChild isChild
      rw [isSome_conjuncts inferNullsAs accessMethod rest run, isSome_pciAnd, fAnyConverts,
        ← isSome_derived inferNullsAs accessMethod child isChild, Bool.or_assoc]

theorem isSome_disjuncts (inferNullsAs : Bool) (accessMethod : EmdindexType)
    (children : List (CScalar D)) {result : Option (List (RangeInterval D))}
    (run : pciIntervalFromScalarBoolOr settings column inferNullsAs accessMethod children =
      some result) :
    result.isSome = fAllConvert settings column accessMethod children := by
  cases children with
  | nil =>
    rw [pciIntervalFromScalarBoolOr] at run
    cases run
    rfl
  | cons child rest =>
    rw [pciIntervalFromScalarBoolOr] at run
    rw [fAllConvert]
    split at run
    · cases run
    · rename_i isChild
      cases run
      rw [← isSome_derived inferNullsAs accessMethod child isChild]
      rfl
    · rename_i pci isChild
      rw [← isSome_derived inferNullsAs accessMethod child isChild, Option.isSome_some,
        Bool.true_and]
      split at run
      · cases run
      · rename_i isRest
        cases run
        exact isSome_disjuncts inferNullsAs accessMethod rest isRest
      · rename_i pcis isRest
        cases run
        rw [← isSome_disjuncts inferNullsAs accessMethod rest isRest]
        rfl

end

end Converting

end Constraints
