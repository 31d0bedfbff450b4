import Tuuli.BoolEval

/-!
`CPredicateUtils::FNullRejecting`: the columns of a set are replaced by NULL
constants and the result is evaluated abstractly. The replacement does not change
the value on a row that is NULL on the set, so the answer is right on every row
on which the abstract result covers the value.
-/
namespace ScalarExpr

variable {V : Type}

mutual

/-- `PexprReplaceColsWithNulls`, which does not recurse into subqueries. -/
def CExpression.replaceColsWithNulls (columns : Finset ℕ) : CExpression V → CExpression V
  | .ident column => if column ∈ columns then .const none else .ident column
  | .const value => .const value
  | .boolOp op children => .boolOp op (replaceColsWithNullsList columns children)
  | .booleanTest test child => .booleanTest test (child.replaceColsWithNulls columns)
  | .nullTest child => .nullTest (child.replaceColsWithNulls columns)
  | .call call children => .call call (replaceColsWithNullsList columns children)
  | .arrayCmp cmp scalar array =>
    .arrayCmp cmp (scalar.replaceColsWithNulls columns) (array.replaceColsWithNulls columns)
  | .isDistinctFrom op left right =>
    .isDistinctFrom op (left.replaceColsWithNulls columns)
      (right.replaceColsWithNulls columns)
  | .nullIf op left right =>
    .nullIf op (left.replaceColsWithNulls columns) (right.replaceColsWithNulls columns)
  | .coalesce children => .coalesce (replaceColsWithNullsList columns children)
  | .minMax better children => .minMax better (replaceColsWithNullsList columns children)
  | .scalarIf test yes no =>
    .scalarIf (test.replaceColsWithNulls columns) (yes.replaceColsWithNulls columns)
      (no.replaceColsWithNulls columns)
  | .caseTest => .caseTest
  | .switch arg whens thens otherwise =>
    .switch (arg.replaceColsWithNulls columns) (replaceColsWithNullsList columns whens)
      (replaceColsWithNullsList columns thens) (otherwise.replaceColsWithNulls columns)
  | .subquery efs value => .subquery efs value
  | .plain efs value children => .plain efs value (replaceColsWithNullsList columns children)

def replaceColsWithNullsList (columns : Finset ℕ) :
    List (CExpression V) → List (CExpression V)
  | [] => []
  | expr :: rest => expr.replaceColsWithNulls columns :: replaceColsWithNullsList columns rest

end

/-! ### Derived function properties -/

def EFuncStbl.sup : EFuncStbl → EFuncStbl → EFuncStbl
  | .volatile, _ => .volatile
  | _, .volatile => .volatile
  | .stable, _ => .stable
  | _, efs => efs

mutual

def CExpression.deriveEfs : CExpression V → EFuncStbl
  | .ident _ => .immutable
  | .const _ => .immutable
  | .boolOp _ children => deriveEfsList children
  | .booleanTest _ child => child.deriveEfs
  | .nullTest child => child.deriveEfs
  | .call call children => call.efs.sup (deriveEfsList children)
  | .arrayCmp cmp scalar array => cmp.efs.sup (scalar.deriveEfs.sup array.deriveEfs)
  | .isDistinctFrom op left right => op.efs.sup (left.deriveEfs.sup right.deriveEfs)
  | .nullIf op left right => op.efs.sup (left.deriveEfs.sup right.deriveEfs)
  | .coalesce children => deriveEfsList children
  | .minMax _ children => deriveEfsList children
  | .scalarIf test yes no => test.deriveEfs.sup (yes.deriveEfs.sup no.deriveEfs)
  | .caseTest => .immutable
  | .switch arg whens thens otherwise =>
    arg.deriveEfs.sup
      ((deriveEfsList whens).sup ((deriveEfsList thens).sup otherwise.deriveEfs))
  | .subquery efs _ => efs
  | .plain efs _ children => efs.sup (deriveEfsList children)

def deriveEfsList : List (CExpression V) → EFuncStbl
  | [] => .immutable
  | expr :: rest => expr.deriveEfs.sup (deriveEfsList rest)

end

def CallKind.returnsSet : CallKind → Bool
  | .func _ set => set
  | _ => false

mutual

/-- `DeriveHasNonScalarFunction`, which returns immediately at a subquery. -/
def CExpression.hasNonScalarFunction : CExpression V → Bool
  | .ident _ => false
  | .const _ => false
  | .boolOp _ children => hasNonScalarFunctionList children
  | .booleanTest _ child => child.hasNonScalarFunction
  | .nullTest child => child.hasNonScalarFunction
  | .call call children => call.kind.returnsSet || hasNonScalarFunctionList children
  | .arrayCmp _ scalar array => scalar.hasNonScalarFunction || array.hasNonScalarFunction
  | .isDistinctFrom _ left right => left.hasNonScalarFunction || right.hasNonScalarFunction
  | .nullIf _ left right => left.hasNonScalarFunction || right.hasNonScalarFunction
  | .coalesce children => hasNonScalarFunctionList children
  | .minMax _ children => hasNonScalarFunctionList children
  | .scalarIf test yes no =>
    test.hasNonScalarFunction || yes.hasNonScalarFunction || no.hasNonScalarFunction
  | .caseTest => false
  | .switch arg whens thens otherwise =>
    arg.hasNonScalarFunction || hasNonScalarFunctionList whens ||
      hasNonScalarFunctionList thens || otherwise.hasNonScalarFunction
  | .subquery _ _ => false
  | .plain _ _ children => hasNonScalarFunctionList children

def hasNonScalarFunctionList : List (CExpression V) → Bool
  | [] => false
  | expr :: rest => expr.hasNonScalarFunction || hasNonScalarFunctionList rest

end

def fNullRejecting (predicate : CExpression V) (columns : Finset ℕ) : Bool :=
  if predicate.deriveEfs = .volatile || predicate.hasNonScalarFunction then false
  else
    match (predicate.replaceColsWithNulls columns).eberEvaluate with
    | .null => true
    | .false => true
    | .notTrue => true
    | _ => false

/-! ### Replacing NULL columns -/

section Replacement
open CExpression
variable {columns : Finset ℕ} {row : Row V}

mutual

theorem CExpression.replaceColsWithNulls_same (null : ∀ c ∈ columns, row c = none) :
    ∀ (expr : CExpression V) (tested : Value V),
      (expr.replaceColsWithNulls columns).eval row tested = expr.eval row tested ∧
        (expr.replaceColsWithNulls columns).meetsNullOverEmpty row tested =
          expr.meetsNullOverEmpty row tested
  | .ident column, tested => by
    rw [replaceColsWithNulls]
    split
    next mem => exact ⟨(null column mem).symm, rfl⟩
    next => exact ⟨rfl, rfl⟩
  | .const _, _ | .caseTest, _ | .subquery _ _, _ => ⟨rfl, rfl⟩
  | .booleanTest _ child, tested | .nullTest child, tested => by
    simp only [replaceColsWithNulls, eval, meetsNullOverEmpty,
      child.replaceColsWithNulls_same null, and_self]
  | .arrayCmp _ left right, tested | .isDistinctFrom _ left right, tested
  | .nullIf _ left right, tested => by
    simp only [replaceColsWithNulls, eval, meetsNullOverEmpty,
      left.replaceColsWithNulls_same null, right.replaceColsWithNulls_same null, and_self]
  | .scalarIf test yes no, tested => by
    simp only [replaceColsWithNulls, eval, meetsNullOverEmpty,
      test.replaceColsWithNulls_same null, yes.replaceColsWithNulls_same null,
      no.replaceColsWithNulls_same null, and_self]
  | .switch arg whens thens otherwise, tested => by
    simp only [replaceColsWithNulls, eval, meetsNullOverEmpty,
      arg.replaceColsWithNulls_same null, otherwise.replaceColsWithNulls_same null,
      replaceColsWithNullsList_same null whens, replaceColsWithNullsList_same null thens,
      and_self]
  | .boolOp _ children, tested | .call _ children, tested | .coalesce children, tested
  | .minMax _ children, tested | .plain _ _ children, tested => by
    simp only [replaceColsWithNulls, eval, meetsNullOverEmpty,
      replaceColsWithNullsList_same null children, and_self]

theorem replaceColsWithNullsList_same (null : ∀ c ∈ columns, row c = none) :
    ∀ (children : List (CExpression V)) (tested : Value V),
      evalList row tested (replaceColsWithNullsList columns children) =
          evalList row tested children ∧
        meetsNullOverEmptyList row tested (replaceColsWithNullsList columns children) =
          meetsNullOverEmptyList row tested children
  | [], _ => ⟨rfl, rfl⟩
  | expr :: rest, tested => by
    simp only [replaceColsWithNullsList, evalList, meetsNullOverEmptyList,
      expr.replaceColsWithNulls_same null, replaceColsWithNullsList_same null rest, and_self]

end

end Replacement

/-! ### Soundness of `FNullRejecting` -/

def RejectsNulls (predicate : CExpression V) (columns : Finset ℕ) : Prop :=
  ∀ row : Row V, (∀ c ∈ columns, row c = none) →
    predicate.valueOn row ≠ some (.bool true)

variable {predicate : CExpression V} {columns : Finset ℕ}

theorem fNullRejecting_spec (h : fNullRejecting predicate columns = true) :
    (predicate.replaceColsWithNulls columns).eberEvaluate ≠ .any ∧
      (predicate.replaceColsWithNulls columns).eberEvaluate ≠ .true := by
  unfold fNullRejecting at h
  split at h
  · cases h
  · constructor <;> intro result <;> rw [result] at h <;> cases h

theorem valueOn_ne_true (h : fNullRejecting predicate columns = true) {row : Row V}
    (null : ∀ c ∈ columns, row c = none) (clear : predicate.meetsNullOverEmpty row none = false) :
    predicate.valueOn row ≠ some (.bool true) := by
  obtain ⟨value_same, meets_same⟩ := predicate.replaceColsWithNulls_same null none
  rw [← meets_same] at clear
  have covers := (predicate.replaceColsWithNulls columns).eberEvaluate_covers row none clear
  rw [value_same] at covers
  obtain ⟨notAny, notTrue⟩ := fNullRejecting_spec h
  have not_true := EBoolEvalResult.allows_notTrue covers.allows notAny notTrue
  intro value
  rw [CExpression.valueOn] at value
  rw [value] at not_true
  exact not_true rfl

/-- A positive answer is right exactly if the predicate is not TRUE on the rows on which
    one of its strict array comparisons meets a NULL scalar and an empty array. -/
theorem fNullRejecting_sound_iff (predicate : CExpression V) (columns : Finset ℕ)
    (rejecting : fNullRejecting predicate columns = true) :
    RejectsNulls predicate columns ↔
      ∀ row : Row V, (∀ c ∈ columns, row c = none) →
        predicate.meetsNullOverEmpty row none = true →
          predicate.valueOn row ≠ some (.bool true) := by
  constructor
  · intro rejects row null _
    exact rejects row null
  · intro onEmpty row null
    cases meets : predicate.meetsNullOverEmpty row none with
    | true => exact onEmpty row null meets
    | false => exact valueOn_ne_true rejecting null meets

mutual

def CExpression.hasStrictArrayCmp : CExpression V → Bool
  | .arrayCmp cmp scalar array =>
    cmp.returnsNullOnNullInput || scalar.hasStrictArrayCmp || array.hasStrictArrayCmp
  | .booleanTest _ child | .nullTest child => child.hasStrictArrayCmp
  | .isDistinctFrom _ left right | .nullIf _ left right =>
    left.hasStrictArrayCmp || right.hasStrictArrayCmp
  | .scalarIf test yes no =>
    test.hasStrictArrayCmp || yes.hasStrictArrayCmp || no.hasStrictArrayCmp
  | .switch arg whens thens otherwise =>
    arg.hasStrictArrayCmp || hasStrictArrayCmpList whens || hasStrictArrayCmpList thens ||
      otherwise.hasStrictArrayCmp
  | .boolOp _ children | .call _ children | .coalesce children | .minMax _ children
  | .plain _ _ children => hasStrictArrayCmpList children
  | .ident _ | .const _ | .caseTest | .subquery _ _ => false

def hasStrictArrayCmpList : List (CExpression V) → Bool
  | [] => false
  | expr :: rest => expr.hasStrictArrayCmp || hasStrictArrayCmpList rest

end

mutual

theorem CExpression.not_meetsNullOverEmpty (row : Row V) :
    ∀ (expr : CExpression V) (tested : Value V), expr.hasStrictArrayCmp = false →
      expr.meetsNullOverEmpty row tested = false
  | .ident _, _, _ | .const _, _, _ | .caseTest, _, _ | .subquery _ _, _, _ => rfl
  | .arrayCmp cmp scalar array, tested, lenient => by
    simp only [CExpression.hasStrictArrayCmp, Bool.or_eq_false_iff] at lenient
    simp [CExpression.meetsNullOverEmpty, ArrayComparison.nullOverEmpty, lenient.1.1,
      scalar.not_meetsNullOverEmpty row tested lenient.1.2,
      array.not_meetsNullOverEmpty row tested lenient.2]
  | .booleanTest _ child, tested, lenient | .nullTest child, tested, lenient =>
    child.not_meetsNullOverEmpty row tested lenient
  | .isDistinctFrom _ left right, tested, lenient | .nullIf _ left right, tested, lenient => by
    simp only [CExpression.hasStrictArrayCmp, Bool.or_eq_false_iff] at lenient
    simp [CExpression.meetsNullOverEmpty, left.not_meetsNullOverEmpty row tested lenient.1,
      right.not_meetsNullOverEmpty row tested lenient.2]
  | .scalarIf test yes no, tested, lenient => by
    simp only [CExpression.hasStrictArrayCmp, Bool.or_eq_false_iff] at lenient
    simp [CExpression.meetsNullOverEmpty, test.not_meetsNullOverEmpty row tested lenient.1.1,
      yes.not_meetsNullOverEmpty row tested lenient.1.2,
      no.not_meetsNullOverEmpty row tested lenient.2]
  | .switch arg whens thens otherwise, tested, lenient => by
    simp only [CExpression.hasStrictArrayCmp, Bool.or_eq_false_iff] at lenient
    simp [CExpression.meetsNullOverEmpty, arg.not_meetsNullOverEmpty row tested lenient.1.1.1,
      not_meetsNullOverEmptyList row whens _ lenient.1.1.2,
      not_meetsNullOverEmptyList row thens _ lenient.1.2,
      otherwise.not_meetsNullOverEmpty row tested lenient.2]
  | .boolOp _ children, tested, lenient | .call _ children, tested, lenient
  | .coalesce children, tested, lenient | .minMax _ children, tested, lenient
  | .plain _ _ children, tested, lenient =>
    not_meetsNullOverEmptyList row children tested lenient

theorem not_meetsNullOverEmptyList (row : Row V) :
    ∀ (children : List (CExpression V)) (tested : Value V),
      hasStrictArrayCmpList children = false → meetsNullOverEmptyList row tested children = false
  | [], _, _ => rfl
  | expr :: rest, tested, lenient => by
    simp only [hasStrictArrayCmpList, Bool.or_eq_false_iff] at lenient
    simp [meetsNullOverEmptyList, expr.not_meetsNullOverEmpty row tested lenient.1,
      not_meetsNullOverEmptyList row rest tested lenient.2]

end

/-- Only a strict array comparison can make a positive answer wrong. -/
theorem rejectsNulls_of_not_hasStrictArrayCmp (rejecting : fNullRejecting predicate columns = true)
    (lenient : predicate.hasStrictArrayCmp = false) : RejectsNulls predicate columns :=
  fun row null => valueOn_ne_true rejecting null (predicate.not_meetsNullOverEmpty row none lenient)

def equalAtoms : Value ℕ → Value ℕ → Option Bool
  | some (.atom a), some (.atom b) => some (a == b)
  | _, _ => none

def equalColumns : CExpression ℕ :=
  .call
    { kind := .cmp true
      efs := .immutable
      apply := fun
        | [a, b] => ofTruth (equalAtoms a b)
        | _ => none }
    [.ident 0, .ident 1]

theorem equalColumns_rejectsNulls : RejectsNulls equalColumns {0} := by
  apply (fNullRejecting_sound_iff equalColumns {0} (by decide)).mpr
  intro row _ meets
  cases meets

def equalToAll : CExpression ℕ :=
  .arrayCmp
    { kind := .all
      returnsNullOnNullInput := true
      efs := .immutable
      compare := equalAtoms }
    (.ident 0) (.ident 1)

def nullAndEmpty : Row ℕ
  | 0 => none
  | _ => some (.array [])

theorem equalToAll_true_on_null :
    fNullRejecting equalToAll {0} = true ∧
      (∀ c ∈ ({0} : Finset ℕ), nullAndEmpty c = none) ∧
      equalToAll.valueOn nullAndEmpty = some (.bool true) := by
  refine ⟨by decide, ?_, rfl⟩
  intro c mem
  rw [Finset.mem_singleton.mp mem]
  rfl

end ScalarExpr
