import Tuuli.ScalarExpr

/-!
`CScalar::EberEvaluate`, the abstract evaluation of a scalar expression. Its
results cover the SQL values of every operator, except that a strict array
comparison is taken to be NULL on a NULL scalar: over an empty array, `ANY` is
FALSE and `ALL` is TRUE before the scalar is looked at.
-/
namespace ScalarExpr
open TruthValues

variable {V : Type}

/-- `CScalar::EBoolEvalResult`. -/
inductive EBoolEvalResult where
  | any
  | false
  | true
  | null
  | notTrue
  deriving DecidableEq, Repr

/-! ### `Eber` of each operator -/

def eberConjunction (children : List EBoolEvalResult) : EBoolEvalResult :=
  if .false ∈ children then .false
  else if ∀ eber ∈ children, eber = .true then .true
  else if ∀ eber ∈ children, eber = .any ∨ eber = .true then .any
  else if ∀ eber ∈ children, eber = .null ∨ eber = .true then .null
  else .notTrue

def eberDisjunction (children : List EBoolEvalResult) : EBoolEvalResult :=
  if .true ∈ children then .true
  else if ∀ eber ∈ children, eber = .false then .false
  else if .any ∈ children then .any
  else if .notTrue ∈ children then .notTrue
  else if .null ∈ children then .null
  else .any

def eberNullOnAnyNullChild (children : List EBoolEvalResult) : EBoolEvalResult :=
  if .null ∈ children then .null else .any

def eberNullOnAllNullChildren (children : List EBoolEvalResult) : EBoolEvalResult :=
  if ∀ eber ∈ children, eber = .null then .null else .any

def EBoolOperator.eber (op : EBoolOperator) (children : List EBoolEvalResult) : EBoolEvalResult :=
  match op, children with
  | .and, children => eberConjunction children
  | .or, children => eberDisjunction children
  | .not, [.true] => .false
  | .not, [.false] => .true
  | .not, [.null] => .null
  | .not, _ => .any

/-- `CScalarBooleanTest::m_rgBoolEvalMap`. -/
def EBoolTest.eber : EBoolTest → EBoolEvalResult → EBoolEvalResult
  | .isTrue, .true => .true
  | .isTrue, .false => .false
  | .isTrue, .null => .false
  | .isTrue, .notTrue => .false
  | .isNotTrue, .true => .false
  | .isNotTrue, .false => .true
  | .isNotTrue, .null => .true
  | .isNotTrue, .notTrue => .true
  | .isFalse, .true => .false
  | .isFalse, .false => .true
  | .isFalse, .null => .false
  | .isFalse, .notTrue => .any
  | .isNotFalse, .true => .true
  | .isNotFalse, .false => .false
  | .isNotFalse, .null => .true
  | .isNotFalse, .notTrue => .any
  | .isUnknown, .true => .false
  | .isUnknown, .false => .false
  | .isUnknown, .null => .true
  | .isUnknown, .notTrue => .any
  | .isNotUnknown, .true => .true
  | .isNotUnknown, .false => .true
  | .isNotUnknown, .null => .false
  | .isNotUnknown, .notTrue => .any
  | _, .any => .any

def eberNullTest : EBoolEvalResult → EBoolEvalResult
  | .null => .true
  | .false => .false
  | .true => .false
  | _ => .any

/-- Comparisons, operators, functions, casts and coercions. -/
def CallKind.eber (kind : CallKind) (children : List EBoolEvalResult) : EBoolEvalResult :=
  if kind.preservesNull then eberNullOnAnyNullChild children else .any

def ArrayComparison.eber (cmp : ArrayComparison V) (children : List EBoolEvalResult) :
    EBoolEvalResult :=
  if cmp.returnsNullOnNullInput then eberNullOnAnyNullChild children else .any

def eberIsDistinctFrom (first second : EBoolEvalResult) : EBoolEvalResult :=
  if first = .any ∨ second = .any ∨ first = .notTrue ∨ second = .notTrue then .any
  else if first ≠ second then .true
  else .false

def eberNullIf (left right : EBoolEvalResult) : EBoolEvalResult :=
  if left = .null ∨ right = .null then left else .any

def eberConst : Value V → EBoolEvalResult
  | none => .null
  | some (.bool true) => .true
  | some (.bool false) => .false
  | some _ => .any

def eberSwitchCase (condition result : EBoolEvalResult) : EBoolEvalResult :=
  eberNullOnAllNullChildren [condition, result]

mutual

/-- `CScalar::EberEvaluate`; the children of a subquery are not visited. -/
def CExpression.eberEvaluate : CExpression V → EBoolEvalResult
  | .ident _ => .any
  | .const value => eberConst value
  | .boolOp op children => op.eber (eberEvaluateList children)
  | .booleanTest test child => test.eber child.eberEvaluate
  | .nullTest child => eberNullTest child.eberEvaluate
  | .call call children => call.kind.eber (eberEvaluateList children)
  | .arrayCmp cmp scalar array => cmp.eber [scalar.eberEvaluate, array.eberEvaluate]
  | .isDistinctFrom _ left right => eberIsDistinctFrom left.eberEvaluate right.eberEvaluate
  | .nullIf _ left right => eberNullIf left.eberEvaluate right.eberEvaluate
  | .coalesce children => eberNullOnAllNullChildren (eberEvaluateList children)
  | .minMax _ children => eberNullOnAllNullChildren (eberEvaluateList children)
  | .scalarIf test yes no =>
    eberNullOnAllNullChildren [test.eberEvaluate, yes.eberEvaluate, no.eberEvaluate]
  | .caseTest => .any
  | .switch arg whens thens otherwise =>
    eberNullOnAllNullChildren (arg.eberEvaluate ::
      List.zipWith eberSwitchCase (eberEvaluateList whens) (eberEvaluateList thens) ++
        [otherwise.eberEvaluate])
  | .subquery _ _ => .any
  | .plain _ _ _ => .any

def eberEvaluateList : List (CExpression V) → List EBoolEvalResult
  | [] => []
  | expr :: rest => expr.eberEvaluate :: eberEvaluateList rest

end

/-! ### What an abstract result says about a truth value and about a value -/

def EBoolEvalResult.Allows : EBoolEvalResult → Option Bool → Prop
  | .any, _ => True
  | .false, t => t = some Bool.false
  | .true, t => t = some Bool.true
  | .null, t => t = none
  | .notTrue, t => t ≠ some Bool.true

def EBoolEvalResult.Covers : EBoolEvalResult → Value V → Prop
  | .any, _ => True
  | .false, value => value = some (.bool Bool.false)
  | .true, value => value = some (.bool Bool.true)
  | .null, value => value = none
  | .notTrue, value => value = none ∨ value = some (.bool Bool.false)

variable {result : EBoolEvalResult} {t : Option Bool}

theorem EBoolEvalResult.Covers.allows {value : Value V} (h : result.Covers value) :
    result.Allows (truth value) := by
  cases result with
  | any => trivial
  | false => rw [h]; rfl
  | true => rw [h]; rfl
  | null => rw [h]; rfl
  | notTrue => rcases h with rfl | rfl <;> simp [Allows, truth]

theorem EBoolEvalResult.Allows.covers (h : result.Allows t) :
    result.Covers (ofTruth t : Value V) := by
  cases result with
  | any => trivial
  | false => rw [h]; rfl
  | true => rw [h]; rfl
  | null => rw [h]; rfl
  | notTrue =>
    rcases t with _ | _ | _
    · exact Or.inl rfl
    · exact Or.inr rfl
    · exact absurd rfl h

section Related
variable {α β : Type} {R : α → β → Prop} {as : List α} {bs : List β}

theorem exists_right_of_mem (h : List.Forall₂ R as bs) {a : α} (mem : a ∈ as) :
    ∃ b ∈ bs, R a b := by
  induction h with
  | nil => cases mem
  | cons related _ ih =>
    rcases List.mem_cons.mp mem with rfl | mem
    · exact ⟨_, List.mem_cons_self, related⟩
    · obtain ⟨b, inside, related⟩ := ih mem
      exact ⟨b, List.mem_cons_of_mem _ inside, related⟩

theorem exists_left_of_mem (h : List.Forall₂ R as bs) {b : β} (mem : b ∈ bs) : ∃ a ∈ as, R a b := by
  obtain ⟨a, inside, related⟩ := exists_right_of_mem h.flip mem
  exact ⟨a, inside, related⟩

end Related

theorem EBoolEvalResult.allows_notTrue (h : result.Allows t) (notAny : result ≠ .any)
    (notTrue : result ≠ .true) : t ≠ some Bool.true := by
  cases result with
  | any => exact absurd rfl notAny
  | true => exact absurd rfl notTrue
  | false => rw [h]; simp
  | null => rw [h]; simp
  | notTrue => exact h

section Connectives
variable {results : List EBoolEvalResult} {truths : List (Option Bool)}

theorem eberConjunction_allows (h : List.Forall₂ EBoolEvalResult.Allows results truths) :
    (eberConjunction results).Allows (conj truths) := by
  unfold eberConjunction
  split
  next mem =>
    obtain ⟨t, inside, rfl⟩ := exists_right_of_mem h mem
    exact conj_of_mem_false inside
  next no_false =>
    split
    next all =>
      apply conj_of_all_true
      intro t inside
      obtain ⟨result, listed, allows⟩ := exists_left_of_mem h inside
      rw [all result listed] at allows
      exact allows
    next not_all_true =>
      split
      next => trivial
      next not_any =>
        split
        next all =>
          -- some child is NULL and the others are NULL or TRUE
          have null : EBoolEvalResult.null ∈ results := by
            by_contra absent
            apply not_all_true
            intro result listed
            rcases all result listed with rfl | rfl
            · exact absurd listed absent
            · rfl
          obtain ⟨t, inside, rfl⟩ := exists_right_of_mem h null
          apply conj_of_unknown inside
          intro t inside
          obtain ⟨result, listed, allows⟩ := exists_left_of_mem h inside
          rcases all result listed with rfl | rfl
          · exact Or.inl allows
          · exact Or.inr allows
        next =>
          have other : ∃ result ∈ results, result ≠ .any ∧ result ≠ .true := by
            simpa using not_any
          obtain ⟨result, listed, notAny, notTrue⟩ := other
          obtain ⟨t, inside, allows⟩ := exists_right_of_mem h listed
          exact conj_ne_true inside (EBoolEvalResult.allows_notTrue allows notAny notTrue)

theorem eberDisjunction_allows (h : List.Forall₂ EBoolEvalResult.Allows results truths) :
    (eberDisjunction results).Allows (disj truths) := by
  unfold eberDisjunction
  split
  next mem =>
    obtain ⟨t, inside, rfl⟩ := exists_right_of_mem h mem
    exact disj_of_mem_true inside
  next no_true =>
    split
    next all =>
      apply disj_of_all_false
      intro t inside
      obtain ⟨result, listed, allows⟩ := exists_left_of_mem h inside
      rw [all result listed] at allows
      exact allows
    next =>
      split
      next => trivial
      next no_any =>
        split
        next =>
          apply disj_ne_true
          intro t inside
          obtain ⟨result, listed, allows⟩ := exists_left_of_mem h inside
          apply EBoolEvalResult.allows_notTrue allows
          · intro isAny
            exact no_any (isAny ▸ listed)
          · intro isTrue
            exact no_true (isTrue ▸ listed)
        next no_notTrue =>
          split
          next mem =>
            -- the children are NULL or FALSE
            obtain ⟨t, inside, rfl⟩ := exists_right_of_mem h mem
            apply disj_of_unknown inside
            intro t inside
            obtain ⟨result, listed, allows⟩ := exists_left_of_mem h inside
            cases result with
            | any => exact absurd listed no_any
            | true => exact absurd listed no_true
            | notTrue => exact absurd listed no_notTrue
            | null => exact Or.inl allows
            | false => exact Or.inr allows
          next => trivial

theorem EBoolOperator.eber_allows (op : EBoolOperator)
    (h : List.Forall₂ EBoolEvalResult.Allows results truths) :
    (op.eber results).Allows (op.value truths) := by
  cases op with
  | and => exact eberConjunction_allows h
  | or => exact eberDisjunction_allows h
  | not =>
    cases h with
    | nil => trivial
    | @cons result t _ _ allows rest =>
      cases rest with
      | nil =>
        cases result with
        | any => trivial
        | notTrue => trivial
        | false => rw [allows]; rfl
        | true => rw [allows]; rfl
        | null => rw [allows]; rfl
      | cons => cases result <;> trivial

end Connectives

theorem EBoolTest.eber_covers (test : EBoolTest) (h : result.Allows t) :
    (test.eber result).Covers (some (.bool (test.holds t)) : Value V) := by
  cases result with
  | any => cases test <;> trivial
  | false => rw [h]; cases test <;> rfl
  | true => rw [h]; cases test <;> rfl
  | null => rw [h]; cases test <;> rfl
  | notTrue =>
    -- only `IS [NOT] TRUE` has an answer on NOT TRUE
    rcases t with _ | _ | _
    · cases test <;> first | rfl | trivial
    · cases test <;> first | rfl | trivial
    · exact absurd rfl h

section Operators
variable {result first second : EBoolEvalResult} {value left right : Value V}

theorem eberNullTest_covers (h : result.Covers value) :
    (eberNullTest result).Covers (some (.bool value.isNone) : Value V) := by
  cases result with
  | any => trivial
  | notTrue => trivial
  | false => rw [h]; rfl
  | true => rw [h]; rfl
  | null => rw [h]; rfl

theorem eberConst_covers (value : Value V) : (eberConst value).Covers value := by
  rcases value with _ | (_ | _) | _ | _
  · rfl
  · rfl
  · rfl
  · trivial
  · trivial

theorem eberIsDistinctFrom_covers (op : EqualityOp V) (hLeft : first.Covers left)
    (hRight : second.Covers right) :
    (eberIsDistinctFrom first second).Covers
      (some (.bool (op.distinct left right)) : Value V) := by
  unfold eberIsDistinctFrom
  split
  next => trivial
  next known =>
    -- both sides are TRUE, FALSE or NULL
    simp only [not_or] at known
    cases first <;> cases second <;> simp_all [EBoolEvalResult.Covers, EqualityOp.distinct,
      EqualityOp.equal]

theorem eberNullIf_covers (op : EqualityOp V) (hLeft : first.Covers left)
    (hRight : second.Covers right) : (eberNullIf first second).Covers (op.nullIf left right) := by
  unfold eberNullIf
  split
  next null =>
    have same : op.nullIf left right = left := by
      rcases null with rfl | rfl
      · rw [hLeft]; rfl
      · rw [hRight]; cases left <;> rfl
    rw [same]
    exact hLeft
  next => trivial

end Operators

section Lists
variable {results : List EBoolEvalResult} {values : List (Value V)}

abbrev CoversAll (results : List EBoolEvalResult) (values : List (Value V)) : Prop :=
  List.Forall₂ EBoolEvalResult.Covers results values

variable {value : Value V}

theorem CoversAll.allows (h : CoversAll results values) :
    List.Forall₂ EBoolEvalResult.Allows results (values.map truth) := by
  rw [List.forall₂_map_right_iff]
  exact h.imp fun _ _ covers => covers.allows

theorem eberNullOnAnyNullChild_covers (h : CoversAll results values)
    (strict : none ∈ values → value = none) : (eberNullOnAnyNullChild results).Covers value := by
  unfold eberNullOnAnyNullChild
  split
  next mem =>
    obtain ⟨child, inside, rfl⟩ := exists_right_of_mem h mem
    exact strict inside
  next => trivial

theorem CallKind.eber_covers (call : Call V) (h : CoversAll results values) :
    (call.kind.eber results).Covers (call.value values) := by
  unfold CallKind.eber
  split
  next preserves =>
    apply eberNullOnAnyNullChild_covers h
    intro mem
    have null : values.any Option.isNone = true := List.any_eq_true.mpr ⟨none, mem, rfl⟩
    rw [Call.value, preserves, null]
    rfl
  next => trivial

theorem eberNullOnAllNullChildren_covers (h : CoversAll results values)
    (null : (∀ child ∈ values, child = none) → value = none) :
    (eberNullOnAllNullChildren results).Covers value := by
  unfold eberNullOnAllNullChildren
  split
  next all =>
    apply null
    intro child inside
    obtain ⟨result, listed, covers⟩ := exists_left_of_mem h inside
    rw [all result listed] at covers
    exact covers
  next => trivial

theorem coalesceValue_of_all_null (h : ∀ child ∈ values, child = none) :
    coalesceValue values = none := by
  induction values with
  | nil => rfl
  | cons child rest ih =>
    rw [h child List.mem_cons_self]
    exact ih fun other mem => h other (List.mem_cons_of_mem _ mem)

theorem minMaxValue_of_all_null (better : Datum V → Datum V → Datum V)
    (h : ∀ child ∈ values, child = none) : minMaxValue better values = none := by
  have empty : values.filterMap id = [] := by
    rw [List.filterMap_eq_nil_iff]
    exact h
  rw [minMaxValue, empty]

theorem switchCases_covers {conditions outcomes : List EBoolEvalResult}
    {whens thens : List (Value V)} (hWhens : CoversAll conditions whens)
    (hThens : CoversAll outcomes thens) :
    CoversAll (List.zipWith eberSwitchCase conditions outcomes)
      ((whens.zip thens).map Prod.snd) := by
  induction hWhens generalizing outcomes thens with
  | nil => exact .nil
  | @cons condition when conditions whens covers _ ih =>
    cases hThens with
    | nil => exact .nil
    | cons outcome rest =>
      refine .cons ?_ (ih rest)
      apply eberNullOnAllNullChildren_covers (.cons covers (.cons outcome .nil))
      intro all
      exact all _ (by simp)

theorem switchValue_of_all_null {cases : List (Value V × Value V)}
    (h : ∀ outcome ∈ cases.map Prod.snd, outcome = none) : switchValue cases none = none := by
  unfold switchValue
  split
  next c found => exact h _ (List.mem_map_of_mem (List.mem_of_find?_eq_some found))
  next => rfl

end Lists

/-! ### Array comparisons -/

def isEmptyArray : Value V → Bool
  | some (.array []) => true
  | _ => false

/-- A strict comparison of NULL with no element at all. -/
def ArrayComparison.nullOverEmpty (cmp : ArrayComparison V) (scalar array : Value V) : Bool :=
  cmp.returnsNullOnNullInput && scalar.isNone && isEmptyArray array

variable {array : Value V}

theorem ArrayComparison.value_null_scalar (cmp : ArrayComparison V)
    (strict : cmp.returnsNullOnNullInput = true) (nonempty : isEmptyArray array = false) :
    cmp.value none array = none := by
  have element : ∀ e, cmp.element none e = none := by
    intro e
    rw [ArrayComparison.element, strict]
    rfl
  rcases array with _ | _ | _ | elements
  · rfl
  · rfl
  · rfl
  · rcases elements with _ | ⟨head, rest⟩
    · cases nonempty
    · have unknown : none ∈ (head :: rest).map (cmp.element none) :=
        List.mem_map.mpr ⟨head, List.mem_cons_self, element head⟩
      have all : ∀ t ∈ (head :: rest).map (cmp.element none), t = none := by
        intro t mem
        obtain ⟨e, _, rfl⟩ := List.mem_map.mp mem
        exact element e
      unfold ArrayComparison.value
      cases cmp.kind with
      | any => exact disj_of_unknown unknown fun t mem => Or.inl (all t mem)
      | all => exact conj_of_unknown unknown fun t mem => Or.inl (all t mem)

theorem ArrayComparison.eber_covers (cmp : ArrayComparison V) {first second : EBoolEvalResult}
    {scalar : Value V} (hScalar : first.Covers scalar) (hArray : second.Covers array)
    (h : cmp.nullOverEmpty scalar array = false) :
    (cmp.eber [first, second]).Covers (ofTruth (cmp.value scalar array) : Value V) := by
  unfold ArrayComparison.eber
  split
  next strict =>
    apply eberNullOnAnyNullChild_covers (.cons hScalar (.cons hArray .nil))
    intro mem
    rcases array with _ | datum
    · rfl
    · have null : scalar = none := by simpa [eq_comm] using mem
      subst null
      rw [ArrayComparison.nullOverEmpty, strict] at h
      rw [cmp.value_null_scalar strict h]
      rfl
  next => trivial

mutual

/-- Some array comparison of the expression is a `nullOverEmpty` one on the row. -/
def CExpression.meetsNullOverEmpty (row : Row V) (tested : Value V) : CExpression V → Bool
  | .ident _ => false
  | .const _ => false
  | .boolOp _ children => meetsNullOverEmptyList row tested children
  | .booleanTest _ child => child.meetsNullOverEmpty row tested
  | .nullTest child => child.meetsNullOverEmpty row tested
  | .call _ children => meetsNullOverEmptyList row tested children
  | .arrayCmp cmp scalar array =>
    cmp.nullOverEmpty (scalar.eval row tested) (array.eval row tested) ||
      scalar.meetsNullOverEmpty row tested || array.meetsNullOverEmpty row tested
  | .isDistinctFrom _ left right =>
    left.meetsNullOverEmpty row tested || right.meetsNullOverEmpty row tested
  | .nullIf _ left right =>
    left.meetsNullOverEmpty row tested || right.meetsNullOverEmpty row tested
  | .coalesce children => meetsNullOverEmptyList row tested children
  | .minMax _ children => meetsNullOverEmptyList row tested children
  | .scalarIf test yes no =>
    test.meetsNullOverEmpty row tested || yes.meetsNullOverEmpty row tested ||
      no.meetsNullOverEmpty row tested
  | .caseTest => false
  | .switch arg whens thens otherwise =>
    arg.meetsNullOverEmpty row tested ||
      meetsNullOverEmptyList row (arg.eval row tested) whens ||
      meetsNullOverEmptyList row tested thens || otherwise.meetsNullOverEmpty row tested
  | .subquery _ _ => false
  | .plain _ _ children => meetsNullOverEmptyList row tested children

def meetsNullOverEmptyList (row : Row V) (tested : Value V) : List (CExpression V) → Bool
  | [] => false
  | expr :: rest =>
    expr.meetsNullOverEmpty row tested || meetsNullOverEmptyList row tested rest

end

mutual

/-- Abstract evaluation covers the value of every expression on every row on which no
    strict array comparison meets a NULL scalar and an empty array. -/
theorem CExpression.eberEvaluate_covers (row : Row V) (tested : Value V) :
    ∀ expr : CExpression V, expr.meetsNullOverEmpty row tested = false →
      expr.eberEvaluate.Covers (expr.eval row tested)
  | .ident _, _ => trivial
  | .const value, _ => eberConst_covers value
  | .boolOp op children, h =>
    (op.eber_allows (eberEvaluateList_covers row tested children h).allows).covers
  | .booleanTest test child, h =>
    test.eber_covers (child.eberEvaluate_covers row tested h).allows
  | .nullTest child, h => eberNullTest_covers (child.eberEvaluate_covers row tested h)
  | .call call children, h =>
    CallKind.eber_covers call (eberEvaluateList_covers row tested children h)
  | .arrayCmp cmp scalar array, h => by
    simp only [CExpression.meetsNullOverEmpty, Bool.or_eq_false_iff] at h
    exact cmp.eber_covers (scalar.eberEvaluate_covers row tested h.1.2)
      (array.eberEvaluate_covers row tested h.2) h.1.1
  | .isDistinctFrom op left right, h => by
    simp only [CExpression.meetsNullOverEmpty, Bool.or_eq_false_iff] at h
    exact eberIsDistinctFrom_covers op (left.eberEvaluate_covers row tested h.1)
      (right.eberEvaluate_covers row tested h.2)
  | .nullIf op left right, h => by
    simp only [CExpression.meetsNullOverEmpty, Bool.or_eq_false_iff] at h
    exact eberNullIf_covers op (left.eberEvaluate_covers row tested h.1)
      (right.eberEvaluate_covers row tested h.2)
  | .coalesce children, h =>
    eberNullOnAllNullChildren_covers (eberEvaluateList_covers row tested children h)
      coalesceValue_of_all_null
  | .minMax better children, h =>
    eberNullOnAllNullChildren_covers (eberEvaluateList_covers row tested children h)
      (minMaxValue_of_all_null better)
  | .scalarIf test yes no, h => by
    simp only [CExpression.meetsNullOverEmpty, Bool.or_eq_false_iff] at h
    apply eberNullOnAllNullChildren_covers
      (.cons (test.eberEvaluate_covers row tested h.1.1)
        (.cons (yes.eberEvaluate_covers row tested h.1.2)
          (.cons (no.eberEvaluate_covers row tested h.2) .nil)))
    intro all
    have null : test.eval row tested = none := all _ (by simp)
    have otherwise : no.eval row tested = none := all _ (by simp)
    rw [CExpression.eval, scalarIfValue, null, otherwise]
    rfl
  | .caseTest, _ => trivial
  | .switch arg whens thens otherwise, h => by
    simp only [CExpression.meetsNullOverEmpty, Bool.or_eq_false_iff] at h
    obtain ⟨⟨⟨hArg, hWhens⟩, hThens⟩, hOtherwise⟩ := h
    have cases := switchCases_covers
      (eberEvaluateList_covers row (arg.eval row tested) whens hWhens)
      (eberEvaluateList_covers row tested thens hThens)
    apply eberNullOnAllNullChildren_covers
      (.cons (arg.eberEvaluate_covers row tested hArg)
        (List.rel_append cases
          (.cons (otherwise.eberEvaluate_covers row tested hOtherwise) .nil)))
    intro all
    have default : otherwise.eval row tested = none := all _ (by simp)
    rw [CExpression.eval, default]
    apply switchValue_of_all_null
    intro outcome mem
    exact all outcome (List.mem_cons_of_mem _ (List.mem_append_left _ mem))
  | .subquery _ _, _ => trivial
  | .plain _ _ _, _ => trivial

theorem eberEvaluateList_covers (row : Row V) (tested : Value V) :
    ∀ children : List (CExpression V), meetsNullOverEmptyList row tested children = false →
      CoversAll (eberEvaluateList children) (evalList row tested children)
  | [], _ => .nil
  | expr :: rest, h => by
    simp only [meetsNullOverEmptyList, Bool.or_eq_false_iff] at h
    exact .cons (expr.eberEvaluate_covers row tested h.1)
      (eberEvaluateList_covers row tested rest h.2)

end

end ScalarExpr
