import Tuuli.TruthValues

/-!
Scalar expressions and their SQL meaning on a row. A value is a datum or NULL;
the operators that differ only in their strictness (comparisons, operators,
functions, casts and coercions) are one node with a `CallKind`. A subquery is
opaque: its value is any function of the row it is evaluated on.
-/
namespace ScalarExpr
open TruthValues

inductive Datum (V : Type) where
  | bool (value : Bool)
  | atom (value : V)
  | array (elements : List (Option (Datum V)))

abbrev Value (V : Type) := Option (Datum V)

abbrev Row (V : Type) := ℕ → Value V

inductive EFuncStbl where
  | immutable
  | stable
  | volatile
  deriving DecidableEq, Repr

inductive EBoolOperator where
  | and
  | or
  | not
  deriving DecidableEq, Repr

inductive EBoolTest where
  | isTrue
  | isNotTrue
  | isFalse
  | isNotFalse
  | isUnknown
  | isNotUnknown
  deriving DecidableEq, Repr

inductive EArrCmpType where
  | any
  | all
  deriving DecidableEq, Repr

/-- The operators evaluated on the values of their arguments, each with the
    strictness metadata of its class. -/
inductive CallKind where
  | cmp (returnsNullOnNullInput : Bool)
  | op (returnsNullOnNullInput : Bool)
  | func (returnsNullOnNullInput returnsSet : Bool)
  | cast (isBinaryCoercible returnsNullOnNullInput : Bool)
  | coerceToDomain (returnsNullOnNullInput : Bool)
  | coerceViaIo
  deriving DecidableEq, Repr

def CallKind.preservesNull : CallKind → Bool
  | .cmp strict => strict
  | .op strict => strict
  | .func strict _ => strict
  | .cast coercible strict => coercible || strict
  | .coerceToDomain strict => strict
  | .coerceViaIo => true

structure Call (V : Type) where
  kind : CallKind
  efs : EFuncStbl
  apply : List (Value V) → Value V

def Call.value {V : Type} (call : Call V) (arguments : List (Value V)) : Value V :=
  if call.kind.preservesNull && arguments.any Option.isNone then none
  else call.apply arguments

/-- The equality operator of `IS DISTINCT FROM` and `NULLIF`. -/
structure EqualityOp (V : Type) where
  efs : EFuncStbl
  same : Datum V → Datum V → Bool

structure ArrayComparison (V : Type) where
  kind : EArrCmpType
  returnsNullOnNullInput : Bool
  efs : EFuncStbl
  compare : Value V → Value V → Option Bool

inductive CExpression (V : Type) where
  | ident (column : ℕ)
  | const (value : Value V)
  | boolOp (op : EBoolOperator) (children : List (CExpression V))
  | booleanTest (test : EBoolTest) (child : CExpression V)
  | nullTest (child : CExpression V)
  | call (call : Call V) (children : List (CExpression V))
  | arrayCmp (cmp : ArrayComparison V) (scalar array : CExpression V)
  | isDistinctFrom (op : EqualityOp V) (left right : CExpression V)
  | nullIf (op : EqualityOp V) (left right : CExpression V)
  | coalesce (children : List (CExpression V))
  | minMax (better : Datum V → Datum V → Datum V) (children : List (CExpression V))
  | scalarIf (test yes no : CExpression V)
  | caseTest
  | switch (arg : CExpression V) (whens thens : List (CExpression V))
      (otherwise : CExpression V)
  | subquery (efs : EFuncStbl) (value : Row V → Value V)
  | plain (efs : EFuncStbl) (value : List (Value V) → Value V)
      (children : List (CExpression V))

variable {V : Type}

/-! ### Meaning of each operator on the values of its children -/

def truth : Value V → Option Bool
  | some (.bool b) => some b
  | _ => none

def ofTruth (t : Option Bool) : Value V :=
  t.map .bool

def EBoolOperator.value (op : EBoolOperator) (truths : List (Option Bool)) : Option Bool :=
  match op, truths with
  | .and, truths => conj truths
  | .or, truths => disj truths
  | .not, [t] => neg t
  | .not, _ => none

def EBoolTest.holds (test : EBoolTest) (t : Option Bool) : Bool :=
  match test with
  | .isTrue => t = some true
  | .isNotTrue => t ≠ some true
  | .isFalse => t = some false
  | .isNotFalse => t ≠ some false
  | .isUnknown => t = none
  | .isNotUnknown => t ≠ none

/-- The comparison of `scalar` with one element; a strict one is not called on NULL. -/
def ArrayComparison.element (cmp : ArrayComparison V) (scalar element : Value V) : Option Bool :=
  if cmp.returnsNullOnNullInput && (scalar.isNone || element.isNone) then none
  else cmp.compare scalar element

/-- `scalar op ANY (array)` is the disjunction of the comparisons with the elements
    and `scalar op ALL (array)` their conjunction, over a NULL array NULL. -/
def ArrayComparison.value (cmp : ArrayComparison V) (scalar array : Value V) : Option Bool :=
  match array with
  | some (.array elements) =>
    match cmp.kind with
    | .any => disj (elements.map (cmp.element scalar))
    | .all => conj (elements.map (cmp.element scalar))
  | _ => none

def EqualityOp.equal (op : EqualityOp V) : Datum V → Datum V → Bool
  | .bool a, .bool b => a == b
  | a, b => op.same a b

def EqualityOp.distinct (op : EqualityOp V) : Value V → Value V → Bool
  | none, none => false
  | some a, some b => !op.equal a b
  | _, _ => true

def EqualityOp.nullIf (op : EqualityOp V) : Value V → Value V → Value V
  | some a, some b => if op.equal a b then none else some a
  | a, _ => a

def coalesceValue : List (Value V) → Value V
  | [] => none
  | some a :: _ => some a
  | none :: rest => coalesceValue rest

def minMaxValue (better : Datum V → Datum V → Datum V) (values : List (Value V)) : Value V :=
  match values.filterMap id with
  | [] => none
  | a :: rest => some (rest.foldl better a)

def scalarIfValue (test yes no : Value V) : Value V :=
  if truth test = some true then yes else no

def switchValue (cases : List (Value V × Value V)) (otherwise : Value V) : Value V :=
  match cases.find? fun c => truth c.1 = some true with
  | some c => c.2
  | none => otherwise

mutual

/-- The value on a row; `tested` is the operand of the innermost enclosing `CASE`,
    which a `CScalarCaseTest` stands for in its conditions. -/
def CExpression.eval (row : Row V) (tested : Value V) : CExpression V → Value V
  | .ident column => row column
  | .const value => value
  | .boolOp op children => ofTruth (op.value ((evalList row tested children).map truth))
  | .booleanTest test child => some (.bool (test.holds (truth (child.eval row tested))))
  | .nullTest child => some (.bool (child.eval row tested).isNone)
  | .call call children => call.value (evalList row tested children)
  | .arrayCmp cmp scalar array =>
    ofTruth (cmp.value (scalar.eval row tested) (array.eval row tested))
  | .isDistinctFrom op left right =>
    some (.bool (op.distinct (left.eval row tested) (right.eval row tested)))
  | .nullIf op left right => op.nullIf (left.eval row tested) (right.eval row tested)
  | .coalesce children => coalesceValue (evalList row tested children)
  | .minMax better children => minMaxValue better (evalList row tested children)
  | .scalarIf test yes no =>
    scalarIfValue (test.eval row tested) (yes.eval row tested) (no.eval row tested)
  | .caseTest => tested
  | .switch arg whens thens otherwise =>
    switchValue
      ((evalList row (arg.eval row tested) whens).zip (evalList row tested thens))
      (otherwise.eval row tested)
  | .subquery _ value => value row
  | .plain _ value children => value (evalList row tested children)

def evalList (row : Row V) (tested : Value V) : List (CExpression V) → List (Value V)
  | [] => []
  | expr :: rest => expr.eval row tested :: evalList row tested rest

end

def CExpression.valueOn (expr : CExpression V) (row : Row V) : Value V :=
  expr.eval row none

end ScalarExpr
