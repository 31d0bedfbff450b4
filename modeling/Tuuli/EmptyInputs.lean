import Mathlib.Data.Int.Notation
import Tuuli.RuleModels

/-!
The constraint `EmptyInputCompensation(upper, lower, outputs, funcs)`: the aggregates `funcs` with
the columns `outputs` are read by the project list `lower`, and `upper` must not notice whether a
count over an empty input is zero or NULL.
-/
namespace EmptyInputs
open RuleModels

section Expressions

inductive EtiType where
  | int8
  | other (id : ℕ)
  deriving DecidableEq, Repr

structure Datum where
  datumType : EtiType
  isNull : Bool
  value : ℤ
  deriving DecidableEq, Repr

/-- An aggregate function: `count(*)`, `count(x)`, one with an object id, or another one. -/
inductive Aggregate where
  | countStar
  | countAny
  | general (oid : ℕ)
  | other
  deriving DecidableEq, Repr

/-- Operators but for identifiers and constants. A project element defines a column. All others
are `other`, with the columns in their descriptors and the columns that their inputs produce. -/
inductive COperator where
  | projectList
  | projectElement (pcr : ℕ)
  | coalesce
  | aggFunc (aggregate : Aggregate)
  | other (id : ℕ) (columns produced : List ℕ)
  deriving DecidableEq, Repr

inductive CExpression where
  | ident (pcr : ℕ)
  | const (datum : Datum)
  | node (op : COperator) (children : List CExpression)

theorem CExpression.induct {P : CExpression → Prop} (ident : ∀ pcr, P (.ident pcr))
    (const : ∀ datum, P (.const datum))
    (node : ∀ op children, (∀ child ∈ children, P child) → P (.node op children)) :
    ∀ expr, P expr
  | .ident pcr => ident pcr
  | .const datum => const datum
  | .node op children => node op children fun child _ =>
      CExpression.induct ident const node child

def COperator.produced : COperator → List ℕ
  | .other _ _ produced => produced
  | _ => []

def COperator.outerColumns : COperator → List ℕ
  | .other _ columns produced => columns.filter (· ∉ produced)
  | _ => []

mutual

def CExpression.deriveUsedColumns : CExpression → List ℕ
  | .ident pcr => [pcr]
  | .const _ => []
  | .node op children => op.outerColumns ++ (usedByChildren children).filter (· ∉ op.produced)

def usedByChildren : List CExpression → List ℕ
  | [] => []
  | child :: rest => child.deriveUsedColumns ++ usedByChildren rest

end

end Expressions

section Checks

def Aggregate.isCount : Aggregate → Bool
  | .countStar | .countAny => true
  | _ => false

/-- The object ids of `min` and `max` over `int2`, `int4` and `int8`. -/
def minMaxOids : List ℕ := [2133, 2117, 2132, 2116, 2131, 2115]

def fAggFuncProvablyNullOnEmpty : Aggregate → Bool
  | .general oid => oid ∈ minMaxOids
  | _ => false

def fScalarInt8Zero : CExpression → Bool
  | .const datum => !datum.isNull && datum.datumType = .int8 && datum.value = 0
  | _ => false

def coalescedToZero (pcr : ℕ) : COperator → List CExpression → Bool
  | .coalesce, [.ident column, default] => column = pcr && fScalarInt8Zero default
  | _, _ => false

mutual

def fAllUsesCoalescedToZero (pcr : ℕ) : CExpression → Bool → Bool × Bool
  | .ident column, found => (column ≠ pcr, found)
  | .const _, found => (true, found)
  | .node op children, found =>
    if coalescedToZero pcr op children then (true, true)
    else allUsesInChildren pcr children found

def allUsesInChildren (pcr : ℕ) : List CExpression → Bool → Bool × Bool
  | [], found => (true, found)
  | child :: rest, found =>
    if (fAllUsesCoalescedToZero pcr child found).1 then
      allUsesInChildren pcr rest (fAllUsesCoalescedToZero pcr child found).2
    else (false, (fAllUsesCoalescedToZero pcr child found).2)

end

/-- The elements of the lower list that read a count. `none` if one of them is not compensated,
otherwise whether there is one. -/
def mapped (upper : CExpression) (pcrOutput : ℕ) : List CExpression → Bool → Option Bool
  | [], fMapped => some fMapped
  | .node (.projectElement pcrIntermediate) [value] :: rest, fMapped =>
    if pcrOutput ∉ value.deriveUsedColumns then mapped upper pcrOutput rest fMapped
    else
      match value with
      | .ident column =>
        if column ≠ pcrOutput then none
        else if pcrIntermediate = pcrOutput ||
            !(fAllUsesCoalescedToZero pcrIntermediate upper false).1 ||
            !(fAllUsesCoalescedToZero pcrIntermediate upper false).2 then none
        else mapped upper pcrOutput rest true
      | _ => none
  | _, _ => none

def compensated (upper : CExpression) (lower : List CExpression) :
    List (CExpression × ℕ) → Bool → Bool
  | [], fHasZeroOnEmpty => fHasZeroOnEmpty
  | (.node (.aggFunc aggregate) _, pcrOutput) :: rest, fHasZeroOnEmpty =>
    if !aggregate.isCount then
      if !fAggFuncProvablyNullOnEmpty aggregate then false
      else compensated upper lower rest fHasZeroOnEmpty
    else
      match mapped upper pcrOutput lower false with
      | none => false
      | some fMapped =>
        if !fMapped || pcrOutput ∈ upper.deriveUsedColumns then false
        else compensated upper lower rest true
  | _, _ => false

inductive Captured where
  | expr (expr : CExpression)
  | func (funcs : List CExpression)

abbrev Model := CDSLModel CDSLSymbol (Binding Captured)

def Model.pexprExpr (model : Model) (sym : CDSLSymbol) : Option CExpression :=
  match model sym with
  | some (.artifact (.expr expr)) => some expr
  | _ => none

def Model.pdrgpcrAttrs (model : Model) (sym : CDSLSymbol) : Option (List ℕ) :=
  match model sym with
  | some (.attrs columns) => some columns
  | _ => none

def Model.pdrgpexprFunc (model : Model) (sym : CDSLSymbol) : Option (List CExpression) :=
  match model sym with
  | some (.artifact (.func funcs)) => some funcs
  | _ => none

def fCompensates (upper lower : CExpression) (outputs : List ℕ) (funcs : List CExpression) : Bool :=
  match upper, lower with
  | .node .projectList upperElems, .node .projectList lowerElems =>
    if funcs.length = 0 ∨ outputs.length ≠ funcs.length then false
    else compensated (.node .projectList upperElems) lowerElems (funcs.zip outputs) false
  | _, _ => false

def fCheckEmptyInputCompensation (con : CDSLConstraint) (model : Model) :
    Bool :=
  match con.symbols with
  | [e0, e1, a, f] =>
    if e0.kind ≠ .expr ∨ e1.kind ≠ .expr ∨ a.kind ≠ .attrs ∨ f.kind ≠ .func then false
    else
      match model.pexprExpr e0, model.pexprExpr e1, model.pdrgpcrAttrs a,
          model.pdrgpexprFunc f with
      | some upper, some lower, some outputs, some funcs => fCompensates upper lower outputs funcs
      | _, _, _, _ => false
  | _ => false

end Checks

section Values

/-- A meaning of the operators. An operator gets the values of the columns that its descriptor
reads from outside, and may evaluate its children with any values for the columns that its inputs
produce. `COALESCE` is only known where the default is zero. -/
structure Interpretation (V : Type) where
  null : V
  zero : V
  const : Datum → V
  apply : COperator → List V → List ((ℕ → V) → V) → V
  const_zero : ∀ datum, fScalarInt8Zero (.const datum) = true → const datum = zero
  coalesce_null : apply .coalesce [] [fun _ => null, fun _ => zero] = zero
  coalesce_value : ∀ value, value ≠ null →
    apply .coalesce [] [fun _ => value, fun _ => zero] = value

variable {V : Type} (interpretation : Interpretation V)

def bound (produced : List ℕ) (bindings row : ℕ → V) : ℕ → V := fun pcr =>
  if pcr ∈ produced then bindings pcr else row pcr

mutual

def CExpression.eval : CExpression → (ℕ → V) → V
  | .ident pcr, row => row pcr
  | .const datum, _ => interpretation.const datum
  | .node op children, row =>
    interpretation.apply op (op.outerColumns.map row) (evalChildren op.produced row children)

def evalChildren (produced : List ℕ) (row : ℕ → V) : List CExpression → List ((ℕ → V) → V)
  | [] => []
  | child :: rest =>
    (fun bindings => child.eval (bound produced bindings row)) :: evalChildren produced row rest

end

def definition (elems : List CExpression) (pcr : ℕ) : Option CExpression :=
  elems.findSome? fun
    | .node (.projectElement column) [value] => if column = pcr then some value else none
    | _ => none

def projected (elems : List CExpression) (row : ℕ → V) : ℕ → V := fun pcr =>
  match definition elems pcr with
  | some value => value.eval interpretation row
  | none => row pcr

def emptyResult : CExpression → V
  | .node (.aggFunc aggregate) _ =>
    if aggregate.isCount then interpretation.zero else interpretation.null
  | _ => interpretation.null

def emptyRow (aggregates : List (CExpression × ℕ)) (row : ℕ → V) : ℕ → V := fun pcr =>
  match aggregates.find? fun aggregate => aggregate.2 = pcr with
  | some aggregate => emptyResult interpretation aggregate.1
  | none => row pcr

def nullRow (aggregates : List (CExpression × ℕ)) (row : ℕ → V) : ℕ → V := fun pcr =>
  match aggregates.find? fun aggregate => aggregate.2 = pcr with
  | some _ => interpretation.null
  | none => row pcr

end Values
end EmptyInputs
