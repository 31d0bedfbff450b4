import Mathlib.Data.Int.Notation
import Mathlib.Data.List.Basic

/-!
`pg_orca_remove_redundant_results`: a `Result` that only projects is dropped and its target list,
with the child's expressions in place of the child's columns, becomes the target list of the
child. A child's expression is not copied, and its type modifier is overwritten in place, so
`Var` and `Const` nodes have an identity and their type modifiers are in a heap.
-/
namespace RedundantResults

section Trees

inductive Varno where
  | outer
  | other (n : ℕ)
  deriving DecidableEq, Repr

structure FuncOp where
  oid : ℕ
  contain_volatile : Bool
  returns_set : Bool
  deriving DecidableEq, Repr

/-- Expressions of target lists. `ref` is the node a `Var` or a `Const` is. -/
inductive Expr (V : Type) where
  | var (ref : ℕ) (varno : Varno) (varattno : ℤ)
  | const (ref : ℕ) (value : V)
  | param (id : ℕ)
  | subPlan (id : ℕ)
  | aggref (id : ℕ)
  | func (op : FuncOp) (args : List (Expr V))

structure Estimates where
  startup_cost : ℕ
  total_cost : ℕ
  plan_rows : ℕ
  plan_width : ℕ
  deriving DecidableEq, Repr

/-- What the walker reads of a plan node, apart from its target list and children. `tag` stands
for the operator and all its other fields. -/
structure PlanNode where
  tag : ℕ
  isResult : Bool
  resconstantqual : Bool
  initPlan : Bool
  qual : Bool
  is_projection_capable : Bool
  estimates : Estimates
  deriving DecidableEq, Repr

/-- The children are those that the walker visits, in its order. The first one is `lefttree`. -/
inductive Plan (V : Type) where
  | node (info : PlanNode) (targetlist : List (Expr V)) (children : List (Plan V))

variable {V : Type}

def Plan.targetlist : Plan V → List (Expr V)
  | .node _ targetlist _ => targetlist

theorem Expr.induct {P : Expr V → Prop} (var : ∀ ref varno varattno, P (.var ref varno varattno))
    (const : ∀ ref value, P (.const ref value)) (param : ∀ id, P (.param id))
    (subPlan : ∀ id, P (.subPlan id)) (aggref : ∀ id, P (.aggref id))
    (func : ∀ op args, (∀ arg ∈ args, P arg) → P (.func op args)) : ∀ expr, P expr
  | .var ref varno varattno => var ref varno varattno
  | .const ref value => const ref value
  | .param id => param id
  | .subPlan id => subPlan id
  | .aggref id => aggref id
  | .func op args => func op args fun arg _ =>
      Expr.induct var const param subPlan aggref func arg

theorem Plan.induct {P : Plan V → Prop}
    (node : ∀ info targetlist children, (∀ child ∈ children, P child) → P (.node info targetlist
      children)) : ∀ plan, P plan
  | .node info targetlist children => node info targetlist children fun child _ =>
      Plan.induct node child

end Trees

section Tests
variable {V : Type}

mutual

def Expr.anyNode (test : Expr V → Bool) : Expr V → Bool
  | .func op args => test (.func op args) || Expr.anyArg test args
  | expr => test expr

def Expr.anyArg (test : Expr V → Bool) : List (Expr V) → Bool
  | [] => false
  | arg :: rest => Expr.anyNode test arg || Expr.anyArg test rest

end

def containVolatileFunctions : Expr V → Bool := Expr.anyNode fun
  | .func op _ => op.contain_volatile
  | _ => false

def containSubplans : Expr V → Bool := Expr.anyNode fun
  | .subPlan _ => true
  | _ => false

def expressionReturnsSet : Expr V → Bool := Expr.anyNode fun
  | .func op _ => op.returns_set
  | _ => false

def tlistHasEffects (tlist : List (Expr V)) : Bool :=
  tlist.any containVolatileFunctions || tlist.any containSubplans

def tlistUnsafeToPushWalker : Expr V → Bool := Expr.anyNode fun
  | .var _ varno varattno => varno ≠ .outer || varattno ≤ 0
  | .param _ => true
  | _ => false

def tlistSafeToPush (tlist : List (Expr V)) : Bool :=
  if tlistHasEffects tlist then false else !tlist.any tlistUnsafeToPushWalker

def canReplaceTlist (info : PlanNode) (targetlist : List (Expr V)) : Bool :=
  !(targetlist.any expressionReturnsSet || tlistHasEffects targetlist) &&
    info.is_projection_capable

/-- A `Result` that only projects. -/
def PlanNode.projectsOnly (info : PlanNode) : Bool :=
  info.isResult && !info.resconstantqual && !info.initPlan && !info.qual

end Tests

section Walker
variable {V : Type}

abbrev Heap := ℕ → ℤ

def Expr.ref? : Expr V → Option ℕ
  | .var ref _ _ => some ref
  | .const ref _ => some ref
  | _ => none

def correctTypmod (expr : Expr V) (typmod : ℤ) (heap : Heap) : Heap :=
  match expr.ref? with
  | some ref => Function.update heap ref typmod
  | none => heap

mutual

/-- Copied nodes keep the identity of the originals, which the walker drops. -/
def pushDownExprMutator (childTlist : List (Expr V)) : Expr V → Heap → Expr V × Heap
  | .var ref varno varattno, heap =>
    if varno = .outer ∧ 0 < varattno then
      match childTlist[varattno.toNat - 1]? with
      | some expr => (expr, correctTypmod expr (heap ref) heap)
      | none => (.var ref varno varattno, heap)
    else (.var ref varno varattno, heap)
  | .func op args, heap =>
    let (args, heap) := pushDownArgs childTlist args heap
    (.func op args, heap)
  | expr, heap => (expr, heap)

def pushDownArgs (childTlist : List (Expr V)) : List (Expr V) → Heap → List (Expr V) × Heap
  | [], heap => ([], heap)
  | arg :: rest, heap =>
    let (arg, heap) := pushDownExprMutator childTlist arg heap
    let (rest, heap) := pushDownArgs childTlist rest heap
    (arg :: rest, heap)

end

def fRedundant (info : PlanNode) (targetlist : List (Expr V)) : Plan V → Bool
  | .node childInfo childTlist _ =>
    info.projectsOnly && !targetlist.any expressionReturnsSet && tlistSafeToPush targetlist &&
      canReplaceTlist childInfo childTlist

def absorb (info : PlanNode) (targetlist : List (Expr V)) (heap : Heap) : Plan V → Plan V × Heap
  | .node childInfo childTlist grandchildren =>
    let (targetlist, heap) := pushDownArgs childTlist targetlist heap
    (.node { childInfo with estimates := info.estimates } targetlist grandchildren, heap)

def removeResult (info : PlanNode) (targetlist : List (Expr V)) (children : List (Plan V))
    (heap : Heap) : Plan V × Heap :=
  match children with
  | [] => (.node info targetlist [], heap)
  | child :: _ =>
    if fRedundant info targetlist child then absorb info targetlist heap child
    else (.node info targetlist children, heap)

mutual

def removeRedundantResultsWalker : Plan V → Heap → Plan V × Heap
  | .node info targetlist children, heap =>
    let (children, heap) := recursePlanChildren children heap
    removeResult info targetlist children heap

def recursePlanChildren : List (Plan V) → Heap → List (Plan V) × Heap
  | [], heap => ([], heap)
  | child :: rest, heap =>
    let (child, heap) := removeRedundantResultsWalker child heap
    let (rest, heap) := recursePlanChildren rest heap
    (child :: rest, heap)

end

end Walker

section Rows

/-- How plan nodes make rows. Target lists are evaluated at tuples of a type `T`. A node that
cannot project passes on rows of its children. -/
structure Machine (V T : Type) where
  null : V
  outer : T → List V
  resultTuple : List V → T
  outer_resultTuple : ∀ row, outer (resultTuple row) = row
  var : T → Varno → ℤ → V
  param : T → ℕ → V
  subPlan : T → ℕ → V
  aggref : T → ℕ → V
  func : FuncOp → List V → V
  tuples : ℕ → List (List (List V)) → List T
  passed : ℕ → List (List (List V)) → List (List V)

variable {V T : Type} (machine : Machine V T)

mutual

def Expr.eval (tuple : T) : Expr V → V
  | .var _ varno varattno =>
    if varno = .outer ∧ 0 < varattno then
      ((machine.outer tuple)[varattno.toNat - 1]?).getD machine.null
    else machine.var tuple varno varattno
  | .const _ value => value
  | .param id => machine.param tuple id
  | .subPlan id => machine.subPlan tuple id
  | .aggref id => machine.aggref tuple id
  | .func op args => machine.func op (Expr.evalArgs tuple args)

def Expr.evalArgs (tuple : T) : List (Expr V) → List V
  | [] => []
  | arg :: rest => Expr.eval tuple arg :: Expr.evalArgs tuple rest

end

def tuplesOf (info : PlanNode) : List (List (List V)) → List T
  | [] => machine.tuples info.tag []
  | input :: rest =>
    if info.projectsOnly then input.map machine.resultTuple
    else machine.tuples info.tag (input :: rest)

def emit (info : PlanNode) (targetlist : List (Expr V)) (inputs : List (List (List V))) :
    List (List V) :=
  if info.is_projection_capable || info.isResult then
    (tuplesOf machine info inputs).map fun tuple => Expr.evalArgs machine tuple targetlist
  else machine.passed info.tag inputs

mutual

def Plan.rows : Plan V → List (List V)
  | .node info targetlist children => emit machine info targetlist (Plan.rowsAll children)

def Plan.rowsAll : List (Plan V) → List (List (List V))
  | [] => []
  | child :: rest => Plan.rows child :: Plan.rowsAll rest

end

end Rows

end RedundantResults
