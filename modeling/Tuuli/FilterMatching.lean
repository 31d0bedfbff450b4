import Tuuli.AssignmentSearch
import Tuuli.RuleModels

/-!
`CDSLFilterMatcher::FMatch` of a rule without expression bindings on a `Select`: the chain of
DSL Filters is assigned to the conjuncts of the live predicate, and `FCheck` goes through the
constraints of the rule. The matcher of the operator below the chain and the checks of constraints
other than equalities are parameters, and what is known of a predicate is the object it is, the
columns it uses and the engine's tests. If the rule asks for subqueries to be lowered first, the
`Select` is the lowered one.
-/
namespace FilterMatching
open AssignmentSearch RuleModels

section Syntax

structure CExpression where
  pointer : ℕ
  used : List ℕ
  deriving DecidableEq, Repr

inductive EOperatorId where
  | innerJoin | leftOuterJoin | fullOuterJoin | other
  deriving DecidableEq, Repr

/-- A live relational operator other than `Select`. `equalities` are the plain equalities of two
columns among the conjuncts of its predicate. -/
structure CRelation where
  eopid : EOperatorId
  arity : ℕ
  output : List ℕ
  leftOutput : List ℕ
  rightOutput : List ℕ
  equalities : List (ℕ × ℕ)
  deriving DecidableEq, Repr

inductive CLogical where
  | select (predicate : CExpression) (child : CLogical)
  | relation (rel : CRelation)
  deriving DecidableEq, Repr

def CLogical.deriveOutputColumns : CLogical → List ℕ
  | .select _ child => child.deriveOutputColumns
  | .relation rel => rel.output

structure CDSLFilter where
  pred : CDSLSymbol
  attrs : CDSLSymbol
  outer : Option CDSLSymbol
  deriving DecidableEq, Repr

def CDSLFilter.dependencies (filter : CDSLFilter) : List (CDSLSymbol × ℕ) :=
  (filter.attrs :: filter.outer.toList).zipIdx

inductive EDslOp where
  | innerJoin | leftJoin | other
  deriving DecidableEq, Repr

/-- What the matcher reads of a rule: the chain of Filters, the operator below it with its two
key symbols, the constraints, and whether one of them partitions the complete predicate. -/
structure CDSLRule where
  filters : List CDSLFilter
  base : EDslOp
  baseAttrs : Option (CDSLSymbol × CDSLSymbol)
  constraints : List CDSLConstraint
  fRequiresCompleteSelectChain : Bool
  nonempty : filters ≠ []

abbrev Model := CDSLModel CDSLSymbol (Binding CExpression)

/-- `fMatchBase` matches the operator below the chain. `fMaterialize` derives target symbols after
a check, and `fCheckOther` checks a constraint that is no equality and derives its symbols; both
also know the constraints checked before. -/
structure Engine where
  pdrgpexprConjuncts : CExpression → List CExpression
  pexprConjunction : List CExpression → CExpression
  fMatches : CExpression → CExpression → Bool
  fNullRejecting : CExpression → List ℕ → Bool
  fMatchBase : CDSLRule → CLogical → Model → Option Model
  fColArraysSemanticEqual : CDSLRule → Model → List ℕ → List ℕ → Bool
  fSameCapturedExpression : CExpression → CExpression → Bool
  fEqualArtifacts : EDslConstraintKind → CExpression → CExpression → Bool
  fMaterialize : CDSLRule → List CDSLConstraint → CDSLConstraint → Model → Option Model
  fCheckOther : CDSLRule → List CDSLConstraint → CDSLConstraint → Model → Option Model

end Syntax

section Bindings

def sameBinding : Binding CExpression → Binding CExpression → Bool
  | .attrs existing, .attrs value => existing = value
  | .artifact existing, .artifact value => existing.pointer = value.pointer
  | _, _ => false

/-- A Filter with one vector depends on all used columns; with two, on those of its input and
on the others. -/
def pdrgpcrDependencies (filter : CDSLFilter) (predicate : CExpression) (base : CLogical)
    (position : ℕ) : List ℕ :=
  match filter.outer with
  | none => predicate.used
  | some _ =>
    if position = 0 then predicate.used.filter (· ∈ base.deriveOutputColumns)
    else predicate.used.filter (· ∉ base.deriveOutputColumns)

def fBindFilterSymbols (filter : CDSLFilter) (predicate : CExpression) (base : CLogical)
    (model : Model) : Option Model := do
  let model ← model.fBind sameBinding filter.pred (.artifact predicate)
  filter.dependencies.foldlM
    (fun model (sym, position) => model.fBind sameBinding sym
      (.attrs (pdrgpcrDependencies filter predicate base position))) model

end Bindings

section Compatibility
variable (engine : Engine) (rule : CDSLRule)

def fDirectEquality (kind : EDslConstraintKind) (first second : CDSLSymbol) : Bool :=
  first = second || rule.constraints.any fun con =>
    con.kind = kind && (con.symbols = [first, second] || con.symbols = [second, first])

def joinKey (left : List ℕ) (pair : ℕ × ℕ) : Option (ℕ × ℕ) :=
  if pair.1 ∈ left && pair.2 ∉ left then some pair
  else if pair.2 ∈ left && pair.1 ∉ left then some (pair.2, pair.1)
  else none

def extractJoinKeys (join : CRelation) : List ℕ × List ℕ :=
  (join.equalities.filterMap (joinKey join.leftOutput)).unzip

/-- A dependency vector that the rule equates with a key symbol must be the keys of that side,
and of an inner join those of either side. -/
def fBaseAssignmentCompatible (filter : CDSLFilter) (base : CLogical) (candidate : CExpression) :
    Bool :=
  match rule.baseAttrs, base with
  | some (symLeft, symRight), .relation join =>
    if join.arity ≠ 3 then true
    else if !((rule.base = .innerJoin && join.eopid = .innerJoin) ||
        (rule.base = .leftJoin && join.eopid = .leftOuterJoin)) then true
    else
      let (left, right) := extractJoinKeys join
      filter.dependencies.all fun (sym, position) =>
        let linkedLeft := fDirectEquality rule .attrsEq sym symLeft
        let linkedRight := fDirectEquality rule .attrsEq sym symRight
        if !linkedLeft && !linkedRight then true
        else
          let deps := pdrgpcrDependencies filter candidate (.relation join) position
          (linkedLeft && left ≠ [] && deps = left) ||
            (linkedRight && right ≠ [] && deps = right) ||
            (rule.base = .innerJoin && ((linkedLeft && right ≠ [] && deps = right) ||
              (linkedRight && left ≠ [] && deps = left)))
  | _, _ => true

def fPairCompatible (base : CLogical) (filter previous : CDSLFilter)
    (candidate assigned : CExpression) : Bool :=
  (filter.dependencies.all fun (sym, position) =>
    previous.dependencies.all fun (symPrevious, positionPrevious) =>
      !fDirectEquality rule .attrsEq sym symPrevious ||
        pdrgpcrDependencies filter candidate base position =
          pdrgpcrDependencies previous assigned base positionPrevious) &&
  (!fDirectEquality rule .predicateEq filter.pred previous.pred ||
    engine.fMatches candidate assigned)

variable (conjuncts : List CExpression) (base : CLogical)

def fAssignmentCompatible (assigned : List ℕ) (candidate : ℕ) : Bool :=
  match rule.filters[assigned.length]?, conjuncts[candidate]? with
  | some filter, some expr =>
    (rule.filters.zip assigned).all (fun (previous, position) =>
      conjuncts[position]?.all fun other =>
        fPairCompatible engine rule base filter previous expr other) &&
    fBaseAssignmentCompatible rule filter base expr
  | _, _ => false

end Compatibility

section Checks
variable (engine : Engine) (rule : CDSLRule)

/-- Target symbols are not bound while the source is matched. -/
def fCheckEquality (con : CDSLConstraint) (model : Model) : Bool :=
  match con.symbols with
  | [first, second] =>
    match model first, model second with
    | none, _ | _, none => true
    | some (.attrs columns), some (.attrs columns') =>
      engine.fColArraysSemanticEqual rule model columns columns'
    | some (.artifact value), some (.artifact value') =>
      match con.kind with
      | .predicateEq | .scalarEq | .exprListEq | .windowEq =>
        engine.fSameCapturedExpression value value'
      | kind => engine.fEqualArtifacts kind value value'
    | _, _ => false
  | _ => false

def fCheckOne (checked : List CDSLConstraint) (con : CDSLConstraint) (model : Model) :
    Option Model :=
  if fEquality con.kind then
    if fCheckEquality engine rule con model then engine.fMaterialize rule checked con model
    else none
  else engine.fCheckOther rule checked con model

def checkFrom : List CDSLConstraint → List CDSLConstraint → Model → Bool
  | _, [], _ => true
  | checked, con :: rest, model =>
    match fCheckOne engine rule checked con model with
    | none => false
    | some next => checkFrom (checked ++ [con]) rest next

def fCheck (model : Model) : Bool := checkFrom engine rule [] rule.constraints model

end Checks

section Match
variable (engine : Engine) (rule : CDSLRule)

def pexprCollectSelectChain (collectAll : Bool) (conjuncts : List CExpression) :
    CLogical → List CExpression × CLogical
  | .relation rel => (conjuncts, .relation rel)
  | .select predicate child =>
    let conjuncts := conjuncts ++ engine.pdrgpexprConjuncts predicate
    if !collectAll && rule.filters.length ≤ conjuncts.length then (conjuncts, child)
    else pexprCollectSelectChain collectAll conjuncts child

def fCompletePredicate : Bool :=
  match rule.filters with
  | [filter] => filter.outer.isSome
  | _ => false

def pexprNullRejectedInnerJoin (predicate : CExpression) (join : CRelation) : Option CRelation :=
  if join.arity ≠ 3 then none
  else if engine.fNullRejecting predicate join.rightOutput &&
      (join.eopid ≠ .fullOuterJoin || engine.fNullRejecting predicate join.leftOutput) then
    some { join with eopid := .innerJoin }
  else none

def matchView (conjuncts : List CExpression) (base : CLogical) :
    Option (List CExpression × CLogical) :=
  match base with
  | .relation join =>
    if rule.base = .innerJoin && (join.eopid = .leftOuterJoin || join.eopid = .fullOuterJoin) then
      let combined := engine.pexprConjunction conjuncts
      (pexprNullRejectedInnerJoin engine combined join).map fun inner =>
        (engine.pdrgpexprConjuncts combined, .relation inner)
    else some (conjuncts, base)
  | .select _ _ => some (conjuncts, base)

def collected (expr : CLogical) : Option (List CExpression × CLogical) :=
  match expr with
  | .relation _ => none
  | .select _ _ =>
    let (conjuncts, base) := pexprCollectSelectChain engine rule
      (fCompletePredicate rule && rule.fRequiresCompleteSelectChain) [] expr
    matchView engine rule conjuncts base

def recordResidual (conjuncts : List CExpression) (assigned : List ℕ) : List CExpression :=
  (conjuncts.zipIdx.filter fun entry => entry.2 ∉ assigned).map Prod.fst

def bindChain (conjuncts : List CExpression) (base : CLogical) (assigned : List ℕ) :
    Option Model :=
  (rule.filters.zip assigned).foldlM
    (fun model (filter, position) => do
      let predicate ← conjuncts[position]?
      fBindFilterSymbols filter predicate base model) .empty

/-- A complete assignment is tried on a model of its own, but only if some conjunct is left. -/
def validated (conjuncts : List CExpression) (base : CLogical) (assigned : List ℕ) : Bool :=
  conjuncts.length ≤ rule.filters.length ||
    ((bindChain rule conjuncts base assigned).bind (engine.fMatchBase rule base)).any
      (fCheck engine rule)

def fAssign (conjuncts : List CExpression) (base : CLogical) : Option (List ℕ) :=
  search conjuncts.length (fAssignmentCompatible engine rule conjuncts base)
    (validated engine rule conjuncts base) rule.filters.length []

abbrev Outcome := Model × List CExpression

def bindComplete (conjuncts : List CExpression) (base : CLogical) : Option Outcome := do
  let filter ← rule.filters.head?
  let model ← fBindFilterSymbols filter (engine.pexprConjunction conjuncts) base .empty
  return (model, [])

def bindAssigned (conjuncts : List CExpression) (base : CLogical) (assigned : List ℕ) :
    Option Outcome :=
  (bindChain rule conjuncts base assigned).map (·, recordResidual conjuncts assigned)

def bindFilters (conjuncts : List CExpression) (base : CLogical) : Option Outcome :=
  if fCompletePredicate rule then bindComplete engine rule conjuncts base
  else if conjuncts = [] then none
  else (fAssign engine rule conjuncts base).bind (bindAssigned rule conjuncts base)

/-- The bindings of a match, with the conjuncts that are left. Chains of more than 16 Filters
are not matched. -/
def fMatch (expr : CLogical) : Option Outcome :=
  if 16 < rule.filters.length then none
  else
    match collected engine rule expr with
    | none => none
    | some (conjuncts, base) =>
      (bindFilters engine rule conjuncts base).bind fun (model, residual) =>
        (engine.fMatchBase rule base model).map (·, residual)

end Match

end FilterMatching
