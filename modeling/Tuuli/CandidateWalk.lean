import Tuuli.RewriteProgram
import Tuuli.RuleIndex

/-!
`PdrgpruleCandidates`: the walk of a live expression through the prefix index. It
collects the available rules stored at every node it passes. Which nodes it passes
depends on the path from the root only, so rules that share nodes and edges do not
influence each other.
-/
namespace RuleIndex
open WildcardTrie RewriteProgram

inductive EGbAggType where
  | global
  | intermediate
  | local
  deriving DecidableEq, Repr

/-- What the walks read of an operator; `payload` stands for what else `Matches` compares. -/
structure COperator where
  eopid : EOperatorId
  egbaggtype : EGbAggType
  payload : ℕ
  deriving DecidableEq, Repr

/-- The operator of a live node, with the derived property `DeriveHasSubquery` of the
    expression it is the root of. -/
structure LiveOp where
  pop : COperator
  deriveHasSubquery : Bool
  deriving DecidableEq, Repr

abbrev Expr := CExpression LiveOp

def fNullRejectedInnerView (edge : SExactEdge) (pop : COperator) : Bool :=
  edge.adapterFlags.nullRejectedInnerJoin && edge.eopid = .logicalInnerJoin &&
    (pop.eopid = .logicalLeftOuterJoin || pop.eopid = .logicalFullOuterJoin)

def fCarrierView (edge live : EOperatorId) : Bool :=
  (edge = .logicalGbAgg && live = .logicalGbAggDeduplicate) ||
    (edge = .logicalLeftAntiSemiApplyNotIn && live = .logicalLeftAntiSemiCorrelatedApplyNotIn) ||
    (edge = .logicalLeftSemiApply &&
      (live = .logicalLeftSemiCorrelatedApply || live = .logicalLeftSemiApplyIn ||
        live = .logicalLeftSemiCorrelatedApplyIn)) ||
    (edge = .logicalLeftAntiSemiApply && live = .logicalLeftAntiSemiCorrelatedApply) ||
    ((edge = .logicalInnerApply && live = .logicalInnerCorrelatedApply) ||
      (edge = .logicalLeftOuterApply && live = .logicalLeftOuterCorrelatedApply))

def fEdgeMatchesOperator (edge : SExactEdge) (pop : COperator) (fGbAggHasSubquery : Bool) : Bool :=
  if edge.eopid ≠ pop.eopid && !fNullRejectedInnerView edge pop &&
      !fCarrierView edge.eopid pop.eopid then false
  else if edge.adapterFlags.gbAggHasSubquery && !fGbAggHasSubquery then false
  else if !edge.adapterFlags.gbAggGlobal && !edge.adapterFlags.gbAggHasSubquery then true
  else !edge.adapterFlags.gbAggGlobal || pop.egbaggtype = .global

def gbAggHasSubquery (pop : COperator) (children : List Expr) : Bool :=
  match pop.eopid, children with
  | .logicalGbAgg, [_, projectList] => projectList.op.deriveHasSubquery
  | _, _ => false

def fEdgeMatches (edge : SExactEdge) (pop : COperator) (children : List Expr) : Bool :=
  fEdgeMatchesOperator edge pop (gbAggHasSubquery pop children) &&
    edge.ulChildren ≤ children.length

section Walk
variable {Rule : Type}

/-- The two arrays `MatchOne` appends to: entries met, and nodes reached behind the
    expression. -/
structure Found (Rule : Type) where
  entries : List (SRuleEntry Rule)
  nodes : List (SNode Rule)

namespace Found

def none : Found Rule := ⟨[], []⟩

def append (first second : Found Rule) : Found Rule :=
  ⟨first.entries ++ second.entries, first.nodes ++ second.nodes⟩

def collect {α : Type} (items : List α) (find : α → Found Rule) : Found Rule :=
  ⟨items.flatMap fun item => (find item).entries, items.flatMap fun item => (find item).nodes⟩

end Found

variable (available : SRuleEntry Rule → Bool)

def availableEntries (node : SNode Rule) : List (SRuleEntry Rule) :=
  node.entries.filter available

def matchInput (node : SNode Rule) : Found Rule :=
  match node.wild with
  | none => .none
  | some child =>
    if child.any available then ⟨availableEntries available child, [child]⟩ else .none

mutual

def matchOne : Expr → SNode Rule → Found Rule
  | .node live children, node =>
    (matchInput available node).append
      (.collect node.edges fun edge =>
        if fEdgeMatches edge.1 live.pop children && edge.2.any available then
          Found.append ⟨availableEntries available edge.2, []⟩
            (matchChildren edge.1.adapterFlags true edge.1.ulChildren children [edge.2])
        else .none)

def matchChildren (flags : AdapterFlags) :
    Bool → ℕ → List Expr → List (SNode Rule) → Found Rule
  | _, 0, _, states => ⟨[], states⟩
  | _, _ + 1, [], _ => .none
  | first, count + 1, child :: rest, states =>
    let next := Found.collect states fun state =>
      (matchOne child state).append
        ((if first && flags.projectPeelLimit then matchBelowLimits child state
            else .none).append
          (if first then matchBelowGrouping flags child state else .none))
    Found.append ⟨next.entries, []⟩ (matchChildren flags false count rest next.nodes)

def matchBelowLimits : Expr → SNode Rule → Found Rule
  | .node live (below :: others), state =>
    if live.pop.eopid = .logicalLimit && others.length = 2 then
      (matchOne below state).append (matchBelowLimits below state)
    else .none
  | .node _ [], _ => .none

def matchBelowGrouping (flags : AdapterFlags) : Expr → SNode Rule → Found Rule
  | .node live [below, _], state =>
    if (flags.projectPeelAgg && live.pop.eopid = .logicalGbAgg) ||
        (flags.gbAggPeelProject && live.pop.eopid = .logicalProject) then
      matchOne below state
    else .none
  | _, _ => .none

end

def dropRepeated [DecidableEq Rule] : Option Rule → List Rule → List Rule
  | _, [] => []
  | previous, rule :: rest =>
    if some rule = previous then dropRepeated previous rest
    else rule :: dropRepeated (some rule) rest

def pdrgpruleCandidates [DecidableEq Rule] (index : CDSLRulePrefixIndex Rule) (expr : Expr) :
    List Rule :=
  let found := availableEntries available index.root ++
    (matchOne available expr index.root).entries
  dropRepeated none ((found.insertionSort fun left right =>
    left.ordinal ≤ right.ordinal).map SRuleEntry.rule)

end Walk

end RuleIndex
