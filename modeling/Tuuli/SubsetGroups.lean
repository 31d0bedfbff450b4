import Tuuli.HyperPlan
import Tuuli.RegionTree
import Tuuli.JoinRequest

/-!
How a plan for a pure-inner region enters the Memo. Every node set has one
group; the groups of the original joins are recorded first, so that the joins
of the plan are added beside the original ones and share their inputs.
-/
namespace JoinRegion
open DPHyper hiding CBitSet

variable {V : Type}

structure CGroupExpression (V : Type) where
  leftGroup : ℕ
  rightGroup : ℕ
  predicate : CPredicate V

structure SEntry where
  nodes : CBitSet
  group : ℕ

abbrev CSubsetGroups := List SEntry

namespace CSubsetGroups

def lookup : CSubsetGroups → CBitSet → Option ℕ
  | [], _ => none
  | entry :: rest, nodes => if entry.nodes = nodes then some entry.group else lookup rest nodes

/-- A recorded set keeps its group. The source would merge the two groups here;
an identical join of the same inputs is always in the same group already. -/
def record (groups : CSubsetGroups) (nodes : CBitSet) (group : ℕ) : CSubsetGroups × ℕ :=
  match groups.lookup nodes with
  | some existing => (groups, existing)
  | none => (groups ++ [⟨nodes, group⟩], group)

end CSubsetGroups

structure CMemo (V : Type) where
  groups : CSubsetGroups
  alternatives : List (ℕ × CGroupExpression V)
  groupCount : ℕ

namespace CMemo

/-- `PgroupInsert`: without a target the expression gets a new group. -/
def pgroupInsert (memo : CMemo V) (target : Option ℕ) (expr : CGroupExpression V) : CMemo V × ℕ :=
  match target with
  | some group => ({ memo with alternatives := memo.alternatives ++ [(group, expr)] }, group)
  | none => ({ memo with
      alternatives := memo.alternatives ++ [(memo.groupCount, expr)]
      groupCount := memo.groupCount + 1 }, memo.groupCount)

def insertJoin (memo : CMemo V) (joined : CBitSet) (target : Option ℕ) (expr : CGroupExpression V) :
    CMemo V × ℕ :=
  let (inserted, group) := memo.pgroupInsert target expr
  let (groups, group) := inserted.groups.record joined group
  ({ inserted with groups := groups }, group)

def components (nodeCount : ℕ) : CMemo V :=
  ⟨(List.range nodeCount).map (fun node => ⟨{node}, node⟩), [], nodeCount⟩

def insertOriginal (memo : CMemo V) (edge : CEdge V) : CMemo V :=
  match memo.groups.lookup edge.left, memo.groups.lookup edge.right with
  | some left, some right =>
    (memo.insertJoin (edge.left ∪ edge.right) none ⟨left, right, edge.predicate⟩).1
  | _, _ => memo

end CMemo

def CJoinRegionSpec.conjuncts (spec : CJoinRegionSpec V) : List (CConjunct V) :=
  spec.edges.flatMap (fun edge => edge.predicate.conjuncts)

def CConjunct.cover (atoms : List CAtom) (conjunct : CConjunct V) : CBitSet :=
  pbsPredicateCover atoms ⟨[conjunct]⟩

def Crosses (left right cover : CBitSet) : Prop :=
  cover ⊆ left ∪ right ∧ ¬ Disjoint left cover ∧ ¬ Disjoint right cover

instance (left right cover : CBitSet) : Decidable (Crosses left right cover) :=
  inferInstanceAs (Decidable (_ ∧ _))

/-- `PexprPredicate` of a cut, which reads the inputs and the conjuncts of the region. -/
def pexprCutPredicate (components : List CAtom) (conjuncts : List (CConjunct V))
    (left right : CBitSet) (includeResidual : Bool) : List (CConjunct V) :=
  conjuncts.filter (fun conjunct => Crosses left right (conjunct.cover components) ∨
    (includeResidual ∧ (conjunct.cover components).card < 2))

/-- The predicate of a plan's join: the full join takes the residual conjuncts as well. -/
def planPredicate (spec : CJoinRegionSpec V) (left right : CBitSet) : CPredicate V :=
  ⟨pexprCutPredicate spec.atoms spec.conjuncts left right ((left ∪ right).card = spec.nodeCount)⟩

def originalMemo (spec : CJoinRegionSpec V) : CMemo V :=
  spec.edges.foldl CMemo.insertOriginal (.components spec.nodeCount)

def rootGroup (spec : CJoinRegionSpec V) : ℕ :=
  spec.nodeCount + spec.edgeCount - 1

/-- One pair of the plan. The source asserts what the last case leaves out. -/
def materializePair (spec : CJoinRegionSpec V) (memo : CMemo V) (pair : SPair) : CMemo V :=
  match memo.groups.lookup pair.left, memo.groups.lookup pair.right,
      fBuildJoinRequest spec pair.left pair.right with
  | some left, some right, some request =>
    let joined := pair.left ∪ pair.right
    let full := joined.card = spec.nodeCount
    let target := if full then some (rootGroup spec) else memo.groups.lookup joined
    let predicate := planPredicate spec pair.left pair.right
    let (left, right) := if request.swapped then (right, left) else (left, right)
    let (memo, target) := memo.insertJoin joined target ⟨left, right, predicate⟩
    if request.dependencyDirectional then memo
    else (memo.insertJoin joined (some target) ⟨right, left, predicate⟩).1
  | _, _, _ => memo

def materialize (spec : CJoinRegionSpec V) (pairs : List SPair) : CMemo V :=
  pairs.foldl (materializePair spec) (originalMemo spec)

inductive Extraction (V : Type) where
  | component : ℕ → Extraction V
  | join : CGroupExpression V → Extraction V → Extraction V → Extraction V

namespace Extraction

def From (memo : CMemo V) (nodeCount : ℕ) : Extraction V → ℕ → Prop
  | component node, group => group = node ∧ node < nodeCount
  | join expr l r, group => (group, expr) ∈ memo.alternatives ∧
      l.From memo nodeCount expr.leftGroup ∧ r.From memo nodeCount expr.rightGroup

def Enforces (conjunct : CConjunct V) : Extraction V → Prop
  | component _ => False
  | join expr l r => conjunct ∈ expr.predicate.conjuncts ∨ l.Enforces conjunct ∨ r.Enforces conjunct

end Extraction

def replayEdge (spec : CJoinRegionSpec V) (plan : CDPHyperPlan) (entry : CEdge V × ℕ) :
    Option CDPHyperPlan :=
  if ¬ (plan.HasSeen entry.1.left ∧ plan.HasSeen entry.1.right) then none
  else if (fBuildJoinRequest spec entry.1.left entry.1.right).isNone then none
  else if (plan.foundSubgraphPair entry.1.left entry.1.right entry.2).2 then none
  else some (plan.foundSubgraphPair entry.1.left entry.1.right entry.2).1

def fBuildBinarySkeletonPlan (spec : CJoinRegionSpec V) : Option CDPHyperPlan :=
  let singles := (List.range spec.nodeCount).foldl CDPHyperPlan.foundSingleNode
    (.empty (some (spec.nodeCount - 1)) noFilter)
  (spec.edges.zipIdx.foldlM (replayEdge spec) singles).bind
    (fun plan => if plan.complete spec.nodeCount then some plan else none)

end JoinRegion
