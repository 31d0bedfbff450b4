import Tuuli.RegionSpec

/-!
`CDPHyperJoinRegion` over a binary specification: which specification edges a
cut of two node sets may apply, and the single join operator the cut is
materialised as.
-/
namespace JoinRegion

structure SApplicableEdge where
  edgeId : ℕ
  swapped : Bool
  deriving DecidableEq, Repr

structure SJoinRequest (V : Type) where
  joinType : EOperatorId
  swapped : Bool
  dependencyDirectional : Bool
  notinComparison : Option (CPredicate V)
  edgeIds : List ℕ

def candidateSwapped (left right required : CBitSet) (node : ℕ) : Option Bool :=
  if node ∈ left ∧ ¬ Disjoint right required then some true
  else if node ∈ right ∧ ¬ Disjoint left required then some false
  else none

/-- One node of the loop in `FDependencyApplicable`; the state is `(swapped, directional)`. -/
def dependencyStep (spec : CJoinRegionSpec V) (left right : CBitSet) (state : Bool × Bool)
    (node : ℕ) : Option (Bool × Bool) :=
  if node ∉ left ∪ right then some state
  else
    let required := spec.dependencies.getD node ∅
    if ¬ required ⊆ left ∪ right then none
    else match candidateSwapped left right required node with
      | none => some state
      | some candidate =>
        if state.2 ∧ state.1 ≠ candidate then none else some (candidate, true)

def fDependencyApplicable (spec : CJoinRegionSpec V) (left right : CBitSet) :
    Option (Bool × Bool) :=
  if spec.hasDependencies then
    (List.range spec.nodeCount).foldlM (dependencyStep spec left right) (false, false)
  else some (false, false)

def CEdge.orientation (edge : CEdge V) (left right : CBitSet) : Option Bool :=
  if edge.fApplicable left right then some false
  else if edge.fApplicable right left then some true
  else none

def fPairApplicable (spec : CJoinRegionSpec V) (left right : CBitSet) (edgeId : ℕ) : Option Bool :=
  match fDependencyApplicable spec left right with
  | none => none
  | some _ =>
    if spec.pureInner then some false
    else spec.edges[edgeId]?.bind (fun edge => edge.orientation left right)

def applicableEdges (spec : CJoinRegionSpec V) (left right : CBitSet) : List SApplicableEdge :=
  if spec.pureInner then []
  else (List.range spec.edgeCount).filterMap
    (fun edgeId => (fPairApplicable spec left right edgeId).map (SApplicableEdge.mk edgeId))

/-- The loop of `FBuildJoinRequest` over the applicable edges: the request so far,
the number of non-inner edges and the orientation of the last one. -/
def requestStep (spec : CJoinRegionSpec V) (state : SJoinRequest V × ℕ × Bool)
    (candidate : SApplicableEdge) : SJoinRequest V × ℕ × Bool :=
  let (request, nonInner, swapped) := state
  let request := { request with edgeIds := request.edgeIds ++ [candidate.edgeId] }
  match spec.edges[candidate.edgeId]? with
  | none => (request, nonInner, swapped)
  | some edge =>
    if edge.joinType = .innerJoin then (request, nonInner, swapped)
    else ({ request with joinType := edge.joinType, notinComparison := edge.notinComparison },
      nonInner + 1, candidate.swapped)

def fBuildJoinRequest (spec : CJoinRegionSpec V) (left right : CBitSet) : Option (SJoinRequest V) :=
  match fDependencyApplicable spec left right with
  | none => none
  | some (dependencySwapped, directional) =>
    let request : SJoinRequest V := ⟨.innerJoin, dependencySwapped, directional, none, []⟩
    if spec.pureInner then some request
    else
      let applicable := applicableEdges spec left right
      if applicable = [] then none
      else
        let (request, nonInner, nonInnerSwapped) :=
          applicable.foldl (requestStep spec) (request, 0, false)
        if nonInner ≠ 0 ∧ ¬ (nonInner = 1 ∧ applicable.length = 1) then none
        else if nonInner = 1 then
          let commutative := request.joinType = .fullOuterJoin
          if directional ∧ ¬ commutative ∧ request.swapped ≠ nonInnerSwapped then none
          else if ¬ directional ∨ ¬ commutative then
            some { request with swapped := nonInnerSwapped }
          else some request
        else some request

def pexprPredicate (spec : CJoinRegionSpec V) (request : SJoinRequest V) : CPredicate V :=
  ⟨request.edgeIds.flatMap (fun edgeId =>
    match spec.edges[edgeId]? with
    | some edge => edge.predicate.conjuncts
    | none => [])⟩

inductive JoinTree where
  | leaf : ℕ → JoinTree
  | join : JoinTree → JoinTree → JoinTree
  deriving DecidableEq, Repr

namespace JoinTree

def nodes : JoinTree → CBitSet
  | leaf node => {node}
  | join l r => l.nodes ∪ r.nodes

def cuts : JoinTree → List (CBitSet × CBitSet)
  | leaf _ => []
  | join l r => l.cuts ++ r.cuts ++ [(l.nodes, r.nodes)]

def Accepted (spec : CJoinRegionSpec V) : JoinTree → Prop
  | leaf node => node < spec.nodeCount
  | join l r => l.Accepted spec ∧ r.Accepted spec ∧ Disjoint l.nodes r.nodes ∧
      (fBuildJoinRequest spec l.nodes r.nodes).isSome

def edgesOf (spec : CJoinRegionSpec V) (cut : CBitSet × CBitSet) : List ℕ :=
  match fBuildJoinRequest spec cut.1 cut.2 with
  | some request => request.edgeIds
  | none => []

def usedEdges (spec : CJoinRegionSpec V) (tree : JoinTree) : List ℕ :=
  tree.cuts.flatMap (edgesOf spec)

end JoinTree

end JoinRegion
