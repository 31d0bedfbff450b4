import Tuuli.Growth
import Tuuli.InnerRegion

/-!
`CDPHyperJoinRegion::Build`. A flag that comes back true says that the edge budget
stopped the construction.
-/
namespace JoinRegion
open AbortLoop
open DPHyper hiding CBitSet

variable {V : Type}

/-- The members of the region that `Build` changes. -/
structure SBuild where
  graph : CDPHyperGraph
  generatedEdges : ℕ
  dependencyEdges : ℕ
  cartesianEdges : ℕ
  edgeBudgetExhausted : Bool

namespace SBuild

def start (nodeCount : ℕ) : SBuild := ⟨.empty nodeCount, 0, 0, 0, false⟩

def addEdge (budget : ℕ) (left right : CBitSet) (edgeId : ℕ) (state : SBuild) : SBuild × Bool :=
  if budget ≤ state.generatedEdges then ({ state with edgeBudgetExhausted := true }, true)
  else ({ state with
    graph := state.graph.addEdge left right edgeId
    generatedEdges := state.generatedEdges + 1 }, false)

end SBuild

namespace CDPHyperJoinRegion

section UnionFind

def parentOf (parent : List ℕ) (node : ℕ) : ℕ := parent.getD node node

def findRoot : ℕ → List ℕ → ℕ → ℕ × List ℕ
  | 0, parent, node => (node, parent)
  | fuel + 1, parent, node =>
    if parentOf parent node = node then (node, parent)
    else
      let grand := parentOf parent (parentOf parent node)
      findRoot fuel (parent.set node grand) grand

def unite (first : ℕ) (parent : List ℕ) (other : ℕ) : List ℕ :=
  let firstFound := findRoot parent.length parent first
  let otherFound := findRoot parent.length firstFound.2 other
  if firstFound.1 ≠ otherFound.1 then otherFound.2.set otherFound.1 firstFound.1
  else otherFound.2

def uniteAll (parent : List ℕ) (nodes : CBitSet) : List ℕ :=
  match bits parent.length nodes with
  | [] => parent
  | first :: rest => rest.foldl (unite first) parent

def placeNode (state : List ℕ × List (ℕ × CBitSet)) (node : ℕ) : List ℕ × List (ℕ × CBitSet) :=
  let found := findRoot state.1.length state.1 node
  (found.2, if state.2.any (fun entry => entry.1 = found.1)
    then state.2.map (fun entry =>
      if entry.1 = found.1 then (entry.1, insert node entry.2) else entry)
    else state.2 ++ [(found.1, {node})])

end UnionFind

variable (region : CDPHyperJoinRegion V)

def predicateCovers : List CBitSet := region.conjuncts.map region.pbsPredicateCover

def fPredicateCrosses (left right : CBitSet) : Bool :=
  region.predicateCovers.any (fun cover => 1 < cover.card ∧ Crosses left right cover)

def addPredicatePartitionsRecursive (predicateId : ℕ) :
    List ℕ → CBitSet → CBitSet → SBuild → SBuild × Bool
  | [], left, right, state =>
    if right.card = 0 then (state, false)
    else state.addEdge region.edgeBudget left right predicateId
  | node :: rest, left, right, state =>
    let first := addPredicatePartitionsRecursive predicateId rest (insert node left) right state
    if first.2 then first
    else addPredicatePartitionsRecursive predicateId rest left (insert node right) first.1

def addPredicatePartitions (predicateId : ℕ) (cover : CBitSet) (state : SBuild) : SBuild × Bool :=
  match bits region.nodeCount cover with
  | [] => (state, false)
  | first :: rest => region.addPredicatePartitionsRecursive predicateId rest {first} ∅ state

/-- One conjunct of the loop in `Build`. -/
def addConjunct (entry : CConjunct V × ℕ) (state : SBuild) : SBuild × Bool :=
  if 1 < (region.pbsPredicateCover entry.1).card
  then region.addPredicatePartitions entry.2 (region.pbsPredicateCover entry.1) state
  else (state, false)

def addDependencyEdge (spec : CJoinRegionSpec V) (dependent : ℕ) (state : SBuild) : SBuild × Bool :=
  let providers := spec.dependencies.getD dependent ∅
  if providers.card = 0 then (state, false)
  else
    let added := state.addEdge region.edgeBudget providers {dependent}
      (region.conjuncts.length + state.dependencyEdges)
    if added.2 then added
    else ({ added.1 with dependencyEdges := added.1.dependencyEdges + 1 }, false)

def addDependencyEdges (state : SBuild) : SBuild × Bool :=
  match region.spec with
  | none => (state, false)
  | some spec =>
    if spec.hasDependencies then
      untilAbort (region.addDependencyEdge spec) (List.range spec.nodeCount) state
    else (state, false)

def addCartesianEdge (left right : CBitSet) (state : SBuild) : SBuild × Bool :=
  let added := state.addEdge region.edgeBudget left right
    (region.conjuncts.length + state.dependencyEdges + state.cartesianEdges)
  if added.2 then added
  else ({ added.1 with cartesianEdges := added.1.cartesianEdges + 1 }, false)

def addMissingSkeletonEdge (edge : CBitSet × CBitSet) (state : SBuild) : SBuild × Bool :=
  if region.fPredicateCrosses edge.1 edge.2 then (state, false)
  else region.addCartesianEdge edge.1 edge.2 state

def addMissingSkeletonEdges (state : SBuild) : SBuild × Bool :=
  untilAbort region.addMissingSkeletonEdge region.skeletonEdges state

def cartesianComponents : List CBitSet :=
  let covered := (region.predicateCovers.filter (fun cover => 2 ≤ cover.card)).foldl uniteAll
    (List.range region.nodeCount)
  let joined := (region.skeletonEdges.map (fun edge => edge.1 ∪ edge.2)).foldl uniteAll covered
  ((List.range region.nodeCount).foldl placeNode (joined, [])).2.map Prod.snd

def componentPairs : List CBitSet → List (CBitSet × CBitSet)
  | [] => []
  | first :: rest => rest.map (fun other => (first, other)) ++ componentPairs rest

def addCartesianComponentEdges (state : SBuild) : SBuild × Bool :=
  untilAbort (fun pair => region.addCartesianEdge pair.1 pair.2)
    (componentPairs region.cartesianComponents) state

def addSpecEdge (entry : CEdge V × ℕ) (state : SBuild) : SBuild × Bool :=
  state.addEdge region.edgeBudget (entry.1.tes ∩ entry.1.left) (entry.1.tes ∩ entry.1.right) entry.2

/-- The steps of a region with inner joins only, as far as the budget lets them. -/
def buildInner : SBuild × Bool :=
  let predicates := untilAbort region.addConjunct region.conjuncts.zipIdx
    (.start region.nodeCount)
  if predicates.2 then predicates
  else
    let dependencies := region.addDependencyEdges predicates.1
    if dependencies.2 then dependencies
    else
      let skeleton := region.addMissingSkeletonEdges dependencies.1
      if skeleton.2 then skeleton else region.addCartesianComponentEdges skeleton.1

/-- The state `Build` leaves and whether it succeeded. -/
def build : SBuild × Bool :=
  let outcome := match region.spec with
    | none => region.buildInner
    | some spec =>
      if spec.pureInner then region.buildInner
      else untilAbort region.addSpecEdge spec.edges.zipIdx (.start region.nodeCount)
  (outcome.1, !outcome.2)

end CDPHyperJoinRegion
end JoinRegion
