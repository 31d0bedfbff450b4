import Tuuli.AbortLoop
import Tuuli.HyperGraph

/-!
`CDPHyperEnumerator`. The expansion of a subgraph meets its receiver in two
places only, the test whether a set was seen and the enumeration of the
complements of a seen set; both are parameters of `expandSubgraph`.
-/
namespace DPHyper
open AbortLoop

def bits (nodeCount : ℕ) (set : CBitSet) : List ℕ :=
  (List.range nodeCount).filter (· ∈ set)

def lowestBit (nodeCount : ℕ) (set : CBitSet) : ℕ :=
  (bits nodeCount set).headD nodeCount

/-- The subsets `EnumerateSubsets` passes to its callback: the lowest node toggles fastest. -/
def subsetsOf (nodeCount : ℕ) (set : CBitSet) : List CBitSet :=
  (maskSubsets (bits nodeCount set).reverse).filter (· ≠ ∅)

structure CNeighborhoodCache where
  taboo : CBitSet
  lastGrown : CBitSet
  lastNeighborhood : CBitSet
  lastFullNeighborhood : CBitSet
  initialized : Bool

namespace CNeighborhoodCache

def init (nodeCount : ℕ) (neighborhood : CBitSet) : CNeighborhoodCache :=
  ⟨if neighborhood = ∅ then ∅ else {lowestBit nodeCount neighborhood}, ∅, ∅, ∅, false⟩

def pbsToSearch (cache : CNeighborhoodCache) (justGrown neighborhood full : CBitSet) :
    CBitSet × CBitSet × CBitSet :=
  if cache.initialized ∧ cache.lastGrown ⊆ justGrown then
    (justGrown \ cache.lastGrown, neighborhood ∪ cache.lastNeighborhood,
      full ∪ cache.lastFullNeighborhood)
  else (justGrown, neighborhood, full)

def store (cache : CNeighborhoodCache) (justGrown neighborhood full : CBitSet) :
    CNeighborhoodCache :=
  if ¬ Disjoint justGrown cache.taboo then cache
  else ⟨cache.taboo, justGrown, neighborhood, full, true⟩

end CNeighborhoodCache

section Neighborhood
variable (graph : CDPHyperGraph)

def searchEdge (subgraph forbidden : CBitSet) (state : CBitSet × CBitSet) (edge : SEdge) :
    CBitSet × CBitSet :=
  if ¬ edge.left ⊆ subgraph ∨ ¬ Disjoint edge.right subgraph ∨
      ¬ Disjoint edge.right forbidden then state
  else
    (if Disjoint edge.right state.1 then state.1 ∪ {lowestBit graph.nodeCount edge.right}
      else state.1, state.2 ∪ edge.right)

def searchNode (subgraph forbidden : CBitSet) (state : CBitSet × CBitSet) (id : ℕ) :
    CBitSet × CBitSet :=
  (graph.complexEdgesAt id).foldl (searchEdge graph subgraph forbidden)
    (state.1 ∪ graph.simpleNeighborhoodAt id, state.2)

structure Neighborhood where
  nodes : CBitSet
  full : CBitSet
  cache : CNeighborhoodCache

def pbsNeighborhood (subgraph forbidden justGrown : CBitSet) (cache : CNeighborhoodCache)
    (full : CBitSet) : Neighborhood :=
  let (toSearch, known, full) := cache.pbsToSearch justGrown ∅ full
  let (found, full) := (bits graph.nodeCount toSearch).foldl
    (searchNode graph subgraph forbidden) (known, full)
  let neighborhood := (found \ subgraph) \ forbidden
  let full := full ∪ neighborhood
  ⟨neighborhood, full, cache.store justGrown neighborhood full⟩

end Neighborhood

section Subgraphs
variable (graph : CDPHyperGraph) {σ : Type} (hasSeen : σ → CBitSet → Bool)
  (enumerateComplements : ℕ → CBitSet → CBitSet → CBitSet → σ → σ × Bool)

def visitGrown (lowestNode : ℕ) (subgraph full neighborhood forbidden growBy : CBitSet)
    (state : σ × CNeighborhoodCache) : (σ × CNeighborhoodCache) × Bool :=
  let grown := subgraph ∪ growBy
  if hasSeen state.1 grown = false then (state, false)
  else
    let next := pbsNeighborhood graph grown forbidden growBy state.2 full
    let highNodes := Finset.range graph.nodeCount \ Finset.range lowestNode
    let result := enumerateComplements lowestNode grown next.full
      (next.nodes ∪ (forbidden ∩ highNodes) ∪ neighborhood) state.1
    ((result.1, next.cache), result.2)

/-- The recursion adds nodes to `subgraph` at each level, so `nodeCount` levels are enough. -/
def expandSubgraph (lowestNode : ℕ) :
    ℕ → CBitSet → CBitSet → CBitSet → CBitSet → σ → σ × Bool
  | 0, _, _, _, _, state => (state, false)
  | fuel + 1, subgraph, full, neighborhood, forbidden, state =>
    let subsets := subsetsOf graph.nodeCount neighborhood
    let visited := untilAbort (visitGrown graph hasSeen enumerateComplements lowestNode subgraph
      full neighborhood forbidden) subsets (state, .init graph.nodeCount neighborhood)
    if visited.2 then (visited.1.1, true)
    else
      let expanded := untilAbort (fun growBy (state : σ × CNeighborhoodCache) =>
        let grown := subgraph ∪ growBy
        let newForbidden := (forbidden ∪ neighborhood) \ grown
        let next := pbsNeighborhood graph grown newForbidden growBy state.2 full
        let result := expandSubgraph lowestNode fuel grown next.full next.nodes newForbidden state.1
        ((result.1, next.cache), result.2)) subsets visited.1
      (expanded.1.1, expanded.2)

def growFrom (id : ℕ) (state : σ) : σ × Bool :=
  let start := pbsNeighborhood graph {id} (Finset.range id) {id} (.init graph.nodeCount ∅) ∅
  let first := enumerateComplements id {id} start.full start.nodes state
  if first.2 then first
  else expandSubgraph graph hasSeen enumerateComplements id graph.nodeCount {id} start.full
    start.nodes (Finset.range id ∪ {id}) first.1

end Subgraphs

/-- `IDPHyperReceiver`, as functions on the state of the receiver. It is told of the directed edge,
by index, on which two sets meet, so that it can tell the logical edges apart. -/
structure IDPHyperReceiver (σ : Type) where
  hasSeen : σ → CBitSet → Bool
  foundSingleNode : ℕ → σ → σ
  foundSubgraphPair : CBitSet → CBitSet → ℕ → σ → σ × Bool

def CDPHyperGraph.simpleIndicesAt (graph : CDPHyperGraph) (id : ℕ) : List ℕ :=
  match graph.nodes[id]? with
  | some node => node.simpleEdges
  | none => []

def CDPHyperGraph.complexIndicesAt (graph : CDPHyperGraph) (id : ℕ) : List ℕ :=
  match graph.nodes[id]? with
  | some node => node.complexEdges
  | none => []

namespace IDPHyperReceiver

variable {σ : Type} (receiver : IDPHyperReceiver σ) (graph : CDPHyperGraph)

def reportEdges (subgraph complement : CBitSet) (joins : SEdge → Bool) (indices : List ℕ) :
    σ → σ × Bool :=
  untilAbort (fun index state =>
    match graph.edges[index]? with
    | some edge =>
      if joins edge then receiver.foundSubgraphPair subgraph complement index state
      else (state, false)
    | none => (state, false)) indices

def connectAt (subgraph complement : CBitSet) (id : ℕ) (simpleJoins complexJoins : SEdge → Bool)
    (state : σ) : σ × Bool :=
  let simple := if Disjoint (graph.simpleNeighborhoodAt id) subgraph then (state, false)
    else receiver.reportEdges graph subgraph complement simpleJoins (graph.simpleIndicesAt id) state
  if simple.2 then simple
  else receiver.reportEdges graph subgraph complement complexJoins (graph.complexIndicesAt id)
    simple.1

def connectNode (subgraph complement : CBitSet) (id : ℕ) : σ → σ × Bool :=
  receiver.connectAt graph subgraph complement id
    (fun edge => ¬ Disjoint edge.right subgraph ∧ ¬ Disjoint edge.left complement)
    (fun edge => id = lowestBit graph.nodeCount edge.left ∧ edge.left ⊆ complement ∧
      edge.right ⊆ subgraph)

def tryConnecting (subgraph subgraphFull complement : CBitSet) : σ → σ × Bool :=
  untilAbort (receiver.connectNode graph subgraph complement)
    (bits graph.nodeCount (complement ∩ subgraphFull))

/-- The recursion adds nodes to `complement` at each level, so `nodeCount` levels are enough. -/
def expandComplement (subgraph subgraphFull : CBitSet) :
    ℕ → CBitSet → CBitSet → CBitSet → σ → σ × Bool
  | 0, _, _, _, state => (state, false)
  | fuel + 1, complement, neighborhood, forbidden, state =>
    let subsets := subsetsOf graph.nodeCount neighborhood
    let connected := untilAbort (fun growBy (state : σ) =>
      if receiver.hasSeen state (complement ∪ growBy) then
        receiver.tryConnecting graph subgraph subgraphFull (complement ∪ growBy) state
      else (state, false)) subsets state
    if connected.2 then connected
    else
      let expanded := untilAbort (fun growBy (state : σ × CNeighborhoodCache) =>
        let grown := complement ∪ growBy
        let newForbidden := (forbidden ∪ neighborhood) \ grown
        let next := pbsNeighborhood graph grown newForbidden growBy state.2 ∅
        let result := expandComplement subgraph subgraphFull fuel grown next.nodes newForbidden
          state.1
        ((result.1, next.cache), result.2)) subsets
        (connected.1, .init graph.nodeCount neighborhood)
      (expanded.1.1, expanded.2)

def connectSeed (subgraph : CBitSet) (seed : ℕ) : σ → σ × Bool :=
  receiver.connectAt graph subgraph {seed} seed (fun edge => ¬ Disjoint edge.right subgraph)
    (fun edge => edge.left = {seed} ∧ edge.right ⊆ subgraph)

def enumerateComplements (lowestNode : ℕ) (subgraph full inputNeighborhood : CBitSet) (state : σ) :
    σ × Bool :=
  let neighborhood := inputNeighborhood \ subgraph
  let run := untilAbort (fun seed (state : σ × CNeighborhoodCache) =>
    let seeded := receiver.connectSeed graph subgraph seed state.1
    if seeded.2 then ((seeded.1, state.2), true)
    else
      let newForbidden := Finset.range lowestNode ∪ subgraph ∪ (Finset.range seed ∩ neighborhood)
      let next := pbsNeighborhood graph {seed} newForbidden {seed} state.2 ∅
      let result := receiver.expandComplement graph subgraph full graph.nodeCount {seed} next.nodes
        newForbidden seeded.1
      ((result.1, next.cache), result.2))
    (bits graph.nodeCount neighborhood).reverse (state, .init graph.nodeCount neighborhood)
  (run.1.1, run.2)

def enumerateFrom (id : ℕ) (state : σ) : σ × Bool :=
  growFrom graph receiver.hasSeen (receiver.enumerateComplements graph) id
    (receiver.foundSingleNode id state)

def enumerate (state : σ) : σ × Bool :=
  untilAbort (receiver.enumerateFrom graph) (List.range graph.nodeCount).reverse state

end IDPHyperReceiver

def planReceiver (graph : CDPHyperGraph) : IDPHyperReceiver CDPHyperPlan where
  hasSeen := fun plan nodes => plan.HasSeen nodes
  foundSingleNode := fun id plan => plan.foundSingleNode id
  foundSubgraphPair := fun left right index plan =>
    match graph.edges[index]? with
    | some edge => plan.foundSubgraphPair left right edge.edgeId
    | none => (plan, false)

def enumerateComplements (graph : CDPHyperGraph) :
    ℕ → CBitSet → CBitSet → CBitSet → CDPHyperPlan → CDPHyperPlan × Bool :=
  (planReceiver graph).enumerateComplements graph

def enumerate (graph : CDPHyperGraph) (plan : CDPHyperPlan) : CDPHyperPlan × Bool :=
  (planReceiver graph).enumerate graph plan

end DPHyper
