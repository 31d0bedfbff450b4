import Tuuli.EdgeReplacement

/-!
Sequences of `AddEdge` and `ReplaceEdge`. The graph after them stores the logical edges, which are
a plain list: one call appends an edge, the other gives an edge new sides.
-/
namespace DPHyper
namespace CDPHyperGraph

/-- The calls with what they assert of their sides. A replaced edge keeps its id, so that of
`sides` is not used; without the logical edge the graph is left alone. -/
inductive Call (nodeCount : ℕ) where
  | addEdge (edge : Hyperedge nodeCount)
  | replaceEdge (logicalEdge : ℕ) (sides : Hyperedge nodeCount)

def Call.run {nodeCount : ℕ} (graph : CDPHyperGraph) : Call nodeCount → CDPHyperGraph
  | .addEdge edge => graph.addEdge edge.left edge.right edge.edgeId
  | .replaceEdge logicalEdge sides => graph.replaceEdge logicalEdge sides.left sides.right

def runCalls {nodeCount : ℕ} (calls : List (Call nodeCount)) : CDPHyperGraph :=
  calls.foldl Call.run (empty nodeCount)

def Call.logical {nodeCount : ℕ} (edges : List SEdge) : Call nodeCount → List SEdge
  | .addEdge edge => edges ++ [⟨edge.left, edge.right, edge.edgeId⟩]
  | .replaceEdge logicalEdge sides =>
    edges.modify logicalEdge fun old => ⟨sides.left, sides.right, old.edgeId⟩

def logicalEdges {nodeCount : ℕ} (calls : List (Call nodeCount)) : List SEdge :=
  calls.foldl Call.logical []

def directions (logical : List SEdge) : List SEdge :=
  logical.flatMap fun edge => [edge, edge.reverse]

section Directions
variable {logical : List SEdge} {k : ℕ}

theorem directions_getElem : (directions logical)[k * 2]? = logical[k]? := by
  induction logical generalizing k with
  | nil => rfl
  | cons edge rest ih =>
    cases k with
    | zero => rfl
    | succ k =>
      rw [Nat.succ_mul]
      exact ih

theorem directions_modify {old : SEdge} {left right : CBitSet} (found : logical[k]? = some old) :
    ((directions logical).set (k * 2) ⟨left, right, old.edgeId⟩).set (k * 2 + 1)
        ⟨right, left, old.edgeId⟩ =
      directions (logical.modify k fun edge => ⟨left, right, edge.edgeId⟩) := by
  induction logical generalizing k with
  | nil => cases found
  | cons edge rest ih =>
    cases k with
    | zero =>
      cases found
      rfl
    | succ k =>
      rw [Nat.succ_mul]
      exact congrArg (edge :: edge.reverse :: ·) (ih found)

theorem directions_ids : (directions logical).map SEdge.edgeId =
    (logical.map SEdge.edgeId).flatMap fun id => [id, id] := by
  rw [directions, List.map_flatMap, List.flatMap_map]
  rfl

end Directions

section Nodup
variable {graph : CDPHyperGraph} {node : SNode} {id forward reverse : ℕ} {left right : CBitSet}

def SNode.Once (node : SNode) : Prop := node.simpleEdges.Nodup ∧ node.complexEdges.Nodup

theorem attach_once (once : SNode.Once node)
    (fresh : ∀ index ∈ node.simpleEdges ++ node.complexEdges, index ≠ forward ∧ index ≠ reverse) :
    SNode.Once (attachToNode forward reverse left right id node) := by
  have append : ∀ {list : List ℕ} {index : ℕ}, list.Nodup → index ∉ list →
      (list ++ [index]).Nodup := by
    intro list index nodup missing
    exact List.nodup_append.mpr ⟨nodup, List.nodup_singleton index, fun a listed b only => by
      rw [List.mem_singleton.mp only]
      exact fun same => missing (same ▸ listed)⟩
  have simple : forward ∉ node.simpleEdges ∧ reverse ∉ node.simpleEdges :=
    ⟨fun listed => (fresh _ (List.mem_append_left _ listed)).1 rfl,
      fun listed => (fresh _ (List.mem_append_left _ listed)).2 rfl⟩
  have complex : forward ∉ node.complexEdges ∧ reverse ∉ node.complexEdges :=
    ⟨fun listed => (fresh _ (List.mem_append_right _ listed)).1 rfl,
      fun listed => (fresh _ (List.mem_append_right _ listed)).2 rfl⟩
  unfold attachToNode
  split_ifs
  · exact ⟨append once.1 simple.1, once.2⟩
  · exact ⟨append once.1 simple.2, once.2⟩
  · exact once
  · exact ⟨once.1, append once.2 complex.1⟩
  · exact ⟨once.1, append once.2 complex.2⟩
  · exact once

theorem detach_once {edges : List SEdge} (once : SNode.Once node) :
    SNode.Once (detachFromNode edges forward reverse left right id node) := by
  unfold detachFromNode rebuildSimpleNeighborhood
  split_ifs
  · exact ⟨once.1.filter _, once.2⟩
  · exact ⟨once.1.filter _, once.2⟩
  · exact once
  · exact ⟨once.1, once.2.filter _⟩
  · exact ⟨once.1, once.2.filter _⟩
  · exact once

theorem Lists.index_of_mem {kept : ℕ → SEdge → Prop} (lists : Lists kept id node) {index : ℕ}
    (listed : index ∈ node.simpleEdges ++ node.complexEdges) : ∃ edge, kept index edge := by
  rcases List.mem_append.mp listed with simple | complex
  · obtain ⟨edge, known, -⟩ := lists.simple.mp simple
    exact ⟨edge, known⟩
  · obtain ⟨edge, known, -⟩ := lists.complex.mp complex
    exact ⟨edge, known⟩

end Nodup

/-- The graph stores the logical edges. -/
structure Stores (nodeCount : ℕ) (graph : CDPHyperGraph) (logical : List SEdge) : Prop where
  wf : graph.WellFormed
  count : graph.nodeCount = nodeCount
  edges : graph.edges = directions logical
  once : ∀ {id : ℕ} {node : SNode}, graph.nodes[id]? = some node → SNode.Once node

section Runs
variable {nodeCount : ℕ} {graph : CDPHyperGraph} {logical : List SEdge}

theorem stores_empty : Stores nodeCount (empty nodeCount) [] where
  wf := empty_wellFormed nodeCount
  count := by simp [empty, CDPHyperGraph.nodeCount]
  edges := rfl
  once := by
    intro id node found
    rw [List.eq_of_mem_replicate (List.mem_of_getElem? found)]
    exact ⟨List.nodup_nil, List.nodup_nil⟩

variable (stores : Stores nodeCount graph logical)

include stores

theorem Stores.addEdge (edge : Hyperedge nodeCount) :
    Stores nodeCount (graph.addEdge edge.left edge.right edge.edgeId)
      (logical ++ [⟨edge.left, edge.right, edge.edgeId⟩]) := by
  obtain ⟨wf, rfl, edges, once⟩ := stores
  refine ⟨wf.addEdge edge.nonemptyLeft edge.nonemptyRight edge.disjoint edge.inside,
    addEdge_nodeCount, ?_, ?_⟩
  · rw [addEdge_edges, edges, directions, directions, List.flatMap_append]
    rfl
  · intro id node found
    obtain ⟨old, present, rfl⟩ := addEdge_node found
    refine attach_once (once present) fun index listed => ?_
    obtain ⟨other, known⟩ := (wf.lists present).index_of_mem listed
    have bound := (List.getElem?_eq_some_iff.mp known).1
    omega

theorem Stores.replaceEdge (k : ℕ) (sides : Hyperedge nodeCount) :
    Stores nodeCount (graph.replaceEdge k sides.left sides.right)
      (logical.modify k fun old => ⟨sides.left, sides.right, old.edgeId⟩) := by
  obtain ⟨wf, rfl, edges, once⟩ := stores
  cases present : logical[k]? with
  | none =>
    have missing : graph.edges[k * 2]? = none := by rw [edges, directions_getElem, present]
    rw [CDPHyperGraph.replaceEdge, missing,
      List.modify_eq_self (List.getElem?_eq_none_iff.mp present)]
    exact ⟨wf, rfl, edges, once⟩
  | some old =>
    have found : graph.edges[k * 2]? = some old := by rw [edges, directions_getElem, present]
    refine ⟨wf.replaceEdge found sides.nonemptyLeft sides.nonemptyRight sides.disjoint
      sides.inside, replaceEdge_nodeCount, ?_, ?_⟩
    · rw [replaceEdge_eq found, edges]
      exact directions_modify present
    · intro id node here
      obtain ⟨before, there, rfl⟩ := replaceEdge_node found here
      refine attach_once (detach_once (once there)) fun index listed => ?_
      obtain ⟨other, others, -⟩ := (wf.detach_lists found there).index_of_mem listed
      exact others

theorem Stores.run (call : Call nodeCount) :
    Stores nodeCount (call.run graph) (call.logical logical) := by
  cases call with
  | addEdge edge => exact stores.addEdge edge
  | replaceEdge k sides => exact stores.replaceEdge k sides

omit stores

theorem stores_runCalls (calls : List (Call nodeCount)) :
    Stores nodeCount (runCalls calls) (logicalEdges calls) := by
  have run : ∀ (calls : List (Call nodeCount)) {graph : CDPHyperGraph} {logical : List SEdge},
      Stores nodeCount graph logical →
      Stores nodeCount (calls.foldl Call.run graph) (calls.foldl Call.logical logical) := by
    intro calls
    induction calls with
    | nil => exact fun stores => stores
    | cons call rest ih => exact fun stores => ih (stores.run call)
  exact run calls stores_empty

theorem logical_ids (calls : List (Call nodeCount)) (logical : List SEdge) :
    logical.map SEdge.edgeId <+: (calls.foldl Call.logical logical).map SEdge.edgeId := by
  induction calls generalizing logical with
  | nil => exact List.prefix_rfl
  | cons call rest ih =>
    refine List.IsPrefix.trans ?_ (ih (call.logical logical))
    cases call with
    | addEdge edge =>
      rw [Call.logical, List.map_append]
      exact List.prefix_append _ _
    | replaceEdge k sides =>
      have same : ((Call.replaceEdge k sides).logical logical).map SEdge.edgeId =
          logical.map SEdge.edgeId := by
        refine List.ext_getElem? fun index => ?_
        rw [Call.logical, List.getElem?_map, List.getElem?_map, List.getElem?_modify]
        cases logical[index]? with
        | none => rfl
        | some edge =>
          simp only [Option.map_eq_map, Option.map_some]
          split <;> rfl
      rw [same]

/-- After any calls, the edges are the logical ones in both directions, the lists of a node name
exactly the edges that leave it, each once, and its neighborhood has exactly the other ends of its
simple edges. Further calls keep all ids. -/
theorem calls_keep_representation (calls more : List (Call nodeCount)) :
    (runCalls calls).nodes.length = nodeCount ∧
    (runCalls calls).edges = directions (logicalEdges calls) ∧
    (∀ (id : ℕ) (node : SNode), (runCalls calls).nodes[id]? = some node →
      (node.simpleEdges.Nodup ∧ ∀ index, index ∈ node.simpleEdges ↔ ∃ edge : SEdge,
        (runCalls calls).edges[index]? = some edge ∧ id ∈ edge.left ∧ edge.Simple) ∧
      (node.complexEdges.Nodup ∧ ∀ index, index ∈ node.complexEdges ↔ ∃ edge : SEdge,
        (runCalls calls).edges[index]? = some edge ∧ id ∈ edge.left ∧ ¬ edge.Simple) ∧
      ∀ other, other ∈ node.simpleNeighborhood ↔ ∃ edge ∈ (runCalls calls).edges,
        edge.Simple ∧ id ∈ edge.left ∧ other ∈ edge.right) ∧
    (runCalls calls).edges.map SEdge.edgeId <+:
      (runCalls (calls ++ more)).edges.map SEdge.edgeId := by
  have stores := stores_runCalls calls
  refine ⟨stores.count, stores.edges, fun id node found => ?_, ?_⟩
  · refine ⟨⟨(stores.once found).1, fun index => ?_⟩, ⟨(stores.once found).2, fun index =>
      stores.wf.complex found⟩, fun other => ?_⟩
    · rw [stores.wf.simple found]
      refine exists_congr fun edge => and_congr_right fun _ => and_congr_left fun single => ?_
      exact (mem_iff_eq_singleton single.1).symm
    · rw [stores.wf.neighborhood found]
      refine exists_congr fun edge => and_congr_right fun _ => ?_
      constructor
      · intro ⟨left, right⟩
        simp [SEdge.Simple, left, right]
      · intro ⟨single, inLeft, inRight⟩
        exact ⟨(mem_iff_eq_singleton single.1).mp inLeft,
          (mem_iff_eq_singleton single.2).mp inRight⟩
  · rw [stores.edges, (stores_runCalls (calls ++ more)).edges, directions_ids, directions_ids,
      logicalEdges, logicalEdges, List.foldl_append]
    obtain ⟨later, extended⟩ := logical_ids more (calls.foldl Call.logical [])
    rw [← extended, List.flatMap_append]
    exact List.prefix_append _ _

end Runs
end CDPHyperGraph
end DPHyper
