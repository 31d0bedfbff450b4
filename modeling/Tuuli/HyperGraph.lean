import Tuuli.HyperPlan

/-!
`CDPHyperGraph`: nodes with adjacency lists over a list of directed edges.
Every undirected edge is stored twice, forward and reversed; an edge between
two single nodes is simple, every other one complex.
-/
namespace DPHyper

structure SEdge where
  left : CBitSet
  right : CBitSet
  edgeId : ℕ
  deriving DecidableEq

def SEdge.Simple (edge : SEdge) : Prop :=
  edge.left.card = 1 ∧ edge.right.card = 1

instance (edge : SEdge) : Decidable edge.Simple :=
  inferInstanceAs (Decidable (_ ∧ _))

def SEdge.reverse (edge : SEdge) : SEdge :=
  ⟨edge.right, edge.left, edge.edgeId⟩

structure SNode where
  simpleNeighborhood : CBitSet
  simpleEdges : List ℕ
  complexEdges : List ℕ

structure CDPHyperGraph where
  nodes : List SNode
  edges : List SEdge

namespace CDPHyperGraph

def empty (nodeCount : ℕ) : CDPHyperGraph :=
  ⟨List.replicate nodeCount ⟨∅, [], []⟩, []⟩

def nodeCount (graph : CDPHyperGraph) : ℕ := graph.nodes.length

/-- What `AttachEdgeToNodes` does to the node `id`. -/
def attachToNode (forward reverse : ℕ) (left right : CBitSet) (id : ℕ) (node : SNode) : SNode :=
  if left.card = 1 ∧ right.card = 1 then
    if id ∈ left then
      { node with
        simpleNeighborhood := node.simpleNeighborhood ∪ right
        simpleEdges := node.simpleEdges ++ [forward] }
    else if id ∈ right then
      { node with
        simpleNeighborhood := node.simpleNeighborhood ∪ left
        simpleEdges := node.simpleEdges ++ [reverse] }
    else node
  else if id ∈ left then { node with complexEdges := node.complexEdges ++ [forward] }
  else if id ∈ right then { node with complexEdges := node.complexEdges ++ [reverse] }
  else node

def addEdge (graph : CDPHyperGraph) (left right : CBitSet) (edgeId : ℕ) : CDPHyperGraph :=
  let forward := graph.edges.length
  { nodes := graph.nodes.mapIdx (attachToNode forward (forward + 1) left right)
    edges := graph.edges ++ [⟨left, right, edgeId⟩, ⟨right, left, edgeId⟩] }

def simpleNeighborhoodAt (graph : CDPHyperGraph) (id : ℕ) : CBitSet :=
  match graph.nodes[id]? with
  | some node => node.simpleNeighborhood
  | none => ∅

def simpleEdgesAt (graph : CDPHyperGraph) (id : ℕ) : List SEdge :=
  match graph.nodes[id]? with
  | some node => node.simpleEdges.filterMap (fun index => graph.edges[index]?)
  | none => []

def complexEdgesAt (graph : CDPHyperGraph) (id : ℕ) : List SEdge :=
  match graph.nodes[id]? with
  | some node => node.complexEdges.filterMap (fun index => graph.edges[index]?)
  | none => []

/-- The adjacency lists and neighborhoods agree with the edges. -/
structure WellFormed (graph : CDPHyperGraph) : Prop where
  sides : ∀ edge ∈ graph.edges, edge.left.Nonempty ∧ edge.right.Nonempty ∧
    Disjoint edge.left edge.right ∧ edge.left ∪ edge.right ⊆ Finset.range graph.nodeCount
  even : ∃ count, graph.edges.length = 2 * count
  paired : ∀ {k : ℕ} {edge : SEdge}, graph.edges[2 * k]? = some edge →
    graph.edges[2 * k + 1]? = some edge.reverse
  simple : ∀ {id : ℕ} {node : SNode}, graph.nodes[id]? = some node → ∀ {index : ℕ},
    index ∈ node.simpleEdges ↔
      ∃ edge : SEdge, graph.edges[index]? = some edge ∧ edge.left = {id} ∧ edge.Simple
  complex : ∀ {id : ℕ} {node : SNode}, graph.nodes[id]? = some node → ∀ {index : ℕ},
    index ∈ node.complexEdges ↔
      ∃ edge : SEdge, graph.edges[index]? = some edge ∧ id ∈ edge.left ∧ ¬ edge.Simple
  neighborhood : ∀ {id : ℕ} {node : SNode}, graph.nodes[id]? = some node → ∀ {other : ℕ},
    other ∈ node.simpleNeighborhood ↔
      ∃ edge ∈ graph.edges, edge.left = {id} ∧ edge.right = {other}

theorem empty_wellFormed (nodeCount : ℕ) : (empty nodeCount).WellFormed := by
  have blank : ∀ {id : ℕ} {node : SNode}, (empty nodeCount).nodes[id]? = some node →
      node = ⟨∅, [], []⟩ := by
    intro id node found
    exact List.eq_of_mem_replicate (List.mem_of_getElem? found)
  refine ⟨by simp [empty], ⟨0, rfl⟩, by simp [empty], ?_, ?_, ?_⟩
  · intro id node found index
    simp [blank found, empty]
  · intro id node found index
    simp [blank found, empty]
  · intro id node found other
    simp [blank found, empty]

section AddEdge
variable {graph : CDPHyperGraph} {left right : CBitSet} {edgeId : ℕ}

@[simp]
theorem addEdge_nodeCount : (graph.addEdge left right edgeId).nodeCount = graph.nodeCount := by
  simp [addEdge, nodeCount]

theorem addEdge_edges : (graph.addEdge left right edgeId).edges
    = graph.edges ++ [⟨left, right, edgeId⟩, ⟨right, left, edgeId⟩] := rfl

theorem addEdge_getElem {index : ℕ} {edge : SEdge} :
    (graph.addEdge left right edgeId).edges[index]? = some edge ↔
      graph.edges[index]? = some edge ∨
      (index = graph.edges.length ∧ edge = ⟨left, right, edgeId⟩) ∨
      (index = graph.edges.length + 1 ∧ edge = ⟨right, left, edgeId⟩) := by
  rw [addEdge_edges]
  rcases Nat.lt_trichotomy index graph.edges.length with old | rfl | new
  · rw [List.getElem?_append_left old]
    constructor
    · exact .inl
    · rintro (found | ⟨rfl, -⟩ | ⟨rfl, -⟩)
      · exact found
      · omega
      · omega
  · simp [eq_comm]
  · rw [List.getElem?_append_right (by omega), List.getElem?_eq_none (l := graph.edges) (by omega)]
    obtain ⟨k, rfl⟩ := Nat.exists_eq_add_of_lt new
    have shift : graph.edges.length + k + 1 - graph.edges.length = k + 1 := by omega
    rw [shift]
    cases k with
    | zero => simp [eq_comm]
    | succ k =>
      have notFirst : graph.edges.length + (k + 1) + 1 ≠ graph.edges.length := by omega
      simp [notFirst]

theorem addEdge_node {id : ℕ} {node : SNode}
    (found : (graph.addEdge left right edgeId).nodes[id]? = some node) :
    ∃ old, graph.nodes[id]? = some old ∧
      node = attachToNode graph.edges.length (graph.edges.length + 1) left right id old := by
  simp only [addEdge, List.getElem?_mapIdx, Option.map_eq_some_iff] at found
  obtain ⟨old, present, rfl⟩ := found
  exact ⟨old, present, rfl⟩

theorem mem_attach {forward reverse id : ℕ} {node : SNode} (disjoint : Disjoint left right)
    (entry : ℕ) :
    (entry ∈ (attachToNode forward reverse left right id node).simpleEdges ↔
      entry ∈ node.simpleEdges ∨ ((left.card = 1 ∧ right.card = 1) ∧
        ((id ∈ left ∧ entry = forward) ∨ (id ∈ right ∧ entry = reverse)))) ∧
    (entry ∈ (attachToNode forward reverse left right id node).complexEdges ↔
      entry ∈ node.complexEdges ∨ (¬ (left.card = 1 ∧ right.card = 1) ∧
        ((id ∈ left ∧ entry = forward) ∨ (id ∈ right ∧ entry = reverse)))) ∧
    (entry ∈ (attachToNode forward reverse left right id node).simpleNeighborhood ↔
      entry ∈ node.simpleNeighborhood ∨ ((left.card = 1 ∧ right.card = 1) ∧
        ((id ∈ left ∧ entry ∈ right) ∨ (id ∈ right ∧ entry ∈ left)))) := by
  have apart : id ∈ left → id ∉ right := fun inLeft => Finset.disjoint_left.mp disjoint inLeft
  unfold attachToNode
  split_ifs <;> simp_all

theorem mem_iff_eq_singleton {set : CBitSet} {id : ℕ} (single : set.card = 1) :
    id ∈ set ↔ set = {id} := by
  obtain ⟨x, rfl⟩ := Finset.card_eq_one.mp single
  rw [Finset.mem_singleton, Finset.singleton_inj, eq_comm]

/-- The node `id` lists exactly the entries of `kept`. -/
structure Lists (kept : ℕ → SEdge → Prop) (id : ℕ) (node : SNode) : Prop where
  simple : ∀ {index : ℕ}, index ∈ node.simpleEdges ↔
    ∃ edge : SEdge, kept index edge ∧ edge.left = {id} ∧ edge.Simple
  complex : ∀ {index : ℕ}, index ∈ node.complexEdges ↔
    ∃ edge : SEdge, kept index edge ∧ id ∈ edge.left ∧ ¬ edge.Simple
  neighborhood : ∀ {other : ℕ}, other ∈ node.simpleNeighborhood ↔
    ∃ (index : ℕ) (edge : SEdge), kept index edge ∧ edge.left = {id} ∧ edge.right = {other}

theorem WellFormed.lists (wf : graph.WellFormed) {id : ℕ} {node : SNode}
    (here : graph.nodes[id]? = some node) :
    Lists (fun index edge => graph.edges[index]? = some edge) id node := by
  refine ⟨wf.simple here, wf.complex here, ?_⟩
  intro other
  simp only [wf.neighborhood here, List.mem_iff_getElem?]
  exact ⟨fun ⟨edge, ⟨index, known⟩, same⟩ => ⟨index, edge, known, same⟩,
    fun ⟨index, edge, known, same⟩ => ⟨edge, ⟨index, known⟩, same⟩⟩

theorem Lists.attach {kept after : ℕ → SEdge → Prop} {forward reverse id : ℕ} {node : SNode}
    (lists : Lists kept id node) (disjoint : Disjoint left right)
    (entries : ∀ {index : ℕ} {edge : SEdge}, after index edge ↔ kept index edge ∨ (index = forward
      ∧ edge = ⟨left, right, edgeId⟩) ∨ (index = reverse ∧ edge = ⟨right, left, edgeId⟩)) :
    Lists after id (attachToNode forward reverse left right id node) := by
  constructor
  · intro index
    rw [(mem_attach disjoint index).1, lists.simple]
    constructor
    · rintro (⟨edge, known, facts⟩ | ⟨single, ⟨inLeft, rfl⟩ | ⟨inRight, rfl⟩⟩)
      · exact ⟨edge, entries.mpr (.inl known), facts⟩
      · exact ⟨_, entries.mpr (.inr (.inl ⟨rfl, rfl⟩)),
          (mem_iff_eq_singleton single.1).mp inLeft, single⟩
      · exact ⟨_, entries.mpr (.inr (.inr ⟨rfl, rfl⟩)),
          (mem_iff_eq_singleton single.2).mp inRight, single.symm⟩
    · rintro ⟨edge, known, same, single⟩
      rcases entries.mp known with before | ⟨rfl, rfl⟩ | ⟨rfl, rfl⟩
      · exact .inl ⟨edge, before, same, single⟩
      · exact .inr ⟨single, .inl ⟨(mem_iff_eq_singleton single.1).mpr same, rfl⟩⟩
      · exact .inr ⟨single.symm, .inr ⟨(mem_iff_eq_singleton single.1).mpr same, rfl⟩⟩
  · intro index
    rw [(mem_attach disjoint index).2.1, lists.complex]
    constructor
    · rintro (⟨edge, known, facts⟩ | ⟨larger, ⟨inLeft, rfl⟩ | ⟨inRight, rfl⟩⟩)
      · exact ⟨edge, entries.mpr (.inl known), facts⟩
      · exact ⟨_, entries.mpr (.inr (.inl ⟨rfl, rfl⟩)), inLeft, larger⟩
      · exact ⟨_, entries.mpr (.inr (.inr ⟨rfl, rfl⟩)), inRight,
          fun single => larger single.symm⟩
    · rintro ⟨edge, known, member, larger⟩
      rcases entries.mp known with before | ⟨rfl, rfl⟩ | ⟨rfl, rfl⟩
      · exact .inl ⟨edge, before, member, larger⟩
      · exact .inr ⟨larger, .inl ⟨member, rfl⟩⟩
      · exact .inr ⟨fun single => larger single.symm, .inr ⟨member, rfl⟩⟩
  · intro other
    rw [(mem_attach disjoint other).2.2, lists.neighborhood]
    constructor
    · rintro (⟨index, edge, known, same⟩ | ⟨single, ⟨inLeft, inRight⟩ | ⟨inRight, inLeft⟩⟩)
      · exact ⟨index, edge, entries.mpr (.inl known), same⟩
      · exact ⟨_, _, entries.mpr (.inr (.inl ⟨rfl, rfl⟩)),
          (mem_iff_eq_singleton single.1).mp inLeft, (mem_iff_eq_singleton single.2).mp inRight⟩
      · exact ⟨_, _, entries.mpr (.inr (.inr ⟨rfl, rfl⟩)),
          (mem_iff_eq_singleton single.2).mp inRight, (mem_iff_eq_singleton single.1).mp inLeft⟩
    · rintro ⟨index, edge, known, sameLeft, sameRight⟩
      rcases entries.mp known with before | ⟨rfl, rfl⟩ | ⟨rfl, rfl⟩
      · exact .inl ⟨index, edge, before, sameLeft, sameRight⟩
      · refine .inr ⟨?_, .inl ?_⟩ <;> simp_all
      · refine .inr ⟨?_, .inr ?_⟩ <;> simp_all

/-- A graph whose entries are old ones in their pairs, and the two directions of one edge that
is attached to the nodes. -/
theorem WellFormed.attached {after : CDPHyperGraph} {kept : ℕ → SEdge → Prop} {k : ℕ}
    (wf : graph.WellFormed) (nonemptyLeft : left.Nonempty) (nonemptyRight : right.Nonempty)
    (disjoint : Disjoint left right) (inside : left ∪ right ⊆ Finset.range graph.nodeCount)
    (count : after.nodeCount = graph.nodeCount) (even : ∃ pairs, after.edges.length = 2 * pairs)
    (entries : ∀ {index : ℕ} {edge : SEdge}, after.edges[index]? = some edge ↔ kept index edge ∨
      (index = 2 * k ∧ edge = ⟨left, right, edgeId⟩) ∨ (index = 2 * k + 1 ∧ edge = ⟨right, left,
      edgeId⟩)) (old : ∀ {index : ℕ} {edge : SEdge}, kept index edge → edge ∈ graph.edges)
    (pairs : ∀ {j : ℕ} {edge : SEdge}, kept (2 * j) edge → kept (2 * j + 1) edge.reverse)
    (nodes : ∀ {id : ℕ} {node : SNode}, after.nodes[id]? = some node → ∃ before, Lists kept id
      before ∧ node = attachToNode (2 * k) (2 * k + 1) left right id before) :
    after.WellFormed := by
  have lists : ∀ {id : ℕ} {node : SNode}, after.nodes[id]? = some node →
      Lists (fun index edge => after.edges[index]? = some edge) id node := by
    intro id node here
    obtain ⟨before, lists, rfl⟩ := nodes here
    exact lists.attach disjoint entries
  refine ⟨?_, even, ?_, fun here => (lists here).simple, fun here => (lists here).complex, ?_⟩
  · intro edge member
    rw [count]
    obtain ⟨index, known⟩ := List.mem_iff_getElem?.mp member
    rcases entries.mp known with before | ⟨-, rfl⟩ | ⟨-, rfl⟩
    · exact wf.sides edge (old before)
    · exact ⟨nonemptyLeft, nonemptyRight, disjoint, inside⟩
    · exact ⟨nonemptyRight, nonemptyLeft, disjoint.symm, by rwa [Finset.union_comm]⟩
  · intro j edge known
    rcases entries.mp known with before | ⟨index, rfl⟩ | ⟨index, rfl⟩
    · exact entries.mpr (.inl (pairs before))
    · exact entries.mpr (.inr (.inr ⟨by omega, rfl⟩))
    · omega
  · intro id node here other
    simp only [(lists here).neighborhood, List.mem_iff_getElem?]
    exact ⟨fun ⟨index, edge, known, same⟩ => ⟨edge, ⟨index, known⟩, same⟩,
      fun ⟨edge, ⟨index, known⟩, same⟩ => ⟨index, edge, known, same⟩⟩

theorem WellFormed.addEdge (wf : graph.WellFormed) (nonemptyLeft : left.Nonempty)
    (nonemptyRight : right.Nonempty) (disjoint : Disjoint left right)
    (inside : left ∪ right ⊆ Finset.range graph.nodeCount) :
    (graph.addEdge left right edgeId).WellFormed := by
  obtain ⟨count, length⟩ := wf.even
  have entries := @addEdge_getElem graph left right edgeId
  rw [length] at entries
  apply wf.attached nonemptyLeft nonemptyRight disjoint inside addEdge_nodeCount _ entries
    List.mem_of_getElem? wf.paired
  · intro id node found
    obtain ⟨old, present, rfl⟩ := addEdge_node found
    exact ⟨old, wf.lists present, by rw [length]⟩
  · refine ⟨count + 1, ?_⟩
    simp only [addEdge_edges, List.length_append, List.length_cons, List.length_nil]
    omega

/-- What `AddEdge` is given: non-empty, disjoint sides among the nodes. -/
structure Hyperedge (nodeCount : ℕ) where
  left : CBitSet
  right : CBitSet
  edgeId : ℕ
  nonemptyLeft : left.Nonempty
  nonemptyRight : right.Nonempty
  disjoint : Disjoint left right
  inside : left ∪ right ⊆ Finset.range nodeCount

/-- The graph after `AddEdge` for each of the edges. -/
def ofEdges (nodeCount : ℕ) (edges : List (Hyperedge nodeCount)) : CDPHyperGraph :=
  edges.foldl (fun graph edge => graph.addEdge edge.left edge.right edge.edgeId) (empty nodeCount)

theorem ofEdges_wellFormed (nodeCount : ℕ) (edges : List (Hyperedge nodeCount)) :
    (ofEdges nodeCount edges).WellFormed ∧ (ofEdges nodeCount edges).nodeCount = nodeCount := by
  have run : ∀ (l : List (Hyperedge nodeCount)) (graph : CDPHyperGraph),
      graph.WellFormed ∧ graph.nodeCount = nodeCount →
      (l.foldl (fun graph edge => graph.addEdge edge.left edge.right edge.edgeId) graph).WellFormed ∧
        (l.foldl (fun graph edge => graph.addEdge edge.left edge.right edge.edgeId)
          graph).nodeCount = nodeCount := by
    intro l
    induction l with
    | nil => exact fun graph holds => holds
    | cons edge rest ih =>
      rintro graph ⟨wf, rfl⟩
      exact ih _ ⟨wf.addEdge edge.nonemptyLeft edge.nonemptyRight edge.disjoint edge.inside,
        addEdge_nodeCount⟩
  exact run edges _ ⟨empty_wellFormed nodeCount, by simp [empty, CDPHyperGraph.nodeCount]⟩

end AddEdge

section Accessors
variable {graph : CDPHyperGraph} (wf : graph.WellFormed)

include wf

theorem WellFormed.reverse_mem {edge : SEdge} (member : edge ∈ graph.edges) :
    edge.reverse ∈ graph.edges := by
  obtain ⟨index, found⟩ := List.mem_iff_getElem?.mp member
  obtain ⟨count, length⟩ := wf.even
  have bound := (List.getElem?_eq_some_iff.mp found).1
  have parity : ∃ k, index = 2 * k ∨ index = 2 * k + 1 := ⟨index / 2, by omega⟩
  obtain ⟨k, rfl | rfl⟩ := parity
  · exact List.mem_of_getElem? (wf.paired found)
  · -- the partner of an odd index stands just before it
    have before : graph.edges[2 * k]? = some graph.edges[2 * k] := List.getElem?_eq_getElem (by omega)
    have partner := wf.paired before
    rw [found, Option.some.injEq] at partner
    rw [partner]
    exact List.getElem_mem _

theorem WellFormed.node_of_mem {edge : SEdge} (member : edge ∈ graph.edges) {id : ℕ}
    (inLeft : id ∈ edge.left) : ∃ node, graph.nodes[id]? = some node := by
  have bound := (wf.sides edge member).2.2.2 (Finset.mem_union_left _ inLeft)
  exact ⟨_, List.getElem?_eq_getElem (Finset.mem_range.mp bound)⟩

theorem WellFormed.notMem_of_absent {id : ℕ} (absent : graph.nodes[id]? = none) {edge : SEdge}
    (member : edge ∈ graph.edges) : id ∉ edge.left := by
  intro inLeft
  obtain ⟨node, found⟩ := wf.node_of_mem member inLeft
  rw [absent] at found
  cases found

omit wf in
theorem mem_named {indices : List ℕ} {listed : SEdge → Prop} {edge : SEdge} (lists : ∀ {index : ℕ},
    index ∈ indices ↔ ∃ edge, graph.edges[index]? = some edge ∧ listed edge) :
    edge ∈ indices.filterMap (fun index => graph.edges[index]?) ↔
      edge ∈ graph.edges ∧ listed edge := by
  simp only [List.mem_filterMap, lists]
  constructor
  · rintro ⟨index, ⟨other, known', facts⟩, known⟩
    obtain rfl := Option.some.inj (known.symm.trans known')
    exact ⟨List.mem_of_getElem? known, facts⟩
  · rintro ⟨member, facts⟩
    obtain ⟨index, known⟩ := List.mem_iff_getElem?.mp member
    exact ⟨index, ⟨edge, known, facts⟩, known⟩

theorem WellFormed.mem_simpleEdgesAt {id : ℕ} {edge : SEdge} :
    edge ∈ graph.simpleEdgesAt id ↔ edge ∈ graph.edges ∧ edge.left = {id} ∧ edge.Simple := by
  unfold simpleEdgesAt
  split
  next node found => exact mem_named (wf.simple found)
  next absent =>
    refine ⟨nofun, ?_⟩
    rintro ⟨member, same, -⟩
    exact absurd (by simp [same]) (wf.notMem_of_absent absent member)

theorem WellFormed.mem_complexEdgesAt {id : ℕ} {edge : SEdge} :
    edge ∈ graph.complexEdgesAt id ↔ edge ∈ graph.edges ∧ id ∈ edge.left ∧ ¬ edge.Simple := by
  unfold complexEdgesAt
  split
  next node found => exact mem_named (wf.complex found)
  next absent =>
    refine ⟨nofun, ?_⟩
    rintro ⟨member, inLeft, -⟩
    exact absurd inLeft (wf.notMem_of_absent absent member)

theorem WellFormed.mem_simpleNeighborhoodAt {id other : ℕ} :
    other ∈ graph.simpleNeighborhoodAt id ↔
      ∃ edge ∈ graph.edges, edge.left = {id} ∧ edge.right = {other} := by
  unfold simpleNeighborhoodAt
  split
  next node found => exact wf.neighborhood found
  next absent =>
    refine ⟨by simp, ?_⟩
    rintro ⟨edge, member, same, -⟩
    exact absurd (by simp [same]) (wf.notMem_of_absent absent member)

end Accessors

end CDPHyperGraph

end DPHyper
