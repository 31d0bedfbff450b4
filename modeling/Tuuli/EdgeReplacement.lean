import Tuuli.EdgeGrowth
import Tuuli.HyperGraph

/-!
`ReplaceEdge`: the edge is detached from its nodes, both directions of it are
overwritten, and the new sides are attached.
-/
namespace DPHyper
namespace CDPHyperGraph

def rebuildSimpleNeighborhood (edges : List SEdge) (node : SNode) : SNode :=
  { node with
    simpleNeighborhood := node.simpleEdges.foldl (fun set index =>
      match edges[index]? with
      | some edge => set ∪ edge.right
      | none => set) ∅ }

/-- What `DetachEdgeFromNodes` does to the node `id`. -/
def detachFromNode (edges : List SEdge) (forward reverse : ℕ) (left right : CBitSet) (id : ℕ)
    (node : SNode) : SNode :=
  if left.card = 1 ∧ right.card = 1 then
    if id ∈ left then
      rebuildSimpleNeighborhood edges
        { node with simpleEdges := node.simpleEdges.filter (· ≠ forward) }
    else if id ∈ right then
      rebuildSimpleNeighborhood edges
        { node with simpleEdges := node.simpleEdges.filter (· ≠ reverse) }
    else node
  else if id ∈ left then { node with complexEdges := node.complexEdges.filter (· ≠ forward) }
  else if id ∈ right then { node with complexEdges := node.complexEdges.filter (· ≠ reverse) }
  else node

/-- The logical edge `k` has the directions `2 * k` and `2 * k + 1`. -/
def replaceEdge (graph : CDPHyperGraph) (logicalEdge : ℕ) (left right : CBitSet) : CDPHyperGraph :=
  let forward := logicalEdge * 2
  let reverse := forward + 1
  match graph.edges[forward]? with
  | none => graph
  | some old =>
    { nodes := graph.nodes.mapIdx (fun id node => attachToNode forward reverse left right id
        (detachFromNode graph.edges forward reverse old.left old.right id node))
      edges := (graph.edges.set forward ⟨left, right, old.edgeId⟩).set reverse
        ⟨right, left, old.edgeId⟩ }

def logicalEdgeCount (graph : CDPHyperGraph) : ℕ := graph.edges.length / 2

theorem ofEdges_logicalEdgeCount (nodeCount : ℕ) (edges : List (Hyperedge nodeCount)) :
    (ofEdges nodeCount edges).logicalEdgeCount = edges.length := by
  have run : ∀ (l : List (Hyperedge nodeCount)) (graph : CDPHyperGraph),
      (l.foldl (fun graph edge => graph.addEdge edge.left edge.right edge.edgeId)
        graph).edges.length = graph.edges.length + 2 * l.length := by
    intro l
    induction l with
    | nil => exact fun graph => rfl
    | cons edge rest ih =>
      intro graph
      rw [List.foldl_cons, ih, addEdge_edges]
      simp only [List.length_append, List.length_cons, List.length_nil]
      omega
  unfold logicalEdgeCount ofEdges
  rw [run]
  simp [empty]

section Detach
variable {graph : CDPHyperGraph} {k id : ℕ} {old : SEdge} {node : SNode} {edges : List SEdge}
  {forward reverse index : ℕ} {left right : CBitSet}

theorem mem_rebuild {other : ℕ} :
    other ∈ (rebuildSimpleNeighborhood edges node).simpleNeighborhood ↔
      ∃ index ∈ node.simpleEdges, ∃ edge, edges[index]? = some edge ∧ other ∈ edge.right := by
  have run : ∀ (l : List ℕ) (set : CBitSet), other ∈ l.foldl (fun set index =>
      match edges[index]? with
      | some edge => set ∪ edge.right
      | none => set) set ↔
      other ∈ set ∨ ∃ index ∈ l, ∃ edge, edges[index]? = some edge ∧ other ∈ edge.right := by
    intro l
    induction l with
    | nil => simp
    | cons index rest ih =>
      intro set
      rw [List.foldl_cons, ih]
      cases found : edges[index]? with
      | none => simp [found]
      | some edge => simp [found, or_assoc]
  unfold rebuildSimpleNeighborhood
  rw [run]
  simp

theorem WellFormed.directions (wf : graph.WellFormed) (found : graph.edges[k * 2]? = some old) :
    graph.edges[k * 2 + 1]? = some old.reverse := by
  rw [Nat.mul_comm] at found ⊢
  exact wf.paired found

theorem mem_detach (disjoint : Disjoint left right) :
    (index ∈ (detachFromNode edges forward reverse left right id node).simpleEdges ↔
      index ∈ node.simpleEdges ∧ ¬ ((left.card = 1 ∧ right.card = 1) ∧
        ((id ∈ left ∧ index = forward) ∨ (id ∈ right ∧ index = reverse)))) ∧
    (index ∈ (detachFromNode edges forward reverse left right id node).complexEdges ↔
      index ∈ node.complexEdges ∧ ¬ (¬ (left.card = 1 ∧ right.card = 1) ∧
        ((id ∈ left ∧ index = forward) ∨ (id ∈ right ∧ index = reverse)))) := by
  have apart : id ∈ left → id ∉ right := fun inLeft => Finset.disjoint_left.mp disjoint inLeft
  unfold detachFromNode rebuildSimpleNeighborhood
  split_ifs <;> simp_all

section Kept
variable (wf : graph.WellFormed) (found : graph.edges[k * 2]? = some old)
  (here : graph.nodes[id]? = some node)

include wf found in
theorem WellFormed.old_disjoint : Disjoint old.left old.right :=
  (wf.sides old (List.mem_of_getElem? found)).2.2.1

include wf found in
theorem WellFormed.entry_cases {index : ℕ} {edge : SEdge} (known : graph.edges[index]? = some edge) :
    (index = k * 2 ∧ edge = old) ∨ (index = k * 2 + 1 ∧ edge = old.reverse) ∨
      (index ≠ k * 2 ∧ index ≠ k * 2 + 1) := by
  by_cases forward : index = k * 2
  · subst forward
    exact .inl ⟨rfl, Option.some.inj (known.symm.trans found)⟩
  · by_cases backward : index = k * 2 + 1
    · subst backward
      exact .inr (.inl ⟨rfl, Option.some.inj (known.symm.trans (wf.directions found))⟩)
    · exact .inr (.inr ⟨forward, backward⟩)

include wf found here in
theorem WellFormed.detach_lists :
    Lists (fun index edge => (index ≠ k * 2 ∧ index ≠ k * 2 + 1) ∧ graph.edges[index]? = some edge)
      id (detachFromNode graph.edges (k * 2) (k * 2 + 1) old.left old.right id node) := by
  have simple : ∀ {index : ℕ}, index ∈ (detachFromNode graph.edges (k * 2) (k * 2 + 1) old.left
      old.right id node).simpleEdges ↔ ∃ edge : SEdge, ((index ≠ k * 2 ∧ index ≠ k * 2 + 1) ∧
        graph.edges[index]? = some edge) ∧ edge.left = {id} ∧ edge.Simple := by
    intro index
    rw [(mem_detach (wf.old_disjoint found)).1, wf.simple here]
    constructor
    · rintro ⟨⟨edge, known, same, single⟩, kept⟩
      rcases wf.entry_cases found known with ⟨rfl, rfl⟩ | ⟨rfl, rfl⟩ | others
      · exact absurd ⟨single, .inl ⟨by simp [same], rfl⟩⟩ kept
      · exact absurd ⟨single.symm, .inr ⟨by simp [show old.right = {id} from same], rfl⟩⟩ kept
      · exact ⟨edge, ⟨others, known⟩, same, single⟩
    · rintro ⟨edge, ⟨others, known⟩, facts⟩
      exact ⟨⟨edge, known, facts⟩, by simp [others]⟩
  refine ⟨simple, ?_, ?_⟩
  · intro index
    rw [(mem_detach (wf.old_disjoint found)).2, wf.complex here]
    constructor
    · rintro ⟨⟨edge, known, member, larger⟩, kept⟩
      rcases wf.entry_cases found known with ⟨rfl, rfl⟩ | ⟨rfl, rfl⟩ | others
      · exact absurd ⟨larger, .inl ⟨member, rfl⟩⟩ kept
      · exact absurd ⟨fun single => larger single.symm, .inr ⟨member, rfl⟩⟩ kept
      · exact ⟨edge, ⟨others, known⟩, member, larger⟩
    · rintro ⟨edge, ⟨others, known⟩, facts⟩
      exact ⟨⟨edge, known, facts⟩, by simp [others]⟩
  · intro other
    by_cases touched : (old.left.card = 1 ∧ old.right.card = 1) ∧ (id ∈ old.left ∨ id ∈ old.right)
    · -- the neighborhood is rebuilt from the edges that stay
      have rebuilt : (detachFromNode graph.edges (k * 2) (k * 2 + 1) old.left old.right id
            node).simpleNeighborhood = (rebuildSimpleNeighborhood graph.edges
              (detachFromNode graph.edges (k * 2) (k * 2 + 1) old.left old.right id
                node)).simpleNeighborhood := by
        unfold detachFromNode
        rw [if_pos touched.1]
        split_ifs
        · rfl
        · rfl
        · exact absurd touched.2 (by simp_all)
      rw [rebuilt, mem_rebuild]
      constructor
      · rintro ⟨index, listed, edge, known, inRight⟩
        obtain ⟨edge', ⟨others, known'⟩, same, single⟩ := simple.mp listed
        obtain rfl := Option.some.inj (known.symm.trans known')
        exact ⟨index, edge, ⟨others, known⟩, same, (mem_iff_eq_singleton single.2).mp inRight⟩
      · rintro ⟨index, edge, kept, same, right⟩
        have single : edge.Simple := ⟨by simp [same], by simp [right]⟩
        exact ⟨index, simple.mpr ⟨edge, kept, same, single⟩, edge, kept.2, by simp [right]⟩
    · have untouched : (detachFromNode graph.edges (k * 2) (k * 2 + 1) old.left old.right id
            node).simpleNeighborhood = node.simpleNeighborhood := by
        unfold detachFromNode
        split_ifs <;> simp_all
      rw [untouched, (wf.lists here).neighborhood]
      constructor
      · rintro ⟨index, edge, known, same, right⟩
        rcases wf.entry_cases found known with ⟨rfl, rfl⟩ | ⟨rfl, rfl⟩ | others
        · exact absurd ⟨⟨by simp [same], by simp [right]⟩, .inl (by simp [same])⟩ touched
        · simp only [SEdge.reverse] at same right
          exact absurd ⟨⟨by simp [right], by simp [same]⟩, .inr (by simp [same])⟩ touched
        · exact ⟨index, edge, ⟨others, known⟩, same, right⟩
      · rintro ⟨index, edge, kept, same, right⟩
        exact ⟨index, edge, kept.2, same, right⟩

end Kept

end Detach

section Replace
variable {graph : CDPHyperGraph} {k : ℕ} {left right : CBitSet} {old : SEdge}

theorem replaceEdge_eq (found : graph.edges[k * 2]? = some old) :
    graph.replaceEdge k left right =
      { nodes := graph.nodes.mapIdx (fun id node => attachToNode (k * 2) (k * 2 + 1) left right id
          (detachFromNode graph.edges (k * 2) (k * 2 + 1) old.left old.right id node))
        edges := (graph.edges.set (k * 2) ⟨left, right, old.edgeId⟩).set (k * 2 + 1)
          ⟨right, left, old.edgeId⟩ } := by
  simp only [replaceEdge, found]

@[simp]
theorem replaceEdge_nodeCount : (graph.replaceEdge k left right).nodeCount = graph.nodeCount := by
  unfold replaceEdge
  dsimp only
  split
  · rfl
  · simp [nodeCount]

@[simp]
theorem replaceEdge_length :
    (graph.replaceEdge k left right).edges.length = graph.edges.length := by
  unfold replaceEdge
  dsimp only
  split
  · rfl
  · simp

theorem WellFormed.replaceEdge_getElem (wf : graph.WellFormed)
    (found : graph.edges[k * 2]? = some old) {index : ℕ} {edge : SEdge} :
    (graph.replaceEdge k left right).edges[index]? = some edge ↔
      ((index ≠ k * 2 ∧ index ≠ k * 2 + 1) ∧ graph.edges[index]? = some edge) ∨
      (index = k * 2 ∧ edge = ⟨left, right, old.edgeId⟩) ∨
      (index = k * 2 + 1 ∧ edge = ⟨right, left, old.edgeId⟩) := by
  have bound := (List.getElem?_eq_some_iff.mp (wf.directions found)).1
  rw [replaceEdge_eq found]
  simp only [List.getElem?_set, List.length_set]
  by_cases backward : k * 2 + 1 = index
  · subst backward
    simp [bound, eq_comm]
  · rw [if_neg backward]
    by_cases forward : k * 2 = index
    · subst forward
      simp [Nat.lt_of_succ_lt bound, eq_comm]
    · rw [if_neg forward]
      have notForward : index ≠ k * 2 := fun same => forward same.symm
      have notBackward : index ≠ k * 2 + 1 := fun same => backward same.symm
      simp [notForward, notBackward]

theorem replaceEdge_node (found : graph.edges[k * 2]? = some old) {id : ℕ} {node : SNode}
    (present : (graph.replaceEdge k left right).nodes[id]? = some node) :
    ∃ before, graph.nodes[id]? = some before ∧
      node = attachToNode (k * 2) (k * 2 + 1) left right id
        (detachFromNode graph.edges (k * 2) (k * 2 + 1) old.left old.right id before) := by
  rw [replaceEdge_eq found] at present
  simp only [List.getElem?_mapIdx, Option.map_eq_some_iff] at present
  obtain ⟨before, here, rfl⟩ := present
  exact ⟨before, here, rfl⟩

theorem WellFormed.replaceEdge (wf : graph.WellFormed) (found : graph.edges[k * 2]? = some old)
    (nonemptyLeft : left.Nonempty) (nonemptyRight : right.Nonempty) (disjoint : Disjoint left right)
    (inside : left ∪ right ⊆ Finset.range graph.nodeCount) :
    (graph.replaceEdge k left right).WellFormed := by
  have entries := @WellFormed.replaceEdge_getElem graph k left right old wf found
  rw [Nat.mul_comm k 2] at entries
  apply wf.attached nonemptyLeft nonemptyRight disjoint inside replaceEdge_nodeCount _ entries
  · exact fun known => List.mem_of_getElem? known.2
  · exact fun ⟨others, known⟩ => ⟨by omega, wf.paired known⟩
  · intro id node present
    obtain ⟨before, here, rfl⟩ := replaceEdge_node found present
    have lists := wf.detach_lists found here
    rw [Nat.mul_comm k 2] at lists ⊢
    exact ⟨_, lists, rfl⟩
  · obtain ⟨count, length⟩ := wf.even
    exact ⟨count, by rw [replaceEdge_length, length]⟩

end Replace

end CDPHyperGraph
end DPHyper
