import Tuuli.EdgeReplacement
import Tuuli.TouchOrder

/-!
The order in which edges stand in the lists of their nodes. `AddEdge` appends,
and `ReplaceEdge` moves an edge to the end of the lists, so that one order of the
logical edges describes all the lists of a graph. Two graphs with the same sides
and the same order are the same.
-/
namespace DPHyper
namespace CDPHyperGraph
open TouchOrder

/-- The direction of the logical edge `k` that is attached to the node `id`, among the simple
edges or among the complex ones. -/
def direction (simple : Bool) (edges : List SEdge) (id k : ℕ) : Option ℕ :=
  match edges[k * 2]? with
  | none => none
  | some edge =>
    if decide edge.Simple = simple then
      if id ∈ edge.left then some (k * 2) else if id ∈ edge.right then some (k * 2 + 1) else none
    else none

/-- The lists of the nodes follow one order of the logical edges. -/
structure Arranged (order : List ℕ) (graph : CDPHyperGraph) : Prop where
  simple : ∀ {id : ℕ} {node : SNode}, graph.nodes[id]? = some node →
    node.simpleEdges = order.filterMap (direction true graph.edges id)
  complex : ∀ {id : ℕ} {node : SNode}, graph.nodes[id]? = some node →
    node.complexEdges = order.filterMap (direction false graph.edges id)

def listed (node : SNode) (simple : Bool) : List ℕ :=
  if simple then node.simpleEdges else node.complexEdges

theorem arranged_iff {order : List ℕ} {graph : CDPHyperGraph} :
    graph.Arranged order ↔ ∀ {id : ℕ} {node : SNode}, graph.nodes[id]? = some node →
      ∀ simple, listed node simple = order.filterMap (direction simple graph.edges id) :=
  ⟨fun arranged _ _ found simple => by
    cases simple
    · exact arranged.complex found
    · exact arranged.simple found,
  fun lists => ⟨fun found => lists found true, fun found => lists found false⟩⟩

section Direction
variable {simple : Bool} {edges : List SEdge} {id k index : ℕ}

theorem direction_eq {edge : SEdge} (found : edges[k * 2]? = some edge) :
    direction simple edges id k = if decide edge.Simple = simple then
      if id ∈ edge.left then some (k * 2) else if id ∈ edge.right then some (k * 2 + 1) else none
    else none := by
  unfold direction
  rw [found]

theorem direction_div (found : direction simple edges id k = some index) : index / 2 = k := by
  unfold direction at found
  split at found
  · exact absurd found (by simp)
  · split_ifs at found <;> simp only [Option.some.injEq] at found <;> omega

theorem filter_direction {order : List ℕ} {gone : ℕ}
    (here : ∀ x, direction simple edges id k = some x → x = gone) (half : gone / 2 = k) :
    (order.filterMap (direction simple edges id)).filter (· ≠ gone)
      = (order.filter (· ≠ k)).filterMap (direction simple edges id) := by
  apply filter_filterMap
  intro other x found
  have quotient := direction_div found
  by_cases same : other = k
  · subst same
    simp [here x found]
  · have apart : x ≠ gone := by
      rintro rfl
      omega
    simp [same, apart]

end Direction

section Detach
variable {edges : List SEdge} {old : SEdge} {order : List ℕ} {id k : ℕ} {node : SNode}

theorem filter_follows {simple : Bool} (found : edges[k * 2]? = some old) :
    (if decide old.Simple = simple then
        if id ∈ old.left then (order.filterMap (direction simple edges id)).filter (· ≠ k * 2)
        else if id ∈ old.right then
          (order.filterMap (direction simple edges id)).filter (· ≠ k * 2 + 1)
        else order.filterMap (direction simple edges id)
      else order.filterMap (direction simple edges id))
      = (order.filter (· ≠ k)).filterMap (direction simple edges id) := by
  have shape := @direction_eq simple edges id k old found
  split_ifs with here inLeft inRight
  · rw [if_pos here, if_pos inLeft] at shape
    exact filter_direction (by simp [shape, eq_comm]) (by omega)
  · rw [if_pos here, if_neg inLeft, if_pos inRight] at shape
    exact filter_direction (by simp [shape, eq_comm]) (by omega)
  · rw [if_pos here, if_neg inLeft, if_neg inRight] at shape
    rw [filterMap_filter_ne shape]
  · rw [if_neg here] at shape
    rw [filterMap_filter_ne shape]

theorem detach_listed {simple : Bool} (found : edges[k * 2]? = some old)
    (follows : listed node simple = order.filterMap (direction simple edges id)) :
    listed (detachFromNode edges (k * 2) (k * 2 + 1) old.left old.right id node) simple
      = (order.filter (· ≠ k)).filterMap (direction simple edges id) := by
  rw [← filter_follows found, ← follows]
  unfold detachFromNode rebuildSimpleNeighborhood listed
  by_cases single : old.Simple
  · rw [decide_eq_true single, if_pos (show old.left.card = 1 ∧ old.right.card = 1 from single)]
    cases simple <;> split_ifs <;> simp_all
  · rw [decide_eq_false single, if_neg (show ¬ (old.left.card = 1 ∧ old.right.card = 1) from single)]
    cases simple <;> split_ifs <;> simp_all

end Detach

section Attach
variable {edges : List SEdge} {new : SEdge} {id k : ℕ} {node : SNode}

theorem attach_listed {simple : Bool} (found : edges[k * 2]? = some new) :
    listed (attachToNode (k * 2) (k * 2 + 1) new.left new.right id node) simple
      = listed node simple ++ (direction simple edges id k).toList := by
  rw [direction_eq found]
  unfold attachToNode listed
  by_cases single : new.Simple
  · rw [decide_eq_true single, if_pos (show new.left.card = 1 ∧ new.right.card = 1 from single)]
    cases simple <;> split_ifs <;> simp_all
  · rw [decide_eq_false single, if_neg (show ¬ (new.left.card = 1 ∧ new.right.card = 1) from single)]
    cases simple <;> split_ifs <;> simp_all

end Attach

section Replace
variable {graph : CDPHyperGraph} {order : List ℕ} {k : ℕ} {left right : CBitSet} {old : SEdge}

theorem filterMap_direction {simple : Bool} {edges edges' : List SEdge} {id : ℕ}
    (others : ∀ j, j ≠ k → edges'[j * 2]? = edges[j * 2]?) :
    (order.filter (· ≠ k)).filterMap (direction simple edges id) ++
        (direction simple edges' id k).toList
      = (toEnd k order).filterMap (direction simple edges' id) := by
  have kept : (order.filter (· ≠ k)).filterMap (direction simple edges id)
      = (order.filter (· ≠ k)).filterMap (direction simple edges' id) := by
    apply List.filterMap_congr
    intro j member
    have apart : j ≠ k := by simpa using (List.mem_filter.mp member).2
    unfold direction
    rw [others j apart]
  rw [kept, toEnd, List.filterMap_append]
  cases here : direction simple edges' id k with
  | none => rw [List.filterMap_cons_none here, List.filterMap_nil, Option.toList_none]
  | some index => rw [List.filterMap_cons_some here, List.filterMap_nil, Option.toList_some]

theorem Arranged.replaceEdge (arranged : graph.Arranged order) (wf : graph.WellFormed)
    (found : graph.edges[k * 2]? = some old) :
    (graph.replaceEdge k left right).Arranged (toEnd k order) := by
  have entries := @WellFormed.replaceEdge_getElem graph k left right old wf found
  have new : (graph.replaceEdge k left right).edges[k * 2]? = some ⟨left, right, old.edgeId⟩ :=
    entries.mpr (.inr (.inl ⟨rfl, rfl⟩))
  have others : ∀ j, j ≠ k →
      (graph.replaceEdge k left right).edges[j * 2]? = graph.edges[j * 2]? := by
    intro j apart
    rw [replaceEdge_eq found]
    dsimp only
    rw [List.getElem?_set_ne (by omega), List.getElem?_set_ne (by omega)]
  apply arranged_iff.mpr
  intro id node present simple
  obtain ⟨before, here, rfl⟩ := replaceEdge_node found present
  rw [attach_listed new, detach_listed found (arranged_iff.mp arranged here simple),
    filterMap_direction others]

end Replace

section Start
variable {graph other : CDPHyperGraph} {order : List ℕ}

theorem Arranged.eq (arranged : graph.Arranged order) (arrangedOther : other.Arranged order)
    (wf : graph.WellFormed) (wfOther : other.WellFormed) (count : graph.nodeCount = other.nodeCount)
    (edges : graph.edges = other.edges) : graph = other := by
  have nodes : graph.nodes = other.nodes := by
    apply List.ext_getElem count
    intro id inside insideOther
    have here : graph.nodes[id]? = some graph.nodes[id] := List.getElem?_eq_getElem inside
    have hereOther : other.nodes[id]? = some other.nodes[id] := List.getElem?_eq_getElem insideOther
    have neighborhood :
        (graph.nodes[id]).simpleNeighborhood = (other.nodes[id]).simpleNeighborhood := by
      ext neighbor
      rw [wf.neighborhood here, wfOther.neighborhood hereOther, edges]
    have simple : (graph.nodes[id]).simpleEdges = (other.nodes[id]).simpleEdges := by
      rw [arranged.simple here, arrangedOther.simple hereOther, edges]
    have complex : (graph.nodes[id]).complexEdges = (other.nodes[id]).complexEdges := by
      rw [arranged.complex here, arrangedOther.complex hereOther, edges]
    cases first : graph.nodes[id]
    cases second : other.nodes[id]
    simp_all
  cases graph
  cases other
  simp_all

theorem Arranged.addEdge {count edgeId : ℕ} {left right : CBitSet}
    (arranged : graph.Arranged (List.range count)) (length : graph.edges.length = count * 2) :
    (graph.addEdge left right edgeId).Arranged (List.range (count + 1)) := by
  have new : (graph.addEdge left right edgeId).edges[count * 2]? = some ⟨left, right, edgeId⟩ :=
    addEdge_getElem.mpr (.inr (.inl ⟨length.symm, rfl⟩))
  have kept : ∀ (simple : Bool) (id : ℕ),
      (List.range count).filterMap (direction simple graph.edges id)
        = (List.range count).filterMap
          (direction simple (graph.addEdge left right edgeId).edges id) := by
    intro simple id
    apply List.filterMap_congr
    intro j member
    have bound := List.mem_range.mp member
    unfold direction
    rw [addEdge_edges, List.getElem?_append_left (by omega)]
  have extend : ∀ (simple : Bool) (id : ℕ),
      (List.range (count + 1)).filterMap
          (direction simple (graph.addEdge left right edgeId).edges id)
        = (List.range count).filterMap (direction simple graph.edges id) ++
          (direction simple (graph.addEdge left right edgeId).edges id count).toList := by
    intro simple id
    rw [List.range_succ, List.filterMap_append, kept]
    cases here : direction simple (graph.addEdge left right edgeId).edges id count with
    | none => rw [List.filterMap_cons_none here, List.filterMap_nil, Option.toList_none]
    | some index => rw [List.filterMap_cons_some here, List.filterMap_nil, Option.toList_some]
  apply arranged_iff.mpr
  intro id node present simple
  obtain ⟨before, here, rfl⟩ := addEdge_node present
  rw [extend, length, attach_listed new, arranged_iff.mp arranged here]

theorem ofEdges_arranged (nodeCount : ℕ) (edges : List (Hyperedge nodeCount)) :
    (ofEdges nodeCount edges).Arranged (List.range (ofEdges nodeCount edges).logicalEdgeCount) := by
  have run : ∀ (l : List (Hyperedge nodeCount)) (graph : CDPHyperGraph) (count : ℕ),
      graph.Arranged (List.range count) → graph.edges.length = count * 2 →
      ∃ total, (l.foldl (fun graph edge => graph.addEdge edge.left edge.right edge.edgeId)
          graph).Arranged (List.range total) ∧
        (l.foldl (fun graph edge => graph.addEdge edge.left edge.right edge.edgeId)
          graph).edges.length = total * 2 := by
    intro l
    induction l with
    | nil => exact fun graph count arranged length => ⟨count, arranged, length⟩
    | cons edge rest ih =>
      intro graph count arranged length
      refine ih _ (count + 1) (arranged.addEdge length) ?_
      rw [addEdge_edges, List.length_append, length]
      simp
      omega
  have blank : (empty nodeCount).Arranged (List.range 0) := by
    apply arranged_iff.mpr
    intro id node present simple
    rw [List.eq_of_mem_replicate (List.mem_of_getElem? present)]
    cases simple <;> rfl
  obtain ⟨total, arranged, length⟩ := run edges _ 0 blank rfl
  have same : (ofEdges nodeCount edges).logicalEdgeCount = total := by
    unfold logicalEdgeCount ofEdges
    rw [length]
    omega
  rw [same]
  exact arranged

end Start

end CDPHyperGraph
end DPHyper
