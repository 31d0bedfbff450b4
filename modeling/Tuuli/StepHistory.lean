import Tuuli.AttachOrder
import Tuuli.StepRun

/-!
Undoing and redoing steps. The sides of the edges are those of the applied steps
alone; the lists of the nodes depend on the moves in between, but once all undone
steps are redone they are again what they were.
-/
namespace DPHyper
open TouchOrder

section History
variable {δ : Type} {start graph : CDPHyperGraph} {step : SSimplificationStep δ}
  {steps : List (SSimplificationStep δ)}

def SSimplificationStep.undoFrom (step : SSimplificationStep δ) (graph : CDPHyperGraph) :
    CDPHyperGraph :=
  graph.replaceEdge step.change.edge step.change.oldLeft step.change.oldRight

/-- The graph after the steps, the latest of which comes first. -/
def replay (start : CDPHyperGraph) (steps : List (SSimplificationStep δ)) : CDPHyperGraph :=
  steps.foldr (fun step graph => step.applyTo graph) start

/-- Each step fits the graph it was applied to. -/
def FitInTurn (start : CDPHyperGraph) : List (SSimplificationStep δ) → Prop
  | [] => True
  | step :: steps => StepFits (replay start steps) step ∧ FitInTurn start steps

def touched (order : List ℕ) (steps : List (SSimplificationStep δ)) : List ℕ :=
  steps.foldr (fun step order => toEnd step.change.edge order) order

theorem replay_cons : replay start (step :: steps) = step.applyTo (replay start steps) := rfl

@[simp]
theorem replay_nodeCount : (replay start steps).nodeCount = start.nodeCount := by
  induction steps with
  | nil => rfl
  | cons step steps ih =>
    rw [replay_cons]
    exact CDPHyperGraph.replaceEdge_nodeCount.trans ih

theorem replay_logicalEdgeCount :
    (replay start steps).logicalEdgeCount = start.logicalEdgeCount := by
  induction steps with
  | nil => rfl
  | cons step steps ih =>
    rw [replay_cons]
    exact CDPHyperGraph.replaceEdge_logicalEdgeCount.trans ih

theorem FitInTurn.wellFormed (wf : start.WellFormed) (fits : FitInTurn start steps) :
    (replay start steps).WellFormed := by
  induction steps with
  | nil => exact wf
  | cons step steps ih => exact fits.1.applyTo_wellFormed (ih fits.2)

theorem StepFits.found (fits : StepFits graph step) :
    graph.edges[step.change.edge * 2]? = some (graph.edgeAt step.after) := by
  rw [fits.edge]
  exact CDPHyperGraph.edgeAt_found fits.bound

theorem FitInTurn.arranged {order : List ℕ} (wf : start.WellFormed)
    (arranged : start.Arranged order) (fits : FitInTurn start steps) :
    (replay start steps).Arranged (touched order steps) := by
  induction steps with
  | nil => exact arranged
  | cons step steps ih =>
    exact (ih fits.2).replaceEdge (fits.2.wellFormed wf) fits.1.found

theorem FitInTurn.of_append {later : List (SSimplificationStep δ)}
    (fits : FitInTurn start (later ++ steps)) : FitInTurn start steps := by
  induction later with
  | nil => exact fits
  | cons step later ih => exact ih fits.2

theorem CDPHyperGraph.replaceEdge_edges_congr {other : CDPHyperGraph} {k : ℕ} {left right : CBitSet}
    (edges : graph.edges = other.edges) :
    (graph.replaceEdge k left right).edges = (other.replaceEdge k left right).edges := by
  unfold CDPHyperGraph.replaceEdge
  rw [edges]
  dsimp only
  split
  · exact edges
  · rfl

theorem StepFits.undoFrom_edges (wf : graph.WellFormed) (fits : StepFits graph step) :
    (step.undoFrom (step.applyTo graph)).edges = graph.edges := by
  have found := fits.found
  have entries := @CDPHyperGraph.WellFormed.replaceEdge_getElem graph step.change.edge
    step.change.newLeft step.change.newRight _ wf found
  have new := entries.mpr (.inr (.inl ⟨rfl, rfl⟩))
  have restored := @CDPHyperGraph.WellFormed.replaceEdge_getElem (step.applyTo graph)
    step.change.edge step.change.oldLeft step.change.oldRight _ (fits.applyTo_wellFormed wf) new
  have forward : (⟨step.change.oldLeft, step.change.oldRight,
      (graph.edgeAt step.after).edgeId⟩ : SEdge) = graph.edgeAt step.after := by
    rw [fits.oldLeft, fits.oldRight]
  have backward : (⟨step.change.oldRight, step.change.oldLeft,
      (graph.edgeAt step.after).edgeId⟩ : SEdge) = (graph.edgeAt step.after).reverse := by
    rw [fits.oldLeft, fits.oldRight]
    rfl
  apply List.ext_getElem?
  intro index
  apply Option.ext
  intro edge
  refine restored.trans ?_
  dsimp only
  rw [forward, backward]
  constructor
  · rintro (⟨others, known⟩ | ⟨rfl, rfl⟩ | ⟨rfl, rfl⟩)
    · rcases entries.mp known with ⟨-, before⟩ | ⟨same, -⟩ | ⟨same, -⟩
      · exact before
      · exact absurd same others.1
      · exact absurd same others.2
    · exact found
    · exact wf.directions found
  · intro known
    by_cases isForward : index = step.change.edge * 2
    · subst isForward
      exact .inr (.inl ⟨rfl, Option.some.inj (known.symm.trans found)⟩)
    · by_cases isBackward : index = step.change.edge * 2 + 1
      · subst isBackward
        exact .inr (.inr ⟨rfl, Option.some.inj (known.symm.trans (wf.directions found))⟩)
      · exact .inl ⟨⟨isForward, isBackward⟩, entries.mpr (.inl ⟨⟨isForward, isBackward⟩, known⟩)⟩

end History

namespace CDPHyperGraphSimplifier
variable {δ : Type} {start : CDPHyperGraph} {s : CDPHyperGraphSimplifier δ}
  {step : SSimplificationStep δ} {steps : List (SSimplificationStep δ)}

def isSettled (undone : List (SSimplificationStep δ)) (edge : ℕ) : Bool :=
  decide (edge ∉ undone.map (fun step => step.change.edge))

/-- What holds of the graph after any moves: the sides are those of the applied steps, and the
edges that no undone step changes stand in the order of the applied steps. -/
structure Positioned (start : CDPHyperGraph) (s : CDPHyperGraphSimplifier δ) : Prop where
  fits : FitInTurn start (s.unapplied.reverse ++ s.applied)
  wf : s.graph.WellFormed
  nodes : s.graph.nodeCount = start.nodeCount
  edges : s.graph.edges = (replay start s.applied).edges
  arranged : ∃ order, s.graph.Arranged order ∧ order.filter (isSettled s.unapplied)
    = (touched (List.range start.logicalEdgeCount) s.applied).filter (isSettled s.unapplied)

theorem filter_isSettled_cons {order other : List ℕ}
    (same : order.filter (isSettled steps) = other.filter (isSettled steps)) :
    order.filter (isSettled (step :: steps)) = other.filter (isSettled (step :: steps)) := by
  have narrower : ∀ edge, isSettled (step :: steps) edge =
      (isSettled steps edge && decide (edge ≠ step.change.edge)) := by
    intro edge
    unfold isSettled
    rw [List.map_cons]
    by_cases same : edge = step.change.edge <;> simp [same]
  have split : ∀ l : List ℕ, l.filter (isSettled (step :: steps))
      = (l.filter (isSettled steps)).filter (fun edge => decide (edge ≠ step.change.edge)) := by
    intro l
    rw [List.filter_filter]
    exact List.filter_congr fun edge _ => by rw [narrower, Bool.and_comm]
  rw [split, split, same]

theorem isSettled_self : isSettled (step :: steps) step.change.edge = false := by
  simp [isSettled]

theorem Positioned.undo (wf : start.WellFormed) (here : s.Positioned start)
    (latest : s.applied = step :: steps) :
    ({ s with
      graph := step.undoFrom s.graph
      applied := steps
      unapplied := step :: s.unapplied } : CDPHyperGraphSimplifier δ).Positioned start := by
  have allFit := here.fits
  rw [latest] at allFit
  have fits := allFit.of_append
  have before := fits.2.wellFormed wf
  have same : s.graph.edges = (step.applyTo (replay start steps)).edges := by
    rw [here.edges, latest, replay_cons]
  have found : s.graph.edges[step.change.edge * 2]? = some ⟨step.change.newLeft,
      step.change.newRight, ((replay start steps).edgeAt step.after).edgeId⟩ := by
    rw [same]
    exact (before.replaceEdge_getElem fits.1.found).mpr (.inr (.inl ⟨rfl, rfl⟩))
  obtain ⟨order, arranged, settled⟩ := here.arranged
  refine ⟨?_, ?_, ?_, ?_, toEnd step.change.edge order, arranged.replaceEdge here.wf found, ?_⟩
  · simpa using allFit
  · obtain ⟨left, right, disjoint, inside⟩ :=
      before.sides _ (List.mem_of_getElem? fits.1.found)
    rw [replay_nodeCount, ← here.nodes] at inside
    rw [← fits.1.oldLeft, ← fits.1.oldRight] at disjoint inside
    exact here.wf.replaceEdge found (fits.1.oldLeft ▸ left) (fits.1.oldRight ▸ right) disjoint inside
  · exact CDPHyperGraph.replaceEdge_nodeCount.trans here.nodes
  · rw [← fits.1.undoFrom_edges before]
    exact CDPHyperGraph.replaceEdge_edges_congr same
  · have earlier := @filter_isSettled_cons _ step _ _ _ settled
    rw [latest] at earlier
    dsimp only
    rw [filter_toEnd_of_not isSettled_self, earlier]
    exact filter_toEnd_of_not isSettled_self

theorem Positioned.redo (here : s.Positioned start) (next : s.unapplied = step :: steps) :
    ({ s with
      graph := step.applyTo s.graph
      applied := step :: s.applied
      unapplied := steps } : CDPHyperGraphSimplifier δ).Positioned start := by
  have allFit : FitInTurn start (steps.reverse ++ (step :: s.applied)) := by
    have known := here.fits
    rw [next] at known
    simpa using known
  have fits := allFit.of_append
  have found : s.graph.edges[step.change.edge * 2]? =
      some ((replay start s.applied).edgeAt step.after) := by
    rw [here.edges]
    exact fits.1.found
  obtain ⟨order, arranged, settled⟩ := here.arranged
  rw [next] at settled
  refine ⟨allFit, ?_, ?_, ?_, toEnd step.change.edge order, arranged.replaceEdge here.wf found, ?_⟩
  · obtain ⟨left, right, -, -⟩ := here.wf.sides _ (List.mem_of_getElem? found)
    refine here.wf.replaceEdge found ?_ ?_ fits.1.disjoint ?_
    · exact left.mono (fits.1.oldLeft ▸ fits.1.growsLeft)
    · exact right.mono (fits.1.oldRight ▸ fits.1.growsRight)
    · rw [here.nodes, ← @replay_nodeCount δ start s.applied]
      exact fits.1.inside
  · exact CDPHyperGraph.replaceEdge_nodeCount.trans here.nodes
  · exact CDPHyperGraph.replaceEdge_edges_congr here.edges
  · dsimp only
    change _ = (toEnd step.change.edge (touched _ s.applied)).filter _
    cases again : isSettled steps step.change.edge with
    | false =>
      -- the edge is changed once more later, so nothing new is settled
      have known : isSettled (step :: steps) = isSettled steps := by
        funext edge
        by_cases same : edge = step.change.edge
        · rw [same, again, isSettled_self]
        · simp [isSettled, same]
      rw [filter_toEnd_of_not again, filter_toEnd_of_not again, ← known, settled]
    | true =>
      have split : ∀ l : List ℕ, (l.filter (isSettled steps)).filter
            (fun edge => decide (edge ≠ step.change.edge))
          = l.filter (isSettled (step :: steps)) := by
        intro l
        rw [List.filter_filter]
        exact List.filter_congr fun edge _ => by simp [isSettled]
      rw [filter_toEnd_of again, filter_toEnd_of again, split, split, settled]

theorem Positioned.graph_eq (wf : start.WellFormed)
    (arranged : start.Arranged (List.range start.logicalEdgeCount)) (here : s.Positioned start)
    (all : s.unapplied = []) : s.graph = replay start s.applied := by
  have fits := here.fits.of_append
  obtain ⟨order, arrangedHere, settled⟩ := here.arranged
  have whole : isSettled s.unapplied = fun _ => true := by
    funext edge
    simp [isSettled, all]
  rw [whole, List.filter_true, List.filter_true] at settled
  subst settled
  exact arrangedHere.eq (fits.arranged wf arranged) here.wf (fits.wellFormed wf)
    (here.nodes.trans replay_nodeCount.symm) here.edges

end CDPHyperGraphSimplifier
end DPHyper
