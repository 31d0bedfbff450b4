import Tuuli.JoinRequest
import Tuuli.StepJoinability
import Tuuli.StepProgress

/-!
What the steps of the simplifier take away. Every side of the simplified graph
contains the side it had before, so nothing can be built that could not be built
from the original graph; and a step puts all nodes of its earlier edge on one side of
the later one, so that the later edge only connects sets of which one has them all.
-/
namespace DPHyper
open HyperConnect
open JoinRegion (JoinTree)

section Restricts
variable {graph coarse fine : CDPHyperGraph}

/-- The edges of the first graph have larger sides than those of the second. -/
structure Restricts (fine coarse : CDPHyperGraph) : Prop where
  nodes : fine.nodeCount = coarse.nodeCount
  sides : ∀ {index : ℕ} {edge : SEdge}, fine.edges[index]? = some edge →
    ∃ old : SEdge, coarse.edges[index]? = some old ∧ old.left ⊆ edge.left ∧ old.right ⊆ edge.right

theorem Restricts.refl (graph : CDPHyperGraph) : Restricts graph graph :=
  ⟨rfl, fun found => ⟨_, found, Finset.Subset.refl _, Finset.Subset.refl _⟩⟩

theorem Restricts.trans (first : Restricts fine graph) (second : Restricts graph coarse) :
    Restricts fine coarse := by
  refine ⟨first.nodes.trans second.nodes, fun found => ?_⟩
  obtain ⟨middle, known, left, right⟩ := first.sides found
  obtain ⟨old, origin, left', right'⟩ := second.sides known
  exact ⟨old, origin, left'.trans left, right'.trans right⟩

variable (restricts : Restricts fine coarse)

include restricts

theorem Restricts.congr_left {other : CDPHyperGraph} (edges : other.edges = fine.edges)
    (nodes : other.nodeCount = fine.nodeCount) : Restricts other coarse :=
  ⟨nodes.trans restricts.nodes, fun found => restricts.sides (edges ▸ found)⟩

theorem Restricts.leads {u w : CBitSet} (leads : fine.Leads u w) :
    ∃ u' w', coarse.Leads u' w' ∧ u' ⊆ u ∧ w' ⊆ w := by
  obtain ⟨edge, member, rfl, rfl⟩ := leads
  obtain ⟨index, found⟩ := List.mem_iff_getElem?.mp member
  obtain ⟨old, known, left, right⟩ := restricts.sides found
  exact ⟨_, _, ⟨old, List.mem_of_getElem? known, rfl, rfl⟩, left, right⟩

theorem Restricts.connected {left right : CBitSet} (connected : fine.Connected left right) :
    coarse.Connected left right := by
  obtain ⟨u, w, leads, inLeft, inRight⟩ := connected
  obtain ⟨u', w', origin, smaller, smaller'⟩ := restricts.leads leads
  exact ⟨u', w', origin, smaller.trans inLeft, smaller'.trans inRight⟩

theorem Restricts.con {set : CBitSet} (con : fine.Con set) : coarse.Con set := by
  unfold CDPHyperGraph.Con at con
  rw [restricts.nodes] at con
  induction con with
  | single member => exact .single member
  | join _ _ disjoint leads inLeft inRight ihl ihr =>
    obtain ⟨u', w', origin, smaller, smaller'⟩ := restricts.leads leads
    exact .join ihl ihr disjoint origin (smaller.trans inLeft) (smaller'.trans inRight)

structure CDPHyperGraph.ConPair (graph : CDPHyperGraph) (left right : CBitSet) : Prop where
  conLeft : graph.Con left
  conRight : graph.Con right
  disjoint : Disjoint left right
  connected : graph.Connected left right

theorem Restricts.conPair {left right : CBitSet} (pair : fine.ConPair left right) :
    coarse.ConPair left right :=
  ⟨restricts.con pair.conLeft, restricts.con pair.conRight, pair.disjoint,
    restricts.connected pair.connected⟩

def CDPHyperGraph.HasTree (graph : CDPHyperGraph) : JoinTree → Prop
  | .leaf node => node < graph.nodeCount
  | .join l r => graph.HasTree l ∧ graph.HasTree r ∧ Disjoint l.nodes r.nodes ∧
      graph.Connected l.nodes r.nodes

theorem Restricts.hasTree {tree : JoinTree} (has : fine.HasTree tree) : coarse.HasTree tree := by
  induction tree with
  | leaf node => exact lt_of_lt_of_eq has restricts.nodes
  | join l r ihl ihr =>
    obtain ⟨left, right, disjoint, connected⟩ := has
    exact ⟨ihl left, ihr right, disjoint, restricts.connected connected⟩

theorem Restricts.edgeAt {k : ℕ} (bound : k < fine.logicalEdgeCount) :
    (coarse.edgeAt k).left ⊆ (fine.edgeAt k).left ∧
      (coarse.edgeAt k).right ⊆ (fine.edgeAt k).right := by
  obtain ⟨old, known, left, right⟩ := restricts.sides (CDPHyperGraph.edgeAt_found bound)
  unfold CDPHyperGraph.edgeAt at left right ⊢
  rw [known]
  exact ⟨left, right⟩

theorem Restricts.pbsUsedNodes {k : ℕ} (bound : k < fine.logicalEdgeCount) :
    coarse.pbsUsedNodes k ⊆ fine.pbsUsedNodes k :=
  Finset.union_subset_union (restricts.edgeAt bound).1 (restricts.edgeAt bound).2

end Restricts

section Steps
variable {δ : Type} {start graph : CDPHyperGraph} {step : SSimplificationStep δ}
  {steps later earlier : List (SSimplificationStep δ)}

theorem StepFits.restricts (wf : graph.WellFormed) (fits : StepFits graph step) :
    Restricts (step.applyTo graph) graph := by
  have found := CDPHyperGraph.edgeAt_found fits.bound
  have left := fits.growsLeft
  have right := fits.growsRight
  rw [fits.oldLeft] at left
  rw [fits.oldRight] at right
  refine ⟨CDPHyperGraph.replaceEdge_nodeCount, fun {index edge} here => ?_⟩
  unfold SSimplificationStep.applyTo at here
  rw [fits.edge, wf.replaceEdge_getElem found] at here
  rcases here with ⟨-, known⟩ | ⟨rfl, rfl⟩ | ⟨rfl, rfl⟩
  · exact ⟨edge, known, Finset.Subset.refl _, Finset.Subset.refl _⟩
  · exact ⟨_, found, left, right⟩
  · exact ⟨_, wf.directions found, right, left⟩

theorem StepFits.edgeAt_applyTo (wf : graph.WellFormed) (fits : StepFits graph step) :
    ((step.applyTo graph).edgeAt step.after).left = step.change.newLeft ∧
      ((step.applyTo graph).edgeAt step.after).right = step.change.newRight := by
  have found : (step.applyTo graph).edges[step.after * 2]?
      = some ⟨step.change.newLeft, step.change.newRight, (graph.edgeAt step.after).edgeId⟩ := by
    unfold SSimplificationStep.applyTo
    rw [fits.edge]
    exact (wf.replaceEdge_getElem (CDPHyperGraph.edgeAt_found fits.bound)).mpr
      (.inr (.inl ⟨rfl, rfl⟩))
  unfold CDPHyperGraph.edgeAt
  rw [found]
  exact ⟨rfl, rfl⟩

theorem FitInTurn.restricts (wf : start.WellFormed) (fits : FitInTurn start (later ++ earlier)) :
    Restricts (replay start (later ++ earlier)) (replay start earlier) := by
  induction later with
  | nil => exact .refl _
  | cons step rest ih =>
    obtain ⟨here, before⟩ := fits
    exact (here.restricts (before.wellFormed wf)).trans (ih before)

theorem AbsorbInTurn.at (absorb : CDPHyperGraphSimplifier.AbsorbInTurn start
    (later ++ step :: earlier)) : Absorbs (replay start earlier) step := by
  induction later with
  | nil => exact absorb.1
  | cons first rest ih => exact ih absorb.2

def CDPHyperGraph.EdgeConnects (graph : CDPHyperGraph) (k : ℕ) (left right : CBitSet) : Prop :=
  ((graph.edgeAt k).left ⊆ left ∧ (graph.edgeAt k).right ⊆ right) ∨
    ((graph.edgeAt k).left ⊆ right ∧ (graph.edgeAt k).right ⊆ left)

theorem CDPHyperGraph.EdgeConnects.inside {k : ℕ} {nodes left right : CBitSet}
    (connects : graph.EdgeConnects k left right)
    (absorbed : nodes ⊆ (graph.edgeAt k).left ∨ nodes ⊆ (graph.edgeAt k).right) :
    nodes ⊆ left ∨ nodes ⊆ right := by
  rcases connects with ⟨inLeft, inRight⟩ | ⟨inRight, inLeft⟩ <;>
    rcases absorbed with onLeft | onRight
  · exact .inl (onLeft.trans inLeft)
  · exact .inr (onRight.trans inRight)
  · exact .inr (onLeft.trans inRight)
  · exact .inl (onRight.trans inLeft)

end Steps

namespace CDPHyperGraphSimplifier

variable {δ : Type} {settings : SimplifierSettings δ} {start : CDPHyperGraph}
  {s : CDPHyperGraphSimplifier δ} {n : ℕ}

theorem At.restricts (wf : start.WellFormed) (here : At settings start n s) :
    Restricts s.graph start := by
  have fits := here.positioned.fits.of_append
  have whole : FitInTurn start (s.applied ++ []) := by simpa using fits
  have restricts := FitInTurn.restricts wf whole
  rw [List.append_nil] at restricts
  exact restricts.congr_left here.positioned.edges (here.positioned.nodes.trans replay_nodeCount.symm)

/-- What one applied step did: the sides of its later edge grew and stayed disjoint, and all nodes
of its earlier edge are on one of them. -/
structure StepRestricts (before : CDPHyperGraph) (step : SSimplificationStep δ) : Prop where
  left : ((step.applyTo before).edgeAt step.after).left = step.change.newLeft
  right : ((step.applyTo before).edgeAt step.after).right = step.change.newRight
  growsLeft : (before.edgeAt step.after).left ⊆ step.change.newLeft
  growsRight : (before.edgeAt step.after).right ⊆ step.change.newRight
  disjoint : Disjoint step.change.newLeft step.change.newRight
  absorbs : before.pbsUsedNodes step.before ⊆ step.change.newLeft ∨
    before.pbsUsedNodes step.before ⊆ step.change.newRight

theorem At.stepRestricts (wf : start.WellFormed) (here : At settings start n s)
    {step : SSimplificationStep δ} {later earlier : List (SSimplificationStep δ)}
    (applied : s.applied = later ++ step :: earlier) :
    StepRestricts (replay start earlier) step ∧
      start.pbsUsedNodes step.before ⊆ (replay start earlier).pbsUsedNodes step.before ∧
      ∀ left right, s.graph.EdgeConnects step.after left right →
        (replay start earlier).pbsUsedNodes step.before ⊆ left ∨
          (replay start earlier).pbsUsedNodes step.before ⊆ right := by
  have fits := here.positioned.fits.of_append
  rw [applied] at fits
  obtain ⟨stepFits, before⟩ := fits.of_append
  have wfBefore := before.wellFormed wf
  have absorbs : Absorbs (replay start earlier) step := by
    obtain ⟨-, absorb, -⟩ := fresh_traced settings wf n
    rw [← here.steps, applied, ← List.append_assoc] at absorb
    exact AbsorbInTurn.at absorb
  obtain ⟨left, right⟩ := stepFits.edgeAt_applyTo wfBefore
  have growsLeft := stepFits.growsLeft
  have growsRight := stepFits.growsRight
  rw [stepFits.oldLeft] at growsLeft
  rw [stepFits.oldRight] at growsRight
  refine ⟨⟨left, right, growsLeft, growsRight, stepFits.disjoint, absorbs⟩, ?_, ?_⟩
  · obtain ⟨-, -, -, ends⟩ := fresh_traced settings wf n
    have listed : step ∈ (fresh settings start n).applied := by
      rw [← here.steps, applied]
      simp
    have whole : FitInTurn start (earlier ++ []) := by simpa using before
    have grown := FitInTurn.restricts wf whole
    rw [List.append_nil] at grown
    refine grown.pbsUsedNodes ?_
    rw [replay_logicalEdgeCount]
    exact (ends step listed).2.1
  · intro leftSet rightSet connects
    have later : Restricts s.graph (step.applyTo (replay start earlier)) := by
      have restricts := FitInTurn.restricts wf fits
      rw [← applied, replay_cons] at restricts
      exact restricts.congr_left here.positioned.edges
        (here.positioned.nodes.trans replay_nodeCount.symm)
    have bound : step.after < s.graph.logicalEdgeCount := by
      have same : s.graph.logicalEdgeCount = (replay start s.applied).logicalEdgeCount := by
        unfold CDPHyperGraph.logicalEdgeCount
        rw [here.positioned.edges]
      rw [same, replay_logicalEdgeCount, ← @replay_logicalEdgeCount δ start earlier]
      exact stepFits.bound
    obtain ⟨largerLeft, largerRight⟩ := later.edgeAt bound
    rw [left] at largerLeft
    rw [right] at largerRight
    refine connects.inside ?_
    rcases absorbs with onLeft | onRight
    · exact .inl (onLeft.trans largerLeft)
    · exact .inr (onRight.trans largerRight)

/-- After any moves, each applied step restricted its later edge as described, in every join tree
of the simplified graph its earlier edge lies inside one input where the later edge connects, and
all sets, pairs and join trees of the simplified graph are those of the original graph. -/
theorem steps_only_restrict (settings : SimplifierSettings δ) (nodeCount : ℕ)
    (edges : List (CDPHyperGraph.Hyperedge nodeCount)) (moves : List Move) :
    let start := CDPHyperGraph.ofEdges nodeCount edges
    let s := moves.foldl (move settings) (init settings start)
    s.graph.edges = (replay start s.applied).edges ∧
    (∀ later step earlier, s.applied = later ++ step :: earlier →
      StepRestricts (replay start earlier) step ∧
      start.pbsUsedNodes step.before ⊆ (replay start earlier).pbsUsedNodes step.before ∧
      ∀ tree, s.graph.HasTree tree → ∀ cut ∈ tree.cuts,
        s.graph.EdgeConnects step.after cut.1 cut.2 →
        (replay start earlier).pbsUsedNodes step.before ⊆ cut.1 ∨
          (replay start earlier).pbsUsedNodes step.before ⊆ cut.2) ∧
    (∀ set, s.graph.Con set → start.Con set) ∧
    (∀ left right, s.graph.ConPair left right → start.ConPair left right) ∧
    ∀ tree, s.graph.HasTree tree → start.HasTree tree := by
  intro start s
  have wf := (CDPHyperGraph.ofEdges_wellFormed nodeCount edges).1
  have arranged := CDPHyperGraph.ofEdges_arranged nodeCount edges
  obtain ⟨-, n, here⟩ := At.through_moves wf arranged moves
    (@at_fresh δ settings start 0 wf arranged)
  have restricts := here.restricts wf
  refine ⟨here.positioned.edges, fun later step earlier applied => ?_,
    fun set con => restricts.con con, fun left right pair => restricts.conPair pair,
    fun tree has => restricts.hasTree has⟩
  obtain ⟨stepRestricts, origin, inside⟩ := here.stepRestricts wf applied
  exact ⟨stepRestricts, origin, fun tree _ cut _ connects => inside cut.1 cut.2 connects⟩

end CDPHyperGraphSimplifier
end DPHyper
