import Mathlib.Data.Finset.Prod
import Tuuli.StepQueue

/-!
The steps the simplifier takes. A step enlarges the two sides of one edge of the
present graph; every queued entry is such a step, and the sequence of steps ends.
-/
namespace DPHyper

section Steps
variable {δ : Type} {settings : SimplifierSettings δ} {graph : CDPHyperGraph}

/-- The step enlarges the sides of an edge as it is in this graph. -/
structure StepFits (graph : CDPHyperGraph) (step : SSimplificationStep δ) : Prop where
  edge : step.change.edge = step.after
  bound : step.after < graph.logicalEdgeCount
  oldLeft : step.change.oldLeft = (graph.edgeAt step.after).left
  oldRight : step.change.oldRight = (graph.edgeAt step.after).right
  growsLeft : step.change.oldLeft ⊆ step.change.newLeft
  growsRight : step.change.oldRight ⊆ step.change.newRight
  disjoint : Disjoint step.change.newLeft step.change.newRight
  inside : step.change.newLeft ∪ step.change.newRight ⊆ Finset.range graph.nodeCount

/-- All nodes of the earlier edge lie on one side of the enlarged one. -/
def Absorbs (graph : CDPHyperGraph) (step : SSimplificationStep δ) : Prop :=
  graph.pbsUsedNodes step.before ⊆ step.change.newLeft ∨
    graph.pbsUsedNodes step.before ⊆ step.change.newRight

theorem StepFits.withBenefit {step : SSimplificationStep δ} (fits : StepFits graph step)
    (benefit : δ) : StepFits graph { step with benefit := benefit } :=
  ⟨fits.edge, fits.bound, fits.oldLeft, fits.oldRight, fits.growsLeft, fits.growsRight,
    fits.disjoint, fits.inside⟩

theorem CDPHyperGraph.edgeAt_found {edge : ℕ} (bound : edge < graph.logicalEdgeCount) :
    graph.edges[edge * 2]? = some (graph.edgeAt edge) := by
  have inside : edge * 2 < graph.edges.length := by
    unfold CDPHyperGraph.logicalEdgeCount at bound
    omega
  unfold CDPHyperGraph.edgeAt
  rw [List.getElem?_eq_getElem inside]
  rfl

theorem CDPHyperGraph.WellFormed.edgeAt_sides (wf : graph.WellFormed) {edge : ℕ}
    (bound : edge < graph.logicalEdgeCount) :
    (graph.edgeAt edge).left.Nonempty ∧ (graph.edgeAt edge).right.Nonempty ∧
      (graph.edgeAt edge).left ⊆ Finset.range graph.nodeCount ∧
      (graph.edgeAt edge).right ⊆ Finset.range graph.nodeCount := by
  obtain ⟨left, right, -, inside⟩ :=
    wf.sides _ (List.mem_of_getElem? (CDPHyperGraph.edgeAt_found bound))
  exact ⟨left, right, Finset.subset_union_left.trans inside,
    Finset.subset_union_right.trans inside⟩

theorem tryGetSuperset_spec {left right common : CBitSet}
    (found : tryGetSuperset left right = some common) :
    left ⊆ common ∧ right ⊆ common ∧ ∀ {set}, left ⊆ set → right ⊆ set → common ⊆ set := by
  unfold tryGetSuperset at found
  split at found
  case isTrue inside =>
    obtain rfl := Option.some.inj found
    exact ⟨inside, Finset.Subset.refl _, fun _ rightInside => rightInside⟩
  case isFalse =>
    obtain ⟨inside, same⟩ := Option.ite_none_right_eq_some.mp found
    obtain rfl := Option.some.inj same
    exact ⟨Finset.Subset.refl _, inside, fun leftInside _ => leftInside⟩

section Joins
variable {set1 set2 set3 : CBitSet} {edge1 edge2 : ℕ} {step : SSimplificationStep δ}

theorem threeLeftJoin_fits
    (found : threeLeftJoin settings graph set1 edge1 set2 edge2 set3 = some step)
    (bound : edge2 < graph.logicalEdgeCount) (left : (graph.edgeAt edge2).left ⊆ set1 ∪ set2)
    (right : (graph.edgeAt edge2).right ⊆ set3)
    (inside : set1 ∪ set2 ∪ set3 ⊆ Finset.range graph.nodeCount)
    (first : graph.pbsUsedNodes edge1 ⊆ set1 ∪ set2) :
    (StepFits graph step ∧ Absorbs graph step) ∧ step.before = edge1 ∧ step.after = edge2 := by
  obtain ⟨apart, found⟩ := Option.ite_none_left_eq_some.mp found
  simp only [not_or, not_not] at apart
  split at found
  · cases found
  split at found
  · cases found
  · obtain rfl := Option.some.inj found
    exact ⟨⟨⟨rfl, bound, rfl, rfl, left, right, apart.2, inside⟩, .inl first⟩, rfl, rfl⟩

theorem threeRightJoin_fits
    (found : threeRightJoin settings graph set1 edge1 set2 edge2 set3 = some step)
    (bound : edge1 < graph.logicalEdgeCount) (left : (graph.edgeAt edge1).left ⊆ set1)
    (right : (graph.edgeAt edge1).right ⊆ set2 ∪ set3)
    (inside : set1 ∪ (set2 ∪ set3) ⊆ Finset.range graph.nodeCount)
    (first : graph.pbsUsedNodes edge2 ⊆ set2 ∪ set3) :
    (StepFits graph step ∧ Absorbs graph step) ∧ step.before = edge2 ∧ step.after = edge1 := by
  obtain ⟨apart, found⟩ := Option.ite_none_left_eq_some.mp found
  simp only [not_or, not_not] at apart
  split at found
  · cases found
  split at found
  · cases found
  · obtain rfl := Option.some.inj found
    exact ⟨⟨⟨rfl, bound, rfl, rfl, left, right, apart.2, inside⟩, .inr first⟩, rfl, rfl⟩

theorem twoOrders_fits (wf : graph.WellFormed) (bound1 : edge1 < graph.logicalEdgeCount)
    (bound2 : edge2 < graph.logicalEdgeCount)
    (found : (twoOrders settings graph edge1 edge2).1 = some step ∨ (twoOrders settings graph
      edge1 edge2).2 = some step) :
    (StepFits graph step ∧ Absorbs graph step) ∧ ((step.before = edge1 ∧ step.after = edge2) ∨
      (step.before = edge2 ∧ step.after = edge1)) := by
  obtain ⟨-, -, left1, right1⟩ := wf.edgeAt_sides bound1
  obtain ⟨-, -, left2, right2⟩ := wf.edgeAt_sides bound2
  unfold twoOrders at found
  dsimp only at found
  split at found
  · rename_i common superset _
    obtain ⟨first, second, within⟩ := tryGetSuperset_spec superset
    rcases found with found | found
    · exact (threeLeftJoin_fits found bound2 (second.trans Finset.subset_union_left)
        (Finset.Subset.refl _)
        (Finset.union_subset (Finset.union_subset (within left1 left2) right1) right2)
        (Finset.union_subset_union_left first)).imp_right .inl
    · exact (threeLeftJoin_fits found bound1 (first.trans Finset.subset_union_left)
        (Finset.Subset.refl _)
        (Finset.union_subset (Finset.union_subset (within left1 left2) right2) right1)
        (Finset.union_subset_union_left second)).imp_right .inr
  split at found
  · rename_i common superset _
    obtain ⟨first, second, within⟩ := tryGetSuperset_spec superset
    rcases found with found | found
    · exact (threeRightJoin_fits found bound2 (Finset.Subset.refl _)
        (second.trans Finset.subset_union_left)
        (Finset.union_subset left2 (Finset.union_subset (within left1 right2) right1))
        (Finset.union_subset_union_left first)).imp_right .inl
    · exact (threeLeftJoin_fits found bound1 (first.trans Finset.subset_union_right)
        (Finset.Subset.refl _)
        (Finset.union_subset (Finset.union_subset left2 (within left1 right2)) right1)
        (Finset.union_subset_union_right second)).imp_right .inr
  split at found
  · rename_i common superset _
    obtain ⟨first, second, within⟩ := tryGetSuperset_spec superset
    rcases found with found | found
    · exact (threeLeftJoin_fits found bound2 (second.trans Finset.subset_union_right)
        (Finset.Subset.refl _)
        (Finset.union_subset (Finset.union_subset left1 (within right1 left2)) right2)
        (Finset.union_subset_union_right first)).imp_right .inl
    · exact (threeRightJoin_fits found bound1 (Finset.Subset.refl _)
        (first.trans Finset.subset_union_left)
        (Finset.union_subset left1 (Finset.union_subset (within right1 left2) right2))
        (Finset.union_subset_union_left second)).imp_right .inr
  split at found
  · rename_i common superset _
    obtain ⟨first, second, within⟩ := tryGetSuperset_spec superset
    rcases found with found | found
    · exact (threeRightJoin_fits found bound2 (Finset.Subset.refl _)
        (second.trans Finset.subset_union_right)
        (Finset.union_subset left2 (Finset.union_subset left1 (within right1 right2)))
        (Finset.union_subset_union_right first)).imp_right .inl
    · exact (threeRightJoin_fits found bound1 (Finset.Subset.refl _)
        (first.trans Finset.subset_union_right)
        (Finset.union_subset left1 (Finset.union_subset left2 (within right1 right2)))
        (Finset.union_subset_union_right second)).imp_right .inr
  · rcases found with found | found <;> cases found

theorem orderJoin_eq (settings : SimplifierSettings δ) (first second : SSimplificationStep δ) :
    ∃ benefit, orderJoin settings first second = { first with benefit := benefit } ∨
      orderJoin settings first second = { second with benefit := benefit } := by
  unfold orderJoin
  dsimp only
  cases settings.doubles.lt first.benefit second.benefit
  · exact ⟨_, .inr rfl⟩
  · exact ⟨_, .inl rfl⟩

/-- What `MakeStep` returns enlarges one of the two edges by the other; they are not ordered yet. -/
theorem makeStep_spec {order : CDPHyperOrderConstraints} (wf : graph.WellFormed)
    (bound1 : edge1 < graph.logicalEdgeCount) (bound2 : edge2 < graph.logicalEdgeCount)
    (made : makeStep settings graph order edge1 edge2 = some step) :
    (StepFits graph step ∧ Absorbs graph step) ∧ ((step.before = edge1 ∧ step.after = edge2) ∨
        (step.before = edge2 ∧ step.after = edge1)) ∧
      order.wouldCreateCycle edge1 edge2 = false ∧ order.wouldCreateCycle edge2 edge1 = false := by
  obtain ⟨permitted, made⟩ := Option.ite_none_left_eq_some.mp made
  simp only [not_or, Bool.not_eq_true] at permitted
  split at made
  · rename_i first second orders
    obtain rfl := Option.some.inj made
    have fits := @twoOrders_fits δ settings graph edge1 edge2
    rw [orders] at fits
    obtain ⟨benefit, selected | selected⟩ := orderJoin_eq settings first second
    · obtain ⟨⟨fit, absorbs⟩, pair⟩ := fits wf bound1 bound2 (.inl rfl)
      rw [selected]
      exact ⟨⟨fit.withBenefit benefit, absorbs⟩, pair, permitted.2.2.1, permitted.2.2.2.1⟩
    · obtain ⟨⟨fit, absorbs⟩, pair⟩ := fits wf bound1 bound2 (.inr rfl)
      rw [selected]
      exact ⟨⟨fit.withBenefit benefit, absorbs⟩, pair, permitted.2.2.1, permitted.2.2.2.1⟩
  · cases made

end Joins

end Steps

namespace CDPHyperOrderConstraints

variable {order : CDPHyperOrderConstraints} {count before after : ℕ}

structure Reflexive (order : CDPHyperOrderConstraints) (count : ℕ) : Prop where
  size : order.reachable.length = count
  self : ∀ edge < count, edge ∈ order.reachableFrom edge

def unorderedPairs (order : CDPHyperOrderConstraints) (count : ℕ) : Finset (ℕ × ℕ) :=
  (Finset.range count ×ˢ Finset.range count).filter
    (fun pair => pair.1 ∉ order.reachableFrom pair.2 ∧ pair.2 ∉ order.reachableFrom pair.1)

theorem reflexive_init : (init count).Reflexive count := by
  refine ⟨by simp [init], fun edge bound => ?_⟩
  simp [init, reachableFrom, bound]

theorem reachableFrom_tryAdd (edge : ℕ) :
    order.reachableFrom edge ⊆ (order.tryAdd before after).1.reachableFrom edge := by
  unfold tryAdd
  split
  · exact Finset.Subset.refl _
  · split
    · exact Finset.Subset.refl _
    · unfold reachableFrom
      simp only [List.getElem?_map]
      cases order.reachable[edge]? with
      | none => simp
      | some set =>
        simp only [Option.map_some, Option.getD_some]
        split
        · exact Finset.subset_union_left
        · exact Finset.Subset.refl _

theorem Reflexive.tryAdd (reflexive : order.Reflexive count) :
    (order.tryAdd before after).1.Reflexive count := by
  refine ⟨?_, fun edge bound => reachableFrom_tryAdd edge (reflexive.self edge bound)⟩
  unfold CDPHyperOrderConstraints.tryAdd
  split
  · exact reflexive.size
  · split
    · exact reflexive.size
    · simp [reflexive.size]

theorem reachableFrom_accept {edge : ℕ} (free : order.wouldCreateCycle before after = false)
    (new : after ∉ order.reachableFrom before) (bound : edge < order.reachable.length) :
    (order.tryAdd before after).1.reachableFrom edge
      = if before ∈ order.reachableFrom edge
        then order.reachableFrom edge ∪ order.reachableFrom after
        else order.reachableFrom edge := by
  unfold tryAdd
  rw [if_neg (by simp [free]), if_neg new]
  simp [reachableFrom, bound]

theorem Reflexive.mem_tryAdd (reflexive : order.Reflexive count) (boundBefore : before < count)
    (boundAfter : after < count) (free : order.wouldCreateCycle before after = false) :
    after ∈ (order.tryAdd before after).1.reachableFrom before := by
  by_cases known : after ∈ order.reachableFrom before
  · exact reachableFrom_tryAdd before known
  · rw [reachableFrom_accept free known (reflexive.size.symm ▸ boundBefore),
      if_pos (reflexive.self before boundBefore)]
    exact Finset.mem_union_right _ (reflexive.self after boundAfter)

theorem Reflexive.unorderedPairs_tryAdd (reflexive : order.Reflexive count)
    (boundBefore : before < count) (boundAfter : after < count)
    (free : order.wouldCreateCycle before after = false)
    (new : after ∉ order.reachableFrom before) :
    ((order.tryAdd before after).1.unorderedPairs count).card
      < (order.unorderedPairs count).card := by
  have added := reflexive.mem_tryAdd boundBefore boundAfter free
  refine Finset.card_lt_card (Finset.ssubset_iff_subset_ne.mpr ⟨?_, fun same => ?_⟩)
  · intro pair member
    simp only [unorderedPairs, Finset.mem_filter] at member ⊢
    exact ⟨member.1, fun reached => member.2.1 (reachableFrom_tryAdd _ reached),
      fun reached => member.2.2 (reachableFrom_tryAdd _ reached)⟩
  · have member : (before, after) ∈ order.unorderedPairs count := by
      simp only [unorderedPairs, Finset.mem_filter, Finset.mem_product, Finset.mem_range]
      refine ⟨⟨boundBefore, boundAfter⟩, ?_, new⟩
      simpa [wouldCreateCycle] using free
    rw [← same] at member
    simp only [unorderedPairs, Finset.mem_filter] at member
    exact member.2.2 added

theorem tryAdd_snd : (order.tryAdd before after).2 = !order.wouldCreateCycle before after := by
  unfold tryAdd
  split
  · rename_i cycle
    simp [cycle]
  · rename_i free
    split <;> simp [free]

theorem tryAdd_known (free : order.wouldCreateCycle before after = false)
    (known : after ∈ order.reachableFrom before) : order.tryAdd before after = (order, true) := by
  unfold tryAdd
  rw [if_neg (by simp [free]), if_pos known]

end CDPHyperOrderConstraints

end DPHyper
