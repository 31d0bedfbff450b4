import Tuuli.ReportLog
import Tuuli.SkeletonPlan

/-!
What a region with lateral dependencies emits: an accepted set of two or more inputs has the
providers of its members, and a join whose cut separates a dependent input from a provider has
the provider on its left and is not commuted.
-/
namespace JoinRegion
open DPHyper hiding CBitSet

variable {V : Type}

structure CJoinAlternative (V : Type) where
  joinType : EOperatorId
  left : CBitSet
  right : CBitSet
  predicate : CPredicate V
  notinComparison : Option (CPredicate V)

def emittedJoins (spec : CJoinRegionSpec V) (left right : CBitSet) : List (CJoinAlternative V) :=
  match fBuildJoinRequest spec left right with
  | none => []
  | some request =>
    let complexRegion := !spec.pureInner
    let joinType := if complexRegion then request.joinType else .innerJoin
    let predicate := if complexRegion then pexprPredicate spec request
      else planPredicate spec left right
    let addReverse := (joinType = .innerJoin ∨ joinType = .fullOuterJoin) ∧
      request.dependencyDirectional = false
    let (first, second) := if request.swapped then (right, left) else (left, right)
    ⟨joinType, first, second, predicate, request.notinComparison⟩ ::
      (if addReverse then [⟨joinType, second, first, predicate, request.notinComparison⟩] else [])

section Materialised
variable {spec : CJoinRegionSpec V} {left right : CBitSet}

theorem emittedJoins_oriented (consistent : Consistent spec) (disjoint : Disjoint left right)
    {provider node : ℕ} (depends : provider ∈ spec.providers node)
    (separated : Separates left right provider node)
    (accepted : (fBuildJoinRequest spec left right).isSome) :
    ∃ join, emittedJoins spec left right = [join] ∧ provider ∈ join.left ∧ node ∈ join.right ∧
      ((join.left = left ∧ join.right = right) ∨ (join.left = right ∧ join.right = left)) := by
  obtain ⟨request, built⟩ := Option.isSome_iff_exists.mp accepted
  obtain ⟨swapped, applicable, follows⟩ := fBuildJoinRequest_oriented built
  obtain ⟨-, oriented⟩ := fDependencyApplicable_spec consistent disjoint applicable
  obtain ⟨directional, orientation⟩ := oriented depends separated
  have swaps : request.swapped = decide (provider ∈ right) := by
    rw [follows directional, orientation]
  unfold emittedJoins
  simp only [built, directional, swaps, Bool.true_eq_false, and_false, if_false]
  rcases separated with ⟨inLeft, inRight⟩ | ⟨inRight, inLeft⟩
  · have outside : provider ∉ right := Finset.disjoint_left.mp disjoint inLeft
    simp only [outside, decide_false, Bool.false_eq_true, if_false]
    exact ⟨_, rfl, inLeft, inRight, .inl ⟨rfl, rfl⟩⟩
  · simp only [inRight, decide_true, if_true]
    exact ⟨_, rfl, inRight, inLeft, .inr ⟨rfl, rfl⟩⟩

end Materialised

def pairFilter (spec : CJoinRegionSpec V) : PairFilter := fun left right edgeId =>
  (fPairApplicable spec left right edgeId).isSome && (fBuildJoinRequest spec left right).isSome

/-- The graphs of a region: built by `AddEdge`, then changed by `ReplaceEdge`. -/
inductive RegionGraph (nodeCount : ℕ) : CDPHyperGraph → Prop
  | built (edges : List (CDPHyperGraph.Hyperedge nodeCount)) :
      RegionGraph nodeCount (.ofEdges nodeCount edges)
  | replaced {graph : CDPHyperGraph} {k : ℕ} {old : SEdge} {left right : CBitSet} :
      RegionGraph nodeCount graph → graph.edges[k * 2]? = some old → left.Nonempty →
      right.Nonempty → Disjoint left right → left ∪ right ⊆ Finset.range nodeCount →
      RegionGraph nodeCount (graph.replaceEdge k left right)

theorem RegionGraph.arranged {nodeCount : ℕ} {graph : CDPHyperGraph}
    (region : RegionGraph nodeCount graph) : graph.WellFormed ∧ graph.nodeCount = nodeCount ∧
      ∃ order, order.Nodup ∧ graph.Arranged order := by
  induction region with
  | built edges =>
    obtain ⟨wf, count⟩ := CDPHyperGraph.ofEdges_wellFormed nodeCount edges
    exact ⟨wf, count, _, List.nodup_range, CDPHyperGraph.ofEdges_arranged nodeCount edges⟩
  | @replaced graph k old left right _ found nonemptyLeft nonemptyRight disjoint inside ih =>
    obtain ⟨wf, count, order, once, arranged⟩ := ih
    refine ⟨wf.replaceEdge found nonemptyLeft nonemptyRight disjoint (count ▸ inside), ?_,
      TouchOrder.toEnd k order, ?_, arranged.replaceEdge wf found⟩
    · rw [CDPHyperGraph.replaceEdge_nodeCount, count]
    · exact List.nodup_append.mpr ⟨once.filter _, List.nodup_singleton k, by
        intro x member y last same
        rw [List.mem_singleton.mp last] at same
        simpa [same] using (List.mem_filter.mp member).2⟩

theorem topological_of_forall {nodeCount : ℕ} {accepts : CBitSet → CBitSet → Prop} {cuts : List Cut}
    (topological : Topological nodeCount (fun _ _ => True) cuts)
    (each : ∀ cut ∈ cuts, accepts cut.1 cut.2) : Topological nodeCount accepts cuts := by
  induction topological with
  | nil => exact .nil
  | @snoc cuts left right _ disjoint formedLeft formedRight _ ih =>
    exact .snoc (ih (fun cut member => each cut (List.mem_append_left _ member))) disjoint
      formedLeft formedRight (each (left, right) (by simp))

namespace EnumeratedRegion

variable (region : EnumeratedRegion V)

/-- The plans that `FEnumerateRegion` may materialise: an enumeration of the graph of the region,
simplified or not, that is complete, or the original joins. -/
inductive Plan : CDPHyperPlan → Prop
  | enumerated {graph : CDPHyperGraph} {budget : ℕ} : RegionGraph region.spec.nodeCount graph →
      (enumerate graph (.empty (some budget) (pairFilter region.spec))).1.complete
        region.spec.nodeCount = true →
      Plan (enumerate graph (.empty (some budget) (pairFilter region.spec))).1
  | skeleton {plan : CDPHyperPlan} : fBuildBinarySkeletonPlan region.spec = some plan → Plan plan

theorem Plan.recorded {region : EnumeratedRegion V} {plan : CDPHyperPlan} (own : region.Plan plan) :
    plan.Recorded region.spec.nodeCount
      (fun left right => (fBuildJoinRequest region.spec left right).isSome) := by
  cases own with
  | @enumerated graph budget ofRegion complete =>
    obtain ⟨wf, count, order, once, arranged⟩ := ofRegion.arranged
    obtain ⟨-, outcome⟩ :=
      reportLog_enumerate wf arranged once (pairFilter region.spec) budget
    rw [enumerate_eq_reportLog] at complete ⊢
    cases stopped : ((reportLog graph).enumerate graph
      (.empty (some budget) (pairFilter region.spec), [])).2 with
    | true =>
      have final := (outcome.stops stopped).exhausted
      simp [CDPHyperPlan.complete, final] at complete
    | false =>
      have running := outcome.continues stopped
      have recorded := running.recorded
      rw [count] at recorded
      refine ⟨topological_of_forall recorded.topological ?_, recorded.formed⟩
      intro cut member
      have accepted := List.mem_toFinset.mpr member
      rw [running.tally.cuts] at accepted
      obtain ⟨report, inLog, rfl⟩ := List.mem_map.mp (List.mem_toFinset.mp accepted)
      have passes := (List.mem_filter.mp inLog).2
      unfold PairReport.accepted at passes
      obtain ⟨edge, -, filtered⟩ := (Option.any_eq_true ..).mp passes
      exact (Bool.and_eq_true_iff.mp filtered).2
  | skeleton replayed =>
    obtain ⟨last, run, done⟩ := Option.bind_eq_some_iff.mp replayed
    split at done
    · obtain rfl := Option.some.inj done
      obtain ⟨recorded, filter⟩ := @singles_recorded _
        (fun left right => ((fBuildJoinRequest region.spec left right).isSome : Prop)) _
        (List.range region.spec.nodeCount) (fun node => List.mem_range.mp)
        (.empty (some (region.spec.nodeCount - 1)) noFilter)
      exact (replay_spec region.spec.edges.zipIdx (fun entry member =>
        region.edge_disjoint (List.fst_mem_of_mem_zipIdx member)) recorded filter run).1
    · contradiction

/-- Accepted sets of two or more inputs have the providers of their members, the joins of a plan
have providers on the left and are not commuted, and mutual dependencies are rejected. -/
theorem lateral_dependencies_safe (region : EnumeratedRegion V) :
    (∀ l r : JoinTree, (JoinTree.join l r).Accepted region.spec → ∀ node ∈ (l.join r).nodes,
      region.spec.providers node ⊆ (l.join r).nodes) ∧
    (∀ plan, region.Plan plan →
      (∀ nodes, plan.HasSeen nodes → 2 ≤ nodes.card → ∀ node ∈ nodes,
        region.spec.providers node ⊆ nodes) ∧
      ∀ pair ∈ plan.pairs, ∀ provider node, provider ∈ region.spec.providers node →
        Separates pair.left pair.right provider node →
        ∃ join, emittedJoins region.spec pair.left pair.right = [join] ∧
          provider ∈ join.left ∧ node ∈ join.right ∧
          ((join.left = pair.left ∧ join.right = pair.right) ∨
            (join.left = pair.right ∧ join.right = pair.left))) ∧
    (∀ left right, Disjoint left right → ∀ provider node provider' node',
      provider ∈ region.spec.providers node → provider' ∈ region.spec.providers node' →
      provider ∈ left ∧ node ∈ right → provider' ∈ right ∧ node' ∈ left →
      fBuildJoinRequest region.spec left right = none) := by
  refine ⟨?_, ?_, ?_⟩
  · rintro l r ⟨-, -, disjoint, accepted⟩
    exact region.closed_of_accepted disjoint accepted
  · intro plan own
    have recorded := own.recorded
    constructor
    · intro nodes seen large
      rcases recorded.formed nodes seen with ⟨node, -, rfl⟩ | ⟨cut, member, rfl⟩
      · rw [Finset.card_singleton] at large
        omega
      · obtain ⟨disjoint, accepted⟩ := recorded.topological.disjoint_accepts member
        exact region.closed_of_accepted disjoint accepted
    · intro pair member provider node depends separated
      obtain ⟨disjoint, accepted⟩ :=
        recorded.topological.disjoint_accepts (List.mem_map_of_mem (f := SPair.cut) member)
      exact emittedJoins_oriented region.consistent disjoint depends separated accepted
  · intro left right disjoint provider node provider' node' depends depends' rightward leftward
    exact fBuildJoinRequest_mutual region.consistent disjoint depends depends' rightward leftward

end EnumeratedRegion

end JoinRegion
