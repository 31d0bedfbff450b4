import Tuuli.GroupSharing

/-!
`FBuildBinarySkeletonPlan`: the original joins of a region, replayed in
post-order into a plan of their own. A region without lateral references
always has this plan.
-/
namespace JoinRegion
open DPHyper hiding CBitSet

variable {V : Type}

section SkeletonPlan
variable {nodeCount : ℕ} {accepts : CBitSet → CBitSet → Prop} {plan : CDPHyperPlan}
  {spec : CJoinRegionSpec V}

theorem singles_recorded (nodes : List ℕ) (bound : ∀ node ∈ nodes, node < nodeCount)
    (recorded : plan.Recorded nodeCount accepts) :
    (nodes.foldl CDPHyperPlan.foundSingleNode plan).Recorded nodeCount accepts ∧
      (nodes.foldl CDPHyperPlan.foundSingleNode plan).pairFilter = plan.pairFilter := by
  induction nodes generalizing plan with
  | nil => exact ⟨recorded, rfl⟩
  | cons node rest ih =>
    obtain ⟨later, filter⟩ := ih (fun other member => bound other (List.mem_cons_of_mem _ member))
      (recorded.foundSingleNode (bound node List.mem_cons_self))
    refine ⟨later, filter.trans ?_⟩
    simp [CDPHyperPlan.foundSingleNode]

theorem replayEdge_spec {next : CDPHyperPlan} {entry : CEdge V × ℕ}
    (recorded : plan.Recorded nodeCount (fun left right => (fBuildJoinRequest spec left
      right).isSome)) (unfiltered : plan.pairFilter = noFilter)
    (disjoint : Disjoint entry.1.left entry.1.right) (step : replayEdge spec plan entry = some next) :
    next.Recorded nodeCount (fun left right => (fBuildJoinRequest spec left right).isSome) ∧
      next.pairFilter = noFilter ∧ next.Lists entry.1.left entry.1.right entry.2 ∧
      ∀ {a b e}, plan.Lists a b e → next.Lists a b e := by
  unfold replayEdge at step
  split at step
  · contradiction
  rename_i seen
  split at step
  · contradiction
  rename_i request
  split at step
  · contradiction
  rename_i continues
  obtain rfl := Option.some.inj step
  obtain ⟨seenLeft, seenRight⟩ := not_not.mp seen
  refine ⟨?_, ?_, ?_, fun lists => lists.foundSubgraphPair⟩
  · exact recorded.foundSubgraphPair disjoint seenLeft seenRight
      (by simpa [Option.isSome_iff_ne_none] using request)
  · rw [CDPHyperPlan.foundSubgraphPair_pairFilter, unfiltered]
  · exact CDPHyperPlan.foundSubgraphPair_lists (by rw [unfiltered]; rfl) (by simpa using continues)

theorem replay_spec {last : CDPHyperPlan} (entries : List (CEdge V × ℕ))
    (disjoint : ∀ entry ∈ entries, Disjoint entry.1.left entry.1.right)
    (recorded : plan.Recorded nodeCount (fun left right => (fBuildJoinRequest spec left
      right).isSome)) (unfiltered : plan.pairFilter = noFilter)
    (run : entries.foldlM (replayEdge spec) plan = some last) :
    last.Recorded nodeCount (fun left right => (fBuildJoinRequest spec left right).isSome) ∧
      (∀ entry ∈ entries, last.Lists entry.1.left entry.1.right entry.2) ∧
      ∀ {a b e}, plan.Lists a b e → last.Lists a b e := by
  induction entries generalizing plan with
  | nil =>
    obtain rfl := Option.some.inj run
    exact ⟨recorded, by simp, id⟩
  | cons entry rest ih =>
    rw [List.foldlM_cons] at run
    obtain ⟨next, step, run⟩ := Option.bind_eq_some_iff.mp run
    obtain ⟨recorded, unfiltered, here, keeps⟩ :=
      replayEdge_spec recorded unfiltered (disjoint entry List.mem_cons_self) step
    obtain ⟨final, later, keepsLater⟩ := ih
      (fun other member => disjoint other (List.mem_cons_of_mem _ member)) recorded unfiltered run
    refine ⟨final, ?_, fun lists => keepsLater (keeps lists)⟩
    intro other member
    rcases List.mem_cons.mp member with rfl | inRest
    · exact keepsLater here
    · exact later other inRest

end SkeletonPlan

/-- A plan with room for `rest` more pairs in which every recorded pair is seen. -/
structure Replayable (plan : CDPHyperPlan) (rest : ℕ) : Prop where
  unfiltered : plan.pairFilter = noFilter
  room : ∃ budget, plan.pairBudget = some budget ∧ plan.pairs.length + rest ≤ budget
  notExhausted : plan.budgetExhausted = false
  seen : ∀ pair ∈ plan.pairs, plan.HasSeen pair.joined

variable {plan : CDPHyperPlan} {rest : ℕ} {spec : CJoinRegionSpec V}

theorem Replayable.foundSubgraphPair {plan : CDPHyperPlan} {rest : ℕ}
    (ready : Replayable plan (rest + 1)) (left right : CBitSet) (edge : ℕ) :
    (plan.foundSubgraphPair left right edge).2 = false ∧
      Replayable (plan.foundSubgraphPair left right edge).1 rest ∧
      (plan.foundSubgraphPair left right edge).1.HasSeen (left ∪ right) ∧
      ∀ {nodes}, plan.HasSeen nodes → (plan.foundSubgraphPair left right edge).1.HasSeen nodes := by
  obtain ⟨budget, limit, room⟩ := ready.room
  have passes : ¬ plan.pairFilter left right edge = false := by
    rw [ready.unfiltered]
    exact Bool.true_eq_false_eq_False
  unfold CDPHyperPlan.foundSubgraphPair
  rw [if_neg passes]
  split
  · rename_i known
    obtain ⟨pair, member, joins⟩ := known
    have size : (addEdgeToPair left right edge plan.pairs).length = plan.pairs.length := by
      have := congrArg List.length (addEdgeToPair_cuts left right edge plan.pairs)
      simpa using this
    refine ⟨rfl, ⟨ready.unfiltered, ⟨budget, limit, by simp only [size]; omega⟩, ready.notExhausted, ?_⟩,
      ?_, id⟩
    · intro other present
      have image := List.mem_map_of_mem (f := SPair.cut) present
      rw [addEdgeToPair_cuts] at image
      obtain ⟨old, inOld, cut⟩ := List.mem_map.mp image
      obtain ⟨sameLeft, sameRight⟩ := Prod.mk.inj cut
      have before := ready.seen old inOld
      rw [SPair.joined, sameLeft, sameRight] at before
      exact before
    · rw [← joins.joined_eq]
      exact ready.seen pair member
  · have space : plan.pairBudgetReached = false := by
      simp only [CDPHyperPlan.pairBudgetReached, limit, decide_eq_false_iff_not]
      omega
    rw [if_neg (by simp [space])]
    refine ⟨rfl, ⟨?_, ⟨budget, ?_, ?_⟩, ?_, ?_⟩, ?_, ?_⟩
    · simp [ready.unfiltered]
    · simpa using limit
    · simp; omega
    · simpa using ready.notExhausted
    · intro pair member
      rw [CDPHyperPlan.recordSeen_pairs] at member
      rw [CDPHyperPlan.hasSeen_recordSeen]
      rcases List.mem_append.mp member with old | new
      · exact .inl (ready.seen pair old)
      · rw [List.mem_singleton.mp new]
        exact .inr rfl
    · exact CDPHyperPlan.hasSeen_recordSeen.mpr (.inr rfl)
    · intro nodes before
      exact CDPHyperPlan.hasSeen_recordSeen.mpr (.inl before)

theorem Replayable.foundSingleNode (ready : Replayable plan rest) (node : ℕ) :
    Replayable (plan.foundSingleNode node) rest := by
  obtain ⟨budget, limit, room⟩ := ready.room
  unfold CDPHyperPlan.foundSingleNode
  refine ⟨?_, ⟨budget, ?_, ?_⟩, ?_, ?_⟩
  · simpa using ready.unfiltered
  · simpa using limit
  · simpa using room
  · simpa using ready.notExhausted
  · intro pair member
    rw [CDPHyperPlan.recordSeen_pairs] at member
    exact CDPHyperPlan.hasSeen_recordSeen.mpr (.inl (ready.seen pair member))

theorem replay_succeeds (expr : CExpression V) (first : ℕ) {entries : List (CEdge V × ℕ)}
    (accepts : ∀ entry ∈ entries, (fBuildJoinRequest spec entry.1.left entry.1.right).isSome)
    (cores : entries.map (fun entry => entry.1.core) = (expr.rawEdges first).map CEdge.core)
    (ready : Replayable plan (expr.joinCount + rest))
    (singles : ∀ node ∈ expr.nodeSet first, plan.HasSeen {node}) :
    ∃ last, entries.foldlM (replayEdge spec) plan = some last ∧ Replayable last rest ∧
      last.HasSeen (expr.nodeSet first) ∧ ∀ {nodes}, plan.HasSeen nodes → last.HasSeen nodes := by
  induction expr generalizing first entries plan rest with
  | atom a =>
    simp only [CExpression.rawEdges, List.map_nil, List.map_eq_nil_iff] at cores
    subst cores
    refine ⟨plan, rfl, ?_, ?_, id⟩
    · simpa [CExpression.joinCount] using ready
    · have single : (CExpression.atom a : CExpression V).nodeSet first = {first} := by
        simp [CExpression.nodeSet, CExpression.atomList]
      rw [single] at singles ⊢
      exact singles first (Finset.mem_singleton_self first)
  | join op l r predicate notin ihl ihr =>
    rw [CExpression.nodeSet_join] at singles ⊢
    simp only [CExpression.rawEdges, List.map_append] at cores
    obtain ⟨inner, top, rfl, coresInner, coresTop⟩ := List.map_eq_append_iff.mp cores
    obtain ⟨lefts, rights, rfl, coresLeft, coresRight⟩ := List.map_eq_append_iff.mp coresInner
    obtain ⟨entry, rfl, core⟩ := List.map_eq_singleton_iff.mp coresTop
    simp only [CEdge.core, Prod.mk.injEq] at core
    have room : Replayable plan (l.joinCount + (r.joinCount + (rest + 1))) := by
      convert ready using 1
      simp only [CExpression.joinCount]
      omega
    obtain ⟨afterLeft, runLeft, readyLeft, seenLeft, keepsLeft⟩ := ihl first
      (fun entry listed => accepts entry
        (List.mem_append_left _ (List.mem_append_left _ listed))) coresLeft room
      (fun node member => singles node (Finset.mem_union_left _ member))
    obtain ⟨afterRight, runRight, readyRight, seenRight, keepsRight⟩ :=
      ihr (first + l.atomList.length)
      (fun entry listed => accepts entry
        (List.mem_append_left _ (List.mem_append_right _ listed))) coresRight readyLeft
      (fun node member => keepsLeft (singles node (Finset.mem_union_right _ member)))
    obtain ⟨continues, readyTop, seenTop, keepsTop⟩ :=
      readyRight.foundSubgraphPair entry.1.left entry.1.right entry.2
    have step : replayEdge spec afterRight entry
        = some (afterRight.foundSubgraphPair entry.1.left entry.1.right entry.2).1 := by
      have seen : afterRight.HasSeen entry.1.left ∧ afterRight.HasSeen entry.1.right := by
        rw [core.1, core.2.1]
        exact ⟨keepsRight seenLeft, seenRight⟩
      have request := accepts entry (List.mem_append_right _ (List.mem_singleton_self entry))
      rw [replayEdge, if_neg (not_not.mpr seen), if_neg, if_neg]
      · simp [continues]
      · simp [Option.isSome_iff_ne_none.mp request]
    refine ⟨_, ?_, readyTop, ?_, fun before => keepsTop (keepsRight (keepsLeft before))⟩
    · simp only [List.foldlM_append, runLeft, runRight, List.foldlM_cons, List.foldlM_nil, step,
        Option.bind_eq_bind, Option.bind_some, Option.pure_def]
    · rw [← core.1, ← core.2.1]
      exact seenTop

theorem singles_replayable (nodes : List ℕ) (ready : Replayable plan rest) :
    Replayable (nodes.foldl CDPHyperPlan.foundSingleNode plan) rest ∧
      (∀ node ∈ nodes, (nodes.foldl CDPHyperPlan.foundSingleNode plan).HasSeen {node}) ∧
      ∀ {set}, plan.HasSeen set → (nodes.foldl CDPHyperPlan.foundSingleNode plan).HasSeen set := by
  induction nodes generalizing plan with
  | nil => exact ⟨ready, by simp, id⟩
  | cons node others ih =>
    obtain ⟨later, seen, keeps⟩ := ih (ready.foundSingleNode node)
    refine ⟨later, ?_, fun before => keeps (CDPHyperPlan.hasSeen_recordSeen.mpr (.inl before))⟩
    intro other member
    rcases List.mem_cons.mp member with rfl | inOthers
    · exact keeps (CDPHyperPlan.hasSeen_recordSeen.mpr (.inr rfl))
    · exact seen other inOthers

theorem skeleton_of_accepts {nullRejecting : CPredicate V → CColRefSet → Bool}
    {root : CExpression V} (built : build nullRejecting root = some spec)
    (supported : spec.cdcSupported = true)
    (accepts : ∀ edge ∈ spec.edges, (fBuildJoinRequest spec edge.left edge.right).isSome) :
    ∃ skeleton, fBuildBinarySkeletonPlan spec = some skeleton := by
  obtain ⟨atoms, edges, -, -⟩ := build_spec built supported
  have count : spec.nodeCount = root.joinCount + 1 := by
    rw [CJoinRegionSpec.nodeCount, atoms, CExpression.atomList_length]
  have whole : root.nodeSet 0 = Finset.range spec.nodeCount := by
    rw [CExpression.nodeSet, CExpression.atomList_length, count, Nat.zero_add, Finset.range_eq_Ico]
  have start : Replayable (.empty (some (spec.nodeCount - 1)) noFilter) (root.joinCount + 0) := by
    refine ⟨rfl, ⟨_, rfl, ?_⟩, rfl, by simp [CDPHyperPlan.empty]⟩
    simp only [CDPHyperPlan.empty, List.length_nil]
    omega
  obtain ⟨ready, seen, -⟩ := singles_replayable (List.range spec.nodeCount) start
  have cores : spec.edges.zipIdx.map (fun entry => entry.1.core)
      = (root.rawEdges 0).map CEdge.core := by
    have same := congrArg (List.map CEdge.core) (List.zipIdx_map_fst 0 spec.edges)
    rw [List.map_map] at same
    rw [← buildEdges_core nullRejecting root.atomList, ← edges]
    exact same
  obtain ⟨last, run, final, all, -⟩ := replay_succeeds root 0
    (fun entry listed => accepts entry.1 (List.fst_mem_of_mem_zipIdx listed)) cores ready (by
      intro node member
      rw [whole, Finset.mem_range] at member
      exact seen node (List.mem_range.mpr member))
  rw [whole] at all
  have complete : last.complete spec.nodeCount = true := by
    have some : 0 < spec.nodeCount := by omega
    simp [CDPHyperPlan.complete, final.notExhausted, all, some]
  refine ⟨last, ?_⟩
  simp only [fBuildBinarySkeletonPlan, run, Option.bind_some, complete, if_true]

end JoinRegion
