import Tuuli.Bipartitions
import Tuuli.RegionBuild

/-!
What `CDPHyperJoinRegion::Build` puts into the graph. A conjunct adds each division of its
cover once; with the skeleton edges, every original join has an edge across its inputs,
so the sets of the original tree can be formed.
-/
namespace JoinRegion
open AbortLoop Bipartitions
open DPHyper hiding CBitSet

variable {V : Type}

section Grown

structure SBuild.Kept (before after : SBuild) : Prop where
  nodeCount : after.graph.nodeCount = before.graph.nodeCount
  leads : ∀ {u w : CBitSet}, before.graph.Leads u w → after.graph.Leads u w

theorem SBuild.Kept.refl (state : SBuild) : state.Kept state := ⟨rfl, id⟩

theorem SBuild.Kept.trans {first second third : SBuild} (early : first.Kept second)
    (late : second.Kept third) : first.Kept third :=
  ⟨late.nodeCount.trans early.nodeCount, fun leads => late.leads (early.leads leads)⟩

theorem leads_addEdge {graph : CDPHyperGraph} {left right : CBitSet} {edgeId : ℕ} {u w : CBitSet} :
    (graph.addEdge left right edgeId).Leads u w ↔
      graph.Leads u w ∨ (u = left ∧ w = right) ∨ (u = right ∧ w = left) := by
  simp only [CDPHyperGraph.Leads, CDPHyperGraph.addEdge_edges, List.mem_append, List.mem_cons,
    List.not_mem_nil, or_false]
  constructor
  · rintro ⟨edge, old | rfl | rfl, rfl, rfl⟩
    · exact .inl ⟨edge, old, rfl, rfl⟩
    · exact .inr (.inl ⟨rfl, rfl⟩)
    · exact .inr (.inr ⟨rfl, rfl⟩)
  · rintro (⟨edge, old, sides⟩ | ⟨rfl, rfl⟩ | ⟨rfl, rfl⟩)
    · exact ⟨edge, .inl old, sides⟩
    · exact ⟨_, .inr (.inl rfl), rfl, rfl⟩
    · exact ⟨_, .inr (.inr rfl), rfl, rfl⟩

variable {state : SBuild} {budget edgeId : ℕ} {left right : CBitSet}

theorem SBuild.kept_addEdge : state.Kept (state.addEdge budget left right edgeId).1 := by
  unfold SBuild.addEdge
  split
  · exact ⟨rfl, id⟩
  · exact ⟨CDPHyperGraph.addEdge_nodeCount, fun leads => leads_addEdge.mpr (.inl leads)⟩

theorem SBuild.leads_addEdge (added : (state.addEdge budget left right edgeId).2 = false) :
    (state.addEdge budget left right edgeId).1.graph.Leads left right ∧
      (state.addEdge budget left right edgeId).1.graph.Leads right left := by
  unfold SBuild.addEdge at added ⊢
  split at added
  · exact absurd added.symm Bool.false_ne_true
  · rename_i room
    rw [if_neg room]
    exact ⟨JoinRegion.leads_addEdge.mpr (.inr (.inl ⟨rfl, rfl⟩)),
      JoinRegion.leads_addEdge.mpr (.inr (.inr ⟨rfl, rfl⟩))⟩

end Grown

section Loop
variable {budget edgeId : ℕ}

/-- What a loop adds before the budget stops it. -/
structure SBuild.Adds (before after : SBuild) (edgeId : ℕ) (added : List (CBitSet × CBitSet)) :
    Prop where
  graph : after.graph
    = added.foldl (fun graph pair => graph.addEdge pair.1 pair.2 edgeId) before.graph
  generatedEdges : after.generatedEdges = before.generatedEdges + added.length

def SBuild.addPairs (budget edgeId : ℕ) (pairs : List (CBitSet × CBitSet)) (state : SBuild) :
    SBuild × Bool :=
  untilAbort (fun pair state => state.addEdge budget pair.1 pair.2 edgeId) pairs state

theorem SBuild.addPairs_stops (pairs : List (CBitSet × CBitSet)) (state : SBuild) :
    (state.addPairs budget edgeId pairs).2 = true ↔
      pairs ≠ [] ∧ budget < state.generatedEdges + pairs.length := by
  induction pairs generalizing state with
  | nil => simp [addPairs, untilAbort]
  | cons pair rest ih =>
    unfold addPairs at ih ⊢
    by_cases full : budget ≤ state.generatedEdges
    · have stops : (state.addEdge budget pair.1 pair.2 edgeId).2 = true := by
        rw [addEdge, if_pos full]
      rw [untilAbort, if_pos stops, List.length_cons]
      simp only [ne_eq, reduceCtorEq, not_false_eq_true, true_and, true_iff]
      omega
    · have goes : (state.addEdge budget pair.1 pair.2 edgeId).2 = false := by
        rw [addEdge, if_neg full]
      have counted : (state.addEdge budget pair.1 pair.2 edgeId).1.generatedEdges
          = state.generatedEdges + 1 := by
        rw [addEdge, if_neg full]
      have continues : untilAbort (fun pair state => addEdge budget pair.1 pair.2 edgeId state)
          (pair :: rest) state = untilAbort (fun pair state =>
            addEdge budget pair.1 pair.2 edgeId state) rest
              (state.addEdge budget pair.1 pair.2 edgeId).1 := untilAbort_cons goes
      rw [continues, ih, counted, List.length_cons]
      cases rest with
      | nil =>
        simp only [ne_eq, not_true_eq_false, false_and, reduceCtorEq, not_false_eq_true, true_and,
          List.length_nil, false_iff]
        omega
      | cons next rest =>
        simp only [ne_eq, reduceCtorEq, not_false_eq_true, true_and]
        omega

theorem SBuild.addPairs_adds (pairs : List (CBitSet × CBitSet)) (state : SBuild) :
    ∃ added, state.Adds (state.addPairs budget edgeId pairs).1 edgeId added ∧
      ((state.addPairs budget edgeId pairs).2 = false → added = pairs) ∧
      ((state.addPairs budget edgeId pairs).2 = true →
        (state.addPairs budget edgeId pairs).1.edgeBudgetExhausted = true) := by
  induction pairs generalizing state with
  | nil => exact ⟨[], ⟨rfl, rfl⟩, fun _ => rfl, fun stops => absurd stops Bool.false_ne_true⟩
  | cons pair rest ih =>
    unfold addPairs at ih ⊢
    by_cases full : budget ≤ state.generatedEdges
    · have stopped : state.addEdge budget pair.1 pair.2 edgeId
          = ({ state with edgeBudgetExhausted := true }, true) := by
        rw [addEdge, if_pos full]
      rw [untilAbort, stopped, if_pos rfl]
      exact ⟨[], ⟨rfl, rfl⟩, fun goes => absurd goes.symm Bool.false_ne_true, fun _ => rfl⟩
    · have moved : state.addEdge budget pair.1 pair.2 edgeId = ({ state with
          graph := state.graph.addEdge pair.1 pair.2 edgeId
          generatedEdges := state.generatedEdges + 1 }, false) := by
        rw [addEdge, if_neg full]
      rw [untilAbort_cons (by rw [moved]), moved]
      obtain ⟨added, adds, all, exhausted⟩ := ih { state with
        graph := state.graph.addEdge pair.1 pair.2 edgeId
        generatedEdges := state.generatedEdges + 1 }
      refine ⟨pair :: added, ⟨adds.graph, ?_⟩, fun goes => by rw [all goes], exhausted⟩
      rw [adds.generatedEdges, List.length_cons]
      dsimp only
      omega

end Loop

namespace CDPHyperJoinRegion

section Partitions
variable (region : CDPHyperJoinRegion V) {nodeCount : ℕ}

theorem addPredicatePartitionsRecursive_eq (predicateId : ℕ) (rest : List ℕ) (left right : CBitSet)
    (state : SBuild) :
    region.addPredicatePartitionsRecursive predicateId rest left right state
      = state.addPairs region.edgeBudget predicateId (divide rest left right) := by
  induction rest generalizing left right state with
  | nil =>
    rw [addPredicatePartitionsRecursive, divide, SBuild.addPairs]
    split
    · rfl
    · rw [untilAbort]
      split
      · rename_i stops
        exact Prod.ext rfl stops
      · rename_i goes
        exact Prod.ext rfl (Bool.eq_false_iff.mpr goes)
  | cons node rest ih =>
    rw [addPredicatePartitionsRecursive, divide, SBuild.addPairs, untilAbort_append]
    simp only [ih]
    rfl

theorem bits_toFinset {nodes : CBitSet} (inside : nodes ⊆ Finset.range nodeCount) :
    (bits nodeCount nodes).toFinset = nodes := by
  ext node
  rw [List.mem_toFinset, mem_bits]
  constructor
  · exact And.right
  · exact fun member => ⟨Finset.mem_range.mp (inside member), member⟩

/-- The divisions of a cover, in the order in which they are added. -/
def partitions (nodeCount : ℕ) (cover : CBitSet) : List (CBitSet × CBitSet) :=
  match bits nodeCount cover with
  | [] => []
  | first :: rest => divide rest {first} ∅

theorem addPredicatePartitions_eq (predicateId : ℕ) (cover : CBitSet) (state : SBuild) :
    region.addPredicatePartitions predicateId cover state
      = state.addPairs region.edgeBudget predicateId (partitions region.nodeCount cover) := by
  unfold addPredicatePartitions partitions
  cases bits region.nodeCount cover with
  | nil => rfl
  | cons first rest => exact region.addPredicatePartitionsRecursive_eq ..

/-- Every division of the cover is there once, in one of its two orders, and nothing else is. -/
structure EachOnce (cover : CBitSet) (added : List (CBitSet × CBitSet)) : Prop where
  count : added.length = 2 ^ (cover.card - 1) - 1
  divides : ∀ pair ∈ added, Divides cover pair.1 pair.2
  once : ∀ {left right : CBitSet}, Divides cover left right →
    added.count (left, right) + added.count (right, left) = 1

variable {cover : CBitSet}

theorem partitions_eachOnce (inside : cover ⊆ Finset.range nodeCount) (nonempty : cover.Nonempty) :
    EachOnce cover (partitions nodeCount cover) := by
  have whole := bits_toFinset inside
  have nodup := bits_nodup nodeCount cover
  unfold partitions
  cases listed : bits nodeCount cover with
  | nil =>
    rw [listed, List.toFinset_nil] at whole
    exact absurd whole.symm nonempty.ne_empty
  | cons first rest =>
    rw [listed] at whole nodup
    have size : cover.card = rest.length + 1 := by
      rw [← whole, List.toFinset_card_of_nodup nodup, List.length_cons]
    constructor
    · rw [size, Nat.add_sub_cancel]
      exact divide_pinned_length
    · intro pair member
      rw [← whole]
      exact ((mem_divide_pinned nodup).mp member).2
    · intro left right divides
      rw [← whole] at divides
      exact divide_pinned_once nodup divides

theorem EachOnce.listed {left right : CBitSet} {added : List (CBitSet × CBitSet)}
    (once : EachOnce cover added) (divides : Divides cover left right) :
    (left, right) ∈ added ∨ (right, left) ∈ added := by
  by_contra neither
  obtain ⟨notHere, notThere⟩ := not_or.mp neither
  have counted := once.once divides
  rw [List.count_eq_zero_of_not_mem notHere, List.count_eq_zero_of_not_mem notThere] at counted
  exact absurd counted (by decide)

end Partitions

section Passes
variable {region : CDPHyperJoinRegion V} {budget edgeId : ℕ} {state : SBuild} {left right : CBitSet}

theorem kept_addPairs (pairs : List (CBitSet × CBitSet)) (state : SBuild) :
    state.Kept (state.addPairs budget edgeId pairs).1 :=
  untilAbort_relates SBuild.Kept.refl SBuild.Kept.trans (fun _ _ _ => SBuild.kept_addEdge) state

theorem leads_addPairs {pairs : List (CBitSet × CBitSet)}
    (goes : (state.addPairs budget edgeId pairs).2 = false) {pair : CBitSet × CBitSet}
    (listed : pair ∈ pairs) :
    (state.addPairs budget edgeId pairs).1.graph.Leads pair.1 pair.2 ∧
      (state.addPairs budget edgeId pairs).1.graph.Leads pair.2 pair.1 := by
  obtain ⟨middle, -, added, after⟩ := untilAbort_reaches SBuild.Kept.refl SBuild.Kept.trans
    (fun _ _ _ => SBuild.kept_addEdge) goes listed
  obtain ⟨forward, backward⟩ := SBuild.leads_addEdge added
  exact ⟨after.leads forward, after.leads backward⟩

theorem kept_addConjunct (entry : CConjunct V × ℕ) (state : SBuild) :
    state.Kept (region.addConjunct entry state).1 := by
  unfold addConjunct
  split
  · rw [addPredicatePartitions_eq]
    exact kept_addPairs _ state
  · exact .refl state

theorem leads_addConjunct {entry : CConjunct V × ℕ}
    (goes : (region.addConjunct entry state).2 = false)
    (several : 1 < (region.pbsPredicateCover entry.1).card)
    (divides : Divides (region.pbsPredicateCover entry.1) left right) :
    (region.addConjunct entry state).1.graph.Leads left right := by
  have once := partitions_eachOnce (region.cover_inside entry.1)
    (Finset.card_pos.mp (Nat.lt_trans Nat.zero_lt_one several))
  rw [addConjunct, if_pos several, addPredicatePartitions_eq] at goes ⊢
  rcases once.listed divides with here | reversed
  · exact (leads_addPairs goes here).1
  · exact (leads_addPairs goes reversed).2

theorem kept_addDependencyEdge (spec : CJoinRegionSpec V) (dependent : ℕ) (state : SBuild) :
    state.Kept (region.addDependencyEdge spec dependent state).1 := by
  simp only [addDependencyEdge]
  split
  · exact .refl state
  · split
    · exact SBuild.kept_addEdge
    · have kept := @SBuild.kept_addEdge state region.edgeBudget
        (region.conjuncts.length + state.dependencyEdges) (spec.dependencies.getD dependent ∅)
        {dependent}
      exact ⟨kept.nodeCount, kept.leads⟩

theorem kept_addDependencyEdges (state : SBuild) :
    state.Kept (region.addDependencyEdges state).1 := by
  unfold addDependencyEdges
  split
  · exact .refl state
  · split
    · exact untilAbort_relates SBuild.Kept.refl SBuild.Kept.trans
        (fun _ _ _ => kept_addDependencyEdge _ _ _) state
    · exact .refl state

theorem kept_addCartesianEdge (left right : CBitSet) (state : SBuild) :
    state.Kept (region.addCartesianEdge left right state).1 := by
  have kept := @SBuild.kept_addEdge state region.edgeBudget
    (region.conjuncts.length + state.dependencyEdges + state.cartesianEdges) left right
  simp only [addCartesianEdge]
  split
  · exact kept
  · exact ⟨kept.nodeCount, kept.leads⟩

theorem leads_addCartesianEdge (goes : (region.addCartesianEdge left right state).2 = false) :
    (region.addCartesianEdge left right state).1.graph.Leads left right := by
  simp only [addCartesianEdge] at goes ⊢
  split at goes
  · rename_i stops
    exact absurd (goes.symm.trans stops) Bool.false_ne_true
  · rename_i room
    rw [if_neg room]
    exact (SBuild.leads_addEdge (Bool.eq_false_iff.mpr room)).1

theorem kept_addMissingSkeletonEdge (edge : CBitSet × CBitSet) (state : SBuild) :
    state.Kept (region.addMissingSkeletonEdge edge state).1 := by
  unfold addMissingSkeletonEdge
  split
  · exact .refl state
  · exact kept_addCartesianEdge _ _ state

theorem kept_addCartesianComponentEdges (state : SBuild) :
    state.Kept (region.addCartesianComponentEdges state).1 :=
  untilAbort_relates SBuild.Kept.refl SBuild.Kept.trans
    (fun _ _ _ => kept_addCartesianEdge _ _ _) state

def afterConjuncts (region : CDPHyperJoinRegion V) : SBuild × Bool :=
  untilAbort region.addConjunct region.conjuncts.zipIdx (.start region.nodeCount)

theorem kept_afterConjuncts : (SBuild.start region.nodeCount).Kept region.afterConjuncts.1 :=
  untilAbort_relates SBuild.Kept.refl SBuild.Kept.trans
    (fun entry _ => kept_addConjunct entry) _

theorem kept_addMissingSkeletonEdges (state : SBuild) :
    state.Kept (region.addMissingSkeletonEdges state).1 :=
  untilAbort_relates SBuild.Kept.refl SBuild.Kept.trans
    (fun edge _ => kept_addMissingSkeletonEdge edge) state

variable (goes : region.buildInner.2 = false)

include goes

theorem buildInner_passes :
    ∃ joined : SBuild, region.afterConjuncts.2 = false ∧
      (region.addMissingSkeletonEdges joined).2 = false ∧ region.afterConjuncts.1.Kept joined ∧
      (region.addMissingSkeletonEdges joined).1.Kept region.buildInner.1 := by
  have unfolded : region.buildInner = if region.afterConjuncts.2 then region.afterConjuncts
      else
        let dependencies := region.addDependencyEdges region.afterConjuncts.1
        if dependencies.2 then dependencies
        else
          let skeleton := region.addMissingSkeletonEdges dependencies.1
          if skeleton.2 then skeleton else region.addCartesianComponentEdges skeleton.1 := rfl
  rw [unfolded] at goes ⊢
  dsimp only at goes ⊢
  split at goes
  · rename_i stops
    exact absurd (goes.symm.trans stops) Bool.false_ne_true
  · rename_i first
    rw [if_neg first]
    split at goes
    · rename_i stops
      exact absurd (goes.symm.trans stops) Bool.false_ne_true
    · rename_i second
      rw [if_neg second]
      split at goes
      · rename_i stops
        exact absurd (goes.symm.trans stops) Bool.false_ne_true
      · rename_i third
        rw [if_neg third]
        exact ⟨_, Bool.eq_false_iff.mpr first, Bool.eq_false_iff.mpr third,
          kept_addDependencyEdges _, kept_addCartesianComponentEdges _⟩

omit goes in
theorem divides_of_crosses {cover : CBitSet} (disjoint : Disjoint left right)
    (crosses : Crosses left right cover) : Divides cover (cover ∩ left) (cover ∩ right) where
  union := by
    rw [← Finset.inter_union_distrib_left]
    exact Finset.inter_eq_left.mpr crosses.1
  disjoint := Finset.disjoint_of_subset_left Finset.inter_subset_right
    (Finset.disjoint_of_subset_right Finset.inter_subset_right disjoint)
  left_nonempty := by
    rw [Finset.inter_comm]
    exact Finset.not_disjoint_iff_nonempty_inter.mp crosses.2.1
  right_nonempty := by
    rw [Finset.inter_comm]
    exact Finset.not_disjoint_iff_nonempty_inter.mp crosses.2.2

theorem buildInner_nodeCount : region.buildInner.1.graph.nodeCount = region.nodeCount := by
  obtain ⟨joined, -, -, kept, rest⟩ := buildInner_passes goes
  have all := ((kept_afterConjuncts.trans kept).trans (kept_addMissingSkeletonEdges joined)).trans
    rest
  rw [all.nodeCount]
  exact List.length_replicate

theorem buildInner_connected (listed : (left, right) ∈ region.skeletonEdges)
    (disjoint : Disjoint left right) : region.buildInner.1.graph.Connected left right := by
  obtain ⟨joined, predicates, skeleton, kept, rest⟩ := buildInner_passes goes
  by_cases crosses : region.fPredicateCrosses left right = true
  · -- a conjunct across the join has an edge between its two parts
    obtain ⟨cover, inCovers, found⟩ := List.any_eq_true.mp crosses
    obtain ⟨several, crossing⟩ := of_decide_eq_true found
    obtain ⟨conjunct, inConjuncts, rfl⟩ := List.mem_map.mp inCovers
    obtain ⟨index, found⟩ := List.mem_iff_getElem?.mp inConjuncts
    obtain ⟨before, -, added, later⟩ := untilAbort_reaches SBuild.Kept.refl SBuild.Kept.trans
      (fun entry _ => kept_addConjunct entry) predicates (List.mk_mem_zipIdx_iff_getElem?.mpr found)
    have leads := leads_addConjunct added several (divides_of_crosses disjoint crossing)
    have remains := ((later.trans kept).trans (kept_addMissingSkeletonEdges joined)).trans rest
    exact ⟨_, _, remains.leads leads, Finset.inter_subset_right, Finset.inter_subset_right⟩
  · obtain ⟨before, -, added, later⟩ := untilAbort_reaches SBuild.Kept.refl SBuild.Kept.trans
      (fun edge _ => kept_addMissingSkeletonEdge edge) skeleton listed
    rw [addMissingSkeletonEdge, if_neg crosses] at added later
    exact ⟨left, right, (later.trans rest).leads (leads_addCartesianEdge added),
      Finset.Subset.refl _, Finset.Subset.refl _⟩

end Passes

end CDPHyperJoinRegion

namespace CExpression

/-- The inputs of each subtree when the first of them is `first`. -/
def subtreeSets : CExpression V → ℕ → List CBitSet
  | atom _, first => [{first}]
  | join op l r predicate notinComparison, first =>
    l.subtreeSets first ++ r.subtreeSets (first + l.atomList.length) ++
      [(join op l r predicate notinComparison).nodeSet first]

theorem nodeSet_mem_subtreeSets (expr : CExpression V) (first : ℕ) :
    expr.nodeSet first ∈ expr.subtreeSets first := by
  cases expr with
  | atom a => simp [nodeSet, atomList, subtreeSets]
  | join op l r predicate notinComparison =>
    exact List.mem_append_right _ (List.mem_singleton_self _)

theorem subtreeSets_con {graph : CDPHyperGraph} (expr : CExpression V) (first : ℕ)
    (inside : expr.nodeSet first ⊆ Finset.range graph.nodeCount)
    (connected : ∀ edge ∈ expr.rawEdges first, graph.Connected edge.left edge.right) :
    ∀ set ∈ expr.subtreeSets first, graph.Con set := by
  induction expr generalizing first with
  | atom a =>
    intro set listed
    rw [List.mem_singleton.mp listed]
    exact .single (inside (by simp [nodeSet, atomList]))
  | join op l r predicate notinComparison ihl ihr =>
    rw [nodeSet_join] at inside
    obtain ⟨insideLeft, insideRight⟩ := Finset.union_subset_iff.mp inside
    have conLeft := ihl first insideLeft fun edge listed =>
      connected edge (List.mem_append_left _ (List.mem_append_left _ listed))
    have conRight := ihr _ insideRight fun edge listed =>
      connected edge (List.mem_append_left _ (List.mem_append_right _ listed))
    intro set listed
    rcases List.mem_append.mp listed with below | top
    · rcases List.mem_append.mp below with inLeft | inRight
      · exact conLeft set inLeft
      · exact conRight set inRight
    · rw [List.mem_singleton.mp top, nodeSet_join]
      obtain ⟨u, w, leads, near, far⟩ :=
        connected _ (List.mem_append_right _ (List.mem_singleton_self _))
      exact .join (conLeft _ (l.nodeSet_mem_subtreeSets first))
        (conRight _ (r.nodeSet_mem_subtreeSets _)) (nodeSet_disjoint l r first) leads near far

end CExpression

def PureInnerRegion.ofBuilt (nullRejecting : CPredicate V → CColRefSet → Bool)
    (root : CExpression V) (spec : CJoinRegionSpec V) (built : build nullRejecting root = some spec)
    (inner : spec.pureInner = true) : PureInnerRegion V where
  nullRejecting := nullRejecting
  root := root
  spec := spec
  built := built
  pureInner := inner
  supported := by
    obtain ⟨sameInner, sameSupported⟩ := build_flags built
    rw [sameSupported]
    exact CExpression.cdcSupported_of_pureInner (sameInner.symm.trans inner)

/-- Every set of the original tree can be formed in the graph of a region that was built. -/
theorem PureInnerRegion.subtreeSets_con (region : PureInnerRegion V) {budget : ℕ}
    {several : 1 < region.spec.nodeCount}
    (success : (CDPHyperJoinRegion.ofSpec region.spec budget several).build.2 = true) :
    ∀ set ∈ region.root.subtreeSets 0,
      (CDPHyperJoinRegion.ofSpec region.spec budget several).build.1.graph.Con set := by
  have inner : (CDPHyperJoinRegion.ofSpec region.spec budget several).build
      = ((CDPHyperJoinRegion.ofSpec region.spec budget several).buildInner.1,
        !(CDPHyperJoinRegion.ofSpec region.spec budget several).buildInner.2) := by
    simp only [CDPHyperJoinRegion.build, CDPHyperJoinRegion.ofSpec, region.pureInner, if_true]
  rw [inner] at success ⊢
  have goes : (CDPHyperJoinRegion.ofSpec region.spec budget several).buildInner.2 = false := by
    simpa using success
  apply CExpression.subtreeSets_con
  · rw [CDPHyperJoinRegion.buildInner_nodeCount goes, region.nodeSet_eq]
    exact Finset.Subset.refl _
  · intro edge listed
    obtain ⟨same, member, core⟩ := region.exists_edge listed
    simp only [CEdge.core, Prod.mk.injEq] at core
    rw [← core.1, ← core.2.1]
    exact CDPHyperJoinRegion.buildInner_connected goes
      (List.mem_map.mpr ⟨same, member, rfl⟩) (region.edge_disjoint member)

/-- A conjunct over several inputs adds each division of its cover once, unless the budget runs
out; and the sets of the original tree, hence the full set, can be formed whenever `Build` of a
region of inner joins succeeds. -/
theorem partition_edges_and_joinability :
    (∀ (region : CDPHyperJoinRegion V) (conjunct : CConjunct V) (predicateId : ℕ) (state : SBuild),
      1 < (region.pbsPredicateCover conjunct).card →
      let cover := region.pbsPredicateCover conjunct
      let after := region.addPredicatePartitions predicateId cover state
      (after.2 = true ↔
        region.edgeBudget < state.generatedEdges + (2 ^ (cover.card - 1) - 1)) ∧
      (after.2 = true → after.1.edgeBudgetExhausted = true) ∧
      ∃ added, state.Adds after.1 predicateId added ∧
        (after.2 = false → CDPHyperJoinRegion.EachOnce cover added)) ∧
    ∀ (nullRejecting : CPredicate V → CColRefSet → Bool) (root : CExpression V)
      (spec : CJoinRegionSpec V), build nullRejecting root = some spec → spec.pureInner = true →
      ∀ (budget : ℕ) (several : 1 < spec.nodeCount),
        (CDPHyperJoinRegion.ofSpec spec budget several).build.2 = true →
        (∀ set ∈ root.subtreeSets 0,
          (CDPHyperJoinRegion.ofSpec spec budget several).build.1.graph.Con set) ∧
        (CDPHyperJoinRegion.ofSpec spec budget several).build.1.graph.Con
          (Finset.range spec.nodeCount) := by
  constructor
  · intro region conjunct predicateId state several cover after
    have once : CDPHyperJoinRegion.EachOnce cover
        (CDPHyperJoinRegion.partitions region.nodeCount cover) :=
      CDPHyperJoinRegion.partitions_eachOnce (region.cover_inside conjunct)
        (Finset.card_pos.mp (Nat.lt_trans Nat.zero_lt_one several))
    have same : after = state.addPairs region.edgeBudget predicateId
        (CDPHyperJoinRegion.partitions region.nodeCount cover) :=
      region.addPredicatePartitions_eq predicateId cover state
    obtain ⟨added, adds, all, exhausted⟩ := @SBuild.addPairs_adds region.edgeBudget predicateId
      (CDPHyperJoinRegion.partitions region.nodeCount cover) state
    rw [← same] at adds all exhausted
    refine ⟨?_, exhausted, added, adds, fun goes => by rw [all goes]; exact once⟩
    have some : CDPHyperJoinRegion.partitions region.nodeCount cover ≠ [] := by
      intro none
      have counted := once.count
      have pow : 2 ^ 1 ≤ 2 ^ (cover.card - 1) :=
        Nat.pow_le_pow_right (by decide) (Nat.le_sub_one_of_lt several)
      rw [none, List.length_nil] at counted
      omega
    rw [same, SBuild.addPairs_stops, once.count]
    exact and_iff_right some
  · intro nullRejecting root spec built inner budget several success
    have all := (PureInnerRegion.ofBuilt nullRejecting root spec built inner).subtreeSets_con
      success
    refine ⟨all, ?_⟩
    have whole : root.nodeSet 0 = Finset.range spec.nodeCount :=
      (PureInnerRegion.ofBuilt nullRejecting root spec built inner).nodeSet_eq
    rw [← whole]
    exact all _ (root.nodeSet_mem_subtreeSets 0)

end JoinRegion
