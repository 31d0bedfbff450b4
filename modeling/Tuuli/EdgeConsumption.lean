import Tuuli.JoinRequest
import Tuuli.RegionSemantics
import Tuuli.RegionTree

/-!
Edge consumption of accepted join trees. A cut applies at least one edge, an
edge is applied at no more than one cut, and a node set splits one node of the
original tree less than it has members; together each cut applies exactly one
edge and the tree applies exactly the edges eligible within its nodes.
-/
namespace JoinRegion
open TreeSplits

variable {V : Type} {spec : CJoinRegionSpec V} {left right : CBitSet} {request : SJoinRequest V}
  {edgeId : ℕ} {swapped : Bool} {edge : CEdge V} (mixed : spec.pureInner = false)

include mixed

theorem edgeId_applicableEdges (left right : CBitSet) :
    (applicableEdges spec left right).map SApplicableEdge.edgeId
      = (List.range spec.edgeCount).filter
          (fun edgeId => (fPairApplicable spec left right edgeId).isSome) := by
  simp only [applicableEdges, mixed, Bool.false_eq_true, if_false, List.map_filterMap]
  induction List.range spec.edgeCount with
  | nil => rfl
  | cons edgeId rest ih =>
    cases found : fPairApplicable spec left right edgeId <;>
      simp only [List.filterMap_cons, List.filter_cons, found, Option.map_none, Option.map_some,
        Option.isSome_none, Option.isSome_some, Bool.false_eq_true, if_false, if_true, ih]

omit mixed in
theorem foldl_requestStep_edgeIds (spec : CJoinRegionSpec V) (applicable : List SApplicableEdge)
    (state : SJoinRequest V × ℕ × Bool) :
    (applicable.foldl (requestStep spec) state).1.edgeIds
      = state.1.edgeIds ++ applicable.map SApplicableEdge.edgeId := by
  induction applicable generalizing state with
  | nil => simp
  | cons candidate rest ih =>
    have step : (requestStep spec state candidate).1.edgeIds
        = state.1.edgeIds ++ [candidate.edgeId] := by
      obtain ⟨request, nonInner, swapped⟩ := state
      simp only [requestStep]
      split
      · rfl
      · split <;> rfl
    rw [List.foldl_cons, ih, step, List.map_cons, List.append_assoc, List.singleton_append]

theorem fBuildJoinRequest_edgeIds (accepted : fBuildJoinRequest spec left right = some request) :
    request.edgeIds = (applicableEdges spec left right).map SApplicableEdge.edgeId ∧
      applicableEdges spec left right ≠ [] := by
  simp only [fBuildJoinRequest, mixed, Bool.false_eq_true, if_false] at accepted
  split at accepted
  · simp at accepted
  · rename_i dependencySwapped directional _
    split at accepted
    · simp at accepted
    · rename_i nonempty
      have edges := foldl_requestStep_edgeIds spec (applicableEdges spec left right)
        (⟨.innerJoin, dependencySwapped, directional, none, []⟩, 0, false)
      rw [List.nil_append] at edges
      refine ⟨?_, nonempty⟩
      rw [← edges]
      generalize (applicableEdges spec left right).foldl (requestStep spec) _ = state at accepted ⊢
      split at accepted
      · simp at accepted
      · split at accepted
        · split at accepted
          · simp at accepted
          · split at accepted <;> (rw [Option.some.injEq] at accepted; rw [← accepted])
        · rw [Option.some.injEq] at accepted
          rw [← accepted]

theorem fBuildJoinRequest_single (accepted : fBuildJoinRequest spec left right = some request)
    (single : applicableEdges spec left right = [⟨edgeId, swapped⟩])
    (found : spec.edges[edgeId]? = some edge) :
    request.edgeIds = [edgeId] ∧ request.joinType = edge.joinType ∧
      (edge.joinType ≠ .innerJoin → edge.joinType ≠ .fullOuterJoin →
        request.swapped = swapped) := by
  simp only [fBuildJoinRequest, mixed, Bool.false_eq_true, if_false, single] at accepted
  split at accepted
  · simp at accepted
  · by_cases inner : edge.joinType = .innerJoin
    · simp [requestStep, found, inner] at accepted
      rw [← accepted]
      exact ⟨rfl, inner.symm, fun nonInner => absurd inner nonInner⟩
    · simp only [reduceCtorEq, if_false, List.foldl_cons, List.foldl_nil, requestStep, found, inner,
        List.nil_append, Nat.zero_add, ne_eq, one_ne_zero, not_false_eq_true, List.length_singleton,
        and_self, not_true_eq_false, and_false, if_true] at accepted
      split at accepted
      · simp at accepted
      · split at accepted
        · rw [Option.some.injEq] at accepted
          rw [← accepted]
          exact ⟨rfl, rfl, fun _ _ => rfl⟩
        · rename_i commutative
          rw [Option.some.injEq] at accepted
          rw [← accepted]
          refine ⟨rfl, rfl, fun _ notFull => absurd (.inr (by simpa using notFull)) commutative⟩

theorem applied_of_fPairApplicable
    (applicable : fPairApplicable spec left right edgeId = some swapped) :
    ∃ edge, spec.edges[edgeId]? = some edge ∧ edge.orientation left right = some swapped := by
  simp only [fPairApplicable, mixed, Bool.false_eq_true, if_false] at applicable
  split at applicable
  · simp at applicable
  · exact Option.bind_eq_some_iff.mp applicable

omit mixed

theorem CEdge.orientation_spec (oriented : edge.orientation left right = some swapped) :
    (swapped = false ∧ edge.fApplicable left right = true) ∨
      (swapped = true ∧ edge.fApplicable right left = true) := by
  simp only [orientation] at oriented
  split at oriented
  · rename_i forward
    exact .inl ⟨(Option.some.inj oriented).symm, forward⟩
  · split at oriented
    · rename_i backward
      exact .inr ⟨(Option.some.inj oriented).symm, backward⟩
    · simp at oriented

theorem CEdge.orientation_joins (oriented : edge.orientation left right = some swapped) :
    edge.tes ⊆ left ∪ right ∧ ¬ Disjoint edge.tes left ∧ ¬ Disjoint edge.tes right := by
  rcases edge.orientation_spec oriented with ⟨-, forward⟩ | ⟨-, backward⟩
  · obtain ⟨-, covered, meetsLeft, meetsRight, -⟩ := fApplicable_spec forward
    exact ⟨covered, meetsLeft, meetsRight⟩
  · obtain ⟨-, covered, meetsRight, meetsLeft, -⟩ := fApplicable_spec backward
    exact ⟨Finset.union_comm right left ▸ covered, meetsLeft, meetsRight⟩

/-- The edges whose total eligibility set is contained in `T`. -/
def eligibleEdges (spec : CJoinRegionSpec V) (T : CBitSet) : List ℕ :=
  (List.range spec.edgeCount).filter (fun edgeId =>
    match spec.edges[edgeId]? with
    | some edge => edge.tes ⊆ T
    | none => false)

theorem mem_eligibleEdges {T : CBitSet} :
    edgeId ∈ eligibleEdges spec T ↔
      ∃ edge, spec.edges[edgeId]? = some edge ∧ edge.tes ⊆ T := by
  simp only [eligibleEdges, List.mem_filter, List.mem_range, CJoinRegionSpec.edgeCount]
  constructor
  · rintro ⟨bound, inside⟩
    rw [List.getElem?_eq_getElem bound] at inside ⊢
    exact ⟨_, rfl, by simpa using inside⟩
  · rintro ⟨edge, found, inside⟩
    refine ⟨(List.getElem?_eq_some_iff.mp found).1, ?_⟩
    rw [found]
    simpa using inside

theorem length_flatMap_ge {A B : Type} {f : A → List B} {l : List A}
    (each : ∀ a ∈ l, 1 ≤ (f a).length) : l.length ≤ (l.flatMap f).length := by
  induction l with
  | nil => exact Nat.le_refl 0
  | cons a l ih =>
    have head := each a List.mem_cons_self
    have tail := ih (fun b member => each b (List.mem_cons_of_mem _ member))
    simp only [List.flatMap_cons, List.length_append, List.length_cons]
    omega

theorem length_flatMap_eq {A B : Type} {f : A → List B} {l : List A}
    (each : ∀ a ∈ l, 1 ≤ (f a).length) (total : (l.flatMap f).length ≤ l.length) :
    ∀ a ∈ l, (f a).length = 1 := by
  induction l with
  | nil => simp
  | cons a l ih =>
    have head := each a List.mem_cons_self
    have rest : ∀ b ∈ l, 1 ≤ (f b).length := fun b member => each b (List.mem_cons_of_mem _ member)
    have tail := length_flatMap_ge rest
    simp only [List.flatMap_cons, List.length_append, List.length_cons] at total
    intro b member
    rcases List.mem_cons.mp member with rfl | later
    · omega
    · exact ih rest (by omega) b later

namespace JoinTree

variable {spec : CJoinRegionSpec V} {tree : JoinTree} {region : MixedRegion V}

theorem nodes_nonempty (tree : JoinTree) : tree.nodes.Nonempty := by
  induction tree with
  | leaf node => exact ⟨node, Finset.mem_singleton_self node⟩
  | join l r ihl ihr => exact ihl.mono Finset.subset_union_left

theorem Accepted.nodes_subset (accepted : tree.Accepted spec) :
    tree.nodes ⊆ Finset.range spec.nodeCount := by
  induction tree with
  | leaf node => exact Finset.singleton_subset_iff.mpr (Finset.mem_range.mpr accepted)
  | join l r ihl ihr => exact Finset.union_subset (ihl accepted.1) (ihr accepted.2.1)

theorem Accepted.cuts_length (accepted : tree.Accepted spec) :
    tree.cuts.length + 1 = tree.nodes.card := by
  induction tree with
  | leaf node => rfl
  | join l r ihl ihr =>
    have left := ihl accepted.1
    have right := ihr accepted.2.1
    simp only [cuts, nodes, List.length_append, List.length_singleton,
      Finset.card_union_of_disjoint accepted.2.2.1]
    omega

/-- The edges of a cut: in the specification, eligible across the cut, without repetition. -/
theorem edgesOf_spec (mixed : spec.pureInner = false) {left right : CBitSet}
    (accepted : (fBuildJoinRequest spec left right).isSome = true) :
    1 ≤ (edgesOf spec (left, right)).length ∧ (edgesOf spec (left, right)).Nodup ∧
      ∀ edgeId ∈ edgesOf spec (left, right), ∃ edge swapped,
        spec.edges[edgeId]? = some edge ∧ edge.orientation left right = some swapped := by
  obtain ⟨request, found⟩ := Option.isSome_iff_exists.mp accepted
  obtain ⟨ids, nonempty⟩ := fBuildJoinRequest_edgeIds mixed found
  have edges : edgesOf spec (left, right)
      = (applicableEdges spec left right).map SApplicableEdge.edgeId := by
    simp only [edgesOf, found, ids]
  rw [edges]
  refine ⟨?_, ?_, ?_⟩
  · rw [List.length_map]
    exact List.length_pos_iff.mpr nonempty
  · rw [edgeId_applicableEdges mixed]
    exact List.nodup_range.filter _
  · intro edgeId member
    rw [edgeId_applicableEdges mixed, List.mem_filter] at member
    obtain ⟨swapped, applicable⟩ := Option.isSome_iff_exists.mp member.2
    obtain ⟨edge, inSpec, oriented⟩ := applied_of_fPairApplicable mixed applicable
    exact ⟨edge, swapped, inSpec, oriented⟩

theorem usedEdges_join (spec : CJoinRegionSpec V) (l r : JoinTree) :
    (join l r).usedEdges spec
      = l.usedEdges spec ++ r.usedEdges spec ++ edgesOf spec (l.nodes, r.nodes) := by
  simp only [usedEdges, cuts, List.flatMap_append, List.flatMap_cons, List.flatMap_nil,
    List.append_nil]

theorem Accepted.tes_subset (mixed : spec.pureInner = false) (accepted : tree.Accepted spec)
    {edgeId : ℕ} (used : edgeId ∈ tree.usedEdges spec) :
    ∃ edge, spec.edges[edgeId]? = some edge ∧ edge.tes ⊆ tree.nodes := by
  induction tree with
  | leaf node => simp [usedEdges, cuts] at used
  | join l r ihl ihr =>
    rw [usedEdges_join, List.mem_append, List.mem_append] at used
    rcases used with (left | right) | cut
    · obtain ⟨edge, found, inside⟩ := ihl accepted.1 left
      exact ⟨edge, found, inside.trans Finset.subset_union_left⟩
    · obtain ⟨edge, found, inside⟩ := ihr accepted.2.1 right
      exact ⟨edge, found, inside.trans Finset.subset_union_right⟩
    · obtain ⟨edge, swapped, found, oriented⟩ :=
        (edgesOf_spec mixed accepted.2.2.2).2.2 edgeId cut
      exact ⟨edge, found, (edge.orientation_joins oriented).1⟩

variable (accepted : tree.Accepted region.spec)

include accepted

theorem Accepted.usedEdges_nodup : (tree.usedEdges region.spec).Nodup := by
  induction tree with
  | leaf node => simp [usedEdges, cuts]
  | join l r ihl ihr =>
    obtain ⟨acceptedL, acceptedR, disjoint, cut⟩ := accepted
    obtain ⟨-, cutNodup, cutEdges⟩ := edgesOf_spec region.mixed cut
    rw [usedEdges_join]
    refine List.Nodup.append (List.Nodup.append (ihl acceptedL) (ihr acceptedR) ?_) cutNodup ?_
    · intro edgeId left right
      obtain ⟨edge, found, insideL⟩ := acceptedL.tes_subset region.mixed left
      obtain ⟨edge', found', insideR⟩ := acceptedR.tes_subset region.mixed right
      obtain rfl : edge = edge' := Option.some.inj (found.symm.trans found')
      obtain ⟨_, _, -, facts⟩ := region.node_of_edge found
      have empty : edge.tes = ∅ :=
        Finset.subset_empty.mp (Finset.disjoint_iff_inter_eq_empty.mp disjoint ▸
          Finset.subset_inter insideL insideR)
      exact facts.meetsLeft (empty ▸ Finset.disjoint_empty_left _)
    · intro edgeId below member
      obtain ⟨edge, swapped, found, oriented⟩ := cutEdges edgeId member
      obtain ⟨-, meetsL, meetsR⟩ := edge.orientation_joins oriented
      rcases List.mem_append.mp below with left | right
      · obtain ⟨edge', found', inside⟩ := acceptedL.tes_subset region.mixed left
        obtain rfl : edge = edge' := Option.some.inj (found.symm.trans found')
        exact meetsR (disjoint.mono_left inside)
      · obtain ⟨edge', found', inside⟩ := acceptedR.tes_subset region.mixed right
        obtain rfl : edge = edge' := Option.some.inj (found.symm.trans found')
        exact meetsL (disjoint.symm.mono_left inside)

omit accepted in
theorem Accepted.cuts_nonempty (mixed : spec.pureInner = false) (accepted : tree.Accepted spec) :
    ∀ cut ∈ tree.cuts, 1 ≤ (edgesOf spec cut).length := by
  induction tree with
  | leaf node => simp [cuts]
  | join l r ihl ihr =>
    intro cut member
    simp only [cuts, List.mem_append, List.mem_singleton] at member
    rcases member with (left | right) | rfl
    · exact ihl accepted.1 cut left
    · exact ihr accepted.2.1 cut right
    · exact (edgesOf_spec mixed accepted.2.2.2).1

omit accepted in
theorem splitKeys_card (region : MixedRegion V) {T : CBitSet} (nonempty : T.Nonempty)
    (inside : T ⊆ Finset.range region.spec.nodeCount) :
    (region.tree.splitKeys T).length + 1 = T.card := by
  rw [← region.nodeCount_eq] at inside
  have meets : ¬ Disjoint T region.tree.leaves := by
    obtain ⟨node, member⟩ := nonempty
    exact Finset.not_disjoint_iff.mpr ⟨node, member, inside member⟩
  rw [SplitTree.splitKeys_length region.tree_distinct meets, Finset.inter_eq_left.mpr inside]

theorem Accepted.usedEdges_perm :
    (tree.usedEdges region.spec).Perm (region.tree.splitKeys tree.nodes) := by
  have contained : tree.usedEdges region.spec ⊆ region.tree.splitKeys tree.nodes := by
    intro edgeId used
    obtain ⟨edge, found, inside⟩ := accepted.tes_subset region.mixed used
    exact region.splits_of_tes_subset found inside
  have subperm := accepted.usedEdges_nodup.subperm contained
  refine subperm.perm_of_length_le ?_
  have keys := splitKeys_card region tree.nodes_nonempty accepted.nodes_subset
  have cuts := accepted.cuts_length
  have used := length_flatMap_ge (accepted.cuts_nonempty region.mixed)
  rw [usedEdges]
  omega

theorem Accepted.eligible_perm :
    (tree.usedEdges region.spec).Perm (eligibleEdges region.spec tree.nodes) := by
  have eligibleNodup : (eligibleEdges region.spec tree.nodes).Nodup :=
    List.nodup_range.filter _
  refine (List.perm_ext_iff_of_nodup accepted.usedEdges_nodup eligibleNodup).mpr
    (fun edgeId => ⟨fun used => ?_, fun eligible => ?_⟩)
  · exact mem_eligibleEdges.mpr (accepted.tes_subset region.mixed used)
  · obtain ⟨edge, found, inside⟩ := mem_eligibleEdges.mp eligible
    exact accepted.usedEdges_perm.mem_iff.mpr (region.splits_of_tes_subset found inside)

theorem Accepted.cut_single : ∀ cut ∈ tree.cuts, (edgesOf region.spec cut).length = 1 := by
  refine length_flatMap_eq (accepted.cuts_nonempty region.mixed) ?_
  have keys := splitKeys_card region tree.nodes_nonempty accepted.nodes_subset
  have cuts := accepted.cuts_length
  have used := accepted.usedEdges_perm.length_eq
  rw [usedEdges] at used
  omega

omit accepted

/-- An accepted tree over `T` applies each edge eligible within `T` once and no other, one
edge at each of its `|T| - 1` cuts, so accepted trees over `T` agree on the edges applied. -/
theorem accepted_consumes_eligible_once (region : MixedRegion V) (tree : JoinTree)
    (accepted : tree.Accepted region.spec) :
    (tree.usedEdges region.spec).Perm (eligibleEdges region.spec tree.nodes) ∧
      (eligibleEdges region.spec tree.nodes).length = tree.nodes.card - 1 ∧
      (∀ cut ∈ tree.cuts, (edgesOf region.spec cut).length = 1) ∧
      ∀ other : JoinTree, other.Accepted region.spec → other.nodes = tree.nodes →
        (other.usedEdges region.spec).Perm (tree.usedEdges region.spec) := by
  have keys := splitKeys_card region tree.nodes_nonempty accepted.nodes_subset
  have used := accepted.usedEdges_perm.length_eq
  have eligible := accepted.eligible_perm.length_eq
  refine ⟨accepted.eligible_perm, by omega, accepted.cut_single, ?_⟩
  intro other otherAccepted same
  have otherPerm := otherAccepted.usedEdges_perm
  rw [same] at otherPerm
  exact otherPerm.trans accepted.usedEdges_perm.symm

instance decidableAccepted (spec : CJoinRegionSpec V) :
    (tree : JoinTree) → Decidable (tree.Accepted spec)
  | leaf node => inferInstanceAs (Decidable (node < spec.nodeCount))
  | join l r =>
    have := decidableAccepted spec l
    have := decidableAccepted spec r
    inferInstanceAs (Decidable (l.Accepted spec ∧ r.Accepted spec ∧ Disjoint l.nodes r.nodes ∧
      (fBuildJoinRequest spec l.nodes r.nodes).isSome = true))

end JoinTree

/-- `(A left outer join B on 0 = 1) inner join C on 0 = 2`. -/
def outerThenInner : CExpression Unit :=
  .join .innerJoin
    (.join .leftOuterJoin (.atom ⟨{0}, ∅⟩) (.atom ⟨{1}, ∅⟩) ⟨[equality 0 1]⟩ none)
    (.atom ⟨{2}, ∅⟩) ⟨[equality 0 2]⟩ none

def outerThenInnerRegion : MixedRegion Unit where
  nullRejecting := decideNullRejecting
  root := outerThenInner
  spec := (build decideNullRejecting outerThenInner).get (by decide)
  built := by simp
  mixed := by decide
  supported := by decide

theorem accepted_consumes_eligible_once_inner_first :
    (JoinTree.join (.join (.leaf 0) (.leaf 2)) (.leaf 1)).usedEdges outerThenInnerRegion.spec
      |>.Perm [0, 1] :=
  (JoinTree.accepted_consumes_eligible_once outerThenInnerRegion
    (.join (.join (.leaf 0) (.leaf 2)) (.leaf 1)) (by decide)).1.trans (by decide)

end JoinRegion
