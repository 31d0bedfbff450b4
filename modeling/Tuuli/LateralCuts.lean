import Mathlib.Algebra.Order.BigOperators.Group.List
import Mathlib.Algebra.Order.Group.Nat
import Tuuli.DependencyOrder
import Tuuli.HyperPlan
import Tuuli.JoinRequest
import Tuuli.RegionTree

/-!
Lateral dependencies of a region and the cuts that respect them. A set that a plan forms of two
or more inputs has the providers of its members, and no inputs that need each other in a circle.
In a region of inner joins every such set can be formed, input by input.
-/
namespace JoinRegion
open DPHyper hiding CBitSet
open DependencyOrder

variable {V : Type}

def CJoinRegionSpec.providers (spec : CJoinRegionSpec V) (node : ℕ) : CBitSet :=
  spec.dependencies.getD node ∅

def Separates (left right : CBitSet) (provider node : ℕ) : Prop :=
  (provider ∈ left ∧ node ∈ right) ∨ (provider ∈ right ∧ node ∈ left)

section Cuts
variable {spec : CJoinRegionSpec V} {left right : CBitSet} {provider node : ℕ} {state : Bool × Bool}

theorem candidateSwapped_of_separates (disjoint : Disjoint left right)
    (depends : provider ∈ spec.providers node) (separated : Separates left right provider node) :
    candidateSwapped left right (spec.providers node) node = some (decide (provider ∈ right)) := by
  unfold candidateSwapped
  rcases separated with ⟨inLeft, inRight⟩ | ⟨inRight, inLeft⟩
  · have outside : provider ∉ right := Finset.disjoint_left.mp disjoint inLeft
    rw [if_neg (fun both => Finset.disjoint_left.mp disjoint both.1 inRight),
      if_pos ⟨inRight, Finset.not_disjoint_iff.mpr ⟨provider, inLeft, depends⟩⟩]
    simp [outside]
  · rw [if_pos ⟨inLeft, Finset.not_disjoint_iff.mpr ⟨provider, inRight, depends⟩⟩]
    simp [inRight]

theorem dependencyStep_spec {next : Bool × Bool}
    (step : dependencyStep spec left right state node = some next) :
    (state.2 = true → next = state) ∧ (node ∈ left ∪ right → spec.providers node ⊆ left ∪ right) ∧
      ∀ candidate, node ∈ left ∪ right →
        candidateSwapped left right (spec.providers node) node = some candidate →
        next = (candidate, true) := by
  unfold CJoinRegionSpec.providers
  unfold dependencyStep at step
  split at step
  · rename_i outside
    obtain rfl := Option.some.inj step
    exact ⟨fun _ => rfl, fun inside => absurd inside outside, fun _ inside => absurd inside outside⟩
  · dsimp only at step
    split at step
    · simp at step
    · rename_i closed
      rw [not_not] at closed
      cases asks : candidateSwapped left right (spec.dependencies.getD node ∅) node with
      | none =>
        rw [asks] at step
        obtain rfl := Option.some.inj step
        exact ⟨fun _ => rfl, fun _ => closed, fun _ _ impossible => absurd impossible (by simp)⟩
      | some candidate =>
        rw [asks] at step
        simp only at step
        split at step
        · simp at step
        · rename_i agrees
          obtain rfl := Option.some.inj step
          refine ⟨fun directional => ?_, fun _ => closed, fun other _ same => ?_⟩
          · have same : state.1 = candidate := by
              by_contra differ
              exact agrees ⟨directional, differ⟩
            exact Prod.ext same.symm directional.symm
          · rw [Option.some.inj same]

theorem dependencyLoop_spec (nodes : List ℕ) {last : Bool × Bool}
    (run : nodes.foldlM (dependencyStep spec left right) state = some last) :
    (state.2 = true → last = state) ∧
      (∀ node ∈ nodes, node ∈ left ∪ right → spec.providers node ⊆ left ∪ right) ∧
      ∀ node ∈ nodes, ∀ candidate, node ∈ left ∪ right →
        candidateSwapped left right (spec.providers node) node = some candidate →
        last = (candidate, true) := by
  induction nodes generalizing state with
  | nil =>
    obtain rfl := Option.some.inj run
    exact ⟨fun _ => rfl, by simp, by simp⟩
  | cons node rest ih =>
    rw [List.foldlM_cons] at run
    obtain ⟨next, step, run⟩ := Option.bind_eq_some_iff.mp run
    obtain ⟨stays, closed, takes⟩ := dependencyStep_spec step
    obtain ⟨staysLater, closedLater, takesLater⟩ := ih run
    refine ⟨fun directional => ?_, fun other member => ?_, fun other member candidate inside asks => ?_⟩
    · have same := stays directional
      rw [← same]
      exact staysLater (same ▸ directional)
    · rcases List.mem_cons.mp member with rfl | inRest
      · exact closed
      · exact closedLater other inRest
    · rcases List.mem_cons.mp member with rfl | inRest
      · have taken := takes candidate inside asks
        rw [← taken]
        exact staysLater (by rw [taken])
      · exact takesLater other inRest candidate inside asks

/-- A specification whose dependency count and dependencies agree, as `Build` leaves them. -/
structure Consistent (spec : CJoinRegionSpec V) : Prop where
  known : ∀ {node}, (spec.providers node).Nonempty → node < spec.nodeCount
  counted : ∀ {node}, (spec.providers node).Nonempty → spec.hasDependencies = true
  others : ∀ {node provider}, provider ∈ spec.providers node →
    provider ≠ node ∧ provider < spec.nodeCount

theorem fDependencyApplicable_spec (consistent : Consistent spec) (disjoint : Disjoint left right)
    {swapped directional : Bool}
    (applicable : fDependencyApplicable spec left right = some (swapped, directional)) :
    (∀ node ∈ left ∪ right, spec.providers node ⊆ left ∪ right) ∧
      ∀ {provider node}, provider ∈ spec.providers node → Separates left right provider node →
        directional = true ∧ swapped = decide (provider ∈ right) := by
  unfold fDependencyApplicable at applicable
  by_cases depends : spec.hasDependencies = true
  · rw [if_pos depends] at applicable
    obtain ⟨-, closed, takes⟩ := dependencyLoop_spec _ applicable
    constructor
    · intro node member provider needs
      exact closed node (List.mem_range.mpr (consistent.known ⟨provider, needs⟩)) member needs
    · intro provider node needs separated
      have inside : node ∈ left ∪ right := by
        rcases separated with ⟨-, inRight⟩ | ⟨-, inLeft⟩
        · exact Finset.mem_union_right _ inRight
        · exact Finset.mem_union_left _ inLeft
      have result := takes node (List.mem_range.mpr (consistent.known ⟨provider, needs⟩)) _ inside
        (candidateSwapped_of_separates disjoint needs separated)
      obtain ⟨orientation, isDirectional⟩ := Prod.mk.inj result
      exact ⟨isDirectional, orientation⟩
  · constructor
    · intro node _ provider needs
      exact absurd (consistent.counted ⟨provider, needs⟩) depends
    · intro provider node needs
      exact absurd (consistent.counted ⟨provider, needs⟩) depends

theorem foldl_requestStep_orientation (candidates : List SApplicableEdge)
    (state : SJoinRequest V × ℕ × Bool) :
    (candidates.foldl (requestStep spec) state).1.swapped = state.1.swapped ∧
      (candidates.foldl (requestStep spec) state).1.dependencyDirectional
        = state.1.dependencyDirectional := by
  induction candidates generalizing state with
  | nil => exact ⟨rfl, rfl⟩
  | cons candidate rest ih =>
    have step : (requestStep spec state candidate).1.swapped = state.1.swapped ∧
        (requestStep spec state candidate).1.dependencyDirectional
          = state.1.dependencyDirectional := by
      unfold requestStep
      simp only
      split
      · exact ⟨rfl, rfl⟩
      · split <;> exact ⟨rfl, rfl⟩
    rw [List.foldl_cons]
    exact ⟨(ih _).1.trans step.1, (ih _).2.trans step.2⟩

theorem fBuildJoinRequest_oriented {request : SJoinRequest V}
    (accepted : fBuildJoinRequest spec left right = some request) :
    ∃ swapped, fDependencyApplicable spec left right
        = some (swapped, request.dependencyDirectional) ∧
      (request.dependencyDirectional = true → request.swapped = swapped) := by
  unfold fBuildJoinRequest at accepted
  split at accepted
  · simp at accepted
  rename_i swapped directional applicable
  refine ⟨swapped, ?_⟩
  split at accepted
  · obtain rfl := Option.some.inj accepted
    exact ⟨applicable, fun _ => rfl⟩
  simp only at accepted
  split at accepted
  · simp at accepted
  have fields := @foldl_requestStep_orientation V spec (applicableEdges spec left right)
    (⟨.innerJoin, swapped, directional, none, []⟩, 0, false)
  generalize (applicableEdges spec left right).foldl (requestStep spec) _ = state at accepted fields
  obtain ⟨sameSwapped, sameDirectional⟩ := fields
  dsimp only at sameSwapped sameDirectional
  split at accepted
  · simp at accepted
  split at accepted
  · split at accepted
    · simp at accepted
    rename_i agrees
    split at accepted
    · rename_i nonCommutative
      obtain rfl := Option.some.inj accepted
      refine ⟨by rw [applicable, sameDirectional], fun isDirectional => ?_⟩
      dsimp only at isDirectional ⊢
      rw [sameDirectional] at isDirectional
      rw [← sameSwapped]
      by_contra differ
      exact agrees ⟨isDirectional, nonCommutative.resolve_left (not_not.mpr isDirectional),
        Ne.symm differ⟩
    · obtain rfl := Option.some.inj accepted
      exact ⟨by rw [applicable, sameDirectional], fun _ => sameSwapped⟩
  · obtain rfl := Option.some.inj accepted
    exact ⟨by rw [applicable, sameDirectional], fun _ => sameSwapped⟩

theorem fBuildJoinRequest_mutual (consistent : Consistent spec) (disjoint : Disjoint left right)
    {provider' node' : ℕ} (depends : provider ∈ spec.providers node)
    (depends' : provider' ∈ spec.providers node') (rightward : provider ∈ left ∧ node ∈ right)
    (leftward : provider' ∈ right ∧ node' ∈ left) : fBuildJoinRequest spec left right = none := by
  rw [Option.eq_none_iff_forall_ne_some]
  intro request accepted
  obtain ⟨swapped, applicable, -⟩ := fBuildJoinRequest_oriented accepted
  obtain ⟨-, oriented⟩ := fDependencyApplicable_spec consistent disjoint applicable
  obtain ⟨-, first⟩ := oriented depends (.inl rightward)
  obtain ⟨-, second⟩ := oriented depends' (.inr leftward)
  have outside : provider ∉ right := Finset.disjoint_left.mp disjoint rightward.1
  rw [first, decide_eq_decide] at second
  exact outside (second.mpr leftward.1)

end Cuts

section Build
variable {spec : CJoinRegionSpec V}

theorem Consistent.withEdges (consistent : Consistent spec) (edges : List (CEdge V)) :
    Consistent { spec with edges := edges } :=
  ⟨consistent.known, consistent.counted, consistent.others⟩

theorem mem_resolveProviders {atoms : List CAtom} {node provider : ℕ} {listed : List ℕ}
    {unresolved : CColRefSet} (member : provider ∈ (resolveProviders atoms node listed unresolved).1) :
    provider ∈ listed ∧ provider ≠ node := by
  induction listed generalizing unresolved with
  | nil => simp [resolveProviders] at member
  | cons first rest ih =>
    unfold resolveProviders at member
    split at member
    · simp at member
    split at member
    · exact ⟨List.mem_cons_of_mem _ (ih member).1, (ih member).2⟩
    · rename_i provides
      rcases Finset.mem_insert.mp member with rfl | later
      · exact ⟨List.mem_cons_self, fun same => provides (.inl same)⟩
      · exact ⟨List.mem_cons_of_mem _ (ih later).1, (ih later).2⟩

theorem mem_atomProviders {atoms : List CAtom} {node provider : ℕ}
    (member : provider ∈ (atomProviders atoms node).1) :
    provider ≠ node ∧ provider < atoms.length := by
  unfold atomProviders at member
  split at member
  · obtain ⟨listed, other⟩ := mem_resolveProviders member
    exact ⟨other, List.mem_range.mp listed⟩
  · simp at member

theorem mem_providers_buildDependencies {node provider : ℕ}
    (member : provider ∈ spec.buildDependencies.providers node) :
    node < spec.atoms.length ∧ provider ∈ (atomProviders spec.atoms node).1 := by
  unfold CJoinRegionSpec.providers CJoinRegionSpec.buildDependencies at member
  rw [List.getD_eq_getElem?_getD] at member
  by_cases inside : node < spec.atoms.length
  · simp only [List.map_map, List.getElem?_map, List.getElem?_range inside, Option.map_some,
      Option.getD_some] at member
    exact ⟨inside, member⟩
  · simp [List.getElem?_eq_none_iff.mpr (show (List.range spec.atoms.length).length ≤ node by
      simpa using inside)] at member

theorem buildDependencies_consistent (spec : CJoinRegionSpec V) :
    Consistent spec.buildDependencies where
  known := fun ⟨_, member⟩ => (mem_providers_buildDependencies member).1
  counted := by
    rintro node ⟨provider, member⟩
    obtain ⟨bound, provided⟩ := mem_providers_buildDependencies member
    unfold CJoinRegionSpec.hasDependencies
    rw [decide_eq_true_eq]
    have counted : (atomProviders spec.atoms node).1.card ∈
        ((List.range spec.atoms.length).map (atomProviders spec.atoms)).map
          (fun entry => entry.1.card) :=
      List.mem_map.mpr ⟨_, List.mem_map.mpr ⟨node, List.mem_range.mpr bound, rfl⟩, rfl⟩
    exact lt_of_lt_of_le (Finset.card_pos.mpr ⟨provider, provided⟩) (List.le_sum_of_mem counted)
  others := fun member => mem_atomProviders (mem_providers_buildDependencies member).2

theorem build_consistent {nullRejecting : CPredicate V → CColRefSet → Bool} {root : CExpression V}
    (built : build nullRejecting root = some spec) : Consistent spec := by
  cases root with
  | atom a => simp [build] at built
  | join op l r predicate notinComparison =>
    simp only [build] at built
    split at built
    · obtain rfl := Option.some.inj built
      split
      · exact (buildDependencies_consistent _).withEdges _
      · exact buildDependencies_consistent _
    · simp at built

end Build

namespace EnumeratedRegion

variable (region : EnumeratedRegion V) {left right nodes : CBitSet} {all : List Cut}

def Accepts (left right : CBitSet) : Prop :=
  (fBuildJoinRequest region.spec left right).isSome

instance (left right : CBitSet) : Decidable (region.Accepts left right) :=
  inferInstanceAs (Decidable (_ = true))

theorem consistent : Consistent region.spec :=
  build_consistent region.built

theorem closed_of_accepted (disjoint : Disjoint left right)
    (accepted : (fBuildJoinRequest region.spec left right).isSome) :
    Closed region.spec.providers (left ∪ right) := by
  obtain ⟨request, built⟩ := Option.isSome_iff_exists.mp accepted
  obtain ⟨swapped, applicable, -⟩ := fBuildJoinRequest_oriented built
  exact (fDependencyApplicable_spec region.consistent disjoint applicable).1

theorem oneWay_of_accepted (disjoint : Disjoint left right) (accepted : region.Accepts left right) :
    (∀ node ∈ left, Disjoint (region.spec.providers node) right) ∨
      ∀ node ∈ right, Disjoint (region.spec.providers node) left := by
  by_contra both
  push Not at both
  obtain ⟨⟨node, inLeft, meets⟩, node', inRight, meets'⟩ := both
  obtain ⟨provider, needed, onRight⟩ := Finset.not_disjoint_iff.mp meets
  obtain ⟨provider', needed', onLeft⟩ := Finset.not_disjoint_iff.mp meets'
  have rejected := fBuildJoinRequest_mutual region.consistent disjoint needed' needed
    ⟨onLeft, inRight⟩ ⟨onRight, inLeft⟩
  unfold Accepts at accepted
  rw [rejected] at accepted
  cases accepted

theorem closed_of_formed (topological : Topological region.spec.nodeCount region.Accepts all)
    (formed : Formed region.spec.nodeCount all nodes) :
    nodes.card = 1 ∨ Closed region.spec.providers nodes := by
  rcases formed with ⟨node, -, rfl⟩ | ⟨cut, member, rfl⟩
  · exact .inl (Finset.card_singleton node)
  · obtain ⟨disjoint, accepted⟩ := topological.disjoint_accepts member
    exact .inr (region.closed_of_accepted disjoint accepted)

theorem straight_of_formed (topological : Topological region.spec.nodeCount region.Accepts all)
    (formed : Formed region.spec.nodeCount all nodes) : ¬ Circular region.spec.providers nodes := by
  have single : ∀ node, ¬ Circular region.spec.providers {node} := by
    rintro node ⟨t, inside, ⟨a, member⟩, circle⟩
    obtain ⟨b, memberB, needed⟩ := circle a member
    have same := Finset.mem_singleton.mp (inside member)
    have sameB := Finset.mem_singleton.mp (inside memberB)
    exact (region.consistent.others needed).1 (sameB.trans same.symm)
  induction topological generalizing nodes with
  | nil =>
    rcases formed with ⟨node, -, rfl⟩ | ⟨cut, member, -⟩
    · exact single node
    · cases member
  | @snoc all left right _ disjoint formedLeft formedRight accepted ih =>
    rcases formed with ⟨node, -, rfl⟩ | ⟨cut, member, rfl⟩
    · exact single node
    rcases List.mem_append.mp member with old | new
    · exact ih (.inr ⟨cut, old, rfl⟩)
    · rw [List.mem_singleton.mp new]
      rcases region.oneWay_of_accepted disjoint accepted with rightward | leftward
      · exact not_circular_union (ih formedLeft) (ih formedRight) rightward
      · rw [Finset.union_comm]
        exact not_circular_union (ih formedRight) (ih formedLeft) leftward

theorem closed_range : Closed region.spec.providers (Finset.range region.spec.nodeCount) :=
  fun _ _ _ needed => Finset.mem_range.mpr (region.consistent.others needed).2

end EnumeratedRegion

section Growing
variable {spec : CJoinRegionSpec V} {nodes : CBitSet} {next : ℕ}

theorem dependencyLoop_next (closed : Closed spec.providers nodes) (fresh : next ∉ nodes)
    (needs : spec.providers next ⊆ nodes) (listed : List ℕ) (directional : Bool) :
    (listed.foldlM (dependencyStep spec nodes {next}) (false, directional)).isSome := by
  induction listed generalizing directional with
  | nil => rfl
  | cons node rest ih =>
    rw [List.foldlM_cons]
    have step : ∃ after, dependencyStep spec nodes {next} (false, directional) node =
        some (false, after) := by
      unfold dependencyStep
      split
      · exact ⟨directional, rfl⟩
      rename_i inside
      have closedHere : spec.dependencies.getD node ∅ ⊆ nodes := by
        rcases Finset.mem_union.mp (not_not.mp inside) with old | new
        · exact closed node old
        · rw [Finset.mem_singleton.mp new]
          exact needs
      have apart : Disjoint {next} (spec.dependencies.getD node ∅) :=
        Finset.disjoint_singleton_left.mpr fun needed => fresh (closedHere needed)
      dsimp only
      rw [if_neg (not_not.mpr (closedHere.trans Finset.subset_union_left)), candidateSwapped,
        if_neg fun asks => asks.2 apart]
      split
      · rename_i none
        exact ⟨directional, rfl⟩
      · rename_i candidate asks
        split at asks
        · cases asks
          exact ⟨true, by simp⟩
        · cases asks
    obtain ⟨after, step⟩ := step
    rw [step]
    exact ih after

/-- From a set that was formed, inputs are joined to it one at a time. -/
inductive Climbs (all : List Cut) (start : CBitSet) : CBitSet → Prop
  | here : Climbs all start start
  | next {nodes : CBitSet} {next : ℕ} : Climbs all start nodes → (nodes, {next}) ∈ all →
      Climbs all start (insert next nodes)

theorem Climbs.mono {all more : List Cut} {start : CBitSet} (climbs : Climbs all start nodes)
    (grows : all ⊆ more) : Climbs more start nodes := by
  induction climbs with
  | here => exact .here
  | next _ listed ih => exact .next ih (grows listed)

theorem Climbs.formed {all : List Cut} {start : CBitSet} {nodeCount : ℕ}
    (climbs : Climbs all start nodes) (formed : Formed nodeCount all start) :
    Formed nodeCount all nodes := by
  cases climbs with
  | here => exact formed
  | next _ listed => exact .inr ⟨_, listed, by rw [Finset.union_comm]; exact Finset.insert_eq _ _⟩

end Growing

namespace EnumeratedRegion

variable (region : EnumeratedRegion V) (inner : region.spec.pureInner = true)
  {nodes small large : CBitSet} {all : List Cut}

include inner

theorem accepts_next {next : ℕ} (closed : Closed region.spec.providers nodes)
    (fresh : next ∉ nodes) (needs : region.spec.providers next ⊆ nodes) :
    region.Accepts nodes {next} := by
  have applicable : (fDependencyApplicable region.spec nodes {next}).isSome := by
    unfold fDependencyApplicable
    split
    · exact dependencyLoop_next closed fresh needs _ false
    · rfl
  obtain ⟨answer, applicable⟩ := Option.isSome_iff_exists.mp applicable
  unfold Accepts fBuildJoinRequest
  simp only [applicable, inner, if_true, Option.isSome_some]

variable (straight : ¬ Circular region.spec.providers (Finset.range region.spec.nodeCount))

include straight

theorem exists_climb (topological : Topological region.spec.nodeCount region.Accepts all)
    (formed : Formed region.spec.nodeCount all small) (closed : Closed region.spec.providers small)
    (closedLarge : Closed region.spec.providers large) (sub : small ⊆ large)
    (inside : large ⊆ Finset.range region.spec.nodeCount) :
    ∃ more, Topological region.spec.nodeCount region.Accepts (all ++ more) ∧
      Formed region.spec.nodeCount (all ++ more) large ∧ Climbs (all ++ more) small large := by
  have start : Topological region.spec.nodeCount region.Accepts (all ++ []) ∧
      Formed region.spec.nodeCount (all ++ []) small ∧ Climbs (all ++ []) small small := by
    rw [List.append_nil]
    exact ⟨topological, formed, .here⟩
  refine closed.climb (motive := fun nodes => ∃ more,
    Topological region.spec.nodeCount region.Accepts (all ++ more) ∧
      Formed region.spec.nodeCount (all ++ more) nodes ∧ Climbs (all ++ more) small nodes)
    closedLarge (fun circle => straight (circle.mono inside)) sub ⟨[], start⟩ ?_
  rintro nodes next closedNodes - member fresh needs ⟨more, ordered, formedNodes, climbs⟩
  have single : Formed region.spec.nodeCount (all ++ more) {next} :=
    .inl ⟨next, Finset.mem_range.mp (inside member), rfl⟩
  have last : (nodes, {next}) ∈ all ++ (more ++ [(nodes, {next})]) := by simp
  refine ⟨more ++ [(nodes, {next})], ?_, .inr ⟨_, last, ?_⟩, ?_⟩
  · rw [← List.append_assoc]
    exact .snoc ordered (Finset.disjoint_singleton_right.mpr fresh) formedNodes single
      (region.accepts_next inner closedNodes fresh needs)
  · rw [Finset.insert_eq, Finset.union_comm]
  · refine .next (climbs.mono ?_) last
    rw [← List.append_assoc]
    exact List.subset_append_left _ _

theorem exists_climbs (sets : List CBitSet)
    (each : ∀ nodes ∈ sets, nodes.Nonempty ∧ nodes ⊆ Finset.range region.spec.nodeCount ∧
      Closed region.spec.providers nodes) :
    ∃ all, Topological region.spec.nodeCount region.Accepts all ∧ ∀ nodes ∈ sets,
      (∃ first ∈ nodes, Climbs all {first} nodes) ∧
        Climbs all nodes (Finset.range region.spec.nodeCount) := by
  induction sets with
  | nil => exact ⟨[], .nil, by simp⟩
  | cons nodes rest ih =>
    obtain ⟨all, topological, climbs⟩ := ih fun other member =>
      each other (List.mem_cons_of_mem _ member)
    obtain ⟨nonempty, inside, closed⟩ := each nodes List.mem_cons_self
    -- the first input has no providers
    obtain ⟨first, outside, needs⟩ := exists_next closed (fun circle => straight (circle.mono inside))
      (Finset.empty_ssubset.mpr nonempty)
    have member : first ∈ nodes := (Finset.mem_sdiff.mp outside).1
    have alone : Closed region.spec.providers {first} := by
      intro node same
      rw [Finset.mem_singleton.mp same]
      exact needs.trans (Finset.empty_subset _)
    obtain ⟨more, ordered, formed, toNodes⟩ := region.exists_climb inner straight topological
      (.inl ⟨first, Finset.mem_range.mp (inside member), rfl⟩) alone closed
      (Finset.singleton_subset_iff.mpr member) inside
    obtain ⟨last, orderedLast, -, toAll⟩ := region.exists_climb inner straight ordered formed closed
      region.closed_range inside (Finset.Subset.refl _)
    refine ⟨_, orderedLast, ?_⟩
    intro other listed
    rcases List.mem_cons.mp listed with rfl | old
    · exact ⟨⟨first, member, toNodes.mono (List.subset_append_left _ _)⟩, toAll⟩
    · obtain ⟨⟨start, inOther, up⟩, further⟩ := climbs other old
      have grows : all ⊆ all ++ more ++ last := by
        rw [List.append_assoc]
        exact List.subset_append_left _ _
      exact ⟨⟨start, inOther, up.mono grows⟩, further.mono grows⟩

end EnumeratedRegion

end JoinRegion
