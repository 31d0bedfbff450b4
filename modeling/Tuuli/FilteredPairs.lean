import Tuuli.Enumeration
import Tuuli.ReportLog

/-!
Enumeration with a filter over a graph of simple edges. When the budget is not
used up, the recorded pairs are the least family that has every pair of sets
formed from it on whose edge the filter accepts them.
-/
namespace DPHyper
open AbortLoop HyperConnect

section Family
variable (graph : CDPHyperGraph) (filter : PairFilter)

/-- The filter accepts the pair on the edge; the set with the lowest node is on the left. -/
def accepts (A B : CBitSet) (edgeId : ℕ) : Bool :=
  if lowestBit graph.nodeCount A < lowestBit graph.nodeCount B then filter A B edgeId
  else filter B A edgeId

def Accepted (A B : CBitSet) : Prop :=
  Disjoint A B ∧ ∃ edgeId, graph.JoinedBy A B edgeId ∧ accepts graph filter A B edgeId = true

def FormedFrom (family : Set Cut) (A : CBitSet) : Prop :=
  (∃ node < graph.nodeCount, A = {node}) ∨ ∃ cut ∈ family, A = cut.1 ∪ cut.2

def ClosedUnder (family : Set Cut) : Prop :=
  ∀ ⦃A B⦄, FormedFrom graph family A → FormedFrom graph family B → Accepted graph filter A B →
    (A, B) ∈ family

inductive Built : CBitSet → Prop
  | single {node : ℕ} : node < graph.nodeCount → Built {node}
  | join {A B : CBitSet} : Built A → Built B → Accepted graph filter A B → Built (A ∪ B)

end Family

def CDPHyperPlan.recordedFamily (plan : CDPHyperPlan) : Set Cut :=
  {cut | ∃ pair ∈ plan.pairs, pair.Joins cut.1 cut.2}

section Built
variable {graph : CDPHyperGraph} {filter : PairFilter} {A B : CBitSet} {v : ℕ}

theorem Built.con (built : Built graph filter A) : graph.Con A := by
  induction built with
  | single bound => exact .single (Finset.mem_range.mpr bound)
  | join _ _ accepted ihA ihB =>
    obtain ⟨disjoint, e, ⟨edge, member, -, near, far⟩, -⟩ := accepted
    exact .join ihA ihB disjoint ⟨edge, member, rfl, rfl⟩ near far

theorem accepts_symm (conA : graph.Con A) (conB : graph.Con B) (disjoint : Disjoint A B) (e : ℕ) :
    accepts graph filter A B e = accepts graph filter B A e := by
  have inA := lowestBit_mem conA.nonempty conA.subset
  have inB := lowestBit_mem conB.nonempty conB.subset
  have differ : lowestBit graph.nodeCount A ≠ lowestBit graph.nodeCount B := fun same =>
    Finset.disjoint_left.mp disjoint inA (same ▸ inB)
  unfold accepts
  split_ifs with first second second
  · omega
  · rfl
  · rfl
  · omega

theorem Accepted.symm (wf : graph.WellFormed) (conA : graph.Con A) (conB : graph.Con B)
    (accepted : Accepted graph filter A B) : Accepted graph filter B A := by
  obtain ⟨disjoint, e, joined, passes⟩ := accepted
  exact ⟨disjoint.symm, e, joined.symm wf, accepts_symm conA conB disjoint e ▸ passes⟩

theorem lowestBit_lt_of_mem (conA : graph.Con A) (conB : graph.Con B) (member : v ∈ A)
    (above : ∀ node ∈ B, v < node) : lowestBit graph.nodeCount A < lowestBit graph.nodeCount B := by
  have low := lowestBit_le conA.subset member
  have high := le_lowestBit conB.nonempty conB.subset above
  omega

theorem Built.cases_of_mem (wf : graph.WellFormed) (built : Built graph filter A) (member : v ∈ A) :
    A = {v} ∨ ∃ B C, Built graph filter B ∧ Built graph filter C ∧
      Accepted graph filter B C ∧ v ∈ B ∧ A = B ∪ C := by
  cases built with
  | single bound => exact .inl (by rw [Finset.mem_singleton.mp member])
  | @join B C builtB builtC accepted =>
    rcases Finset.mem_union.mp member with inB | inC
    · exact .inr ⟨B, C, builtB, builtC, accepted, inB, rfl⟩
    · exact .inr ⟨C, B, builtC, builtB, accepted.symm wf builtB.con builtC.con, inC,
        Finset.union_comm B C⟩

theorem builtFamily_closed :
    ClosedUnder graph filter
      {cut | Built graph filter cut.1 ∧ Built graph filter cut.2 ∧ Accepted graph filter cut.1 cut.2} := by
  have formed : ∀ {A}, FormedFrom graph {cut | Built graph filter cut.1 ∧ Built graph filter cut.2 ∧
      Accepted graph filter cut.1 cut.2} A → Built graph filter A := by
    rintro A (⟨node, bound, rfl⟩ | ⟨cut, ⟨builtLeft, builtRight, accepted⟩, rfl⟩)
    · exact .single bound
    · exact .join builtLeft builtRight accepted
  exact fun A B formedA formedB accepted => ⟨formed formedA, formed formedB, accepted⟩

end Built

structure CDPHyperPlan.Keeps (p q : CDPHyperPlan) : Prop where
  filtered : q.pairFilter = p.pairFilter
  seen : ∀ {A}, p.HasSeen A → q.HasSeen A
  lists : ∀ {A B e}, p.Lists A B e → q.Lists A B e
  joined : (∀ pair ∈ p.pairs, p.HasSeen pair.joined) → ∀ pair ∈ q.pairs, q.HasSeen pair.joined

namespace CDPHyperPlan.Keeps

theorem refl (p : CDPHyperPlan) : p.Keeps p :=
  ⟨rfl, id, id, id⟩

theorem trans {p q r : CDPHyperPlan} (first : p.Keeps q) (second : q.Keeps r) : p.Keeps r :=
  ⟨second.filtered.trans first.filtered, fun seen => second.seen (first.seen seen),
    fun lists => second.lists (first.lists lists), fun joined => second.joined (first.joined joined)⟩

theorem foundSubgraphPair (p : CDPHyperPlan) (left right : CBitSet) (edge : ℕ) :
    p.Keeps (p.foundSubgraphPair left right edge).1 := by
  refine ⟨CDPHyperPlan.foundSubgraphPair_pairFilter, ?_, fun lists => lists.foundSubgraphPair, ?_⟩
  · intro A seen
    rcases foundSubgraphPair_cases p left right edge with
      ⟨-, result⟩ | ⟨-, ⟨-, result⟩ | ⟨-, ⟨-, result⟩ | ⟨-, result⟩⟩⟩ <;> rw [result]
    · exact seen
    · exact seen
    · exact seen
    · exact CDPHyperPlan.hasSeen_recordSeen.mpr (.inl seen)
  · intro joined
    rcases foundSubgraphPair_cases p left right edge with
      ⟨-, result⟩ | ⟨-, ⟨-, result⟩ | ⟨-, ⟨-, result⟩ | ⟨-, result⟩⟩⟩ <;> rw [result]
    · exact joined
    · intro pair member
      rcases mem_addEdgeToPair member with old | ⟨old, inPairs, -, rfl⟩
      · exact joined pair old
      · have same : (old.addConnectingEdge edge).joined = old.joined := by simp [SPair.joined]
        rw [same]
        exact joined old inPairs
    · exact joined
    · intro pair member
      rw [CDPHyperPlan.recordSeen_pairs] at member
      refine CDPHyperPlan.hasSeen_recordSeen.mpr ?_
      rcases List.mem_append.mp member with old | new
      · exact .inl (joined pair old)
      · exact .inr (List.mem_singleton.mp new ▸ rfl)

end CDPHyperPlan.Keeps

section Tests
variable {graph : CDPHyperGraph} {s : Reported}

theorem keeps_foundSubgraphPair (subgraph complement : CBitSet) (index : ℕ) (s : Reported) :
    s.1.Keeps ((reportLog graph).foundSubgraphPair subgraph complement index s).1.1 := by
  simp only [reportLog, planReceiver]
  split
  · exact .foundSubgraphPair _ _ _ _
  · exact .refl _

theorem keeps_runTest (subgraph : CBitSet) (test : Test) (s : Reported) :
    s.1.Keeps ((reportLog graph).runTest subgraph test s).1.1 := by
  unfold IDPHyperReceiver.runTest
  split
  · exact .refl _
  · exact untilAbort_relates (r := fun s t : Reported => s.1.Keeps t.1) (fun s => .refl s.1)
      (fun first second => first.trans second)
      (fun index _ s => keeps_foundSubgraphPair subgraph test.complement index s) s

theorem lists_of_test {call : Call} {test : Test} (listed : test ∈ complementTests graph call)
    (seen : s.1.HasSeen test.complement) {index : ℕ} (inTest : index ∈ test.indices) {edge : SEdge}
    (found : graph.edges[index]? = some edge)
    (passes : s.1.pairFilter call.subgraph test.complement edge.edgeId = true)
    (continues : (untilAbort ((reportLog graph).runTest call.subgraph) (complementTests graph
      call) s).2 = false) :
    (untilAbort ((reportLog graph).runTest call.subgraph) (complementTests graph call) s).1.1.Lists
      call.subgraph test.complement edge.edgeId := by
  obtain ⟨t, before, goesOn, after⟩ := untilAbort_reaches
    (r := fun s t : Reported => s.1.Keeps t.1) (fun s => .refl s.1)
    (fun first second => first.trans second)
    (fun test _ s => keeps_runTest call.subgraph test s) continues listed
  refine after.lists ?_
  have asked : ¬ (test.gated = true ∧ (reportLog graph).hasSeen t test.complement = false) := by
    simp [reportLog, before.seen seen]
  unfold IDPHyperReceiver.runTest at goesOn ⊢
  rw [if_neg asked] at goesOn ⊢
  obtain ⟨u, within, reported, later⟩ := untilAbort_reaches
    (r := fun s t : Reported => s.1.Keeps t.1) (fun s => .refl s.1)
    (fun first second => first.trans second)
    (fun index _ s => keeps_foundSubgraphPair call.subgraph test.complement index s) goesOn inTest
  refine later.lists ?_
  have same : (reportLog graph).foundSubgraphPair call.subgraph test.complement index u
      = (((u.1.foundSubgraphPair call.subgraph test.complement edge.edgeId).1,
          u.2 ++ [⟨u.1.seen, call.subgraph, test.complement, index⟩]),
        (u.1.foundSubgraphPair call.subgraph test.complement edge.edgeId).2) := by
    simp [reportLog, planReceiver, found]
  rw [same] at reported ⊢
  refine CDPHyperPlan.foundSubgraphPair_lists ?_ reported
  rw [within.filtered, before.filtered]
  exact passes

end Tests

/-- The plan lists all accepted pairs of `A` with sets above `v`. -/
def ListedFor (graph : CDPHyperGraph) (filter : PairFilter) (v : ℕ) (plan : CDPHyperPlan)
    (A : CBitSet) : Prop :=
  ∀ ⦃B edgeId⦄, Built graph filter B → (∀ node ∈ B, v < node) → Disjoint A B →
    graph.JoinedBy A B edgeId → filter A B edgeId = true → plan.Lists A B edgeId

/-- The state while the sets with the lowest node `v` are tested. -/
structure Prepared (graph : CDPHyperGraph) (filter : PairFilter) (budget v : ℕ) (s : Reported) :
    Prop where
  running : Running graph filter budget v s
  joined : ∀ pair ∈ s.1.pairs, s.1.HasSeen pair.joined
  later : ∀ {B}, Built graph filter B → (∀ node ∈ B, v < node) → s.1.HasSeen B

/-- From `s` to `t` the sets of `X` were tested. -/
structure TestedFor (graph : CDPHyperGraph) (filter : PairFilter) (v : ℕ) (X : Set CBitSet)
    (s t : Reported) : Prop where
  keeps : s.1.Keeps t.1
  complete : ∀ A ∈ X, Built graph filter A → (∀ node ∈ A, v ≤ node) →
    (∀ A', A' ⊂ A → Built graph filter A' → v ∈ A' → A' ∉ X → ListedFor graph filter v s.1 A') →
    ListedFor graph filter v t.1 A

section Rule
variable {graph : CDPHyperGraph} {order : List ℕ} {filter : PairFilter} {budget v : ℕ}
  {X Y : Set CBitSet} {s t u : Reported} {A : CBitSet}

theorem ListedFor.mono {p q : CDPHyperPlan} (keeps : p.Keeps q)
    (listed : ListedFor graph filter v p A) : ListedFor graph filter v q A :=
  fun _ _ built above disjoint joined passes =>
    keeps.lists (listed built above disjoint joined passes)

theorem TestedFor.seq (before : Before X Y) (first : TestedFor graph filter v X s t)
    (second : TestedFor graph filter v Y t u) : TestedFor graph filter v (X ∪ Y) s u where
  keeps := first.keeps.trans second.keeps
  complete := by
    intro A member built lowest smaller
    -- a set of `X` is completed by the first part: no subset of it is in `Y`
    have completes : ∀ A' ∈ X, A' ⊆ A → Built graph filter A' →
        ListedFor graph filter v t.1 A' := by
      intro A' inX inside built'
      refine first.complete A' inX built' (fun node inA' => lowest node (inside inA')) ?_
      intro A'' proper built'' root notX
      refine smaller A'' (lt_of_lt_of_le proper inside) built'' root ?_
      rintro (inX' | inY)
      · exact notX inX'
      · exact before A' inX A'' inY proper.subset
    rcases member with inX | inY
    · exact (completes A inX (Finset.Subset.refl A) built).mono second.keeps
    · refine second.complete A inY built lowest (fun A' proper built' root notY => ?_)
      by_cases inX : A' ∈ X
      · exact completes A' inX proper.subset built'
      · exact (smaller A' proper built' root (fun either => either.elim inX notY)).mono first.keeps

theorem Prepared.hasSeen_of_parts (wf : graph.WellFormed)
    (prepared : Prepared graph filter budget v s) (bound : v < graph.nodeCount)
    (built : Built graph filter A) (lowest : ∀ node ∈ A, v ≤ node) (member : v ∈ A)
    (parts : ∀ A', A' ⊂ A → Built graph filter A' → v ∈ A' → ListedFor graph filter v s.1 A') :
    s.1.HasSeen A := by
  rcases built.cases_of_mem wf member with
    rfl | ⟨B, C, builtB, builtC, ⟨disjoint, e, joined, passes⟩, inB, rfl⟩
  · exact prepared.running.singles (Nat.le_refl v) bound
  · have proper : B ⊂ B ∪ C := by
      refine Finset.ssubset_iff_subset_ne.mpr ⟨Finset.subset_union_left, fun same => ?_⟩
      obtain ⟨node, inC⟩ := builtC.con.nonempty
      exact Finset.disjoint_right.mp disjoint inC (same ▸ Finset.mem_union_right B inC)
    have above : ∀ node ∈ C, v < node := by
      intro node inC
      refine lt_of_le_of_ne (lowest node (Finset.mem_union_right B inC)) ?_
      rintro rfl
      exact Finset.disjoint_left.mp disjoint inB inC
    rw [accepts, if_pos (lowestBit_lt_of_mem builtB.con builtC.con inB above)] at passes
    obtain ⟨pair, inPairs, joins, -⟩ := parts B proper builtB inB builtC above disjoint joined passes
    rw [← joins.joined_eq]
    exact prepared.joined pair inPairs

theorem Prepared.visit (wf : graph.WellFormed) (arranged : graph.Arranged order)
    (once : order.Nodup) (simple : ∀ edge ∈ graph.edges, edge.Simple)
    (prepared : Prepared graph filter budget v s) {call : Call} (valid : call.Valid graph)
    (lowest : call.lowestNode = v) (seen : s.1.HasSeen call.subgraph)
    (continues : ((reportLog graph).enumerateComplements graph v call.subgraph call.full
      call.inputNeighborhood s).2 = false) :
    Prepared graph filter budget v ((reportLog graph).enumerateComplements graph v call.subgraph
        call.full call.inputNeighborhood s).1 ∧
      TestedFor graph filter v {B | B = call.subgraph ∧ graph.Con B} s
        ((reportLog graph).enumerateComplements graph v call.subgraph call.full
          call.inputNeighborhood s).1 := by
  have running := (prepared.running.call wf arranged once valid lowest seen).2.continues continues
  rw [← lowest, IDPHyperReceiver.enumerateComplements_tests] at continues running ⊢
  have keeps : s.1.Keeps (untilAbort ((reportLog graph).runTest call.subgraph)
      (complementTests graph call) s).1.1 :=
    untilAbort_relates (r := fun s t : Reported => s.1.Keeps t.1) (fun s => .refl s.1)
      (fun first second => first.trans second)
      (fun test _ s => keeps_runTest call.subgraph test s) s
  refine ⟨⟨running, keeps.joined prepared.joined, fun built above =>
    keeps.seen (prepared.later built (lowest ▸ above))⟩, keeps, ?_⟩
  rintro A ⟨rfl, -⟩ - - - B e built above disjoint ⟨edge, member, rfl, near, far⟩ passes
  -- the reversed edge leads from the complement to the subgraph, and its node is known
  obtain ⟨node, right⟩ := Finset.card_eq_one.mp (simple edge member).2
  have inB : node ∈ B := far (right ▸ Finset.mem_singleton_self node)
  have bound := Finset.mem_range.mp (built.con.subset inB)
  have known : lowestBit graph.nodeCount edge.reverse.left ∈ call.full := by
    rw [SEdge.reverse, right, lowestBit_singleton bound]
    exact valid.singles ⟨edge, member, rfl, right⟩ near (Finset.disjoint_right.mp disjoint inB)
      (above node inB)
  obtain ⟨index, found⟩ := List.mem_iff_getElem?.mp (wf.reverse_mem member)
  obtain ⟨test, listed, rfl, inTest⟩ := exists_complementTest wf valid built.con disjoint above
    found far near (.inr known)
  change CDPHyperPlan.Lists _ _ _ edge.reverse.edgeId
  refine lists_of_test listed (prepared.later built (lowest ▸ above)) inTest found ?_ continues
  rw [prepared.running.filtered]
  exact passes

theorem filtered_rule (wf : graph.WellFormed) (arranged : graph.Arranged order) (once : order.Nodup)
    (simple : ∀ edge ∈ graph.edges, edge.Simple) (bound : v < graph.nodeCount) :
    GrowRule graph (reportLog graph).hasSeen ((reportLog graph).enumerateComplements graph) v
      (Prepared graph filter budget v) (TestedFor graph filter v) (fun _ _ _ => True) where
  refl := fun s => ⟨.refl s.1, fun _ member => absurd member (Set.notMem_empty _)⟩
  seq := .seq
  stop := fun _ _ _ => trivial
  widen := fun _ => trivial
  skip := by
    intro A s prepared member unseen
    refine ⟨.refl s.1, ?_⟩
    rintro B ⟨rfl, -⟩ built lowest smaller
    have seen : s.1.HasSeen B := by
      refine prepared.hasSeen_of_parts wf bound built lowest member ?_
      intro A' proper built' root
      exact smaller A' proper built' root (fun same => proper.ne same.1)
    simp [reportLog, seen] at unseen
  visit := by
    intro call s prepared valid lowest seen
    refine ⟨_, _, rfl, fun continues => ?_, fun _ => trivial⟩
    exact prepared.visit wf arranged once simple valid lowest (by simpa [reportLog] using seen)
      continues

end Rule

/-- The state when all sets from `v` on were tested. -/
structure FilteredStage (graph : CDPHyperGraph) (filter : PairFilter) (budget v : ℕ)
    (s : Reported) : Prop where
  running : Running graph filter budget v s
  joined : ∀ pair ∈ s.1.pairs, s.1.HasSeen pair.joined
  complete : ∀ {A B e}, Built graph filter A → Built graph filter B → (∀ node ∈ A, v ≤ node) →
    (∀ node ∈ B, v ≤ node) → Disjoint A B → graph.JoinedBy A B e →
    accepts graph filter A B e = true → s.1.Lists A B e

section Stages
variable {graph : CDPHyperGraph} {order : List ℕ} {filter : PairFilter} {budget v : ℕ}
  {s : Reported}

theorem FilteredStage.hasSeen (stage : FilteredStage graph filter budget v s) {A : CBitSet}
    (built : Built graph filter A) (lowest : ∀ node ∈ A, v ≤ node) : s.1.HasSeen A := by
  cases built with
  | @single node bound =>
    exact stage.running.singles (lowest node (Finset.mem_singleton_self node)) bound
  | @join B C builtB builtC accepted =>
    obtain ⟨disjoint, e, joined, passes⟩ := accepted
    obtain ⟨pair, member, joins, -⟩ := stage.complete builtB builtC
      (fun node inB => lowest node (Finset.mem_union_left C inB))
      (fun node inC => lowest node (Finset.mem_union_right B inC)) disjoint joined passes
    rw [← joins.joined_eq]
    exact stage.joined pair member

theorem FilteredStage.prepared (stage : FilteredStage graph filter budget (v + 1) s)
    (bound : v < graph.nodeCount) :
    Prepared graph filter budget v ((reportLog graph).foundSingleNode v s) where
  running := stage.running.foundSingleNode bound
  joined := by
    intro pair member
    refine CDPHyperPlan.hasSeen_recordSeen.mpr (.inl (stage.joined pair ?_))
    simpa [reportLog, CDPHyperPlan.foundSingleNode] using member
  later := fun built above => CDPHyperPlan.hasSeen_recordSeen.mpr (.inl (stage.hasSeen built above))

theorem FilteredStage.step (wf : graph.WellFormed) (arranged : graph.Arranged order)
    (once : order.Nodup) (simple : ∀ edge ∈ graph.edges, edge.Simple)
    (stage : FilteredStage graph filter budget (v + 1) s) (bound : v < graph.nodeCount)
    (continues : ((reportLog graph).enumerateFrom graph v s).2 = false) :
    FilteredStage graph filter budget v ((reportLog graph).enumerateFrom graph v s).1 := by
  have prepared := stage.prepared bound
  obtain ⟨t, stopped, run, goesOn, -⟩ := (filtered_rule wf arranged once simple bound).growFrom wf
    bound prepared (by simpa [reportLog] using prepared.running.singles (Nat.le_refl v) bound)
  unfold IDPHyperReceiver.enumerateFrom at continues ⊢
  rw [run] at continues ⊢
  obtain ⟨preparedT, tested⟩ := goesOn continues
  refine ⟨preparedT.running, preparedT.joined, ?_⟩
  -- the pairs of a set with the node `v` are listed by the growth from `v`
  have fromRoot : ∀ {A B e}, Built graph filter A → Built graph filter B →
      (∀ node ∈ A, v ≤ node) → (∀ node ∈ B, v ≤ node) → Disjoint A B → graph.JoinedBy A B e →
      accepts graph filter A B e = true → v ∈ A → t.1.Lists A B e := by
    intro A B e builtA builtB lowA lowB disjoint joined passes inA
    have above : ∀ node ∈ B, v < node := by
      intro node inB
      refine lt_of_le_of_ne (lowB node inB) ?_
      rintro rfl
      exact Finset.disjoint_left.mp disjoint inA inB
    rw [accepts, if_pos (lowestBit_lt_of_mem builtA.con builtB.con inA above)] at passes
    have listed : ListedFor graph filter v t.1 A := by
      refine tested.complete A ⟨⟨builtA.con, lowA⟩, inA⟩ builtA lowA ?_
      intro A' proper built' root outside
      exact absurd ⟨⟨built'.con, fun node inA' => lowA node (proper.subset inA')⟩, root⟩ outside
    exact listed builtB above disjoint joined passes
  intro A B e builtA builtB lowA lowB disjoint joined passes
  by_cases inA : v ∈ A
  · exact fromRoot builtA builtB lowA lowB disjoint joined passes inA
  by_cases inB : v ∈ B
  · rw [accepts_symm builtA.con builtB.con disjoint] at passes
    exact (fromRoot builtB builtA lowB lowA disjoint.symm (joined.symm wf) passes inB).symm
  have higher : ∀ {C : CBitSet}, (∀ node ∈ C, v ≤ node) → v ∉ C → ∀ node ∈ C, v + 1 ≤ node := by
    intro C lowest outside node member
    exact lt_of_le_of_ne (lowest node member) (fun same => outside (same ▸ member))
  exact tested.keeps.lists (lists_foundSingleNode.mpr
    (stage.complete builtA builtB (higher lowA inA) (higher lowB inB) disjoint joined passes))

theorem filteredStage_start (graph : CDPHyperGraph) (filter : PairFilter) (budget : ℕ) :
    FilteredStage graph filter budget graph.nodeCount (.empty (some budget) filter, []) where
  running := running_start graph filter budget
  joined := fun _ member => absurd member List.not_mem_nil
  complete := by
    intro A B e built _ lowest
    obtain ⟨node, member⟩ := built.con.nonempty
    have below := Finset.mem_range.mp (built.con.subset member)
    have above := lowest node member
    omega

theorem FilteredStage.run (wf : graph.WellFormed) (arranged : graph.Arranged order)
    (once : order.Nodup) (simple : ∀ edge ∈ graph.edges, edge.Simple)
    (stage : FilteredStage graph filter budget v s) (bound : v ≤ graph.nodeCount)
    (continues : (untilAbort ((reportLog graph).enumerateFrom graph) (List.range v).reverse s).2 =
      false) :
    FilteredStage graph filter budget 0
      (untilAbort ((reportLog graph).enumerateFrom graph) (List.range v).reverse s).1 := by
  induction v generalizing s with
  | zero => exact stage
  | succ v ih =>
    rw [List.range_succ, List.reverse_concat] at continues ⊢
    cases stopped : ((reportLog graph).enumerateFrom graph v s).2 with
    | true =>
      rw [untilAbort, if_pos stopped] at continues
      exact absurd continues.symm Bool.false_ne_true
    | false =>
      rw [untilAbort_cons stopped] at continues ⊢
      exact ih (stage.step wf arranged once simple (by omega) stopped) (by omega) continues

end Stages

section Whole
variable {graph : CDPHyperGraph} {filter : PairFilter} {budget : ℕ} {s : Reported}
  (wf : graph.WellFormed)

include wf

theorem Running.accepted_of_mem (running : Running graph filter budget 0 s)
    (sound : ∀ report ∈ s.2, report.Sound graph) {pair : SPair} (member : pair ∈ s.1.pairs) :
    Accepted graph filter pair.left pair.right := by
  have inCuts : pair.cut ∈ acceptedCuts graph filter s.2 := by
    rw [← running.tally.cuts]
    exact List.mem_toFinset.mpr (List.mem_map_of_mem member)
  obtain ⟨report, inLog, same⟩ := List.mem_map.mp (List.mem_toFinset.mp inCuts)
  obtain ⟨logged, accepted⟩ := List.mem_filter.mp inLog
  obtain ⟨left, right⟩ := Prod.mk.inj same
  obtain ⟨edge, found, far, near⟩ := (sound report logged).leads
  rw [← left, ← right]
  refine ⟨(sound report logged).disjoint, edge.edgeId, ⟨edge.reverse,
    wf.reverse_mem (List.mem_of_getElem? found), rfl, near, far⟩, ?_⟩
  rw [accepts, if_pos (sound report logged).ordered]
  simpa [PairReport.accepted, found] using accepted

theorem Running.recorded_subset (running : Running graph filter budget 0 s)
    (sound : ∀ report ∈ s.2, report.Sound graph) {family : Set Cut}
    (closed : ClosedUnder graph filter family) : s.1.recordedFamily ⊆ family := by
  have every : ∀ cuts, Topological graph.nodeCount (fun _ _ => True) cuts →
      (∀ cut ∈ cuts, cut ∈ s.1.pairs.map SPair.cut) →
      ∀ cut ∈ cuts, cut ∈ family ∧ (cut.2, cut.1) ∈ family ∧ graph.Con (cut.1 ∪ cut.2) := by
    intro cuts topological
    induction topological with
    | nil => simp
    | @snoc cuts left right earlier disjoint formedLeft formedRight _ ih =>
      intro recorded cut member
      have old := ih (fun cut inCuts => recorded cut (List.mem_append_left _ inCuts))
      rcases List.mem_append.mp member with inCuts | last
      · exact old cut inCuts
      obtain rfl := List.mem_singleton.mp last
      obtain ⟨pair, inPairs, same⟩ := List.mem_map.mp (recorded (left, right) member)
      obtain ⟨rfl, rfl⟩ := Prod.mk.inj same
      have accepted := running.accepted_of_mem wf sound inPairs
      have formed : ∀ {A}, Formed graph.nodeCount cuts A →
          FormedFrom graph family A ∧ graph.Con A := by
        rintro A (⟨node, bound, rfl⟩ | ⟨cut, inCuts, rfl⟩)
        · exact ⟨.inl ⟨node, bound, rfl⟩, .single (Finset.mem_range.mpr bound)⟩
        · obtain ⟨inFamily, -, con⟩ := old cut inCuts
          exact ⟨.inr ⟨cut, inFamily, rfl⟩, con⟩
      obtain ⟨fromLeft, conLeft⟩ := formed formedLeft
      obtain ⟨fromRight, conRight⟩ := formed formedRight
      refine ⟨closed fromLeft fromRight accepted,
        closed fromRight fromLeft (accepted.symm wf conLeft conRight), ?_⟩
      obtain ⟨-, e, ⟨edge, inEdges, -, near, far⟩, -⟩ := accepted
      exact .join conLeft conRight disjoint ⟨edge, inEdges, rfl, rfl⟩ near far
  rintro ⟨A, B⟩ ⟨pair, member, joins⟩
  obtain ⟨here, there, -⟩ := every _ running.recorded.topological (fun _ inCuts => inCuts) pair.cut
    (List.mem_map_of_mem member)
  rcases joins with ⟨left, right⟩ | ⟨left, right⟩
  · dsimp only at left right
    subst left right
    exact here
  · dsimp only at left right
    subst left right
    exact there

theorem FilteredStage.closed (stage : FilteredStage graph filter budget 0 s)
    (sound : ∀ report ∈ s.2, report.Sound graph) : ClosedUnder graph filter s.1.recordedFamily := by
  have built : ∀ {A}, FormedFrom graph s.1.recordedFamily A → Built graph filter A := by
    rintro A (⟨node, bound, rfl⟩ | ⟨cut, recorded, rfl⟩)
    · exact .single bound
    · obtain ⟨builtLeft, builtRight, accepted⟩ :=
        stage.running.recorded_subset wf sound builtFamily_closed recorded
      exact .join builtLeft builtRight accepted
  rintro A B formedA formedB ⟨disjoint, e, joined, passes⟩
  obtain ⟨pair, member, joins, -⟩ := stage.complete (built formedA) (built formedB)
    (fun _ _ => Nat.zero_le _) (fun _ _ => Nat.zero_le _) disjoint joined passes
  exact ⟨pair, member, joins⟩

end Whole

/-- Over simple edges, an enumeration that stays within its budget records the least family of
pairs that is closed under the filter. -/
theorem filtered_pairs_isLeast (nodeCount : ℕ) (edges : List (CDPHyperGraph.Hyperedge nodeCount))
    (simple : ∀ edge ∈ (CDPHyperGraph.ofEdges nodeCount edges).edges, edge.Simple)
    (filter : PairFilter) (budget : ℕ)
    (within : (enumerate (.ofEdges nodeCount edges) (.empty (some budget) filter)).2 = false) :
    IsLeast {family | ClosedUnder (.ofEdges nodeCount edges) filter family}
      (enumerate (.ofEdges nodeCount edges)
        (.empty (some budget) filter)).1.recordedFamily := by
  obtain ⟨wf, -⟩ := CDPHyperGraph.ofEdges_wellFormed nodeCount edges
  have arranged := CDPHyperGraph.ofEdges_arranged nodeCount edges
  generalize CDPHyperGraph.ofEdges nodeCount edges = graph at *
  obtain ⟨⟨new, appended, -, logged⟩, -⟩ := reportLog_enumerate wf arranged List.nodup_range filter
    budget
  rw [enumerate_eq_reportLog] at within ⊢
  have stage : FilteredStage graph filter budget 0
      ((reportLog graph).enumerate graph (.empty (some budget) filter, [])).1 :=
    (filteredStage_start graph filter budget).run wf arranged List.nodup_range simple
      (Nat.le_refl _) within
  have sound : ∀ report ∈ ((reportLog graph).enumerate graph
      (.empty (some budget) filter, [])).1.2, report.Sound graph := by
    intro report member
    rw [appended, List.nil_append] at member
    exact logged report member
  exact ⟨stage.closed wf sound, fun family closed => stage.running.recorded_subset wf sound closed⟩

def pathEdges : List (CDPHyperGraph.Hyperedge 3) :=
  [⟨{0}, {1}, 0, by decide, by decide, by decide, by decide⟩,
    ⟨{1}, {2}, 1, by decide, by decide, by decide, by decide⟩]

def afterFirst : PairFilter := fun left _ edgeId => edgeId = 0 ∨ left = {0, 1}

theorem filtered_pairs_isLeast_path :
    (enumerate (.ofEdges 3 pathEdges) (.empty (some 2) afterFirst)).2 = false ∧
      IsLeast {family | ClosedUnder (.ofEdges 3 pathEdges) afterFirst family}
        (enumerate (.ofEdges 3 pathEdges) (.empty (some 2) afterFirst)).1.recordedFamily := by
  have within : (enumerate (.ofEdges 3 pathEdges) (.empty (some 2) afterFirst)).2 = false := by
    decide +kernel
  exact ⟨within, filtered_pairs_isLeast 3 pathEdges (by decide) afterFirst 2 within⟩

end DPHyper
