import Tuuli.CallLog

/-!
The enumeration with a log of its reports, under any filter and budget. Every
report is of two seen, disjoint sets in the order of their lowest nodes, no
logical edge is reported twice on them, and the recorded pairs are the accepted
ones until the budget is used up.
-/
namespace DPHyper
open AbortLoop HyperConnect RunLog

/-- One call of `FoundSubgraphPair`, with the sets that the plan had seen. -/
structure PairReport where
  seen : List CBitSet
  subgraph : CBitSet
  complement : CBitSet
  index : ℕ

namespace PairReport

def key (report : PairReport) : CBitSet × CBitSet × ℕ :=
  (report.subgraph, report.complement, report.index / 2)

def cut (report : PairReport) : Cut := (report.subgraph, report.complement)

/-- The sets are disjoint, in the order of their lowest nodes and both seen, and the edge has
one side in each. -/
structure Sound (graph : CDPHyperGraph) (report : PairReport) : Prop where
  disjoint : Disjoint report.subgraph report.complement
  ordered : lowestBit graph.nodeCount report.subgraph < lowestBit graph.nodeCount report.complement
  seenSubgraph : report.subgraph ∈ report.seen
  seenComplement : report.complement ∈ report.seen
  leads : LeadsInto graph report.subgraph report.complement report.index

def accepted (graph : CDPHyperGraph) (filter : PairFilter) (report : PairReport) : Bool :=
  (graph.edges[report.index]?).any
    (fun edge => filter report.subgraph report.complement edge.edgeId)

end PairReport

def acceptedCuts (graph : CDPHyperGraph) (filter : PairFilter) (log : List PairReport) :
    Finset Cut :=
  ((log.filter (PairReport.accepted graph filter)).map PairReport.cut).toFinset

abbrev Reported := CDPHyperPlan × List PairReport

def reportLog (graph : CDPHyperGraph) : IDPHyperReceiver Reported where
  hasSeen := fun state nodes => state.1.HasSeen nodes
  foundSingleNode := fun id state => (state.1.foundSingleNode id, state.2)
  foundSubgraphPair := fun left right index state =>
    let result := (planReceiver graph).foundSubgraphPair left right index state.1
    ((result.1, state.2 ++ [⟨state.1.seen, left, right, index⟩]), result.2)

section Erase
variable {graph : CDPHyperGraph}

theorem runTest_reportLog (subgraph : CBitSet) (test : Test) (state : Reported) :
    (planReceiver graph).runTest subgraph test state.1
      = (((reportLog graph).runTest subgraph test state).1.1,
        ((reportLog graph).runTest subgraph test state).2) := by
  unfold IDPHyperReceiver.runTest
  have run := @untilAbort_map _ _ _ ((reportLog graph).foundSubgraphPair subgraph test.complement)
    ((planReceiver graph).foundSubgraphPair subgraph test.complement) Prod.fst test.indices
    (fun _ _ _ => rfl) state
  by_cases skips : test.gated = true ∧ (planReceiver graph).hasSeen state.1 test.complement = false
  · rw [if_pos skips, if_pos (show _ ∧ (reportLog graph).hasSeen state _ = false from skips)]
  · rw [if_neg skips, if_neg (show ¬ (_ ∧ (reportLog graph).hasSeen state _ = false) from skips)]
    exact run

theorem enumerate_eq_reportLog (graph : CDPHyperGraph) (plan : CDPHyperPlan) :
    enumerate graph plan = (((reportLog graph).enumerate graph (plan, [])).1.1,
      ((reportLog graph).enumerate graph (plan, [])).2) := by
  unfold enumerate IDPHyperReceiver.enumerate
  refine @untilAbort_map _ _ _ ((reportLog graph).enumerateFrom graph) _ Prod.fst _ ?_ (plan, [])
  intro id _ state
  refine @growFrom_map graph Reported CDPHyperPlan Prod.fst (reportLog graph).hasSeen
    (planReceiver graph).hasSeen ((reportLog graph).enumerateComplements graph)
    ((planReceiver graph).enumerateComplements graph) (fun _ _ => rfl) ?_ id
    ((reportLog graph).foundSingleNode id state)
  intro v S full N state
  have flat := fun {τ : Type} (receiver : IDPHyperReceiver τ) =>
    @IDPHyperReceiver.enumerateComplements_tests τ receiver graph ⟨v, S, full, N⟩
  simp only at flat
  rw [flat, flat]
  exact @untilAbort_map _ _ _ ((reportLog graph).runTest S) _ Prod.fst _
    (fun test _ state => runTest_reportLog S test state) state

end Erase

structure Tally (graph : CDPHyperGraph) (filter : PairFilter) (state : Reported) : Prop where
  cuts : (state.1.pairs.map SPair.cut).toFinset = acceptedCuts graph filter state.2
  distinct : (state.1.pairs.map SPair.cut).Nodup
  oriented : ∀ pair ∈ state.1.pairs, ∃ v ∈ pair.left, ∀ w ∈ pair.right, v < w

/-- The state while the sets with the lowest node `v` are enumerated. -/
structure Running (graph : CDPHyperGraph) (filter : PairFilter) (budget v : ℕ) (state : Reported) :
    Prop where
  filtered : state.1.pairFilter = filter
  budgeted : state.1.pairBudget = some budget
  notExhausted : state.1.budgetExhausted = false
  within : state.1.pairs.length ≤ budget
  seen : ∀ {nodes}, state.1.HasSeen nodes → graph.ConFrom v nodes
  singles : ∀ {node}, v ≤ node → node < graph.nodeCount → state.1.HasSeen {node}
  recorded : state.1.Recorded graph.nodeCount (fun _ _ => True)
  tally : Tally graph filter state

structure Stopped (graph : CDPHyperGraph) (filter : PairFilter) (budget : ℕ) (state : Reported) :
    Prop where
  exhausted : state.1.budgetExhausted = true
  full : state.1.pairs.length = budget
  recorded : state.1.Recorded graph.nodeCount (fun _ _ => True)
  exceeded : (acceptedCuts graph filter state.2).card = budget + 1

section Reports
variable {graph : CDPHyperGraph} {filter : PairFilter} {budget v : ℕ} {s : Reported}

theorem Tally.card (tally : Tally graph filter s) :
    (acceptedCuts graph filter s.2).card = s.1.pairs.length := by
  rw [← tally.cuts, List.toFinset_card_of_nodup tally.distinct, List.length_map]

theorem acceptedCuts_append (log : List PairReport) (report : PairReport) :
    acceptedCuts graph filter (log ++ [report])
      = if report.accepted graph filter = true then insert report.cut (acceptedCuts graph filter log)
        else acceptedCuts graph filter log := by
  unfold acceptedCuts
  rw [List.filter_append, List.map_append, List.toFinset_append]
  split
  · rename_i holds
    rw [List.filter_cons_of_pos holds]
    ext cut
    simp
  · rename_i fails
    rw [List.filter_cons_of_neg (by simpa using fails)]
    simp

theorem foundSubgraphPair_cases (plan : CDPHyperPlan) (left right : CBitSet) (edge : ℕ) :
    (plan.pairFilter left right edge = false ∧
      plan.foundSubgraphPair left right edge = (plan, false)) ∨
    (plan.pairFilter left right edge = true ∧
      ((∃ pair ∈ plan.pairs, pair.Joins left right) ∧ plan.foundSubgraphPair left right edge
          = ({ plan with pairs := addEdgeToPair left right edge plan.pairs }, false) ∨
        (¬ ∃ pair ∈ plan.pairs, pair.Joins left right) ∧
          (plan.pairBudgetReached = true ∧ plan.foundSubgraphPair left right edge
              = ({ plan with budgetExhausted := true }, true) ∨
            plan.pairBudgetReached = false ∧ plan.foundSubgraphPair left right edge
              = (CDPHyperPlan.recordSeen { plan with pairs := plan.pairs ++ [⟨left, right, [edge]⟩] }
                (left ∪ right), false)))) := by
  unfold CDPHyperPlan.foundSubgraphPair
  cases passes : plan.pairFilter left right edge with
  | false => simp
  | true =>
    by_cases known : ∃ pair ∈ plan.pairs, pair.Joins left right
    · simp [known]
    · cases room : plan.pairBudgetReached <;> simp [known]

/-- The arguments of a report while the sets with the lowest node `v` are enumerated. -/
structure Reportable (graph : CDPHyperGraph) (v : ℕ) (subgraph complement : CBitSet) (index : ℕ)
    (plan : CDPHyperPlan) : Prop where
  start : v ∈ subgraph
  disjoint : Disjoint subgraph complement
  above : ∀ node ∈ complement, v < node
  seenSubgraph : plan.HasSeen subgraph
  seenComplement : plan.HasSeen complement
  leads : LeadsInto graph subgraph complement index

variable {nodeCount index : ℕ} {set subgraph complement : CBitSet}

theorem le_lowestBit {v : ℕ} (nonempty : set.Nonempty) (inside : set ⊆ Finset.range nodeCount)
    (above : ∀ node ∈ set, v ≤ node) : v ≤ lowestBit nodeCount set :=
  above _ (lowestBit_mem nonempty inside)

theorem lowestBit_le {node : ℕ} (inside : set ⊆ Finset.range nodeCount) (member : node ∈ set) :
    lowestBit nodeCount set ≤ node := by
  have listed : node ∈ bits nodeCount set :=
    mem_bits.mpr ⟨Finset.mem_range.mp (inside member), member⟩
  have sorted : (bits nodeCount set).Pairwise (· < ·) :=
    List.Pairwise.filter _ List.pairwise_lt_range
  unfold lowestBit
  cases shape : bits nodeCount set with
  | nil =>
    rw [shape] at listed
    simp at listed
  | cons first rest =>
    rw [shape] at listed sorted
    rcases List.mem_cons.mp listed with rfl | later
    · exact Nat.le_refl _
    · exact Nat.le_of_lt ((List.pairwise_cons.mp sorted).1 node later)

theorem Reportable.sound (running : Running graph filter budget v s)
    (reportable : Reportable graph v subgraph complement index s.1) :
    PairReport.Sound graph ⟨s.1.seen, subgraph, complement, index⟩ where
  disjoint := reportable.disjoint
  ordered := by
    have conSubgraph := running.seen reportable.seenSubgraph
    have conComplement := running.seen reportable.seenComplement
    have low := lowestBit_le conSubgraph.1.subset reportable.start
    have high := le_lowestBit conComplement.1.nonempty conComplement.1.subset reportable.above
    dsimp only
    omega
  seenSubgraph := reportable.seenSubgraph
  seenComplement := reportable.seenComplement
  leads := reportable.leads

theorem Tally.known_iff (tally : Tally graph filter s) (start : v ∈ subgraph)
    (above : ∀ node ∈ complement, v < node) :
    (∃ pair ∈ s.1.pairs, pair.Joins subgraph complement) ↔
      (subgraph, complement) ∈ acceptedCuts graph filter s.2 := by
  rw [← tally.cuts, List.mem_toFinset, List.mem_map]
  constructor
  · rintro ⟨pair, member, ⟨left, right⟩ | ⟨left, right⟩⟩
    · exact ⟨pair, member, Prod.ext left right⟩
    · obtain ⟨low, inLeft, below⟩ := tally.oriented pair member
      have high := above low (left ▸ inLeft)
      have lower := below v (right ▸ start)
      omega
  · rintro ⟨pair, member, same⟩
    obtain ⟨left, right⟩ := Prod.mk.inj same
    exact ⟨pair, member, .inl ⟨left, right⟩⟩

theorem addEdgeToPair_oriented {left right : CBitSet} {edge : ℕ} {pairs : List SPair}
    (oriented : ∀ pair ∈ pairs, ∃ v ∈ pair.left, ∀ w ∈ pair.right, v < w) :
    ∀ pair ∈ addEdgeToPair left right edge pairs, ∃ v ∈ pair.left, ∀ w ∈ pair.right, v < w := by
  intro pair member
  rcases mem_addEdgeToPair member with old | ⟨old, inPairs, -, rfl⟩
  · exact oriented pair old
  · simpa using oriented old inPairs

theorem Reportable.con (wf : graph.WellFormed) (running : Running graph filter budget v s)
    (reportable : Reportable graph v subgraph complement index s.1) :
    graph.ConFrom v (subgraph ∪ complement) := by
  obtain ⟨conSubgraph, lowSubgraph⟩ := running.seen reportable.seenSubgraph
  obtain ⟨conComplement, lowComplement⟩ := running.seen reportable.seenComplement
  obtain ⟨edge, found, far, near⟩ := reportable.leads
  refine ⟨.join conSubgraph conComplement reportable.disjoint ⟨edge.reverse,
    wf.reverse_mem (List.mem_of_getElem? found), rfl, rfl⟩ near far, ?_⟩
  intro node either
  rcases Finset.mem_union.mp either with inSubgraph | inComplement
  · exact lowSubgraph node inSubgraph
  · exact lowComplement node inComplement

theorem Running.report (wf : graph.WellFormed) (running : Running graph filter budget v s)
    (reportable : Reportable graph v subgraph complement index s.1) :
    Outcome (fun t => Running graph filter budget v t ∧ ∀ {nodes}, s.1.HasSeen nodes →
        t.1.HasSeen nodes) (Stopped graph filter budget)
      ((reportLog graph).foundSubgraphPair subgraph complement index s) := by
  obtain ⟨edge, found, -, -⟩ := reportable.leads
  have same : (reportLog graph).foundSubgraphPair subgraph complement index s
      = (((s.1.foundSubgraphPair subgraph complement edge.edgeId).1,
          s.2 ++ [⟨s.1.seen, subgraph, complement, index⟩]),
        (s.1.foundSubgraphPair subgraph complement edge.edgeId).2) := by
    simp [reportLog, planReceiver, found]
  have recorded := @CDPHyperPlan.Recorded.foundSubgraphPair _ _ _ running.recorded _ _ edge.edgeId
    reportable.disjoint reportable.seenSubgraph reportable.seenComplement trivial
  have known := running.tally.known_iff reportable.start reportable.above
  have reached : s.1.pairBudgetReached = decide (budget ≤ s.1.pairs.length) := by
    rw [CDPHyperPlan.pairBudgetReached, running.budgeted]
  have log : acceptedCuts graph filter (s.2 ++ [⟨s.1.seen, subgraph, complement, index⟩])
      = if s.1.pairFilter subgraph complement edge.edgeId = true then
          insert (subgraph, complement) (acceptedCuts graph filter s.2)
        else acceptedCuts graph filter s.2 := by
    rw [acceptedCuts_append, running.filtered]
    simp [PairReport.accepted, found, PairReport.cut]
  rw [same]
  rcases foundSubgraphPair_cases s.1 subgraph complement edge.edgeId with
    ⟨rejects, result⟩ | ⟨accepts, ⟨listed, result⟩ | ⟨unlisted, ⟨spent, result⟩ | ⟨room, result⟩⟩⟩
  · -- rejected: nothing changes but the log
    rw [result]
    refine ⟨fun _ => ⟨⟨running.filtered, running.budgeted, running.notExhausted, running.within,
      running.seen, running.singles, running.recorded, ?_⟩, id⟩,
      fun stopped => absurd stopped Bool.false_ne_true⟩
    refine ⟨?_, running.tally.distinct, running.tally.oriented⟩
    rw [log, if_neg (by simp [rejects])]
    exact running.tally.cuts
  · -- the pair is there already
    rw [result] at recorded ⊢
    have cuts := addEdgeToPair_cuts subgraph complement edge.edgeId s.1.pairs
    have length : (addEdgeToPair subgraph complement edge.edgeId s.1.pairs).length
        = s.1.pairs.length := by simpa using congrArg List.length cuts
    refine ⟨fun _ => ⟨⟨running.filtered, running.budgeted, running.notExhausted,
      length ▸ running.within, running.seen, running.singles, recorded, ?_⟩, id⟩,
      fun stopped => absurd stopped Bool.false_ne_true⟩
    refine ⟨?_, cuts ▸ running.tally.distinct, addEdgeToPair_oriented running.tally.oriented⟩
    rw [log, if_pos accepts, Finset.insert_eq_of_mem (known.mp listed)]
    simp only [cuts]
    exact running.tally.cuts
  · -- the budget is used up
    rw [result] at recorded ⊢
    have length : s.1.pairs.length = budget := by
      rw [reached, decide_eq_true_eq] at spent
      exact Nat.le_antisymm running.within spent
    refine ⟨fun continues => absurd continues.symm Bool.false_ne_true,
      fun _ => ⟨rfl, length, recorded, ?_⟩⟩
    rw [log, if_pos accepts,
      Finset.card_insert_of_notMem (fun member => unlisted (known.mpr member)),
      running.tally.card, length]
  · -- a new pair
    rw [result] at recorded ⊢
    refine ⟨fun _ => ⟨⟨?_, ?_, ?_, ?_, ?_, ?_, recorded, ?_, ?_, ?_⟩, ?_⟩,
      fun stopped => absurd stopped Bool.false_ne_true⟩
    · simpa using running.filtered
    · simpa using running.budgeted
    · simpa using running.notExhausted
    · rw [reached, decide_eq_false_iff_not] at room
      simp only [CDPHyperPlan.recordSeen_pairs, List.length_append, List.length_singleton]
      omega
    · intro nodes present
      rcases CDPHyperPlan.hasSeen_recordSeen.mp present with old | rfl
      · exact running.seen old
      · exact reportable.con wf running
    · exact fun above bound => CDPHyperPlan.hasSeen_recordSeen.mpr (.inl (running.singles above bound))
    · rw [log, if_pos accepts, ← running.tally.cuts]
      ext cut
      simp [SPair.cut]
    · simp only [CDPHyperPlan.recordSeen_pairs, List.map_append, List.nodup_append]
      refine ⟨running.tally.distinct, List.nodup_singleton _, ?_⟩
      intro cut old new isNew equal
      rw [List.map_singleton, List.mem_singleton] at isNew
      subst isNew
      refine unlisted (known.mpr ?_)
      rw [← running.tally.cuts, List.mem_toFinset]
      rw [equal] at old
      exact old
    · intro pair member
      rw [CDPHyperPlan.recordSeen_pairs] at member
      rcases List.mem_append.mp member with old | new
      · exact running.tally.oriented pair old
      · obtain rfl := List.mem_singleton.mp new
        exact ⟨v, reportable.start, reportable.above⟩
    · exact fun old => CDPHyperPlan.hasSeen_recordSeen.mpr (.inl old)

end Reports

section Calls
variable {graph : CDPHyperGraph} {order : List ℕ} {filter : PairFilter} {budget v : ℕ}
  {s : Reported}

theorem Running.test (wf : graph.WellFormed) (arranged : graph.Arranged order) (once : order.Nodup)
    (running : Running graph filter budget v s) {call : Call} (valid : call.Valid graph)
    (lowest : call.lowestNode = v) {test : Test} (listed : test ∈ complementTests graph call)
    (seenSubgraph : s.1.HasSeen call.subgraph) :
    Appends Prod.snd PairReport.key (fun report => report.Sound graph ∧
        report.subgraph = call.subgraph ∧ report.complement = test.complement) s
        ((reportLog graph).runTest call.subgraph test s).1 ∧
      Outcome (fun t => Running graph filter budget v t ∧ t.1.HasSeen call.subgraph)
        (Stopped graph filter budget) ((reportLog graph).runTest call.subgraph test s) := by
  have fits := complementTests_fit wf valid listed
  unfold IDPHyperReceiver.runTest
  by_cases skips : test.gated = true ∧ (reportLog graph).hasSeen s test.complement = false
  · rw [if_pos skips]
    exact ⟨.of_eq rfl, fun _ => ⟨running, seenSubgraph⟩,
      fun stopped => absurd stopped Bool.false_ne_true⟩
  rw [if_neg skips]
  have seenComplement : s.1.HasSeen test.complement := by
    cases gated : test.gated with
    | true => simpa [reportLog, gated] using skips
    | false =>
      obtain ⟨seed, same⟩ := fits.single gated
      have member : seed ∈ test.complement := by simp [same]
      have above := fits.above seed member
      rw [same]
      exact running.singles (by omega) (Finset.mem_range.mp (fits.bounded member))
  have reports := untilAbort_appends Prod.snd PairReport.key
    (fun index report => report.Sound graph ∧ report.subgraph = call.subgraph ∧
      report.complement = test.complement ∧ report.index = index)
    (fun _ t => Running graph filter budget v t ∧ t.1.HasSeen call.subgraph ∧
      t.1.HasSeen test.complement) (Stopped graph filter budget)
    (f := (reportLog graph).foundSubgraphPair call.subgraph test.complement) (l := test.indices)
    ?_ ?_ ⟨running, seenSubgraph, seenComplement⟩
  · obtain ⟨appends, outcome⟩ := reports
    refine ⟨appends.mono ?_, fun continues => ?_, outcome.stops⟩
    · rintro report ⟨index, -, sound, subgraph, complement, -⟩
      exact ⟨sound, subgraph, complement⟩
    · obtain ⟨runningT, seenT, -⟩ := outcome.continues continues
      exact ⟨runningT, seenT⟩
  · rintro index inTest rest t ⟨runningT, seenS, seenB⟩
    have reportable : Reportable graph v call.subgraph test.complement index t.1 :=
      ⟨lowest ▸ valid.start, fits.away, lowest ▸ fits.above, seenS, seenB, fits.leads index inTest⟩
    have outcome := runningT.report wf reportable
    refine ⟨.one rfl ⟨reportable.sound runningT, rfl, rfl, rfl⟩, fun continues => ?_,
      outcome.stops⟩
    obtain ⟨runningU, keeps⟩ := outcome.continues continues
    exact ⟨runningU, keeps seenS, keeps seenB⟩
  · refine (complementTests_indices_nodup wf arranged once valid listed).imp_of_mem ?_
    rintro i j inI inJ differ report other ⟨-, -, -, here⟩ ⟨-, -, -, there⟩ same
    have half : i / 2 = j / 2 := here ▸ there ▸ (Prod.mk.inj (Prod.mk.inj same).2).2
    exact differ ((fits.leads i inI).half_injective wf fits.away (fits.leads j inJ) half)

theorem Running.call (wf : graph.WellFormed) (arranged : graph.Arranged order) (once : order.Nodup)
    (running : Running graph filter budget v s) {call : Call} (valid : call.Valid graph)
    (lowest : call.lowestNode = v) (seenSubgraph : s.1.HasSeen call.subgraph) :
    Appends Prod.snd PairReport.key (fun report => report.Sound graph ∧
        report.subgraph = call.subgraph) s
        ((reportLog graph).enumerateComplements graph v call.subgraph call.full
          call.inputNeighborhood s).1 ∧
      Outcome (Running graph filter budget v) (Stopped graph filter budget)
        ((reportLog graph).enumerateComplements graph v call.subgraph call.full
          call.inputNeighborhood s) := by
  rw [← lowest, IDPHyperReceiver.enumerateComplements_tests, lowest]
  have reports := untilAbort_appends Prod.snd PairReport.key
    (fun test report => report.Sound graph ∧ report.subgraph = call.subgraph ∧
      report.complement = Test.complement test)
    (fun _ t => Running graph filter budget v t ∧ t.1.HasSeen call.subgraph)
    (Stopped graph filter budget) (f := (reportLog graph).runTest call.subgraph)
    (l := complementTests graph call)
    (fun test listed _ t ok => ok.1.test wf arranged once valid lowest listed ok.2) ?_
    ⟨running, seenSubgraph⟩
  · obtain ⟨appends, outcome⟩ := reports
    refine ⟨appends.mono ?_, fun continues => (outcome.continues continues).1, outcome.stops⟩
    rintro report ⟨test, -, sound, subgraph, -⟩
    exact ⟨sound, subgraph⟩
  · refine (List.pairwise_map.mp (complementTests_nodup wf valid)).imp ?_
    rintro test other differ report report' ⟨-, -, here⟩ ⟨-, -, there⟩ same
    exact differ (here ▸ there ▸ (Prod.mk.inj (Prod.mk.inj same).2).1)

def ReportsOn (graph : CDPHyperGraph) (v : ℕ) (X : Set CBitSet) (s t : Reported) : Prop :=
  Appends Prod.snd PairReport.key
    (fun report => report.Sound graph ∧ v ∈ report.subgraph ∧ report.subgraph ∈ X) s t

theorem ReportsOn.seq {X Y : Set CBitSet} {t u : Reported} (before : Before X Y)
    (first : ReportsOn graph v X s t) (second : ReportsOn graph v Y t u) :
    ReportsOn graph v (X ∪ Y) s u := by
  refine (Appends.seq ?_ first second).mono ?_
  · rintro report other ⟨-, -, inX⟩ ⟨-, -, inY⟩ same
    exact before.not_mem inX ((Prod.mk.inj same).1 ▸ inY)
  · rintro report (⟨sound, root, inX⟩ | ⟨sound, root, inY⟩)
    · exact ⟨sound, root, .inl inX⟩
    · exact ⟨sound, root, .inr inY⟩

theorem reports_rule (wf : graph.WellFormed) (arranged : graph.Arranged order)
    (once : order.Nodup) :
    GrowRule graph (reportLog graph).hasSeen ((reportLog graph).enumerateComplements graph) v
      (Running graph filter budget v) (ReportsOn graph v)
      (fun X s t => ReportsOn graph v X s t ∧ Stopped graph filter budget t) where
  refl := fun _ => .of_eq rfl
  seq := .seq
  stop := fun before first second => ⟨first.seq before second.1, second.2⟩
  widen := fun stopped => ⟨stopped.1.mono (fun _ holds => ⟨holds.1, holds.2.1, .inl holds.2.2⟩),
    stopped.2⟩
  skip := fun _ _ _ => .of_eq rfl
  visit := by
    intro call s running valid lowest seen
    have seenSubgraph : s.1.HasSeen call.subgraph := by simpa [reportLog] using seen
    obtain ⟨appends, outcome⟩ := running.call wf arranged once valid lowest seenSubgraph
    have reports : ReportsOn graph v {B | B = call.subgraph ∧ graph.Con B} s
        ((reportLog graph).enumerateComplements graph v call.subgraph call.full
          call.inputNeighborhood s).1 := by
      refine appends.mono ?_
      rintro report ⟨sound, same⟩
      refine ⟨sound, ?_, same, ?_⟩
      · rw [same, ← lowest]
        exact valid.start
      · rw [same]
        exact (running.seen seenSubgraph).1
    exact ⟨_, _, rfl, fun continues => ⟨outcome.continues continues, reports⟩,
      fun stopped => ⟨reports, outcome.stops stopped⟩⟩

end Calls

section Whole
variable {graph : CDPHyperGraph} {order : List ℕ} {filter : PairFilter} {budget v : ℕ}
  {s : Reported}

theorem Running.foundSingleNode (running : Running graph filter budget (v + 1) s)
    (bound : v < graph.nodeCount) :
    Running graph filter budget v ((reportLog graph).foundSingleNode v s) where
  filtered := by simpa [reportLog, CDPHyperPlan.foundSingleNode] using running.filtered
  budgeted := by simpa [reportLog, CDPHyperPlan.foundSingleNode] using running.budgeted
  notExhausted := by simpa [reportLog, CDPHyperPlan.foundSingleNode] using running.notExhausted
  within := by simpa [reportLog, CDPHyperPlan.foundSingleNode] using running.within
  seen := by
    intro nodes seen
    rcases CDPHyperPlan.hasSeen_recordSeen.mp seen with old | rfl
    · obtain ⟨con, above⟩ := running.seen old
      exact ⟨con, fun node member => Nat.le_of_succ_le (above node member)⟩
    · exact ⟨.single (Finset.mem_range.mpr bound), by simp⟩
  singles := by
    intro node above below
    refine CDPHyperPlan.hasSeen_recordSeen.mpr ?_
    by_cases here : node = v
    · exact .inr (here ▸ rfl)
    · exact .inl (running.singles (by omega) below)
  recorded := running.recorded.foundSingleNode bound
  tally := by
    obtain ⟨cuts, distinct, oriented⟩ := running.tally
    constructor
    · simpa [reportLog, CDPHyperPlan.foundSingleNode] using cuts
    · simpa [reportLog, CDPHyperPlan.foundSingleNode] using distinct
    · simpa [reportLog, CDPHyperPlan.foundSingleNode] using oriented

theorem running_start (graph : CDPHyperGraph) (filter : PairFilter) (budget : ℕ) :
    Running graph filter budget graph.nodeCount (.empty (some budget) filter, []) where
  filtered := rfl
  budgeted := rfl
  notExhausted := rfl
  within := Nat.zero_le budget
  seen := fun seen => absurd seen List.not_mem_nil
  singles := fun above below => absurd below (Nat.not_lt.mpr above)
  recorded := .empty _ _
  tally := ⟨rfl, List.nodup_nil, fun _ member => absurd member List.not_mem_nil⟩

theorem Running.enumerateFrom (wf : graph.WellFormed) (arranged : graph.Arranged order)
    (once : order.Nodup) (running : Running graph filter budget (v + 1) s)
    (bound : v < graph.nodeCount) :
    ReportsOn graph v (Rooted graph v) s ((reportLog graph).enumerateFrom graph v s).1 ∧
      Outcome (Running graph filter budget v) (Stopped graph filter budget)
        ((reportLog graph).enumerateFrom graph v s) := by
  have start := running.foundSingleNode bound
  obtain ⟨t, stopped, run, continues, stops⟩ := (reports_rule wf arranged once).growFrom wf bound
    start (by simpa [reportLog] using start.singles (Nat.le_refl v) bound)
  unfold IDPHyperReceiver.enumerateFrom
  rw [run]
  cases stopped with
  | true =>
    obtain ⟨reports, final⟩ := stops rfl
    exact ⟨reports, fun continues => absurd continues.symm Bool.false_ne_true, fun _ => final⟩
  | false =>
    obtain ⟨runningT, reports⟩ := continues rfl
    exact ⟨reports, fun _ => runningT, fun stopped => absurd stopped Bool.false_ne_true⟩

theorem reportLog_enumerate (wf : graph.WellFormed) (arranged : graph.Arranged order)
    (once : order.Nodup) (filter : PairFilter) (budget : ℕ) :
    Appends Prod.snd PairReport.key (PairReport.Sound graph) (.empty (some budget) filter, [])
        ((reportLog graph).enumerate graph (.empty (some budget) filter, [])).1 ∧
      Outcome (Running graph filter budget 0) (Stopped graph filter budget)
        ((reportLog graph).enumerate graph (.empty (some budget) filter, [])) := by
  have reports := untilAbort_appends Prod.snd PairReport.key
    (fun v report => report.Sound graph ∧ v ∈ report.subgraph ∧
      report.subgraph ∈ Rooted graph v)
    (fun l t => ∃ v, l = (List.range v).reverse ∧ Running graph filter budget v t)
    (Stopped graph filter budget) (f := (reportLog graph).enumerateFrom graph)
    (l := (List.range graph.nodeCount).reverse) ?_ ?_
    ⟨graph.nodeCount, rfl, running_start graph filter budget⟩
  · obtain ⟨appends, outcome⟩ := reports
    refine ⟨appends.mono (fun report holds => ?_), fun continues => ?_, outcome.stops⟩
    · obtain ⟨v, -, sound, -⟩ := holds
      exact sound
    · obtain ⟨v, done, running⟩ := outcome.continues continues
      have first : v = 0 := by simpa using congrArg List.length done.symm
      exact first ▸ running
  · rintro v listed rest t ⟨next, shape, running⟩
    have bound : v < graph.nodeCount := List.mem_range.mp (List.mem_reverse.mp listed)
    cases next with
    | zero => simp at shape
    | succ next =>
      rw [List.range_succ, List.reverse_concat, List.cons.injEq] at shape
      obtain ⟨rfl, rfl⟩ := shape
      obtain ⟨appends, outcome⟩ := running.enumerateFrom wf arranged once bound
      exact ⟨appends, fun continues => ⟨v, rfl, outcome.continues continues⟩, outcome.stops⟩
  · refine (List.nodup_reverse.mpr List.nodup_range).imp ?_
    rintro v w differ report other ⟨-, inV, lowV⟩ ⟨-, inW, lowW⟩ same
    have subgraphs := (Prod.mk.inj same).1
    have := lowV.1.2 w (subgraphs ▸ inW)
    have := lowW.1.2 v (subgraphs ▸ inV)
    exact differ (by omega)

end Whole

def reportRun (graph : CDPHyperGraph) (filter : PairFilter) (budget : ℕ) : Reported × Bool :=
  (reportLog graph).enumerate graph (.empty (some budget) filter, [])

/-- Every report is sound and no logical edge is reported twice on a pair; the recorded pairs are
in topological order and within the budget, and the enumeration stops, with an incomplete plan,
exactly when more distinct pairs were accepted than the budget allows. -/
theorem reports_sound_and_budgeted (nodeCount : ℕ)
    (edges : List (CDPHyperGraph.Hyperedge nodeCount)) (filter : PairFilter) (budget : ℕ) :
    let graph := CDPHyperGraph.ofEdges nodeCount edges
    let run := reportRun graph filter budget
    enumerate graph (.empty (some budget) filter) = (run.1.1, run.2) ∧
      (∀ report ∈ run.1.2, report.Sound graph) ∧
      (run.1.2.map PairReport.key).Nodup ∧
      Topological nodeCount (fun _ _ => True) (run.1.1.pairs.map SPair.cut) ∧
      run.1.1.pairs.length ≤ budget ∧
      (run.2 = true ↔ budget < (acceptedCuts graph filter run.1.2).card) ∧
      (run.2 = true → run.1.1.complete nodeCount = false) := by
  intro graph run
  obtain ⟨wf, count⟩ := CDPHyperGraph.ofEdges_wellFormed nodeCount edges
  obtain ⟨⟨new, appended, distinct, sound⟩, outcome⟩ := reportLog_enumerate wf
    (CDPHyperGraph.ofEdges_arranged nodeCount edges) List.nodup_range filter budget
  rw [List.nil_append] at appended
  refine ⟨enumerate_eq_reportLog graph _, ?_, ?_, ?_⟩
  · intro report member
    exact sound report (appended ▸ member)
  · exact appended.symm ▸ distinct
  change Outcome _ _ run at outcome
  cases stopped : run.2 with
  | true =>
    have final := outcome.stops stopped
    have topological := final.recorded.topological
    rw [count] at topological
    refine ⟨topological, Nat.le_of_eq final.full, ?_, fun _ => ?_⟩
    · rw [final.exceeded]
      simp
    · simp [CDPHyperPlan.complete, final.exhausted]
  | false =>
    have final := outcome.continues stopped
    have topological := final.recorded.topological
    rw [count] at topological
    refine ⟨topological, final.within, ?_, fun impossible => absurd impossible Bool.false_ne_true⟩
    rw [final.tally.card]
    simpa using final.within

end DPHyper
