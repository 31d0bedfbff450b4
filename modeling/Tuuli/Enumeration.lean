import Tuuli.CallLog

/-!
The enumeration of all pairs: after the lowest node `v` every pair of sets from
`v` on is recorded, provided that every call so far anchors its edges.
-/
namespace DPHyper
open AbortLoop HyperConnect

structure Stage (graph : CDPHyperGraph) (v : ℕ) (s : Logged) : Prop where
  sound : Sound graph v s.1
  singles : ∀ {node}, v ≤ node → node < graph.nodeCount → s.1.HasSeen {node}
  explained : ∀ call ∈ s.2, v ≤ call.lowestNode ∧ graph.ConFrom call.lowestNode call.subgraph ∧
    ∀ {B e}, graph.ConFrom (call.lowestNode + 1) B → Disjoint call.subgraph B →
      s.1.Lists call.subgraph B e → Report graph call.subgraph call.full B e
  complete : (∀ call ∈ s.2, call.Anchored graph) → ∀ {A B e}, graph.ConFrom v A →
    graph.ConFrom v B → Disjoint A B → graph.JoinedBy A B e → s.1.Lists A B e

section Stages
variable {graph : CDPHyperGraph} {v : ℕ} {s t : Logged} {A B : CBitSet} {e : ℕ}
  {plan : CDPHyperPlan}

theorem CDPHyperGraph.ConFrom.succ (within : graph.ConFrom v A) (outside : v ∉ A) :
    graph.ConFrom (v + 1) A := by
  refine ⟨within.1, fun node member => ?_⟩
  have atLeast := within.2 node member
  have other : node ≠ v := fun same => outside (same ▸ member)
  omega

theorem CDPHyperGraph.JoinedBy.symm (wf : graph.WellFormed) (joined : graph.JoinedBy A B e) :
    graph.JoinedBy B A e := by
  obtain ⟨edge, member, id, near, far⟩ := joined
  exact ⟨edge.reverse, wf.reverse_mem member, id, far, near⟩

theorem CDPHyperPlan.Lists.symm (lists : plan.Lists A B e) : plan.Lists B A e := by
  obtain ⟨pair, member, joins, listed⟩ := lists
  exact ⟨pair, member, joins.symm, listed⟩

theorem Stage.hasSeen (stage : Stage graph v s) (anchored : ∀ call ∈ s.2, call.Anchored graph)
    (within : graph.ConFrom v A) : s.1.HasSeen A := by
  obtain ⟨con, above⟩ := within
  cases con with
  | @single node member =>
    exact stage.singles (above node (Finset.mem_singleton_self node)) (Finset.mem_range.mp member)
  | @join B C u w conB conC disjoint leads near far =>
    obtain ⟨edge, member, rfl, rfl⟩ := leads
    exact stage.sound.hasSeen_of_lists (stage.complete anchored
      ⟨conB, fun node inB => above node (Finset.mem_union_left C inB)⟩
      ⟨conC, fun node inC => above node (Finset.mem_union_right B inC)⟩ disjoint
      ⟨edge, member, rfl, near, far⟩)

theorem lists_foundSingleNode {node : ℕ} :
    (plan.foundSingleNode node).Lists A B e ↔ plan.Lists A B e := by
  unfold CDPHyperPlan.Lists CDPHyperPlan.foundSingleNode
  rw [CDPHyperPlan.recordSeen_pairs]

theorem Stage.ready (stage : Stage graph (v + 1) s) (bound : v < graph.nodeCount) :
    Ready graph v (s.1.foundSingleNode v, s.2) where
  sound := {
    budget := by simpa [CDPHyperPlan.foundSingleNode] using stage.sound.budget
    unfiltered := by simpa [CDPHyperPlan.foundSingleNode] using stage.sound.unfiltered
    notExhausted := by simpa [CDPHyperPlan.foundSingleNode] using stage.sound.notExhausted
    seen := by
      intro nodes seen
      rcases CDPHyperPlan.hasSeen_recordSeen.mp seen with old | rfl
      · obtain ⟨con, above⟩ := stage.sound.seen old
        exact ⟨con, fun node member => Nat.le_of_succ_le (above node member)⟩
      · exact ⟨.single (Finset.mem_range.mpr bound), by simp⟩
    joined := by
      intro pair member
      refine CDPHyperPlan.hasSeen_recordSeen.mpr (.inl (stage.sound.joined pair ?_))
      simpa [CDPHyperPlan.foundSingleNode] using member }
  root := CDPHyperPlan.hasSeen_recordSeen.mpr (.inr rfl)
  later := fun anchored _ above =>
    CDPHyperPlan.hasSeen_recordSeen.mpr (.inl (stage.hasSeen anchored above))

theorem Stage.step (wf : graph.WellFormed) (stage : Stage graph (v + 1) s)
    (bound : v < graph.nodeCount) : ∃ t, logFrom graph v s = (t, false) ∧ Stage graph v t := by
  have ready := stage.ready bound
  obtain ⟨t, run, readyT, tested⟩ := (tested_rule wf).growFrom wf bound ready
    (by simpa using ready.root)
  have keeps : ∀ {A B e}, s.1.Lists A B e → t.1.Lists A B e := fun old =>
    tested.lists (lists_foundSingleNode.mpr old)
  refine ⟨t, run, readyT.sound, ?_, ?_, ?_⟩
  · intro node above below
    by_cases here : node = v
    · exact here ▸ readyT.root
    · exact tested.seen (CDPHyperPlan.hasSeen_recordSeen.mpr
        (.inl (stage.singles (by omega) below)))
  · intro call member
    rcases tested.explained call member with old | ⟨rfl, inside, rooted, explains⟩
    · obtain ⟨lowest, within, explains⟩ := stage.explained call old
      refine ⟨Nat.le_of_succ_le lowest, within, fun {B e} above disjoint lists => ?_⟩
      -- the new pairs have the node `v`, which is below the call and its complements
      rcases tested.frame lists with before | ⟨inside, -⟩ | ⟨inside, -⟩
      · exact explains above disjoint (lists_foundSingleNode.mp before)
      · exact absurd (within.2 v inside) (by omega)
      · exact absurd (above.2 v inside) (by omega)
    · refine ⟨Nat.le_refl _, rooted.1, fun {B e} above disjoint lists => ?_⟩
      refine (explains disjoint lists).resolve_left (fun before => ?_)
      have seen := stage.sound.hasSeen_of_lists (lists_foundSingleNode.mp before)
      have := (stage.sound.seen seen).2 _ (Finset.mem_union_left B inside)
      omega
  · intro anchored A B e fromA fromB disjoint joined
    have anchoredS := fun call (old : call ∈ s.2) => anchored call (tested.logged call old)
    have done : ∀ {A}, graph.ConFrom v A → v ∈ A → Done graph v t.1 A := by
      intro A within member
      refine tested.complete anchored A ⟨within, member⟩ within ?_
      intro A' proper con root outside
      exact absurd ⟨⟨con, fun node inA' => within.2 node (proper.subset inA')⟩, root⟩ outside
    by_cases inA : v ∈ A
    · exact done fromA inA (fromB.succ (Finset.disjoint_left.mp disjoint inA)) disjoint joined
    · by_cases inB : v ∈ B
      · exact (done fromB inB (fromA.succ inA) disjoint.symm (joined.symm wf)).symm
      · exact keeps (stage.complete anchoredS (fromA.succ inA) (fromB.succ inB) disjoint joined)

theorem stage_start (graph : CDPHyperGraph) :
    Stage graph graph.nodeCount (CDPHyperPlan.empty none noFilter, []) where
  sound := ⟨rfl, rfl, rfl, fun seen => absurd seen List.not_mem_nil,
    fun _ member => absurd member List.not_mem_nil⟩
  singles := fun above below => absurd below (Nat.not_lt.mpr above)
  explained := fun _ member => absurd member List.not_mem_nil
  complete := by
    intro _ A B e fromA
    obtain ⟨node, member⟩ := fromA.1.nonempty
    have below := Finset.mem_range.mp (fromA.1.subset member)
    have above := fromA.2 node member
    omega

theorem Stage.run (wf : graph.WellFormed) (stage : Stage graph v s) (bound : v ≤ graph.nodeCount) :
    ∃ t, untilAbort (logFrom graph) (List.range v).reverse s = (t, false) ∧ Stage graph 0 t := by
  induction v generalizing s with
  | zero => exact ⟨s, rfl, stage⟩
  | succ v ih =>
    obtain ⟨t, first, stageT⟩ := stage.step wf (by omega)
    obtain ⟨u, rest, stageU⟩ := ih stageT (by omega)
    refine ⟨u, ?_, stageU⟩
    rw [List.range_succ, List.reverse_concat, untilAbort_cons (by rw [first]), first]
    exact rest

end Stages

def enumerated (graph : CDPHyperGraph) : CDPHyperPlan :=
  (enumerate graph (.empty none noFilter)).1

def complementCalls (graph : CDPHyperGraph) : List Call :=
  (logEnumerate graph (.empty none noFilter)).1.2

/-- Every joined pair of constructible sets is recorded with its edges, and the plan is complete
exactly when all nodes can be joined. -/
structure EnumeratesAll (graph : CDPHyperGraph) : Prop where
  lists : ∀ {A B e}, graph.Con A → graph.Con B → Disjoint A B → graph.JoinedBy A B e →
    (enumerated graph).Lists A B e
  complete : (enumerated graph).complete graph.nodeCount = true ↔
    graph.Con (Finset.range graph.nodeCount)

section Whole
variable {graph : CDPHyperGraph}

theorem enumerated_stage (wf : graph.WellFormed) :
    Stage graph 0 (enumerated graph, complementCalls graph) := by
  obtain ⟨t, run, stage⟩ := (stage_start graph).run wf (Nat.le_refl _)
  have same : (enumerated graph, complementCalls graph) = t := by
    unfold enumerated complementCalls
    rw [enumerate_eq_logEnumerate]
    unfold logEnumerate
    rw [run]
  rw [same]
  exact stage

theorem con_iff {A : CBitSet} : graph.ConFrom 0 A ↔ graph.Con A :=
  ⟨And.left, fun con => ⟨con, fun _ _ => Nat.zero_le _⟩⟩

theorem complete_iff_hasSeen (wf : graph.WellFormed) :
    (enumerated graph).complete graph.nodeCount = true ↔
      0 < graph.nodeCount ∧ (enumerated graph).HasSeen (Finset.range graph.nodeCount) := by
  have running : (enumerated graph).budgetExhausted = false :=
    (enumerated_stage wf).sound.notExhausted
  simp [CDPHyperPlan.complete, running]

theorem enumeratesAll_iff_anchored (wf : graph.WellFormed) :
    EnumeratesAll graph ↔ ∀ call ∈ complementCalls graph, call.Anchored graph := by
  have stage := enumerated_stage wf
  constructor
  · intro all call member complement e above disjoint joined
    obtain ⟨-, within, explains⟩ := stage.explained call member
    exact (explains above disjoint (all.lists within.1 above.1 disjoint joined)).anchored wf
  · intro anchored
    refine ⟨fun conA conB disjoint joined => stage.complete anchored (con_iff.mpr conA)
      (con_iff.mpr conB) disjoint joined, ?_⟩
    rw [complete_iff_hasSeen wf]
    constructor
    · exact fun both => (stage.sound.seen both.2).1
    · intro con
      obtain ⟨node, member⟩ := con.nonempty
      exact ⟨Nat.zero_lt_of_lt (Finset.mem_range.mp member),
        stage.hasSeen anchored (con_iff.mpr con)⟩

end Whole

/-- The enumeration of a hypergraph is complete exactly when every call of
`EnumerateComplements` is given a full neighborhood that anchors its edges. -/
theorem enumerates_all_iff_calls_anchored (nodeCount : ℕ)
    (edges : List (CDPHyperGraph.Hyperedge nodeCount)) :
    EnumeratesAll (.ofEdges nodeCount edges) ↔
      ∀ call ∈ complementCalls (.ofEdges nodeCount edges),
        call.Anchored (.ofEdges nodeCount edges) :=
  enumeratesAll_iff_anchored (CDPHyperGraph.ofEdges_wellFormed nodeCount edges).1

section Gap

def sixNodeEdge (left right : CBitSet) (edgeId : ℕ)
    (valid : left.Nonempty ∧ right.Nonempty ∧ Disjoint left right ∧ left ∪ right ⊆ Finset.range 6) :
    CDPHyperGraph.Hyperedge 6 :=
  ⟨left, right, edgeId, valid.1, valid.2.1, valid.2.2.1, valid.2.2.2⟩

/-- Node 0 leads to the nodes 4 and 5 together, so 4 becomes its neighbor and is forbidden when
the subgraph grows; the edge to 3 and 4 is then passed over and never anchored. -/
def gapGraph : CDPHyperGraph := .ofEdges 6
  [sixNodeEdge {0} {1} 0 (by decide), sixNodeEdge {1} {2} 1 (by decide),
    sixNodeEdge {3} {4} 2 (by decide), sixNodeEdge {0, 1, 2} {3, 4} 3 (by decide),
    sixNodeEdge {0} {4, 5} 4 (by decide), sixNodeEdge {0, 1, 2, 3, 4} {5} 5 (by decide)]

theorem gapGraph_con_three : gapGraph.Con {0, 1, 2} := by
  have pair : gapGraph.Con ({0} ∪ {1}) := .join (.single (by decide)) (.single (by decide))
    (by decide) ⟨⟨{0}, {1}, 0⟩, by decide, rfl, rfl⟩ (by decide) (by decide)
  exact .join (A := {0} ∪ {1}) (B := {2}) pair (.single (by decide)) (by decide)
    ⟨⟨{1}, {2}, 1⟩, by decide, rfl, rfl⟩ (by decide) (by decide)

theorem gapGraph_con_two : gapGraph.Con {3, 4} :=
  .join (A := {3}) (B := {4}) (.single (by decide)) (.single (by decide)) (by decide)
    ⟨⟨{3}, {4}, 2⟩, by decide, rfl, rfl⟩ (by decide) (by decide)

theorem gapGraph_con_all : gapGraph.Con (Finset.range 6) := by
  have five : gapGraph.Con ({0, 1, 2} ∪ {3, 4}) := .join gapGraph_con_three gapGraph_con_two
    (by decide) ⟨⟨{0, 1, 2}, {3, 4}, 3⟩, by decide, rfl, rfl⟩ (by decide) (by decide)
  have whole : Finset.range 6 = ({0, 1, 2} ∪ {3, 4}) ∪ {5} := by decide
  rw [whole]
  exact .join five (.single (by decide)) (by decide)
    ⟨⟨{0, 1, 2, 3, 4}, {5}, 5⟩, by decide, rfl, rfl⟩ (by decide) (by decide)

/-- The pair of the first three nodes and the next two is joined by the edge 3 but not listed,
and the plan is not complete although all nodes can be joined. -/
theorem gap_graph_misses_joined_pair :
    gapGraph.Con {0, 1, 2} ∧ gapGraph.Con {3, 4} ∧ gapGraph.JoinedBy {0, 1, 2} {3, 4} 3 ∧
      ¬ (enumerated gapGraph).Lists {0, 1, 2} {3, 4} 3 ∧ gapGraph.Con (Finset.range 6) ∧
      (enumerated gapGraph).complete gapGraph.nodeCount = false ∧ ¬ EnumeratesAll gapGraph := by
  have joined : gapGraph.JoinedBy {0, 1, 2} {3, 4} 3 :=
    ⟨⟨{0, 1, 2}, {3, 4}, 3⟩, by decide, rfl, by decide, by decide⟩
  have missed : ¬ (enumerated gapGraph).Lists {0, 1, 2} {3, 4} 3 := by
    decide +kernel
  refine ⟨gapGraph_con_three, gapGraph_con_two, joined, missed, gapGraph_con_all,
    by decide +kernel, fun all => ?_⟩
  exact missed (all.lists gapGraph_con_three gapGraph_con_two (by decide) joined)

end Gap

end DPHyper
