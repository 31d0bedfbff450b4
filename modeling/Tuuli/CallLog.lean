import Tuuli.ComplementTests

/-!
The enumeration with a log of the calls of `EnumerateComplements`, and what one
lowest node adds to it: each logged call explains the pairs of its subgraph, and
when every logged call anchors its edges, every set is tested completely.
-/
namespace DPHyper
open AbortLoop HyperConnect

abbrev Logged := CDPHyperPlan × List Call

def logComplements (graph : CDPHyperGraph) (lowestNode : ℕ)
    (subgraph full inputNeighborhood : CBitSet) (state : Logged) : Logged × Bool :=
  let result := enumerateComplements graph lowestNode subgraph full inputNeighborhood state.1
  ((result.1, state.2 ++ [⟨lowestNode, subgraph, full, inputNeighborhood⟩]), result.2)

def logFrom (graph : CDPHyperGraph) (id : ℕ) (state : Logged) : Logged × Bool :=
  growFrom graph (fun state nodes => state.1.HasSeen nodes) (logComplements graph) id
    (state.1.foundSingleNode id, state.2)

def logEnumerate (graph : CDPHyperGraph) (plan : CDPHyperPlan) : Logged × Bool :=
  untilAbort (logFrom graph) (List.range graph.nodeCount).reverse (plan, [])

section Simulation
variable {graph : CDPHyperGraph} {σ τ : Type} {erase : σ → τ} {hasSeen : σ → CBitSet → Bool}
  {hasSeen' : τ → CBitSet → Bool}
  {complements : ℕ → CBitSet → CBitSet → CBitSet → σ → σ × Bool}
  {complements' : ℕ → CBitSet → CBitSet → CBitSet → τ → τ × Bool}

theorem expandSubgraph_map (seen : ∀ s nodes, hasSeen' (erase s) nodes = hasSeen s nodes)
    (calls : ∀ v S full N s, complements' v S full N (erase s) = (erase (complements v S full N
      s).1, (complements v S full N s).2)) (v fuel : ℕ) (S full N F : CBitSet) (s : σ) :
    expandSubgraph graph hasSeen' complements' v fuel S full N F (erase s)
      = (erase (expandSubgraph graph hasSeen complements v fuel S full N F s).1,
        (expandSubgraph graph hasSeen complements v fuel S full N F s).2) := by
  induction fuel generalizing S full N F s with
  | zero => rfl
  | succ fuel ih =>
    have visits := @untilAbort_map _ _ _
      (visitGrown graph hasSeen complements v S full N F)
      (visitGrown graph hasSeen' complements' v S full N F)
      (fun state => (erase state.1, state.2)) (subsetsOf graph.nodeCount N) (by
        intro G _ state
        unfold visitGrown
        simp only [seen, calls]
        split <;> rfl) (s, .init graph.nodeCount N)
    unfold expandSubgraph
    simp only at visits
    simp only [visits]
    split
    · rfl
    · have expands := @untilAbort_map _ _ _
        (fun growBy (state : σ × CNeighborhoodCache) =>
          let grown := S ∪ growBy
          let newForbidden := (F ∪ N) \ grown
          let next := pbsNeighborhood graph grown newForbidden growBy state.2 full
          let result := expandSubgraph graph hasSeen complements v fuel grown next.full next.nodes
            newForbidden state.1
          ((result.1, next.cache), result.2))
        (fun growBy (state : τ × CNeighborhoodCache) =>
          let grown := S ∪ growBy
          let newForbidden := (F ∪ N) \ grown
          let next := pbsNeighborhood graph grown newForbidden growBy state.2 full
          let result := expandSubgraph graph hasSeen' complements' v fuel grown next.full
            next.nodes newForbidden state.1
          ((result.1, next.cache), result.2))
        (fun state => (erase state.1, state.2)) (subsetsOf graph.nodeCount N) (by
          intro G _ state
          simp only [ih])
        (untilAbort (visitGrown graph hasSeen complements v S full N F)
          (subsetsOf graph.nodeCount N) (s, .init graph.nodeCount N)).1
      simp only at expands
      simp only [expands]

theorem growFrom_map (seen : ∀ s nodes, hasSeen' (erase s) nodes = hasSeen s nodes)
    (calls : ∀ v S full N s, complements' v S full N (erase s) = (erase (complements v S full N
      s).1, (complements v S full N s).2)) (v : ℕ) (s : σ) :
    growFrom graph hasSeen' complements' v (erase s)
      = (erase (growFrom graph hasSeen complements v s).1,
        (growFrom graph hasSeen complements v s).2) := by
  unfold growFrom
  simp only [calls]
  split
  · rfl
  · exact expandSubgraph_map seen calls v _ _ _ _ _ _

end Simulation

theorem enumerate_eq_logEnumerate (graph : CDPHyperGraph) (plan : CDPHyperPlan) :
    enumerate graph plan = ((logEnumerate graph plan).1.1, (logEnumerate graph plan).2) := by
  unfold enumerate IDPHyperReceiver.enumerate logEnumerate
  refine @untilAbort_map _ _ _ (logFrom graph) _ Prod.fst _ ?_ (plan, [])
  intro id _ state
  exact @growFrom_map graph Logged CDPHyperPlan Prod.fst
    (fun state nodes => state.1.HasSeen nodes) (fun plan nodes => plan.HasSeen nodes)
    (logComplements graph) (enumerateComplements graph)
    (fun _ _ => rfl) (fun _ _ _ _ _ => rfl) id (state.1.foundSingleNode id, state.2)

def CDPHyperGraph.JoinedBy (graph : CDPHyperGraph) (A B : CBitSet) (edgeId : ℕ) : Prop :=
  ∃ edge ∈ graph.edges, edge.edgeId = edgeId ∧ edge.left ⊆ A ∧ edge.right ⊆ B

/-- Every edge id that joins the subgraph of the call to a complement above its lowest node does
so with an edge to a single node, or to nodes of which the full neighborhood has the lowest. -/
def Call.Anchored (graph : CDPHyperGraph) (call : Call) : Prop :=
  ∀ ⦃complement edgeId⦄, graph.ConFrom (call.lowestNode + 1) complement →
    Disjoint call.subgraph complement → graph.JoinedBy call.subgraph complement edgeId →
      ∃ edge ∈ graph.edges, edge.edgeId = edgeId ∧ edge.left ⊆ call.subgraph ∧
        edge.right ⊆ complement ∧
        (edge.right.card = 1 ∨ lowestBit graph.nodeCount edge.right ∈ call.full)

variable {graph : CDPHyperGraph} {call : Call} {complement : CBitSet} {edgeId : ℕ}

theorem Call.Valid.report (valid : call.Valid graph) (anchored : call.Anchored graph)
    (above : graph.ConFrom (call.lowestNode + 1) complement)
    (disjoint : Disjoint call.subgraph complement)
    (joined : graph.JoinedBy call.subgraph complement edgeId) :
    Report graph call.subgraph call.full complement edgeId := by
  obtain ⟨edge, member, id, near, far, single | known⟩ := anchored above disjoint joined
  · obtain ⟨node, right⟩ := Finset.card_eq_one.mp single
    have inside : node ∈ complement := far (right ▸ Finset.mem_singleton_self node)
    have bound := Finset.mem_range.mp (above.1.subset inside)
    refine ⟨edge, member, id, near, far, .inr ?_⟩
    rw [right, lowestBit_singleton bound]
    exact valid.singles ⟨edge, member, rfl, right⟩ near (Finset.disjoint_right.mp disjoint inside)
      (above.2 node inside)
  · exact ⟨edge, member, id, near, far, .inr known⟩

theorem Report.anchored (wf : graph.WellFormed)
    (report : Report graph call.subgraph call.full complement edgeId) :
    ∃ edge ∈ graph.edges, edge.edgeId = edgeId ∧ edge.left ⊆ call.subgraph ∧
      edge.right ⊆ complement ∧
      (edge.right.card = 1 ∨ lowestBit graph.nodeCount edge.right ∈ call.full) := by
  obtain ⟨edge, member, id, near, far, single | known⟩ := report
  · refine ⟨edge, member, id, near, far, .inl (Nat.le_antisymm ?_ ?_)⟩
    · exact single ▸ Finset.card_le_card far
    · exact (wf.sides edge member).2.1.card_pos
  · exact ⟨edge, member, id, near, far, .inr known⟩

/-- The plan lists all that joins `A` to complements above `v`. -/
def Done (graph : CDPHyperGraph) (v : ℕ) (plan : CDPHyperPlan) (A : CBitSet) : Prop :=
  ∀ ⦃B edgeId⦄, graph.ConFrom (v + 1) B → Disjoint A B → graph.JoinedBy A B edgeId →
    plan.Lists A B edgeId

/-- The state while the sets with the lowest node `v` are tested. -/
structure Ready (graph : CDPHyperGraph) (v : ℕ) (s : Logged) : Prop where
  sound : Sound graph v s.1
  root : s.1.HasSeen {v}
  later : (∀ call ∈ s.2, call.Anchored graph) → ∀ {B}, graph.ConFrom (v + 1) B → s.1.HasSeen B

structure Tested (graph : CDPHyperGraph) (v : ℕ) (X : Set CBitSet) (s t : Logged) : Prop where
  seen : ∀ {A}, s.1.HasSeen A → t.1.HasSeen A
  lists : ∀ {A B e}, s.1.Lists A B e → t.1.Lists A B e
  logged : ∀ call ∈ s.2, call ∈ t.2
  frame : ∀ {A B e}, t.1.Lists A B e → s.1.Lists A B e ∨ (v ∈ A ∧ A ∈ X) ∨ (v ∈ B ∧ B ∈ X)
  explained : ∀ call ∈ t.2, call ∈ s.2 ∨ (call.lowestNode = v ∧ v ∈ call.subgraph ∧
    call.subgraph ∈ X ∧ ∀ {B e}, Disjoint call.subgraph B → t.1.Lists call.subgraph B e →
      s.1.Lists call.subgraph B e ∨ Report graph call.subgraph call.full B e)
  complete : (∀ call ∈ t.2, call.Anchored graph) → ∀ A ∈ X, graph.ConFrom v A →
    (∀ A', A' ⊂ A → graph.Con A' → v ∈ A' → A' ∉ X → Done graph v s.1 A') → Done graph v t.1 A

section Rule
variable {graph : CDPHyperGraph} {v : ℕ} {X Y : Set CBitSet} {s t u : Logged} {A : CBitSet}
  {p : CDPHyperPlan}

theorem Before.not_mem (before : Before X Y) (inX : A ∈ X) : A ∉ Y :=
  fun inY => before A inX A inY (Finset.Subset.refl A)

theorem Done.mono {q : CDPHyperPlan} (lists : ∀ {A B e}, p.Lists A B e → q.Lists A B e)
    (done : Done graph v p A) : Done graph v q A :=
  fun _ _ above disjoint joined => lists (done above disjoint joined)

theorem Tested.refl (s : Logged) : Tested graph v ∅ s s where
  seen := id
  lists := id
  logged := fun _ member => member
  frame := .inl
  explained := fun _ member => .inl member
  complete := fun _ _ member => absurd member (Set.notMem_empty _)

theorem Tested.frame_left {B : CBitSet} {e : ℕ} (tested : Tested graph v X s t) (member : v ∈ A)
    (disjoint : Disjoint A B) (lists : t.1.Lists A B e) : s.1.Lists A B e ∨ A ∈ X := by
  rcases tested.frame lists with old | ⟨-, inX⟩ | ⟨inB, -⟩
  · exact .inl old
  · exact .inr inX
  · exact absurd inB (Finset.disjoint_left.mp disjoint member)

theorem Tested.seq (before : Before X Y) (first : Tested graph v X s t)
    (second : Tested graph v Y t u) : Tested graph v (X ∪ Y) s u where
  seen := fun old => second.seen (first.seen old)
  lists := fun old => second.lists (first.lists old)
  logged := fun call member => second.logged call (first.logged call member)
  frame := by
    intro A B e lists
    rcases second.frame lists with mid | ⟨inA, inY⟩ | ⟨inB, inY⟩
    · rcases first.frame mid with old | ⟨inA, inX⟩ | ⟨inB, inX⟩
      · exact .inl old
      · exact .inr (.inl ⟨inA, .inl inX⟩)
      · exact .inr (.inr ⟨inB, .inl inX⟩)
    · exact .inr (.inl ⟨inA, .inr inY⟩)
    · exact .inr (.inr ⟨inB, .inr inY⟩)
  explained := by
    intro call member
    rcases second.explained call member with mid | ⟨lowest, inside, inY, explains⟩
    · rcases first.explained call mid with old | ⟨lowest, inside, inX, explains⟩
      · exact .inl old
      · refine .inr ⟨lowest, inside, .inl inX, fun disjoint lists => ?_⟩
        exact explains disjoint ((second.frame_left inside disjoint lists).resolve_right
          (before.not_mem inX))
    · refine .inr ⟨lowest, inside, .inr inY, fun disjoint lists => ?_⟩
      rcases explains disjoint lists with mid | report
      · exact .inl ((first.frame_left inside disjoint mid).resolve_right
          (fun inX => before.not_mem inX inY))
      · exact .inr report
  complete := by
    intro anchored A member within smaller
    have anchoredT := fun call (inT : call ∈ t.2) => anchored call (second.logged call inT)
    -- a set of `X` is completed by the first part: no subset of it is in `Y`
    have completes : ∀ A' ∈ X, A' ⊆ A → graph.ConFrom v A' → Done graph v t.1 A' := by
      intro A' inX inside within'
      refine first.complete anchoredT A' inX within' (fun A'' proper con root notX => ?_)
      refine smaller A'' (lt_of_lt_of_le proper inside) con root ?_
      rintro (inX' | inY)
      · exact notX inX'
      · exact before A' inX A'' inY proper.subset
    rcases member with inX | inY
    · exact (completes A inX (Finset.Subset.refl A) within).mono second.lists
    · refine second.complete anchored A inY within (fun A' proper con root notY => ?_)
      by_cases inX : A' ∈ X
      · exact completes A' inX proper.subset
          ⟨con, fun node inA' => within.2 node (proper.subset inA')⟩
      · exact (smaller A' proper con root (fun either => either.elim inX notY)).mono first.lists

variable (wf : graph.WellFormed)

include wf

theorem hasSeen_of_parts (sound : Sound graph v p) (root : p.HasSeen {v})
    (within : graph.ConFrom v A) (member : v ∈ A)
    (parts : ∀ A', A' ⊂ A → graph.Con A' → v ∈ A' → Done graph v p A') : p.HasSeen A := by
  rcases within.1.cases_of_mem wf.leads_symm member with
    rfl | ⟨B, C, u, w, conB, conC, disjoint, ⟨edge, inEdges, rfl, rfl⟩, near, far, inB, rfl⟩
  · exact root
  · have proper : B ⊂ B ∪ C := by
      refine Finset.ssubset_iff_subset_ne.mpr ⟨Finset.subset_union_left, fun same => ?_⟩
      obtain ⟨node, inC⟩ := conC.nonempty
      exact Finset.disjoint_right.mp disjoint inC (same ▸ Finset.mem_union_right B inC)
    have above : graph.ConFrom (v + 1) C := by
      refine ⟨conC, fun node inC => ?_⟩
      have atLeast := within.2 node (Finset.mem_union_right B inC)
      have other : node ≠ v := by
        rintro rfl
        exact Finset.disjoint_left.mp disjoint inB inC
      omega
    exact sound.hasSeen_of_lists
      (parts B proper conB inB above disjoint ⟨edge, inEdges, rfl, near, far⟩)

theorem Tested.skip (ready : Ready graph v s) (member : v ∈ A) (unseen : ¬ s.1.HasSeen A) :
    Tested graph v {B | B = A ∧ graph.Con B} s s where
  seen := id
  lists := id
  logged := fun _ member => member
  frame := .inl
  explained := fun _ member => .inl member
  complete := by
    rintro - B ⟨rfl, -⟩ within smaller
    refine absurd (hasSeen_of_parts wf ready.sound ready.root within member ?_) unseen
    intro A' proper con root
    exact smaller A' proper con root (fun same => proper.ne same.1)

theorem Ready.visit (ready : Ready graph v s) {call : Call} (valid : call.Valid graph)
    (lowest : call.lowestNode = v) (seen : s.1.HasSeen call.subgraph) :
    ∃ t, logComplements graph v call.subgraph call.full call.inputNeighborhood s = (t, false) ∧
      Ready graph v t ∧ Tested graph v {B | B = call.subgraph ∧ graph.Con B} s t := by
  subst lowest
  have con := (ready.sound.seen seen).1
  obtain ⟨q, run, adds, lists⟩ := enumerateComplements_adds wf valid con ready.sound
  have newCall : ∀ other ∈ s.2 ++ [call], other ∈ s.2 ∨ other = call := fun other member =>
    (List.mem_append.mp member).imp_right List.mem_singleton.mp
  refine ⟨(q, s.2 ++ [call]), ?_, ⟨adds.sound, adds.seen ready.root, ?_⟩, ?_⟩
  · unfold logComplements
    simp only [run]
  · intro anchored B above
    exact adds.seen (ready.later (fun other old =>
      anchored other (List.mem_append_left _ old)) above)
  constructor
  · exact adds.seen
  · exact adds.lists
  · exact fun other old => List.mem_append_left _ old
  · intro A B e listed
    rcases adds.new listed with old | ⟨complement, ⟨rfl, -⟩ | ⟨-, rfl⟩, -⟩
    · exact .inl old
    · exact .inr (.inl ⟨valid.start, rfl, con⟩)
    · exact .inr (.inr ⟨valid.start, rfl, con⟩)
  · intro other member
    rcases newCall other member with old | rfl
    · exact .inl old
    · refine .inr ⟨rfl, valid.start, ⟨rfl, con⟩, fun {B e} disjoint listed => ?_⟩
      rcases adds.new listed with old | ⟨complement, ⟨-, rfl⟩ | ⟨-, rfl⟩, report⟩
      · exact .inl old
      · exact .inr report
      · exact absurd valid.start (Finset.disjoint_left.mp disjoint valid.start)
  · rintro anchored A ⟨rfl, -⟩ - - B e above disjoint joined
    have seenB := ready.later (fun other old => anchored other (List.mem_append_left _ old)) above
    exact lists above.1 disjoint above.2 seenB (valid.report
      (anchored call (List.mem_append_right _ (List.mem_singleton_self call))) above disjoint joined)

theorem tested_rule :
    RunRule graph (fun (s : Logged) nodes => s.1.HasSeen nodes) (logComplements graph) v
      (Ready graph v) (Tested graph v) where
  refl := .refl
  seq := .seq
  skip := fun ready member unseen => .skip wf ready member (by simpa using unseen)
  visit := fun ready valid lowest seen => ready.visit wf valid lowest (by simpa using seen)

end Rule

end DPHyper
