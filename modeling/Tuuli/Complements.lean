import Mathlib.Data.Finset.Max
import Tuuli.Growth

/-!
What a report adds to a plan without filter and budget, and the seeds that the
complements of a subgraph grow from.
-/
namespace DPHyper
open AbortLoop HyperConnect

/-- A plan without filter and budget that has seen constructible sets from `v` on only. -/
structure Sound (graph : CDPHyperGraph) (v : ℕ) (plan : CDPHyperPlan) : Prop where
  budget : plan.pairBudget = none
  unfiltered : plan.pairFilter = noFilter
  notExhausted : plan.budgetExhausted = false
  seen : ∀ {nodes}, plan.HasSeen nodes → graph.ConFrom v nodes
  joined : ∀ pair ∈ plan.pairs, plan.HasSeen pair.joined

variable {graph : CDPHyperGraph} {v : ℕ}

theorem Sound.hasSeen_of_lists {plan : CDPHyperPlan} (sound : Sound graph v plan) {a b : CBitSet}
    {e : ℕ} (lists : plan.Lists a b e) : plan.HasSeen (a ∪ b) := by
  obtain ⟨pair, member, joins, -⟩ := lists
  rw [← joins.joined_eq]
  exact sound.joined pair member

/-- The edge `edgeId` joins `subgraph` to `complement` and the call can find it there. -/
def Report (graph : CDPHyperGraph) (subgraph full complement : CBitSet) (edgeId : ℕ) : Prop :=
  ∃ edge ∈ graph.edges, edge.edgeId = edgeId ∧ edge.left ⊆ subgraph ∧ edge.right ⊆ complement ∧
    (complement.card = 1 ∨ lowestBit graph.nodeCount edge.right ∈ full)

structure Joinable (graph : CDPHyperGraph) (v : ℕ) (subgraph complement : CBitSet) : Prop where
  conSubgraph : graph.ConFrom v subgraph
  conComplement : graph.ConFrom v complement
  disjoint : Disjoint subgraph complement

theorem Report.con {subgraph full complement : CBitSet} {edgeId : ℕ}
    (report : Report graph subgraph full complement edgeId)
    (joinable : Joinable graph v subgraph complement) :
    graph.ConFrom v (subgraph ∪ complement) := by
  obtain ⟨edge, member, -, near, far, -⟩ := report
  refine ⟨.join joinable.conSubgraph.1 joinable.conComplement.1 joinable.disjoint
    ⟨edge, member, rfl, rfl⟩ near far, ?_⟩
  intro node either
  rcases Finset.mem_union.mp either with inSubgraph | inComplement
  · exact joinable.conSubgraph.2 node inSubgraph
  · exact joinable.conComplement.2 node inComplement

structure Adds (graph : CDPHyperGraph) (v : ℕ) (subgraph full : CBitSet) (p q : CDPHyperPlan) :
    Prop where
  sound : Sound graph v q
  seen : ∀ {nodes}, p.HasSeen nodes → q.HasSeen nodes
  lists : ∀ {a b e}, p.Lists a b e → q.Lists a b e
  new : ∀ {a b e}, q.Lists a b e → p.Lists a b e ∨ ∃ complement,
    ((a = subgraph ∧ b = complement) ∨ (a = complement ∧ b = subgraph)) ∧
      Report graph subgraph full complement e

section Reports
variable {graph : CDPHyperGraph} {v : ℕ} {subgraph full complement : CBitSet} {p q r : CDPHyperPlan}

theorem Adds.refl (sound : Sound graph v p) : Adds graph v subgraph full p p :=
  ⟨sound, id, id, .inl⟩

theorem Adds.trans (first : Adds graph v subgraph full p q)
    (second : Adds graph v subgraph full q r) : Adds graph v subgraph full p r := by
  refine ⟨second.sound, fun seen => second.seen (first.seen seen),
    fun lists => second.lists (first.lists lists), ?_⟩
  intro a b e lists
  rcases second.new lists with before | added
  · exact first.new before
  · exact .inr added

theorem Sound.found (sound : Sound graph v p) (joinable : Joinable graph v subgraph complement)
    {edgeId : ℕ} (report : Report graph subgraph full complement edgeId) :
    (p.foundSubgraphPair subgraph complement edgeId).2 = false ∧
      Adds graph v subgraph full p (p.foundSubgraphPair subgraph complement edgeId).1 ∧
      (p.foundSubgraphPair subgraph complement edgeId).1.Lists subgraph complement edgeId := by
  have passes : p.pairFilter subgraph complement edgeId = true := by
    rw [sound.unfiltered]
    rfl
  have room : p.pairBudgetReached = false := by
    rw [CDPHyperPlan.pairBudgetReached, sound.budget]
  have continues : (p.foundSubgraphPair subgraph complement edgeId).2 = false := by
    unfold CDPHyperPlan.foundSubgraphPair
    rw [if_neg (by simp [passes]), if_neg (c := p.pairBudgetReached = true) (by simp [room])]
    split <;> rfl
  have lists := CDPHyperPlan.foundSubgraphPair_lists passes continues
  -- a known pair was seen before; a new one is recorded
  have fields : (p.foundSubgraphPair subgraph complement edgeId).1.pairBudget = none ∧
      (p.foundSubgraphPair subgraph complement edgeId).1.budgetExhausted = false ∧
      (∀ {nodes}, (p.foundSubgraphPair subgraph complement edgeId).1.HasSeen nodes ↔
        p.HasSeen nodes ∨ nodes = subgraph ∪ complement) ∧
      ∀ pair ∈ (p.foundSubgraphPair subgraph complement edgeId).1.pairs,
        pair.joined = subgraph ∪ complement ∨ ∃ old ∈ p.pairs, pair.joined = old.joined := by
    unfold CDPHyperPlan.foundSubgraphPair
    rw [if_neg (by simp [passes]), if_neg (c := p.pairBudgetReached = true) (by simp [room])]
    split
    · rename_i known
      refine ⟨sound.budget, sound.notExhausted, ?_, ?_⟩
      · intro nodes
        constructor
        · exact .inl
        · rintro (old | rfl)
          · exact old
          · obtain ⟨pair, member, joins⟩ := known
            rw [← joins.joined_eq]
            exact sound.joined pair member
      · intro pair member
        rcases mem_addEdgeToPair member with old | ⟨old, inPairs, joins, rfl⟩
        · exact .inr ⟨pair, old, rfl⟩
        · exact .inr ⟨old, inPairs, by simp [SPair.joined]⟩
    · refine ⟨by simpa using sound.budget, by simpa using sound.notExhausted, ?_, ?_⟩
      · intro nodes
        exact CDPHyperPlan.hasSeen_recordSeen
      · intro pair member
        rw [CDPHyperPlan.recordSeen_pairs] at member
        rcases List.mem_append.mp member with old | new
        · exact .inr ⟨pair, old, rfl⟩
        · rw [List.mem_singleton.mp new]
          exact .inl rfl
  obtain ⟨budget, notExhausted, seen, pairs⟩ := fields
  refine ⟨continues, ⟨⟨budget, ?_, notExhausted, ?_, ?_⟩, ?_, ?_, ?_⟩, lists⟩
  · rw [CDPHyperPlan.foundSubgraphPair_pairFilter, sound.unfiltered]
  · intro nodes present
    rcases seen.mp present with old | rfl
    · exact sound.seen old
    · exact report.con joinable
  · intro pair member
    rcases pairs pair member with new | ⟨old, inPairs, same⟩
    · exact seen.mpr (.inr new)
    · rw [same]
      exact seen.mpr (.inl (sound.joined old inPairs))
  · exact fun old => seen.mpr (.inl old)
  · exact fun old => old.foundSubgraphPair
  · intro a b e listed
    rcases CDPHyperPlan.lists_of_foundSubgraphPair listed with old | ⟨rfl, either⟩
    · exact .inl old
    · exact .inr ⟨complement, either, report⟩

end Reports

section Connecting
variable {graph : CDPHyperGraph} {v : ℕ} {subgraph full complement : CBitSet} {p : CDPHyperPlan}
  {edge : SEdge}

theorem lowestBit_singleton {nodeCount node : ℕ} (bound : node < nodeCount) :
    lowestBit nodeCount {node} = node :=
  Finset.mem_singleton.mp (lowestBit_mem (Finset.singleton_nonempty node)
    (Finset.singleton_subset_iff.mpr (Finset.mem_range.mpr bound)))

theorem subset_of_simple_meets {set : CBitSet} (single : edge.right.card = 1)
    (meets : ¬ Disjoint edge.right set) : edge.right ⊆ set := by
  obtain ⟨node, same⟩ := Finset.card_eq_one.mp single
  rw [same, Finset.disjoint_singleton_left, not_not] at meets
  rwa [same, Finset.singleton_subset_iff]

theorem simple_at (wf : graph.WellFormed) (member : edge ∈ graph.edges) (single : edge.Simple)
    {id : ℕ} (inLeft : id ∈ edge.left) (near : edge.right ⊆ subgraph) :
    edge ∈ graph.simpleEdgesAt id ∧ ¬ Disjoint (graph.simpleNeighborhoodAt id) subgraph ∧
      ¬ Disjoint edge.right subgraph := by
  have here := (CDPHyperGraph.mem_iff_eq_singleton single.1).mp inLeft
  obtain ⟨node, right⟩ := Finset.card_eq_one.mp single.2
  rw [right, Finset.singleton_subset_iff] at near
  refine ⟨wf.mem_simpleEdgesAt.mpr ⟨member, here, single⟩, ?_, ?_⟩
  · exact Finset.not_disjoint_iff.mpr
      ⟨node, wf.mem_simpleNeighborhoodAt.mpr ⟨edge, member, here, right⟩, near⟩
  · rw [right, Finset.disjoint_singleton_left, not_not]
    exact near

end Connecting

section Seeds
variable {graph : CDPHyperGraph} {v : ℕ} {subgraph full : CBitSet}

def seedForbidden (lowestNode : ℕ) (subgraph neighborhood : CBitSet) (seed : ℕ) : CBitSet :=
  Finset.range lowestNode ∪ subgraph ∪ (Finset.range seed ∩ neighborhood)

def SeedCache (seeds : List ℕ) (cache : CNeighborhoodCache) : Prop :=
  seeds.Nodup ∧ (cache.initialized = true → ∃ seed, seed ∉ seeds ∧ cache.lastGrown = {seed})

variable {seed : ℕ} {rest : List ℕ} {cache : CNeighborhoodCache}

theorem SeedCache.unused (fresh : SeedCache (seed :: rest) cache) :
    ¬ (cache.initialized = true ∧ cache.lastGrown ⊆ {seed}) := by
  rintro ⟨started, inside⟩
  obtain ⟨done, outside, grown⟩ := fresh.2 started
  rw [grown, Finset.singleton_subset_singleton] at inside
  exact outside (inside ▸ List.mem_cons_self)

theorem SeedCache.next {forbidden : CBitSet} (fresh : SeedCache (seed :: rest) cache) :
    SeedCache rest (pbsNeighborhood graph {seed} forbidden {seed} cache full).cache := by
  obtain ⟨notRest, nodup⟩ := List.nodup_cons.mp fresh.1
  refine ⟨nodup, ?_⟩
  rw [pbsNeighborhood_cache]
  unfold CNeighborhoodCache.store
  split
  · intro started
    obtain ⟨done, outside, grown⟩ := fresh.2 started
    exact ⟨done, fun inRest => outside (List.mem_cons_of_mem seed inRest), grown⟩
  · exact fun _ => ⟨seed, notRest, rfl⟩

theorem exists_seed (wf : graph.WellFormed) {call : Call} (valid : call.Valid graph) {B : CBitSet}
    (con : graph.Con B) (away : Disjoint call.subgraph B)
    (above : ∀ node ∈ B, call.lowestNode < node) {edge : SEdge} (member : edge ∈ graph.edges)
    (far : edge.left ⊆ B) (near : edge.right ⊆ call.subgraph) :
    ∃ seed ∈ bits graph.nodeCount (call.inputNeighborhood \ call.subgraph), B = {seed} ∨
      B ∈ Region graph {seed} (seedForbidden call.lowestNode call.subgraph
        (call.inputNeighborhood \ call.subgraph) seed) := by
  have meets : (B ∩ (call.inputNeighborhood \ call.subgraph)).Nonempty := by
    obtain ⟨node, inRight, neighbor⟩ := Finset.not_disjoint_iff.mp (valid.meets
      ⟨edge.reverse, wf.reverse_mem member, rfl, rfl⟩ near
      (Finset.disjoint_of_subset_left far away.symm) (fun node inRight => above node (far inRight)))
    exact ⟨node, Finset.mem_inter.mpr ⟨far inRight, Finset.mem_sdiff.mpr ⟨neighbor,
      Finset.disjoint_right.mp away (far inRight)⟩⟩⟩
  obtain ⟨seed, inMeet, least⟩ := Finset.exists_min_image _ (fun node => node) meets
  obtain ⟨inB, neighbor⟩ := Finset.mem_inter.mp inMeet
  refine ⟨seed, mem_bits.mpr ⟨Finset.mem_range.mp (con.subset inB), neighbor⟩, ?_⟩
  by_cases single : B = {seed}
  · exact .inl single
  · have grows : {seed} ⊂ B := Finset.ssubset_iff_subset_ne.mpr
      ⟨Finset.singleton_subset_iff.mpr inB, Ne.symm single⟩
    refine .inr ⟨con, grows, ?_⟩
    intro node both
    obtain ⟨inside, banned⟩ := Finset.mem_inter.mp both
    simp only [seedForbidden, Finset.mem_union, Finset.mem_inter, Finset.mem_range] at banned
    rcases banned with (low | inSubgraph) | ⟨earlier, inNeighborhood⟩
    · have := above node inside
      omega
    · exact absurd inside (Finset.disjoint_left.mp away inSubgraph)
    · have := least node (Finset.mem_inter.mpr ⟨inside, inNeighborhood⟩)
      omega

end Seeds

end DPHyper
