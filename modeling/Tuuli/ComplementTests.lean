import Tuuli.AttachOrder
import Tuuli.Complements

/-!
`EnumerateComplements` as a list of tests fixed by its arguments: each test names
a complement and the directed edges it would report, and runs when the receiver
has seen the complement. No complement is tested twice, and every set that
grows from a seed is.
-/
namespace DPHyper
open AbortLoop HyperConnect

/-- A complement with the directed edges, by index, that lead from it into the subgraph. -/
structure Test where
  complement : CBitSet
  indices : List ℕ
  gated : Bool

section Tests
variable (graph : CDPHyperGraph)

/-- The edges that `connectAt` reports at the node `id`. -/
def connectIndices (subgraph : CBitSet) (id : ℕ) (simpleJoins complexJoins : SEdge → Bool) :
    List ℕ :=
  (if Disjoint (graph.simpleNeighborhoodAt id) subgraph then []
    else (graph.simpleIndicesAt id).filter (fun index => (graph.edges[index]?).any simpleJoins)) ++
  (graph.complexIndicesAt id).filter (fun index => (graph.edges[index]?).any complexJoins)

def nodeIndices (subgraph complement : CBitSet) (id : ℕ) : List ℕ :=
  connectIndices graph subgraph id
    (fun edge => ¬ Disjoint edge.right subgraph ∧ ¬ Disjoint edge.left complement)
    (fun edge => id = lowestBit graph.nodeCount edge.left ∧ edge.left ⊆ complement ∧
      edge.right ⊆ subgraph)

def tryIndices (subgraph full complement : CBitSet) : List ℕ :=
  (bits graph.nodeCount (complement ∩ full)).flatMap (nodeIndices graph subgraph complement)

def seedIndices (subgraph : CBitSet) (seed : ℕ) : List ℕ :=
  connectIndices graph subgraph seed (fun edge => ¬ Disjoint edge.right subgraph)
    (fun edge => edge.left = {seed} ∧ edge.right ⊆ subgraph)

/-- The tests of `ExpandComplement`. -/
def expandTests (subgraph full : CBitSet) : ℕ → CBitSet → CBitSet → CBitSet → List Test
  | 0, _, _, _ => []
  | fuel + 1, complement, neighborhood, forbidden =>
    let subsets := subsetsOf graph.nodeCount neighborhood
    subsets.map (fun growBy =>
      ⟨complement ∪ growBy, tryIndices graph subgraph full (complement ∪ growBy), true⟩) ++
    gather (fun growBy cache =>
        expandTests subgraph full fuel (complement ∪ growBy)
          (pbsNeighborhood graph (complement ∪ growBy)
            ((forbidden ∪ neighborhood) \ (complement ∪ growBy)) growBy cache ∅).nodes
          ((forbidden ∪ neighborhood) \ (complement ∪ growBy)))
      (fun growBy cache => (pbsNeighborhood graph (complement ∪ growBy)
        ((forbidden ∪ neighborhood) \ (complement ∪ growBy)) growBy cache ∅).cache)
      subsets (.init graph.nodeCount neighborhood)

/-- The tests of one seed of `EnumerateComplements`. -/
def seedTests (subgraph full forbidden : CBitSet) (seed : ℕ) (cache : CNeighborhoodCache) :
    List Test :=
  ⟨{seed}, seedIndices graph subgraph seed, false⟩ ::
    expandTests graph subgraph full graph.nodeCount {seed}
      (pbsNeighborhood graph {seed} forbidden {seed} cache ∅).nodes forbidden

/-- The tests of `EnumerateComplements`. -/
def complementTests (call : Call) : List Test :=
  gather (fun seed cache => seedTests graph call.subgraph call.full
      (seedForbidden call.lowestNode call.subgraph (call.inputNeighborhood \ call.subgraph) seed)
      seed cache)
    (fun seed cache => (pbsNeighborhood graph {seed}
      (seedForbidden call.lowestNode call.subgraph (call.inputNeighborhood \ call.subgraph) seed)
      {seed} cache ∅).cache)
    (bits graph.nodeCount (call.inputNeighborhood \ call.subgraph)).reverse
    (.init graph.nodeCount (call.inputNeighborhood \ call.subgraph))

end Tests

def IDPHyperReceiver.runTest {σ : Type} (receiver : IDPHyperReceiver σ) (subgraph : CBitSet) (test : Test)
    (state : σ) : σ × Bool :=
  if test.gated = true ∧ receiver.hasSeen state test.complement = false then (state, false)
  else untilAbort (receiver.foundSubgraphPair subgraph test.complement) test.indices state

namespace IDPHyperReceiver

variable {σ : Type} {receiver : IDPHyperReceiver σ} {graph : CDPHyperGraph}
  {subgraph full complement : CBitSet}

theorem reportEdges_filter (joins : SEdge → Bool) (indices : List ℕ) (state : σ) :
    receiver.reportEdges graph subgraph complement joins indices state
      = untilAbort (receiver.foundSubgraphPair subgraph complement)
        (indices.filter (fun index => (graph.edges[index]?).any joins)) state := by
  unfold reportEdges
  induction indices generalizing state with
  | nil => rfl
  | cons index rest ih =>
    cases found : graph.edges[index]? with
    | none =>
      rw [untilAbort_cons (by simp [found]), List.filter_cons_of_neg (by simp [found])]
      simpa [found] using ih state
    | some edge =>
      cases holds : joins edge with
      | false =>
        rw [List.filter_cons_of_neg (by simp [found, holds]),
          untilAbort_cons (by simp [found, holds])]
        simpa [found, holds] using ih state
      | true =>
        rw [List.filter_cons_of_pos (by simp [found, holds])]
        simp only [untilAbort, found, holds, if_true, ih]

theorem connectAt_indices (id : ℕ) (simpleJoins complexJoins : SEdge → Bool) (state : σ) :
    receiver.connectAt graph subgraph complement id simpleJoins complexJoins state
      = untilAbort (receiver.foundSubgraphPair subgraph complement)
        (connectIndices graph subgraph id simpleJoins complexJoins) state := by
  unfold connectAt connectIndices
  rw [untilAbort_append]
  simp only [reportEdges_filter]
  by_cases away : Disjoint (graph.simpleNeighborhoodAt id) subgraph
  · simp only [if_pos away, untilAbort]
  · simp only [if_neg away]

theorem tryConnecting_indices (state : σ) :
    receiver.tryConnecting graph subgraph full complement state
      = untilAbort (receiver.foundSubgraphPair subgraph complement)
        (tryIndices graph subgraph full complement) state := by
  unfold tryConnecting tryIndices
  refine untilAbort_flatMap (f := receiver.connectNode graph subgraph complement)
    (fun id _ state => ?_) state
  exact connectAt_indices id _ _ state

theorem expandComplement_tests (fuel : ℕ) (C N F : CBitSet) (state : σ) :
    receiver.expandComplement graph subgraph full fuel C N F state
      = untilAbort (receiver.runTest subgraph) (expandTests graph subgraph full fuel C N F)
        state := by
  induction fuel generalizing C N F state with
  | zero => rfl
  | succ fuel ih =>
    have tests : ∀ (subsets : List CBitSet) (state : σ),
        untilAbort (fun growBy (state : σ) => if receiver.hasSeen state (C ∪ growBy) then
          receiver.tryConnecting graph subgraph full (C ∪ growBy) state else (state, false))
          subsets state
        = untilAbort (receiver.runTest subgraph) (subsets.map (fun growBy =>
          ⟨C ∪ growBy, tryIndices graph subgraph full (C ∪ growBy), true⟩)) state := by
      intro subsets state
      induction subsets generalizing state with
      | nil => rfl
      | cons growBy rest ihl =>
        have one : (if receiver.hasSeen state (C ∪ growBy) then
            receiver.tryConnecting graph subgraph full (C ∪ growBy) state else (state, false))
            = receiver.runTest subgraph
              ⟨C ∪ growBy, tryIndices graph subgraph full (C ∪ growBy), true⟩ state := by
          rw [tryConnecting_indices]
          cases seen : receiver.hasSeen state (C ∪ growBy) <;> simp [runTest, seen]
        simp only [List.map_cons, untilAbort, one, ihl]
    unfold expandComplement expandTests
    rw [untilAbort_append, ← tests]
    simp only
    split
    · rfl
    · refine untilAbort_gather ?_ ?_ _ _
      · intro growBy state cache
        exact ih _ _ _ state
      · intro growBy state cache _
        rfl

theorem enumerateComplements_tests (call : Call) (state : σ) :
    receiver.enumerateComplements graph call.lowestNode call.subgraph call.full
        call.inputNeighborhood state
      = untilAbort (receiver.runTest call.subgraph) (complementTests graph call) state := by
  unfold enumerateComplements complementTests
  refine untilAbort_gather ?_ ?_ _ _
  · intro seed state cache
    have seeds : receiver.connectSeed graph call.subgraph seed state
        = receiver.runTest call.subgraph
          ⟨{seed}, seedIndices graph call.subgraph seed, false⟩ state := by
      simp only [runTest, Bool.false_eq_true, false_and, if_false]
      exact connectAt_indices seed _ _ state
    simp only [seedTests, untilAbort, seeds, expandComplement_tests, seedForbidden]
    split
    · rfl
    · rfl
  · intro seed state cache continues
    simp only at continues ⊢
    split at continues
    · simp at continues
    · rename_i running
      rw [if_neg running]
      rfl

end IDPHyperReceiver

section Indices
variable {graph : CDPHyperGraph} {subgraph full complement : CBitSet}

def LeadsInto (graph : CDPHyperGraph) (subgraph complement : CBitSet) (index : ℕ) : Prop :=
  ∃ edge, graph.edges[index]? = some edge ∧ edge.left ⊆ complement ∧ edge.right ⊆ subgraph

variable {id index seed : ℕ} {simpleJoins complexJoins : SEdge → Bool} {edge : SEdge}
  {order : List ℕ} (wf : graph.WellFormed)

include wf

theorem mem_simpleIndicesAt :
    index ∈ graph.simpleIndicesAt id ↔
      ∃ edge, graph.edges[index]? = some edge ∧ edge.left = {id} ∧ edge.Simple := by
  unfold CDPHyperGraph.simpleIndicesAt
  split
  next node found => exact wf.simple found
  next absent =>
    refine ⟨nofun, ?_⟩
    rintro ⟨edge, found, same, -⟩
    exact absurd (by simp [same]) (wf.notMem_of_absent absent (List.mem_of_getElem? found))

theorem mem_complexIndicesAt :
    index ∈ graph.complexIndicesAt id ↔
      ∃ edge, graph.edges[index]? = some edge ∧ id ∈ edge.left ∧ ¬ edge.Simple := by
  unfold CDPHyperGraph.complexIndicesAt
  split
  next node found => exact wf.complex found
  next absent =>
    refine ⟨nofun, ?_⟩
    rintro ⟨edge, found, inLeft, -⟩
    exact absurd inLeft (wf.notMem_of_absent absent (List.mem_of_getElem? found))

theorem mem_connectIndices
    (listed : index ∈ connectIndices graph subgraph id simpleJoins complexJoins) :
    ∃ edge, graph.edges[index]? = some edge ∧
      ((edge.left = {id} ∧ edge.Simple ∧ simpleJoins edge = true) ∨
        (id ∈ edge.left ∧ ¬ edge.Simple ∧ complexJoins edge = true)) := by
  rcases List.mem_append.mp listed with simple | complex
  · split at simple
    · simp at simple
    · obtain ⟨inNode, joins⟩ := List.mem_filter.mp simple
      obtain ⟨edge, found, left, single⟩ := (mem_simpleIndicesAt wf).mp inNode
      rw [found] at joins
      exact ⟨edge, found, .inl ⟨left, single, joins⟩⟩
  · obtain ⟨inNode, joins⟩ := List.mem_filter.mp complex
    obtain ⟨edge, found, left, larger⟩ := (mem_complexIndicesAt wf).mp inNode
    rw [found] at joins
    exact ⟨edge, found, .inr ⟨left, larger, joins⟩⟩

theorem mem_nodeIndices (bound : id < graph.nodeCount) (inside : id ∈ complement)
    (listed : index ∈ nodeIndices graph subgraph complement id) :
    ∃ edge, graph.edges[index]? = some edge ∧ edge.left ⊆ complement ∧ edge.right ⊆ subgraph ∧
      lowestBit graph.nodeCount edge.left = id := by
  obtain ⟨edge, found, ⟨left, single, joins⟩ | ⟨-, -, joins⟩⟩ := mem_connectIndices wf listed
  · rw [decide_eq_true_eq] at joins
    refine ⟨edge, found, ?_, subset_of_simple_meets single.2 joins.1, ?_⟩
    · rw [left, Finset.singleton_subset_iff]
      exact inside
    · rw [left, lowestBit_singleton bound]
  · rw [decide_eq_true_eq] at joins
    exact ⟨edge, found, joins.2.1, joins.2.2, joins.1.symm⟩

theorem leads_of_mem_tryIndices (listed : index ∈ tryIndices graph subgraph full complement) :
    ∃ edge, graph.edges[index]? = some edge ∧ edge.left ⊆ complement ∧ edge.right ⊆ subgraph ∧
      lowestBit graph.nodeCount edge.left ∈ full := by
  obtain ⟨id, inBits, inNode⟩ := List.mem_flatMap.mp listed
  obtain ⟨bound, both⟩ := mem_bits.mp inBits
  obtain ⟨inside, known⟩ := Finset.mem_inter.mp both
  obtain ⟨edge, found, far, near, rfl⟩ := mem_nodeIndices wf bound inside inNode
  exact ⟨edge, found, far, near, known⟩

theorem leadsInto_of_mem_seedIndices (listed : index ∈ seedIndices graph subgraph seed) :
    LeadsInto graph subgraph {seed} index := by
  obtain ⟨edge, found, ⟨left, single, joins⟩ | ⟨-, -, joins⟩⟩ := mem_connectIndices wf listed
  · rw [decide_eq_true_eq] at joins
    exact ⟨edge, found, left.subset, subset_of_simple_meets single.2 joins⟩
  · rw [decide_eq_true_eq] at joins
    exact ⟨edge, found, joins.1.subset, joins.2⟩

variable (found : graph.edges[index]? = some edge)

include found

theorem mem_connectIndices_of (inLeft : id ∈ edge.left) (near : edge.right ⊆ subgraph)
    (simple : ¬ Disjoint edge.right subgraph → simpleJoins edge = true)
    (complex : complexJoins edge = true) :
    index ∈ connectIndices graph subgraph id simpleJoins complexJoins := by
  have member := List.mem_of_getElem? found
  by_cases single : edge.Simple
  · obtain ⟨-, meets, meetsRight⟩ := simple_at wf member single inLeft near
    have here := (CDPHyperGraph.mem_iff_eq_singleton single.1).mp inLeft
    refine List.mem_append_left _ ?_
    rw [if_neg meets]
    exact List.mem_filter.mpr ⟨(mem_simpleIndicesAt wf).mpr ⟨edge, found, here, single⟩,
      by simpa [found] using simple meetsRight⟩
  · refine List.mem_append_right _ (List.mem_filter.mpr
      ⟨(mem_complexIndicesAt wf).mpr ⟨edge, found, inLeft, single⟩, ?_⟩)
    simpa [found] using complex

theorem mem_tryIndices_of (far : edge.left ⊆ complement) (near : edge.right ⊆ subgraph)
    (known : lowestBit graph.nodeCount edge.left ∈ full) :
    index ∈ tryIndices graph subgraph full complement := by
  obtain ⟨nonempty, -, -, bounded⟩ := wf.sides edge (List.mem_of_getElem? found)
  have inRange := Finset.Subset.trans Finset.subset_union_left bounded
  have inLeft := lowestBit_mem nonempty inRange
  refine List.mem_flatMap.mpr ⟨lowestBit graph.nodeCount edge.left, mem_bits.mpr
    ⟨Finset.mem_range.mp (inRange inLeft), Finset.mem_inter.mpr ⟨far inLeft, known⟩⟩, ?_⟩
  refine mem_connectIndices_of wf found inLeft near (fun meets => ?_) (by simp [far, near])
  rw [decide_eq_true_eq]
  exact ⟨meets, Finset.not_disjoint_iff.mpr ⟨_, inLeft, far inLeft⟩⟩

theorem mem_seedIndices_of (far : edge.left = {seed}) (near : edge.right ⊆ subgraph) :
    index ∈ seedIndices graph subgraph seed :=
  mem_connectIndices_of wf found (by simp [far]) near (fun meets => by simpa using meets)
    (by simp [far, near])

omit found

theorem connectIndices_nodup (arranged : graph.Arranged order) (once : order.Nodup) (id : ℕ)
    (simpleJoins complexJoins : SEdge → Bool) :
    (connectIndices graph subgraph id simpleJoins complexJoins).Nodup := by
  have follows : ∀ simple : Bool,
      (order.filterMap (CDPHyperGraph.direction simple graph.edges id)).Nodup := by
    intro simple
    refine once.filterMap ?_
    intro k k' index here there
    rw [← CDPHyperGraph.direction_div here, ← CDPHyperGraph.direction_div there]
  have simples : (graph.simpleIndicesAt id).Nodup := by
    unfold CDPHyperGraph.simpleIndicesAt
    split
    · rename_i node found
      rw [arranged.simple found]
      exact follows true
    · exact List.nodup_nil
  have complexes : (graph.complexIndicesAt id).Nodup := by
    unfold CDPHyperGraph.complexIndicesAt
    split
    · rename_i node found
      rw [arranged.complex found]
      exact follows false
    · exact List.nodup_nil
  unfold connectIndices
  rw [List.nodup_append]
  refine ⟨?_, complexes.filter _, ?_⟩
  · split
    · exact List.nodup_nil
    · exact simples.filter _
  · intro index simple other complex same
    subst same
    split at simple
    · simp at simple
    · obtain ⟨edge, found, -, single⟩ := (mem_simpleIndicesAt wf).mp
        (List.mem_filter.mp simple).1
      obtain ⟨edge', found', -, larger⟩ := (mem_complexIndicesAt wf).mp
        (List.mem_filter.mp complex).1
      rw [found, Option.some.injEq] at found'
      exact larger (found' ▸ single)

theorem tryIndices_nodup (arranged : graph.Arranged order) (once : order.Nodup) :
    (tryIndices graph subgraph full complement).Nodup := by
  unfold tryIndices
  rw [List.nodup_flatMap]
  refine ⟨fun id _ => connectIndices_nodup wf arranged once id _ _, ?_⟩
  refine (bits_nodup _ _).imp_of_mem ?_
  intro id id' listed listed' apart index inNode inNode'
  obtain ⟨bound, both⟩ := mem_bits.mp listed
  obtain ⟨bound', both'⟩ := mem_bits.mp listed'
  obtain ⟨edge, found, -, -, lowest⟩ :=
    mem_nodeIndices wf bound (Finset.mem_inter.mp both).1 inNode
  obtain ⟨edge', found', -, -, lowest'⟩ :=
    mem_nodeIndices wf bound' (Finset.mem_inter.mp both').1 inNode'
  rw [found, Option.some.injEq] at found'
  exact apart (by rw [← lowest, ← lowest', found'])

theorem LeadsInto.half_injective (apart : Disjoint subgraph complement) {i j : ℕ}
    (here : LeadsInto graph subgraph complement i) (there : LeadsInto graph subgraph complement j)
    (same : i / 2 = j / 2) : i = j := by
  -- the two directions of an edge would have one side in both sets
  have clash : ∀ k, LeadsInto graph subgraph complement (2 * k) →
      LeadsInto graph subgraph complement (2 * k + 1) → False := by
    rintro k ⟨edge, found, far, near⟩ ⟨edge', found', far', near'⟩
    rw [wf.paired found, Option.some.injEq] at found'
    subst found'
    obtain ⟨node, member⟩ := (wf.sides edge (List.mem_of_getElem? found)).1
    exact Finset.disjoint_left.mp apart (near' member) (far member)
  by_contra differ
  have cases : (i = 2 * (i / 2) ∧ j = 2 * (i / 2) + 1) ∨ (j = 2 * (i / 2) ∧ i = 2 * (i / 2) + 1) := by
    omega
  rcases cases with ⟨first, second⟩ | ⟨first, second⟩
  · rw [first] at here
    rw [second] at there
    exact clash _ here there
  · rw [second] at here
    rw [first] at there
    exact clash _ there here

end Indices

section Grown
variable {graph : CDPHyperGraph} {subgraph full C N F : CBitSet} (wf : graph.WellFormed)

include wf

theorem mem_expandTests (fuel : ℕ) {C N F : CBitSet} (expansion : Expansion graph C N F)
    {test : Test} (listed : test ∈ expandTests graph subgraph full fuel C N F) :
    C ⊂ test.complement ∧ test.complement ∩ F ⊆ C ∧
      test.complement ⊆ Finset.range graph.nodeCount ∧ test.gated = true ∧
      test.indices = tryIndices graph subgraph full test.complement := by
  induction fuel generalizing C N F with
  | zero => simp [expandTests] at listed
  | succ fuel ih =>
    rcases List.mem_append.mp listed with here | deeper
    · obtain ⟨G, inSubsets, rfl⟩ := List.mem_map.mp here
      obtain ⟨part, nonempty⟩ := (mem_subsetsOf expansion.inside).mp inSubsets
      have larger := card_grown part nonempty expansion.apart
      refine ⟨Finset.ssubset_iff_subset_ne.mpr ⟨Finset.subset_union_left, fun same => ?_⟩, ?_,
        Finset.union_subset expansion.bounded (Finset.Subset.trans part expansion.inside), rfl, rfl⟩
      · dsimp only at same
        rw [← same] at larger
        omega
      · intro node both
        obtain ⟨grown, banned⟩ := Finset.mem_inter.mp both
        rcases Finset.mem_union.mp grown with inC | inG
        · exact inC
        · exact absurd banned (Finset.disjoint_left.mp expansion.free (part inG))
    · obtain ⟨G, inSubsets, -, cache, fits, inParts⟩ := mem_gather
        (J := fun _ (cache : CNeighborhoodCache) => cache.Fits graph C N F)
        (fun G inSubsets _ cache fits => pbsNeighborhood_fits wf fits
          ((mem_subsetsOf expansion.inside).mp inSubsets).1 Finset.sdiff_subset)
        (CNeighborhoodCache.init_fits graph C N F N) deeper
      obtain ⟨part, -⟩ := (mem_subsetsOf expansion.inside).mp inSubsets
      obtain ⟨grows, permitted, rest⟩ := ih (expansion.step wf part fits) inParts
      refine ⟨lt_of_le_of_lt Finset.subset_union_left grows, ?_, rest⟩
      intro node both
      obtain ⟨inB, banned⟩ := Finset.mem_inter.mp both
      by_contra outside
      have notG : node ∉ G := fun inG =>
        Finset.disjoint_left.mp expansion.free (part inG) banned
      have inGrown := permitted (Finset.mem_inter.mpr ⟨inB, Finset.mem_sdiff.mpr
        ⟨Finset.mem_union_left _ banned, by simp [outside, notG]⟩⟩)
      simp [outside, notG] at inGrown

theorem expandTests_nodup (fuel : ℕ) {C N F : CBitSet} (expansion : Expansion graph C N F) :
    ((expandTests graph subgraph full fuel C N F).map Test.complement).Nodup := by
  induction fuel generalizing C N F with
  | zero => exact List.nodup_nil
  | succ fuel ih =>
    have parts : ∀ {G}, G ∈ subsetsOf graph.nodeCount N → G ⊆ N := fun listed =>
      ((mem_subsetsOf expansion.inside).mp listed).1
    have keeps : ∀ G ∈ subsetsOf graph.nodeCount N, ∀ (_ : List CBitSet)
        (cache : CNeighborhoodCache), cache.Fits graph C N F →
        (pbsNeighborhood graph (C ∪ G) ((F ∪ N) \ (C ∪ G)) G cache ∅).cache.Fits graph C N F :=
      fun G listed _ cache fits => pbsNeighborhood_fits wf fits (parts listed) Finset.sdiff_subset
    -- a set that grows from `C ∪ G` meets the neighborhood in `G`
    have grown : ∀ G ∈ subsetsOf graph.nodeCount N, ∀ (_ : List CBitSet)
        (cache : CNeighborhoodCache), cache.Fits graph C N F →
        ∀ test ∈ expandTests graph subgraph full fuel (C ∪ G)
          (pbsNeighborhood graph (C ∪ G) ((F ∪ N) \ (C ∪ G)) G cache ∅).nodes
          ((F ∪ N) \ (C ∪ G)), C ∪ G ⊂ test.complement ∧ test.complement ∩ N = G := by
      intro G listed _ cache fits test inTests
      obtain ⟨grows, permitted, -⟩ :=
        mem_expandTests wf fuel (expansion.step wf (parts listed) fits) inTests
      exact ⟨grows, inter_of_grown (parts listed) expansion.apart grows permitted⟩
    have distinct := subsetsOf_pairwise graph.nodeCount N
    rw [expandTests, List.map_append, List.nodup_append]
    refine ⟨?_, ?_, ?_⟩
    · rw [List.map_map]
      refine List.Nodup.map_on ?_ (distinct.imp (fun differ same => differ same.symm.subset))
      intro G inG H inH same
      simp only [Function.comp_apply] at same
      apply Finset.Subset.antisymm
      · exact subset_of_grown_subset (parts inG) expansion.apart same.subset
      · exact subset_of_grown_subset (parts inH) expansion.apart same.symm.subset
    · refine gather_nodup Test.complement
        (fun G complement => C ∪ G ⊂ complement ∧ complement ∩ N = G)
        (J := fun _ (cache : CNeighborhoodCache) => cache.Fits graph C N F) keeps
        (fun G listed _ cache fits => ih (expansion.step wf (parts listed) fits)) grown ?_
        (CNeighborhoodCache.init_fits graph C N F N)
      refine distinct.imp ?_
      rintro G H differ complement ⟨-, here⟩ ⟨-, there⟩
      exact differ (here ▸ there ▸ Finset.Subset.refl _)
    · intro complement here complement' there same
      subst same
      obtain ⟨test, first, rfl⟩ := List.mem_map.mp here
      obtain ⟨G, listed, rfl⟩ := List.mem_map.mp first
      obtain ⟨test', second, same⟩ := List.mem_map.mp there
      obtain ⟨H, listed', rest, cache, fits, inParts⟩ := mem_gather
        (J := fun _ (cache : CNeighborhoodCache) => cache.Fits graph C N F) keeps
        (CNeighborhoodCache.init_fits graph C N F N) second
      obtain ⟨grows, meets⟩ := grown H listed' rest cache fits test' inParts
      rw [same] at grows meets
      -- `C ∪ G` meets `N` in `G`, so it is `C ∪ H` and does not grow from it
      have equal : G = H := by
        rw [← meets, Finset.union_inter_distrib_right,
          Finset.disjoint_iff_inter_eq_empty.mp expansion.apart.symm, Finset.empty_union,
          Finset.inter_eq_left.mpr (parts listed)]
      exact grows.ne (equal ▸ rfl)

theorem exists_expandTest (fuel : ℕ) {C N F B : CBitSet} (expansion : Expansion graph C N F)
    (enough : graph.nodeCount < C.card + fuel) (inRegion : B ∈ Region graph C F) :
    ∃ test ∈ expandTests graph subgraph full fuel C N F, test.complement = B := by
  induction fuel generalizing C N F with
  | zero =>
    have size := Finset.card_le_card expansion.bounded
    rw [Finset.card_range] at size
    omega
  | succ fuel ih =>
    rw [region_eq wf expansion] at inRegion
    rcases inRegion with ⟨G, listed, rfl, -⟩ | ⟨G, listed, deeper⟩
    · exact ⟨_, List.mem_append_left _ (List.mem_map.mpr ⟨G, listed, rfl⟩), rfl⟩
    · obtain ⟨part, nonempty⟩ := (mem_subsetsOf expansion.inside).mp listed
      have larger := card_grown part nonempty expansion.apart
      rw [expandTests]
      refine Exists.imp (fun test => And.imp_left (List.mem_append_right _)) (exists_mem_gather
        (J := fun _ (cache : CNeighborhoodCache) => cache.Fits graph C N F)
        (fun G inSubsets _ cache fits => pbsNeighborhood_fits wf fits
          ((mem_subsetsOf expansion.inside).mp inSubsets).1 Finset.sdiff_subset)
        (CNeighborhoodCache.init_fits graph C N F N) listed ?_)
      intro rest cache fits
      exact ih (expansion.step wf part fits) (by omega) deeper

end Grown

section Seeds
variable {graph : CDPHyperGraph} {call : Call}

theorem SeedCache.expansion {seed : ℕ} {rest : List ℕ} {cache : CNeighborhoodCache}
    {forbidden : CBitSet} (fresh : SeedCache (seed :: rest) cache) (wf : graph.WellFormed)
    (bound : seed < graph.nodeCount) :
    Expansion graph {seed} (pbsNeighborhood graph {seed} forbidden {seed} cache ∅).nodes
      forbidden := by
  rw [pbsNeighborhood_fresh fresh.unused]
  exact .single wf bound

theorem seeds_start (graph : CDPHyperGraph) (neighborhood : CBitSet) :
    SeedCache (bits graph.nodeCount neighborhood).reverse
      (.init graph.nodeCount neighborhood) :=
  ⟨List.nodup_reverse.mpr (bits_nodup _ _), fun started => absurd started Bool.false_ne_true⟩

/-- The complements tested at a seed have it as the lowest of their neighbors. -/
def SeededBy (call : Call) (seed : ℕ) (complement : CBitSet) : Prop :=
  seed ∈ complement ∧
    complement ∩ seedForbidden call.lowestNode call.subgraph
      (call.inputNeighborhood \ call.subgraph) seed = ∅

variable {test : Test} (wf : graph.WellFormed) (valid : call.Valid graph)

include wf valid

theorem mem_seedTests {seed : ℕ} {rest : List ℕ} {cache : CNeighborhoodCache}
    (fresh : SeedCache (seed :: rest) cache)
    (listed : seed ∈ bits graph.nodeCount (call.inputNeighborhood \ call.subgraph))
    (inTests : test ∈ seedTests graph call.subgraph call.full (seedForbidden call.lowestNode
      call.subgraph (call.inputNeighborhood \ call.subgraph) seed) seed cache) :
    SeededBy call seed test.complement ∧ test.complement ⊆ Finset.range graph.nodeCount ∧
      ((test.gated = false ∧ test.complement = {seed} ∧
          test.indices = seedIndices graph call.subgraph seed) ∨
        (test.gated = true ∧
          test.indices = tryIndices graph call.subgraph call.full test.complement)) := by
  obtain ⟨bound, neighbor⟩ := mem_bits.mp listed
  obtain ⟨inNeighborhood, outside⟩ := Finset.mem_sdiff.mp neighbor
  have free : seed ∉ seedForbidden call.lowestNode call.subgraph
      (call.inputNeighborhood \ call.subgraph) seed := by
    have := valid.above seed inNeighborhood
    simp only [seedForbidden, Finset.mem_union, Finset.mem_inter, Finset.mem_range, not_or]
    exact ⟨⟨by omega, outside⟩, fun both => absurd both.1 (Nat.lt_irrefl seed)⟩
  rcases List.mem_cons.mp inTests with rfl | grown
  · refine ⟨⟨Finset.mem_singleton_self seed, ?_⟩,
      Finset.singleton_subset_iff.mpr (Finset.mem_range.mpr bound), .inl ⟨rfl, rfl, rfl⟩⟩
    rw [← Finset.disjoint_iff_inter_eq_empty]
    exact Finset.disjoint_singleton_left.mpr free
  · obtain ⟨grows, permitted, bounded, gated, indices⟩ :=
      mem_expandTests wf graph.nodeCount (fresh.expansion wf bound) grown
    refine ⟨⟨grows.subset (Finset.mem_singleton_self seed), ?_⟩, bounded, .inr ⟨gated, indices⟩⟩
    refine Finset.eq_empty_of_forall_notMem (fun node both => ?_)
    rw [Finset.mem_singleton.mp (permitted both)] at both
    exact free (Finset.mem_inter.mp both).2

structure Test.Fits (graph : CDPHyperGraph) (call : Call) (test : Test) : Prop where
  nonempty : test.complement.Nonempty
  bounded : test.complement ⊆ Finset.range graph.nodeCount
  away : Disjoint call.subgraph test.complement
  above : ∀ node ∈ test.complement, call.lowestNode < node
  single : test.gated = false → ∃ seed, test.complement = {seed}
  leads : ∀ index ∈ test.indices, LeadsInto graph call.subgraph test.complement index

variable {index : ℕ}

theorem complementTests_fit (listed : test ∈ complementTests graph call) :
    test.Fits graph call := by
  obtain ⟨seed, inSeeds, rest, cache, fresh, inTests⟩ := mem_gather (J := SeedCache)
    (fun seed _ rest cache fresh => fresh.next) (seeds_start graph _) listed
  obtain ⟨⟨inside, free⟩, bounded, kind⟩ :=
    mem_seedTests wf valid fresh (List.mem_reverse.mp inSeeds) inTests
  have permitted : ∀ node ∈ test.complement, call.lowestNode ≤ node ∧ node ∉ call.subgraph := by
    intro node member
    have allowed : node ∉ seedForbidden call.lowestNode call.subgraph
        (call.inputNeighborhood \ call.subgraph) seed := fun banned =>
      Finset.notMem_empty node (free ▸ Finset.mem_inter.mpr ⟨member, banned⟩)
    simp only [seedForbidden, Finset.mem_union, Finset.mem_range, not_or] at allowed
    exact ⟨by omega, allowed.1.2⟩
  constructor
  · exact ⟨seed, inside⟩
  · exact bounded
  · exact Finset.disjoint_right.mpr (fun node member => (permitted node member).2)
  · intro node member
    obtain ⟨atLeast, outside⟩ := permitted node member
    exact lt_of_le_of_ne atLeast (fun same => outside (same ▸ valid.start))
  · intro seeds
    rcases kind with ⟨-, same, -⟩ | ⟨gated, -⟩
    · exact ⟨seed, same⟩
    · rw [seeds] at gated
      exact absurd gated Bool.false_ne_true
  · intro index member
    rcases kind with ⟨-, same, indices⟩ | ⟨-, indices⟩
    · rw [indices] at member
      rw [same]
      exact leadsInto_of_mem_seedIndices wf member
    · rw [indices] at member
      obtain ⟨edge, found, far, near, -⟩ := leads_of_mem_tryIndices wf member
      exact ⟨edge, found, far, near⟩

theorem complementTests_report (listed : test ∈ complementTests graph call)
    (member : index ∈ test.indices) :
    ∃ edge, graph.edges[index]? = some edge ∧
      Report graph call.subgraph call.full test.complement edge.edgeId := by
  obtain ⟨seed, inSeeds, rest, cache, fresh, inTests⟩ := mem_gather (J := SeedCache)
    (fun seed _ rest cache fresh => fresh.next) (seeds_start graph _) listed
  obtain ⟨-, -, ⟨-, same, indices⟩ | ⟨-, indices⟩⟩ :=
    mem_seedTests wf valid fresh (List.mem_reverse.mp inSeeds) inTests
  · rw [indices] at member
    obtain ⟨edge, found, far, near⟩ := leadsInto_of_mem_seedIndices wf member
    rw [same]
    exact ⟨edge, found, edge.reverse, wf.reverse_mem (List.mem_of_getElem? found), rfl, near, far,
      .inl (Finset.card_singleton seed)⟩
  · rw [indices] at member
    obtain ⟨edge, found, far, near, known⟩ := leads_of_mem_tryIndices wf member
    exact ⟨edge, found, edge.reverse, wf.reverse_mem (List.mem_of_getElem? found), rfl, near, far,
      .inr known⟩

omit valid in
theorem complementTests_indices_nodup {order : List ℕ} (arranged : graph.Arranged order)
    (once : order.Nodup) (valid : call.Valid graph) (listed : test ∈ complementTests graph call) :
    test.indices.Nodup := by
  obtain ⟨seed, inSeeds, rest, cache, fresh, inTests⟩ := mem_gather (J := SeedCache)
    (fun seed _ rest cache fresh => fresh.next) (seeds_start graph _) listed
  obtain ⟨-, -, ⟨-, -, indices⟩ | ⟨-, indices⟩⟩ :=
    mem_seedTests wf valid fresh (List.mem_reverse.mp inSeeds) inTests
  · rw [indices]
    exact connectIndices_nodup wf arranged once seed _ _
  · rw [indices]
    exact tryIndices_nodup wf arranged once

theorem complementTests_nodup : ((complementTests graph call).map Test.complement).Nodup := by
  refine gather_nodup Test.complement (fun seed complement => SeededBy call seed complement ∧
    seed ∈ call.inputNeighborhood \ call.subgraph) (J := SeedCache)
    (fun seed _ rest cache fresh => fresh.next) ?_ ?_ ?_ (seeds_start graph _)
  · intro seed inSeeds rest cache fresh
    obtain ⟨bound, neighbor⟩ := mem_bits.mp (List.mem_reverse.mp inSeeds)
    have expansion := @SeedCache.expansion graph seed rest cache (seedForbidden call.lowestNode
      call.subgraph (call.inputNeighborhood \ call.subgraph) seed) fresh wf bound
    rw [seedTests, List.map_cons, List.nodup_cons]
    refine ⟨fun again => ?_, expandTests_nodup wf graph.nodeCount expansion⟩
    obtain ⟨test, grown, same⟩ := List.mem_map.mp again
    obtain ⟨grows, -⟩ := mem_expandTests wf graph.nodeCount expansion grown
    exact grows.ne same.symm
  · intro seed inSeeds rest cache fresh test inTests
    exact ⟨(mem_seedTests wf valid fresh (List.mem_reverse.mp inSeeds) inTests).1,
      (mem_bits.mp (List.mem_reverse.mp inSeeds)).2⟩
  · refine (List.nodup_reverse.mpr (bits_nodup _ _)).imp ?_
    rintro seed other differ complement ⟨⟨inside, free⟩, neighbor⟩ ⟨⟨inside', free'⟩, neighbor'⟩
    -- the lower of two seeds is forbidden to the complements of the higher one
    have lower : ∀ {a b : ℕ}, a ∈ complement → a ∈ call.inputNeighborhood \ call.subgraph →
        complement ∩ seedForbidden call.lowestNode call.subgraph
          (call.inputNeighborhood \ call.subgraph) b = ∅ → ¬ a < b := by
      intro a b member neighbor free below
      refine Finset.notMem_empty a (free ▸ Finset.mem_inter.mpr ⟨member, ?_⟩)
      exact Finset.mem_union_right _ (Finset.mem_inter.mpr ⟨Finset.mem_range.mpr below, neighbor⟩)
    have := lower inside neighbor free'
    have := lower inside' neighbor' free
    omega

theorem exists_complementTest {B : CBitSet} (con : graph.Con B) (away : Disjoint call.subgraph B)
    (above : ∀ node ∈ B, call.lowestNode < node) {edge : SEdge}
    (found : graph.edges[index]? = some edge) (far : edge.left ⊆ B)
    (near : edge.right ⊆ call.subgraph)
    (known : B.card = 1 ∨ lowestBit graph.nodeCount edge.left ∈ call.full) :
    ∃ test ∈ complementTests graph call, test.complement = B ∧ index ∈ test.indices := by
  have member := List.mem_of_getElem? found
  obtain ⟨seed, listed, target⟩ := exists_seed wf valid con away above member far near
  refine exists_mem_gather (J := SeedCache) (fun seed _ rest cache fresh => fresh.next)
    (seeds_start graph _) (List.mem_reverse.mpr listed) ?_
  intro rest cache fresh
  rcases target with rfl | inRegion
  · refine ⟨_, List.mem_cons_self, rfl, mem_seedIndices_of wf found ?_ near⟩
    exact (Finset.subset_singleton_iff.mp far).resolve_left (wf.sides edge member).1.ne_empty
  · have bound := (mem_bits.mp listed).1
    have expansion := @SeedCache.expansion graph seed rest cache (seedForbidden call.lowestNode
      call.subgraph (call.inputNeighborhood \ call.subgraph) seed) fresh wf bound
    have larger := Finset.card_lt_card inRegion.2.1
    rw [Finset.card_singleton] at larger
    obtain ⟨test, grown, same⟩ := exists_expandTest wf graph.nodeCount expansion
      (by rw [Finset.card_singleton]; omega) inRegion
    refine ⟨test, List.mem_cons_of_mem _ grown, same, ?_⟩
    obtain ⟨-, -, -, -, indices⟩ := mem_expandTests wf graph.nodeCount expansion grown
    rw [indices, same]
    exact mem_tryIndices_of wf found far near (known.resolve_left (by omega))

end Seeds

section Plans
variable {graph : CDPHyperGraph} {call : Call} {p : CDPHyperPlan}

theorem Sound.runTest (wf : graph.WellFormed) (valid : call.Valid graph)
    (con : graph.Con call.subgraph) {test : Test} (listed : test ∈ complementTests graph call)
    (sound : Sound graph call.lowestNode p) :
    ((planReceiver graph).runTest call.subgraph test p).2 = false ∧
      Adds graph call.lowestNode call.subgraph call.full p
        ((planReceiver graph).runTest call.subgraph test p).1 ∧
      (p.HasSeen test.complement → ∀ index ∈ test.indices, ∀ edge, graph.edges[index]? = some edge →
        ((planReceiver graph).runTest call.subgraph test p).1.Lists call.subgraph test.complement
          edge.edgeId) := by
  have fits := complementTests_fit wf valid listed
  unfold IDPHyperReceiver.runTest
  split
  case isTrue skips =>
    refine ⟨rfl, .refl sound, fun seen => ?_⟩
    simp [planReceiver, seen] at skips
  case isFalse asked =>
    have complement : graph.ConFrom call.lowestNode test.complement := by
      refine ⟨?_, fun node member => Nat.le_of_lt (fits.above node member)⟩
      cases gated : test.gated with
      | true => exact (sound.seen (by simpa [planReceiver, gated] using asked)).1
      | false =>
        obtain ⟨seed, same⟩ := fits.single gated
        have bounded := fits.bounded
        rw [same, Finset.singleton_subset_iff] at bounded
        exact same ▸ .single bounded
    have report : ∀ index ∈ test.indices, ∀ t, Sound graph call.lowestNode t →
        ∃ edge, graph.edges[index]? = some edge ∧
          (planReceiver graph).foundSubgraphPair call.subgraph test.complement index t
            = t.foundSubgraphPair call.subgraph test.complement edge.edgeId ∧
          (t.foundSubgraphPair call.subgraph test.complement edge.edgeId).2 = false ∧
          Adds graph call.lowestNode call.subgraph call.full t
            (t.foundSubgraphPair call.subgraph test.complement edge.edgeId).1 ∧
          (t.foundSubgraphPair call.subgraph test.complement edge.edgeId).1.Lists call.subgraph
            test.complement edge.edgeId := by
      intro index member t soundT
      obtain ⟨edge, found, reports⟩ := complementTests_report wf valid listed member
      exact ⟨edge, found, by simp [planReceiver, found],
        soundT.found ⟨⟨con, valid.lowest⟩, complement, fits.away⟩ reports⟩
    have step : ∀ index ∈ test.indices, ∀ t, Adds graph call.lowestNode call.subgraph call.full
        p t → Adds graph call.lowestNode call.subgraph call.full p
          ((planReceiver graph).foundSubgraphPair call.subgraph test.complement index t).1 ∧
        ((planReceiver graph).foundSubgraphPair call.subgraph test.complement index t).2
          = false := by
      intro index member t adds
      obtain ⟨edge, -, run, continues, more, -⟩ := report index member t adds.sound
      rw [run]
      exact ⟨adds.trans more, continues⟩
    obtain ⟨all, continues⟩ := untilAbort_invariant step (.refl sound)
    refine ⟨continues, all, fun _ index member edge found => ?_⟩
    refine untilAbort_establishes (Q := fun t => t.Lists call.subgraph test.complement edge.edgeId)
      step ?_ member ?_ (.refl sound)
    · intro other inTest t adds lists
      obtain ⟨_, -, run, -, more, -⟩ := report other inTest t adds.sound
      rw [run]
      exact more.lists lists
    · intro t adds
      obtain ⟨edge', found', run, -, -, lists⟩ := report index member t adds.sound
      rw [found, Option.some.injEq] at found'
      rw [run, found']
      exact lists

/-- A call of `EnumerateComplements` lists every seen complement above the lowest node that an
edge it can find joins. -/
theorem enumerateComplements_adds (wf : graph.WellFormed) (valid : call.Valid graph)
    (con : graph.Con call.subgraph) (sound : Sound graph call.lowestNode p) :
    ∃ q, enumerateComplements graph call.lowestNode call.subgraph call.full
        call.inputNeighborhood p = (q, false) ∧
      Adds graph call.lowestNode call.subgraph call.full p q ∧
      ∀ {B e}, graph.Con B → Disjoint call.subgraph B → (∀ node ∈ B, call.lowestNode < node) →
        p.HasSeen B → Report graph call.subgraph call.full B e → q.Lists call.subgraph B e := by
  unfold DPHyper.enumerateComplements
  rw [IDPHyperReceiver.enumerateComplements_tests]
  have step : ∀ test ∈ complementTests graph call, ∀ s, Adds graph call.lowestNode call.subgraph
      call.full p s → Adds graph call.lowestNode call.subgraph call.full p
        ((planReceiver graph).runTest call.subgraph test s).1 ∧
      ((planReceiver graph).runTest call.subgraph test s).2 = false := by
    intro test listed s adds
    obtain ⟨continues, more, -⟩ := adds.sound.runTest wf valid con listed
    exact ⟨adds.trans more, continues⟩
  obtain ⟨adds, continues⟩ := untilAbort_invariant step (.refl sound)
  refine ⟨_, Prod.ext rfl continues, adds, ?_⟩
  rintro B e conB away above seen ⟨edge, member, rfl, near, far, known⟩
  obtain ⟨index, found⟩ := List.mem_iff_getElem?.mp (wf.reverse_mem member)
  obtain ⟨test, listed, rfl, inTest⟩ := exists_complementTest wf valid conB away above found far
    near known
  refine untilAbort_establishes (Q := fun s => s.Lists call.subgraph test.complement edge.edgeId)
    step ?_ listed ?_ (.refl sound)
  · intro other inTests s adds lists
    exact (adds.sound.runTest wf valid con inTests).2.1.lists lists
  · intro s adds
    obtain ⟨-, -, lists⟩ := adds.sound.runTest wf valid con listed
    exact lists (adds.seen seen) index inTest edge.reverse found

end Plans

end DPHyper
