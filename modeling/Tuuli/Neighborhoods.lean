import Tuuli.Enumerator
import Tuuli.HyperConnect

/-!
What `PbsNeighborhood` returns: a frontier of the grown set, also where the
cache stands in for part of the search.
-/
namespace DPHyper
open AbortLoop HyperConnect

variable {nodeCount : ℕ} {set : CBitSet}

theorem mem_bits {node : ℕ} : node ∈ bits nodeCount set ↔ node < nodeCount ∧ node ∈ set := by
  simp [bits]

theorem bits_nodup (nodeCount : ℕ) (set : CBitSet) : (bits nodeCount set).Nodup :=
  List.nodup_range.filter _

theorem lowestBit_mem (nonempty : set.Nonempty) (inside : set ⊆ Finset.range nodeCount) :
    lowestBit nodeCount set ∈ set := by
  obtain ⟨node, member⟩ := nonempty
  have listed : node ∈ bits nodeCount set :=
    mem_bits.mpr ⟨Finset.mem_range.mp (inside member), member⟩
  unfold lowestBit
  cases all : bits nodeCount set with
  | nil => simp [all] at listed
  | cons first rest =>
    have head : first ∈ bits nodeCount set := by simp [all]
    exact (mem_bits.mp head).2

theorem mem_subsetsOf {part : CBitSet} (inside : set ⊆ Finset.range nodeCount) :
    part ∈ subsetsOf nodeCount set ↔ part ⊆ set ∧ part.Nonempty := by
  have listed : ∀ node, node ∈ (bits nodeCount set).reverse ↔ node ∈ set := by
    intro node
    rw [List.mem_reverse, mem_bits]
    exact ⟨And.right, fun member => ⟨Finset.mem_range.mp (inside member), member⟩⟩
  simp only [subsetsOf, List.mem_filter, mem_maskSubsets, listed, decide_eq_true_eq,
    Finset.nonempty_iff_ne_empty]
  rfl

theorem subsetsOf_pairwise (nodeCount : ℕ) (set : CBitSet) :
    (subsetsOf nodeCount set).Pairwise (fun s t => ¬ t ⊆ s) :=
  (maskSubsets_pairwise (List.nodup_reverse.mpr (bits_nodup nodeCount set))).filter _

/-- The edges of the graph as a relation between their sides. -/
def CDPHyperGraph.Leads (graph : CDPHyperGraph) (u w : CBitSet) : Prop :=
  ∃ edge ∈ graph.edges, edge.left = u ∧ edge.right = w

variable {w : CBitSet}

theorem CDPHyperGraph.WellFormed.leads_symm {graph : CDPHyperGraph} (wf : graph.WellFormed)
    {u : CBitSet} (leads : graph.Leads u w) : graph.Leads w u := by
  obtain ⟨edge, member, rfl, rfl⟩ := leads
  exact ⟨edge.reverse, wf.reverse_mem member, rfl, rfl⟩

def Grew (s t : CBitSet × CBitSet) : Prop := s.1 ⊆ t.1 ∧ s.2 ⊆ t.2

theorem Grew.refl (s : CBitSet × CBitSet) : Grew s s :=
  ⟨Finset.Subset.refl _, Finset.Subset.refl _⟩

theorem Grew.trans {s t u : CBitSet × CBitSet} (first : Grew s t) (second : Grew t u) : Grew s u :=
  ⟨Finset.Subset.trans first.1 second.1, Finset.Subset.trans first.2 second.2⟩

theorem foldl_grew {α : Type} {f : CBitSet × CBitSet → α → CBitSet × CBitSet}
    (step : ∀ s a, Grew s (f s a)) (l : List α) (s : CBitSet × CBitSet) : Grew s (l.foldl f s) := by
  induction l generalizing s with
  | nil => exact .refl s
  | cons a rest ih => exact (step s a).trans (ih (f s a))

theorem foldl_meets {α : Type} {f : CBitSet × CBitSet → α → CBitSet × CBitSet}
    (step : ∀ s a, Grew s (f s a)) {l : List α} {a : α} (member : a ∈ l)
    (establishes : ∀ s, ¬ Disjoint w (f s a).1) (s : CBitSet × CBitSet) :
    ¬ Disjoint w (l.foldl f s).1 := by
  induction l generalizing s with
  | nil => simp at member
  | cons b rest ih =>
    rcases List.mem_cons.mp member with rfl | later
    · exact fun away => establishes s (Finset.disjoint_of_subset_right
        (foldl_grew step rest (f s a)).1 away)
    · exact ih later (f s b)

section Search
variable {graph : CDPHyperGraph} {subgraph forbidden : CBitSet} {edge : SEdge}
  {s : CBitSet × CBitSet}

theorem searchEdge_grew (s : CBitSet × CBitSet) (edge : SEdge) :
    Grew s (searchEdge graph subgraph forbidden s edge) := by
  unfold searchEdge
  split
  · exact .refl s
  · refine ⟨?_, Finset.subset_union_left⟩
    dsimp only
    split
    · exact Finset.subset_union_left
    · exact Finset.Subset.refl _

theorem searchNode_grew (s : CBitSet × CBitSet) (id : ℕ) :
    Grew s (searchNode graph subgraph forbidden s id) := by
  have start : Grew s (s.1 ∪ graph.simpleNeighborhoodAt id, s.2) :=
    ⟨Finset.subset_union_left, Finset.Subset.refl _⟩
  exact start.trans (foldl_grew searchEdge_grew (graph.complexEdgesAt id) _)

/-- An edge out of the subgraph is met when one of its near nodes is searched. -/
theorem searchNode_meets (wf : graph.WellFormed) (member : edge ∈ graph.edges) {id : ℕ}
    (inLeft : id ∈ edge.left) (inside : edge.left ⊆ subgraph) (away : Disjoint edge.right subgraph)
    (free : Disjoint edge.right forbidden) (s : CBitSet × CBitSet) :
    ¬ Disjoint edge.right (searchNode graph subgraph forbidden s id).1 := by
  unfold searchNode
  by_cases single : edge.Simple
  · obtain ⟨other, same⟩ := Finset.card_eq_one.mp single.2
    have known : other ∈ graph.simpleNeighborhoodAt id := wf.mem_simpleNeighborhoodAt.mpr
      ⟨edge, member, (CDPHyperGraph.mem_iff_eq_singleton single.1).mp inLeft, same⟩
    rw [same, Finset.disjoint_singleton_left, not_not]
    exact (foldl_grew searchEdge_grew (graph.complexEdgesAt id) _).1
      (Finset.mem_union_right _ known)
  · have listed := wf.mem_complexEdgesAt.mpr ⟨member, inLeft, single⟩
    refine foldl_meets searchEdge_grew listed ?_ _
    intro state
    unfold searchEdge
    rw [if_neg (by simp [inside, away, free])]
    dsimp only
    split
    · have lowest := lowestBit_mem (wf.sides edge member).2.1 (Finset.Subset.trans
        Finset.subset_union_right (wf.sides edge member).2.2.2)
      exact fun apart => Finset.disjoint_left.mp apart lowest
        (Finset.mem_union_right _ (Finset.mem_singleton_self _))
    · assumption

theorem searchEdge_inside (wf : graph.WellFormed) (member : edge ∈ graph.edges)
    (bound : s.1 ⊆ Finset.range graph.nodeCount) :
    (searchEdge graph subgraph forbidden s edge).1 ⊆ Finset.range graph.nodeCount := by
  have sides := wf.sides edge member
  unfold searchEdge
  split
  · exact bound
  · dsimp only
    split
    · have far := Finset.Subset.trans Finset.subset_union_right sides.2.2.2
      exact Finset.union_subset bound
        (Finset.singleton_subset_iff.mpr (far (lowestBit_mem sides.2.1 far)))
    · exact bound

theorem searchNode_inside (wf : graph.WellFormed) (id : ℕ)
    (bound : s.1 ⊆ Finset.range graph.nodeCount) :
    (searchNode graph subgraph forbidden s id).1 ⊆ Finset.range graph.nodeCount := by
  have start : s.1 ∪ graph.simpleNeighborhoodAt id ⊆ Finset.range graph.nodeCount := by
    refine Finset.union_subset bound (fun other known => ?_)
    obtain ⟨edge, member, -, same⟩ := wf.mem_simpleNeighborhoodAt.mp known
    exact (wf.sides edge member).2.2.2 (by simp [same])
  have run : ∀ (l : List SEdge) (t : CBitSet × CBitSet), (∀ edge ∈ l, edge ∈ graph.edges) →
      t.1 ⊆ Finset.range graph.nodeCount →
      (l.foldl (searchEdge graph subgraph forbidden) t).1 ⊆ Finset.range graph.nodeCount := by
    intro l
    induction l with
    | nil => exact fun t _ inside => inside
    | cons edge rest ih =>
      intro t listed inside
      exact ih _ (fun other later => listed other (List.mem_cons_of_mem _ later))
        (searchEdge_inside wf (listed edge List.mem_cons_self) inside)
  exact run _ _ (fun edge listed => (wf.mem_complexEdgesAt.mp listed).1) start

end Search

section Neighborhood
variable {graph : CDPHyperGraph} {subgraph forbidden justGrown full : CBitSet}
  {cache : CNeighborhoodCache}

theorem pbsNeighborhood_nodes :
    (pbsNeighborhood graph subgraph forbidden justGrown cache full).nodes
      = (((bits graph.nodeCount (cache.pbsToSearch justGrown ∅ full).1).foldl
          (searchNode graph subgraph forbidden)
          (cache.pbsToSearch justGrown ∅ full).2).1 \ subgraph) \ forbidden := rfl

theorem pbsNeighborhood_full :
    (pbsNeighborhood graph subgraph forbidden justGrown cache full).full
      = ((bits graph.nodeCount (cache.pbsToSearch justGrown ∅ full).1).foldl
          (searchNode graph subgraph forbidden)
          (cache.pbsToSearch justGrown ∅ full).2).2 ∪
        (pbsNeighborhood graph subgraph forbidden justGrown cache full).nodes := rfl

theorem pbsNeighborhood_cache :
    (pbsNeighborhood graph subgraph forbidden justGrown cache full).cache
      = cache.store justGrown (pbsNeighborhood graph subgraph forbidden justGrown cache full).nodes
        (pbsNeighborhood graph subgraph forbidden justGrown cache full).full := rfl

theorem nodes_disjoint_subgraph :
    Disjoint (pbsNeighborhood graph subgraph forbidden justGrown cache full).nodes subgraph := by
  rw [pbsNeighborhood_nodes]
  exact Finset.disjoint_of_subset_left Finset.sdiff_subset Finset.sdiff_disjoint

theorem nodes_disjoint_forbidden :
    Disjoint (pbsNeighborhood graph subgraph forbidden justGrown cache full).nodes forbidden := by
  rw [pbsNeighborhood_nodes]
  exact Finset.sdiff_disjoint

theorem nodes_subset_full :
    (pbsNeighborhood graph subgraph forbidden justGrown cache full).nodes ⊆
      (pbsNeighborhood graph subgraph forbidden justGrown cache full).full := by
  rw [pbsNeighborhood_full]
  exact Finset.subset_union_right

theorem full_subset_full :
    full ⊆ (pbsNeighborhood graph subgraph forbidden justGrown cache full).full := by
  have known : full ⊆ (cache.pbsToSearch justGrown ∅ full).2.2 := by
    unfold CNeighborhoodCache.pbsToSearch
    split
    · exact Finset.subset_union_left
    · exact Finset.Subset.refl _
  rw [pbsNeighborhood_full]
  exact Finset.Subset.trans (Finset.Subset.trans known (foldl_grew searchNode_grew _ _).2)
    Finset.subset_union_left

/-- A set that meets the search result outside subgraph and forbidden nodes meets the
neighborhood. -/
theorem meets_nodes {w : CBitSet} (away : Disjoint w subgraph) (free : Disjoint w forbidden)
    (meets : ¬ Disjoint w ((bits graph.nodeCount (cache.pbsToSearch justGrown ∅ full).1).foldl
      (searchNode graph subgraph forbidden) (cache.pbsToSearch justGrown ∅ full).2).1) :
    ¬ Disjoint w (pbsNeighborhood graph subgraph forbidden justGrown cache full).nodes := by
  obtain ⟨x, inW, found⟩ := Finset.not_disjoint_iff.mp meets
  rw [pbsNeighborhood_nodes]
  refine Finset.not_disjoint_iff.mpr ⟨x, inW, ?_⟩
  rw [Finset.mem_sdiff, Finset.mem_sdiff]
  exact ⟨⟨found, Finset.disjoint_left.mp away inW⟩, Finset.disjoint_left.mp free inW⟩

/-- The cache of one level of the recursion: `S` is the set there, `N` its neighborhood and
`F` the forbidden nodes. -/
structure CNeighborhoodCache.Fits (graph : CDPHyperGraph) (S N F : CBitSet)
    (cache : CNeighborhoodCache) : Prop where
  inside : cache.initialized = true → cache.lastNeighborhood ⊆ Finset.range graph.nodeCount
  covers : cache.initialized = true →
    Extends graph.Leads S N F cache.lastGrown cache.lastNeighborhood

theorem CNeighborhoodCache.init_fits (graph : CDPHyperGraph) (S N F neighborhood : CBitSet) :
    (CNeighborhoodCache.init graph.nodeCount neighborhood).Fits graph S N F :=
  ⟨fun started => absurd started Bool.false_ne_true,
    fun started => absurd started Bool.false_ne_true⟩

theorem pbsNeighborhood_inside {S N F : CBitSet} (wf : graph.WellFormed)
    (fits : cache.Fits graph S N F) :
    (pbsNeighborhood graph subgraph forbidden justGrown cache full).nodes ⊆
      Finset.range graph.nodeCount := by
  have start : (cache.pbsToSearch justGrown ∅ full).2.1 ⊆ Finset.range graph.nodeCount := by
    unfold CNeighborhoodCache.pbsToSearch
    split
    · rename_i reuse
      exact Finset.union_subset (Finset.empty_subset _) (fits.inside reuse.1)
    · exact Finset.empty_subset _
  have run : ∀ (l : List ℕ) (t : CBitSet × CBitSet), t.1 ⊆ Finset.range graph.nodeCount →
      (l.foldl (searchNode graph subgraph forbidden) t).1 ⊆ Finset.range graph.nodeCount := by
    intro l
    induction l with
    | nil => exact fun t inside => inside
    | cons id rest ih => exact fun t inside => ih _ (searchNode_inside wf id inside)
  rw [pbsNeighborhood_nodes]
  exact Finset.Subset.trans Finset.sdiff_subset
    (Finset.Subset.trans Finset.sdiff_subset (run _ _ start))

/-- The neighborhood of `S` grown by `G` takes over for the edges that `G` brings. -/
theorem pbsNeighborhood_extends {S N F G : CBitSet} (wf : graph.WellFormed)
    (fits : cache.Fits graph S N F) (part : G ⊆ N) (permits : forbidden ⊆ F ∪ N) :
    Extends graph.Leads S N F G (pbsNeighborhood graph (S ∪ G) forbidden G cache full).nodes := by
  rintro u w ⟨edge, member, rfl, rfl⟩ inside new avoids
  have away : Disjoint edge.right (S ∪ G) := by
    refine Finset.disjoint_of_subset_right ?_ avoids
    intro x inGrown
    rcases Finset.mem_union.mp inGrown with inS | inG
    · simp [inS]
    · simp [part inG]
  have free : Disjoint edge.right forbidden := by
    refine Finset.disjoint_of_subset_right ?_ avoids
    intro x banned
    rcases Finset.mem_union.mp (permits banned) with inF | inN
    · simp [inF]
    · simp [inN]
  refine meets_nodes away free ?_
  by_cases searched : ∃ id ∈ edge.left, id ∈ (cache.pbsToSearch G ∅ full).1
  · obtain ⟨id, inLeft, here⟩ := searched
    have bound := (wf.sides edge member).2.2.2 (Finset.mem_union_left _ inLeft)
    exact foldl_meets searchNode_grew (mem_bits.mpr ⟨Finset.mem_range.mp bound, here⟩)
      (searchNode_meets wf member inLeft inside away free) _
  · -- all new nodes of the edge are in the cached growth
    have reuse : cache.initialized = true ∧ cache.lastGrown ⊆ G := by
      by_contra fresh
      obtain ⟨id, inLeft, outside⟩ := Finset.not_subset.mp new
      refine searched ⟨id, inLeft, ?_⟩
      unfold CNeighborhoodCache.pbsToSearch
      rw [if_neg fresh]
      exact (Finset.mem_union.mp (inside inLeft)).resolve_left outside
    have old : edge.left ⊆ S ∪ cache.lastGrown := by
      intro id inLeft
      by_contra outside
      simp only [Finset.mem_union, not_or] at outside
      refine searched ⟨id, inLeft, ?_⟩
      unfold CNeighborhoodCache.pbsToSearch
      rw [if_pos reuse]
      exact Finset.mem_sdiff.mpr
        ⟨(Finset.mem_union.mp (inside inLeft)).resolve_left outside.1, outside.2⟩
    have known := fits.covers reuse.1 ⟨edge, member, rfl, rfl⟩ old new avoids
    refine fun apart => known (Finset.disjoint_of_subset_right ?_ apart)
    refine Finset.Subset.trans ?_ (foldl_grew searchNode_grew _ _).1
    unfold CNeighborhoodCache.pbsToSearch
    rw [if_pos reuse]
    exact Finset.subset_union_right

theorem pbsNeighborhood_fresh
    (unused : ¬ (cache.initialized = true ∧ cache.lastGrown ⊆ justGrown)) :
    (pbsNeighborhood graph subgraph forbidden justGrown cache full).nodes
      = (pbsNeighborhood graph subgraph forbidden justGrown (.init graph.nodeCount ∅) full).nodes := by
  have same : cache.pbsToSearch justGrown ∅ full
      = (CNeighborhoodCache.init graph.nodeCount ∅).pbsToSearch justGrown ∅ full := by
    unfold CNeighborhoodCache.pbsToSearch
    rw [if_neg unused, if_neg (by simp [CNeighborhoodCache.init])]
  rw [pbsNeighborhood_nodes, pbsNeighborhood_nodes, same]

theorem pbsNeighborhood_fits {S N F G : CBitSet} (wf : graph.WellFormed)
    (fits : cache.Fits graph S N F) (part : G ⊆ N) (permits : forbidden ⊆ F ∪ N) :
    (pbsNeighborhood graph (S ∪ G) forbidden G cache full).cache.Fits graph S N F := by
  have inside := @pbsNeighborhood_inside graph (S ∪ G) forbidden G full cache S N F wf fits
  have covers := @pbsNeighborhood_extends graph forbidden full cache S N F G wf fits part permits
  rw [pbsNeighborhood_cache]
  unfold CNeighborhoodCache.store
  split
  · exact fits
  · exact ⟨fun _ => inside, fun _ => covers⟩

end Neighborhood

end DPHyper
