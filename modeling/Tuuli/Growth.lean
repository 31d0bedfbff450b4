import Tuuli.Neighborhoods
import Tuuli.RunLog

/-!
One induction over `ExpandSubgraph`, for any receiver: the sets that grow from
a subgraph are visited in an order in which every set comes after its subsets,
and none is visited twice.
-/
namespace DPHyper
open AbortLoop HyperConnect

def CDPHyperGraph.Connected (graph : CDPHyperGraph) (left right : CBitSet) : Prop :=
  ∃ u w, graph.Leads u w ∧ u ⊆ left ∧ w ⊆ right

def CDPHyperGraph.Con (graph : CDPHyperGraph) : CBitSet → Prop :=
  Constructible (Finset.range graph.nodeCount) graph.Leads

def CDPHyperGraph.ConFrom (graph : CDPHyperGraph) (v : ℕ) (set : CBitSet) : Prop :=
  graph.Con set ∧ ∀ node ∈ set, v ≤ node

structure Call where
  lowestNode : ℕ
  subgraph : CBitSet
  full : CBitSet
  inputNeighborhood : CBitSet

/-- What holds of every call: the full neighborhood has the single far nodes, and the input
neighborhood meets every far side above the lowest node. -/
structure Call.Valid (graph : CDPHyperGraph) (call : Call) : Prop where
  start : call.lowestNode ∈ call.subgraph
  lowest : ∀ node ∈ call.subgraph, call.lowestNode ≤ node
  above : ∀ node ∈ call.inputNeighborhood, call.lowestNode ≤ node
  singles : ∀ {u : CBitSet} {node : ℕ}, graph.Leads u {node} → u ⊆ call.subgraph →
    node ∉ call.subgraph → call.lowestNode < node → node ∈ call.full
  meets : ∀ {u w : CBitSet}, graph.Leads u w → u ⊆ call.subgraph → Disjoint w call.subgraph →
    (∀ node ∈ w, call.lowestNode < node) → ¬ Disjoint w call.inputNeighborhood

/-- What both expansions keep: `N` is a frontier of `S`, and `F` is forbidden. -/
structure Expansion (graph : CDPHyperGraph) (S N F : CBitSet) : Prop where
  nonempty : S.Nonempty
  bounded : S ⊆ Finset.range graph.nodeCount
  frontier : Frontier graph.Leads S N F
  apart : Disjoint N S
  free : Disjoint N F
  inside : N ⊆ Finset.range graph.nodeCount

variable {graph : CDPHyperGraph}

theorem Expansion.step {S N F G full : CBitSet} {cache : CNeighborhoodCache} (wf : graph.WellFormed)
    (expansion : Expansion graph S N F) (part : G ⊆ N) (fits : cache.Fits graph S N F) :
    Expansion graph (S ∪ G)
      (pbsNeighborhood graph (S ∪ G) ((F ∪ N) \ (S ∪ G)) G cache full).nodes
      ((F ∪ N) \ (S ∪ G)) where
  nonempty := expansion.nonempty.mono Finset.subset_union_left
  bounded := Finset.union_subset expansion.bounded (Finset.Subset.trans part expansion.inside)
  frontier := Frontier.step expansion.frontier
    (pbsNeighborhood_extends wf fits part Finset.sdiff_subset)
  apart := nodes_disjoint_subgraph
  free := nodes_disjoint_forbidden
  inside := pbsNeighborhood_inside wf fits

theorem Expansion.single {graph : CDPHyperGraph} {node : ℕ} {F full : CBitSet}
    (wf : graph.WellFormed) (bound : node < graph.nodeCount) :
    Expansion graph {node}
      (pbsNeighborhood graph {node} F {node} (.init graph.nodeCount ∅) full).nodes F where
  nonempty := Finset.singleton_nonempty node
  bounded := Finset.singleton_subset_iff.mpr (Finset.mem_range.mpr bound)
  frontier := by
    intro u w leads inside away free
    have extension := @pbsNeighborhood_extends graph F full (.init graph.nodeCount ∅) ∅ {node} F
      {node} wf (CNeighborhoodCache.init_fits graph ∅ {node} F ∅) (Finset.Subset.refl _)
      Finset.subset_union_left
    rw [Finset.empty_union] at extension
    refine extension leads (by simpa using inside) ?_ ?_
    · obtain ⟨edge, member, rfl, -⟩ := leads
      rw [Finset.subset_empty]
      exact (wf.sides edge member).1.ne_empty
    · simp only [Finset.empty_union, Finset.disjoint_union_right]
      exact ⟨free, away⟩
  apart := nodes_disjoint_subgraph
  free := nodes_disjoint_forbidden
  inside := pbsNeighborhood_inside wf (CNeighborhoodCache.init_fits graph ∅ ∅ ∅ ∅)

/-- The arguments of `ExpandSubgraph` for the lowest node `v`. -/
structure Level (graph : CDPHyperGraph) (v : ℕ) (S N F full : CBitSet) : Prop
    extends Expansion graph S N F where
  start : v ∈ S
  lowest : ∀ node ∈ S, v ≤ node
  low : Finset.range v ⊆ F
  high : ∀ node ∈ F, v < node → node ∈ full
  known : N ⊆ full

section Start
variable {graph : CDPHyperGraph} {v : ℕ}

def startNeighborhood (graph : CDPHyperGraph) (v : ℕ) : Neighborhood :=
  pbsNeighborhood graph {v} (Finset.range v) {v} (.init graph.nodeCount ∅) ∅

theorem start_expansion (wf : graph.WellFormed) (bound : v < graph.nodeCount) :
    Expansion graph {v} (startNeighborhood graph v).nodes (Finset.range v) := .single wf bound

theorem start_level (wf : graph.WellFormed) (bound : v < graph.nodeCount) :
    Level graph v {v} (startNeighborhood graph v).nodes (Finset.range v ∪ {v})
      (startNeighborhood graph v).full where
  nonempty := (start_expansion wf bound).nonempty
  bounded := (start_expansion wf bound).bounded
  frontier := by
    intro u w leads inside away free
    exact (start_expansion wf bound).frontier leads inside away
      (Finset.disjoint_of_subset_right Finset.subset_union_left free)
  apart := (start_expansion wf bound).apart
  free := Finset.disjoint_union_right.mpr
    ⟨(start_expansion wf bound).free, (start_expansion wf bound).apart⟩
  inside := (start_expansion wf bound).inside
  start := Finset.mem_singleton_self v
  lowest := by simp
  low := Finset.subset_union_left
  high := by
    intro node banned above
    simp only [Finset.mem_union, Finset.mem_range, Finset.mem_singleton] at banned
    omega
  known := nodes_subset_full

theorem start_call_valid (wf : graph.WellFormed) (bound : v < graph.nodeCount) :
    Call.Valid graph
      ⟨v, {v}, (startNeighborhood graph v).full, (startNeighborhood graph v).nodes⟩ := by
  have expansion := start_expansion wf bound
  have known : (startNeighborhood graph v).nodes ⊆ (startNeighborhood graph v).full :=
    nodes_subset_full
  generalize startNeighborhood graph v = start at expansion known
  constructor
  · exact Finset.mem_singleton_self v
  · simp
  · intro node member
    simpa using Finset.disjoint_left.mp expansion.free member
  · intro u node leads inside outside above
    have reached := expansion.frontier leads inside
      (Finset.disjoint_singleton_left.mpr outside) (by simpa using Nat.le_of_lt above)
    rw [Finset.disjoint_singleton_left, not_not] at reached
    exact known reached
  · intro u w leads inside away above
    refine expansion.frontier leads inside away ?_
    refine Finset.disjoint_left.mpr (fun node inW below => ?_)
    exact absurd (Finset.mem_range.mp below) (Nat.not_lt.mpr (Nat.le_of_lt (above node inW)))

end Start

namespace Level

variable {graph : CDPHyperGraph} {v : ℕ} {S N F full G : CBitSet} {cache : CNeighborhoodCache}

theorem lowest_grown (level : Level graph v S N F full) (part : G ⊆ N) :
    ∀ node ∈ S ∪ G, v ≤ node := by
  intro node member
  rcases Finset.mem_union.mp member with inS | inG
  · exact level.lowest node inS
  · by_contra below
    exact Finset.disjoint_left.mp level.free (part inG)
      (level.low (Finset.mem_range.mpr (by omega)))

theorem step (wf : graph.WellFormed) (level : Level graph v S N F full) (part : G ⊆ N)
    (fits : cache.Fits graph S N F) :
    Level graph v (S ∪ G)
      (pbsNeighborhood graph (S ∪ G) ((F ∪ N) \ (S ∪ G)) G cache full).nodes
      ((F ∪ N) \ (S ∪ G))
      (pbsNeighborhood graph (S ∪ G) ((F ∪ N) \ (S ∪ G)) G cache full).full where
  toExpansion := level.toExpansion.step wf part fits
  start := Finset.mem_union_left _ level.start
  lowest := level.lowest_grown part
  low := by
    intro node below
    refine Finset.mem_sdiff.mpr ⟨Finset.mem_union_left _ (level.low below), fun grown => ?_⟩
    have := level.lowest_grown part node grown
    have := Finset.mem_range.mp below
    omega
  high := by
    intro node banned above
    rcases Finset.mem_union.mp (Finset.mem_sdiff.mp banned).1 with inF | inN
    · exact full_subset_full (level.high node inF above)
    · exact full_subset_full (level.known inN)
  known := nodes_subset_full

theorem call_valid (wf : graph.WellFormed) (level : Level graph v S N F full) (part : G ⊆ N)
    (fits : cache.Fits graph S N F) :
    Call.Valid graph ⟨v, S ∪ G, (pbsNeighborhood graph (S ∪ G) F G cache full).full,
      (pbsNeighborhood graph (S ∪ G) F G cache full).nodes ∪
        (F ∩ (Finset.range graph.nodeCount \ Finset.range v)) ∪ N⟩ := by
  have extension := @pbsNeighborhood_extends graph F full cache S N F G wf fits part
    Finset.subset_union_left
  -- an edge out of the grown set leads to the frontier, to forbidden nodes or to new ones
  have reaches : ∀ {u w : CBitSet}, graph.Leads u w → u ⊆ S ∪ G → Disjoint w (S ∪ G) →
      ¬ Disjoint w F ∨ ¬ Disjoint w N ∨
        ¬ Disjoint w (pbsNeighborhood graph (S ∪ G) F G cache full).nodes := by
    intro u w leads inside away
    by_contra none
    simp only [not_or, not_not] at none
    obtain ⟨freeF, freeN, freeNew⟩ := none
    have awayS := Finset.disjoint_of_subset_right Finset.subset_union_left away
    by_cases old : u ⊆ S
    · exact level.frontier leads old awayS freeF freeN
    · refine extension leads inside old ?_ freeNew
      simp only [Finset.disjoint_union_right]
      exact ⟨⟨awayS, freeF⟩, freeN⟩
  have permitted : ∀ {node}, node ∉ F → v ≤ node := by
    intro node free
    by_contra below
    exact free (level.low (Finset.mem_range.mpr (by omega)))
  constructor
  · exact Finset.mem_union_left _ level.start
  · exact level.lowest_grown part
  · intro node member
    rcases Finset.mem_union.mp member with inFirst | inN
    · rcases Finset.mem_union.mp inFirst with new | high
      · exact permitted (Finset.disjoint_left.mp nodes_disjoint_forbidden new)
      · simpa using (Finset.mem_sdiff.mp (Finset.mem_inter.mp high).2).2
    · exact permitted (Finset.disjoint_left.mp level.free inN)
  · intro u node leads inside outside above
    have away : Disjoint {node} (S ∪ G) := Finset.disjoint_singleton_left.mpr outside
    rcases reaches leads inside away with inF | inN | new
    · rw [Finset.disjoint_singleton_left, not_not] at inF
      exact full_subset_full (level.high node inF above)
    · rw [Finset.disjoint_singleton_left, not_not] at inN
      exact full_subset_full (level.known inN)
    · rw [Finset.disjoint_singleton_left, not_not] at new
      exact nodes_subset_full new
  · intro u w leads inside away above
    have bounded : w ⊆ Finset.range graph.nodeCount := by
      obtain ⟨edge, member, -, rfl⟩ := leads
      exact Finset.Subset.trans Finset.subset_union_right (wf.sides edge member).2.2.2
    rcases reaches leads inside away with inF | inN | new
    · obtain ⟨node, inW, banned⟩ := Finset.not_disjoint_iff.mp inF
      refine Finset.not_disjoint_iff.mpr ⟨node, inW, ?_⟩
      have := above node inW
      simp [banned, Finset.mem_range.mp (bounded inW), Nat.not_lt.mpr (Nat.le_of_lt this)]
    · exact fun apart => inN (Finset.disjoint_of_subset_right Finset.subset_union_right apart)
    · exact fun apart => new (Finset.disjoint_of_subset_right (Finset.Subset.trans
        Finset.subset_union_left Finset.subset_union_left) apart)

end Level

/-- The sets that grow out of `S` without forbidden nodes. -/
def Region (graph : CDPHyperGraph) (S F : CBitSet) : Set CBitSet :=
  {B | graph.Con B ∧ S ⊂ B ∧ B ∩ F ⊆ S}

def Before (X Y : Set CBitSet) : Prop := ∀ A ∈ X, ∀ B ∈ Y, ¬ B ⊆ A

/-- `R X s s'` relates the states before and after the sets of `X` were tested. -/
structure RunRule (graph : CDPHyperGraph) {σ : Type} (hasSeen : σ → CBitSet → Bool)
    (enumerateComplements : ℕ → CBitSet → CBitSet → CBitSet → σ → σ × Bool) (v : ℕ)
    (Ok : σ → Prop) (R : Set CBitSet → σ → σ → Prop) : Prop where
  refl : ∀ s, R ∅ s s
  seq : ∀ {X Y s t u}, Before X Y → R X s t → R Y t u → R (X ∪ Y) s u
  skip : ∀ {A s}, Ok s → v ∈ A → hasSeen s A = false → R {B | B = A ∧ graph.Con B} s s
  visit : ∀ {call : Call} {s}, Ok s → call.Valid graph → call.lowestNode = v →
    hasSeen s call.subgraph = true → ∃ t, enumerateComplements v call.subgraph call.full
      call.inputNeighborhood s = (t, false) ∧ Ok t ∧ R {B | B = call.subgraph ∧ graph.Con B} s t

/-- The rule for runs that may stop: `R X s t` when the sets of `X` were tested, `P X s t` when the
run stopped while they were. -/
structure GrowRule (graph : CDPHyperGraph) {σ : Type} (hasSeen : σ → CBitSet → Bool)
    (enumerateComplements : ℕ → CBitSet → CBitSet → CBitSet → σ → σ × Bool) (v : ℕ)
    (Ok : σ → Prop) (R P : Set CBitSet → σ → σ → Prop) : Prop where
  refl : ∀ s, R ∅ s s
  seq : ∀ {X Y s t u}, Before X Y → R X s t → R Y t u → R (X ∪ Y) s u
  stop : ∀ {X Y s t u}, Before X Y → R X s t → P Y t u → P (X ∪ Y) s u
  widen : ∀ {X Y s t}, P X s t → P (X ∪ Y) s t
  skip : ∀ {A s}, Ok s → v ∈ A → hasSeen s A = false → R {B | B = A ∧ graph.Con B} s s
  visit : ∀ {call : Call} {s}, Ok s → call.Valid graph → call.lowestNode = v →
    hasSeen s call.subgraph = true → ∃ t stopped, enumerateComplements v call.subgraph call.full
      call.inputNeighborhood s = (t, stopped) ∧
      (stopped = false → Ok t ∧ R {B | B = call.subgraph ∧ graph.Con B} s t) ∧
      (stopped = true → P {B | B = call.subgraph ∧ graph.Con B} s t)

theorem RunRule.growRule {σ : Type} {hasSeen : σ → CBitSet → Bool}
    {enumerateComplements : ℕ → CBitSet → CBitSet → CBitSet → σ → σ × Bool} {v : ℕ} {Ok : σ → Prop}
    {R : Set CBitSet → σ → σ → Prop} (rule : RunRule graph hasSeen enumerateComplements v Ok R) :
    GrowRule graph hasSeen enumerateComplements v Ok R (fun _ _ _ => False) where
  refl := rule.refl
  seq := rule.seq
  stop := fun _ _ never => never
  widen := fun never => never
  skip := rule.skip
  visit := by
    intro call s ok valid lowest seen
    obtain ⟨t, run, okT, related⟩ := rule.visit ok valid lowest seen
    exact ⟨t, false, run, fun _ => ⟨okT, related⟩, fun stopped => absurd stopped (by simp)⟩

section Regions
variable {graph : CDPHyperGraph} {S N F : CBitSet} {G B : CBitSet}

theorem inter_of_grown (part : G ⊆ N) (apart : Disjoint N S) (grows : S ∪ G ⊂ B)
    (permitted : B ∩ ((F ∪ N) \ (S ∪ G)) ⊆ S ∪ G) : B ∩ N = G := by
  ext node
  rw [Finset.mem_inter]
  constructor
  · rintro ⟨inB, inN⟩
    by_contra outside
    have notS : node ∉ S := Finset.disjoint_left.mp apart inN
    have grown := permitted (Finset.mem_inter.mpr ⟨inB, Finset.mem_sdiff.mpr
      ⟨Finset.mem_union_right _ inN, by simp [notS, outside]⟩⟩)
    rcases Finset.mem_union.mp grown with inS | inG
    · exact notS inS
    · exact outside inG
  · exact fun inG => ⟨grows.subset (Finset.mem_union_right _ inG), part inG⟩

theorem inter_of_region (part : G ⊆ N) (apart : Disjoint N S)
    (member : B ∈ Region graph (S ∪ G) ((F ∪ N) \ (S ∪ G))) : B ∩ N = G :=
  inter_of_grown part apart member.2.1 member.2.2

theorem subset_of_grown_subset {H : CBitSet} (part : H ⊆ N) (apart : Disjoint N S)
    (inside : S ∪ H ⊆ S ∪ G) : H ⊆ G := by
  intro node inH
  exact (Finset.mem_union.mp (inside (Finset.mem_union_right _ inH))).resolve_left
    (Finset.disjoint_left.mp apart (part inH))

theorem card_grown (part : G ⊆ N) (nonempty : G.Nonempty) (apart : Disjoint N S) :
    S.card < (S ∪ G).card := by
  obtain ⟨node, inG⟩ := nonempty
  refine Finset.card_lt_card (Finset.ssubset_iff_subset_ne.mpr
    ⟨Finset.subset_union_left, fun same => ?_⟩)
  exact Finset.disjoint_left.mp apart (part inG) (same ▸ Finset.mem_union_right S inG)

theorem region_eq (wf : graph.WellFormed) (level : Expansion graph S N F) :
    Region graph S F
      = {B | ∃ G ∈ subsetsOf graph.nodeCount N, B = S ∪ G ∧ graph.Con B} ∪
        {B | ∃ G ∈ subsetsOf graph.nodeCount N,
          B ∈ Region graph (S ∪ G) ((F ∪ N) \ (S ∪ G))} := by
  ext B
  constructor
  · rintro ⟨con, grows, permitted⟩
    have meets := Frontier.meets wf.leads_symm level.frontier con level.nonempty grows permitted
    have listed : B ∩ N ∈ subsetsOf graph.nodeCount N :=
      (mem_subsetsOf level.inside).mpr ⟨Finset.inter_subset_right, meets⟩
    have inside : S ∪ (B ∩ N) ⊆ B := Finset.union_subset grows.subset Finset.inter_subset_left
    by_cases whole : B = S ∪ (B ∩ N)
    · exact .inl ⟨_, listed, whole, con⟩
    · refine .inr ⟨_, listed, con, Finset.ssubset_iff_subset_ne.mpr ⟨inside, Ne.symm whole⟩, ?_⟩
      intro node member
      obtain ⟨inB, banned⟩ := Finset.mem_inter.mp member
      obtain ⟨either, -⟩ := Finset.mem_sdiff.mp banned
      rcases Finset.mem_union.mp either with inF | inN
      · exact Finset.mem_union_left _ (permitted (Finset.mem_inter.mpr ⟨inB, inF⟩))
      · exact Finset.mem_union_right _ (Finset.mem_inter.mpr ⟨inB, inN⟩)
  · rintro (⟨G, listed, rfl, con⟩ | ⟨G, listed, con, grows, permitted⟩)
    · obtain ⟨part, node, inG⟩ := (mem_subsetsOf level.inside).mp listed
      refine ⟨con, Finset.ssubset_iff_subset_ne.mpr ⟨Finset.subset_union_left, ?_⟩, ?_⟩
      · intro same
        exact Finset.disjoint_left.mp level.apart (part inG)
          (same ▸ Finset.mem_union_right S inG)
      · intro other member
        obtain ⟨grown, banned⟩ := Finset.mem_inter.mp member
        exact (Finset.mem_union.mp grown).resolve_right (fun inG =>
          Finset.disjoint_left.mp level.free (part inG) banned)
    · obtain ⟨part, -⟩ := (mem_subsetsOf level.inside).mp listed
      refine ⟨con, lt_of_le_of_lt Finset.subset_union_left grows, ?_⟩
      intro node member
      obtain ⟨inB, inF⟩ := Finset.mem_inter.mp member
      by_contra outside
      have notG : node ∉ G := fun inG => Finset.disjoint_left.mp level.free (part inG) inF
      have grown := permitted (Finset.mem_inter.mpr ⟨inB, Finset.mem_sdiff.mpr
        ⟨Finset.mem_union_left _ inF, by simp [outside, notG]⟩⟩)
      rcases Finset.mem_union.mp grown with inS | inG
      · exact outside inS
      · exact notG inG

end Regions

section Run
variable {graph : CDPHyperGraph} {σ : Type} {hasSeen : σ → CBitSet → Bool}
  {enumerateComplements : ℕ → CBitSet → CBitSet → CBitSet → σ → σ × Bool} {v : ℕ} {Ok : σ → Prop}
  {R P : Set CBitSet → σ → σ → Prop} {S N F full : CBitSet} {s : σ}

abbrev Tests (Ok : σ → Prop) (R P : Set CBitSet → σ → σ → Prop) (X : Set CBitSet) (s : σ) :=
  RunLog.Outcome (fun t => Ok t ∧ R X s t) (P X s)

variable (rule : GrowRule graph hasSeen enumerateComplements v Ok R P)

include rule

theorem GrowRule.visit_tests {call : Call} (ok : Ok s) (valid : call.Valid graph)
    (lowest : call.lowestNode = v) (seen : hasSeen s call.subgraph = true) :
    Tests Ok R P {B | B = call.subgraph ∧ graph.Con B} s
      (enumerateComplements v call.subgraph call.full call.inputNeighborhood s) := by
  obtain ⟨t, stopped, run, tests⟩ := rule.visit ok valid lowest seen
  rw [run]
  exact ⟨tests.1, tests.2⟩

theorem GrowRule.tests_union {X Y : Set CBitSet} {first rest : σ × Bool} (before : Before X Y)
    (tests : Tests Ok R P X s first) (further : Ok first.1 → Tests Ok R P Y first.1 rest) :
    Tests Ok R P (X ∪ Y) s (if first.2 then first else rest) := by
  by_cases stopped : first.2 = true
  · rw [if_pos stopped]
    exact ⟨fun goesOn => by simp [stopped] at goesOn, fun _ => rule.widen (tests.2 stopped)⟩
  · obtain ⟨ok, related⟩ := tests.1 (Bool.eq_false_of_not_eq_true stopped)
    rw [if_neg stopped]
    constructor
    · intro goesOn
      obtain ⟨okRest, relatedRest⟩ := (further ok).1 goesOn
      exact ⟨okRest, rule.seq before related relatedRest⟩
    · exact fun stops => rule.stop before related ((further ok).2 stops)

theorem GrowRule.tests_loop {α κ : Type} {f : α → σ × κ → (σ × κ) × Bool} {Good : κ → Prop}
    {region : α → Set CBitSet} {l : List α} {c : κ}
    (ordered : l.Pairwise fun a b => Before (region a) (region b))
    (step : ∀ a ∈ l, ∀ s c, Ok s → Good c → Good (f a (s, c)).1.2 ∧ Tests Ok R P (region a) s ((f
      a (s, c)).1.1, (f a (s, c)).2)) (ok : Ok s) (good : Good c) :
    Good (untilAbort f l (s, c)).1.2 ∧ Tests Ok R P {B | ∃ a ∈ l, B ∈ region a} s
      ((untilAbort f l (s, c)).1.1, (untilAbort f l (s, c)).2) := by
  induction l generalizing s c with
  | nil =>
    exact ⟨good, fun _ => ⟨ok, by simpa [untilAbort] using rule.refl s⟩,
      fun stopped => nomatch stopped⟩
  | cons a rest ih =>
    obtain ⟨first, ordered⟩ := List.pairwise_cons.mp ordered
    obtain ⟨goodA, testsA⟩ := step a List.mem_cons_self s c ok good
    have later := fun okA => ih ordered (fun b listed => step b (List.mem_cons_of_mem a listed))
      (s := (f a (s, c)).1.1) (c := (f a (s, c)).1.2) okA goodA
    have split : {B | ∃ b ∈ a :: rest, B ∈ region b} =
        region a ∪ {B | ∃ b ∈ rest, B ∈ region b} := by
      ext B
      simp
    have before : Before (region a) {B | ∃ b ∈ rest, B ∈ region b} := by
      rintro A inA B ⟨b, listed, inB⟩
      exact first b listed A inA B inB
    have tests := rule.tests_union before testsA fun okA => (later okA).2
    rw [split, untilAbort]
    by_cases stopped : (f a (s, c)).2 = true
    · rw [if_pos stopped] at tests ⊢
      exact ⟨goodA, stopped ▸ tests⟩
    · rw [if_neg stopped] at tests ⊢
      obtain ⟨okA, -⟩ := testsA.1 (Bool.eq_false_of_not_eq_true stopped)
      exact ⟨(later okA).1, tests⟩

theorem GrowRule.tests_visitGrown (wf : graph.WellFormed) (level : Level graph v S N F full)
    {G : CBitSet} (part : G ⊆ N) {cache : CNeighborhoodCache} (ok : Ok s)
    (fits : cache.Fits graph S N F) :
    (visitGrown graph hasSeen enumerateComplements v S full N F G (s, cache)).1.2.Fits graph S N F ∧
      Tests Ok R P {B | B = S ∪ G ∧ graph.Con B} s
        ((visitGrown graph hasSeen enumerateComplements v S full N F G (s, cache)).1.1,
          (visitGrown graph hasSeen enumerateComplements v S full N F G (s, cache)).2) := by
  unfold visitGrown
  dsimp only
  split
  · rename_i unseen
    exact ⟨fits, fun _ => ⟨ok, rule.skip ok (Finset.mem_union_left _ level.start) unseen⟩,
      fun stopped => nomatch stopped⟩
  · rename_i seen
    exact ⟨pbsNeighborhood_fits wf fits part Finset.subset_union_left,
      rule.visit_tests ok (level.call_valid wf part fits) rfl (by simpa using seen)⟩

theorem GrowRule.expandSubgraph (wf : graph.WellFormed) (fuel : ℕ) {S N F full : CBitSet}
    (level : Level graph v S N F full) (enough : graph.nodeCount < S.card + fuel) (ok : Ok s) :
    Tests Ok R P (Region graph S F) s
      (expandSubgraph graph hasSeen enumerateComplements v fuel S full N F s) := by
  induction fuel generalizing S N F full s with
  | zero =>
    have size := Finset.card_le_card level.bounded
    rw [Finset.card_range] at size
    omega
  | succ fuel ih =>
    have parts : ∀ G ∈ subsetsOf graph.nodeCount N, G ⊆ N ∧ G.Nonempty := fun G listed =>
      (mem_subsetsOf level.inside).mp listed
    have ordered := subsetsOf_pairwise graph.nodeCount N
    have grown : (subsetsOf graph.nodeCount N).Pairwise fun G H =>
        Before {B | B = S ∪ G ∧ graph.Con B} {B | B = S ∪ H ∧ graph.Con B} := by
      refine ordered.imp_of_mem fun _ listed larger => ?_
      rintro A ⟨rfl, -⟩ B ⟨rfl, -⟩ inside
      exact larger (subset_of_grown_subset (parts _ listed).1 level.apart inside)
    have regions : (subsetsOf graph.nodeCount N).Pairwise fun G H =>
        Before (Region graph (S ∪ G) ((F ∪ N) \ (S ∪ G)))
          (Region graph (S ∪ H) ((F ∪ N) \ (S ∪ H))) := by
      refine ordered.imp_of_mem fun first listed larger A inA B inB inside => larger ?_
      rw [← inter_of_region (parts _ first).1 level.apart inA,
        ← inter_of_region (parts _ listed).1 level.apart inB]
      exact Finset.inter_subset_inter_right inside
    have before : Before {B | ∃ G ∈ subsetsOf graph.nodeCount N, B = S ∪ G ∧ graph.Con B}
        {B | ∃ G ∈ subsetsOf graph.nodeCount N,
          B ∈ Region graph (S ∪ G) ((F ∪ N) \ (S ∪ G))} := by
      rintro A ⟨G, listed, rfl, -⟩ B ⟨H, listed', inB⟩ inside
      have meets := inter_of_region (parts H listed').1 level.apart inB
      obtain ⟨-, grows, -⟩ := inB
      obtain ⟨node, inB', outside⟩ := Finset.exists_of_ssubset grows
      simp only [Finset.mem_union, not_or] at outside
      have inG := (Finset.mem_union.mp (inside inB')).resolve_left outside.1
      exact outside.2 (meets ▸ Finset.mem_inter.mpr ⟨inB', (parts G listed).1 inG⟩)
    obtain ⟨fits, visited⟩ := rule.tests_loop grown (fun G listed s cache ok fits =>
      rule.tests_visitGrown wf level (parts G listed).1 ok fits) ok
      (CNeighborhoodCache.init_fits graph S N F N)
    rw [region_eq wf level.toExpansion]
    have stops : ∀ {stopped : Bool} {t : σ} {rest : σ × Bool},
        (if stopped then (t, true) else rest) = if stopped then (t, stopped) else rest := by
      intro stopped
      cases stopped <;> simp
    unfold DPHyper.expandSubgraph
    dsimp only
    rw [stops]
    refine rule.tests_union before visited fun okT => ?_
    refine (rule.tests_loop regions (fun G listed s cache ok fits => ?_) okT fits).2
    have larger := card_grown (parts G listed).1 (parts G listed).2 level.apart
    exact ⟨pbsNeighborhood_fits wf fits (parts G listed).1 Finset.sdiff_subset,
      ih (level.step wf (parts G listed).1 fits) (by omega) ok⟩

def Rooted (graph : CDPHyperGraph) (v : ℕ) : Set CBitSet := {B | graph.ConFrom v B ∧ v ∈ B}

omit rule in
theorem rooted_eq :
    Rooted graph v = {B | B = {v} ∧ graph.Con B} ∪ Region graph {v} (Finset.range v ∪ {v}) := by
  ext B
  constructor
  · rintro ⟨⟨con, lowest⟩, member⟩
    by_cases single : B = {v}
    · exact .inl ⟨single, con⟩
    · refine .inr ⟨con, Finset.ssubset_iff_subset_ne.mpr
        ⟨Finset.singleton_subset_iff.mpr member, Ne.symm single⟩, ?_⟩
      intro node both
      obtain ⟨inB, banned⟩ := Finset.mem_inter.mp both
      refine (Finset.mem_union.mp banned).resolve_left (fun below => ?_)
      have := lowest node inB
      have := Finset.mem_range.mp below
      omega
  · rintro (⟨rfl, con⟩ | ⟨con, grows, permitted⟩)
    · exact ⟨⟨con, by simp⟩, Finset.mem_singleton_self v⟩
    · refine ⟨⟨con, ?_⟩, grows.subset (Finset.mem_singleton_self v)⟩
      intro node inB
      by_contra below
      have here := permitted (Finset.mem_inter.mpr ⟨inB, Finset.mem_union_left _
        (Finset.mem_range.mpr (by omega))⟩)
      rw [Finset.mem_singleton] at here
      omega

theorem GrowRule.growFrom (wf : graph.WellFormed) (bound : v < graph.nodeCount) (ok : Ok s)
    (seen : hasSeen s {v} = true) :
    ∃ t stopped, growFrom graph hasSeen enumerateComplements v s = (t, stopped) ∧
      (stopped = false → Ok t ∧ R (Rooted graph v) s t) ∧
      (stopped = true → P (Rooted graph v) s t) := by
  have before : Before {B | B = {v} ∧ graph.Con B} (Region graph {v} (Finset.range v ∪ {v})) := by
    rintro A ⟨rfl, -⟩ B ⟨-, grows, -⟩ inside
    exact grows.2 inside
  have tests := rule.tests_union before (rule.visit_tests ok (start_call_valid wf bound) rfl seen)
    fun okT => rule.expandSubgraph wf graph.nodeCount (start_level wf bound)
      (by rw [Finset.card_singleton]; omega) okT
  rw [← rooted_eq] at tests
  exact ⟨_, _, rfl, tests.continues, tests.stops⟩

omit rule

theorem RunRule.growFrom (rule : RunRule graph hasSeen enumerateComplements v Ok R)
    (wf : graph.WellFormed) (bound : v < graph.nodeCount) (ok : Ok s) (seen : hasSeen s {v} = true) :
    ∃ t, growFrom graph hasSeen enumerateComplements v s = (t, false) ∧ Ok t ∧
      R (Rooted graph v) s t := by
  obtain ⟨t, stopped, run, continues, stops⟩ := rule.growRule.growFrom wf bound ok seen
  cases stopped with
  | true => exact absurd (stops rfl) id
  | false => exact ⟨t, run, continues rfl⟩

end Run

end DPHyper
