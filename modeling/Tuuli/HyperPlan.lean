import Mathlib.Data.Finset.Card

/-!
`CDPHyperPlan`: the receiver that records the node sets and pairs an
enumeration reports. Recorded pairs are topologically ordered: both sides of a
pair are single nodes or unions of earlier pairs.
-/
namespace DPHyper

abbrev CBitSet := Finset ℕ

structure SPair where
  left : CBitSet
  right : CBitSet
  connectingEdges : List ℕ
  deriving DecidableEq

namespace SPair

def addConnectingEdge (pair : SPair) (edge : ℕ) : SPair :=
  if edge ∈ pair.connectingEdges then pair
  else { pair with connectingEdges := pair.connectingEdges ++ [edge] }

def joined (pair : SPair) : CBitSet := pair.left ∪ pair.right

/-- The pair has these sides, in either order. -/
def Joins (pair : SPair) (left right : CBitSet) : Prop :=
  (pair.left = left ∧ pair.right = right) ∨ (pair.left = right ∧ pair.right = left)

instance (pair : SPair) (left right : CBitSet) : Decidable (pair.Joins left right) :=
  inferInstanceAs (Decidable (_ ∨ _))

@[simp]
theorem addConnectingEdge_left (pair : SPair) (edge : ℕ) :
    (pair.addConnectingEdge edge).left = pair.left := by
  unfold addConnectingEdge
  split <;> rfl

@[simp]
theorem addConnectingEdge_right (pair : SPair) (edge : ℕ) :
    (pair.addConnectingEdge edge).right = pair.right := by
  unfold addConnectingEdge
  split <;> rfl

theorem mem_addConnectingEdge {pair : SPair} {edge other : ℕ} :
    other ∈ (pair.addConnectingEdge edge).connectingEdges ↔
      other = edge ∨ other ∈ pair.connectingEdges := by
  unfold addConnectingEdge
  split
  · rename_i present
    constructor
    · exact Or.inr
    · rintro (rfl | old)
      · exact present
      · exact old
  · simp [or_comm]

theorem Joins.symm {pair : SPair} {left right : CBitSet} (h : pair.Joins left right) :
    pair.Joins right left :=
  Or.symm h

theorem Joins.joined_eq {pair : SPair} {left right : CBitSet} (h : pair.Joins left right) :
    pair.joined = left ∪ right := by
  rcases h with ⟨rfl, rfl⟩ | ⟨rfl, rfl⟩
  · rfl
  · exact Finset.union_comm _ _

theorem Joins.same {pair : SPair} {a b c d : CBitSet} (first : pair.Joins a b)
    (second : pair.Joins c d) : (c = a ∧ d = b) ∨ (c = b ∧ d = a) := by
  rcases first with ⟨rfl, rfl⟩ | ⟨rfl, rfl⟩ <;> rcases second with ⟨rfl, rfl⟩ | ⟨rfl, rfl⟩
  · exact .inl ⟨rfl, rfl⟩
  · exact .inr ⟨rfl, rfl⟩
  · exact .inr ⟨rfl, rfl⟩
  · exact .inl ⟨rfl, rfl⟩

end SPair

/-- The first pair with these sides gets the edge. -/
def addEdgeToPair (left right : CBitSet) (edge : ℕ) : List SPair → List SPair
  | [] => []
  | pair :: rest =>
    if pair.Joins left right then pair.addConnectingEdge edge :: rest
    else pair :: addEdgeToPair left right edge rest

abbrev PairFilter := CBitSet → CBitSet → ℕ → Bool

def noFilter : PairFilter := fun _ _ _ => true

/-- A budget of `none` is one that no enumeration reaches. -/
structure CDPHyperPlan where
  pairBudget : Option ℕ
  pairFilter : PairFilter
  budgetExhausted : Bool
  seen : List CBitSet
  pairs : List SPair

namespace CDPHyperPlan

def empty (pairBudget : Option ℕ) (pairFilter : PairFilter) : CDPHyperPlan :=
  ⟨pairBudget, pairFilter, false, [], []⟩

def HasSeen (plan : CDPHyperPlan) (nodes : CBitSet) : Prop :=
  nodes ∈ plan.seen

instance (plan : CDPHyperPlan) (nodes : CBitSet) : Decidable (plan.HasSeen nodes) :=
  inferInstanceAs (Decidable (_ ∈ _))

def recordSeen (plan : CDPHyperPlan) (nodes : CBitSet) : CDPHyperPlan :=
  if plan.HasSeen nodes then plan else { plan with seen := plan.seen ++ [nodes] }

/-- The source also returns whether to stop, which is never the case here. -/
def foundSingleNode (plan : CDPHyperPlan) (node : ℕ) : CDPHyperPlan :=
  plan.recordSeen {node}

def pairBudgetReached (plan : CDPHyperPlan) : Bool :=
  match plan.pairBudget with
  | none => false
  | some budget => budget ≤ plan.pairs.length

/-- The plan after the call, and whether the enumeration is to stop. -/
def foundSubgraphPair (plan : CDPHyperPlan) (left right : CBitSet) (edge : ℕ) :
    CDPHyperPlan × Bool :=
  if plan.pairFilter left right edge = false then (plan, false)
  else if ∃ pair ∈ plan.pairs, pair.Joins left right then
    ({ plan with pairs := addEdgeToPair left right edge plan.pairs }, false)
  else if plan.pairBudgetReached then ({ plan with budgetExhausted := true }, true)
  else
    let pair : SPair := ⟨left, right, [edge]⟩
    (recordSeen { plan with pairs := plan.pairs ++ [pair] } (left ∪ right), false)

def complete (plan : CDPHyperPlan) (nodeCount : ℕ) : Bool :=
  !plan.budgetExhausted && 0 < nodeCount && decide (plan.HasSeen (Finset.range nodeCount))

end CDPHyperPlan

abbrev Cut := CBitSet × CBitSet

def SPair.cut (pair : SPair) : Cut := (pair.left, pair.right)

def Formed (nodeCount : ℕ) (cuts : List Cut) (nodes : CBitSet) : Prop :=
  (∃ node < nodeCount, nodes = {node}) ∨ ∃ cut ∈ cuts, nodes = cut.1 ∪ cut.2

theorem Formed.mono {nodeCount : ℕ} {cuts more : List Cut} {nodes : CBitSet}
    (formed : Formed nodeCount cuts nodes) (grows : cuts ⊆ more) : Formed nodeCount more nodes := by
  rcases formed with single | ⟨cut, member, rfl⟩
  · exact .inl single
  · exact .inr ⟨cut, grows member, rfl⟩

/-- Each cut separates two sets formed before it, in a way `accepts` allows. -/
inductive Topological (nodeCount : ℕ) (accepts : CBitSet → CBitSet → Prop) : List Cut → Prop
  | nil : Topological nodeCount accepts []
  | snoc {cuts : List Cut} {left right : CBitSet} :
      Topological nodeCount accepts cuts → Disjoint left right → Formed nodeCount cuts left →
      Formed nodeCount cuts right → accepts left right →
      Topological nodeCount accepts (cuts ++ [(left, right)])

theorem Topological.snoc_inv {nodeCount : ℕ} {accepts : CBitSet → CBitSet → Prop} {cuts : List Cut}
    {left right : CBitSet} (h : Topological nodeCount accepts (cuts ++ [(left, right)])) :
    Topological nodeCount accepts cuts ∧ Disjoint left right ∧ Formed nodeCount cuts left ∧
      Formed nodeCount cuts right ∧ accepts left right := by
  generalize same : cuts ++ [(left, right)] = all at h
  cases h with
  | nil => simp at same
  | snoc earlier disjoint formedLeft formedRight accepted =>
    obtain ⟨rfl, last⟩ := List.append_inj' same rfl
    cases last
    exact ⟨earlier, disjoint, formedLeft, formedRight, accepted⟩

theorem Topological.disjoint_accepts {nodeCount : ℕ} {accepts : CBitSet → CBitSet → Prop}
    {cuts : List Cut} (topological : Topological nodeCount accepts cuts) {cut : Cut}
    (member : cut ∈ cuts) : Disjoint cut.1 cut.2 ∧ accepts cut.1 cut.2 := by
  induction topological with
  | nil => simp at member
  | snoc _ disjoint _ _ accepted ih =>
    rcases List.mem_append.mp member with old | last
    · exact ih old
    · rw [List.mem_singleton.mp last]
      exact ⟨disjoint, accepted⟩

theorem addEdgeToPair_cuts (left right : CBitSet) (edge : ℕ) (pairs : List SPair) :
    (addEdgeToPair left right edge pairs).map SPair.cut = pairs.map SPair.cut := by
  induction pairs with
  | nil => rfl
  | cons pair rest ih =>
    unfold addEdgeToPair
    split
    · simp [SPair.cut]
    · simp [ih]

/-- What holds of a plan that was filled under the asserts of `FoundSubgraphPair`. -/
structure CDPHyperPlan.Recorded (nodeCount : ℕ) (accepts : CBitSet → CBitSet → Prop)
    (plan : CDPHyperPlan) : Prop where
  topological : Topological nodeCount accepts (plan.pairs.map SPair.cut)
  formed : ∀ nodes ∈ plan.seen, Formed nodeCount (plan.pairs.map SPair.cut) nodes

namespace CDPHyperPlan.Recorded

variable {nodeCount : ℕ} {accepts : CBitSet → CBitSet → Prop} {plan : CDPHyperPlan}

theorem empty (pairBudget : Option ℕ) (pairFilter : PairFilter) :
    (CDPHyperPlan.empty pairBudget pairFilter).Recorded nodeCount accepts where
  topological := .nil
  formed := by simp [CDPHyperPlan.empty]

theorem recordSeen (recorded : plan.Recorded nodeCount accepts) {nodes : CBitSet}
    (formed : Formed nodeCount (plan.pairs.map SPair.cut) nodes) :
    (plan.recordSeen nodes).Recorded nodeCount accepts := by
  unfold CDPHyperPlan.recordSeen
  split
  · exact recorded
  · refine ⟨recorded.topological, ?_⟩
    intro seen member
    rcases List.mem_append.mp member with old | new
    · exact recorded.formed seen old
    · rw [List.mem_singleton.mp new]
      exact formed

theorem foundSingleNode (recorded : plan.Recorded nodeCount accepts) {node : ℕ}
    (bound : node < nodeCount) : (plan.foundSingleNode node).Recorded nodeCount accepts :=
  recorded.recordSeen (.inl ⟨node, bound, rfl⟩)

theorem foundSubgraphPair (recorded : plan.Recorded nodeCount accepts) {left right : CBitSet}
    {edge : ℕ} (disjoint : Disjoint left right) (seenLeft : plan.HasSeen left)
    (seenRight : plan.HasSeen right) (accepted : accepts left right) :
    (plan.foundSubgraphPair left right edge).1.Recorded nodeCount accepts := by
  unfold CDPHyperPlan.foundSubgraphPair
  split
  · exact recorded
  split
  · refine ⟨?_, ?_⟩
    · rw [addEdgeToPair_cuts]
      exact recorded.topological
    · rw [addEdgeToPair_cuts]
      exact recorded.formed
  split
  · exact ⟨recorded.topological, recorded.formed⟩
  · have extended : Topological nodeCount accepts
        ((plan.pairs ++ [SPair.mk left right [edge]]).map SPair.cut) := by
      rw [List.map_append]
      exact recorded.topological.snoc disjoint (recorded.formed _ seenLeft)
        (recorded.formed _ seenRight) accepted
    refine recordSeen ⟨extended, ?_⟩ (.inr ⟨(left, right), by simp [SPair.cut], rfl⟩)
    intro nodes member
    exact (recorded.formed nodes member).mono (by simp)

end CDPHyperPlan.Recorded

/-- The plan has the pair of these sets, with the edge on it. -/
def CDPHyperPlan.Lists (plan : CDPHyperPlan) (left right : CBitSet) (edge : ℕ) : Prop :=
  ∃ pair ∈ plan.pairs, pair.Joins left right ∧ edge ∈ pair.connectingEdges

instance (plan : CDPHyperPlan) (left right : CBitSet) (edge : ℕ) :
    Decidable (plan.Lists left right edge) :=
  inferInstanceAs (Decidable (∃ pair ∈ plan.pairs, _))

theorem mem_addEdgeToPair_of_mem {left right : CBitSet} {edge : ℕ} {pairs : List SPair}
    {pair : SPair} (member : pair ∈ pairs) :
    ∃ kept ∈ addEdgeToPair left right edge pairs, kept.cut = pair.cut ∧
      pair.connectingEdges ⊆ kept.connectingEdges := by
  induction pairs with
  | nil => simp at member
  | cons first rest ih =>
    unfold addEdgeToPair
    split
    · rcases List.mem_cons.mp member with rfl | later
      · refine ⟨_, List.mem_cons_self, by simp [SPair.cut], ?_⟩
        intro other old
        exact SPair.mem_addConnectingEdge.mpr (.inr old)
      · exact ⟨pair, List.mem_cons_of_mem _ later, rfl, List.Subset.refl _⟩
    · rcases List.mem_cons.mp member with rfl | later
      · exact ⟨pair, List.mem_cons_self, rfl, List.Subset.refl _⟩
      · obtain ⟨kept, present, same⟩ := ih later
        exact ⟨kept, List.mem_cons_of_mem _ present, same⟩

theorem exists_addEdgeToPair {left right : CBitSet} {edge : ℕ} {pairs : List SPair}
    (found : ∃ pair ∈ pairs, pair.Joins left right) :
    ∃ pair ∈ addEdgeToPair left right edge pairs, pair.Joins left right ∧
      edge ∈ pair.connectingEdges := by
  induction pairs with
  | nil => simp at found
  | cons first rest ih =>
    unfold addEdgeToPair
    split
    · rename_i here
      refine ⟨_, List.mem_cons_self, ?_, SPair.mem_addConnectingEdge.mpr (.inl rfl)⟩
      simpa [SPair.Joins] using here
    · rename_i other
      obtain ⟨pair, member, joins⟩ := found
      rcases List.mem_cons.mp member with rfl | later
      · exact absurd joins other
      · obtain ⟨kept, present, facts⟩ := ih ⟨pair, later, joins⟩
        exact ⟨kept, List.mem_cons_of_mem _ present, facts⟩

theorem mem_addEdgeToPair {left right : CBitSet} {edge : ℕ} {pairs : List SPair} {pair : SPair}
    (member : pair ∈ addEdgeToPair left right edge pairs) :
    pair ∈ pairs ∨ ∃ old ∈ pairs, old.Joins left right ∧ pair = old.addConnectingEdge edge := by
  induction pairs with
  | nil => simp [addEdgeToPair] at member
  | cons first rest ih =>
    unfold addEdgeToPair at member
    split at member
    · rename_i here
      rcases List.mem_cons.mp member with rfl | later
      · exact .inr ⟨first, List.mem_cons_self, here, rfl⟩
      · exact .inl (List.mem_cons_of_mem _ later)
    · rcases List.mem_cons.mp member with rfl | later
      · exact .inl List.mem_cons_self
      · rcases ih later with old | ⟨old, inRest, facts⟩
        · exact .inl (List.mem_cons_of_mem _ old)
        · exact .inr ⟨old, List.mem_cons_of_mem _ inRest, facts⟩

namespace CDPHyperPlan

variable {plan : CDPHyperPlan} {left right : CBitSet} {edge : ℕ}

@[simp]
theorem recordSeen_pairs (plan : CDPHyperPlan) (nodes : CBitSet) :
    (plan.recordSeen nodes).pairs = plan.pairs := by
  unfold recordSeen
  split <;> rfl

@[simp]
theorem recordSeen_pairFilter (plan : CDPHyperPlan) (nodes : CBitSet) :
    (plan.recordSeen nodes).pairFilter = plan.pairFilter := by
  unfold recordSeen
  split <;> rfl

@[simp]
theorem recordSeen_pairBudget (plan : CDPHyperPlan) (nodes : CBitSet) :
    (plan.recordSeen nodes).pairBudget = plan.pairBudget := by
  unfold recordSeen
  split <;> rfl

@[simp]
theorem recordSeen_budgetExhausted (plan : CDPHyperPlan) (nodes : CBitSet) :
    (plan.recordSeen nodes).budgetExhausted = plan.budgetExhausted := by
  unfold recordSeen
  split <;> rfl

theorem hasSeen_recordSeen {nodes other : CBitSet} :
    (plan.recordSeen nodes).HasSeen other ↔ plan.HasSeen other ∨ other = nodes := by
  unfold recordSeen
  split
  · rename_i seen
    constructor
    · exact Or.inl
    · rintro (old | rfl)
      · exact old
      · exact seen
  · simp [HasSeen]

@[simp]
theorem foundSubgraphPair_pairFilter :
    (plan.foundSubgraphPair left right edge).1.pairFilter = plan.pairFilter := by
  unfold foundSubgraphPair
  split
  · rfl
  split
  · rfl
  split
  · rfl
  · simp

theorem foundSubgraphPair_lists (passes : plan.pairFilter left right edge = true)
    (continues : (plan.foundSubgraphPair left right edge).2 = false) :
    (plan.foundSubgraphPair left right edge).1.Lists left right edge := by
  unfold foundSubgraphPair at continues ⊢
  rw [passes] at continues ⊢
  simp only [Bool.true_eq_false, if_false] at continues ⊢
  split at continues
  · rename_i known
    rw [if_pos known]
    exact exists_addEdgeToPair known
  · rename_i unknown
    rw [if_neg unknown]
    split at continues
    · simp at continues
    · rename_i room
      rw [if_neg room]
      refine ⟨⟨left, right, [edge]⟩, ?_, .inl ⟨rfl, rfl⟩, List.mem_singleton_self edge⟩
      simp

theorem Lists.foundSubgraphPair {a b : CBitSet} {e : ℕ} (lists : plan.Lists a b e) :
    (plan.foundSubgraphPair left right edge).1.Lists a b e := by
  obtain ⟨pair, member, joins, listed⟩ := lists
  unfold CDPHyperPlan.foundSubgraphPair
  split
  · exact ⟨pair, member, joins, listed⟩
  split
  · obtain ⟨kept, present, cut, grows⟩ := @mem_addEdgeToPair_of_mem left right edge _ _ member
    obtain ⟨sameLeft, sameRight⟩ := Prod.mk.inj cut
    refine ⟨kept, present, ?_, grows listed⟩
    rw [SPair.Joins, sameLeft, sameRight]
    exact joins
  split
  · exact ⟨pair, member, joins, listed⟩
  · refine ⟨pair, ?_, joins, listed⟩
    simp [member]

theorem lists_of_foundSubgraphPair {a b : CBitSet} {e : ℕ}
    (lists : (plan.foundSubgraphPair left right edge).1.Lists a b e) :
    plan.Lists a b e ∨ (e = edge ∧ ((a = left ∧ b = right) ∨ (a = right ∧ b = left))) := by
  unfold CDPHyperPlan.foundSubgraphPair at lists
  split at lists
  · exact .inl lists
  split at lists
  · obtain ⟨pair, member, joins, listed⟩ := lists
    rcases mem_addEdgeToPair member with old | ⟨old, inPairs, here, rfl⟩
    · exact .inl ⟨pair, old, joins, listed⟩
    · have joinsOld : old.Joins a b := by simpa [SPair.Joins] using joins
      rcases SPair.mem_addConnectingEdge.mp listed with rfl | before
      · exact .inr ⟨rfl, here.same joinsOld⟩
      · exact .inl ⟨old, inPairs, joinsOld, before⟩
  split at lists
  · exact .inl lists
  · obtain ⟨pair, member, joins, listed⟩ := lists
    rw [recordSeen_pairs] at member
    rcases List.mem_append.mp member with old | new
    · exact .inl ⟨pair, old, joins, listed⟩
    · obtain rfl := List.mem_singleton.mp new
      have here : SPair.Joins ⟨left, right, [edge]⟩ left right := .inl ⟨rfl, rfl⟩
      exact .inr ⟨List.mem_singleton.mp listed, here.same joins⟩

end CDPHyperPlan

end DPHyper
