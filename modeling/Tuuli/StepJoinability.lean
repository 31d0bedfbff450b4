import Tuuli.Enumeration
import Tuuli.SimplifyResult

/-!
Whether a step keeps the graph joinable, and when `Simplify` succeeds. A step
enlarges one edge; the nodes stay joinable exactly when the edge is not needed or
each of its new sides lies in a set that is connected without it.
-/
namespace DPHyper
open HyperConnect

section Joinable
variable {δ : Type} {graph : CDPHyperGraph} {step : SSimplificationStep δ} {k : ℕ}

def CDPHyperGraph.LeadsWithout (graph : CDPHyperGraph) (k : ℕ) (u w : CBitSet) : Prop :=
  ∃ (index : ℕ) (edge : SEdge), (index ≠ k * 2 ∧ index ≠ k * 2 + 1) ∧
    graph.edges[index]? = some edge ∧ edge.left = u ∧ edge.right = w

def CDPHyperGraph.Joinable (graph : CDPHyperGraph) : Prop :=
  graph.Con (Finset.range graph.nodeCount)

def StepSafe (graph : CDPHyperGraph) (step : SSimplificationStep δ) : Prop :=
  let Without := Constructible (Finset.range graph.nodeCount) (graph.LeadsWithout step.after)
  Without (Finset.range graph.nodeCount) ∨
    ((∃ X, Without X ∧ step.change.newLeft ⊆ X) ∧ ∃ Y, Without Y ∧ step.change.newRight ⊆ Y)

variable {u w : CBitSet} (wf : graph.WellFormed)

include wf

theorem CDPHyperGraph.WellFormed.leads_iff_withEdge (bound : k < graph.logicalEdgeCount) :
    graph.Leads u w ↔ WithEdge (graph.LeadsWithout k) (graph.edgeAt k).left
      (graph.edgeAt k).right u w := by
  have found := CDPHyperGraph.edgeAt_found bound
  constructor
  · rintro ⟨edge, member, rfl, rfl⟩
    obtain ⟨index, known⟩ := List.mem_iff_getElem?.mp member
    by_cases forward : index = k * 2
    · subst forward
      obtain rfl := Option.some.inj (known.symm.trans found)
      exact .inr (.inl ⟨rfl, rfl⟩)
    · by_cases backward : index = k * 2 + 1
      · subst backward
        obtain rfl := Option.some.inj (known.symm.trans (wf.directions found))
        exact .inr (.inr ⟨rfl, rfl⟩)
      · exact .inl ⟨index, edge, ⟨forward, backward⟩, known, rfl, rfl⟩
  · rintro (⟨index, edge, -, known, rfl, rfl⟩ | ⟨rfl, rfl⟩ | ⟨rfl, rfl⟩)
    · exact ⟨edge, List.mem_of_getElem? known, rfl, rfl⟩
    · exact ⟨_, List.mem_of_getElem? found, rfl, rfl⟩
    · exact ⟨_, List.mem_of_getElem? (wf.directions found), rfl, rfl⟩

theorem CDPHyperGraph.WellFormed.leadsWithout_symm (leads : graph.LeadsWithout k u w) :
    graph.LeadsWithout k w u := by
  obtain ⟨index, edge, ⟨notForward, notBackward⟩, known, rfl, rfl⟩ := leads
  obtain ⟨count, length⟩ := wf.even
  have inside := (List.getElem?_eq_some_iff.mp known).1
  obtain ⟨j, rfl | rfl⟩ : ∃ j, index = 2 * j ∨ index = 2 * j + 1 := ⟨index / 2, by omega⟩
  · exact ⟨2 * j + 1, edge.reverse, by omega, wf.paired known, rfl, rfl⟩
  · have before : graph.edges[2 * j]? = some graph.edges[2 * j] :=
      List.getElem?_eq_getElem (by omega)
    have partner := Option.some.inj (known.symm.trans (wf.paired before))
    refine ⟨2 * j, graph.edges[2 * j], by omega, before, ?_, ?_⟩
    · rw [partner]
      rfl
    · rw [partner]
      rfl

theorem StepFits.leads_applyTo (fits : StepFits graph step) :
    (step.applyTo graph).Leads u w ↔ WithEdge (graph.LeadsWithout step.after)
      step.change.newLeft step.change.newRight u w := by
  have entries := @CDPHyperGraph.WellFormed.replaceEdge_getElem graph step.change.edge
    step.change.newLeft step.change.newRight _ wf fits.found
  rw [fits.edge] at entries
  unfold SSimplificationStep.applyTo
  rw [fits.edge]
  constructor
  · rintro ⟨edge, member, rfl, rfl⟩
    obtain ⟨index, known⟩ := List.mem_iff_getElem?.mp member
    rcases entries.mp known with ⟨others, before⟩ | ⟨-, rfl⟩ | ⟨-, rfl⟩
    · exact .inl ⟨index, edge, others, before, rfl, rfl⟩
    · exact .inr (.inl ⟨rfl, rfl⟩)
    · exact .inr (.inr ⟨rfl, rfl⟩)
  · rintro (⟨index, edge, others, known, rfl, rfl⟩ | ⟨rfl, rfl⟩ | ⟨rfl, rfl⟩)
    · exact ⟨edge, List.mem_of_getElem? (entries.mpr (.inl ⟨others, known⟩)), rfl, rfl⟩
    · exact ⟨_, List.mem_of_getElem? (entries.mpr (.inr (.inl ⟨rfl, rfl⟩))), rfl, rfl⟩
    · exact ⟨_, List.mem_of_getElem? (entries.mpr (.inr (.inr ⟨rfl, rfl⟩))), rfl, rfl⟩

theorem StepFits.joinable_iff (fits : StepFits graph step) (joinable : graph.Joinable) :
    (step.applyTo graph).Joinable ↔ StepSafe graph step := by
  obtain ⟨left, right, -, -⟩ := wf.edgeAt_sides fits.bound
  have whole : Constructible (Finset.range graph.nodeCount) (WithEdge
      (graph.LeadsWithout step.after) (graph.edgeAt step.after).left
      (graph.edgeAt step.after).right) (Finset.range graph.nodeCount) :=
    joinable.mono (wf.leads_iff_withEdge fits.bound).mp
  have count : (step.applyTo graph).nodeCount = graph.nodeCount :=
    CDPHyperGraph.replaceEdge_nodeCount
  have grown := constructible_grow_edge_iff wf.leadsWithout_symm left right
    (fits.oldLeft ▸ fits.growsLeft) (fits.oldRight ▸ fits.growsRight) whole
  unfold CDPHyperGraph.Joinable CDPHyperGraph.Con
  rw [count]
  constructor
  · intro after
    exact grown.mp (after.mono (fits.leads_applyTo wf).mp)
  · intro safe
    exact (grown.mpr safe).mono (fits.leads_applyTo wf).mpr

end Joinable

namespace CDPHyperGraphSimplifier
variable {δ : Type} {settings : SimplifierSettings δ} {start : CDPHyperGraph} {n m : ℕ}

def PrefixFits (settings : SimplifierSettings δ) (start : CDPHyperGraph) (m : ℕ) : Prop :=
  Available settings start m ∧
    (fresh settings start m).enumerationExceedsBudget settings = false

def DoublingFits (settings : SimplifierSettings δ) (start : CDPHyperGraph) : Prop :=
  (∃ a, PrefixFits settings start (2 ^ a)) ∨
    ∃ j, Exhausted settings start j ∧ PrefixFits settings start j

section Success
variable (wf : start.WellFormed)
  (arranged : start.Arranged (List.range start.logicalEdgeCount))
  {t : CDPHyperGraphSimplifier δ} {found : Bool} {rounds : ℕ}

include wf in
theorem Stops.doublingFits {log : List (CDPHyperGraphSimplifier δ)}
    {result : CDPHyperGraphSimplifier δ × Bool} (stops : Stops settings start 1 n log result) :
    DoublingFits settings start := by
  rcases stops.place with ⟨a, rfl, available⟩ | ⟨j, rfl, ends⟩
  · have same : 1 * 2 ^ a = 2 ^ a := Nat.one_mul _
    have fits := stops.fits
    rw [same] at available fits
    exact .inl ⟨a, available, fits⟩
  · refine .inr ⟨j, ends, ends.1, ?_⟩
    rw [← exceeds_of_graph (fresh_stopped wf ends.2).1]
    exact stops.fits

theorem Exhausted.unique {i j : ℕ} (first : Exhausted settings start i)
    (second : Exhausted settings start j) : i = j := by
  rcases Nat.lt_trichotomy i j with less | same | less
  · have success := second.1 i less
    rw [first.2] at success
    exact absurd success (by simp)
  · exact same
  · have success := first.1 j less
    rw [second.2] at success
    exact absurd success (by simp)

theorem GivesUp.not_doublingFits {j : ℕ} {result : CDPHyperGraphSimplifier δ × Bool}
    (gives : GivesUp settings start 1 j result) : ¬ DoublingFits settings start := by
  rintro (⟨a, available, fits⟩ | ⟨i, ends, -, fits⟩)
  · have small : 1 * 2 ^ a ≤ j := by
      rw [Nat.one_mul]
      by_contra large
      have success := available j (by omega)
      rw [gives.ends.2] at success
      exact absurd success (by simp)
    have exceeds := gives.doubles a small
    rw [Nat.one_mul, fits] at exceeds
    exact absurd exceeds (by simp)
  · have exceeds := gives.exceeds
    rw [gives.ends.unique ends, fits] at exceeds
    exact absurd exceeds (by simp)

include wf arranged in
/-- `Simplify` succeeds exactly when the doubling meets steps that fit and the search does not
find that the original graph fits. -/
theorem simplify_succeeds_iff
    (returned : simplify settings rounds (init settings start) = some (t, found)) :
    found = true ↔ DoublingFits settings start ∧
      ∀ probed ∈ simplifyProbes settings rounds (init settings start),
        probed.applied.length = 0 → probed.enumerationExceedsBudget settings = true := by
  rcases simplify_spec wf returned with ⟨j, gives⟩ | ⟨n, stops⟩
  · have failed : found = false := (Prod.mk.inj gives.result).2
    rw [failed]
    constructor
    · intro success
      exact absurd success (by simp)
    · rintro ⟨fits, -⟩
      exact absurd fits gives.not_doublingFits
  · obtain ⟨-, positive, last, searched⟩ := stops.searched wf arranged
    rw [positive, decide_eq_true_iff]
    constructor
    · intro some
      refine ⟨stops.doublingFits wf, ?_⟩
      intro probed listed none
      cases outcome : probed.enumerationExceedsBudget settings with
      | true => rfl
      | false =>
        have most := searched.fits probed listed outcome
        dsimp only at most
        omega
    · rintro ⟨-, exceeds⟩
      by_contra none
      have zero : t.applied.length = 0 := by omega
      obtain ⟨probed, listed, count⟩ := searched.chosen (by
        dsimp only
        omega)
      dsimp only at count
      have less := searched.exceeds probed listed (exceeds probed listed (by omega))
      dsimp only at less
      omega

end Success

/-- A step keeps the graph joinable exactly when it is safe; and when only the original graph
exceeds the budget, `Simplify` succeeds exactly when the doubling meets steps that fit and the
search does not find that the original graph fits. -/
theorem simplifier_keeps_joinable_and_succeeds_iff (settings : SimplifierSettings δ) (nodeCount : ℕ)
    (edges : List (CDPHyperGraph.Hyperedge nodeCount)) :
    (∀ n, ((fresh settings (.ofEdges nodeCount edges) n).applyStep settings).2 = true →
      ∃ step, (fresh settings (.ofEdges nodeCount edges) (n + 1)).applied
          = step :: (fresh settings (.ofEdges nodeCount edges) n).applied ∧
        ((fresh settings (.ofEdges nodeCount edges) n).graph.Joinable →
          ((fresh settings (.ofEdges nodeCount edges) (n + 1)).graph.Joinable ↔
            StepSafe (fresh settings (.ofEdges nodeCount edges) n).graph step))) ∧
    (∃ rounds result, simplify settings rounds (init settings (.ofEdges nodeCount edges))
      = some result) ∧
    ∀ rounds t found,
      simplify settings rounds (init settings (.ofEdges nodeCount edges)) = some (t, found) →
      (((init settings (.ofEdges nodeCount edges)).enumerationExceedsBudget settings = true →
          (∃ m, 1 ≤ m ∧ PrefixFits settings (.ofEdges nodeCount edges) m) → found = true) ↔
        ((init settings (.ofEdges nodeCount edges)).enumerationExceedsBudget settings = true →
          (∃ m, 1 ≤ m ∧ PrefixFits settings (.ofEdges nodeCount edges) m) →
          DoublingFits settings (.ofEdges nodeCount edges) ∧
          ∀ probed ∈ simplifyProbes settings rounds (init settings (.ofEdges nodeCount edges)),
            probed.applied.length = 0 → probed.enumerationExceedsBudget settings = true)) := by
  have wf := (CDPHyperGraph.ofEdges_wellFormed nodeCount edges).1
  have arranged := CDPHyperGraph.ofEdges_arranged nodeCount edges
  refine ⟨?_, simplify_returns wf settings, ?_⟩
  · intro n success
    obtain ⟨reached, unapplied, -, -⟩ := fresh_spec settings wf n
    rcases reached.applyStep settings unapplied with
      ⟨failed, -⟩ | ⟨-, -, -, -, step, fits, graph, applied⟩
    · rw [success] at failed
      exact absurd failed (by simp)
    · refine ⟨step, applied, fun joinable => ?_⟩
      change ((fresh settings (.ofEdges nodeCount edges) n).applyStep settings).1.graph.Joinable ↔ _
      rw [graph]
      exact fits.joinable_iff reached.wf joinable
  · intro rounds t found returned
    rw [simplify_succeeds_iff wf arranged returned]

section Unsafe

theorem fresh_one : fresh settings start 1 = ((init settings start).applyStep settings).1 := rfl

def swallowGraph : CDPHyperGraph := .ofEdges 4
  [edgeAmong 4 {0} {3} 0 (by decide), edgeAmong 4 {3} {1} 1 (by decide),
    edgeAmong 4 {0, 3} {2} 2 (by decide), edgeAmong 4 {0} {1, 2} 3 (by decide)]

def swallowSettings : SimplifierSettings ℕ :=
  naturalSettings 100 [0, 3] (fun left _ => if left.card = 3 then 1 else 9)

theorem swallowGraph_joinable : swallowGraph.Joinable := by
  have first : swallowGraph.Con ({0} ∪ {3}) := .join (.single (by decide)) (.single (by decide))
    (by decide) ⟨⟨{0}, {3}, 0⟩, by decide, rfl, rfl⟩ (by decide) (by decide)
  have second : swallowGraph.Con ({0} ∪ {3} ∪ {1}) := .join first (.single (by decide))
    (by decide) ⟨⟨{3}, {1}, 1⟩, by decide, rfl, rfl⟩ (by decide) (by decide)
  have whole : Finset.range swallowGraph.nodeCount = {0} ∪ {3} ∪ {1} ∪ {2} := by decide
  unfold CDPHyperGraph.Joinable
  rw [whole]
  exact .join second (.single (by decide)) (by decide)
    ⟨⟨{0, 3}, {2}, 2⟩, by decide, rfl, rfl⟩ (by decide) (by decide)

/-- The graph after the first step has no edge between the nodes 1, 3 and the nodes 0, 2. -/
theorem first_step_destroys_joinability :
    swallowGraph.Joinable ∧
      ((init swallowSettings swallowGraph).applyStep swallowSettings).2 = true ∧
      ¬ ((init swallowSettings swallowGraph).applyStep swallowSettings).1.graph.Joinable := by
  refine ⟨swallowGraph_joinable, by decide +kernel, fun joinable => ?_⟩
  have start : swallowGraph.WellFormed := (CDPHyperGraph.ofEdges_wellFormed 4 _).1
  have wf := (fresh_spec swallowSettings start 1).1.wf
  rw [fresh_one] at wf
  have count : ((init swallowSettings swallowGraph).applyStep swallowSettings).1.graph.nodeCount
      = 4 := by decide +kernel
  have none : ∀ edge ∈ ((init swallowSettings swallowGraph).applyStep
      swallowSettings).1.graph.edges, ¬ (edge.left ⊆ {1, 3} ∧ edge.right ⊆ {0, 2}) := by
    decide +kernel
  generalize ((init swallowSettings swallowGraph).applyStep swallowSettings).1.graph = after
    at joinable wf count none
  unfold CDPHyperGraph.Joinable at joinable
  rw [count] at joinable
  obtain ⟨u, w, ⟨edge, member, rfl, rfl⟩, inside, outside⟩ :=
    Constructible.exists_edge wf.leads_symm joinable (S := {1, 3}) (by decide) (by decide)
      (by decide)
  have rest : Finset.range 4 \ {1, 3} = ({0, 2} : CBitSet) := by decide
  rw [rest] at outside
  exact none edge member ⟨inside, outside⟩

end Unsafe

end CDPHyperGraphSimplifier
end DPHyper
