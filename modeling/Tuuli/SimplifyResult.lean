import Mathlib.Data.List.MinMax
import Tuuli.StepSearch

/-!
The result of `Simplify`. The doubling stops at the first power of two whose steps
fit the budget, or when there are no more steps; the number of steps the binary
search settles on was probed to fit, and the one below it to exceed. Each probe was
made while the lists of the nodes had the order of that moment, and the graph is
left in another one.
-/
namespace DPHyper
namespace CDPHyperGraphSimplifier

variable {δ : Type} {settings : SimplifierSettings δ} {start : CDPHyperGraph}
  {s t : CDPHyperGraphSimplifier δ} {n m : ℕ}

def doubleProbes (settings : SimplifierSettings δ) :
    ℕ → CDPHyperGraphSimplifier δ → ℕ → ℕ → List (CDPHyperGraphSimplifier δ)
  | 0, _, _, _ => []
  | rounds + 1, s, applied, upper =>
    let raised := applyMore settings (upper - applied) s
    let reached := applied + (raised.1.applied.length - s.applied.length)
    if raised.2 = false then
      if raised.1.enumerationExceedsBudget settings then []
      else probes settings (reached + 1) raised.1 0 (reached + 1)
    else if raised.1.enumerationExceedsBudget settings = false then
      probes settings (reached + 1) raised.1 0 (reached + 1)
    else doubleProbes settings rounds raised.1 reached (upper * 2)

def simplifyProbes (settings : SimplifierSettings δ) (rounds : ℕ) (s : CDPHyperGraphSimplifier δ) :
    List (CDPHyperGraphSimplifier δ) :=
  doubleProbes settings rounds s 0 1

structure Stops (settings : SimplifierSettings δ) (start : CDPHyperGraph) (upper n : ℕ)
    (log : List (CDPHyperGraphSimplifier δ)) (result : CDPHyperGraphSimplifier δ × Bool) :
    Prop where
  fits : (fresh settings start n).enumerationExceedsBudget settings = false
  result : result = (fresh settings start n).chooseCount settings
    (fresh settings start n).applied.length
  log : log = probes settings ((fresh settings start n).applied.length + 1)
    (fresh settings start n) 0 ((fresh settings start n).applied.length + 1)
  place : (∃ a, n = upper * 2 ^ a ∧ Available settings start n) ∨
    ∃ j, n = j + 1 ∧ Exhausted settings start j

structure GivesUp (settings : SimplifierSettings δ) (start : CDPHyperGraph) (upper j : ℕ)
    (result : CDPHyperGraphSimplifier δ × Bool) : Prop where
  ends : Exhausted settings start j
  exceeds : (fresh settings start j).enumerationExceedsBudget settings = true
  doubles : ∀ a, upper * 2 ^ a ≤ j →
    (fresh settings start (upper * 2 ^ a)).enumerationExceedsBudget settings = true
  result : result = (((fresh settings start (j + 1)).applySteps settings 0).1, false)

theorem exceeds_of_graph (same : s.graph = t.graph) :
    s.enumerationExceedsBudget settings = t.enumerationExceedsBudget settings := by
  unfold enumerationExceedsBudget
  rw [same]

section Double
variable (wf : start.WellFormed)

include wf

theorem double_ends {upper j : ℕ} (available : Available settings start m) (least : m ≤ j)
    (bound : j < upper) (ends : Exhausted settings start j)
    (raised : applyMore settings (upper - m) (fresh settings start m) = (fresh settings start (j +
      1), false)) (rounds : ℕ) (result : CDPHyperGraphSimplifier δ × Bool)
    (returned : double settings (rounds + 1) (fresh settings start m) m upper = some result) :
    GivesUp settings start upper j result ∨ Stops settings start upper (j + 1)
      (doubleProbes settings (rounds + 1) (fresh settings start m) m upper) result := by
  obtain ⟨sameGraph, sameApplied⟩ := fresh_stopped wf ends.2
  have reached : m + ((fresh settings start (j + 1)).applied.length -
      (fresh settings start m).applied.length) = (fresh settings start (j + 1)).applied.length := by
    rw [available.length wf, sameApplied, ends.1.length wf]
    omega
  have doubles : ∀ a, upper * 2 ^ a ≤ j →
      (fresh settings start (upper * 2 ^ a)).enumerationExceedsBudget settings = true := by
    intro a small
    have positive := Nat.le_mul_of_pos_right upper (Nat.two_pow_pos a)
    omega
  unfold double at returned
  unfold doubleProbes
  rw [raised] at returned ⊢
  dsimp only at returned ⊢
  rw [if_pos rfl, reached] at returned
  rw [if_pos rfl, reached]
  cases outcome : (fresh settings start (j + 1)).enumerationExceedsBudget settings with
  | true =>
    rw [outcome, if_pos rfl, Option.some.injEq] at returned
    refine .inl ⟨ends, ?_, doubles, returned.symm⟩
    rw [← exceeds_of_graph sameGraph, outcome]
  | false =>
    rw [outcome, if_neg Bool.false_ne_true, Option.some.injEq] at returned
    rw [if_neg Bool.false_ne_true]
    exact .inr ⟨outcome, returned.symm, rfl, .inr ⟨j, rfl, ends⟩⟩

theorem double_spec (rounds : ℕ) {upper : ℕ} (available : Available settings start m)
    (below : m < upper) (result : CDPHyperGraphSimplifier δ × Bool)
    (returned : double settings rounds (fresh settings start m) m upper = some result) :
    (∃ j, GivesUp settings start upper j result) ∨ ∃ n, Stops settings start upper n
      (doubleProbes settings rounds (fresh settings start m) m upper) result := by
  induction rounds generalizing m upper with
  | zero =>
    unfold double at returned
    exact absurd returned (by simp)
  | succ rounds ih =>
    have sum : m + (upper - m) = upper := by omega
    rcases applyMore_fresh (upper - m) available with ⟨further, raised⟩ | ⟨j, least, bound, ends, raised⟩
    · rw [sum] at further raised
      have reached : m + ((fresh settings start upper).applied.length -
          (fresh settings start m).applied.length) = upper := by
        rw [available.length wf, further.length wf, sum]
      unfold double at returned
      unfold doubleProbes
      rw [raised] at returned ⊢
      dsimp only at returned ⊢
      rw [if_neg (by simp), reached] at returned
      rw [if_neg (by simp), reached]
      cases outcome : (fresh settings start upper).enumerationExceedsBudget settings with
      | false =>
        rw [outcome, if_pos rfl, Option.some.injEq] at returned
        rw [if_pos rfl]
        refine .inr ⟨upper, outcome, ?_, ?_, .inl ⟨0, by simp, further⟩⟩
        · rw [further.length wf, returned]
        · rw [further.length wf]
      | true =>
        rw [outcome, if_neg (by simp)] at returned
        rw [if_neg (by simp)]
        have power : ∀ a, upper * 2 * 2 ^ a = upper * 2 ^ (a + 1) := by
          intro a
          rw [Nat.pow_succ, Nat.mul_assoc, Nat.mul_comm 2]
        rcases ih further (by omega) returned with ⟨j, gives⟩ | ⟨n, stops⟩
        · refine .inl ⟨j, gives.ends, gives.exceeds, ?_, gives.result⟩
          intro a small
          cases a with
          | zero =>
            rw [Nat.pow_zero, Nat.mul_one]
            exact outcome
          | succ a =>
            rw [← power] at small ⊢
            exact gives.doubles a small
        · refine .inr ⟨n, stops.fits, stops.result, stops.log, ?_⟩
          rcases stops.place with ⟨a, rfl, place⟩ | place
          · exact .inl ⟨a + 1, power a, place⟩
          · exact .inr place
    · rcases double_ends wf available least (by omega) ends raised rounds result returned with
        gives | stops
      · exact .inl ⟨j, gives⟩
      · exact .inr ⟨j + 1, stops⟩

end Double

section Result
variable (wf : start.WellFormed)
  (arranged : start.Arranged (List.range start.logicalEdgeCount))
  {log : List (CDPHyperGraphSimplifier δ)} {upper : ℕ} {found : Bool}

def Tight (settings : SimplifierSettings δ) (s : CDPHyperGraphSimplifier δ) : Prop :=
  s.enumerationExceedsBudget settings = false ∧
    s.unapplyStep.enumerationExceedsBudget settings = true

/-- Where `n` steps fit the budget and were made, the number of those that are applied decides
whether the graph is enumerated within it, however they were undone and redone. -/
def StepsDecide (settings : SimplifierSettings δ) (start : CDPHyperGraph) : Prop :=
  ∀ n, (fresh settings start n).enumerationExceedsBudget settings = false →
    ∀ s t, Moved settings start s → Moved settings start t →
      s.applied.length + s.unapplied.length = (fresh settings start n).applied.length →
      t.applied.length + t.unapplied.length = (fresh settings start n).applied.length →
      s.applied.length = t.applied.length →
      s.enumerationExceedsBudget settings = t.enumerationExceedsBudget settings

include wf arranged in
theorem Stops.searched (stops : Stops settings start upper n log (t, found)) :
    At settings start n t ∧ found = decide (0 < t.applied.length) ∧
      ∃ last, Searched settings start n 0 ((fresh settings start n).applied.length + 1) log
        (last, t.applied.length) := by
  have here : At settings start n (fresh settings start n) := at_fresh wf arranged
  have searched := here.bisect wf arranged ((fresh settings start n).applied.length + 1) stops.fits
    (Nat.le_refl _) (Nat.zero_le _) (Nat.le_refl _) (Nat.zero_le _)
  have result := stops.result
  unfold chooseCount at result
  dsimp only at result
  rcases bisected : bisect settings ((fresh settings start n).applied.length + 1)
    (fresh settings start n) 0 ((fresh settings start n).applied.length + 1) with ⟨last, count⟩
  rw [bisected] at searched result
  obtain ⟨reached, resultAt, length⟩ := searched.here.applySteps wf searched.inside
  dsimp only at reached resultAt length result
  rw [if_pos reached, Prod.mk.injEq] at result
  obtain ⟨rfl, rfl⟩ := result
  refine ⟨resultAt, rfl, last, ?_⟩
  rw [length, stops.log]
  exact searched

theorem Stops.moved (stops : Stops settings start upper n log (t, found)) :
    Moved settings start t := by
  have moved := (@moved_fresh δ settings start n).chooseCount (fresh settings start n).applied.length
  rw [← stops.result] at moved
  exact moved

include wf arranged in
theorem Stops.tight (stops : Stops settings start upper n log (t, true))
    (decides : StepsDecide settings start) : Tight settings t := by
  obtain ⟨here, positive, last, searched⟩ := stops.searched wf arranged
  have some : 0 < t.applied.length := by simpa using positive
  have probed : ∀ s ∈ log, Moved settings start s := by
    rw [stops.log]
    exact (moved_fresh n).probes _
  constructor
  · obtain ⟨chosen, listed, count⟩ := searched.chosen (Nat.lt_succ_of_le searched.inside)
    rw [decides n stops.fits t chosen stops.moved (probed chosen listed) here.total
      (searched.probed chosen listed).total count.symm]
    -- a probe that exceeds the budget has fewer steps than are chosen
    by_contra exceeds
    have less := searched.exceeds chosen listed (Bool.eq_true_of_not_eq_false exceeds)
    exact absurd count less.ne
  · obtain ⟨before, listed, count⟩ := searched.before some
    have undone : t.unapplyStep.applied.length + 1 = t.applied.length := by
      cases latest : t.applied with
      | nil => simp [latest] at some
      | cons step steps => simp [unapplyStep, latest, modifyEdge]
    have less : Moved settings start t.unapplyStep := stops.moved.move .unapply
    rw [decides n stops.fits t.unapplyStep before less (probed before listed)
      (here.unapplyStep_any wf).total (searched.probed before listed).total (by omega)]
    by_contra fits
    have most := searched.fits before listed (Bool.eq_false_of_not_eq_true fits)
    dsimp only at most
    omega

include wf arranged in
theorem Stops.failed_restores (stops : Stops settings start upper n log (t, false)) :
    t.graph.edges = start.edges := by
  obtain ⟨here, positive, -⟩ := stops.searched wf arranged
  exact here.edges_eq (by simpa using positive.symm)

include wf in
theorem simplify_spec {rounds : ℕ} {result : CDPHyperGraphSimplifier δ × Bool}
    (returned : simplify settings rounds (init settings start) = some result) :
    (∃ j, GivesUp settings start 1 j result) ∨
      ∃ n, Stops settings start 1 n (simplifyProbes settings rounds (init settings start)) result :=
  double_spec wf rounds (fun j less => absurd less (Nat.not_lt_zero j)) Nat.zero_lt_one result
    returned

include wf in
theorem available_of_double_none (rounds : ℕ) (available : Available settings start m)
    (below : m < upper)
    (unfinished : double settings (rounds + 1) (fresh settings start m) m upper = none) :
    Available settings start (upper * 2 ^ rounds) := by
  induction rounds generalizing m upper with
  | zero =>
    have sum : m + (upper - m) = upper := by omega
    rcases applyMore_fresh (upper - m) available with ⟨further, -⟩ | ⟨j, -, -, -, raised⟩
    · rw [sum] at further
      simpa using further
    · unfold double at unfinished
      rw [raised] at unfinished
      dsimp only at unfinished
      rw [if_pos rfl] at unfinished
      split at unfinished <;> exact absurd unfinished (by simp)
  | succ rounds ih =>
    have sum : m + (upper - m) = upper := by omega
    rcases applyMore_fresh (upper - m) available with ⟨further, raised⟩ | ⟨j, -, -, -, raised⟩
    · rw [sum] at further raised
      have reached : m + ((fresh settings start upper).applied.length -
          (fresh settings start m).applied.length) = upper := by
        rw [available.length wf, further.length wf, sum]
      unfold double at unfinished
      rw [raised] at unfinished
      dsimp only at unfinished
      rw [if_neg (by simp), reached] at unfinished
      split at unfinished
      · exact absurd unfinished (by simp)
      · have rest := ih further (by omega) unfinished
        rwa [Nat.mul_assoc, ← Nat.pow_succ'] at rest
    · unfold double at unfinished
      rw [raised] at unfinished
      dsimp only at unfinished
      rw [if_pos rfl] at unfinished
      split at unfinished <;> exact absurd unfinished (by simp)

include wf in
theorem simplify_returns (settings : SimplifierSettings δ) :
    ∃ rounds result, simplify settings rounds (init settings start) = some result := by
  let rounds := (init settings start).remaining + 1
  cases outcome : simplify settings (rounds + 1) (init settings start) with
  | some result => exact ⟨_, result, outcome⟩
  | none =>
    have available := available_of_double_none wf rounds
      (fun j less => absurd less (Nat.not_lt_zero j)) Nat.zero_lt_one outcome
    have bounded := available.bounded wf
    have large : rounds < 2 ^ rounds := Nat.lt_two_pow_self
    omega

include wf arranged in
theorem simplify_restored {rounds : ℕ}
    (returned : simplify settings rounds (init settings start) = some (t, found)) :
    (restore settings t).graph.edges = start.edges ∧
      (found = false → t.graph.edges = start.edges) := by
  rcases simplify_spec wf returned with ⟨j, gives⟩ | ⟨n, stops⟩
  · obtain ⟨rfl, rfl⟩ := Prod.mk.inj gives.result
    have here : At settings start (j + 1) (fresh settings start (j + 1)) := at_fresh wf arranged
    obtain ⟨-, result, -⟩ := here.applySteps wf (Nat.zero_le _)
    exact ⟨result.restored wf, fun _ => here.restored wf⟩
  · refine ⟨(stops.searched wf arranged).1.restored wf, ?_⟩
    rintro rfl
    exact stops.failed_restores wf arranged

end Result

section Natural

def naturals : Doubles ℕ where
  lt := fun first second => decide (first < second)
  le := fun first second => decide (first ≤ second)
  zero := 0
  largest := 1000
  div := fun first second => first / second

def topEntry (entries : List (ℕ × ℕ)) : Option ℕ := (entries.argmax Prod.snd).map Prod.fst

def naturalSettings (pairBudget : ℕ) (reordered : List ℕ) (joinCost : CBitSet → CBitSet → ℕ) :
    SimplifierSettings ℕ where
  doubles := naturals
  pairBudget := pairBudget
  pairFilter := noFilter
  edgeFilter := fun edge => decide (edge ∈ reordered)
  joinCost := fun left right => some (joinCost left right)
  top := topEntry
  top_isSome := by
    intro entries nonempty
    unfold topEntry
    rw [Option.isSome_map, Option.isSome_iff_ne_none]
    simpa [List.argmax_eq_none] using nonempty
  top_largest := by
    intro entries edge found
    unfold topEntry at found
    obtain ⟨⟨other, benefit⟩, isTop, rfl⟩ := Option.map_eq_some_iff.mp found
    refine ⟨benefit, List.argmax_mem isTop, ?_⟩
    intro entry listed
    have largest := List.le_of_mem_argmax listed isTop
    simpa [naturals] using largest

def edgeAmong (nodeCount : ℕ) (left right : CBitSet) (edgeId : ℕ)
    (valid : left.Nonempty ∧ right.Nonempty ∧ Disjoint left right ∧ left ∪ right ⊆ Finset.range
      nodeCount) : CDPHyperGraph.Hyperedge nodeCount :=
  ⟨left, right, edgeId, valid.1, valid.2.1, valid.2.2.1, valid.2.2.2⟩

end Natural

section Star

/-- Node 0 in the middle; one step puts the edge to node 1 before that to node 2 or the other way. -/
def starEdges : List (CDPHyperGraph.Hyperedge 3) :=
  [edgeAmong 3 {0} {1} 0 (by decide), edgeAmong 3 {0} {2} 1 (by decide)]

def starSettings : SimplifierSettings ℕ := naturalSettings 3 [0, 1] (fun left _ => left.card)

def starBegun : CDPHyperGraphSimplifier ℕ := init starSettings (.ofEdges 3 starEdges)

def starApplied : CDPHyperGraphSimplifier ℕ := (starBegun.applyStep starSettings).1

def starUndone : CDPHyperGraphSimplifier ℕ := starApplied.unapplyStep

theorem star_moved {s : CDPHyperGraphSimplifier ℕ}
    (moved : Moved starSettings (.ofEdges 3 starEdges) s) :
    s = starBegun ∨ s = starApplied ∨ s = starUndone := by
  refine Moved.rule (motive := fun s => s = starBegun ∨ s = starApplied ∨ s = starUndone)
    (.inl rfl) ?_ ?_ moved
  · rintro s (rfl | rfl | rfl)
    · exact .inr (.inl rfl)
    · exact .inr (.inl rfl)
    · exact .inr (.inl rfl)
  · rintro s (rfl | rfl | rfl)
    · exact .inl rfl
    · exact .inr (.inr rfl)
    · exact .inr (.inr rfl)

theorem star_exceeds {s : CDPHyperGraphSimplifier ℕ}
    (moved : Moved starSettings (.ofEdges 3 starEdges) s) :
    s.enumerationExceedsBudget starSettings = decide (s.applied.length = 0) := by
  rcases star_moved moved with rfl | rfl | rfl <;> decide +kernel

end Star

section Reattached

/-- The first step turns the edge 5 into one between 0 and the nodes 5 and 6. Where it stands
behind the edge 4 in the list of node 0, node 4 becomes a neighbor of 0 and a pair is missed;
where it stands before the edge 4, nothing is missed. -/
def reattachGraph : CDPHyperGraph := .ofEdges 7
  [edgeAmong 7 {0} {1} 0 (by decide), edgeAmong 7 {1} {2} 1 (by decide),
    edgeAmong 7 {3} {4} 2 (by decide), edgeAmong 7 {0, 1, 2} {3, 4} 3 (by decide),
    edgeAmong 7 {0} {4, 5} 4 (by decide), edgeAmong 7 {0} {5} 5 (by decide),
    edgeAmong 7 {0, 1, 2, 3, 4} {5} 6 (by decide),
    edgeAmong 7 {0, 1, 2, 3, 4, 5} {6} 7 (by decide), edgeAmong 7 {5} {6} 8 (by decide)]

def reattachSettings : SimplifierSettings ℕ :=
  naturalSettings 17 [4, 5, 8] (fun left _ => if left.card = 2 then 9 else 1)

end Reattached

end CDPHyperGraphSimplifier
end DPHyper
