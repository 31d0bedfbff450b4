import Mathlib.Data.Finset.Powerset
import Tuuli.SimplifyResult
import Tuuli.StepOrigins

/-!
Progress of the simplifier. The loops end, no two edges are taken for a second step,
and whatever primitive operations a run is made of, the marks of the entries agree
with the queue after each of them.
-/
namespace DPHyper
namespace CDPHyperGraphSimplifier
open Relation

variable {δ : Type} {settings : SimplifierSettings δ} {s t : CDPHyperGraphSimplifier δ}
  {start : CDPHyperGraph}

section Primitive
variable {edge : ℕ}

/-- The operations on the state that all runs are made of. -/
inductive QueueStep (settings : SimplifierSettings δ) (s : CDPHyperGraphSimplifier δ) :
    CDPHyperGraphSimplifier δ → Prop
  | forget {edge : ℕ} : edge < s.edgeCount →
      QueueStep settings s (s.setBest edge { s.bestAt edge with bestNeighbor := none })
  | set {edge : ℕ} (step : SSimplificationStep δ) (neighbor : ℕ) : edge < s.edgeCount →
      QueueStep settings s (s.trySetStep settings step edge neighbor).1
  | update {edge : ℕ} : edge < s.edgeCount → QueueStep settings s (s.updateQueue edge)
  | pop {entry : SBestSimplification δ} {t : CDPHyperGraphSimplifier δ} :
      s.popQueue settings = some (entry, t) → QueueStep settings s t
  | order (before after : ℕ) :
      QueueStep settings s { s with order := (s.order.tryAdd before after).1 }
  | modify (step : SSimplificationStep δ) (apply : Bool) :
      QueueStep settings s (s.modifyEdge step apply)
  | shift (applied unapplied : List (SSimplificationStep δ)) :
      QueueStep settings s { s with applied := applied, unapplied := unapplied }

variable {step : SSimplificationStep δ}

theorem modifyEdge_edgeCount {apply : Bool} : (s.modifyEdge step apply).edgeCount = s.edgeCount :=
  CDPHyperGraph.replaceEdge_logicalEdgeCount

/-- Each operation keeps the marks and the queue in agreement. -/
theorem QueueStep.consistent (next : QueueStep settings s t) (consistent : s.Consistent) :
    t.Consistent ∧ t.edgeCount = s.edgeCount := by
  cases next with
  | forget bound => exact ⟨consistent.setBest rfl, setBest_frame.edgeCount⟩
  | @set edge step neighbor bound =>
    rcases consistent.trySetStep settings bound step neighbor with ⟨-, result, frame, -⟩ | same
    · exact ⟨result, frame.edgeCount⟩
    · rw [same]
      exact ⟨consistent, rfl⟩
  | update bound =>
    obtain ⟨result, frame, -⟩ := consistent.updateQueue bound
    exact ⟨result, frame.edgeCount⟩
  | pop popped =>
    rcases popQueue_spec settings s with ⟨none, -⟩ | ⟨edge, queued, some⟩
    · rw [none] at popped
      cases popped
    · obtain ⟨-, rfl⟩ := Prod.mk.inj (Option.some.inj (some.symm.trans popped))
      have bound : edge < s.best.length := lt_of_inQueue (consistent.queued.mp queued)
      exact ⟨consistent.mark bound, mark_frame.edgeCount⟩
  | order before after =>
    exact ⟨⟨consistent.size, consistent.queued, consistent.nodup⟩, rfl⟩
  | modify step apply =>
    exact ⟨⟨consistent.size.trans modifyEdge_edgeCount.symm, consistent.queued, consistent.nodup⟩,
      modifyEdge_edgeCount⟩
  | shift applied unapplied =>
    exact ⟨⟨consistent.size, consistent.queued, consistent.nodup⟩, rfl⟩

def Through (settings : SimplifierSettings δ) : CDPHyperGraphSimplifier δ →
    CDPHyperGraphSimplifier δ → Prop :=
  ReflTransGen (QueueStep settings)

theorem Through.consistent (run : Through settings s t) (consistent : s.Consistent) :
    t.Consistent ∧ t.edgeCount = s.edgeCount := by
  induction run with
  | refl => exact ⟨consistent, rfl⟩
  | tail _ next ih =>
    obtain ⟨result, count⟩ := next.consistent ih.1
    exact ⟨result, count.trans ih.2⟩

theorem through_foldl {α : Type} {l : List α}
    {f : CDPHyperGraphSimplifier δ → α → CDPHyperGraphSimplifier δ} (consistent : s.Consistent)
    (rounds : ∀ t : CDPHyperGraphSimplifier δ, t.Consistent → t.edgeCount = s.edgeCount → ∀ x ∈ l,
      Through settings t (f t x)) : Through settings s (l.foldl f s) := by
  induction l generalizing s with
  | nil => exact .refl
  | cons first rest ih =>
    have round := rounds s consistent rfl first List.mem_cons_self
    obtain ⟨result, count⟩ := Through.consistent round consistent
    refine ReflTransGen.trans round (ih result fun t consistentT countT x listed => ?_)
    exact rounds t consistentT (countT.trans count) x (List.mem_cons_of_mem first listed)

theorem through_tryPair (bound : edge < s.edgeCount) (edge1 edge2 neighbor : ℕ) :
    Through settings s (s.tryPair settings edge1 edge2 edge neighbor).1 := by
  unfold tryPair
  cases makeStep settings s.graph s.order edge1 edge2 with
  | none => exact .refl
  | some step => exact .single (.set step neighbor bound)

theorem through_searchLater (consistent : s.Consistent) (bound : edge < s.edgeCount)
    (first last : ℕ) : Through settings s (s.searchLater settings edge first last) := by
  have forget : Through settings s
      (s.setBest edge { s.bestAt edge with bestNeighbor := none }) := .single (.forget bound)
  obtain ⟨reset, count⟩ := Through.consistent forget consistent
  have search := @through_foldl δ settings _ ℕ (between (max first (edge + 1)) last)
    (fun s edge2 => (s.tryPair settings edge edge2 edge edge2).1) reset
    (fun t _ countT edge2 _ => through_tryPair (by rwa [countT, count]) edge edge2 edge2)
  obtain ⟨-, countSearched⟩ := Through.consistent search reset
  refine ReflTransGen.tail (forget.trans search) (.update ?_)
  rwa [countSearched, count]

theorem through_processNeighbors (fuel : ℕ) (consistent : s.Consistent) (bound : edge < s.edgeCount)
    (first last : ℕ) : Through settings s (processNeighbors settings fuel s edge first last) := by
  induction fuel generalizing s edge first last with
  | zero => exact .refl
  | succ fuel ih =>
    unfold processNeighbors
    dsimp only
    have visited := @through_foldl δ settings s ℕ (between first (min last edge))
      (fun s edge2 =>
        if (s.tryPair settings edge edge2 edge2 edge).2
        then (s.tryPair settings edge edge2 edge2 edge).1
        else if ((s.tryPair settings edge edge2 edge2 edge).1.bestAt edge2).bestNeighbor = some edge
        then processNeighbors settings fuel (s.tryPair settings edge edge2 edge2 edge).1 edge2
          (edge2 + 1) (s.tryPair settings edge edge2 edge2 edge).1.edgeCount
        else (s.tryPair settings edge edge2 edge2 edge).1) consistent (by
      intro t consistentT count edge2 listed
      have earlier := mem_between.mp listed
      have boundT : edge2 < t.edgeCount := by omega
      have attempt := @through_tryPair δ settings t edge2 boundT edge edge2 edge
      obtain ⟨tried, countTried⟩ := Through.consistent attempt consistentT
      split
      · exact attempt
      · split
        · exact attempt.trans (ih tried (by omega) _ _)
        · exact attempt)
    obtain ⟨result, count⟩ := Through.consistent visited consistent
    exact visited.trans (through_searchLater result (by omega) first last)

theorem through_fetchQueued (fuel : ℕ) (reached : s.Reached) :
    Through settings s (fetchQueued settings fuel s).2 := by
  induction fuel generalizing s with
  | zero => exact .refl
  | succ fuel ih =>
    rcases reached.fetch_round settings with ⟨-, ends⟩ |
      ⟨edge, neighbor, step, queued, popped, -, bound, ⟨-, takes⟩ | ⟨t, rfl, again, -, -, goesOn⟩⟩
    · rw [ends]
      exact .refl
    · rw [takes]
      exact ReflTransGen.tail (.single (.pop popped)) (.order step.before step.after)
    · have pop : Through settings s (s.mark edge false) := .single (.pop popped)
      obtain ⟨rest, -, -⟩ := reached.mark queued
      rw [goesOn]
      exact (pop.trans (through_processNeighbors 2 rest.consistent bound _ _)).trans (ih again)

theorem through_init : Through settings (blank start) (init settings start) := by
  refine through_foldl blank_consistent fun t consistent count edge listed => ?_
  have bound : edge < t.edgeCount := count.symm ▸ List.mem_range.mp listed
  exact through_processNeighbors 2 consistent bound _ _

theorem Reached.through_applyStep (reached : s.Reached) (fresh : s.unapplied = []) :
    Through settings s (s.applyStep settings).1 := by
  have fetch := @through_fetchQueued δ settings s (s.queue.length + 1) reached
  unfold CDPHyperGraphSimplifier.applyStep
  rw [fetchStep_fresh settings fresh]
  rcases reached.fetchQueued_source settings _ orderedEntries_lt with
    ⟨empty, -⟩ | ⟨u, edge, neighbor, step, source, result⟩
  · generalize CDPHyperGraphSimplifier.fetchQueued settings (s.queue.length + 1) s = fetched at *
    obtain ⟨found, rest⟩ := fetched
    obtain rfl : found = none := empty
    exact fetch
  · rw [result] at fetch ⊢
    obtain ⟨-, later, bound, pair⟩ := source.step_facts
    obtain ⟨-, boundAfter⟩ := StepFits.before_lt pair later bound
    have modified := ReflTransGen.tail fetch (.modify step true)
    have pushed := modified.tail (.shift (step :: u.applied) u.unapplied)
    obtain ⟨consistent, count⟩ := Through.consistent pushed reached.consistent
    dsimp only
    rw [fresh, List.isEmpty_nil, if_pos rfl]
    exact pushed.trans (through_processNeighbors 2 consistent (by omega) _ _)

theorem through_redo {rest : List (SSimplificationStep δ)} (next : s.unapplied = step :: rest) :
    Through settings s (s.applyStep settings).1 := by
  unfold applyStep fetchStep
  rw [next]
  have fetch : Through settings s { s with applied := s.applied, unapplied := rest } :=
    .single (.shift s.applied rest)
  exact (fetch.tail (.modify step true)).tail (.shift (step :: s.applied) rest)

theorem through_unapplyStep : Through settings s s.unapplyStep := by
  unfold unapplyStep
  cases latest : s.applied with
  | nil => exact .refl
  | cons step rest =>
    have pop : Through settings s { s with applied := rest, unapplied := s.unapplied } :=
      .single (.shift rest s.unapplied)
    exact (pop.tail (.modify step false)).tail (.shift rest (step :: s.unapplied))

end Primitive

section Runs
variable {n : ℕ} (wf : start.WellFormed)
  (arranged : start.Arranged (List.range start.logicalEdgeCount))

include wf arranged

theorem At.through_applyStep (here : At settings start n s) :
    Through settings s (s.applyStep settings).1 := by
  cases undone : s.unapplied with
  | nil =>
    have reached := (fresh_spec settings wf n).1
    rw [← here.eq_fresh wf arranged undone] at reached
    exact reached.through_applyStep undone
  | cons step rest => exact through_redo undone

theorem At.through_applyMore (missing : ℕ) (here : At settings start n s) :
    Through settings s (CDPHyperGraphSimplifier.applyMore settings missing s).1 := by
  induction missing generalizing n s with
  | zero => exact .refl
  | succ missing ih =>
    have first := here.through_applyStep wf arranged
    obtain ⟨m, next⟩ := here.applyStep wf arranged
    unfold CDPHyperGraphSimplifier.applyMore
    dsimp only
    split
    · exact first.trans (ih next)
    · exact first

omit wf arranged in
theorem through_unapplyMore (extra : ℕ) : Through settings s (unapplyMore extra s) := by
  induction extra generalizing s with
  | zero => exact .refl
  | succ extra ih => exact through_unapplyStep.trans ih

theorem At.through_move (here : At settings start n s) (request : Move) :
    Through settings s (s.move settings request) := by
  cases request with
  | apply => exact here.through_applyStep wf arranged
  | unapply => exact through_unapplyStep
  | goTo count =>
    have raised := here.through_applyMore wf arranged (count - s.applied.length)
    unfold CDPHyperGraphSimplifier.move CDPHyperGraphSimplifier.applySteps
    dsimp only
    split
    · exact raised.trans (through_unapplyMore _)
    · exact raised

theorem At.through_moves (moves : List Move) (here : At settings start n s) :
    Through settings s (moves.foldl (CDPHyperGraphSimplifier.move settings) s) ∧
      ∃ m, At settings start m (moves.foldl (CDPHyperGraphSimplifier.move settings) s) := by
  induction moves generalizing n s with
  | nil => exact ⟨.refl, n, here⟩
  | cons request rest ih =>
    obtain ⟨m, next⟩ := here.move wf arranged request
    obtain ⟨run, ends⟩ := ih next
    exact ⟨(here.through_move wf arranged request).trans run, ends⟩

end Runs

section Loops
variable {edge : ℕ}

theorem processNeighbors_stable (fuel first last : ℕ) :
    processNeighbors settings (fuel + 2) s edge first last
      = processNeighbors settings 2 s edge first last := by
  unfold processNeighbors
  dsimp only
  congr 2
  funext t edge2
  rw [processNeighbors_behind, processNeighbors_behind]

/-- Rounds beyond the queue change nothing: the loop has ended by then. -/
theorem Reached.fetchQueued_stable (fuel extra : ℕ) (reached : s.Reached)
    (enough : s.orderedEntries.card < fuel) :
    CDPHyperGraphSimplifier.fetchQueued settings (fuel + extra) s
      = CDPHyperGraphSimplifier.fetchQueued settings fuel s := by
  induction fuel generalizing s with
  | zero => omega
  | succ fuel ih =>
    rw [Nat.succ_add]
    rcases reached.fetch_round settings with ⟨-, ends⟩ |
      ⟨edge, neighbor, step, -, -, -, -, ⟨-, takes⟩ | ⟨t, -, again, -, fewer, goesOn⟩⟩
    · rw [ends, ends]
    · rw [takes, takes]
    · rw [goesOn, goesOn]
      exact ih again (by omega)

/-- `FetchStep` with a given number of rounds over the queue. -/
def fetchStepWithin (settings : SimplifierSettings δ) (rounds : ℕ) (s : CDPHyperGraphSimplifier δ) :
    Option (SSimplificationStep δ) × CDPHyperGraphSimplifier δ :=
  match s.unapplied with
  | step :: rest => (some step, { s with unapplied := rest })
  | [] => fetchQueued settings rounds s

theorem At.fetchStep_ends {n : ℕ} (wf : start.WellFormed)
    (arranged : start.Arranged (List.range start.logicalEdgeCount)) (here : At settings start n s) :
    (∀ extra, fetchStepWithin settings (s.queue.length + 1 + extra) s = s.fetchStep settings) ∧
      ((s.fetchStep settings).1 = none → (s.fetchStep settings).2.queue = []) := by
  unfold fetchStepWithin fetchStep
  cases undone : s.unapplied with
  | cons step rest => exact ⟨fun _ => rfl, fun none => by cases none⟩
  | nil =>
    have reached := (fresh_spec settings wf n).1
    rw [← here.eq_fresh wf arranged undone] at reached
    refine ⟨fun extra => reached.fetchQueued_stable _ extra orderedEntries_lt, fun none => ?_⟩
    rcases reached.fetchQueued_source settings _ orderedEntries_lt with
      ⟨-, empty, -⟩ | ⟨u, edge, neighbor, step, -, result⟩
    · exact empty
    · rw [result] at none
      cases none

end Loops

section Pairs
variable {n : ℕ}

theorem ends_mem_pairs {step : SSimplificationStep δ} {count : ℕ}
    (different : step.before ≠ step.after) (before : step.before < count)
    (after : step.after < count) : step.ends ∈ (Finset.range count).powersetCard 2 := by
  rw [Finset.mem_powersetCard]
  refine ⟨?_, Finset.card_pair different⟩
  simp [SSimplificationStep.ends, Finset.insert_subset_iff, before, after]

theorem At.pairs (wf : start.WellFormed) (here : At settings start n s) :
    ((s.unapplied.reverse ++ s.applied).map SSimplificationStep.ends).Nodup ∧
      (s.unapplied.reverse ++ s.applied).length
        ≤ start.logicalEdgeCount * (start.logicalEdgeCount - 1) / 2 := by
  obtain ⟨-, -, distinct, ends⟩ := fresh_traced settings wf n
  rw [here.steps]
  refine ⟨distinct, ?_⟩
  calc (fresh settings start n).applied.length
      = ((fresh settings start n).applied.map SSimplificationStep.ends).toFinset.card := by
        rw [List.toFinset_card_of_nodup distinct, List.length_map]
    _ ≤ ((Finset.range start.logicalEdgeCount).powersetCard 2).card := by
        refine Finset.card_le_card fun pair listed => ?_
        obtain ⟨step, applied, rfl⟩ := List.mem_map.mp (List.mem_toFinset.mp listed)
        obtain ⟨different, before, after⟩ := ends step applied
        exact ends_mem_pairs different before after
    _ = start.logicalEdgeCount * (start.logicalEdgeCount - 1) / 2 := by
        rw [Finset.card_powersetCard, Finset.card_range, Nat.choose_two_right]

theorem At.queued_entry (wf : start.WellFormed) (here : At settings start n s) {edge : ℕ}
    (queued : edge ∈ s.queue) :
    ∃ neighbor step, s.bestAt edge = ⟨some neighbor, some step, true⟩ := by
  obtain ⟨reached, -⟩ := fresh_spec settings wf n
  rw [here.queue] at queued
  obtain ⟨neighbor, step, entry, -⟩ := reached.entries edge queued
  refine ⟨neighbor, step, ?_⟩
  rw [← entry]
  unfold bestAt
  rw [here.best]

end Pairs

section Simplify

theorem applyMore_moves (missing : ℕ) :
    ∃ moves : List Move, (applyMore settings missing s).1 = moves.foldl (move settings) s := by
  induction missing generalizing s with
  | zero => exact ⟨[], rfl⟩
  | succ missing ih =>
    unfold applyMore
    dsimp only
    split
    · obtain ⟨moves, result⟩ := @ih (s.applyStep settings).1
      exact ⟨.apply :: moves, result⟩
    · exact ⟨[.apply], rfl⟩

theorem bisect_moves (fuel : ℕ) (lower upper : ℕ) :
    ∃ moves : List Move,
      (bisect settings fuel s lower upper).1 = moves.foldl (move settings) s := by
  induction fuel generalizing s lower upper with
  | zero => exact ⟨[], rfl⟩
  | succ fuel ih =>
    have further : ∀ middle lower upper, ∃ moves : List Move,
        (bisect settings fuel (s.applySteps settings middle).1 lower upper).1
          = moves.foldl (move settings) s := by
      intro middle lower upper
      obtain ⟨moves, result⟩ := @ih (s.applySteps settings middle).1 lower upper
      exact ⟨.goTo middle :: moves, result⟩
    unfold bisect
    dsimp only
    split
    · split
      · exact further _ _ _
      · split <;> exact further _ _ _
    · exact ⟨[], rfl⟩

theorem chooseCount_moves (applied : ℕ) :
    ∃ moves : List Move, (s.chooseCount settings applied).1 = moves.foldl (move settings) s := by
  obtain ⟨moves, searched⟩ := @bisect_moves δ settings s (applied + 1) 0 (applied + 1)
  unfold chooseCount
  dsimp only
  generalize (bisect settings (applied + 1) s 0 (applied + 1)).2 = count
  split
  · refine ⟨moves ++ [.goTo count], ?_⟩
    rw [List.foldl_append, ← searched]
    rfl
  · refine ⟨moves ++ [.goTo count, .goTo 0], ?_⟩
    rw [List.foldl_append, ← searched]
    rfl

theorem double_moves (rounds : ℕ) {applied upper : ℕ} {found : Bool}
    (returned : double settings rounds s applied upper = some (t, found)) :
    ∃ moves : List Move, t = moves.foldl (move settings) s := by
  induction rounds generalizing s applied upper with
  | zero => cases returned
  | succ rounds ih =>
    obtain ⟨first, raised⟩ := @applyMore_moves δ settings s (upper - applied)
    have after : ∀ {u : CDPHyperGraphSimplifier δ}, (∃ moves : List Move,
        u = moves.foldl (move settings) (applyMore settings (upper - applied) s).1) →
        ∃ moves : List Move, u = moves.foldl (move settings) s := by
      rintro u ⟨moves, result⟩
      exact ⟨first ++ moves, by rw [List.foldl_append, ← raised, result]⟩
    unfold double at returned
    dsimp only at returned
    split at returned
    · split at returned
      · obtain ⟨rfl, -⟩ := Prod.mk.inj (Option.some.inj returned)
        exact after ⟨[.goTo 0], rfl⟩
      · have chosen := congrArg Prod.fst (Option.some.inj returned)
        dsimp only at chosen
        rw [← chosen]
        exact after (chooseCount_moves _)
    · split at returned
      · have chosen := congrArg Prod.fst (Option.some.inj returned)
        dsimp only at chosen
        rw [← chosen]
        exact after (chooseCount_moves _)
      · exact after (ih returned)

end Simplify

/-- The simplifier makes progress: the recursion of `ProcessNeighbors`, the loop of `FetchStep` and
`Simplify` end; no two steps have the same two edges, so there are at most `E (E - 1) / 2`; and
after each primitive operation of any run the marks agree with the queue, which holds an edge at
most once. -/
theorem simplifier_progress (settings : SimplifierSettings δ) (nodeCount : ℕ)
    (edges : List (CDPHyperGraph.Hyperedge nodeCount)) :
    (∀ (s : CDPHyperGraphSimplifier δ) (fuel edge first last : ℕ),
      processNeighbors settings (fuel + 2) s edge first last
        = processNeighbors settings 2 s edge first last) ∧
    (∃ rounds result, simplify settings rounds (init settings (.ofEdges nodeCount edges))
      = some result) ∧
    (∀ rounds t found,
      simplify settings rounds (init settings (.ofEdges nodeCount edges)) = some (t, found) →
      ∃ moves : List Move, t = moves.foldl (move settings)
        (init settings (.ofEdges nodeCount edges))) ∧
    (∀ moves : List Move,
      let s := moves.foldl (move settings) (init settings (.ofEdges nodeCount edges))
      (∀ extra, fetchStepWithin settings (s.queue.length + 1 + extra) s = s.fetchStep settings) ∧
      ((s.fetchStep settings).1 = none → (s.fetchStep settings).2.queue = []) ∧
      ((s.unapplied.reverse ++ s.applied).map SSimplificationStep.ends).Nodup ∧
      (s.unapplied.reverse ++ s.applied).length ≤ edges.length * (edges.length - 1) / 2 ∧
      (∀ edge ∈ s.queue, ∃ neighbor step, s.bestAt edge = ⟨some neighbor, some step, true⟩) ∧
      Through settings (blank (.ofEdges nodeCount edges)) s) ∧
    ∀ t, Through settings (blank (.ofEdges nodeCount edges)) t →
      t.queue.Nodup ∧ ∀ edge, edge ∈ t.queue ↔ (t.bestAt edge).inQueue = true := by
  have wf := (CDPHyperGraph.ofEdges_wellFormed nodeCount edges).1
  have arranged := CDPHyperGraph.ofEdges_arranged nodeCount edges
  refine ⟨fun s fuel edge first last => processNeighbors_stable fuel first last,
    simplify_returns wf settings, fun rounds t found returned => double_moves rounds returned,
    ?_, ?_⟩
  · intro moves s
    obtain ⟨run, n, here⟩ := At.through_moves wf arranged moves
      (@at_fresh δ settings (.ofEdges nodeCount edges) 0 wf arranged)
    obtain ⟨rounds, empty⟩ := here.fetchStep_ends wf arranged
    obtain ⟨distinct, few⟩ := here.pairs wf
    rw [CDPHyperGraph.ofEdges_logicalEdgeCount] at few
    exact ⟨rounds, empty, distinct, few, fun edge queued => here.queued_entry wf queued,
      through_init.trans run⟩
  · intro t run
    obtain ⟨consistent, -⟩ := Through.consistent run blank_consistent
    exact ⟨consistent.nodup, fun edge => consistent.queued⟩

end CDPHyperGraphSimplifier
end DPHyper
