import Tuuli.StepSearch

/-!
Where the applied steps come from. A fresh step was the entry of a queued edge and
leaves the queue for good: its two edges are ordered from then on, so that no later
entry is made for them, and every entry that stays was made for the present sides of
its edges.
-/
namespace DPHyper

def SSimplificationStep.ends {δ : Type} (step : SSimplificationStep δ) : Finset ℕ :=
  {step.before, step.after}

namespace CDPHyperGraphSimplifier

variable {δ : Type} {settings : SimplifierSettings δ} {s t u : CDPHyperGraphSimplifier δ}

section Traced
variable {edge neighbor : ℕ} {step : SSimplificationStep δ}

/-- Queued steps take in the present nodes of their earlier edge, applied steps are ordered, and
no applied step is queued again. -/
structure Traced (s : CDPHyperGraphSimplifier δ) : Prop where
  absorbs : ∀ edge ∈ s.queue, ∀ step, (s.bestAt edge).step = some step → Absorbs s.graph step
  ordered : ∀ taken ∈ s.applied, taken.after ∈ s.order.reachableFrom taken.before
  untaken : ∀ edge ∈ s.queue, ∀ step, (s.bestAt edge).step = some step →
    ∀ taken ∈ s.applied, taken.ends ≠ step.ends

variable {entry : SBestSimplification δ}

theorem isOrdered_of_ends {order : CDPHyperOrderConstraints} {taken : SSimplificationStep δ}
    (ordered : taken.after ∈ order.reachableFrom taken.before) (same : taken.ends = step.ends)
    (here : entry.step = some step) : isOrdered order entry = true := by
  have either : (taken.before = step.before ∧ taken.after = step.after) ∨
      (taken.before = step.after ∧ taken.after = step.before) := by
    have sets : ({taken.before, taken.after} : Finset ℕ) = {step.before, step.after} := same
    have pairs := congrArg (fun set : Finset ℕ => (set : Set ℕ)) sets
    simpa [Set.pair_eq_pair_iff] using pairs
  unfold isOrdered
  rw [here]
  simp only [CDPHyperOrderConstraints.wouldCreateCycle, Bool.or_eq_true, decide_eq_true_eq]
  rcases either with ⟨before, after⟩ | ⟨before, after⟩
  · rw [before, after] at ordered
    exact .inr ordered
  · rw [before, after] at ordered
    exact .inl ordered

theorem Made.untaken (made : Made settings s edge entry) (wf : s.graph.WellFormed)
    (ordered : ∀ taken ∈ s.applied, taken.after ∈ s.order.reachableFrom taken.before)
    (here : entry.step = some step) : ∀ taken ∈ s.applied, taken.ends ≠ step.ends := by
  intro taken listed same
  have known := isOrdered_of_ends (ordered taken listed) same here
  rw [(made.spec wf).1] at known
  exact Bool.false_ne_true known

theorem Traced.descends (traced : s.Traced) (wf : s.graph.WellFormed)
    (descends : Descends settings s t) : t.Traced := by
  refine ⟨fun edge queued step here => ?_, ?_, fun edge queued step here => ?_⟩
  · rw [descends.graph]
    rcases descends.entries edge queued with made | ⟨before, same⟩
    · exact (made.spec wf).2.1 step here
    · rw [same] at here
      exact traced.absorbs edge before step here
  · rw [descends.applied, descends.order]
    exact traced.ordered
  · rw [descends.applied]
    rcases descends.entries edge queued with made | ⟨before, same⟩
    · exact made.untaken wf traced.ordered here
    · rw [same] at here
      exact traced.untaken edge before step here

theorem Reached.ends_ne (reached : u.Reached) {other : ℕ} {found : SSimplificationStep δ}
    (queued : edge ∈ u.queue) (here : (u.bestAt edge).step = some step)
    (queuedOther : other ∈ u.queue) (hereOther : (u.bestAt other).step = some found)
    (different : other ≠ edge) : step.ends ≠ found.ends := by
  intro same
  have least : ∀ {edge : ℕ} {step : SSimplificationStep δ}, edge ∈ u.queue →
      (u.bestAt edge).step = some step →
      (step.before = edge ∨ step.after = edge) ∧ edge ≤ step.before ∧ edge ≤ step.after := by
    intro edge step queued here
    obtain ⟨neighbor, made, entry, later, -, -, pair⟩ := reached.entries edge queued
    rw [entry] at here
    obtain rfl := Option.some.inj here
    rcases pair with ⟨before, after⟩ | ⟨before, after⟩ <;> omega
  obtain ⟨hasEdge, edgeBefore, edgeAfter⟩ := least queued here
  obtain ⟨hasOther, otherBefore, otherAfter⟩ := least queuedOther hereOther
  have inFound : edge ∈ found.ends := by
    rw [← same]
    rcases hasEdge with rfl | rfl <;> simp [SSimplificationStep.ends]
  have inStep : other ∈ step.ends := by
    rw [same]
    rcases hasOther with rfl | rfl <;> simp [SSimplificationStep.ends]
  simp only [SSimplificationStep.ends, Finset.mem_insert, Finset.mem_singleton] at inFound inStep
  omega

theorem Source.traced (source : Source settings s u edge neighbor step) (wf : s.graph.WellFormed)
    (order : s.order.Reflexive s.edgeCount) (traced : s.Traced)
    (graph : t.graph = step.applyTo s.graph) (applied : t.applied = step :: s.applied)
    (added : t.order = (s.order.tryAdd step.before step.after).1)
    (remain : ∀ other ∈ t.queue, Remains settings u t edge step other) :
    t.Traced ∧ Absorbs s.graph step ∧
      ∀ taken ∈ s.applied, taken.ends ≠ step.ends := by
  obtain ⟨fits, later, bound, pair⟩ := source.step_facts
  obtain ⟨boundBefore, boundAfter⟩ := StepFits.before_lt pair later bound
  have before := traced.descends wf source.descends
  have here : (u.bestAt edge).step = some step := by rw [source.entry]
  have absorbs := before.absorbs edge source.queued step here
  rw [source.descends.graph] at absorbs
  have new := before.untaken edge source.queued step here
  rw [source.descends.applied] at new
  have ordered : ∀ taken ∈ t.applied, taken.after ∈ t.order.reachableFrom taken.before := by
    intro taken listed
    rw [added]
    rw [applied] at listed
    rcases List.mem_cons.mp listed with rfl | old
    · exact order.mem_tryAdd boundBefore boundAfter source.free
    · exact CDPHyperOrderConstraints.reachableFrom_tryAdd _ (traced.ordered taken old)
  have wfAfter : t.graph.WellFormed := by
    rw [graph]
    exact fits.applyTo_wellFormed wf
  refine ⟨⟨fun other queued found hereOther => ?_, ordered, fun other queued found hereOther => ?_⟩,
    absorbs, new⟩
  · rcases remain other queued with made | ⟨old, -, same, different, uninvolved⟩
    · exact (made.spec wfAfter).2.1 found hereOther
    · rw [same] at hereOther
      have known := before.absorbs other old found hereOther
      rw [source.descends.graph] at known
      -- the step is for two other edges, whose sides are as they were
      have otherEdge : found.before ≠ step.after := by
        obtain ⟨far, made, entry, -, -, -, ends⟩ := source.reached.entries other old
        rw [entry] at hereOther uninvolved
        obtain rfl := Option.some.inj hereOther
        rcases ends with ⟨isOther, -⟩ | ⟨isFar, -⟩
        · rwa [isOther]
        · rw [isFar]
          exact fun clash => uninvolved (congrArg some clash)
      unfold Absorbs CDPHyperGraph.pbsUsedNodes
      rw [graph, SSimplificationStep.applyTo, fits.edge, CDPHyperGraph.edgeAt_replaceEdge otherEdge]
      exact known
  · rcases remain other queued with made | ⟨old, notEdge, same, -, -⟩
    · exact made.untaken wfAfter ordered hereOther
    · rw [same] at hereOther
      intro taken listed
      rw [applied] at listed
      rcases List.mem_cons.mp listed with rfl | earlier
      · exact source.reached.ends_ne source.queued here old hereOther notEdge
      · have untaken := before.untaken other old found hereOther
        rw [source.descends.applied] at untaken
        exact untaken taken earlier

end Traced

section Fresh
variable {start : CDPHyperGraph} (settings)

def AbsorbInTurn (start : CDPHyperGraph) : List (SSimplificationStep δ) → Prop
  | [] => True
  | step :: earlier => Absorbs (replay start earlier) step ∧ AbsorbInTurn start earlier

theorem traced_init (wf : start.WellFormed) : (init settings start).Traced := by
  obtain ⟨-, graph, applied, -, made⟩ := reached_init settings wf
  refine ⟨fun edge queued step here => ?_, by simp [applied], by simp [applied]⟩
  exact ((made edge queued).spec (graph.symm ▸ wf)).2.1 step here

theorem fresh_traced (wf : start.WellFormed) (n : ℕ) :
    (fresh settings start n).Traced ∧ AbsorbInTurn start (fresh settings start n).applied ∧
      ((fresh settings start n).applied.map SSimplificationStep.ends).Nodup ∧
      ∀ step ∈ (fresh settings start n).applied, step.before ≠ step.after ∧
        step.before < start.logicalEdgeCount ∧ step.after < start.logicalEdgeCount := by
  induction n with
  | zero =>
    have applied : (fresh settings start 0).applied = [] := (reached_init settings wf).2.2.1
    rw [applied]
    exact ⟨traced_init settings wf, trivial, List.nodup_nil, by simp⟩
  | succ n ih =>
    obtain ⟨traced, absorb, distinct, ends⟩ := ih
    obtain ⟨reached, unapplied, graph, -⟩ := fresh_spec settings wf n
    have next : fresh settings start (n + 1)
      = ((fresh settings start n).applyStep settings).1 := rfl
    rcases reached.applyStep_source settings unapplied with ⟨-, empty, -, base⟩ |
      ⟨u, edge, neighbor, step, source, result⟩
    · rw [next, base.applied]
      refine ⟨⟨?_, ?_, ?_⟩, absorb, distinct, ends⟩
      · simp [empty]
      · rw [base.applied, base.order]
        exact traced.ordered
      · simp [empty]
    · obtain ⟨-, -, graphNext, applied, -, order, remain⟩ := source.processed reached.wf
      obtain ⟨-, later, bound, pair⟩ := source.step_facts
      obtain ⟨tracedNext, absorbs, new⟩ :=
        source.traced reached.wf reached.order traced graphNext applied order remain
      have count : (fresh settings start n).edgeCount = start.logicalEdgeCount := by
        unfold edgeCount
        rw [graph, replay_logicalEdgeCount]
      rw [next, result, applied]
      refine ⟨tracedNext, ⟨graph ▸ absorbs, absorb⟩, ?_, ?_⟩
      · rw [List.map_cons, List.nodup_cons]
        refine ⟨fun listed => ?_, distinct⟩
        obtain ⟨taken, old, same⟩ := List.mem_map.mp listed
        exact new taken old same
      · intro other listed
        rcases List.mem_cons.mp listed with rfl | old
        · rw [count] at bound
          rcases pair with ⟨before, after⟩ | ⟨before, after⟩ <;> omega
        · exact ends other old

end Fresh

end CDPHyperGraphSimplifier
end DPHyper
