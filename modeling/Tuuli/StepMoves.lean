import Tuuli.StepHistory

/-!
The moves of the simplifier. Fresh steps come off the queue one after another;
whatever is undone and redone in between, the state is the one after some number
of fresh steps with a few of them taken back.
-/
namespace DPHyper
namespace CDPHyperGraphSimplifier

variable {δ : Type} {settings : SimplifierSettings δ} {start : CDPHyperGraph}
  {s t : CDPHyperGraphSimplifier δ}

section Init

theorem extractJoinDependencies_reflexive (graph : CDPHyperGraph) :
    (extractJoinDependencies graph).Reflexive graph.logicalEdgeCount := by
  unfold extractJoinDependencies
  refine List.foldlRecOn
    (motive := fun order : CDPHyperOrderConstraints => order.Reflexive graph.logicalEdgeCount) _ _
    CDPHyperOrderConstraints.reflexive_init ?_
  intro order reflexive edge1 _
  refine List.foldlRecOn
    (motive := fun order : CDPHyperOrderConstraints => order.Reflexive graph.logicalEdgeCount) _ _
    reflexive ?_
  intro inner reflexiveInner edge2 _
  split
  · exact reflexiveInner.tryAdd
  · split
    · exact reflexiveInner.tryAdd
    · exact reflexiveInner

def blank (start : CDPHyperGraph) : CDPHyperGraphSimplifier δ :=
  ⟨start, extractJoinDependencies start,
    List.replicate start.logicalEdgeCount ⟨none, none, false⟩, [], [], []⟩

theorem blank_consistent : (blank start : CDPHyperGraphSimplifier δ).Consistent := by
  refine ⟨by simp [blank, edgeCount], ?_, List.nodup_nil⟩
  intro edge
  simp only [blank, bestAt, List.not_mem_nil, false_iff, Bool.not_eq_true]
  rw [List.getElem?_replicate]
  split <;> rfl

theorem reached_init (settings : SimplifierSettings δ) (wf : start.WellFormed) :
    (init settings start).Reached ∧ (init settings start).graph = start ∧
      (init settings start).applied = [] ∧ (init settings start).unapplied = [] ∧
      ∀ edge ∈ (init settings start).queue,
        Made settings (init settings start) edge ((init settings start).bestAt edge) := by
  have run := List.foldlRecOn (motive := fun t => t.Consistent ∧ SameBase (blank start) t ∧
      ∀ edge ∈ t.queue, Made settings (blank start) edge (t.bestAt edge))
    (List.range start.logicalEdgeCount)
    (fun s edge => processNeighbors settings 2 s edge (edge + 1) start.logicalEdgeCount)
    (⟨blank_consistent, .refl _, by simp [blank]⟩ : _) (by
      rintro t ⟨consistentT, base, entries⟩ edge listed
      have count : t.edgeCount = start.logicalEdgeCount := base.edgeCount
      obtain ⟨result, frame, entry⟩ := @Consistent.searchLater δ t edge (edge + 1)
        start.logicalEdgeCount settings consistentT (by simpa [count] using listed) (by omega)
      rw [processNeighbors_behind]
      refine ⟨result, base.trans frame.toSameBase, fun other queued => ?_⟩
      by_cases same : other = edge
      · subst same
        exact (entry queued).congr base
      · have before : other ∈ t.queue := by
          rw [consistentT.queued, ← frame.others other same]
          exact result.queued.mp queued
        rw [frame.others other same]
        exact entries other before)
  obtain ⟨result, base, entries⟩ := run
  refine ⟨⟨?_, result, ?_, ?_⟩, base.graph, base.applied, base.unapplied,
    fun edge queued => (entries edge queued).congr base.symm⟩
  · have same : (init settings start).graph = start := base.graph
    rw [same]
    exact wf
  · have order : (init settings start).order = extractJoinDependencies start := base.order
    have count : (init settings start).edgeCount = start.logicalEdgeCount := base.edgeCount
    rw [order, count]
    exact extractJoinDependencies_reflexive start
  · intro edge queued
    have count : (init settings start).edgeCount = start.logicalEdgeCount := base.edgeCount
    have same : (init settings start).graph = start := base.graph
    unfold Entry
    rw [count, same]
    exact ((entries edge queued).spec wf).2.2

end Init

/-- The state after `n` attempts to apply a step that was never undone. -/
def fresh (settings : SimplifierSettings δ) (start : CDPHyperGraph) : ℕ → CDPHyperGraphSimplifier δ
  | 0 => init settings start
  | n + 1 => ((fresh settings start n).applyStep settings).1

section Fresh
variable (settings)

theorem fresh_spec (wf : start.WellFormed) (n : ℕ) :
    (fresh settings start n).Reached ∧ (fresh settings start n).unapplied = [] ∧
      (fresh settings start n).graph = replay start (fresh settings start n).applied ∧
      FitInTurn start (fresh settings start n).applied := by
  induction n with
  | zero =>
    obtain ⟨reached, graph, applied, unapplied, -⟩ := reached_init settings wf
    refine ⟨reached, unapplied, ?_, ?_⟩
    · change (init settings start).graph = replay start (init settings start).applied
      rw [graph, applied]
      rfl
    · change FitInTurn start (init settings start).applied
      rw [applied]
      trivial
  | succ n ih =>
    obtain ⟨reached, unapplied, graph, fits⟩ := ih
    rcases reached.applyStep settings unapplied with
      ⟨-, next, same, applied, unappliedNext, -⟩ |
      ⟨-, next, unappliedNext, -, step, stepFits, result, applied⟩
    · refine ⟨next, unappliedNext, ?_, ?_⟩
      · change ((fresh settings start n).applyStep settings).1.graph
          = replay start ((fresh settings start n).applyStep settings).1.applied
        rw [same, applied, graph]
      · change FitInTurn start ((fresh settings start n).applyStep settings).1.applied
        rw [applied]
        exact fits
    · refine ⟨next, unappliedNext, ?_, ?_⟩
      · change ((fresh settings start n).applyStep settings).1.graph
          = replay start ((fresh settings start n).applyStep settings).1.applied
        rw [result, applied, graph]
        rfl
      · change FitInTurn start ((fresh settings start n).applyStep settings).1.applied
        rw [applied]
        rw [graph] at stepFits
        exact ⟨stepFits, fits⟩

theorem fresh_positioned (wf : start.WellFormed)
    (arranged : start.Arranged (List.range start.logicalEdgeCount)) (n : ℕ) :
    (fresh settings start n).Positioned start := by
  obtain ⟨reached, unapplied, graph, fits⟩ := fresh_spec settings wf n
  refine ⟨?_, reached.wf, ?_, ?_, _, ?_, rfl⟩
  · rw [unapplied]
    exact fits
  · rw [graph, replay_nodeCount]
  · rw [graph]
  · rw [graph]
    exact fits.arranged wf arranged

end Fresh

/-- The state after `n` attempts, with some steps undone. -/
structure At (settings : SimplifierSettings δ) (start : CDPHyperGraph) (n : ℕ)
    (s : CDPHyperGraphSimplifier δ) : Prop where
  order : s.order = (fresh settings start n).order
  best : s.best = (fresh settings start n).best
  queue : s.queue = (fresh settings start n).queue
  steps : s.unapplied.reverse ++ s.applied = (fresh settings start n).applied
  positioned : s.Positioned start

section Moves
variable {n : ℕ} (wf : start.WellFormed)
  (arranged : start.Arranged (List.range start.logicalEdgeCount))

include wf arranged

theorem at_fresh : At settings start n (fresh settings start n) := by
  refine ⟨rfl, rfl, rfl, ?_, fresh_positioned settings wf arranged n⟩
  rw [(fresh_spec settings wf n).2.1]
  rfl

theorem At.eq_fresh (here : At settings start n s) (all : s.unapplied = []) :
    s = fresh settings start n := by
  have applied : s.applied = (fresh settings start n).applied := by
    have steps := here.steps
    rw [all] at steps
    exact steps
  have unapplied := (fresh_spec settings wf n).2.1
  have graph : s.graph = (fresh settings start n).graph := by
    rw [here.positioned.graph_eq wf arranged all, (fresh_spec settings wf n).2.2.1, applied]
  calc s = ⟨s.graph, s.order, s.best, s.queue, s.applied, s.unapplied⟩ := rfl
    _ = ⟨(fresh settings start n).graph, (fresh settings start n).order,
        (fresh settings start n).best, (fresh settings start n).queue,
        (fresh settings start n).applied, (fresh settings start n).unapplied⟩ := by
      rw [graph, here.order, here.best, here.queue, applied, all, unapplied]
    _ = fresh settings start n := rfl

omit arranged in
theorem At.unapplyStep (here : At settings start n s) {step : SSimplificationStep δ}
    {steps : List (SSimplificationStep δ)} (latest : s.applied = step :: steps) :
    At settings start n s.unapplyStep ∧ s.unapplyStep.applied = steps ∧
      s.unapplyStep.unapplied = step :: s.unapplied := by
  have result : s.unapplyStep = { s with
      graph := step.undoFrom s.graph
      applied := steps
      unapplied := step :: s.unapplied } := by
    unfold CDPHyperGraphSimplifier.unapplyStep
    rw [latest]
    rfl
  rw [result]
  refine ⟨⟨here.order, here.best, here.queue, ?_, here.positioned.undo wf latest⟩, rfl, rfl⟩
  rw [← here.steps, latest]
  simp

omit wf arranged in
theorem At.redo (here : At settings start n s) {step : SSimplificationStep δ}
    {steps : List (SSimplificationStep δ)} (next : s.unapplied = step :: steps) :
    (s.applyStep settings).2 = true ∧ At settings start n (s.applyStep settings).1 ∧
      (s.applyStep settings).1.applied = step :: s.applied ∧
      (s.applyStep settings).1.unapplied = steps := by
  have result : s.applyStep settings = ({ s with
      graph := step.applyTo s.graph
      applied := step :: s.applied
      unapplied := steps }, true) := by
    unfold CDPHyperGraphSimplifier.applyStep fetchStep
    rw [next]
    rfl
  rw [result]
  refine ⟨rfl, ⟨here.order, here.best, here.queue, ?_, here.positioned.redo next⟩, rfl, rfl⟩
  rw [← here.steps, next]
  simp

theorem At.applyStep (here : At settings start n s) :
    ∃ m, At settings start m (s.applyStep settings).1 := by
  cases undone : s.unapplied with
  | nil =>
    refine ⟨n + 1, ?_⟩
    rw [here.eq_fresh wf arranged undone]
    exact at_fresh wf arranged
  | cons step steps => exact ⟨n, (here.redo undone).2.1⟩

end Moves

end CDPHyperGraphSimplifier
end DPHyper
