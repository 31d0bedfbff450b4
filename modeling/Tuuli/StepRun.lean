import Tuuli.StepSequence

/-!
One fresh step of the simplifier: it enlarges an edge of the present graph, it
leaves a state of the same kind, and a measure of what is still to order shrinks,
so that the sequence of steps ends.
-/
namespace DPHyper
namespace CDPHyperGraphSimplifier

variable {δ : Type} {settings : SimplifierSettings δ} {s t u : CDPHyperGraphSimplifier δ}

def Entry (s : CDPHyperGraphSimplifier δ) (edge : ℕ) : Prop :=
  ∃ neighbor step, s.bestAt edge = ⟨some neighbor, some step, true⟩ ∧ edge < neighbor ∧
    neighbor < s.edgeCount ∧ StepFits s.graph step ∧
    ((step.before = edge ∧ step.after = neighbor) ∨ (step.before = neighbor ∧ step.after = edge))

structure Reached (s : CDPHyperGraphSimplifier δ) : Prop where
  wf : s.graph.WellFormed
  consistent : s.Consistent
  order : s.order.Reflexive s.edgeCount
  entries : ∀ edge ∈ s.queue, s.Entry edge

def isOrdered (order : CDPHyperOrderConstraints) (entry : SBestSimplification δ) : Bool :=
  match entry.step with
  | some step => order.wouldCreateCycle step.before step.after ||
      order.wouldCreateCycle step.after step.before
  | none => false

def orderedEntries (s : CDPHyperGraphSimplifier δ) : Finset ℕ :=
  s.queue.toFinset.filter (fun edge => isOrdered s.order (s.bestAt edge) = true)

/-- Each entry that is taken either orders two edges or was ordered before. -/
def remaining (s : CDPHyperGraphSimplifier δ) : ℕ :=
  (s.order.unorderedPairs s.edgeCount).card * (s.edgeCount + 1) + s.orderedEntries.card

section Entries
variable {edge : ℕ}

theorem mem_orderedEntries :
    edge ∈ s.orderedEntries ↔ edge ∈ s.queue ∧ isOrdered s.order (s.bestAt edge) = true := by
  simp [orderedEntries]

theorem Consistent.lt_of_mem (consistent : s.Consistent) (queued : edge ∈ s.queue) :
    edge < s.edgeCount := by
  rw [← consistent.size]
  exact lt_of_inQueue (consistent.queued.mp queued)

theorem Consistent.card_orderedEntries (consistent : s.Consistent) :
    s.orderedEntries.card ≤ s.edgeCount := by
  have inside : s.orderedEntries ⊆ Finset.range s.edgeCount := by
    intro edge member
    exact Finset.mem_range.mpr (consistent.lt_of_mem (mem_orderedEntries.mp member).1)
  simpa using Finset.card_le_card inside

theorem Made.spec {entry : SBestSimplification δ} (wf : s.graph.WellFormed)
    (made : Made settings s edge entry) :
    isOrdered s.order entry = false ∧ (∀ step, entry.step = some step → Absorbs s.graph step) ∧
      ∃ neighbor step, entry = ⟨some neighbor, some step, true⟩ ∧ edge < neighbor ∧ neighbor < s.edgeCount ∧ StepFits s.graph step ∧
      ((step.before = edge ∧ step.after = neighbor) ∨
        (step.before = neighbor ∧ step.after = edge)) := by
  obtain ⟨neighbor, step, rfl, later, bound, made⟩ := made
  have boundEdge : edge < s.graph.logicalEdgeCount := lt_trans later bound
  have facts : (StepFits s.graph step ∧ Absorbs s.graph step) ∧
      ((step.before = edge ∧ step.after = neighbor) ∨
        (step.before = neighbor ∧ step.after = edge)) ∧
      s.order.wouldCreateCycle edge neighbor = false ∧
      s.order.wouldCreateCycle neighbor edge = false := by
    rcases made with made | made
    · exact makeStep_spec wf boundEdge bound made
    · obtain ⟨fits, pair, first, second⟩ := makeStep_spec wf bound boundEdge made
      exact ⟨fits, pair.symm, second, first⟩
  obtain ⟨⟨fits, absorbs⟩, pair, first, second⟩ := facts
  refine ⟨?_, ?_, neighbor, step, rfl, later, bound, fits, pair⟩
  · unfold isOrdered
    rcases pair with ⟨before, after⟩ | ⟨before, after⟩
    · simp [before, after, first, second]
    · simp [before, after, first, second]
  · intro made same
    rw [← Option.some.inj same]
    exact absorbs

theorem Reached.shape (reached : s.Reached) (queued : edge ∈ s.queue) {neighbor : ℕ}
    (here : (s.bestAt edge).bestNeighbor = some neighbor) : edge < neighbor := by
  obtain ⟨other, step, same, later, -⟩ := reached.entries edge queued
  rw [same, Option.some.injEq] at here
  exact here ▸ later

end Entries

section Pop
variable {edge : ℕ} {entry : SBestSimplification δ}

theorem popQueue_spec (settings : SimplifierSettings δ) (s : CDPHyperGraphSimplifier δ) :
    (s.popQueue settings = none ∧ s.queue = []) ∨
      ∃ edge ∈ s.queue, s.popQueue settings = some (s.bestAt edge, s.mark edge false) := by
  unfold popQueue
  cases found : settings.top (s.queueEntries settings) with
  | none =>
    refine .inl ⟨rfl, ?_⟩
    by_contra nonempty
    have some := settings.top_isSome (s.queueEntries settings) (by
      simpa [queueEntries] using nonempty)
    rw [found] at some
    exact absurd some (by simp)
  | some edge =>
    obtain ⟨benefit, listed, -⟩ := settings.top_largest _ _ found
    simp only [queueEntries, List.mem_map, Prod.mk.injEq] at listed
    obtain ⟨other, queued, rfl, -⟩ := listed
    exact .inr ⟨other, queued, by simp [mark]⟩

theorem Reached.mark (reached : s.Reached) (queued : edge ∈ s.queue) :
    (s.mark edge false).Reached ∧ (s.mark edge false).orderedEntries = s.orderedEntries.erase edge ∧
      edge ∉ (s.mark edge false).queue := by
  have bound : edge < s.best.length := lt_of_inQueue (reached.consistent.queued.mp queued)
  have others : ∀ {other}, other ∈ (s.mark edge false).queue ↔ other ≠ edge ∧ other ∈ s.queue := by
    intro other
    simp [CDPHyperGraphSimplifier.mark, and_comm]
  have count : (s.mark edge false).edgeCount = s.edgeCount := mark_frame.edgeCount
  refine ⟨⟨reached.wf, reached.consistent.mark bound, ?_, ?_⟩, ?_, ?_⟩
  · rw [count]
    exact reached.order
  · intro other listed
    obtain ⟨different, before⟩ := others.mp listed
    obtain ⟨neighbor, step, same, facts⟩ := reached.entries other before
    refine ⟨neighbor, step, ?_, facts⟩
    rw [mark_frame.others other different, same]
  · ext other
    rw [mem_orderedEntries, Finset.mem_erase, mem_orderedEntries, others]
    by_cases different : other = edge
    · simp [different]
    · rw [mark_frame.others other different]
      simp [different, CDPHyperGraphSimplifier.mark, CDPHyperGraphSimplifier.setBest]
  · exact fun listed => (others.mp listed).1 rfl

end Pop

section Refresh
variable {edge : ℕ}

/-- Only entries and the queue differ, and every entry is an old one or fresh. -/
structure Descends (settings : SimplifierSettings δ) (s t : CDPHyperGraphSimplifier δ) : Prop
    extends SameBase s t where
  entries : ∀ other ∈ t.queue, Made settings s other (t.bestAt other) ∨
    (other ∈ s.queue ∧ t.bestAt other = s.bestAt other)

theorem Descends.refl (s : CDPHyperGraphSimplifier δ) : Descends settings s s :=
  ⟨.refl s, fun _ queued => .inr ⟨queued, rfl⟩⟩

theorem Descends.trans (first : Descends settings s t) (second : Descends settings t u) :
    Descends settings s u := by
  refine ⟨first.toSameBase.trans second.toSameBase, fun other queued => ?_⟩
  rcases second.entries other queued with made | ⟨before, same⟩
  · exact .inl (made.congr first.toSameBase)
  · rw [same]
    exact first.entries other before

theorem Descends.orderedEntries (descends : Descends settings s t) (wf : s.graph.WellFormed) :
    t.orderedEntries ⊆ s.orderedEntries := by
  intro other member
  obtain ⟨queued, ordered⟩ := mem_orderedEntries.mp member
  rw [descends.order] at ordered
  rcases descends.entries other queued with made | ⟨before, same⟩
  · rw [(made.spec wf).1] at ordered
    exact absurd ordered Bool.false_ne_true
  · rw [same] at ordered
    exact mem_orderedEntries.mpr ⟨before, ordered⟩

theorem Descends.remaining_le (descends : Descends settings s t) (wf : s.graph.WellFormed) :
    t.remaining ≤ s.remaining := by
  unfold remaining
  rw [descends.order, descends.edgeCount]
  exact Nat.add_le_add_left (Finset.card_le_card (descends.orderedEntries wf)) _

theorem Descends.mark {edge : ℕ} (s : CDPHyperGraphSimplifier δ) :
    Descends settings s (s.mark edge false) := by
  refine ⟨mark_frame.toSameBase, fun other queued => ?_⟩
  have kept : other ∈ s.queue ∧ other ≠ edge := by
    simpa [CDPHyperGraphSimplifier.mark] using queued
  exact .inr ⟨kept.1, mark_frame.others other kept.2⟩

theorem refresh (settings : SimplifierSettings δ) (wf : s.graph.WellFormed)
    (consistent : s.Consistent) (order : s.order.Reflexive s.edgeCount) (bound : edge < s.edgeCount)
    (shape : ∀ other ∈ s.queue, ∀ {neighbor}, (s.bestAt other).bestNeighbor = some neighbor →
      other < neighbor)
    (kept : ∀ other ∈ s.queue, other ≠ edge → (s.bestAt other).bestNeighbor ≠ some edge → s.Entry
      other) :
    (processNeighbors settings 2 s edge 0 s.edgeCount).Reached ∧
      Descends settings s (processNeighbors settings 2 s edge 0 s.edgeCount) ∧
      Renewed settings s (processNeighbors settings 2 s edge 0 s.edgeCount) edge := by
  obtain ⟨result, base, entries⟩ := consistent.processNeighbors settings bound shape
  refine ⟨⟨?_, result, ?_, ?_⟩, ⟨base, ?_⟩, entries⟩
  · rw [base.graph]
    exact wf
  · rw [base.order, base.edgeCount]
    exact order
  · intro other queued
    unfold Entry
    rw [base.graph, base.edgeCount]
    rcases entries other queued with made | ⟨before, same, different, uninvolved⟩
    · exact (made.spec wf).2.2
    · rw [same]
      exact kept other before different uninvolved
  · intro other queued
    exact (entries other queued).imp_right fun old => ⟨old.1, old.2.1⟩

end Refresh

section Fetch
variable {step : SSimplificationStep δ} {edge neighbor : ℕ}

theorem isOrdered_step {order : CDPHyperOrderConstraints} {neighbor : Option ℕ} {queued : Bool} :
    isOrdered order ⟨neighbor, some step, queued⟩ = (order.wouldCreateCycle step.before step.after ||
      order.wouldCreateCycle step.after step.before) := rfl

theorem StepFits.before_lt
    (pair : (step.before = edge ∧ step.after = neighbor) ∨ (step.before = neighbor ∧ step.after =
      edge)) (later : edge < neighbor) {count : ℕ} (bound : neighbor < count) :
    step.before < count ∧ step.after < count := by
  rcases pair with ⟨rfl, rfl⟩ | ⟨rfl, rfl⟩ <;> omega

theorem Reached.ordered (reached : s.Reached) (queued : edge ∈ s.queue)
    (here : s.bestAt edge = ⟨some neighbor, some step, true⟩)
    (boundBefore : step.before < s.edgeCount) (boundAfter : step.after < s.edgeCount)
    (free : s.order.wouldCreateCycle step.before step.after = false) :
    ({ s.mark edge false with order := (s.order.tryAdd step.before step.after).1 } :
        CDPHyperGraphSimplifier δ).Reached ∧
      ({ s.mark edge false with order := (s.order.tryAdd step.before step.after).1 } :
        CDPHyperGraphSimplifier δ).remaining < s.remaining := by
  obtain ⟨rest, erased, -⟩ := reached.mark queued
  have result : ({ s.mark edge false with order := (s.order.tryAdd step.before step.after).1 } :
      CDPHyperGraphSimplifier δ).Reached :=
    ⟨rest.wf, ⟨rest.consistent.size, rest.consistent.queued, rest.consistent.nodup⟩,
      reached.order.tryAdd, rest.entries⟩
  refine ⟨result, ?_⟩
  by_cases known : step.after ∈ s.order.reachableFrom step.before
  · -- the order was known, so the entry counted among the ordered ones
    rw [CDPHyperOrderConstraints.tryAdd_known free known]
    have counted : edge ∈ s.orderedEntries := by
      refine mem_orderedEntries.mpr ⟨queued, ?_⟩
      rw [here, isOrdered_step, Bool.or_eq_true]
      exact .inr (by simpa [CDPHyperOrderConstraints.wouldCreateCycle] using known)
    have fewer := Finset.card_erase_lt_of_mem counted
    rw [← erased] at fewer
    exact Nat.add_lt_add_left fewer _
  · have fewer := reached.order.unorderedPairs_tryAdd boundBefore boundAfter free known
    have few := result.consistent.card_orderedEntries
    have grow := Nat.mul_le_mul_right (s.edgeCount + 1) (Nat.succ_le_of_lt fewer)
    unfold remaining
    change ((s.order.tryAdd step.before step.after).1.unorderedPairs s.edgeCount).card *
      (s.edgeCount + 1) + _ < _
    change _ ≤ s.edgeCount at few
    rw [Nat.succ_mul] at grow
    omega

/-- Where a step that is taken comes from: an entry of a state with the same graph and order. -/
structure Source (settings : SimplifierSettings δ) (s u : CDPHyperGraphSimplifier δ)
    (edge neighbor : ℕ) (step : SSimplificationStep δ) : Prop where
  descends : Descends settings s u
  reached : u.Reached
  queued : edge ∈ u.queue
  entry : u.bestAt edge = ⟨some neighbor, some step, true⟩
  free : s.order.wouldCreateCycle step.before step.after = false

def taken (u : CDPHyperGraphSimplifier δ) (edge : ℕ) (step : SSimplificationStep δ) :
    CDPHyperGraphSimplifier δ :=
  { u.mark edge false with order := (u.order.tryAdd step.before step.after).1 }

/-- A round of the loop over the queue ends it, or takes off an entry that is ordered the other
way and makes its edge new entries. -/
theorem Reached.fetch_round (settings : SimplifierSettings δ) (reached : s.Reached) :
    (s.queue = [] ∧ ∀ fuel, fetchQueued settings (fuel + 1) s = (none, s)) ∨
    ∃ edge neighbor step, edge ∈ s.queue ∧
      s.popQueue settings = some (s.bestAt edge, s.mark edge false) ∧
      s.bestAt edge = ⟨some neighbor, some step, true⟩ ∧ step.after < s.edgeCount ∧
      ((s.order.wouldCreateCycle step.before step.after = false ∧
        ∀ fuel, fetchQueued settings (fuel + 1) s = (some step, s.taken edge step)) ∨
      ∃ t, t = processNeighbors settings 2 (s.mark edge false) step.after 0 s.edgeCount ∧
        t.Reached ∧ Descends settings s t ∧ t.orderedEntries.card < s.orderedEntries.card ∧
        ∀ fuel, fetchQueued settings (fuel + 1) s = fetchQueued settings fuel t) := by
  rcases popQueue_spec settings s with ⟨popped, empty⟩ | ⟨edge, queued, popped⟩
  · refine .inl ⟨empty, fun fuel => ?_⟩
    rw [CDPHyperGraphSimplifier.fetchQueued, popped]
  obtain ⟨neighbor, step, here, later, bound, -, pair⟩ := reached.entries edge queued
  obtain ⟨-, boundAfter⟩ := StepFits.before_lt pair later bound
  obtain ⟨rest, erased, -⟩ := reached.mark queued
  refine .inr ⟨edge, neighbor, step, queued, popped, here, boundAfter, ?_⟩
  cases outcome : (s.order.tryAdd step.before step.after).2 with
  | true =>
    refine .inl ⟨by simpa [CDPHyperOrderConstraints.tryAdd_snd] using outcome, fun fuel => ?_⟩
    have accepted : ((s.mark edge false).order.tryAdd step.before step.after).2 = true := outcome
    rw [CDPHyperGraphSimplifier.fetchQueued, popped, here]
    dsimp only
    rw [if_pos accepted]
    rfl
  | false =>
    -- the step would close a cycle, so it counted among the ordered entries
    have cycle : s.order.wouldCreateCycle step.before step.after = true := by
      simpa [CDPHyperOrderConstraints.tryAdd_snd] using outcome
    have counted : edge ∈ s.orderedEntries := by
      refine mem_orderedEntries.mpr ⟨queued, ?_⟩
      rw [here, isOrdered_step, cycle, Bool.true_or]
    obtain ⟨refreshed, descends, -⟩ := refresh settings rest.wf rest.consistent rest.order boundAfter
      (fun _ queued _ here => rest.shape queued here) (fun other queued _ _ => rest.entries other queued)
    have smaller := Finset.card_erase_lt_of_mem counted
    rw [← erased] at smaller
    have refused : ((s.mark edge false).order.tryAdd step.before step.after).2 = false := outcome
    refine .inr ⟨_, rfl, refreshed, (Descends.mark s).trans descends,
      lt_of_le_of_lt (Finset.card_le_card (descends.orderedEntries rest.wf)) smaller, fun fuel => ?_⟩
    rw [CDPHyperGraphSimplifier.fetchQueued, popped, here]
    dsimp only
    rw [if_neg (by simp [refused])]
    rfl

theorem Reached.fetchQueued_source (settings : SimplifierSettings δ) (fuel : ℕ)
    (reached : s.Reached) (enough : s.orderedEntries.card < fuel) :
    ((fetchQueued settings fuel s).1 = none ∧ (fetchQueued settings fuel s).2.queue = [] ∧
      (fetchQueued settings fuel s).2.Reached ∧
      Descends settings s (fetchQueued settings fuel s).2) ∨
    ∃ u edge neighbor step, Source settings s u edge neighbor step ∧
      fetchQueued settings fuel s = (some step, u.taken edge step) := by
  induction fuel generalizing s with
  | zero => omega
  | succ fuel ih =>
    rcases reached.fetch_round settings with ⟨empty, ends⟩ |
      ⟨edge, neighbor, step, queued, -, here, -, ⟨free, takes⟩ |
        ⟨t, -, again, descends, fewer, goesOn⟩⟩
    · rw [ends]
      exact .inl ⟨rfl, empty, reached, .refl s⟩
    · exact .inr ⟨s, edge, neighbor, step, ⟨.refl s, reached, queued, here, free⟩, takes fuel⟩
    · rw [goesOn]
      rcases ih again (by omega) with ⟨none, empty, result, further⟩ |
        ⟨u, other, neighbor, found, source, result⟩
      · exact .inl ⟨none, empty, result, descends.trans further⟩
      · refine .inr ⟨u, other, neighbor, found, ⟨descends.trans source.descends, source.reached,
          source.queued, source.entry, ?_⟩, result⟩
        rw [← descends.order]
        exact source.free

theorem Source.step_facts (source : Source settings s u edge neighbor step) :
    StepFits s.graph step ∧ edge < neighbor ∧ neighbor < s.edgeCount ∧
      ((step.before = edge ∧ step.after = neighbor) ∨
        (step.before = neighbor ∧ step.after = edge)) := by
  obtain ⟨other, found, same, later, bound, fits, pair⟩ :=
    source.reached.entries edge source.queued
  rw [source.entry] at same
  obtain ⟨rfl, rfl⟩ : neighbor = other ∧ step = found := by simpa using same
  rw [source.descends.graph] at fits
  rw [source.descends.edgeCount] at bound
  exact ⟨fits, later, bound, pair⟩

theorem Source.taken_reached (source : Source settings s u edge neighbor step)
    (wf : s.graph.WellFormed) :
    (u.taken edge step).Reached ∧ (u.taken edge step).remaining < s.remaining := by
  obtain ⟨-, later, bound, pair⟩ := source.step_facts
  obtain ⟨boundBefore, boundAfter⟩ := StepFits.before_lt pair later bound
  have free := source.free
  rw [← source.descends.edgeCount] at boundBefore boundAfter
  rw [← source.descends.order] at free
  obtain ⟨result, fewer⟩ :=
    source.reached.ordered source.queued source.entry boundBefore boundAfter free
  exact ⟨result, lt_of_lt_of_le fewer (source.descends.remaining_le wf)⟩

end Fetch

end CDPHyperGraphSimplifier

section Apply
variable {δ : Type} {graph : CDPHyperGraph} {step other : SSimplificationStep δ}

def SSimplificationStep.applyTo (step : SSimplificationStep δ) (graph : CDPHyperGraph) :
    CDPHyperGraph :=
  graph.replaceEdge step.change.edge step.change.newLeft step.change.newRight

variable {k : ℕ} {left right : CBitSet}

theorem CDPHyperGraph.replaceEdge_logicalEdgeCount :
    (graph.replaceEdge k left right).logicalEdgeCount = graph.logicalEdgeCount := by
  simp [CDPHyperGraph.logicalEdgeCount]

theorem CDPHyperGraph.edgeAt_replaceEdge {j : ℕ} (different : j ≠ k) :
    (graph.replaceEdge k left right).edgeAt j = graph.edgeAt j := by
  unfold CDPHyperGraph.edgeAt CDPHyperGraph.replaceEdge
  dsimp only
  split
  · rfl
  · rw [List.getElem?_set_ne (by omega), List.getElem?_set_ne (by omega)]

theorem StepFits.applyTo_wellFormed (wf : graph.WellFormed) (fits : StepFits graph step) :
    (step.applyTo graph).WellFormed := by
  obtain ⟨left, right, -, -⟩ := wf.edgeAt_sides fits.bound
  unfold SSimplificationStep.applyTo
  rw [fits.edge]
  refine wf.replaceEdge (CDPHyperGraph.edgeAt_found fits.bound) ?_ ?_ fits.disjoint fits.inside
  · exact left.mono (fits.oldLeft ▸ fits.growsLeft)
  · exact right.mono (fits.oldRight ▸ fits.growsRight)

theorem StepFits.after_other (fits : StepFits graph other) (different : other.after ≠ k) :
    StepFits (graph.replaceEdge k left right) other where
  edge := fits.edge
  bound := by
    rw [CDPHyperGraph.replaceEdge_logicalEdgeCount]
    exact fits.bound
  oldLeft := by
    rw [CDPHyperGraph.edgeAt_replaceEdge different]
    exact fits.oldLeft
  oldRight := by
    rw [CDPHyperGraph.edgeAt_replaceEdge different]
    exact fits.oldRight
  growsLeft := fits.growsLeft
  growsRight := fits.growsRight
  disjoint := fits.disjoint
  inside := by
    rw [CDPHyperGraph.replaceEdge_nodeCount]
    exact fits.inside

end Apply

namespace CDPHyperGraphSimplifier
variable {δ : Type} {s : CDPHyperGraphSimplifier δ}

section Fresh
variable {u : CDPHyperGraphSimplifier δ} {settings : SimplifierSettings δ} {edge neighbor : ℕ}
  {step : SSimplificationStep δ}

theorem fetchStep_fresh (settings : SimplifierSettings δ) (fresh : s.unapplied = []) :
    s.fetchStep settings = fetchQueued settings (s.queue.length + 1) s := by
  unfold fetchStep
  rw [fresh]

theorem orderedEntries_lt : s.orderedEntries.card < s.queue.length + 1 := by
  have inside : s.orderedEntries ⊆ s.queue.toFinset := Finset.filter_subset _ _
  exact Nat.lt_succ_of_le ((Finset.card_le_card inside).trans (List.toFinset_card_le _))

/-- The state in which `ApplyStep` processes the neighbors of the enlarged edge. -/
def pushed (u : CDPHyperGraphSimplifier δ) (edge : ℕ) (step : SSimplificationStep δ) :
    CDPHyperGraphSimplifier δ :=
  { u.taken edge step with graph := step.applyTo u.graph, applied := step :: u.applied }

theorem pushed_edgeCount : (u.pushed edge step).edgeCount = u.edgeCount :=
  CDPHyperGraph.replaceEdge_logicalEdgeCount

/-- An entry of `s` after a fresh step: made then, or an entry of `u` that neither was taken nor
involves the enlarged edge. -/
def Remains (settings : SimplifierSettings δ) (u s : CDPHyperGraphSimplifier δ) (edge : ℕ)
    (step : SSimplificationStep δ) (other : ℕ) : Prop :=
  Made settings s other (s.bestAt other) ∨
    (other ∈ u.queue ∧ other ≠ edge ∧ s.bestAt other = u.bestAt other ∧
      other ≠ step.after ∧ (u.bestAt other).bestNeighbor ≠ some step.after)

theorem Source.processed (source : Source settings s u edge neighbor step)
    (wf : s.graph.WellFormed) :
    let result := processNeighbors settings 2 (u.pushed edge step) step.after 0 u.edgeCount
    result.Reached ∧ result.remaining < s.remaining ∧ result.graph = step.applyTo s.graph ∧
      result.applied = step :: s.applied ∧ result.unapplied = s.unapplied ∧
      result.order = (s.order.tryAdd step.before step.after).1 ∧
      ∀ other ∈ result.queue, Remains settings u result edge step other := by
  obtain ⟨fits, later, bound, pair⟩ := source.step_facts
  obtain ⟨-, boundAfter⟩ := StepFits.before_lt pair later bound
  obtain ⟨reached, fewer⟩ := source.taken_reached wf
  have count : (u.pushed edge step).edgeCount = u.edgeCount := pushed_edgeCount
  have wfAfter : (u.pushed edge step).graph.WellFormed := by
    change (step.applyTo u.graph).WellFormed
    rw [source.descends.graph]
    exact fits.applyTo_wellFormed wf
  have order : (u.pushed edge step).order.Reflexive (u.pushed edge step).edgeCount := by
    rw [count]
    exact reached.order
  rw [← source.descends.edgeCount, ← count] at boundAfter
  obtain ⟨result, descends, entries⟩ := refresh settings wfAfter
    ⟨reached.consistent.size.trans count.symm, reached.consistent.queued, reached.consistent.nodup⟩
    order boundAfter (fun _ queued _ here => reached.shape queued here) (by
      intro other queued different uninvolved
      obtain ⟨far, entry, here, later, bound, entryFits, pair⟩ := reached.entries other queued
      refine ⟨far, entry, here, later, lt_of_lt_of_eq bound count.symm, entryFits.after_other ?_, pair⟩
      rw [fits.edge]
      rcases pair with ⟨-, after⟩ | ⟨-, after⟩
      · rw [after]
        rintro rfl
        exact uninvolved (congrArg SBestSimplification.bestNeighbor here)
      · rwa [after])
  have same : (u.pushed edge step).remaining = (u.taken edge step).remaining := by
    unfold remaining
    rw [count]
    rfl
  have bounded := descends.remaining_le wfAfter
  rw [count] at result descends entries bounded
  refine ⟨result, lt_of_le_of_lt (bounded.trans_eq same) fewer, ?_, ?_, ?_, ?_, fun other queued => ?_⟩
  · rw [descends.graph, ← source.descends.graph]
    rfl
  · rw [descends.applied, ← source.descends.applied]
    rfl
  · rw [descends.unapplied, ← source.descends.unapplied]
    rfl
  · rw [descends.order, ← source.descends.order]
    rfl
  · rcases entries other queued with made | ⟨before, same, different, uninvolved⟩
    · exact .inl (made.congr descends.toSameBase.symm)
    · have kept : other ∈ u.queue ∧ other ≠ edge := by
        simpa [pushed, taken, mark] using before
      have unchanged : (u.pushed edge step).bestAt other = u.bestAt other :=
        mark_frame.others other kept.2
      rw [unchanged] at same uninvolved
      exact .inr ⟨kept.1, kept.2, same, different, uninvolved⟩

theorem Reached.applyStep_source (settings : SimplifierSettings δ) (reached : s.Reached)
    (fresh : s.unapplied = []) :
    ((s.applyStep settings).2 = false ∧ (s.applyStep settings).1.queue = [] ∧
      (s.applyStep settings).1.Reached ∧ SameBase s (s.applyStep settings).1) ∨
    ∃ u edge neighbor step, Source settings s u edge neighbor step ∧
      s.applyStep settings
        = (processNeighbors settings 2 (u.pushed edge step) step.after 0 u.edgeCount, true) := by
  have fetch := fetchStep_fresh settings fresh
  rcases reached.fetchQueued_source settings _ orderedEntries_lt with
    ⟨none, empty, reachedRest, descends⟩ | ⟨u, edge, neighbor, step, source, result⟩
  · have ends : s.applyStep settings = ((s.fetchStep settings).2, false) := by
      unfold CDPHyperGraphSimplifier.applyStep
      rw [fetch]
      generalize CDPHyperGraphSimplifier.fetchQueued settings (s.queue.length + 1) s = fetched at none
      obtain ⟨found, rest⟩ := fetched
      obtain rfl : found = Option.none := none
      rfl
    rw [ends, fetch]
    exact .inl ⟨rfl, empty, reachedRest, descends.toSameBase⟩
  · refine .inr ⟨u, edge, neighbor, step, source, ?_⟩
    have edges : ({ (u.taken edge step).modifyEdge step true with
        applied := step :: ((u.taken edge step).modifyEdge step true).applied } :
        CDPHyperGraphSimplifier δ).edgeCount = u.edgeCount :=
      CDPHyperGraph.replaceEdge_logicalEdgeCount
    unfold CDPHyperGraphSimplifier.applyStep
    rw [fetch, fresh, result]
    dsimp only
    rw [List.isEmpty_nil, if_pos rfl, edges]
    rfl

theorem Reached.applyStep (settings : SimplifierSettings δ) (reached : s.Reached)
    (fresh : s.unapplied = []) :
    ((s.applyStep settings).2 = false ∧ (s.applyStep settings).1.Reached ∧
      (s.applyStep settings).1.graph = s.graph ∧ (s.applyStep settings).1.applied = s.applied ∧
      (s.applyStep settings).1.unapplied = [] ∧ (s.applyStep settings).1.queue = []) ∨
    ((s.applyStep settings).2 = true ∧ (s.applyStep settings).1.Reached ∧
      (s.applyStep settings).1.unapplied = [] ∧
      (s.applyStep settings).1.remaining < s.remaining ∧
      ∃ step, StepFits s.graph step ∧ (s.applyStep settings).1.graph = step.applyTo s.graph ∧
        (s.applyStep settings).1.applied = step :: s.applied) := by
  rcases reached.applyStep_source settings fresh with ⟨failed, empty, result, base⟩ |
    ⟨u, edge, neighbor, step, source, result⟩
  · exact .inl ⟨failed, result, base.graph, base.applied, base.unapplied.trans fresh, empty⟩
  · obtain ⟨after, less, graph, applied, unapplied, -⟩ := source.processed reached.wf
    rw [result]
    exact .inr ⟨rfl, after, unapplied.trans fresh, less, step, source.step_facts.1, graph, applied⟩

end Fresh

end CDPHyperGraphSimplifier
end DPHyper
