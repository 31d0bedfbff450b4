import Tuuli.Simplifier

/-!
The queue of candidate steps. `ProcessNeighbors` leaves each entry either as it
was or freshly made on the present graph and order, and it keeps no entry that
involves the edge it was called for.
-/
namespace DPHyper
namespace CDPHyperGraphSimplifier

variable {δ : Type} {settings : SimplifierSettings δ} {s t u : CDPHyperGraphSimplifier δ}

/-- The queue lists the entries that are marked as queued, each once. -/
structure Consistent (s : CDPHyperGraphSimplifier δ) : Prop where
  size : s.best.length = s.edgeCount
  queued : ∀ {edge}, edge ∈ s.queue ↔ (s.bestAt edge).inQueue = true
  nodup : s.queue.Nodup

structure SameBase (s t : CDPHyperGraphSimplifier δ) : Prop where
  graph : t.graph = s.graph
  order : t.order = s.order
  applied : t.applied = s.applied
  unapplied : t.unapplied = s.unapplied

theorem SameBase.refl (s : CDPHyperGraphSimplifier δ) : SameBase s s := ⟨rfl, rfl, rfl, rfl⟩

theorem SameBase.trans (first : SameBase s t) (second : SameBase t u) : SameBase s u :=
  ⟨second.graph.trans first.graph, second.order.trans first.order,
    second.applied.trans first.applied, second.unapplied.trans first.unapplied⟩

theorem SameBase.symm (base : SameBase s t) : SameBase t s :=
  ⟨base.graph.symm, base.order.symm, base.applied.symm, base.unapplied.symm⟩

theorem SameBase.edgeCount (base : SameBase s t) : t.edgeCount = s.edgeCount := by
  unfold CDPHyperGraphSimplifier.edgeCount
  rw [base.graph]

/-- Only the entry of `edge` differs. -/
structure Frame (edge : ℕ) (s t : CDPHyperGraphSimplifier δ) : Prop extends SameBase s t where
  others : ∀ other, other ≠ edge → t.bestAt other = s.bestAt other

theorem Frame.refl (edge : ℕ) (s : CDPHyperGraphSimplifier δ) : Frame edge s s :=
  ⟨.refl s, fun _ _ => rfl⟩

theorem Frame.trans {edge : ℕ} (first : Frame edge s t) (second : Frame edge t u) :
    Frame edge s u :=
  ⟨first.toSameBase.trans second.toSameBase, fun other different =>
    (second.others other different).trans (first.others other different)⟩

section Entries
variable {edge : ℕ} {entry : SBestSimplification δ}

theorem bestAt_setBest_self (bound : edge < s.best.length) :
    (s.setBest edge entry).bestAt edge = entry := by
  simp [bestAt, setBest, bound]

theorem bestAt_setBest_of_ne {other : ℕ} (different : other ≠ edge) :
    (s.setBest edge entry).bestAt other = s.bestAt other := by
  simp [bestAt, setBest, List.getElem?_set_ne (Ne.symm different)]

theorem lt_of_inQueue (queued : (s.bestAt edge).inQueue = true) : edge < s.best.length := by
  by_contra outside
  rw [bestAt, List.getElem?_eq_none (Nat.not_lt.mp outside)] at queued
  exact Bool.false_ne_true queued

theorem setBest_frame : Frame edge s (s.setBest edge entry) :=
  ⟨⟨rfl, rfl, rfl, rfl⟩, fun _ different => bestAt_setBest_of_ne different⟩

theorem Consistent.setBest (consistent : s.Consistent)
    (same : entry.inQueue = (s.bestAt edge).inQueue) : (s.setBest edge entry).Consistent where
  size := by
    have size := consistent.size
    simpa [CDPHyperGraphSimplifier.setBest, CDPHyperGraphSimplifier.edgeCount] using size
  queued := by
    intro other
    have before : other ∈ (s.setBest edge entry).queue ↔ (s.bestAt other).inQueue = true :=
      consistent.queued
    rw [before]
    by_cases here : other = edge
    · subst here
      by_cases bound : other < s.best.length
      · rw [bestAt_setBest_self bound, same]
      · have outside : (s.setBest other entry).best.length ≤ other := by
          simpa [CDPHyperGraphSimplifier.setBest] using bound
        rw [bestAt, bestAt, List.getElem?_eq_none (Nat.not_lt.mp bound),
          List.getElem?_eq_none outside]
    · rw [bestAt_setBest_of_ne here]
  nodup := consistent.nodup

/-- The state in which `edge` is queued last, or not at all. -/
def mark (s : CDPHyperGraphSimplifier δ) (edge : ℕ) (queued : Bool) : CDPHyperGraphSimplifier δ :=
  { s.setBest edge { s.bestAt edge with inQueue := queued } with
    queue := s.queue.filter (· ≠ edge) ++ if queued then [edge] else [] }

variable {queued : Bool}

theorem bestAt_mark_self (bound : edge < s.best.length) :
    (s.mark edge queued).bestAt edge = { s.bestAt edge with inQueue := queued } :=
  bestAt_setBest_self bound

theorem mark_frame : Frame edge s (s.mark edge queued) :=
  ⟨⟨rfl, rfl, rfl, rfl⟩, fun _ different => bestAt_setBest_of_ne different⟩

theorem Consistent.mark (consistent : s.Consistent) (bound : edge < s.best.length) :
    (s.mark edge queued).Consistent where
  size := by
    have size := consistent.size
    simpa [CDPHyperGraphSimplifier.mark, CDPHyperGraphSimplifier.setBest,
      CDPHyperGraphSimplifier.edgeCount] using size
  queued := by
    intro other
    by_cases here : other = edge
    · subst here
      rw [bestAt_mark_self bound]
      cases queued <;> simp [CDPHyperGraphSimplifier.mark]
    · rw [mark_frame.others other here, ← consistent.queued]
      cases queued <;> simp [CDPHyperGraphSimplifier.mark, here]
  nodup := by
    have kept := consistent.nodup.filter (fun other => decide (other ≠ edge))
    cases queued with
    | false => simpa [CDPHyperGraphSimplifier.mark] using kept
    | true =>
      refine List.nodup_append.mpr ⟨kept, List.nodup_singleton edge, ?_⟩
      intro other listed last same
      simp_all

theorem Consistent.updateQueue_eq (consistent : s.Consistent) (bound : edge < s.best.length) :
    s.updateQueue edge = s.mark edge (s.bestAt edge).bestNeighbor.isSome := by
  have unchanged : ∀ {queued : Bool}, (s.bestAt edge).inQueue = queued →
      s.best.set edge { s.bestAt edge with inQueue := queued } = s.best := by
    rintro queued rfl
    have same : s.bestAt edge = s.best[edge] := by
      simp [bestAt, bound]
    rw [same]
    exact List.set_getElem_self bound
  unfold CDPHyperGraphSimplifier.updateQueue CDPHyperGraphSimplifier.mark
    CDPHyperGraphSimplifier.setBest
  dsimp only
  split
  · rename_i unmarked
    have absent : s.queue.filter (· ≠ edge) = s.queue := by
      refine List.filter_eq_self.mpr (fun other listed => ?_)
      rw [decide_eq_true_eq]
      rintro rfl
      rw [consistent.queued.mp listed] at unmarked
      exact Bool.false_ne_true unmarked.symm
    rw [absent]
    cases neighbor : (s.bestAt edge).bestNeighbor with
    | none =>
      have same := unchanged unmarked
      simp only [neighbor] at same
      simp [same]
    | some other => simp
  · rename_i marked
    cases neighbor : (s.bestAt edge).bestNeighbor with
    | none => simp
    | some other =>
      have same := unchanged (Bool.not_eq_false _ ▸ marked)
      simp only [neighbor] at same
      simp [same]

theorem Consistent.updateQueue (consistent : s.Consistent) (bound : edge < s.edgeCount) :
    (s.updateQueue edge).Consistent ∧ Frame edge s (s.updateQueue edge) ∧
      (s.updateQueue edge).bestAt edge
        = { s.bestAt edge with inQueue := (s.bestAt edge).bestNeighbor.isSome } := by
  rw [← consistent.size] at bound
  rw [consistent.updateQueue_eq bound]
  exact ⟨consistent.mark bound, mark_frame, bestAt_mark_self bound⟩

theorem Consistent.trySetStep (settings : SimplifierSettings δ) (consistent : s.Consistent)
    (bound : edge < s.edgeCount) (step : SSimplificationStep δ) (neighbor : ℕ) :
    ((s.trySetStep settings step edge neighbor).2 = true ∧
      (s.trySetStep settings step edge neighbor).1.Consistent ∧
      Frame edge s (s.trySetStep settings step edge neighbor).1 ∧
      (s.trySetStep settings step edge neighbor).1.bestAt edge
        = ⟨some neighbor, some step, true⟩) ∨
    s.trySetStep settings step edge neighbor = (s, false) := by
  have inside : edge < s.best.length := by
    rw [consistent.size]
    exact bound
  unfold CDPHyperGraphSimplifier.trySetStep
  dsimp only
  split
  · left
    have middle := @Consistent.setBest δ s edge
      { s.bestAt edge with bestNeighbor := some neighbor, step := some step } consistent rfl
    obtain ⟨result, frame, here⟩ := @Consistent.updateQueue δ _ edge middle (by
      rw [setBest_frame.edgeCount]
      exact bound)
    refine ⟨rfl, result, setBest_frame.trans frame, ?_⟩
    rw [here, bestAt_setBest_self inside]
    rfl
  · exact .inr rfl

theorem Consistent.tryPair (settings : SimplifierSettings δ) (consistent : s.Consistent)
    (bound : edge < s.edgeCount) (edge1 edge2 neighbor : ℕ) :
    ((s.tryPair settings edge1 edge2 edge neighbor).2 = true ∧
      (s.tryPair settings edge1 edge2 edge neighbor).1.Consistent ∧
      Frame edge s (s.tryPair settings edge1 edge2 edge neighbor).1 ∧
      ∃ step, makeStep settings s.graph s.order edge1 edge2 = some step ∧
        (s.tryPair settings edge1 edge2 edge neighbor).1.bestAt edge
          = ⟨some neighbor, some step, true⟩) ∨
    s.tryPair settings edge1 edge2 edge neighbor = (s, false) := by
  unfold CDPHyperGraphSimplifier.tryPair
  cases made : makeStep settings s.graph s.order edge1 edge2 with
  | none => exact .inr rfl
  | some step =>
    rcases consistent.trySetStep settings bound step neighbor with
      ⟨set, result, frame, here⟩ | same
    · exact .inl ⟨set, result, frame, step, rfl, here⟩
    · exact .inr same

end Entries

/-- An entry as `MakeStep` gives it on this graph and order. -/
def Made (settings : SimplifierSettings δ) (s : CDPHyperGraphSimplifier δ) (edge : ℕ)
    (entry : SBestSimplification δ) : Prop :=
  ∃ neighbor step, entry = ⟨some neighbor, some step, true⟩ ∧ edge < neighbor ∧
    neighbor < s.edgeCount ∧ (makeStep settings s.graph s.order edge neighbor = some step ∨
      makeStep settings s.graph s.order neighbor edge = some step)

theorem Made.congr {edge : ℕ} {entry : SBestSimplification δ} (base : SameBase s t)
    (made : Made settings t edge entry) : Made settings s edge entry := by
  obtain ⟨neighbor, step, rfl, later, bound, steps⟩ := made
  rw [base.edgeCount] at bound
  rw [base.graph, base.order] at steps
  exact ⟨neighbor, step, rfl, later, bound, steps⟩

section Search
variable {edge first last : ℕ}

theorem mem_between {number : ℕ} : number ∈ between first last ↔ first ≤ number ∧ number < last := by
  simp [between, and_comm]

theorem Consistent.searchLater (settings : SimplifierSettings δ) (consistent : s.Consistent)
    (bound : edge < s.edgeCount) (inside : last ≤ s.edgeCount) :
    (s.searchLater settings edge first last).Consistent ∧
      Frame edge s (s.searchLater settings edge first last) ∧
      (edge ∈ (s.searchLater settings edge first last).queue →
        Made settings s edge ((s.searchLater settings edge first last).bestAt edge)) := by
  have size : edge < s.best.length := by
    rw [consistent.size]
    exact bound
  have start : (s.setBest edge { s.bestAt edge with bestNeighbor := none }).Consistent ∧
      Frame edge s (s.setBest edge { s.bestAt edge with bestNeighbor := none }) ∧
      (((s.setBest edge { s.bestAt edge with bestNeighbor := none }).bestAt edge).bestNeighbor
          = none ∨
        Made settings s edge
          ((s.setBest edge { s.bestAt edge with bestNeighbor := none }).bestAt edge)) := by
    refine ⟨consistent.setBest rfl, setBest_frame, .inl ?_⟩
    rw [bestAt_setBest_self size]
  -- while the entry has no neighbor it may still be marked, until the last update
  have run := List.foldlRecOn (motive := fun t => t.Consistent ∧ Frame edge s t ∧
      ((t.bestAt edge).bestNeighbor = none ∨ Made settings s edge (t.bestAt edge)))
    (between (max first (edge + 1)) last)
    (fun s edge2 => (s.tryPair settings edge edge2 edge edge2).1) start (by
    rintro t ⟨consistentT, frame, entry⟩ edge2 listed
    obtain ⟨later, below⟩ := mem_between.mp listed
    rcases consistentT.tryPair settings (by rwa [frame.edgeCount]) edge edge2 edge2 with
      ⟨-, result, next, step, made, here⟩ | same
    · rw [frame.graph, frame.order] at made
      exact ⟨result, frame.trans next,
        .inr ⟨edge2, step, here, by omega, by omega, .inl made⟩⟩
    · rw [same]
      exact ⟨consistentT, frame, entry⟩)
  obtain ⟨consistentT, frame, entry⟩ := run
  obtain ⟨result, next, here⟩ := @Consistent.updateQueue δ _ edge consistentT
    (by rwa [frame.edgeCount])
  unfold CDPHyperGraphSimplifier.searchLater
  refine ⟨result, frame.trans next, fun queued => ?_⟩
  rw [result.queued, here] at queued
  rw [here]
  rcases entry with none | ⟨neighbor, step, same, facts⟩
  · rw [none] at queued
    exact absurd queued (by simp)
  · rw [same]
    exact ⟨neighbor, step, rfl, facts⟩

theorem processNeighbors_behind (fuel : ℕ) :
    processNeighbors settings (fuel + 1) s edge (edge + 1) last
      = s.searchLater settings edge (edge + 1) last := by
  have none : between (edge + 1) (min last edge) = [] := by
    rw [List.eq_nil_iff_forall_not_mem]
    intro number listed
    have bounds := mem_between.mp listed
    omega
  unfold processNeighbors
  rw [none]
  rfl

def visitEarlier (settings : SimplifierSettings δ) (edge1 : ℕ) (s : CDPHyperGraphSimplifier δ)
    (edge2 : ℕ) : CDPHyperGraphSimplifier δ :=
  let attempt := s.tryPair settings edge1 edge2 edge2 edge1
  if attempt.2 then attempt.1
  else if (attempt.1.bestAt edge2).bestNeighbor = some edge1 then
    processNeighbors settings 1 attempt.1 edge2 (edge2 + 1) attempt.1.edgeCount
  else attempt.1

theorem Consistent.visitEarlier (settings : SimplifierSettings δ) (consistent : s.Consistent)
    {other : ℕ} (earlier : other < edge) (bound : edge < s.edgeCount) :
    (visitEarlier settings edge s other).Consistent ∧
      Frame other s (visitEarlier settings edge s other) ∧
      (other ∈ (visitEarlier settings edge s other).queue →
        Made settings s other ((visitEarlier settings edge s other).bestAt other) ∨
        (other ∈ s.queue ∧ (visitEarlier settings edge s other).bestAt other = s.bestAt other ∧
          (s.bestAt other).bestNeighbor ≠ some edge)) := by
  have boundOther : other < s.edgeCount := by omega
  unfold CDPHyperGraphSimplifier.visitEarlier
  rcases consistent.tryPair settings boundOther edge other edge with
    ⟨set, result, frame, step, made, here⟩ | same
  · dsimp only
    rw [if_pos set]
    refine ⟨result, frame, fun _ => .inl ?_⟩
    rw [here]
    exact ⟨edge, step, rfl, earlier, bound, .inr made⟩
  · rw [same]
    dsimp only
    rw [if_neg Bool.false_ne_true]
    split
    · rw [processNeighbors_behind]
      obtain ⟨result, frame, entry⟩ := @Consistent.searchLater δ s other (other + 1)
        s.edgeCount settings consistent boundOther (Nat.le_refl _)
      exact ⟨result, frame, fun queued => .inl (entry queued)⟩
    · rename_i uninvolved
      exact ⟨consistent, .refl other s, fun queued => .inr ⟨queued, rfl, uninvolved⟩⟩

theorem visitEarlier_run (settings : SimplifierSettings δ) (l : List ℕ)
    (earlier : ∀ other ∈ l, other < edge) (bound : edge < s.edgeCount)
    {t : CDPHyperGraphSimplifier δ} (base : SameBase s t) (consistent : t.Consistent)
    (entries : ∀ other ∈ t.queue, Made settings s other (t.bestAt other) ∨ (other ∈ s.queue ∧
      t.bestAt other = s.bestAt other ∧ (other = edge ∨ other ∈ l ∨ (s.bestAt other).bestNeighbor
      ≠ some edge))) :
    SameBase s (l.foldl (visitEarlier settings edge) t) ∧
      (l.foldl (visitEarlier settings edge) t).Consistent ∧
      ∀ other ∈ (l.foldl (visitEarlier settings edge) t).queue,
        Made settings s other ((l.foldl (visitEarlier settings edge) t).bestAt other) ∨
        (other ∈ s.queue ∧ (l.foldl (visitEarlier settings edge) t).bestAt other = s.bestAt other ∧
          (other = edge ∨ (s.bestAt other).bestNeighbor ≠ some edge)) := by
  induction l generalizing t with
  | nil =>
    refine ⟨base, consistent, fun other queued => ?_⟩
    simpa using entries other queued
  | cons first rest ih =>
    obtain ⟨result, frame, entry⟩ := consistent.visitEarlier settings
      (earlier first List.mem_cons_self) (by rwa [base.edgeCount])
    refine ih (fun other listed => earlier other (List.mem_cons_of_mem first listed))
      (base.trans frame.toSameBase) result ?_
    intro other queued
    by_cases here : other = first
    · subst here
      rcases entry queued with made | ⟨before, same, uninvolved⟩
      · exact .inl (made.congr base)
      · rw [same]
        rcases entries other before with made | ⟨old, unchanged, -⟩
        · exact .inl made
        · rw [unchanged] at uninvolved
          exact .inr ⟨old, unchanged, .inr (.inr uninvolved)⟩
    · rw [result.queued, frame.others other here, ← consistent.queued] at queued
      rw [frame.others other here]
      rcases entries other queued with made | ⟨old, unchanged, either⟩
      · exact .inl made
      · refine .inr ⟨old, unchanged, ?_⟩
        rcases either with isEdge | listed | uninvolved
        · exact .inl isEdge
        · exact .inr (.inl ((List.mem_cons.mp listed).resolve_left here))
        · exact .inr (.inr uninvolved)

/-- Every entry of `t` was made anew, or is one of `s` that does not involve the edge. -/
def Renewed (settings : SimplifierSettings δ) (s t : CDPHyperGraphSimplifier δ) (edge : ℕ) : Prop :=
  ∀ other ∈ t.queue, Made settings s other (t.bestAt other) ∨
    (other ∈ s.queue ∧ t.bestAt other = s.bestAt other ∧ other ≠ edge ∧
      (s.bestAt other).bestNeighbor ≠ some edge)

theorem Consistent.processNeighbors (settings : SimplifierSettings δ) (consistent : s.Consistent)
    (bound : edge < s.edgeCount)
    (shape : ∀ other ∈ s.queue, ∀ {neighbor}, (s.bestAt other).bestNeighbor = some neighbor →
      other < neighbor) :
    (processNeighbors settings 2 s edge 0 s.edgeCount).Consistent ∧
      SameBase s (processNeighbors settings 2 s edge 0 s.edgeCount) ∧
      Renewed settings s (processNeighbors settings 2 s edge 0 s.edgeCount) edge := by
  obtain ⟨base, visited, entries⟩ := visitEarlier_run settings
    (between 0 (min s.edgeCount edge)) (fun other listed => by
      have := mem_between.mp listed
      omega) bound (.refl s) consistent (fun other queued => by
      refine .inr ⟨queued, rfl, ?_⟩
      by_cases involved : (s.bestAt other).bestNeighbor = some edge
      · have := shape other queued involved
        exact .inr (.inl (mem_between.mpr (by omega)))
      · exact .inr (.inr involved))
  obtain ⟨result, frame, entry⟩ := @Consistent.searchLater δ _ edge 0 s.edgeCount settings visited
    (by rwa [base.edgeCount]) (by rw [base.edgeCount])
  refine ⟨result, base.trans frame.toSameBase, fun other queued => ?_⟩
  by_cases here : other = edge
  · subst here
    exact .inl ((entry queued).congr base)
  · have before : other ∈ ((between 0 (min s.edgeCount edge)).foldl
        (CDPHyperGraphSimplifier.visitEarlier settings edge) s).queue := by
      rw [visited.queued, ← frame.others other here]
      exact result.queued.mp queued
    have same : (CDPHyperGraphSimplifier.processNeighbors settings 2 s edge 0
        s.edgeCount).bestAt other = _ := frame.others other here
    rw [same]
    rcases entries other before with made | ⟨old, unchanged, isEdge | uninvolved⟩
    · exact .inl made
    · exact absurd isEdge here
    · exact .inr ⟨old, unchanged, here, uninvolved⟩

end Search

end CDPHyperGraphSimplifier
end DPHyper
