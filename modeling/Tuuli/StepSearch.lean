import Tuuli.StepMoves

/-!
`ApplySteps`, the binary search and `Simplify`. Whatever the search probes, it
stays on the steps that the doubling has applied, and the number of steps it
settles on was probed before.
-/
namespace DPHyper
namespace CDPHyperGraphSimplifier

variable {δ : Type} {settings : SimplifierSettings δ} {start : CDPHyperGraph}
  {s t : CDPHyperGraphSimplifier δ} {n : ℕ}

section Applied
variable (wf : start.WellFormed)

theorem At.total (here : At settings start n s) :
    s.applied.length + s.unapplied.length = (fresh settings start n).applied.length := by
  rw [← here.steps, List.length_append, List.length_reverse, Nat.add_comm]

include wf in
theorem At.unapplyMore (extra : ℕ) (here : At settings start n s)
    (enough : extra ≤ s.applied.length) :
    At settings start n (unapplyMore extra s) ∧
      (unapplyMore extra s).applied.length + extra = s.applied.length := by
  induction extra generalizing s with
  | zero => exact ⟨here, rfl⟩
  | succ extra ih =>
    cases latest : s.applied with
    | nil =>
      rw [latest] at enough
      exact absurd enough (by simp)
    | cons step steps =>
      obtain ⟨next, applied, -⟩ := here.unapplyStep wf latest
      rw [latest, List.length_cons] at enough
      obtain ⟨result, length⟩ := ih next (by rw [applied]; omega)
      rw [applied] at length
      rw [List.length_cons]
      exact ⟨result, by unfold CDPHyperGraphSimplifier.unapplyMore; omega⟩

theorem At.applyMore (missing : ℕ) (here : At settings start n s)
    (enough : missing ≤ s.unapplied.length) :
    (applyMore settings missing s).2 = true ∧
      At settings start n (applyMore settings missing s).1 ∧
      (applyMore settings missing s).1.applied.length = s.applied.length + missing := by
  induction missing generalizing s with
  | zero => exact ⟨rfl, here, rfl⟩
  | succ missing ih =>
    cases undone : s.unapplied with
    | nil =>
      rw [undone] at enough
      exact absurd enough (by simp)
    | cons step steps =>
      obtain ⟨success, next, applied, unapplied⟩ := here.redo undone
      rw [undone, List.length_cons] at enough
      obtain ⟨done, result, length⟩ := ih next (by rw [unapplied]; omega)
      unfold CDPHyperGraphSimplifier.applyMore
      rw [applied, List.length_cons] at length
      dsimp only
      rw [if_pos success]
      exact ⟨done, result, by omega⟩

include wf in
theorem At.applySteps {count : ℕ} (here : At settings start n s)
    (bound : count ≤ (fresh settings start n).applied.length) :
    (s.applySteps settings count).2 = true ∧
      At settings start n (s.applySteps settings count).1 ∧
      (s.applySteps settings count).1.applied.length = count := by
  have total := here.total
  obtain ⟨done, raised, length⟩ := here.applyMore (count - s.applied.length) (by omega)
  obtain ⟨lowered, lengthLowered⟩ := raised.unapplyMore wf
    ((CDPHyperGraphSimplifier.applyMore settings (count - s.applied.length) s).1.applied.length
      - count) (by omega)
  unfold CDPHyperGraphSimplifier.applySteps
  dsimp only
  rw [if_pos done]
  refine ⟨rfl, lowered, ?_⟩
  dsimp only
  omega

theorem At.edges_eq (here : At settings start n s) (none : s.applied.length = 0) :
    s.graph.edges = start.edges := by
  rw [here.positioned.edges, List.length_eq_zero_iff.mp none]
  rfl

include wf in
theorem At.restored (here : At settings start n s) :
    (s.applySteps settings 0).1.graph.edges = start.edges := by
  obtain ⟨-, result, length⟩ := here.applySteps wf (Nat.zero_le _)
  exact result.edges_eq length

end Applied

section Moves

/-- What a caller can ask of the simplifier besides `Simplify`. -/
inductive Move
  | apply
  | unapply
  | goTo (count : ℕ)

def move (settings : SimplifierSettings δ) (s : CDPHyperGraphSimplifier δ) :
    Move → CDPHyperGraphSimplifier δ
  | .apply => (s.applyStep settings).1
  | .unapply => s.unapplyStep
  | .goTo count => (s.applySteps settings count).1

def restore (settings : SimplifierSettings δ) (s : CDPHyperGraphSimplifier δ) :
    CDPHyperGraphSimplifier δ :=
  (s.applySteps settings 0).1

/-- What applying and undoing one step keep every move keeps. -/
theorem move_rule {motive : CDPHyperGraphSimplifier δ → Prop}
    (applies : ∀ s, motive s → motive (s.applyStep settings).1)
    (undoes : ∀ s, motive s → motive s.unapplyStep) (holds : motive s) (request : Move) :
    motive (s.move settings request) := by
  have raised : ∀ missing s, motive s → motive (applyMore settings missing s).1 := by
    intro missing
    induction missing with
    | zero => exact fun s holds => holds
    | succ missing ih =>
      intro s holds
      unfold CDPHyperGraphSimplifier.applyMore
      dsimp only
      split
      · exact ih _ (applies s holds)
      · exact applies s holds
  have lowered : ∀ extra s, motive s → motive (unapplyMore extra s) := by
    intro extra
    induction extra with
    | zero => exact fun s holds => holds
    | succ extra ih => exact fun s holds => ih _ (undoes s holds)
  cases request with
  | apply => exact applies s holds
  | unapply => exact undoes s holds
  | goTo count =>
    unfold CDPHyperGraphSimplifier.move CDPHyperGraphSimplifier.applySteps
    dsimp only
    split
    · exact lowered _ _ (raised _ s holds)
    · exact raised _ s holds

variable (wf : start.WellFormed)
  (arranged : start.Arranged (List.range start.logicalEdgeCount))

include wf arranged

omit arranged in
theorem At.unapplyStep_any (here : At settings start n s) : At settings start n s.unapplyStep := by
  cases latest : s.applied with
  | nil =>
    have same : s.unapplyStep = s := by
      unfold CDPHyperGraphSimplifier.unapplyStep
      rw [latest]
    rw [same]
    exact here
  | cons step steps => exact (here.unapplyStep wf latest).1

theorem At.move (here : At settings start n s) (request : Move) :
    ∃ m, At settings start m (s.move settings request) :=
  move_rule (motive := fun s => ∃ m, At settings start m s)
    (fun _ ⟨_, here⟩ => here.applyStep wf arranged)
    (fun _ ⟨m, here⟩ => ⟨m, here.unapplyStep_any wf⟩) ⟨n, here⟩ request

theorem At.moves_restored (moves : List Move) (here : At settings start n s) :
    (restore settings (moves.foldl (CDPHyperGraphSimplifier.move settings) s)).graph.edges
      = start.edges := by
  induction moves generalizing n s with
  | nil => exact here.restored wf
  | cons request rest ih =>
    obtain ⟨m, next⟩ := here.move wf arranged request
    exact ih next

end Moves

section Moved

/-- The states that any applying and undoing of steps leads to. -/
def Moved (settings : SimplifierSettings δ) (start : CDPHyperGraph)
    (s : CDPHyperGraphSimplifier δ) : Prop :=
  ∃ moves : List Move, moves.foldl (move settings) (init settings start) = s

theorem Moved.move (moved : Moved settings start s) (request : Move) :
    Moved settings start (s.move settings request) := by
  obtain ⟨moves, rfl⟩ := moved
  exact ⟨moves ++ [request], List.foldl_append ..⟩

theorem Moved.rule {motive : CDPHyperGraphSimplifier δ → Prop}
    (begins : motive (init settings start))
    (applies : ∀ s, motive s → motive (s.applyStep settings).1)
    (undoes : ∀ s, motive s → motive s.unapplyStep) (moved : Moved settings start s) : motive s := by
  obtain ⟨moves, rfl⟩ := moved
  exact List.foldlRecOn moves (CDPHyperGraphSimplifier.move settings) begins
    fun _ holds request _ => move_rule applies undoes holds request

theorem moved_fresh (n : ℕ) : Moved settings start (fresh settings start n) := by
  induction n with
  | zero => exact ⟨[], rfl⟩
  | succ n ih => exact ih.move .apply

theorem Moved.bisect (fuel : ℕ) {lower upper : ℕ} (moved : Moved settings start s) :
    Moved settings start (bisect settings fuel s lower upper).1 := by
  induction fuel generalizing s lower upper with
  | zero => exact moved
  | succ fuel ih =>
    have next := moved.move (.goTo (lower + (upper - lower) / 2))
    unfold CDPHyperGraphSimplifier.bisect
    dsimp only
    split
    · split
      · exact ih next
      · split
        · exact ih next
        · exact ih next
    · exact moved

theorem Moved.chooseCount (moved : Moved settings start s) (count : ℕ) :
    Moved settings start (s.chooseCount settings count).1 := by
  have chosen := (@Moved.bisect δ settings start s (count + 1) 0 (count + 1) moved).move
    (.goTo (CDPHyperGraphSimplifier.bisect settings (count + 1) s 0 (count + 1)).2)
  unfold CDPHyperGraphSimplifier.chooseCount
  dsimp only
  split
  · exact chosen
  · exact chosen.move (.goTo 0)

end Moved

section Bisect

def probes (settings : SimplifierSettings δ) :
    ℕ → CDPHyperGraphSimplifier δ → ℕ → ℕ → List (CDPHyperGraphSimplifier δ)
  | 0, _, _, _ => []
  | fuel + 1, s, lower, upper =>
    if lower < upper then
      let middle := lower + (upper - lower) / 2
      let probed := s.applySteps settings middle
      if probed.2 = false then probes settings fuel probed.1 (middle + 1) upper
      else if probed.1.enumerationExceedsBudget settings = false then
        probed.1 :: probes settings fuel probed.1 lower middle
      else probed.1 :: probes settings fuel probed.1 (middle + 1) upper
    else []

theorem Moved.probes (fuel : ℕ) {lower upper : ℕ} (moved : Moved settings start s) :
    ∀ probed ∈ probes settings fuel s lower upper, Moved settings start probed := by
  induction fuel generalizing s lower upper with
  | zero => exact fun _ listed => absurd listed List.not_mem_nil
  | succ fuel ih =>
    have next := moved.move (.goTo (lower + (upper - lower) / 2))
    unfold CDPHyperGraphSimplifier.probes
    dsimp only
    split
    · split
      · exact ih next
      · split
        · exact List.forall_mem_cons.mpr ⟨next, ih next⟩
        · exact List.forall_mem_cons.mpr ⟨next, ih next⟩
    · exact fun _ listed => absurd listed List.not_mem_nil

structure Searched (settings : SimplifierSettings δ) (start : CDPHyperGraph) (n lower upper : ℕ)
    (log : List (CDPHyperGraphSimplifier δ)) (result : CDPHyperGraphSimplifier δ × ℕ) : Prop where
  here : At settings start n result.1
  above : lower ≤ result.2
  below : result.2 ≤ upper
  inside : result.2 ≤ (fresh settings start n).applied.length
  fits : ∀ probed ∈ log, probed.enumerationExceedsBudget settings = false →
    result.2 ≤ probed.applied.length
  exceeds : ∀ probed ∈ log, probed.enumerationExceedsBudget settings = true →
    probed.applied.length < result.2
  chosen : result.2 < upper → ∃ probed ∈ log, probed.applied.length = result.2
  before : lower < result.2 → ∃ probed ∈ log, probed.applied.length + 1 = result.2
  probed : ∀ probed ∈ log, At settings start n probed

variable (wf : start.WellFormed)
  (arranged : start.Arranged (List.range start.logicalEdgeCount))

include wf arranged in
/-- The search from any state on these steps, when all of them together fit the budget. -/
theorem At.bisect (fuel : ℕ) {lower upper : ℕ} (here : At settings start n s)
    (all : (fresh settings start n).enumerationExceedsBudget settings = false)
    (enough : upper - lower ≤ fuel) (ordered : lower ≤ upper)
    (bound : upper ≤ (fresh settings start n).applied.length + 1)
    (notPassed : lower ≤ (fresh settings start n).applied.length) :
    Searched settings start n lower upper (probes settings fuel s lower upper)
      (bisect settings fuel s lower upper) := by
  induction fuel generalizing s lower upper with
  | zero =>
    have same : lower = upper := by omega
    subst same
    exact ⟨here, le_refl _, le_refl _, notPassed, by simp [probes], by simp [probes],
      fun less => absurd less (lt_irrefl _), fun less => absurd less (lt_irrefl _), by simp [probes]⟩
  | succ fuel ih =>
    unfold CDPHyperGraphSimplifier.bisect probes
    by_cases more : lower < upper
    · rw [if_pos more, if_pos more]
      dsimp only
      generalize middleIs : lower + (upper - lower) / 2 = middle
      have middleLower : lower ≤ middle := by omega
      have middleUpper : middle < upper := by omega
      obtain ⟨reached, probedAt, length⟩ := here.applySteps wf (show middle ≤ _ by omega)
      have notFailed : ¬ (s.applySteps settings middle).2 = false := by simp [reached]
      rw [if_neg notFailed, if_neg notFailed]
      by_cases good : (s.applySteps settings middle).1.enumerationExceedsBudget settings = false
      · rw [if_pos good, if_pos good]
        have rest := ih probedAt (by omega : middle - lower ≤ fuel) middleLower (by omega) notPassed
        refine ⟨rest.here, rest.above, rest.below.trans middleUpper.le, rest.inside, ?_, ?_, ?_, ?_,
          List.forall_mem_cons.mpr ⟨probedAt, rest.probed⟩⟩
        · intro probed listed fits
          rcases List.mem_cons.mp listed with rfl | later
          · rw [length]
            exact rest.below
          · exact rest.fits probed later fits
        · intro probed listed exceeding
          rcases List.mem_cons.mp listed with rfl | later
          · rw [good] at exceeding
            exact absurd exceeding Bool.false_ne_true
          · exact rest.exceeds probed later exceeding
        · intro _
          rcases Nat.lt_or_eq_of_le rest.below with less | same
          · exact List.exists_mem_cons_of_exists (rest.chosen less)
          · exact ⟨_, List.mem_cons_self, length.trans same.symm⟩
        · intro less
          exact List.exists_mem_cons_of_exists (rest.before less)
      · rw [if_neg good, if_neg good]
        have exceeding : (s.applySteps settings middle).1.enumerationExceedsBudget settings = true := by
          simpa using good
        -- all steps together fit, so the search has not passed them
        have notAll : middle ≠ (fresh settings start n).applied.length := by
          intro same
          have total := probedAt.total
          have none : (s.applySteps settings middle).1.unapplied = [] :=
            List.length_eq_zero_iff.mp (by omega)
          rw [probedAt.eq_fresh wf arranged none, all] at exceeding
          exact absurd exceeding Bool.false_ne_true
        have rest := ih probedAt (by omega : upper - (middle + 1) ≤ fuel) (by omega) bound (by omega)
        refine ⟨rest.here, by have := rest.above; omega, rest.below, rest.inside, ?_, ?_, ?_, ?_,
          List.forall_mem_cons.mpr ⟨probedAt, rest.probed⟩⟩
        · intro probed listed fits
          rcases List.mem_cons.mp listed with rfl | later
          · rw [exceeding] at fits
            exact absurd fits.symm Bool.false_ne_true
          · exact rest.fits probed later fits
        · intro probed listed tooMany
          rcases List.mem_cons.mp listed with rfl | later
          · rw [length]
            exact rest.above
          · exact rest.exceeds probed later tooMany
        · intro less
          exact List.exists_mem_cons_of_exists (rest.chosen less)
        · intro _
          rcases Nat.lt_or_eq_of_le rest.above with less | same
          · exact List.exists_mem_cons_of_exists (rest.before less)
          · exact ⟨_, List.mem_cons_self, by rw [length]; exact same⟩
    · rw [if_neg more, if_neg more]
      have same : lower = upper := by omega
      subst same
      exact ⟨here, le_refl _, le_refl _, notPassed, by simp, by simp,
        fun less => absurd less (lt_irrefl _), fun less => absurd less (lt_irrefl _), by simp⟩

end Bisect

section Doubling

/-- The first `m` attempts to apply a fresh step succeed. -/
def Available (settings : SimplifierSettings δ) (start : CDPHyperGraph) (m : ℕ) : Prop :=
  ∀ j < m, ((fresh settings start j).applyStep settings).2 = true

/-- There are exactly `m` steps. -/
def Exhausted (settings : SimplifierSettings δ) (start : CDPHyperGraph) (m : ℕ) : Prop :=
  Available settings start m ∧ ((fresh settings start m).applyStep settings).2 = false

variable (wf : start.WellFormed) {m : ℕ}

theorem Available.succ (available : Available settings start m)
    (success : ((fresh settings start m).applyStep settings).2 = true) :
    Available settings start (m + 1) := by
  intro j less
  rcases Nat.lt_succ_iff_lt_or_eq.mp less with earlier | rfl
  · exact available j earlier
  · exact success

theorem Available.mono (available : Available settings start m) {k : ℕ} (less : k ≤ m) :
    Available settings start k :=
  fun j before => available j (Nat.lt_of_lt_of_le before less)

include wf in
theorem Available.length (available : Available settings start m) :
    (fresh settings start m).applied.length = m := by
  induction m with
  | zero =>
    change (init settings start).applied.length = 0
    rw [(reached_init settings wf).2.2.1]
    rfl
  | succ m ih =>
    have before := ih (available.mono (Nat.le_succ m))
    obtain ⟨reached, unapplied, -, -⟩ := fresh_spec settings wf m
    rcases reached.applyStep settings unapplied with ⟨failed, -⟩ | ⟨-, -, -, -, step, -, -, applied⟩
    · rw [available m (Nat.lt_succ_self m)] at failed
      exact absurd failed (by simp)
    · change ((fresh settings start m).applyStep settings).1.applied.length = m + 1
      rw [applied, List.length_cons, before]

include wf in
theorem Available.bounded (available : Available settings start m) :
    m + (fresh settings start m).remaining ≤ (init settings start).remaining := by
  induction m with
  | zero =>
    change 0 + (init settings start).remaining ≤ _
    omega
  | succ m ih =>
    have before := ih (available.mono (Nat.le_succ m))
    obtain ⟨reached, unapplied, -, -⟩ := fresh_spec settings wf m
    rcases reached.applyStep settings unapplied with ⟨failed, -⟩ | ⟨-, -, -, less, -⟩
    · rw [available m (Nat.lt_succ_self m)] at failed
      exact absurd failed (by simp)
    · change m + 1 + ((fresh settings start m).applyStep settings).1.remaining ≤ _
      omega

include wf in
theorem fresh_stopped (failed : ((fresh settings start m).applyStep settings).2 = false) :
    (fresh settings start (m + 1)).graph = (fresh settings start m).graph ∧
      (fresh settings start (m + 1)).applied = (fresh settings start m).applied := by
  obtain ⟨reached, unapplied, -, -⟩ := fresh_spec settings wf m
  rcases reached.applyStep settings unapplied with ⟨-, -, graph, applied, -⟩ | ⟨success, -⟩
  · exact ⟨graph, applied⟩
  · rw [failed] at success
    exact absurd success (by simp)

theorem applyMore_fresh (k : ℕ) (available : Available settings start m) :
    (Available settings start (m + k) ∧
      applyMore settings k (fresh settings start m) = (fresh settings start (m + k), true)) ∨
    ∃ j, m ≤ j ∧ j < m + k ∧ Exhausted settings start j ∧
      applyMore settings k (fresh settings start m) = (fresh settings start (j + 1), false) := by
  induction k generalizing m with
  | zero => exact .inl ⟨available, rfl⟩
  | succ k ih =>
    unfold applyMore
    dsimp only
    cases outcome : ((fresh settings start m).applyStep settings).2 with
    | false =>
      refine .inr ⟨m, le_refl m, by omega, ⟨available, outcome⟩, ?_⟩
      rfl
    | true =>
      rw [if_pos rfl]
      rcases ih (available.succ outcome) with ⟨further, result⟩ | ⟨j, least, bound, ends, result⟩
      · rw [Nat.succ_add_eq_add_succ] at further result
        exact .inl ⟨further, result⟩
      · exact .inr ⟨j, by omega, by omega, ends, result⟩

end Doubling

end CDPHyperGraphSimplifier
end DPHyper
