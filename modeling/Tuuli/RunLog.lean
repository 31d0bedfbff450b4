import Tuuli.AbortLoop

/-!
Logs of runs: what a run appends to the log of its state has distinct keys when
its parts append to classes of entries with disjoint keys.
-/
namespace RunLog
open AbortLoop

variable {α γ ρ σ : Type} {log : σ → List ρ} {key : ρ → γ} {K K' : ρ → Prop} {s t u : σ}

def Appends (log : σ → List ρ) (key : ρ → γ) (K : ρ → Prop) (s t : σ) : Prop :=
  ∃ new, log t = log s ++ new ∧ (new.map key).Nodup ∧ ∀ entry ∈ new, K entry

def Apart (key : ρ → γ) (K K' : ρ → Prop) : Prop :=
  ∀ ⦃entry other⦄, K entry → K' other → key entry ≠ key other

theorem Appends.of_eq (same : log t = log s) : Appends log key K s t :=
  ⟨[], by simp [same], List.nodup_nil, by simp⟩

theorem Appends.one {entry : ρ} (appended : log t = log s ++ [entry]) (holds : K entry) :
    Appends log key K s t :=
  ⟨[entry], appended, List.nodup_singleton _, by simpa using holds⟩

theorem Appends.mono (appends : Appends log key K s t) (wider : ∀ entry, K entry → K' entry) :
    Appends log key K' s t := by
  obtain ⟨new, appended, distinct, holds⟩ := appends
  exact ⟨new, appended, distinct, fun entry member => wider entry (holds entry member)⟩

theorem Appends.seq (apart : Apart key K K') (first : Appends log key K s t)
    (second : Appends log key K' t u) : Appends log key (fun entry => K entry ∨ K' entry) s u := by
  obtain ⟨new, appended, distinct, holds⟩ := first
  obtain ⟨more, appendedMore, distinctMore, holdsMore⟩ := second
  refine ⟨new ++ more, by rw [appendedMore, appended, List.append_assoc], ?_, ?_⟩
  · rw [List.map_append, List.nodup_append]
    refine ⟨distinct, distinctMore, ?_⟩
    intro k here k' there same
    obtain ⟨entry, inNew, rfl⟩ := List.mem_map.mp here
    obtain ⟨other, inMore, rfl⟩ := List.mem_map.mp there
    exact apart (holds entry inNew) (holdsMore other inMore) same
  · intro entry member
    exact (List.mem_append.mp member).imp (holds entry) (holdsMore entry)

/-- A run that continues leaves a state in `Ok`, one that stops leaves it in `Stop`. -/
structure Outcome (Ok Stop : σ → Prop) (result : σ × Bool) : Prop where
  continues : result.2 = false → Ok result.1
  stops : result.2 = true → Stop result.1

theorem untilAbort_appends {f : α → σ → σ × Bool} {l : List α} (log : σ → List ρ) (key : ρ → γ)
    (K : α → ρ → Prop) (Ok : List α → σ → Prop) (Stop : σ → Prop)
    (step : ∀ a ∈ l, ∀ rest s, Ok (a :: rest) s → Appends log key (K a) s (f a s).1 ∧ Outcome (Ok
      rest) Stop (f a s)) (apart : l.Pairwise (fun a a' => Apart key (K a) (K a'))) {s : σ}
    (ok : Ok l s) :
    Appends log key (fun entry => ∃ a ∈ l, K a entry) s (untilAbort f l s).1 ∧
      Outcome (Ok []) Stop (untilAbort f l s) := by
  induction l generalizing s with
  | nil => exact ⟨.of_eq rfl, fun _ => ok, fun stopped => absurd stopped Bool.false_ne_true⟩
  | cons a rest ih =>
    obtain ⟨first, apart⟩ := List.pairwise_cons.mp apart
    obtain ⟨appends, outcome⟩ := step a List.mem_cons_self rest s ok
    cases stopped : (f a s).2 with
    | true =>
      rw [untilAbort, if_pos stopped]
      refine ⟨appends.mono (fun entry holds => ⟨a, List.mem_cons_self, holds⟩), ?_, ?_⟩
      · exact fun continues => absurd continues.symm Bool.false_ne_true
      · exact fun _ => outcome.stops stopped
    | false =>
      rw [untilAbort_cons stopped]
      obtain ⟨later, final⟩ := ih (fun b member => step b (List.mem_cons_of_mem a member)) apart
        (outcome.continues stopped)
      refine ⟨(appends.seq ?_ later).mono ?_, final⟩
      · rintro entry other holds ⟨b, member, holds'⟩
        exact first b member holds holds'
      · rintro entry (holds | ⟨b, member, holds⟩)
        · exact ⟨a, List.mem_cons_self, holds⟩
        · exact ⟨b, List.mem_cons_of_mem a member, holds⟩

end RunLog
