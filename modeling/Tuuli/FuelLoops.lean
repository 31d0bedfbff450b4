import Mathlib.Order.Basic

/-!
Loops that run for a bounded number of rounds. A loop whose rounds are used up
ends in an error that carries the state it was in, so that a property of every
state met on the way can be stated for cut runs as well. A computation settles
if all large enough bounds give the same result.
-/
namespace FuelLoops

variable {σ τ α β : Type}

def rounds (stateOf : σ → τ) (body : σ → Except τ (σ ⊕ α)) : ℕ → σ → Except τ α
  | 0, state => .error (stateOf state)
  | n + 1, state =>
    match body state with
    | .error cut => .error cut
    | .ok (.inl next) => rounds stateOf body n next
    | .ok (.inr result) => .ok result

def Yields (Cut : τ → Prop) (Post : α → Prop) : Except τ α → Prop
  | .error cut => Cut cut
  | .ok result => Post result

variable {Cut : τ → Prop} {stateOf : σ → τ} {Post : α → Prop} {state : σ}

theorem Yields.bind (Mid : α → Prop) {Post : β → Prop} {first : Except τ α}
    {second : α → Except τ β} (hFirst : Yields Cut Mid first)
    (hSecond : ∀ a, Mid a → Yields Cut Post (second a)) : Yields Cut Post (first >>= second) := by
  cases first with
  | error cut => exact hFirst
  | ok a => exact hSecond a hFirst

theorem rounds_yields (Inv : σ → Prop) {body : σ → Except τ (σ ⊕ α)}
    (cut : ∀ state, Inv state → Cut (stateOf state))
    (step : ∀ state, Inv state → Yields Cut (Sum.elim Inv Post) (body state)) (n : ℕ)
    (inv : Inv state) : Yields Cut Post (rounds stateOf body n state) := by
  induction n generalizing state with
  | zero => exact cut state inv
  | succ n ih =>
    have next := step state inv
    rw [rounds]
    cases ran : body state with
    | error t =>
      rw [ran] at next
      exact next
    | ok out =>
      rw [ran] at next
      cases out with
      | inl state' => exact ih next
      | inr result => exact next

/-- All large enough bounds give the result `a`. -/
def Settles (run : ℕ → Except τ α) (a : α) : Prop :=
  ∃ enough, ∀ fuel, enough ≤ fuel → run fuel = .ok a

theorem settles_ok (a : α) : Settles (fun _ => (Except.ok a : Except τ α)) a :=
  ⟨0, fun _ _ => rfl⟩

theorem Settles.bind {first : ℕ → Except τ α} {second : ℕ → α → Except τ β} {a : α} {b : β}
    (hFirst : Settles first a) (hSecond : Settles (fun fuel => second fuel a) b) :
    Settles (fun fuel => first fuel >>= second fuel) b := by
  obtain ⟨n, hn⟩ := hFirst
  obtain ⟨m, hm⟩ := hSecond
  refine ⟨max n m, fun fuel enough => ?_⟩
  have first_ok := hn fuel (by omega)
  have second_ok := hm fuel (by omega)
  show first fuel >>= second fuel = .ok b
  rw [first_ok]
  exact second_ok

theorem exists_settles_rounds (Inv : σ → Prop) {body : ℕ → σ → Except τ (σ ⊕ α)} {r : β → β → Prop}
    (wf : WellFounded r) (measure : σ → β)
    (step : ∀ state, Inv state → ∃ out, Settles (fun fuel => body fuel state) out ∧ Sum.elim (fun
      next => Inv next ∧ r (measure next) (measure state)) Post out) (inv : Inv state) :
    ∃ a, Settles (fun fuel => rounds stateOf (body fuel) fuel state) a ∧ Post a := by
  -- the bound of the loop and the one of its body are counted apart
  have apart : ∀ b, ∀ state, measure state = b → Inv state → ∃ a enough, Post a ∧
      ∀ fuel n, enough ≤ fuel → enough ≤ n → rounds stateOf (body fuel) n state = .ok a := by
    intro b
    induction b using wf.induction with
    | _ b ih =>
      intro state same inv
      obtain ⟨out, ⟨enough, ran⟩, next⟩ := step state inv
      cases out with
      | inl state' =>
        obtain ⟨a, more, post, rest⟩ :=
          ih (measure state') (same ▸ next.2) state' rfl next.1
        refine ⟨a, max enough more + 1, post, fun fuel n hFuel hn => ?_⟩
        obtain ⟨n, rfl⟩ : ∃ m, n = m + 1 := ⟨n - 1, by omega⟩
        have body_ok : body fuel state = .ok (.inl state') := ran fuel (by omega)
        rw [rounds, body_ok]
        exact rest fuel n (by omega) (by omega)
      | inr a =>
        refine ⟨a, enough + 1, next, fun fuel n hFuel hn => ?_⟩
        obtain ⟨n, rfl⟩ : ∃ m, n = m + 1 := ⟨n - 1, by omega⟩
        have body_ok : body fuel state = .ok (.inr a) := ran fuel (by omega)
        rw [rounds, body_ok]
  obtain ⟨a, enough, post, ran⟩ := apart (measure state) state rfl inv
  exact ⟨a, ⟨enough, fun fuel large => ran fuel fuel large large⟩, post⟩

end FuelLoops
