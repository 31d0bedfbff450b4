import Mathlib.Data.Finset.Basic

/-!
Loops that stop at the first call that asks for it, and the subsets of a set
of numbers in the order of their bit masks.
-/
namespace AbortLoop

variable {α β κ σ τ : Type}

/-- Run `f` on the elements in order; the flag says that a call stopped the loop. -/
def untilAbort (f : α → σ → σ × Bool) : List α → σ → σ × Bool
  | [], s => (s, false)
  | a :: rest, s => if (f a s).2 then ((f a s).1, true) else untilAbort f rest (f a s).1

variable {f : α → σ → σ × Bool} {a : α} {s : σ} {l : List α} {I : σ → Prop} {r : σ → σ → Prop}

theorem untilAbort_cons {rest : List α} (continues : (f a s).2 = false) :
    untilAbort f (a :: rest) s = untilAbort f rest (f a s).1 := by
  rw [untilAbort, if_neg (by simp [continues])]

theorem untilAbort_invariant (step : ∀ a ∈ l, ∀ s, I s → I (f a s).1 ∧ (f a s).2 = false)
    (start : I s) : I (untilAbort f l s).1 ∧ (untilAbort f l s).2 = false := by
  induction l generalizing s with
  | nil => exact ⟨start, rfl⟩
  | cons a rest ih =>
    obtain ⟨next, continues⟩ := step a List.mem_cons_self s start
    rw [untilAbort_cons continues]
    exact ih (fun b member => step b (List.mem_cons_of_mem a member)) next

theorem untilAbort_establishes {Q : σ → Prop}
    (step : ∀ a ∈ l, ∀ s, I s → I (f a s).1 ∧ (f a s).2 = false)
    (keeps : ∀ a ∈ l, ∀ s, I s → Q s → Q (f a s).1) (member : a ∈ l)
    (establishes : ∀ s, I s → Q (f a s).1) (start : I s) : Q (untilAbort f l s).1 := by
  induction l generalizing s with
  | nil => simp at member
  | cons b rest ih =>
    obtain ⟨next, continues⟩ := step b List.mem_cons_self s start
    rw [untilAbort_cons continues]
    have later := fun c (inRest : c ∈ rest) => step c (List.mem_cons_of_mem b inRest)
    rcases List.mem_cons.mp member with rfl | inRest
    · refine (untilAbort_invariant (I := fun s => I s ∧ Q s) ?_ ⟨next, establishes s start⟩).1.2
      intro c inRest s both
      obtain ⟨nextC, continuesC⟩ := later c inRest s both.1
      exact ⟨⟨nextC, keeps c (List.mem_cons_of_mem _ inRest) s both.1 both.2⟩, continuesC⟩
    · exact ih later (fun c inRest => keeps c (List.mem_cons_of_mem b inRest)) inRest next

theorem untilAbort_map {f : α → σ → σ × Bool} {g : α → τ → τ × Bool} {p : σ → τ} {l : List α}
    (step : ∀ a ∈ l, ∀ s, g a (p s) = (p (f a s).1, (f a s).2)) (s : σ) :
    untilAbort g l (p s) = (p (untilAbort f l s).1, (untilAbort f l s).2) := by
  induction l generalizing s with
  | nil => rfl
  | cons a rest ih =>
    rw [untilAbort, untilAbort, step a List.mem_cons_self s]
    cases stops : (f a s).2 with
    | true => simp
    | false => simpa using ih (fun b member => step b (List.mem_cons_of_mem a member)) (f a s).1

theorem untilAbort_relates (refl : ∀ s, r s s) (trans : ∀ {s t u}, r s t → r t u → r s u)
    (step : ∀ a ∈ l, ∀ s, r s (f a s).1) (s : σ) : r s (untilAbort f l s).1 := by
  induction l generalizing s with
  | nil => exact refl s
  | cons a rest ih =>
    have first := step a List.mem_cons_self s
    rw [untilAbort]
    split
    · exact first
    · exact trans first (ih (fun b member => step b (List.mem_cons_of_mem a member)) _)

theorem untilAbort_reaches (refl : ∀ s, r s s) (trans : ∀ {s t u}, r s t → r t u → r s u)
    (step : ∀ a ∈ l, ∀ s, r s (f a s).1) (continues : (untilAbort f l s).2 = false) (member : a ∈ l) :
    ∃ t, r s t ∧ (f a t).2 = false ∧ r (f a t).1 (untilAbort f l s).1 := by
  induction l generalizing s with
  | nil => simp at member
  | cons b rest ih =>
    have later := fun c (inRest : c ∈ rest) => step c (List.mem_cons_of_mem b inRest)
    cases stops : (f b s).2 with
    | true =>
      rw [untilAbort, if_pos stops] at continues
      exact absurd continues.symm Bool.false_ne_true
    | false =>
      rw [untilAbort_cons stops] at continues ⊢
      rcases List.mem_cons.mp member with rfl | inRest
      · exact ⟨s, refl s, stops, untilAbort_relates refl trans later _⟩
      · obtain ⟨t, before, goesOn, after⟩ := ih later continues inRest
        exact ⟨t, trans (step b List.mem_cons_self s) before, goesOn, after⟩

theorem untilAbort_append {m : List α} :
    untilAbort f (l ++ m) s = if (untilAbort f l s).2 then untilAbort f l s
      else untilAbort f m (untilAbort f l s).1 := by
  induction l generalizing s with
  | nil => rfl
  | cons a rest ih =>
    cases stops : (f a s).2 with
    | true => simp [untilAbort, stops]
    | false =>
      rw [List.cons_append, untilAbort_cons stops, untilAbort_cons stops]
      exact ih

theorem untilAbort_flatMap {g : β → σ → σ × Bool} {parts : α → List β}
    (step : ∀ a ∈ l, ∀ s, f a s = untilAbort g (parts a) s) (s : σ) :
    untilAbort f l s = untilAbort g (l.flatMap parts) s := by
  induction l generalizing s with
  | nil => rfl
  | cons a rest ih =>
    rw [List.flatMap_cons, untilAbort_append, ← step a List.mem_cons_self s, untilAbort,
      ih (fun b member => step b (List.mem_cons_of_mem a member))]
    split
    · rename_i stops
      exact Prod.ext rfl stops.symm
    · rfl

def gather (parts : α → κ → List β) (next : α → κ → κ) : List α → κ → List β
  | [], _ => []
  | a :: rest, cache => parts a cache ++ gather parts next rest (next a cache)

section Gather
variable {parts : α → κ → List β} {next : α → κ → κ} {l : List α}

theorem untilAbort_gather {f : α → σ × κ → (σ × κ) × Bool} {g : β → σ → σ × Bool}
    (runs : ∀ a s c, ((f a (s, c)).1.1, (f a (s, c)).2) = untilAbort g (parts a c) s)
    (caches : ∀ a s c, (f a (s, c)).2 = false → (f a (s, c)).1.2 = next a c) (s : σ) (c : κ) :
    ((untilAbort f l (s, c)).1.1, (untilAbort f l (s, c)).2)
      = untilAbort g (gather parts next l c) s := by
  induction l generalizing s c with
  | nil => rfl
  | cons a rest ih =>
    rw [gather, untilAbort_append, ← runs a s c]
    cases stops : (f a (s, c)).2 with
    | true => simp [untilAbort, stops]
    | false =>
      rw [untilAbort_cons stops]
      have same : (f a (s, c)).1 = ((f a (s, c)).1.1, next a c) :=
        Prod.ext rfl (caches a s c stops)
      rw [same]
      simpa using ih (f a (s, c)).1.1 (next a c)

variable {J : List α → κ → Prop} {c : κ}

theorem mem_gather (keeps : ∀ a ∈ l, ∀ rest c, J (a :: rest) c → J rest (next a c)) (start : J l c)
    {b : β} (member : b ∈ gather parts next l c) :
    ∃ a ∈ l, ∃ rest c, J (a :: rest) c ∧ b ∈ parts a c := by
  induction l generalizing c with
  | nil => simp [gather] at member
  | cons a rest ih =>
    rcases List.mem_append.mp member with here | later
    · exact ⟨a, List.mem_cons_self, rest, c, start, here⟩
    · obtain ⟨a', inRest, found⟩ := ih
        (fun b inRest => keeps b (List.mem_cons_of_mem a inRest))
        (keeps a List.mem_cons_self rest c start) later
      exact ⟨a', List.mem_cons_of_mem a inRest, found⟩

theorem exists_mem_gather (keeps : ∀ a ∈ l, ∀ rest c, J (a :: rest) c → J rest (next a c))
    (start : J l c) {a : α} (member : a ∈ l) {P : β → Prop}
    (found : ∀ rest c, J (a :: rest) c → ∃ b ∈ parts a c, P b) :
    ∃ b ∈ gather parts next l c, P b := by
  induction l generalizing c with
  | nil => simp at member
  | cons first rest ih =>
    rcases List.mem_cons.mp member with rfl | inRest
    · obtain ⟨b, inParts, holds⟩ := found rest c start
      exact ⟨b, List.mem_append_left _ inParts, holds⟩
    · obtain ⟨b, inGather, holds⟩ := ih
        (fun b inRest => keeps b (List.mem_cons_of_mem first inRest))
        (keeps first List.mem_cons_self rest c start) inRest
      exact ⟨b, List.mem_append_right _ inGather, holds⟩

theorem gather_nodup {γ : Type} (key : β → γ) (Class : α → γ → Prop)
    (keeps : ∀ a ∈ l, ∀ rest c, J (a :: rest) c → J rest (next a c))
    (distinct : ∀ a ∈ l, ∀ rest c, J (a :: rest) c → ((parts a c).map key).Nodup)
    (classes : ∀ a ∈ l, ∀ rest c, J (a :: rest) c → ∀ b ∈ parts a c, Class a (key b))
    (apart : l.Pairwise (fun a a' => ∀ k, Class a k → ¬ Class a' k)) (start : J l c) :
    ((gather parts next l c).map key).Nodup := by
  induction l generalizing c with
  | nil => simp [gather]
  | cons a rest ih =>
    obtain ⟨first, apart⟩ := List.pairwise_cons.mp apart
    have keepsRest := fun b (inRest : b ∈ rest) => keeps b (List.mem_cons_of_mem a inRest)
    have startRest := keeps a List.mem_cons_self rest c start
    rw [gather, List.map_append, List.nodup_append]
    refine ⟨distinct a List.mem_cons_self rest c start, ih keepsRest
      (fun b inRest => distinct b (List.mem_cons_of_mem a inRest))
      (fun b inRest => classes b (List.mem_cons_of_mem a inRest)) apart startRest, ?_⟩
    intro k here k' later same
    obtain ⟨b, inParts, rfl⟩ := List.mem_map.mp here
    obtain ⟨b', inRest, rfl⟩ := List.mem_map.mp later
    obtain ⟨a', listed, rest', c', holds, inParts'⟩ := mem_gather keepsRest startRest inRest
    refine first a' listed (key b) (classes a List.mem_cons_self rest c start b inParts) ?_
    rw [same]
    exact classes a' (List.mem_cons_of_mem a listed) rest' c' holds b' inParts'

end Gather

/-- The subsets of the listed elements: first those without the head, then those with it. -/
def maskSubsets : List ℕ → List (Finset ℕ)
  | [] => [∅]
  | bit :: rest => maskSubsets rest ++ (maskSubsets rest).map (insert bit)

theorem mem_maskSubsets {l : List ℕ} {s : Finset ℕ} : s ∈ maskSubsets l ↔ ∀ x ∈ s, x ∈ l := by
  induction l generalizing s with
  | nil => simp [maskSubsets, Finset.eq_empty_iff_forall_notMem]
  | cons bit rest ih =>
    simp only [maskSubsets, List.mem_append, List.mem_map, ih, List.mem_cons]
    constructor
    · rintro (without | ⟨t, inside, rfl⟩) x member
      · exact .inr (without x member)
      · rcases Finset.mem_insert.mp member with rfl | old
        · exact .inl rfl
        · exact .inr (inside x old)
    · intro inside
      by_cases has : bit ∈ s
      · refine .inr ⟨s.erase bit, ?_, Finset.insert_erase has⟩
        intro x member
        obtain ⟨other, old⟩ := Finset.mem_erase.mp member
        exact (inside x old).resolve_left other
      · refine .inl (fun x member => (inside x member).resolve_left ?_)
        rintro rfl
        exact has member

theorem maskSubsets_pairwise {l : List ℕ} (nodup : l.Nodup) :
    (maskSubsets l).Pairwise (fun s t => ¬ t ⊆ s) := by
  induction l with
  | nil => simp [maskSubsets]
  | cons bit rest ih =>
    obtain ⟨fresh, nodup⟩ := List.nodup_cons.mp nodup
    have without : ∀ s ∈ maskSubsets rest, bit ∉ s := fun s member has =>
      fresh (mem_maskSubsets.mp member bit has)
    rw [maskSubsets, List.pairwise_append]
    refine ⟨ih nodup, ?_, ?_⟩
    · rw [List.pairwise_map]
      refine (ih nodup).imp_of_mem ?_
      intro s t inS inT apart inside
      apply apart
      rwa [Finset.insert_subset_insert_iff (without t inT)] at inside
    · intro s inS t inT inside
      obtain ⟨u, -, rfl⟩ := List.mem_map.mp inT
      exact without s inS (inside (Finset.mem_insert_self bit u))

end AbortLoop
