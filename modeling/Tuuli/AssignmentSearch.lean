import Mathlib.Data.List.Basic

/-!
Depth-first assignment of places to numbered candidates. A place prefers candidates that no
earlier place has, and falls back on reuse. `fits` prunes a partial assignment and `goal` judges
a complete one. The search finds the first goal in the order in which it tries assignments.
-/
namespace AssignmentSearch
variable (count : ℕ) (fits : List ℕ → ℕ → Bool) (goal : List ℕ → Bool)

def order (assigned : List ℕ) : List ℕ :=
  (List.range count).filter (· ∉ assigned) ++ (List.range count).filter (· ∈ assigned)

def search : ℕ → List ℕ → Option (List ℕ)
  | 0, assigned => if goal assigned then some assigned else none
  | places + 1, assigned => (order count assigned).findSome? fun i =>
      if fits assigned i then search places (assigned ++ [i]) else none

def Extends : ℕ → List ℕ → List ℕ → Prop
  | 0, assigned, full => full = assigned
  | places + 1, assigned, full =>
      ∃ i, i < count ∧ fits assigned i = true ∧ Extends places (assigned ++ [i]) full

variable {count fits goal} {assigned full : List ℕ} {places : ℕ}

/-- For a place after `assigned`, candidate `i` is tried before `j`. -/
def TriedBefore (assigned : List ℕ) (i j : ℕ) : Prop :=
  (i ∉ assigned ∧ j ∈ assigned) ∨ ((i ∈ assigned ↔ j ∈ assigned) ∧ i < j)

/-- The first place where the assignments differ has an earlier candidate in the first one. -/
def Precedes (assigned : List ℕ) : List ℕ → List ℕ → Prop
  | i :: first, j :: second =>
    TriedBefore assigned i j ∨ (i = j ∧ Precedes (assigned ++ [i]) first second)
  | _, _ => False

theorem mem_order {i : ℕ} : i ∈ order count assigned ↔ i < count := by
  simp only [order, List.mem_append, List.mem_filter, List.mem_range, decide_eq_true_eq]
  by_cases mem : i ∈ assigned <;> simp [mem]

theorem search_eq_some (found : search count fits goal places assigned = some full) :
    Extends count fits places assigned full ∧ goal full = true := by
  induction places generalizing assigned with
  | zero =>
    unfold search at found
    split at found
    next accepted =>
      cases found
      exact ⟨rfl, accepted⟩
    next => cases found
  | succ places ih =>
    obtain ⟨i, mem, next⟩ := List.exists_of_findSome?_eq_some found
    split at next
    next fit =>
      obtain ⟨extension, accepted⟩ := ih next
      exact ⟨⟨i, mem_order.mp mem, fit, extension⟩, accepted⟩
    next => cases next

theorem search_isSome (extension : Extends count fits places assigned full)
    (accepted : goal full = true) : (search count fits goal places assigned).isSome := by
  induction places generalizing assigned with
  | zero =>
    cases extension
    unfold search
    rw [if_pos accepted]
    rfl
  | succ places ih =>
    obtain ⟨i, bound, fit, rest⟩ := extension
    unfold search
    rw [List.findSome?_isSome_iff]
    refine ⟨i, mem_order.mpr bound, ?_⟩
    rw [if_pos fit]
    exact ih rest

section Order
variable {i j : ℕ} {first second : List ℕ}

theorem TriedBefore.asymm (before : TriedBefore assigned i j) : ¬ TriedBefore assigned j i := by
  unfold TriedBefore at *
  by_cases memI : i ∈ assigned <;> by_cases memJ : j ∈ assigned <;> simp_all
  all_goals omega

theorem triedBefore_total (differ : i ≠ j) :
    TriedBefore assigned i j ∨ TriedBefore assigned j i := by
  unfold TriedBefore
  by_cases memI : i ∈ assigned <;> by_cases memJ : j ∈ assigned <;> simp [memI, memJ]
  all_goals omega

theorem precedes_total (same : first.length = second.length) :
    first = second ∨ Precedes assigned first second ∨ Precedes assigned second first := by
  induction first generalizing second assigned with
  | nil =>
    cases second with
    | nil => exact .inl rfl
    | cons j second => simp at same
  | cons i first ih =>
    cases second with
    | nil => simp at same
    | cons j second =>
      by_cases equal : i = j
      · subst equal
        rcases @ih (assigned ++ [i]) second (by simpa using same) with rfl | before | after
        · exact .inl rfl
        · exact .inr (.inl (.inr ⟨rfl, before⟩))
        · exact .inr (.inr (.inr ⟨rfl, after⟩))
      · rcases triedBefore_total equal with before | after
        · exact .inr (.inl (.inl before))
        · exact .inr (.inr (.inl after))

theorem order_pairwise : (order count assigned).Pairwise (TriedBefore assigned) := by
  have sorted := List.pairwise_lt_range (n := count)
  refine List.pairwise_append.mpr ⟨?_, ?_, ?_⟩
  · refine (sorted.filter _).imp_of_mem fun memI memJ less => .inr ⟨?_, less⟩
    simp_all
  · refine (sorted.filter _).imp_of_mem fun memI memJ less => .inr ⟨?_, less⟩
    simp_all
  · intro i memI j memJ
    exact .inl ⟨by simp_all, by simp_all⟩

theorem Extends.exists_tail (extension : Extends count fits places assigned full) :
    ∃ tail, full = assigned ++ tail ∧ tail.length = places := by
  induction places generalizing assigned with
  | zero => exact ⟨[], by simpa [Extends] using extension, rfl⟩
  | succ places ih =>
    obtain ⟨i, -, -, rest⟩ := extension
    obtain ⟨tail, rfl, length⟩ := ih rest
    exact ⟨i :: tail, by simp, by simp [length]⟩

theorem search_first {tail other : List ℕ}
    (found : search count fits goal places assigned = some (assigned ++ tail))
    (extension : Extends count fits places assigned (assigned ++ other))
    (accepted : goal (assigned ++ other) = true) : ¬ Precedes assigned other tail := by
  induction places generalizing assigned tail other with
  | zero =>
    obtain rfl : other = [] := by simpa [Extends] using extension
    simp [Precedes]
  | succ places ih =>
    obtain ⟨j, bound, fitJ, rest⟩ := extension
    obtain ⟨other', split, -⟩ := rest.exists_tail
    obtain rfl : other = j :: other' := by simpa using split
    obtain ⟨earlier, i, later, listed, here, skipped⟩ := List.findSome?_eq_some_iff.mp found
    split at here
    next fitI =>
      obtain ⟨tail', split', -⟩ := (search_eq_some here).1.exists_tail
      obtain rfl : tail = i :: tail' := by simpa using split'
      rintro (before | ⟨rfl, precedes⟩)
      · -- `j` is tried before `i`, and its search finds the other goal or one before it
        have inOrder : j ∈ earlier ++ i :: later := listed ▸ mem_order.mpr bound
        have sorted := listed ▸ @order_pairwise count assigned
        obtain ⟨-, fromI, -⟩ := List.pairwise_append.mp sorted
        have inEarlier : j ∈ earlier := by
          rcases List.mem_append.mp inOrder with inEarlier | inLater
          · exact inEarlier
          · rcases List.mem_cons.mp inLater with rfl | inLater
            · exact absurd before before.asymm
            · exact absurd before (((List.pairwise_cons.mp fromI).1 j inLater).asymm)
        have none := skipped j inEarlier
        rw [if_pos fitJ] at none
        have some := search_isSome rest accepted
        rw [none] at some
        cases some
      · rw [split] at rest accepted
        rw [split'] at here
        exact ih here rest accepted precedes
    next => cases here

theorem search_eq_of_first (extension : Extends count fits places [] full)
    (accepted : goal full = true)
    (first : ∀ other, Extends count fits places [] other → goal other = true →
      ¬ Precedes [] other full) : search count fits goal places [] = some full := by
  obtain ⟨found, searched⟩ := Option.isSome_iff_exists.mp (search_isSome extension accepted)
  obtain ⟨extension', accepted'⟩ := search_eq_some searched
  obtain ⟨_, rfl, length⟩ := extension.exists_tail
  obtain ⟨_, rfl, length'⟩ := extension'.exists_tail
  rcases @precedes_total [] _ _ (length'.trans length.symm) with same | before | after
  · rw [searched, same]
  · exact absurd before (first _ extension' accepted')
  · exact absurd after (search_first searched extension accepted)

end Order

end AssignmentSearch
