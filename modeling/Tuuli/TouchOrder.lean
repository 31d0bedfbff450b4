import Mathlib.Data.List.Basic

/-!
Lists in the order of the last touch: touching an entry moves it to the end.
-/
namespace TouchOrder

variable {α β : Type} [DecidableEq α] {x : α} {l : List α} {p : α → Bool}

def toEnd (x : α) (l : List α) : List α := l.filter (· ≠ x) ++ [x]

theorem filter_toEnd_of_not (out : p x = false) : (toEnd x l).filter p = l.filter p := by
  have kept : ∀ y, (p y && decide (y ≠ x)) = p y := by
    intro y
    by_cases same : y = x
    · simp [same, out]
    · simp [same]
  rw [toEnd, List.filter_append, List.filter_filter, List.filter_congr (fun y _ => kept y)]
  simp [out]

theorem filter_toEnd_of (inside : p x = true) :
    (toEnd x l).filter p = (l.filter p).filter (· ≠ x) ++ [x] := by
  simp [toEnd, List.filter_append, List.filter_filter, inside, Bool.and_comm]

theorem filterMap_filter_ne {f : α → Option β} (none : f x = none) :
    (l.filter (· ≠ x)).filterMap f = l.filterMap f := by
  induction l with
  | nil => rfl
  | cons y rest ih =>
    by_cases same : y = x
    · subst same
      simpa [none] using ih
    · simp only [ne_eq, same, not_false_eq_true, decide_true, List.filter_cons_of_pos,
        List.filterMap_cons]
      rw [← ih]

omit [DecidableEq α] in
theorem filter_filterMap {f : α → Option β} {q : β → Bool}
    (same : ∀ y z, f y = some z → q z = p y) :
    (l.filterMap f).filter q = (l.filter p).filterMap f := by
  induction l with
  | nil => rfl
  | cons y rest ih =>
    cases found : f y with
    | none =>
      rw [List.filterMap_cons_none found, ih, List.filter_cons]
      split
      · rw [List.filterMap_cons_none found]
      · rfl
    | some z =>
      rw [List.filterMap_cons_some found, List.filter_cons, List.filter_cons, same y z found, ih]
      split
      · rw [List.filterMap_cons_some found]
      · rfl

end TouchOrder
