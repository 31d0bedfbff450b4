import Mathlib.Data.Fintype.Option

/-!
Three-valued connectives over lists of truth values, `none` for UNKNOWN.
A conjunction is FALSE as soon as one operand is, TRUE only if all are, and
UNKNOWN otherwise; a disjunction is its dual.
-/
namespace TruthValues

def conj (truths : List (Option Bool)) : Option Bool :=
  if some false ∈ truths then some false
  else if ∀ truth ∈ truths, truth = some true then some true
  else none

def disj (truths : List (Option Bool)) : Option Bool :=
  if some true ∈ truths then some true
  else if ∀ truth ∈ truths, truth = some false then some false
  else none

def neg (truth : Option Bool) : Option Bool :=
  truth.map not

variable {truths : List (Option Bool)} {truth : Option Bool}

theorem conj_of_mem_false (h : some false ∈ truths) : conj truths = some false :=
  if_pos h

theorem conj_of_all_true (h : ∀ truth ∈ truths, truth = some true) : conj truths = some true := by
  have no_false : some false ∉ truths := fun mem => by simpa using h _ mem
  rw [conj, if_neg no_false, if_pos h]

theorem conj_ne_true (mem : truth ∈ truths) (h : truth ≠ some true) : conj truths ≠ some true := by
  unfold conj
  split
  · simp
  · split
    next all => exact absurd (all truth mem) h
    next => simp

theorem conj_eq_true_iff :
    conj truths = some true ↔ ∀ truth ∈ truths, truth = some true := by
  constructor
  · intro h truth mem
    by_contra other
    exact conj_ne_true mem other h
  · exact conj_of_all_true

theorem conj_of_unknown (mem : none ∈ truths)
    (h : ∀ truth ∈ truths, truth = none ∨ truth = some true) : conj truths = none := by
  have no_false : some false ∉ truths := fun mem => by simpa using h _ mem
  have not_all : ¬ ∀ truth ∈ truths, truth = some true := fun all => by
    simpa using all none mem
  rw [conj, if_neg no_false, if_neg not_all]

theorem disj_of_mem_true (h : some true ∈ truths) : disj truths = some true :=
  if_pos h

theorem disj_of_all_false (h : ∀ truth ∈ truths, truth = some false) :
    disj truths = some false := by
  have no_true : some true ∉ truths := fun mem => by simpa using h _ mem
  rw [disj, if_neg no_true, if_pos h]

theorem disj_ne_true (h : ∀ truth ∈ truths, truth ≠ some true) : disj truths ≠ some true := by
  have no_true : some true ∉ truths := fun mem => h _ mem rfl
  rw [disj, if_neg no_true]
  split <;> simp

theorem disj_of_unknown (mem : none ∈ truths)
    (h : ∀ truth ∈ truths, truth = none ∨ truth = some false) : disj truths = none := by
  have no_true : some true ∉ truths := fun mem => by simpa using h _ mem
  have not_all : ¬ ∀ truth ∈ truths, truth = some false := fun all => by
    simpa using all none mem
  rw [disj, if_neg no_true, if_neg not_all]

end TruthValues
