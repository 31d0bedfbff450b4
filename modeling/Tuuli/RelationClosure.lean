import Mathlib.Logic.Relation

/-!
The closure of a relation to which pairs are added one by one.
-/
namespace RelationClosure
open Relation

variable {α : Type} {R : α → α → Prop} {before after x y : α}

/-- The relation with one more pair. -/
def Added (R : α → α → Prop) (before after x y : α) : Prop :=
  R x y ∨ (x = before ∧ y = after)

def Acyclic (R : α → α → Prop) : Prop := ∀ x, ¬ TransGen R x x

theorem Acyclic.antisymm (acyclic : Acyclic R) (first : ReflTransGen R x y)
    (second : ReflTransGen R y x) : x = y := by
  rcases reflTransGen_iff_eq_or_transGen.mp first with same | longer
  · exact same.symm
  · exact absurd (longer.trans_left second) (acyclic x)

theorem reflTransGen_added :
    ReflTransGen (Added R before after) x y ↔
      ReflTransGen R x y ∨ (ReflTransGen R x before ∧ ReflTransGen R after y) := by
  constructor
  · intro path
    induction path with
    | refl => exact .inl .refl
    | tail _ last ih =>
      rcases last with old | ⟨rfl, rfl⟩
      · rcases ih with within | ⟨toward, onward⟩
        · exact .inl (within.tail old)
        · exact .inr ⟨toward, onward.tail old⟩
      · rcases ih with within | ⟨toward, _⟩
        · exact .inr ⟨within, .refl⟩
        · exact .inr ⟨toward, .refl⟩
  · have old : ∀ {x y}, ReflTransGen R x y → ReflTransGen (Added R before after) x y :=
      fun path => ReflTransGen.mono (fun _ _ step => .inl step) _ _ path
    rintro (within | ⟨toward, onward⟩)
    · exact old within
    · exact ((old toward).tail (.inr ⟨rfl, rfl⟩)).trans (old onward)

theorem Acyclic.added_iff (acyclic : Acyclic R) :
    Acyclic (Added R before after) ↔ ¬ ReflTransGen R after before := by
  constructor
  · intro still back
    have path : ReflTransGen (Added R before after) after before :=
      reflTransGen_added.mpr (.inl back)
    exact still before (TransGen.head' (.inr ⟨rfl, rfl⟩) path)
  · intro noWay z cycle
    obtain ⟨next, step, rest⟩ := TransGen.head'_iff.mp cycle
    rcases reflTransGen_added.mp rest with within | ⟨toward, onward⟩
    · rcases step with old | ⟨rfl, rfl⟩
      · exact acyclic z (TransGen.head' old within)
      · exact noWay within
    · rcases step with old | ⟨rfl, rfl⟩
      · exact noWay (onward.trans (ReflTransGen.head old toward))
      · exact noWay toward

end RelationClosure
