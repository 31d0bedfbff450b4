import Tuuli.BagJoins

/-!
Bags no two members of which are related, such as the rows of a relation under a
key. Related members of a join come from related members of the left side, if each
left row has at most one partner.
-/
namespace BagKeys
open BagJoins

variable {α β : Type}

def Apart (same : α → α → Prop) (R : Multiset α) : Prop :=
  R.Pairwise fun a b => ¬ same a b

variable {same same' : α → α → Prop} {R S : Multiset α}

theorem Apart.of_le (h : Apart same S) (le : R ≤ S) : Apart same R := by
  obtain ⟨l, rfl, pairwise⟩ := h
  induction R using Quotient.inductionOn with
  | h l' =>
    obtain ⟨kept, perm, sublist⟩ := Multiset.coe_le.mp le
    exact ⟨kept, Multiset.coe_eq_coe.mpr perm.symm, pairwise.sublist sublist⟩

theorem Apart.imp (h : Apart same R) (weaker : ∀ a ∈ R, ∀ b ∈ R, same' a b → same a b) :
    Apart same' R := by
  obtain ⟨l, rfl, pairwise⟩ := h
  refine ⟨l, rfl, pairwise.imp_of_mem ?_⟩
  intro a b first second apart related
  exact apart (weaker a first b second related)

theorem apart_of_card_le_one (few : R.card ≤ 1) : Apart same R := by
  induction R using Quotient.inductionOn with
  | h l =>
    refine ⟨l, rfl, ?_⟩
    match l, few with
    | [], _ => exact List.Pairwise.nil
    | [a], _ => exact List.pairwise_singleton _ a

theorem Apart.card_le_one (h : Apart same R) (related : ∀ a ∈ R, ∀ b ∈ R, same a b) :
    R.card ≤ 1 := by
  obtain ⟨l, rfl, pairwise⟩ := h
  match l with
  | [] => exact Nat.zero_le 1
  | [_] => exact le_refl 1
  | a :: b :: rest =>
    have first := (List.pairwise_cons.mp pairwise).1 b List.mem_cons_self
    exact absurd (related a (by simp) b (by simp)) first

theorem apart_bind {f : α → Multiset β} {same' : β → β → Prop} (outer : Apart same R)
    (inner : ∀ a ∈ R, Apart same' (f a))
    (across : ∀ a ∈ R, ∀ b ∈ R, ∀ x ∈ f a, ∀ y ∈ f b, same' x y → same a b) :
    Apart same' (R.bind f) := by
  obtain ⟨l, rfl, pairwise⟩ := outer
  choose! members listed apart using inner
  have flat : (l : Multiset α).bind f = (l.flatMap members : List β) := by
    rw [← Multiset.coe_bind]
    exact Multiset.bind_congr fun a mem => listed a mem
  refine ⟨l.flatMap members, flat, List.pairwise_flatMap.mpr ⟨apart, ?_⟩⟩
  apply pairwise.imp_of_mem
  intro a b first second distinct x inFirst y inSecond related
  apply distinct
  apply across a first b second x _ y _ related
  · rw [listed a first]
    exact inFirst
  · rw [listed b second]
    exact inSecond

/-- Rows of an inner or left outer join that agree come from left rows that agree, and each
    left row is extended once. -/
theorem apart_leftJoin {C V : Type} {k : LeftJoin} (emits : k = .inner ∨ k = .outer)
    {p : Row C V → Option Bool} {R S : Multiset (Row C V)} {left whole : Row C V → Row C V → Prop}
    (outer : Apart left R) (single : ∀ r ∈ R, (partners p S r).card ≤ 1)
    (across : ∀ r ∈ R, ∀ r' ∈ R, ∀ s ∈ appended k p S r, ∀ s' ∈ appended k p S r', whole (concat r
      s) (concat r' s') → left r r') : Apart whole (leftJoin k p R S) := by
  apply apart_bind outer
  · intro r mem
    apply apart_of_card_le_one
    rw [Multiset.card_map]
    rcases emits with rfl | rfl
    · exact single r mem
    · rw [appended]
      split
      · exact le_refl 1
      · exact single r mem
  · intro r mem r' mem' x inFirst y inSecond related
    obtain ⟨s, found, rfl⟩ := Multiset.mem_map.mp inFirst
    obtain ⟨s', found', rfl⟩ := Multiset.mem_map.mp inSecond
    exact across r mem r' mem' s found s' found' related

end BagKeys
