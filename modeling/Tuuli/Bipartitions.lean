import Mathlib.Algebra.Order.Group.Nat
import Mathlib.Data.Finset.Card

/-!
The divisions of a list of elements over two sets, the second of which gets at least
one. With the first element pinned to the first set, each division into two unordered
parts is listed exactly once.
-/
namespace Bipartitions

variable {α : Type}

/-- The listed elements are distinct and in neither set yet. -/
structure Undivided (rest : List α) (left right : Finset α) : Prop where
  nodup : rest.Nodup
  apart : Disjoint left right
  new : ∀ x ∈ rest, x ∉ left ∧ x ∉ right

variable {rest : List α} {left right : Finset α}

theorem Undivided.other {x : α} (undivided : Undivided (x :: rest) left right) {y : α}
    (listed : y ∈ rest) : y ≠ x ∧ y ∉ left ∧ y ∉ right := by
  refine ⟨?_, undivided.new y (List.mem_cons_of_mem x listed)⟩
  rintro rfl
  exact (List.nodup_cons.mp undivided.nodup).1 listed

theorem undivided_pinned {first : α} (nodup : (first :: rest).Nodup) :
    Undivided rest {first} ∅ where
  nodup := (List.nodup_cons.mp nodup).2
  apart := Finset.disjoint_empty_right _
  new x listed := by
    refine ⟨?_, Finset.notMem_empty x⟩
    rw [Finset.mem_singleton]
    rintro rfl
    exact (List.nodup_cons.mp nodup).1 listed

variable [DecidableEq α]

def divide : List α → Finset α → Finset α → List (Finset α × Finset α)
  | [], left, right => if right.card = 0 then [] else [(left, right)]
  | x :: rest, left, right => divide rest (insert x left) right ++ divide rest left (insert x right)

/-- The two sets divide the whole. -/
structure Divides (whole : Finset α) (left right : Finset α) : Prop where
  union : left ∪ right = whole
  disjoint : Disjoint left right
  left_nonempty : left.Nonempty
  right_nonempty : right.Nonempty

theorem Divides.symm {whole : Finset α} (divides : Divides whole left right) :
    Divides whole right left :=
  ⟨(Finset.union_comm _ _).trans divides.union, divides.disjoint.symm, divides.right_nonempty,
    divides.left_nonempty⟩

section Members
variable {x : α} {rest : List α} {left right A B : Finset α}

theorem Undivided.insert_left (undivided : Undivided (x :: rest) left right) :
    Undivided rest (insert x left) right where
  nodup := (List.nodup_cons.mp undivided.nodup).2
  apart := Finset.disjoint_insert_left.mpr
    ⟨(undivided.new x List.mem_cons_self).2, undivided.apart⟩
  new y listed := by
    obtain ⟨different, outLeft, outRight⟩ := undivided.other listed
    simp [different, outLeft, outRight]

theorem Undivided.insert_right (undivided : Undivided (x :: rest) left right) :
    Undivided rest left (insert x right) where
  nodup := (List.nodup_cons.mp undivided.nodup).2
  apart := Finset.disjoint_insert_right.mpr
    ⟨(undivided.new x List.mem_cons_self).1, undivided.apart⟩
  new y listed := by
    obtain ⟨different, outLeft, outRight⟩ := undivided.other listed
    simp [different, outLeft, outRight]

theorem eq_of_union_eq (inLeft : left ⊆ A) (inRight : right ⊆ B) (union : A ∪ B = left ∪ right)
    (disjoint : Disjoint A B) : A = left := by
  refine Finset.Subset.antisymm (fun y inA => ?_) inLeft
  have member : y ∈ left ∪ right := union ▸ Finset.mem_union_left B inA
  rcases Finset.mem_union.mp member with here | there
  · exact here
  · exact absurd (inRight there) (Finset.disjoint_left.mp disjoint inA)

theorem mem_divide (undivided : Undivided rest left right) :
    (A, B) ∈ divide rest left right ↔ left ⊆ A ∧ right ⊆ B ∧
      A ∪ B = left ∪ right ∪ rest.toFinset ∧ Disjoint A B ∧ B.Nonempty := by
  induction rest generalizing left right with
  | nil =>
    rw [divide, List.toFinset_nil, Finset.union_empty]
    have forced : left ⊆ A → right ⊆ B → A ∪ B = left ∪ right → Disjoint A B →
        A = left ∧ B = right := by
      intro inLeft inRight union disjoint
      constructor
      · exact eq_of_union_eq inLeft inRight union disjoint
      · rw [Finset.union_comm A, Finset.union_comm left] at union
        exact eq_of_union_eq inRight inLeft union disjoint.symm
    by_cases empty : right.card = 0
    · rw [if_pos empty]
      constructor
      · intro listed
        exact absurd listed List.not_mem_nil
      · rintro ⟨inLeft, inRight, union, disjoint, nonempty⟩
        rw [(forced inLeft inRight union disjoint).2, Finset.card_eq_zero.mp empty] at nonempty
        exact absurd nonempty Finset.not_nonempty_empty
    · rw [if_neg empty, List.mem_singleton, Prod.mk.injEq]
      constructor
      · rintro ⟨rfl, rfl⟩
        exact ⟨Finset.Subset.refl _, Finset.Subset.refl _, rfl, undivided.apart,
          Finset.card_ne_zero.mp empty⟩
      · rintro ⟨inLeft, inRight, union, disjoint, -⟩
        exact forced inLeft inRight union disjoint
  | cons x rest ih =>
    have unionLeft : insert x left ∪ right ∪ rest.toFinset
        = left ∪ right ∪ (x :: rest).toFinset := by
      rw [List.toFinset_cons, Finset.union_insert, Finset.insert_union, Finset.insert_union]
    have unionRight : left ∪ insert x right ∪ rest.toFinset
        = left ∪ right ∪ (x :: rest).toFinset := by
      rw [List.toFinset_cons, Finset.union_insert, Finset.union_insert, Finset.insert_union]
    rw [divide, List.mem_append, ih undivided.insert_left, ih undivided.insert_right, unionLeft,
      unionRight, Finset.insert_subset_iff, Finset.insert_subset_iff]
    constructor
    · rintro (⟨⟨-, inLeft⟩, facts⟩ | ⟨inLeft, ⟨-, inRight⟩, facts⟩)
      · exact ⟨inLeft, facts⟩
      · exact ⟨inLeft, inRight, facts⟩
    · rintro ⟨inLeft, inRight, union, facts⟩
      have member : x ∈ A ∪ B := by
        rw [union, List.toFinset_cons]
        exact Finset.mem_union_right _ (Finset.mem_insert_self x _)
      rcases Finset.mem_union.mp member with inA | inB
      · exact .inl ⟨⟨inA, inLeft⟩, inRight, union, facts⟩
      · exact .inr ⟨inLeft, ⟨inB, inRight⟩, union, facts⟩

theorem divide_nodup (undivided : Undivided rest left right) : (divide rest left right).Nodup := by
  induction rest generalizing left right with
  | nil =>
    rw [divide]
    split
    · exact List.nodup_nil
    · exact List.nodup_singleton _
  | cons x rest ih =>
    have toLeft := undivided.insert_left
    have toRight := undivided.insert_right
    rw [divide, List.nodup_append]
    refine ⟨ih toLeft, ih toRight, ?_⟩
    rintro ⟨A, B⟩ first pair second rfl
    -- the element cannot be in both sets
    have inA := ((mem_divide toLeft).mp first).1 (Finset.mem_insert_self x left)
    obtain ⟨-, inRight, -, disjoint, -⟩ := (mem_divide toRight).mp second
    exact Finset.disjoint_left.mp disjoint inA (inRight (Finset.mem_insert_self x right))

theorem divide_length :
    (divide rest left right).length + (if right = ∅ then 1 else 0) = 2 ^ rest.length := by
  induction rest generalizing left right with
  | nil =>
    rw [divide]
    by_cases none : right = ∅
    · simp [none]
    · simp [none]
  | cons x rest ih =>
    have toLeft := @ih (insert x left) right
    have toRight := @ih left (insert x right)
    rw [if_neg (Finset.insert_ne_empty x right)] at toRight
    rw [divide, List.length_append, List.length_cons, Nat.pow_succ]
    omega

end Members

section Pinned
variable {first : α} {rest : List α} {A B : Finset α}

theorem mem_divide_pinned (nodup : (first :: rest).Nodup) :
    (A, B) ∈ divide rest {first} ∅ ↔
      first ∈ A ∧ Divides (first :: rest).toFinset A B := by
  have whole : {first} ∪ ∅ ∪ rest.toFinset = (first :: rest).toFinset := by
    rw [List.toFinset_cons, Finset.union_empty, Finset.insert_eq]
  rw [mem_divide (undivided_pinned nodup), whole, Finset.singleton_subset_iff]
  constructor
  · rintro ⟨pinned, -, union, disjoint, nonempty⟩
    exact ⟨pinned, union, disjoint, ⟨first, pinned⟩, nonempty⟩
  · rintro ⟨pinned, divides⟩
    exact ⟨pinned, Finset.empty_subset _, divides.union, divides.disjoint, divides.right_nonempty⟩

theorem divide_pinned_length : (divide rest {first} ∅).length = 2 ^ rest.length - 1 := by
  have total := @divide_length α _ rest {first} ∅
  rw [if_pos rfl] at total
  omega

theorem divide_pinned_once (nodup : (first :: rest).Nodup)
    (divides : Divides (first :: rest).toFinset A B) :
    (divide rest {first} ∅).count (A, B) + (divide rest {first} ∅).count (B, A) = 1 := by
  have distinct := divide_nodup (undivided_pinned nodup)
  have member : first ∈ A ∪ B := by
    rw [divides.union]
    simp
  rcases Finset.mem_union.mp member with inA | inB
  · have listed := (mem_divide_pinned nodup).mpr ⟨inA, divides⟩
    have other : (B, A) ∉ divide rest {first} ∅ := fun reverse =>
      Finset.disjoint_left.mp divides.disjoint inA ((mem_divide_pinned nodup).mp reverse).1
    rw [List.count_eq_one_of_mem distinct listed, List.count_eq_zero_of_not_mem other]
  · have listed := (mem_divide_pinned nodup).mpr ⟨inB, divides.symm⟩
    have other : (A, B) ∉ divide rest {first} ∅ := fun reverse =>
      Finset.disjoint_left.mp divides.disjoint ((mem_divide_pinned nodup).mp reverse).1 inB
    rw [List.count_eq_one_of_mem distinct listed, List.count_eq_zero_of_not_mem other]

end Pinned

end Bipartitions
