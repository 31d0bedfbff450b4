import Mathlib.Data.Finset.Card

/-!
Binary trees with distinct leaves, and the inner nodes that a set of leaves
splits: those with a leaf of the set below both children. A set of `n` leaves
splits exactly `n - 1` nodes.
-/
namespace TreeSplits

inductive SplitTree (K A : Type) where
  | leaf : A → SplitTree K A
  | node : K → SplitTree K A → SplitTree K A → SplitTree K A

namespace SplitTree

variable {K A : Type}

def keys : SplitTree K A → List K
  | leaf _ => []
  | node k l r => l.keys ++ r.keys ++ [k]

/-- `k` labels an inner node with children `l` and `r`. -/
def HasNode (k : K) (l r : SplitTree K A) : SplitTree K A → Prop
  | leaf _ => False
  | node k' l' r' => (k = k' ∧ l = l' ∧ r = r') ∨ HasNode k l r l' ∨ HasNode k l r r'

variable {k k' : K} {l r l' r' t : SplitTree K A}

theorem HasNode.trans (outer : HasNode k l r t) (inner : HasNode k' l' r' l ∨ HasNode k' l' r' r) :
    HasNode k' l' r' t := by
  induction t with
  | leaf a => exact absurd outer id
  | node j a b iha ihb =>
    rcases outer with ⟨rfl, rfl, rfl⟩ | left | right
    · exact .inr inner
    · exact .inr (.inl (iha left))
    · exact .inr (.inr (ihb right))

theorem HasNode.mem_keys (h : HasNode k l r t) : k ∈ t.keys := by
  induction t with
  | leaf a => exact absurd h id
  | node k' l' r' ihl ihr =>
    simp only [keys, List.mem_append, List.mem_singleton]
    rcases h with ⟨rfl, -, -⟩ | left | right
    · exact .inr rfl
    · exact .inl (.inl (ihl left))
    · exact .inl (.inr (ihr right))

theorem exists_hasNode (member : k ∈ t.keys) : ∃ l r, HasNode k l r t := by
  induction t with
  | leaf a => simp [keys] at member
  | node k' l' r' ihl ihr =>
    simp only [keys, List.mem_append, List.mem_singleton] at member
    rcases member with (left | right) | rfl
    · obtain ⟨l, r, h⟩ := ihl left
      exact ⟨l, r, .inr (.inl h)⟩
    · obtain ⟨l, r, h⟩ := ihr right
      exact ⟨l, r, .inr (.inr h)⟩
    · exact ⟨l', r', .inl ⟨rfl, rfl, rfl⟩⟩

variable [DecidableEq A]

def leaves : SplitTree K A → Finset A
  | leaf a => {a}
  | node _ l r => l.leaves ∪ r.leaves

def Distinct : SplitTree K A → Prop
  | leaf _ => True
  | node _ l r => l.Distinct ∧ r.Distinct ∧ Disjoint l.leaves r.leaves

/-- The keys of the inner nodes that `T` splits. -/
def splitKeys (T : Finset A) : SplitTree K A → List K
  | leaf _ => []
  | node k l r => l.splitKeys T ++ r.splitKeys T ++
      (if Disjoint T l.leaves ∨ Disjoint T r.leaves then [] else [k])

variable {T : Finset A}

theorem leaves_nonempty (t : SplitTree K A) : t.leaves.Nonempty := by
  induction t with
  | leaf a => exact ⟨a, Finset.mem_singleton_self a⟩
  | node k l r ihl ihr => exact ihl.mono Finset.subset_union_left

theorem HasNode.leaves_subset (h : HasNode k l r t) : l.leaves ∪ r.leaves ⊆ t.leaves := by
  induction t with
  | leaf a => exact absurd h id
  | node k' l' r' ihl ihr =>
    rcases h with ⟨rfl, rfl, rfl⟩ | left | right
    · exact Finset.Subset.refl _
    · exact (ihl left).trans Finset.subset_union_left
    · exact (ihr right).trans Finset.subset_union_right

theorem HasNode.distinct (h : HasNode k l r t) (valid : t.Distinct) :
    Disjoint l.leaves r.leaves := by
  induction t with
  | leaf a => exact absurd h id
  | node k' l' r' ihl ihr =>
    rcases h with ⟨rfl, rfl, rfl⟩ | left | right
    · exact valid.2.2
    · exact ihl left valid.1
    · exact ihr right valid.2.1

theorem HasNode.eq_of_split (valid : t.Distinct) (h : HasNode k l r t) (h' : HasNode k' l' r' t)
    (inside : T ⊆ l.leaves ∪ r.leaves) (inside' : T ⊆ l'.leaves ∪ r'.leaves)
    (split : ¬ Disjoint T l.leaves ∧ ¬ Disjoint T r.leaves)
    (split' : ¬ Disjoint T l'.leaves ∧ ¬ Disjoint T r'.leaves) : k = k' := by
  induction t with
  | leaf a => exact absurd h id
  | node j a b iha ihb =>
    obtain ⟨validA, validB, apart⟩ := valid
    have awayB : T ⊆ a.leaves → Disjoint T b.leaves := fun sub => apart.mono_left sub
    have awayA : T ⊆ b.leaves → Disjoint T a.leaves := fun sub => apart.symm.mono_left sub
    have meetsA : ∀ {l r : SplitTree K A}, ¬ Disjoint T l.leaves → HasNode k l r a →
        ¬ Disjoint T a.leaves := fun meets below away =>
      meets (away.mono_right (Finset.subset_union_left.trans below.leaves_subset))
    rcases h with ⟨rfl, rfl, rfl⟩ | left | right
    · rcases h' with ⟨rfl, -, -⟩ | left' | right'
      · rfl
      · exact absurd (awayB (inside'.trans left'.leaves_subset)) split.2
      · exact absurd (awayA (inside'.trans right'.leaves_subset)) split.1
    · have here := inside.trans left.leaves_subset
      rcases h' with ⟨rfl, rfl, rfl⟩ | left' | right'
      · exact absurd (awayB here) split'.2
      · exact iha validA left left'
      · exact absurd (awayA (inside'.trans right'.leaves_subset)) (meetsA split.1 left)
    · have here := inside.trans right.leaves_subset
      rcases h' with ⟨rfl, rfl, rfl⟩ | left' | right'
      · exact absurd (awayA here) split'.1
      · exact absurd ((awayA here).mono_right
          (Finset.subset_union_left.trans left'.leaves_subset)) split'.1
      · exact ihb validB right right'

theorem mem_splitKeys :
    k ∈ t.splitKeys T ↔
      ∃ l r, HasNode k l r t ∧ ¬ Disjoint T l.leaves ∧ ¬ Disjoint T r.leaves := by
  induction t with
  | leaf a => simp [splitKeys, HasNode]
  | node j a b iha ihb =>
    simp only [splitKeys, List.mem_append, iha, ihb, HasNode]
    constructor
    · rintro ((⟨l, r, h, split⟩ | ⟨l, r, h, split⟩) | root)
      · exact ⟨l, r, .inr (.inl h), split⟩
      · exact ⟨l, r, .inr (.inr h), split⟩
      · split at root
        · simp at root
        · rename_i split
          exact ⟨a, b, .inl ⟨List.mem_singleton.mp root, rfl, rfl⟩, not_or.mp split⟩
    · rintro ⟨l, r, ⟨rfl, rfl, rfl⟩ | left | right, split⟩
      · exact .inr (by rw [if_neg (not_or.mpr split)]; exact List.mem_singleton_self k)
      · exact .inl (.inl ⟨l, r, left, split⟩)
      · exact .inl (.inr ⟨l, r, right, split⟩)

theorem splitKeys_sublist (T : Finset A) (t : SplitTree K A) : (t.splitKeys T).Sublist t.keys := by
  induction t with
  | leaf a => exact List.Sublist.refl _
  | node k l r ihl ihr =>
    refine (ihl.append ihr).append ?_
    split
    · exact List.nil_sublist _
    · exact List.Sublist.refl _

theorem splitKeys_of_disjoint (disjoint : Disjoint T t.leaves) : t.splitKeys T = [] := by
  induction t with
  | leaf a => rfl
  | node k l r ihl ihr =>
    obtain ⟨left, right⟩ := Finset.disjoint_union_right.mp disjoint
    simp only [splitKeys, ihl left, ihr right, left, true_or, if_true, List.append_nil]

theorem splitKeys_length (valid : t.Distinct) (meets : ¬ Disjoint T t.leaves) :
    (t.splitKeys T).length + 1 = (T ∩ t.leaves).card := by
  induction t with
  | leaf a =>
    have member : a ∈ T := by simpa [leaves] using meets
    simp [splitKeys, leaves, Finset.inter_singleton_of_mem member]
  | node k l r ihl ihr =>
    have counts : (T ∩ (l.leaves ∪ r.leaves)).card
        = (T ∩ l.leaves).card + (T ∩ r.leaves).card := by
      rw [Finset.inter_union_distrib_left, Finset.card_union_of_disjoint]
      exact valid.2.2.mono Finset.inter_subset_right Finset.inter_subset_right
    simp only [splitKeys, leaves, List.length_append, counts]
    by_cases left : Disjoint T l.leaves
    · have right : ¬ Disjoint T r.leaves := fun right =>
        meets (Finset.disjoint_union_right.mpr ⟨left, right⟩)
      have empty := Finset.disjoint_iff_inter_eq_empty.mp left
      have count := ihr valid.2.1 right
      simp only [splitKeys_of_disjoint left, left, true_or, if_true, List.length_nil, empty,
        Finset.card_empty]
      omega
    · have countLeft := ihl valid.1 left
      by_cases right : Disjoint T r.leaves
      · have empty := Finset.disjoint_iff_inter_eq_empty.mp right
        simp only [splitKeys_of_disjoint right, right, or_true, if_true, List.length_nil, empty,
          Finset.card_empty]
        omega
      · have countRight := ihr valid.2.1 right
        simp only [left, right, or_self, if_false, List.length_singleton]
        omega

end SplitTree

end TreeSplits
