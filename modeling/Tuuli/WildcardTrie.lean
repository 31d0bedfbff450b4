import Mathlib.Data.List.Nodup

/-!
A prefix tree whose nodes have keyed edges, at most one wildcard edge, and a list
of entries. Inserting an entry at a path adds the missing edges of the path and
changes the entries of no other path.
-/
namespace WildcardTrie

inductive Label (κ : Type) where
  | wild
  | key (k : κ)
  deriving DecidableEq

inductive Trie (κ ε : Type) where
  | node (edges : List (κ × Trie κ ε)) (wild : Option (Trie κ ε)) (entries : List ε)

namespace Trie
variable {κ ε : Type}

def edges : Trie κ ε → List (κ × Trie κ ε)
  | node edges _ _ => edges

def wild : Trie κ ε → Option (Trie κ ε)
  | node _ wild _ => wild

def entries : Trie κ ε → List ε
  | node _ _ entries => entries

def empty : Trie κ ε := node [] none []

section Insertion
variable [DecidableEq κ]

/-- Updates the first edge with the key, or adds one to an updated empty node. -/
def updateEdge (key : κ) (update : Trie κ ε → Trie κ ε) :
    List (κ × Trie κ ε) → List (κ × Trie κ ε)
  | [] => [(key, update empty)]
  | (k, child) :: rest =>
    if k = key then (k, update child) :: rest else (k, child) :: updateEdge key update rest

def insert (entry : ε) : List (Label κ) → Trie κ ε → Trie κ ε
  | [], node edges wild entries => node edges wild (entries ++ [entry])
  | .wild :: path, node edges wild entries =>
    node edges (some (insert entry path (wild.getD empty))) entries
  | .key k :: path, node edges wild entries =>
    node (updateEdge k (insert entry path) edges) wild entries

end Insertion

/-- The path leads from one node to another. -/
inductive Leads : Trie κ ε → List (Label κ) → Trie κ ε → Prop
  | refl (t : Trie κ ε) : Leads t [] t
  | wild {t child v : Trie κ ε} {path : List (Label κ)} (edge : t.wild = some child)
      (rest : Leads child path v) : Leads t (.wild :: path) v
  | key {t child v : Trie κ ε} {k : κ} {path : List (Label κ)} (edge : (k, child) ∈ t.edges)
      (rest : Leads child path v) : Leads t (.key k :: path) v

variable {u v : Trie κ ε} {more : List (Label κ)}

theorem Leads.trans {t : Trie κ ε} {path : List (Label κ)} (first : Leads t path u)
    (second : Leads u more v) : Leads t (path ++ more) v := by
  induction first with
  | refl => exact second
  | wild edge _ ih => exact .wild edge (ih second)
  | key edge _ ih => exact .key edge (ih second)

theorem Leads.split {t : Trie κ ε} {path : List (Label κ)} (h : Leads t (path ++ more) v) :
    ∃ u, Leads t path u ∧ Leads u more v := by
  induction path generalizing t with
  | nil => exact ⟨t, .refl t, h⟩
  | cons label path ih =>
    cases h with
    | wild edge rest =>
      obtain ⟨u, first, second⟩ := ih rest
      exact ⟨u, .wild edge first, second⟩
    | key edge rest =>
      obtain ⟨u, first, second⟩ := ih rest
      exact ⟨u, .key edge first, second⟩

/-- An entry stored at the end of a path. -/
def EntryAt (t : Trie κ ε) (path : List (Label κ)) (entry : ε) : Prop :=
  ∃ v, Leads t path v ∧ entry ∈ v.entries

variable {t : Trie κ ε} {path : List (Label κ)} {entry : ε}

theorem entryAt_nil : EntryAt t [] entry ↔ entry ∈ t.entries := by
  constructor
  · intro ⟨v, leads, mem⟩
    cases leads
    exact mem
  · intro mem
    exact ⟨t, .refl t, mem⟩

theorem entryAt_wild :
    EntryAt t (.wild :: path) entry ↔ ∃ child, t.wild = some child ∧ child.EntryAt path entry := by
  constructor
  · intro ⟨v, leads, mem⟩
    cases leads with
    | wild edge rest => exact ⟨_, edge, v, rest, mem⟩
  · intro ⟨child, edge, v, rest, mem⟩
    exact ⟨v, .wild edge rest, mem⟩

theorem entryAt_key {k : κ} : EntryAt t (.key k :: path) entry ↔
    ∃ child, (k, child) ∈ t.edges ∧ child.EntryAt path entry := by
  constructor
  · intro ⟨v, leads, mem⟩
    cases leads with
    | key edge rest => exact ⟨_, edge, v, rest, mem⟩
  · intro ⟨child, edge, v, rest, mem⟩
    exact ⟨v, .key edge rest, mem⟩

theorem not_entryAt_empty : ¬ EntryAt (empty : Trie κ ε) path entry := by
  intro ⟨v, leads, mem⟩
  cases leads with
  | refl => simp [empty, entries] at mem
  | wild edge _ => simp [empty, Trie.wild] at edge
  | key edge _ => simp [empty, Trie.edges] at edge

section Insertion
variable [DecidableEq κ]

theorem exists_updateEdge {key k : κ} {update : Trie κ ε → Trie κ ε} (P : Trie κ ε → Prop)
    {added : Prop} (adds : ∀ child, P (update child) ↔ P child ∨ added) (bare : ¬ P empty)
    (edges : List (κ × Trie κ ε)) :
    (∃ child, (k, child) ∈ updateEdge key update edges ∧ P child) ↔
      (∃ child, (k, child) ∈ edges ∧ P child) ∨ k = key ∧ added := by
  induction edges with
  | nil =>
    have fresh : P (update empty) ↔ added := by
      rw [adds]
      exact or_iff_right bare
    simp [updateEdge, fresh]
  | cons edge rest ih =>
    obtain ⟨k', child⟩ := edge
    rw [updateEdge]
    split
    next same =>
      subst same
      simp only [List.mem_cons, Prod.mk.injEq, or_and_right, exists_or, and_assoc,
        exists_and_left, exists_eq_left, adds, and_or_left]
      rw [or_right_comm]
    next different =>
      simp only [List.mem_cons, or_and_right, exists_or, ih]
      rw [or_assoc]

theorem entryAt_insert {stored : ε} {place : List (Label κ)} :
    EntryAt (insert stored place t) path entry ↔
      EntryAt t path entry ∨ path = place ∧ entry = stored := by
  induction place generalizing t path with
  | nil =>
    cases t with
    | node edges wild entries =>
      cases path with
      | nil => simp [insert, entryAt_nil, Trie.entries]
      | cons label path =>
        cases label with
        | wild => simp [insert, entryAt_wild, Trie.wild]
        | key k => simp [insert, entryAt_key, Trie.edges]
  | cons label place ih =>
    cases t with
    | node edges wild entries =>
      cases label with
      | wild =>
        cases path with
        | nil => simp [insert, entryAt_nil, Trie.entries]
        | cons label path =>
          cases label with
          | wild => cases wild <;> simp [insert, entryAt_wild, Trie.wild, ih, not_entryAt_empty]
          | key k => simp [insert, entryAt_key, Trie.edges]
      | key key =>
        cases path with
        | nil => simp [insert, entryAt_nil, Trie.entries]
        | cons label path =>
          cases label with
          | wild => simp [insert, entryAt_wild, Trie.wild]
          | key k =>
            rw [insert, entryAt_key, entryAt_key]
            simp only [Trie.edges]
            rw [exists_updateEdge (fun child => child.EntryAt path entry) (fun _ => ih)
              not_entryAt_empty edges]
            simp [and_assoc]

end Insertion

/-! ### Whether some entry of a subtree satisfies a test -/

mutual

def any (p : ε → Bool) : Trie κ ε → Bool
  | node edges wild entries => entries.any p || anyWild p wild || anyEdges p edges

def anyWild (p : ε → Bool) : Option (Trie κ ε) → Bool
  | none => false
  | some child => child.any p

def anyEdges (p : ε → Bool) : List (κ × Trie κ ε) → Bool
  | [] => false
  | (_, child) :: rest => child.any p || anyEdges p rest

end

variable {p : ε → Bool}

theorem anyEdges_eq_true {edges : List (κ × Trie κ ε)} :
    anyEdges p edges = true ↔ ∃ edge ∈ edges, edge.2.any p = true := by
  induction edges with
  | nil => simp [anyEdges]
  | cons edge rest ih => simp [anyEdges, ih]

theorem any_eq_true : t.any p = true ↔
    (∃ entry ∈ t.entries, p entry = true) ∨ (∃ child, t.wild = some child ∧ child.any p = true) ∨
      ∃ edge ∈ t.edges, edge.2.any p = true := by
  cases t with
  | node edges wild entries =>
    cases wild <;>
      simp [any, anyWild, anyEdges_eq_true, Trie.entries, Trie.wild, Trie.edges, or_assoc]

theorem Leads.any (h : Leads t path v) (test : v.any p = true) : t.any p = true := by
  induction h with
  | refl => exact test
  | wild edge _ ih => exact any_eq_true.mpr (Or.inr (Or.inl ⟨_, edge, ih test⟩))
  | key edge _ ih => exact any_eq_true.mpr (Or.inr (Or.inr ⟨_, edge, ih test⟩))

theorem EntryAt.any (h : t.EntryAt path entry) (test : p entry = true) : t.any p = true := by
  obtain ⟨v, leads, mem⟩ := h
  exact leads.any (any_eq_true.mpr (Or.inl ⟨entry, mem, test⟩))

theorem EntryAt.split (h : t.EntryAt (path ++ more) entry) :
    ∃ u, Leads t path u ∧ u.EntryAt more entry := by
  obtain ⟨v, leads, mem⟩ := h
  obtain ⟨u, first, second⟩ := leads.split
  exact ⟨u, first, v, second, mem⟩

theorem Leads.entryAt (h : Leads t path u) (stored : u.EntryAt more entry) :
    t.EntryAt (path ++ more) entry := by
  obtain ⟨v, leads, mem⟩ := stored
  exact ⟨v, h.trans leads, mem⟩

end Trie

end WildcardTrie
