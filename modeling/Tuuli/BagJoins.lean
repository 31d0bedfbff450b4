import Mathlib.Data.Multiset.Bind
import Mathlib.Data.Set.BooleanAlgebra
import Mathlib.Order.CompletePartialOrder

/-!
Joins of bags of rows under three-valued predicates. A row maps every column
to a value or NULL; a column outside the scheme of its relation is NULL, so
extending a row with NULLs leaves it unchanged and concatenating two rows of
disjoint schemes takes the first value present. `none` is both the NULL value
and the truth value UNKNOWN.
-/
namespace BagJoins

abbrev Row (C V : Type) := C → Option V

variable {C V : Type}

/-- The row of NULLs: what an outer join appends to an unmatched row. -/
def nullRow : Row C V := fun _ => none

def concat (r s : Row C V) : Row C V := fun c => (r c).or (s c)

/-- The columns outside `cols` are NULL. -/
def Within (cols : Set C) (r : Row C V) : Prop := ∀ c, c ∉ cols → r c = none

/-- Every row of the bag stays within `cols`. -/
def BagWithin (cols : Set C) (R : Multiset (Row C V)) : Prop := ∀ r ∈ R, Within cols r

/-- The truth value of `p` is a function of the columns in `cols`. -/
def Reads (cols : Set C) (p : Row C V → Option Bool) : Prop :=
  ∀ r s, (∀ c ∈ cols, r c = s c) → p r = p s

/-- `p` is never TRUE on a row whose `cols` are all NULL. -/
def RejectsNulls (cols : Set C) (p : Row C V → Option Bool) : Prop :=
  ∀ r, (∀ c ∈ cols, r c = none) → p r ≠ some true

variable {A B cols : Set C} {r s : Row C V} {p : Row C V → Option Bool}

@[simp] theorem concat_nullRow (r : Row C V) : concat r nullRow = r := by
  funext c
  simp [concat, nullRow]

@[simp] theorem nullRow_concat (r : Row C V) : concat nullRow r = r := by
  funext c
  simp [concat, nullRow]

theorem concat_assoc (r s t : Row C V) : concat (concat r s) t = concat r (concat s t) := by
  funext c
  simp [concat, Option.or_assoc]

theorem concat_comm_of_disjoint (disjoint : Disjoint A B) (hr : Within A r) (hs : Within B s) :
    concat r s = concat s r := by
  funext c
  by_cases member : c ∈ A
  · have outside : c ∉ B := Set.disjoint_left.mp disjoint member
    simp [concat, hs c outside]
  · simp [concat, hr c member]

theorem within_nullRow (cols : Set C) : Within cols (nullRow : Row C V) := fun _ _ => rfl

theorem Within.mono (h : Within A r) (sub : A ⊆ B) : Within B r :=
  fun c hc => h c (fun member => hc (sub member))

theorem Within.concat (hr : Within A r) (hs : Within B s) :
    Within (A ∪ B) (BagJoins.concat r s) := by
  intro c hc
  simp only [Set.mem_union, not_or] at hc
  simp [BagJoins.concat, hr c hc.1, hs c hc.2]

theorem concat_skip_left (reads : Reads cols p) (disjoint : Disjoint A cols) (hr : Within A r) :
    p (concat r s) = p s := by
  apply reads
  intro c hc
  have outside : c ∉ A := fun member => Set.disjoint_left.mp disjoint member hc
  simp [concat, hr c outside]

theorem concat_skip_right (reads : Reads cols p) (disjoint : Disjoint A cols) (hs : Within A s) :
    p (concat r s) = p r := by
  apply reads
  intro c hc
  have outside : c ∉ A := fun member => Set.disjoint_left.mp disjoint member hc
  simp [concat, hs c outside]

theorem RejectsNulls.mono (h : RejectsNulls A p) (sub : A ⊆ B) : RejectsNulls B p :=
  fun r nulls => h r (fun c hc => nulls c (sub hc))

theorem RejectsNulls.on_read (rejects : RejectsNulls (A ∪ B) p) (reads : Reads cols p)
    (disjoint : Disjoint B cols) : RejectsNulls A p := by
  classical
  intro r nulls holds
  let s : Row C V := fun c => if c ∈ B then none else r c
  have agree : p s = p r := reads s r (fun c hc => by
    have outside : c ∉ B := fun member => Set.disjoint_left.mp disjoint member hc
    simp [s, outside])
  refine rejects s ?_ (agree.trans holds)
  intro c hc
  by_cases member : c ∈ B
  · simp [s, member]
  · rcases hc with hA | hB
    · simp [s, member, nulls c hA]
    · exact absurd hB member

/-! The join operators that emit, for each left row, the rows it is extended to. -/

inductive LeftJoin where
  | inner
  | outer
  | semi
  | anti
  | antiNotIn
  deriving DecidableEq, Repr

def partners (p : Row C V → Option Bool) (S : Multiset (Row C V)) (r : Row C V) :
    Multiset (Row C V) :=
  S.filter (fun s => p (concat r s) = some true)

/-- The rows appended to `r`; `nullRow` stands for keeping `r` as it is. -/
def appended (k : LeftJoin) (p : Row C V → Option Bool) (S : Multiset (Row C V)) (r : Row C V) :
    Multiset (Row C V) :=
  match k with
  | .inner => partners p S r
  | .outer => if (partners p S r).card = 0 then {nullRow} else partners p S r
  | .semi => if (partners p S r).card = 0 then 0 else {nullRow}
  | .anti => if (partners p S r).card = 0 then {nullRow} else 0
  | .antiNotIn => if ∀ s ∈ S, p (concat r s) = some false then {nullRow} else 0

def leftJoin (k : LeftJoin) (p : Row C V → Option Bool) (R S : Multiset (Row C V)) :
    Multiset (Row C V) :=
  R.bind (fun r => (appended k p S r).map (concat r))

def fullJoin (p : Row C V → Option Bool) (R S : Multiset (Row C V)) : Multiset (Row C V) :=
  leftJoin .outer p R S + leftJoin .anti p S R

variable {S R : Multiset (Row C V)} {k : LeftJoin}

theorem partners_eq_zero_iff : (partners p S r).card = 0 ↔ ∀ s ∈ S, p (concat r s) ≠ some true := by
  simp [partners, Multiset.filter_eq_nil]

theorem mem_appended (member : s ∈ appended k p S r) : s ∈ S ∨ s = nullRow := by
  cases k with
  | inner => exact .inl (Multiset.mem_of_mem_filter member)
  | outer =>
    simp only [appended] at member
    split at member
    · exact .inr (Multiset.mem_singleton.mp member)
    · exact .inl (Multiset.mem_of_mem_filter member)
  | semi | anti | antiNotIn =>
    simp only [appended] at member
    split at member <;> simp at member
    exact .inr member

theorem appended_within (hS : BagWithin B S) (member : s ∈ appended k p S r) : Within B s := by
  rcases mem_appended member with inside | rfl
  · exact hS s inside
  · exact within_nullRow B

theorem appended_congr {r' : Row C V} (agree : ∀ s ∈ S, p (concat r s) = p (concat r' s)) :
    appended k p S r = appended k p S r' := by
  have same : partners p S r = partners p S r' :=
    Multiset.filter_congr (fun s hs => by rw [agree s hs])
  cases k
  case antiNotIn =>
    have iff : (∀ s ∈ S, p (concat r s) = some false) ↔ ∀ s ∈ S, p (concat r' s) = some false :=
      forall₂_congr (fun s hs => by rw [agree s hs])
    simp only [appended, iff]
  all_goals simp only [appended, same]

theorem leftJoin_within (hR : BagWithin A R) (hS : BagWithin B S) :
    BagWithin (A ∪ B) (leftJoin k p R S) := by
  intro u hu
  simp only [leftJoin, Multiset.mem_bind, Multiset.mem_map] at hu
  obtain ⟨r, hr, s, hs, rfl⟩ := hu
  exact (hR r hr).concat (appended_within hS hs)

theorem fullJoin_within (hR : BagWithin A R) (hS : BagWithin B S) :
    BagWithin (A ∪ B) (fullJoin p R S) := by
  intro u hu
  rcases Multiset.mem_add.mp hu with left | right
  · exact leftJoin_within hR hS u left
  · exact (Set.union_comm A B) ▸ leftJoin_within hS hR u right

@[simp] theorem leftJoin_zero (k : LeftJoin) (p : Row C V → Option Bool) (S : Multiset (Row C V)) :
    leftJoin k p 0 S = 0 := rfl

theorem leftJoin_add (k : LeftJoin) (p : Row C V → Option Bool) (R R' S : Multiset (Row C V)) :
    leftJoin k p (R + R') S = leftJoin k p R S + leftJoin k p R' S :=
  Multiset.add_bind R R' _

theorem leftJoin_leftJoin (k m : LeftJoin) (p q : Row C V → Option Bool)
    (R S T : Multiset (Row C V)) :
    leftJoin m q (leftJoin k p R S) T = R.bind (fun r => (appended k p S r).bind
      (fun s => (appended m q T (concat r s)).map (concat (concat r s)))) := by
  simp only [leftJoin, Multiset.bind_assoc, Multiset.bind_map]

theorem appended_outer_unmatched (unmatched : (partners p S r).card = 0) :
    appended .outer p S r = {nullRow} := if_pos unmatched

theorem appended_outer_matched (matched : (partners p S r).card ≠ 0) :
    appended .outer p S r = partners p S r := if_neg matched

theorem concat_skip_middle (reads : Reads cols p) (disjoint : Disjoint B cols) (hs : Within B s)
    (r t : Row C V) : p (concat (concat r s) t) = p (concat r t) := by
  apply reads
  intro c hc
  have outside : c ∉ B := fun member => Set.disjoint_left.mp disjoint member hc
  simp [concat, hs c outside]

theorem concat_right_comm {D : Set C} {t : Row C V} (disjoint : Disjoint B D) (hs : Within B s)
    (ht : Within D t) (r : Row C V) : concat (concat r s) t = concat (concat r t) s := by
  rw [concat_assoc, concat_comm_of_disjoint disjoint hs ht, ← concat_assoc]

end BagJoins
