import Mathlib.Data.Prod.Lex
import Mathlib.Order.MinMax
import Mathlib.Order.WithBot

/-!
Lists of spans in a linear order, kept in order and apart. A span covers the positions
from its lower end up to, but not with, its upper end. The cuts of an ordered type are the
positions just before and just after each of its elements and the two ends; bounds of
either kind are cuts, and an element is in a range when the range covers the cut before it.
-/
namespace OrderedSpans

/-- Just before an element, just after it, or at one of the ends. -/
abbrev Cut (α : Type) := WithBot (WithTop (α ×ₗ Bool))

namespace Cut

variable {α : Type}

def before (a : α) : Cut α := ((toLex (a, false) : α ×ₗ Bool) : WithTop (α ×ₗ Bool))

def after (a : α) : Cut α := ((toLex (a, true) : α ×ₗ Bool) : WithTop (α ×ₗ Bool))

variable [LinearOrder α] {a b : α}

@[simp]
theorem before_le_before : before a ≤ before b ↔ a ≤ b := by
  simp only [before, WithBot.coe_le_coe, WithTop.coe_le_coe, Prod.Lex.toLex_le_toLex, le_refl,
    and_true]
  exact le_iff_lt_or_eq.symm

@[simp]
theorem after_le_after : after a ≤ after b ↔ a ≤ b := by
  simp only [after, WithBot.coe_le_coe, WithTop.coe_le_coe, Prod.Lex.toLex_le_toLex, le_refl,
    and_true]
  exact le_iff_lt_or_eq.symm

@[simp]
theorem before_le_after : before a ≤ after b ↔ a ≤ b := by
  simp only [before, after, WithBot.coe_le_coe, WithTop.coe_le_coe, Prod.Lex.toLex_le_toLex,
    Bool.false_le, and_true]
  exact le_iff_lt_or_eq.symm

@[simp]
theorem after_le_before : after a ≤ before b ↔ a < b := by
  simp only [before, after, WithBot.coe_le_coe, WithTop.coe_le_coe, Prod.Lex.toLex_le_toLex]
  constructor
  · rintro (less | ⟨-, wrong⟩)
    · exact less
    · exact absurd wrong (by decide)
  · exact .inl

@[simp]
theorem before_lt_before : before a < before b ↔ a < b := by
  rw [← not_le, before_le_before, not_le]

@[simp]
theorem after_lt_after : after a < after b ↔ a < b := by
  rw [← not_le, after_le_after, not_le]

@[simp]
theorem before_lt_after : before a < after b ↔ a ≤ b := by
  rw [← not_le, after_le_before, not_lt]

@[simp]
theorem after_lt_before : after a < before b ↔ a < b := by
  rw [← not_le, before_le_after, not_le]

theorem bot_lt_before : (⊥ : Cut α) < before a := WithBot.bot_lt_coe _

theorem bot_lt_after : (⊥ : Cut α) < after a := WithBot.bot_lt_coe _

theorem before_lt_top : before a < (⊤ : Cut α) := WithBot.coe_lt_coe.mpr (WithTop.coe_lt_top _)

theorem after_lt_top : after a < (⊤ : Cut α) := WithBot.coe_lt_coe.mpr (WithTop.coe_lt_top _)

end Cut

/-- Things with a lower and an upper end. -/
class HasSpan (ρ : Type) (C : outParam Type) where
  lower : ρ → C
  upper : ρ → C

export HasSpan (lower upper)

variable {ρ C : Type} [HasSpan ρ C] [LinearOrder C]

def Covers (spans : List ρ) (x : C) : Prop :=
  ∃ span ∈ spans, lower span ≤ x ∧ x < upper span

/-- Each span ends before the next one starts. -/
structure Ordered (spans : List ρ) : Prop where
  nonempty : ∀ span ∈ spans, lower span < upper span
  apart : spans.Pairwise (fun s t => upper s ≤ lower t)

instance (spans : List ρ) : Decidable (Ordered spans) :=
  decidable_of_iff ((∀ span ∈ spans, lower span < upper span) ∧
      spans.Pairwise (fun s t => upper s ≤ lower t))
    ⟨fun ordered => ⟨ordered.1, ordered.2⟩, fun ordered => ⟨ordered.nonempty, ordered.apart⟩⟩

/-- All spans of the first list end before those of the second start. -/
def Before (spans others : List ρ) : Prop :=
  ∀ s ∈ spans, ∀ t ∈ others, upper s ≤ lower t

section Lists
variable {s t : ρ} {spans others : List ρ} {x : C}

@[simp]
theorem covers_nil : ¬ Covers ([] : List ρ) x := by
  rintro ⟨span, listed, -⟩
  exact absurd listed List.not_mem_nil

@[simp]
theorem covers_cons : Covers (s :: spans) x ↔ (lower s ≤ x ∧ x < upper s) ∨ Covers spans x := by
  simp only [Covers, List.mem_cons, exists_eq_or_imp]

@[simp]
theorem covers_append : Covers (spans ++ others) x ↔ Covers spans x ∨ Covers others x := by
  simp only [Covers, List.mem_append, or_and_right, exists_or]

theorem ordered_nil : Ordered ([] : List ρ) :=
  ⟨fun _ listed => absurd listed List.not_mem_nil, List.Pairwise.nil⟩

theorem ordered_cons :
    Ordered (s :: spans) ↔ lower s < upper s ∧ Before [s] spans ∧ Ordered spans := by
  constructor
  · rintro ⟨nonempty, apart⟩
    obtain ⟨first, rest⟩ := List.pairwise_cons.mp apart
    refine ⟨nonempty s List.mem_cons_self, ?_,
      fun t listed => nonempty t (List.mem_cons_of_mem s listed), rest⟩
    intro t only
    rw [List.mem_singleton.mp only]
    exact first
  · rintro ⟨proper, before, ordered⟩
    constructor
    · intro t listed
      rcases List.mem_cons.mp listed with rfl | later
      · exact proper
      · exact ordered.nonempty t later
    · exact List.pairwise_cons.mpr ⟨before s (List.mem_singleton_self s), ordered.apart⟩

theorem ordered_append :
    Ordered (spans ++ others) ↔ Ordered spans ∧ Ordered others ∧ Before spans others := by
  constructor
  · rintro ⟨nonempty, apart⟩
    obtain ⟨first, second, across⟩ := List.pairwise_append.mp apart
    exact ⟨⟨fun s listed => nonempty s (List.mem_append_left _ listed), first⟩,
      ⟨fun s listed => nonempty s (List.mem_append_right _ listed), second⟩, across⟩
  · rintro ⟨first, second, across⟩
    constructor
    · intro s listed
      rcases List.mem_append.mp listed with here | there
      · exact first.nonempty s here
      · exact second.nonempty s there
    · exact List.pairwise_append.mpr ⟨first.apart, second.apart, across⟩

theorem ordered_singleton : Ordered [s] ↔ lower s < upper s := by
  rw [ordered_cons]
  constructor
  · exact And.left
  · exact fun proper => ⟨proper, fun _ _ _ listed => absurd listed List.not_mem_nil, ordered_nil⟩

theorem before_cons : Before spans (t :: others) ↔ Before spans [t] ∧ Before spans others := by
  constructor
  · intro before
    constructor
    · intro s listed u only
      rw [List.mem_singleton.mp only]
      exact before s listed t List.mem_cons_self
    · exact fun s listed u later => before s listed u (List.mem_cons_of_mem t later)
  · rintro ⟨first, rest⟩ s listed u member
    rcases List.mem_cons.mp member with rfl | later
    · exact first s listed u (List.mem_singleton_self u)
    · exact rest s listed u later

theorem before_singleton : Before spans [t] ↔ ∀ s ∈ spans, upper s ≤ lower t := by
  constructor
  · exact fun before s listed => before s listed t (List.mem_singleton_self t)
  · intro before s listed u only
    rw [List.mem_singleton.mp only]
    exact before s listed

theorem not_covers_of_lt (below : ∀ s ∈ spans, x < lower s) : ¬ Covers spans x := by
  rintro ⟨s, listed, start, -⟩
  exact absurd start (not_le.mpr (below s listed))

theorem not_covers_of_before (before : Before [s] spans) (within : x < upper s) :
    ¬ Covers spans x :=
  not_covers_of_lt fun t listed =>
    lt_of_lt_of_le within (before s (List.mem_singleton_self s) t listed)

/-- A list that covers the positions from `low` up to `high`, and is empty if there are none. -/
structure Piece (spans : List ρ) (low high : C) : Prop where
  ordered : Ordered spans
  covers : ∀ x, Covers spans x ↔ low ≤ x ∧ x < high
  within : ∀ s ∈ spans, low ≤ lower s ∧ upper s ≤ high

variable {low high : C}

theorem piece_nil (none : high ≤ low) : Piece ([] : List ρ) low high where
  ordered := ordered_nil
  covers _ := iff_of_false covers_nil fun ⟨above, below⟩ =>
    (lt_of_le_of_lt above below).not_ge none
  within _ listed := absurd listed List.not_mem_nil

theorem piece_singleton (starts : lower s = low) (ends : upper s = high) (proper : low < high) :
    Piece [s] low high := by
  subst starts ends
  constructor
  · exact ordered_singleton.mpr proper
  · intro x
    simp
  · intro t only
    rw [List.mem_singleton.mp only]
    exact ⟨le_rfl, le_rfl⟩

theorem Piece.before (piece : Piece spans low high) (later : ∀ t ∈ others, high ≤ lower t) :
    Before spans others :=
  fun s listed t target => (piece.within s listed).2.trans (later t target)

theorem Piece.after (piece : Piece spans low high) (earlier : ∀ t ∈ others, upper t ≤ low) :
    Before others spans :=
  fun t source s listed => (earlier t source).trans (piece.within s listed).1

theorem Piece.exists_eq {span : Option ρ} (piece : Piece span.toList low high) (proper : low < high) :
    ∃ s, span = some s ∧ lower s = low ∧ upper s = high := by
  have start : Covers span.toList low := (piece.covers low).mpr ⟨le_rfl, proper⟩
  cases span with
  | none => exact absurd start covers_nil
  | some s =>
    obtain ⟨above, below⟩ := piece.within s (List.mem_singleton_self s)
    have covers : ∀ x, (lower s ≤ x ∧ x < upper s) ↔ low ≤ x ∧ x < high := fun x => by
      simpa using piece.covers x
    refine ⟨s, rfl, le_antisymm ((covers low).mpr ⟨le_rfl, proper⟩).1 above, ?_⟩
    by_contra short
    have ends : upper s < high := lt_of_le_of_ne below short
    have reaches : low ≤ upper s := ((covers low).mpr ⟨le_rfl, proper⟩).2.le
    exact lt_irrefl _ ((covers (upper s)).mpr ⟨reaches, ends⟩).2

/-- A list of spans with later ones added, whether or not the neighbours were merged. -/
structure Joined (spans later result : List ρ) : Prop where
  ordered : Ordered result
  covers : ∀ x, Covers result x ↔ Covers spans x ∨ Covers later x
  ends : ∀ c, (∀ s ∈ spans, upper s ≤ c) → (∀ s ∈ later, upper s ≤ c) →
    ∀ s ∈ result, upper s ≤ c

variable {later result : List ρ}

theorem joined_nil (ordered : Ordered spans) : Joined spans [] spans where
  ordered := ordered
  covers x := by simp
  ends _ bound _ := bound

theorem joined_append (ordered : Ordered spans) (later : Ordered others)
    (before : Before spans others) : Joined spans others (spans ++ others) where
  ordered := ordered_append.mpr ⟨ordered, later, before⟩
  covers _ := covers_append
  ends c bound boundLater s listed := by
    rcases List.mem_append.mp listed with here | there
    · exact bound s here
    · exact boundLater s there

/-- The last span and the added one meet and are replaced by one span. -/
theorem joined_extend {last extended : ρ} (ordered : Ordered (spans ++ [last]))
    (proper : lower t < upper t) (starts : lower extended = lower last)
    (ends : upper extended = upper t) (meets : upper last = lower t) :
    Joined (spans ++ [last]) [t] (spans ++ [extended]) := by
  obtain ⟨orderedInit, orderedLast, before⟩ := ordered_append.mp ordered
  have properLast := ordered_singleton.mp orderedLast
  have grows : upper last < upper t := by
    rw [meets]
    exact proper
  constructor
  · refine ordered_append.mpr ⟨orderedInit, ordered_singleton.mpr ?_, before_singleton.mpr ?_⟩
    · rw [starts, ends]
      exact properLast.trans grows
    · rw [starts]
      exact before_singleton.mp before
  · intro x
    have cut : lower last ≤ x ∧ x < upper t ↔
        (lower last ≤ x ∧ x < upper last) ∨ (lower t ≤ x ∧ x < upper t) := by
      constructor
      · rintro ⟨above, below⟩
        rcases lt_or_ge x (upper last) with within | beyond
        · exact .inl ⟨above, within⟩
        · exact .inr ⟨meets ▸ beyond, below⟩
      · rintro (⟨above, below⟩ | ⟨above, below⟩)
        · exact ⟨above, below.trans grows⟩
        · exact ⟨properLast.le.trans (meets.trans_le above), below⟩
    simp only [covers_append, covers_cons, covers_nil, or_false, starts, ends, cut, or_assoc]
  · intro c bound boundLater s listed
    rcases List.mem_append.mp listed with here | only
    · exact bound s (List.mem_append_left _ here)
    · rw [List.mem_singleton.mp only, ends]
      exact boundLater t (List.mem_singleton_self t)

theorem Joined.trans {latest final : List ρ} (first : Joined spans later result)
    (second : Joined result latest final) : Joined spans (later ++ latest) final where
  ordered := second.ordered
  covers x := by rw [second.covers, first.covers, covers_append, or_assoc]
  ends c bound boundLater := by
    refine second.ends c (first.ends c bound ?_) ?_
    · exact fun s listed => boundLater s (List.mem_append_left _ listed)
    · exact fun s listed => boundLater s (List.mem_append_right _ listed)

theorem Joined.before (joined : Joined spans later result) (before : Before spans others)
    (beforeLater : Before later others) : Before result others :=
  fun s listed t target => joined.ends (lower t) (fun s' here => before s' here t target)
    (fun s' here => beforeLater s' here t target) s listed

end Lists

end OrderedSpans
