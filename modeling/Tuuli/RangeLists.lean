import Tuuli.Ranges

/-!
The loops of `CConstraintInterval` over two ordered arrays of ranges: union, intersection and
difference. Each takes a range off the array that ends first. The fuel of a loop bounds its
rounds; a round takes one range off one of the two arrays.
-/
namespace Constraints
open OrderedSpans

section Loops
variable {E : Type} [CComparator E]

def appendOrExtend (ranges : List (CRange E)) : Option (CRange E) → List (CRange E)
  | none => ranges
  | some range =>
    match ranges.getLast? with
    | none => [range]
    | some last =>
      match last.prngExtend range with
      | none => ranges ++ [range]
      | some extended => ranges.dropLast ++ [extended]

def addRemainingRanges (remaining dest : List (CRange E)) : List (CRange E) :=
  remaining.foldl (fun dest range => appendOrExtend dest (some range)) dest

def unionLoop : ℕ → List (CRange E) → List (CRange E) → List (CRange E) → List (CRange E)
  | fuel + 1, this :: these, other :: others, new =>
    if other.fEndsAfter this then
      unionLoop fuel these (other :: others) (appendOrExtend new (this.prngDifferenceLeft other))
    else
      unionLoop fuel (this :: these) others (appendOrExtend new (other.prngDifferenceLeft this))
  | _, these, others, new => addRemainingRanges others (addRemainingRanges these new)

def intersectLoop : ℕ → List (CRange E) → List (CRange E) → List (CRange E) → List (CRange E)
  | fuel + 1, this :: these, other :: others, new =>
    if other.fEndsAfter this then
      intersectLoop fuel these (other :: others) (new ++ (this.prngIntersect other).toList)
    else
      intersectLoop fuel (this :: these) others (new ++ (other.prngIntersect this).toList)
  | _, _, _, new => new

/-- The part of the first range left of the second one, and as residual what is right of it.
A first range past the second one is not cut and leaves no residual. -/
def prangeDiffWithRightResidual (first second : CRange E) : Option (CRange E) × Option (CRange E) :=
  if second.fDisjointLeft first then (none, none)
  else
    (if first.contains second then first.prngDifferenceLeft second else none,
      first.prngDifferenceRight second)

def differenceLoop : ℕ → List (CRange E) → List (CRange E) → List (CRange E) →
    Option (CRange E) → List (CRange E)
  | fuel + 1, first :: these, other :: others, new, residual =>
    let this := residual.getD first
    if other.fEndsWithOrAfter this then
      differenceLoop fuel these (other :: others)
        (appendOrExtend new (this.prngDifferenceLeft other)) none
    else
      let parts := prangeDiffWithRightResidual this other
      differenceLoop fuel (first :: these) others (appendOrExtend new parts.1) parts.2
  | _, these, _, new, none => addRemainingRanges these new
  | _, these, _, new, some residual =>
    addRemainingRanges these.tail (appendOrExtend new (some residual))

end Loops

section Ends
variable {α : Type} {fuel : ℕ} {these others : List α}

theorem nil_of_stuck (enough : these.length + others.length ≤ fuel)
    (stuck : ∀ n this rest other others', fuel = n + 1 → these = this :: rest → others = other ::
      others' → False) : these = [] ∨ others = [] := by
  cases these with
  | nil => exact .inl rfl
  | cons this rest =>
    cases others with
    | nil => exact .inr rfl
    | cons other others' =>
      simp only [List.length_cons] at enough
      exact (stuck (fuel - 1) this rest other others' (by omega) rfl rfl).elim

end Ends

section Appending
variable {E : Type} [LinearOrder E] {ranges : List (CRange E)} {piece : Option (CRange E)}

theorem appendOrExtend_joined (ordered : Ordered ranges) (proper : Ordered piece.toList)
    (before : Before ranges piece.toList) :
    Joined ranges piece.toList (appendOrExtend ranges piece) := by
  cases piece with
  | none => exact joined_nil ordered
  | some range =>
    have appended : Joined ranges [range] (ranges ++ [range]) :=
      joined_append ordered proper before
    rcases List.eq_nil_or_concat ranges with rfl | ⟨init, last, rfl⟩
    · exact appended
    rw [List.concat_eq_append] at ordered before appended ⊢
    simp only [appendOrExtend, List.getLast?_concat, List.dropLast_concat]
    cases met : last.prngExtend range with
    | none => exact appended
    | some extended =>
      have apart : upper last ≤ lower range :=
        before_singleton.mp before last (List.mem_append_right _ (List.mem_singleton_self last))
      obtain ⟨starts, ends, meets⟩ := CRange.prngExtend_some apart met
      exact joined_extend ordered (ordered_singleton.mp proper) starts ends meets

theorem addRemainingRanges_joined {remaining : List (CRange E)} (ordered : Ordered ranges)
    (later : Ordered remaining) (before : Before ranges remaining) :
    Joined ranges remaining (addRemainingRanges remaining ranges) := by
  induction remaining generalizing ranges with
  | nil => exact joined_nil ordered
  | cons range remaining ih =>
    obtain ⟨proper, first, rest⟩ := ordered_cons.mp later
    obtain ⟨beforeRange, beforeRest⟩ := before_cons.mp before
    have step : Joined ranges [range] (appendOrExtend ranges (some range)) :=
      @appendOrExtend_joined E _ ranges (some range) ordered (ordered_singleton.mpr proper)
        beforeRange
    exact step.trans (ih step.ordered rest (step.before beforeRest first))

end Appending

section Union
variable {E : Type} [LinearOrder E] {new these others : List (CRange E)} {this other : CRange E}

/-- What the loop of the union keeps: all it has built lies before what is left. -/
structure Merging (new these others : List (CRange E)) : Prop where
  built : Ordered new
  orderedThese : Ordered these
  orderedOthers : Ordered others
  beforeThese : Before new these
  beforeOthers : Before new others

theorem Merging.symm (merging : Merging new these others) : Merging new others these :=
  ⟨merging.built, merging.orderedOthers, merging.orderedThese, merging.beforeOthers,
    merging.beforeThese⟩

theorem Merging.step (merging : Merging new (this :: these) (other :: others))
    (ends : upper this ≤ upper other) :
    Merging (appendOrExtend new (this.prngDifferenceLeft other)) these (other :: others) ∧
      ∀ x, (Covers (appendOrExtend new (this.prngDifferenceLeft other)) x ∨ Covers these x ∨
        Covers (other :: others) x) ↔
        Covers new x ∨ Covers (this :: these) x ∨ Covers (other :: others) x := by
  obtain ⟨properThis, apartThis, restThese⟩ := ordered_cons.mp merging.orderedThese
  obtain ⟨properOther, apartOther, restOthers⟩ := ordered_cons.mp merging.orderedOthers
  obtain ⟨beforeThis, beforeThese⟩ := before_cons.mp merging.beforeThese
  have piece := @CRange.prngDifferenceLeft_piece E _ this other properThis
  have joined := appendOrExtend_joined merging.built piece.ordered
    (piece.after (before_singleton.mp beforeThis))
  have beforeRest : Before (this.prngDifferenceLeft other).toList these :=
    piece.before fun t listed =>
      (min_le_left _ _).trans (apartThis this (List.mem_singleton_self this) t listed)
  have beforeOther : Before (this.prngDifferenceLeft other).toList (other :: others) := by
    refine piece.before fun t listed => (min_le_right _ _).trans ?_
    rcases List.mem_cons.mp listed with rfl | later
    · exact le_rfl
    · exact properOther.le.trans (apartOther other (List.mem_singleton_self other) t later)
  refine ⟨⟨joined.ordered, restThese, merging.orderedOthers,
    joined.before beforeThese beforeRest,
    joined.before merging.beforeOthers beforeOther⟩, fun x => ?_⟩
  rw [joined.covers, piece.covers, covers_cons, covers_cons, lt_min_iff]
  constructor
  · rintro ((built | ⟨above, below, -⟩) | later | rest)
    · exact .inl built
    · exact .inr (.inl (.inl ⟨above, below⟩))
    · exact .inr (.inl (.inr later))
    · exact .inr (.inr rest)
  · rintro (built | (⟨above, below⟩ | later) | rest)
    · exact .inl (.inl built)
    · rcases lt_or_ge x (lower other) with outside | inside
      · exact .inl (.inr ⟨above, below, outside⟩)
      · exact .inr (.inr (.inl ⟨inside, below.trans_le ends⟩))
    · exact .inr (.inl later)
    · exact .inr (.inr rest)

theorem Merging.finish (merging : Merging new these others) (done : these = [] ∨ others = []) :
    Ordered (addRemainingRanges others (addRemainingRanges these new)) ∧
      ∀ x, Covers (addRemainingRanges others (addRemainingRanges these new)) x ↔
        Covers new x ∨ Covers these x ∨ Covers others x := by
  rcases done with rfl | rfl
  · have joined :=
      addRemainingRanges_joined merging.built merging.orderedOthers merging.beforeOthers
    refine ⟨joined.ordered, fun x => ?_⟩
    simpa [addRemainingRanges] using joined.covers x
  · have joined :=
      addRemainingRanges_joined merging.built merging.orderedThese merging.beforeThese
    refine ⟨joined.ordered, fun x => ?_⟩
    simpa [addRemainingRanges] using joined.covers x

theorem unionLoop_spec {fuel : ℕ} (enough : these.length + others.length ≤ fuel)
    (merging : Merging new these others) :
    Ordered (unionLoop fuel these others new) ∧
      ∀ x, Covers (unionLoop fuel these others new) x ↔
        Covers new x ∨ Covers these x ∨ Covers others x := by
  fun_induction unionLoop fuel these others new with
  | case1 fuel this these other others new after ih =>
    obtain ⟨next, same⟩ := merging.step (CRange.le_of_fEndsAfter after)
    simp only [List.length_cons] at enough ih
    obtain ⟨ordered, covers⟩ := ih (by omega) next
    exact ⟨ordered, fun x => (covers x).trans (same x)⟩
  | case2 fuel this these other others new notAfter ih =>
    obtain ⟨next, same⟩ := merging.symm.step (CRange.le_of_not_fEndsAfter notAfter)
    simp only [List.length_cons] at enough ih
    obtain ⟨ordered, covers⟩ := ih (by omega) next.symm
    refine ⟨ordered, fun x => (covers x).trans ?_⟩
    calc Covers (appendOrExtend new (other.prngDifferenceLeft this)) x ∨
          Covers (this :: these) x ∨ Covers others x
        ↔ Covers new x ∨ Covers (other :: others) x ∨ Covers (this :: these) x :=
          (or_congr_right or_comm).trans (same x)
      _ ↔ _ := or_congr_right or_comm
  | case3 fuel these others new stuck => exact merging.finish (nil_of_stuck enough stuck)

end Union

section Intersection
variable {E : Type} [LinearOrder E] {new these others : List (CRange E)} {this other : CRange E}

/-- What the loop of the intersection keeps: all it has built lies before whatever the
ranges that are left share. -/
structure Sharing (new these others : List (CRange E)) : Prop where
  built : Ordered new
  orderedThese : Ordered these
  orderedOthers : Ordered others
  before : ∀ s ∈ new, ∀ t ∈ these, ∀ u ∈ others, upper s ≤ max (lower t) (lower u)

theorem Sharing.symm (sharing : Sharing new these others) : Sharing new others these where
  built := sharing.built
  orderedThese := sharing.orderedOthers
  orderedOthers := sharing.orderedThese
  before s built u right t left := by
    rw [max_comm]
    exact sharing.before s built t left u right

theorem Sharing.step (sharing : Sharing new (this :: these) (other :: others))
    (ends : upper this ≤ upper other) :
    Sharing (new ++ (this.prngIntersect other).toList) these (other :: others) ∧
      ∀ x, (Covers (new ++ (this.prngIntersect other).toList) x ∨
        (Covers these x ∧ Covers (other :: others) x)) ↔
        Covers new x ∨ (Covers (this :: these) x ∧ Covers (other :: others) x) := by
  obtain ⟨properThis, apartThis, restThese⟩ := ordered_cons.mp sharing.orderedThese
  obtain ⟨properOther, apartOther, -⟩ := ordered_cons.mp sharing.orderedOthers
  have piece := CRange.prngIntersect_piece properThis properOther
  have joined := joined_append sharing.built piece.ordered (piece.after fun s built =>
    sharing.before s built this List.mem_cons_self other List.mem_cons_self)
  constructor
  · refine ⟨joined.ordered, restThese, sharing.orderedOthers, ?_⟩
    intro s listed t left u right
    rcases List.mem_append.mp listed with built | shared
    · exact sharing.before s built t (List.mem_cons_of_mem this left) u right
    · calc upper s ≤ upper this := (piece.within s shared).2.trans (min_le_left _ _)
        _ ≤ lower t := apartThis this (List.mem_singleton_self this) t left
        _ ≤ max (lower t) (lower u) := le_max_left _ _
  · intro x
    have beyond : x < upper this → ¬ Covers others x := fun below =>
      not_covers_of_before apartOther (below.trans_le ends)
    rw [covers_append, piece.covers, covers_cons, covers_cons, max_le_iff, lt_min_iff]
    constructor
    · rintro ((built | ⟨⟨aboveThis, aboveOther⟩, belowThis, belowOther⟩) | ⟨later, rest⟩)
      · exact .inl built
      · exact .inr ⟨.inl ⟨aboveThis, belowThis⟩, .inl ⟨aboveOther, belowOther⟩⟩
      · exact .inr ⟨.inr later, rest⟩
    · rintro (built | ⟨⟨aboveThis, belowThis⟩ | later, ⟨aboveOther, belowOther⟩ | rest⟩)
      · exact .inl (.inl built)
      · exact .inl (.inr ⟨⟨aboveThis, aboveOther⟩, belowThis, belowOther⟩)
      · exact absurd rest (beyond belowThis)
      · exact .inr ⟨later, .inl ⟨aboveOther, belowOther⟩⟩
      · exact .inr ⟨later, .inr rest⟩

theorem intersectLoop_spec {fuel : ℕ} (enough : these.length + others.length ≤ fuel)
    (sharing : Sharing new these others) :
    Ordered (intersectLoop fuel these others new) ∧
      ∀ x, Covers (intersectLoop fuel these others new) x ↔
        Covers new x ∨ (Covers these x ∧ Covers others x) := by
  fun_induction intersectLoop fuel these others new with
  | case1 fuel this these other others new after ih =>
    obtain ⟨next, same⟩ := sharing.step (CRange.le_of_fEndsAfter after)
    simp only [List.length_cons] at enough ih
    obtain ⟨ordered, covers⟩ := ih (by omega) next
    exact ⟨ordered, fun x => (covers x).trans (same x)⟩
  | case2 fuel this these other others new notAfter ih =>
    obtain ⟨next, same⟩ := sharing.symm.step (CRange.le_of_not_fEndsAfter notAfter)
    simp only [List.length_cons] at enough ih
    obtain ⟨ordered, covers⟩ := ih (by omega) next.symm
    refine ⟨ordered, fun x => (covers x).trans ?_⟩
    calc Covers (new ++ (other.prngIntersect this).toList) x ∨
          (Covers (this :: these) x ∧ Covers others x)
        ↔ Covers new x ∨ (Covers (other :: others) x ∧ Covers (this :: these) x) :=
          (or_congr_right and_comm).trans (same x)
      _ ↔ _ := or_congr_right and_comm
  | case3 fuel these others new stuck =>
    rcases nil_of_stuck enough stuck with rfl | rfl
    · exact ⟨sharing.built, fun x => by simp⟩
    · exact ⟨sharing.built, fun x => by simp⟩

end Intersection

section Difference
variable {E : Type} {new these others : List (CRange E)} {first this other : CRange E}
  {residual : Option (CRange E)}

def current (these : List (CRange E)) : Option (CRange E) → List (CRange E)
  | none => these
  | some residual => residual :: these.tail

theorem current_cons : current (first :: these) residual = residual.getD first :: these := by
  cases residual <;> rfl

variable [LinearOrder E]

/-- What the loop of the difference keeps. A residual starts where the range it was cut by
ended, so no later range lies left of it. -/
structure Cutting (new these others : List (CRange E)) (residual : Option (CRange E)) :
    Prop where
  built : Ordered new
  orderedCurrent : Ordered (current these residual)
  orderedOthers : Ordered others
  before : Before new (current these residual)
  residualOfFirst : these = [] → residual = none
  cutBefore : ∀ r ∈ residual, ∀ t ∈ others, lower r ≤ lower t

variable (cutting : Cutting new (first :: these) (other :: others) residual)

include cutting

theorem Cutting.take (current_eq : residual.getD first = this) (ends : upper this ≤ upper other) :
    Cutting (appendOrExtend new (this.prngDifferenceLeft other)) these (other :: others) none ∧
      ∀ x, (Covers (appendOrExtend new (this.prngDifferenceLeft other)) x ∨
        (Covers these x ∧ ¬ Covers (other :: others) x)) ↔
        Covers new x ∨ (Covers (this :: these) x ∧ ¬ Covers (other :: others) x) := by
  have ordered := cutting.orderedCurrent
  have before := cutting.before
  rw [current_cons, current_eq] at ordered before
  obtain ⟨properThis, apartThis, restThese⟩ := ordered_cons.mp ordered
  obtain ⟨beforeThis, beforeThese⟩ := before_cons.mp before
  obtain ⟨-, apartOther, -⟩ := ordered_cons.mp cutting.orderedOthers
  have piece := @CRange.prngDifferenceLeft_piece E _ this other properThis
  have joined := appendOrExtend_joined cutting.built piece.ordered
    (piece.after (before_singleton.mp beforeThis))
  have beforeRest : Before (this.prngDifferenceLeft other).toList these :=
    piece.before fun t listed =>
      (min_le_left _ _).trans (apartThis this (List.mem_singleton_self this) t listed)
  constructor
  · refine ⟨joined.ordered, restThese, cutting.orderedOthers,
      joined.before beforeThese beforeRest, fun _ => rfl, ?_⟩
    intro r none
    exact absurd none (Option.not_mem_none r)
  · intro x
    have beyond : x < upper this → ¬ Covers others x := fun below =>
      not_covers_of_before apartOther (below.trans_le ends)
    rw [joined.covers, piece.covers, covers_cons, covers_cons, lt_min_iff]
    constructor
    · rintro ((built | ⟨above, below, outside⟩) | ⟨later, notOther⟩)
      · exact .inl built
      · refine .inr ⟨.inl ⟨above, below⟩, ?_⟩
        rintro (⟨inside, -⟩ | rest)
        · exact inside.not_gt outside
        · exact beyond below rest
      · exact .inr ⟨.inr later, notOther⟩
    · rintro (built | ⟨⟨above, below⟩ | later, notOther⟩)
      · exact .inl (.inl built)
      · refine .inl (.inr ⟨above, below, not_le.mp fun inside => ?_⟩)
        exact notOther (.inl ⟨inside, below.trans_le ends⟩)
      · exact .inr ⟨later, notOther⟩

omit cutting in
theorem cutLeft_piece (properThis : lower this < upper this) (proper : lower other < upper other)
    (ends : upper other < upper this) :
    Piece (if this.contains other then this.prngDifferenceLeft other else none).toList
      (lower this) (lower other) := by
  have inside : lower other < upper this := proper.trans ends
  split
  · have piece := @CRange.prngDifferenceLeft_piece E _ this other properThis
    rw [min_eq_right inside.le] at piece
    exact piece
  · rename_i outside
    apply piece_nil
    by_contra starts
    exact outside (CRange.contains_iff.mpr ⟨(not_le.mp starts).le, ends.le⟩)

theorem Cutting.pass (current_eq : residual.getD first = this) (apart : upper other ≤ lower this) :
    Cutting new (first :: these) others none ∧ first = this ∧
      ∀ x, (Covers new x ∨ (Covers (this :: these) x ∧ ¬ Covers others x)) ↔
        Covers new x ∨ (Covers (this :: these) x ∧ ¬ Covers (other :: others) x) := by
  obtain ⟨properOther, -, restOthers⟩ := ordered_cons.mp cutting.orderedOthers
  cases residual with
  | some r =>
    cases current_eq
    have starts := cutting.cutBefore r rfl other List.mem_cons_self
    exact absurd (properOther.trans_le (apart.trans starts)) (lt_irrefl _)
  | none =>
    cases current_eq
    obtain ⟨properThis, apartThis, -⟩ := ordered_cons.mp cutting.orderedCurrent
    refine ⟨⟨cutting.built, cutting.orderedCurrent, restOthers, cutting.before,
      fun _ => rfl, ?_⟩, rfl, ?_⟩
    · intro r none
      exact absurd none (Option.not_mem_none r)
    · intro x
      have past : Covers (first :: these) x → ¬ (lower other ≤ x ∧ x < upper other) := by
        rintro ⟨t, listed, above, -⟩ ⟨-, below⟩
        have starts : lower first ≤ lower t := by
          rcases List.mem_cons.mp listed with rfl | later
          · exact le_rfl
          · exact properThis.le.trans (apartThis first (List.mem_singleton_self first) t later)
        exact (below.trans_le (apart.trans starts)).not_ge above
      rw [covers_cons (s := other), not_or]
      exact or_congr_right (and_congr_right fun covered => (and_iff_right (past covered)).symm)

theorem Cutting.cut {left rest : Option (CRange E)} (current_eq : residual.getD first = this)
    (meets : lower this < upper other) (ends : upper other < upper this)
    (cutLeft : Piece left.toList (lower this) (lower other))
    (cutRight : Piece rest.toList (upper other) (upper this)) :
    Cutting (appendOrExtend new left) (first :: these) others rest ∧
      ∀ x, (Covers (appendOrExtend new left) x ∨
        (Covers (current (first :: these) rest) x ∧ ¬ Covers others x)) ↔
        Covers new x ∨ (Covers (this :: these) x ∧ ¬ Covers (other :: others) x) := by
  have ordered := cutting.orderedCurrent
  have before := cutting.before
  rw [current_cons, current_eq] at ordered before
  obtain ⟨-, apartThis, restThese⟩ := ordered_cons.mp ordered
  obtain ⟨beforeThis, beforeThese⟩ := before_cons.mp before
  obtain ⟨properOther, apartOther, restOthers⟩ := ordered_cons.mp cutting.orderedOthers
  obtain ⟨remainder, rfl, starts, finishes⟩ := cutRight.exists_eq ends
  have apartRest : Before [remainder] these := by
    intro s only t later
    rw [List.mem_singleton.mp only, finishes]
    exact apartThis this (List.mem_singleton_self this) t later
  have joined := appendOrExtend_joined cutting.built cutLeft.ordered
    (cutLeft.after (before_singleton.mp beforeThis))
  rw [current_cons, Option.getD_some]
  constructor
  · refine ⟨joined.ordered, ?_, restOthers, ?_, fun none => absurd none (List.cons_ne_nil _ _), ?_⟩
    · exact ordered_cons.mpr ⟨by rw [starts, finishes]; exact ends, apartRest, restThese⟩
    · refine joined.before (before_cons.mpr ⟨?_, beforeThese⟩) ?_
      · refine before_singleton.mpr fun s built => ?_
        rw [starts]
        exact (before_singleton.mp beforeThis s built).trans meets.le
      · refine cutLeft.before fun t listed => ?_
        rcases List.mem_cons.mp listed with rfl | later
        · rw [starts]
          exact properOther.le
        · exact (properOther.trans ends).le.trans
            (apartThis this (List.mem_singleton_self this) t later)
    · rintro r ⟨⟩ t later
      rw [starts]
      exact apartOther other (List.mem_singleton_self other) t later
  · intro x
    have beyond : x < upper other → ¬ Covers others x := not_covers_of_before apartOther
    have later : Covers these x → upper this ≤ x := by
      rintro ⟨t, listed, above, -⟩
      exact (apartThis this (List.mem_singleton_self this) t listed).trans above
    rw [joined.covers, cutLeft.covers, covers_cons, covers_cons, covers_cons, starts, finishes]
    constructor
    · rintro ((built | ⟨above, outside⟩) | ⟨⟨above, below⟩ | covered, notOthers⟩)
      · exact .inl built
      · refine .inr ⟨.inl ⟨above, outside.trans (properOther.trans ends)⟩, ?_⟩
        rintro (⟨inside, -⟩ | rest)
        · exact inside.not_gt outside
        · exact beyond (outside.trans properOther) rest
      · refine .inr ⟨.inl ⟨meets.le.trans above, below⟩, ?_⟩
        rintro (⟨-, inside⟩ | rest)
        · exact above.not_gt inside
        · exact notOthers rest
      · refine .inr ⟨.inr covered, ?_⟩
        rintro (⟨-, inside⟩ | rest)
        · exact (ends.le.trans (later covered)).not_gt inside
        · exact notOthers rest
    · rintro (built | ⟨⟨above, below⟩ | covered, notOther⟩)
      · exact .inl (.inl built)
      · rcases lt_or_ge x (lower other) with outside | inside
        · exact .inl (.inr ⟨above, outside⟩)
        · have past : upper other ≤ x := not_lt.mp fun within => notOther (.inl ⟨inside, within⟩)
          exact .inr ⟨.inl ⟨past, below⟩, fun rest => notOther (.inr rest)⟩
      · exact .inr ⟨.inr covered, fun rest => notOther (.inr rest)⟩

omit cutting

theorem Cutting.finish (cutting : Cutting new these others residual)
    (done : these = [] ∨ others = []) :
    Ordered (addRemainingRanges (current these residual) new) ∧
      ∀ x, Covers (addRemainingRanges (current these residual) new) x ↔
        Covers new x ∨ (Covers (current these residual) x ∧ ¬ Covers others x) := by
  have joined := addRemainingRanges_joined cutting.built cutting.orderedCurrent cutting.before
  refine ⟨joined.ordered, fun x => ?_⟩
  rw [joined.covers]
  rcases done with rfl | rfl
  · rw [cutting.residualOfFirst rfl]
    simp [current]
  · simp

theorem differenceLoop_spec {fuel : ℕ} (enough : these.length + others.length ≤ fuel)
    (cutting : Cutting new these others residual) :
    Ordered (differenceLoop fuel these others new residual) ∧
      ∀ x, Covers (differenceLoop fuel these others new residual) x ↔
        Covers new x ∨ (Covers (current these residual) x ∧ ¬ Covers others x) := by
  fun_induction differenceLoop fuel these others new residual with
  | case1 fuel first these other others new residual this reaches ih =>
    obtain ⟨next, same⟩ := cutting.take rfl (CRange.fEndsWithOrAfter_iff.mp reaches)
    simp only [List.length_cons] at enough ih
    obtain ⟨ordered, covers⟩ := ih (by omega) next
    rw [current_cons]
    exact ⟨ordered, fun x => (covers x).trans (same x)⟩
  | case2 fuel first these other others new residual this short parts ih =>
    rw [CRange.fEndsWithOrAfter_iff, not_le] at short
    obtain ⟨properThis, -, -⟩ := ordered_cons.mp (current_cons ▸ cutting.orderedCurrent)
    obtain ⟨properOther, -, -⟩ := ordered_cons.mp cutting.orderedOthers
    have step : Cutting (appendOrExtend new parts.1) (first :: these) others parts.2 ∧
        ∀ x, (Covers (appendOrExtend new parts.1) x ∨
          (Covers (current (first :: these) parts.2) x ∧ ¬ Covers others x)) ↔
          Covers new x ∨ (Covers (this :: these) x ∧ ¬ Covers (other :: others) x) := by
      simp only [parts, prangeDiffWithRightResidual]
      split
      · rename_i apart
        obtain ⟨next, same, covers⟩ := cutting.pass rfl (CRange.fDisjointLeft_iff.mp apart)
        rw [← same] at covers
        exact ⟨next, same ▸ covers⟩
      · rename_i meets
        rw [CRange.fDisjointLeft_iff, not_le] at meets
        have rest := @CRange.prngDifferenceRight_piece E _ this other properThis
        rw [max_eq_right meets.le] at rest
        exact cutting.cut rfl meets short (cutLeft_piece properThis properOther short) rest
    obtain ⟨next, same⟩ := step
    simp only [List.length_cons] at enough ih
    obtain ⟨ordered, covers⟩ := ih (by omega) next
    rw [current_cons]
    exact ⟨ordered, fun x => (covers x).trans (same x)⟩
  | case3 fuel these others new stuck => exact cutting.finish (nil_of_stuck enough stuck)
  | case4 fuel these others new residual stuck =>
    exact cutting.finish (nil_of_stuck enough stuck)

end Difference

end Constraints
