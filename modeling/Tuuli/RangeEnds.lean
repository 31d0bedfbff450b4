import Tuuli.RangeLists

/-!
The ends of the ranges that the loops build are ends of the ranges they are given, so a
comparator that is right about these is right throughout: the loops then build what they build
with the order of the datums.
-/
namespace Constraints

section Ends
variable {E : Type} {ends : Option E → Prop} {this range : CRange E} {ranges others : List (CRange E)}

def CRange.EndsIn (ends : Option E → Prop) (range : CRange E) : Prop :=
  ends range.left ∧ ends range.right

def AllEnds (ends : Option E → Prop) (ranges : List (CRange E)) : Prop :=
  ∀ range ∈ ranges, range.EndsIn ends

theorem allEnds_cons :
    AllEnds ends (range :: ranges) ↔ range.EndsIn ends ∧ AllEnds ends ranges :=
  List.forall_mem_cons

theorem allEnds_append :
    AllEnds ends (ranges ++ others) ↔ AllEnds ends ranges ∧ AllEnds ends others :=
  List.forall_mem_append

theorem allEnds_nil : AllEnds ends [] :=
  fun _ listed => absurd listed List.not_mem_nil

theorem allEnds_none : AllEnds ends (none : Option (CRange E)).toList := allEnds_nil

theorem allEnds_some : AllEnds ends (some range).toList ↔ range.EndsIn ends :=
  List.forall_mem_singleton

variable [CComparator E] (this_ends : this.EndsIn ends) (range_ends : range.EndsIn ends)

include this_ends range_ends

theorem prngIntersect_ends : AllEnds ends (this.prngIntersect range).toList := by
  unfold CRange.prngIntersect
  split_ifs
  · exact allEnds_some.mpr range_ends
  · exact allEnds_some.mpr this_ends
  · exact allEnds_some.mpr ⟨range_ends.1, this_ends.2⟩
  · exact allEnds_some.mpr ⟨this_ends.1, range_ends.2⟩
  · exact allEnds_none

theorem prngDifferenceLeft_ends : AllEnds ends (this.prngDifferenceLeft range).toList := by
  unfold CRange.prngDifferenceLeft
  split_ifs
  · exact allEnds_some.mpr this_ends
  · exact allEnds_some.mpr ⟨this_ends.1, range_ends.1⟩
  · exact allEnds_none

theorem prngDifferenceRight_ends : AllEnds ends (this.prngDifferenceRight range).toList := by
  unfold CRange.prngDifferenceRight
  split_ifs
  · exact allEnds_some.mpr this_ends
  · exact allEnds_some.mpr ⟨range_ends.2, this_ends.2⟩
  · exact allEnds_none

omit this_ends range_ends

theorem appendOrExtend_ends {piece : Option (CRange E)} (built : AllEnds ends ranges)
    (new : AllEnds ends piece.toList) : AllEnds ends (appendOrExtend ranges piece) := by
  cases piece with
  | none => exact built
  | some range =>
    rcases List.eq_nil_or_concat ranges with rfl | ⟨init, last, rfl⟩
    · exact new
    rw [List.concat_eq_append] at built ⊢
    obtain ⟨before, atLast⟩ := allEnds_append.mp built
    simp only [appendOrExtend, List.getLast?_concat, List.dropLast_concat, CRange.prngExtend]
    split_ifs
    · refine allEnds_append.mpr ⟨before, allEnds_some.mpr ⟨?_, (allEnds_some.mp new).2⟩⟩
      exact (allEnds_some.mp atLast).1
    · exact allEnds_append.mpr ⟨built, new⟩

theorem addRemainingRanges_ends (remaining : AllEnds ends others) (built : AllEnds ends ranges) :
    AllEnds ends (addRemainingRanges others ranges) := by
  induction others generalizing ranges with
  | nil => exact built
  | cons range others ih =>
    obtain ⟨first, rest⟩ := allEnds_cons.mp remaining
    exact ih rest (appendOrExtend_ends built (allEnds_some.mpr first))

variable {fuel : ℕ} {these new : List (CRange E)} (endsThese : AllEnds ends these)
  (endsOthers : AllEnds ends others) (endsNew : AllEnds ends new)

include endsThese endsOthers endsNew

theorem unionLoop_ends : AllEnds ends (unionLoop fuel these others new) := by
  fun_induction unionLoop fuel these others new with
  | case1 new fuel this these other others later ih =>
    obtain ⟨first, rest⟩ := allEnds_cons.mp endsThese
    obtain ⟨second, -⟩ := allEnds_cons.mp endsOthers
    exact ih rest endsOthers (appendOrExtend_ends endsNew (prngDifferenceLeft_ends first second))
  | case2 new fuel this these other others later ih =>
    obtain ⟨first, -⟩ := allEnds_cons.mp endsThese
    obtain ⟨second, rest⟩ := allEnds_cons.mp endsOthers
    exact ih endsThese rest (appendOrExtend_ends endsNew (prngDifferenceLeft_ends second first))
  | case3 => exact addRemainingRanges_ends endsOthers (addRemainingRanges_ends endsThese endsNew)

theorem intersectLoop_ends : AllEnds ends (intersectLoop fuel these others new) := by
  fun_induction intersectLoop fuel these others new with
  | case1 new fuel this these other others later ih =>
    obtain ⟨first, rest⟩ := allEnds_cons.mp endsThese
    obtain ⟨second, -⟩ := allEnds_cons.mp endsOthers
    exact ih rest endsOthers (allEnds_append.mpr ⟨endsNew, prngIntersect_ends first second⟩)
  | case2 new fuel this these other others later ih =>
    obtain ⟨first, -⟩ := allEnds_cons.mp endsThese
    obtain ⟨second, rest⟩ := allEnds_cons.mp endsOthers
    exact ih endsThese rest (allEnds_append.mpr ⟨endsNew, prngIntersect_ends second first⟩)
  | case3 => exact endsNew

omit endsThese endsOthers endsNew

omit [CComparator E] in
theorem getD_ends {first : CRange E} {residual : Option (CRange E)} (inFirst : first.EndsIn ends)
    (inResidual : AllEnds ends residual.toList) : (residual.getD first).EndsIn ends := by
  cases residual with
  | none => exact inFirst
  | some r => exact allEnds_some.mp inResidual

theorem prangeDiffWithRightResidual_ends {first second : CRange E} (inFirst : first.EndsIn ends)
    (inSecond : second.EndsIn ends) :
    AllEnds ends (prangeDiffWithRightResidual first second).1.toList ∧
      AllEnds ends (prangeDiffWithRightResidual first second).2.toList := by
  unfold prangeDiffWithRightResidual
  split_ifs
  · exact ⟨allEnds_none, allEnds_none⟩
  · exact ⟨prngDifferenceLeft_ends inFirst inSecond, prngDifferenceRight_ends inFirst inSecond⟩
  · exact ⟨allEnds_none, prngDifferenceRight_ends inFirst inSecond⟩

include endsThese endsOthers endsNew

theorem differenceLoop_ends {residual : Option (CRange E)}
    (endsResidual : AllEnds ends residual.toList) :
    AllEnds ends (differenceLoop fuel these others new residual) := by
  fun_induction differenceLoop fuel these others new residual with
  | case1 new residual fuel first these other others this later ih =>
    obtain ⟨inFirst, rest⟩ := allEnds_cons.mp endsThese
    obtain ⟨second, -⟩ := allEnds_cons.mp endsOthers
    refine ih rest endsOthers (appendOrExtend_ends endsNew ?_) allEnds_none
    exact prngDifferenceLeft_ends (getD_ends inFirst endsResidual) second
  | case2 new residual fuel first these other others this later parts ih =>
    obtain ⟨inFirst, -⟩ := allEnds_cons.mp endsThese
    obtain ⟨second, rest⟩ := allEnds_cons.mp endsOthers
    have pieces := prangeDiffWithRightResidual_ends (getD_ends inFirst endsResidual) second
    exact ih endsThese rest (appendOrExtend_ends endsNew pieces.1) pieces.2
  | case3 => exact addRemainingRanges_ends endsThese endsNew
  | case4 =>
    refine addRemainingRanges_ends (fun range listed => ?_) (appendOrExtend_ends endsNew endsResidual)
    exact endsThese range (List.mem_of_mem_tail listed)

end Ends

section Agreement
variable {E : Type}

/-- The comparator compares the known datums as their order does. -/
def CComparator.AgreesOn [LinearOrder E] (comp : CComparator E) (known : E → Prop) : Prop :=
  ∀ a b, known a → known b →
    @CComparator.equals E comp a b = @CComparator.equals E ofOrder a b ∧
      @CComparator.isLessThan E comp a b = @CComparator.isLessThan E ofOrder a b

def KnownEnd (known : E → Prop) (bound : Option E) : Prop :=
  ∀ d ∈ bound, known d

variable [LinearOrder E] {comp : CComparator E} {known : E → Prop} {this range : CRange E}
  (agrees : comp.AgreesOn known)

namespace CRange

section Operations
variable (ends : this.EndsIn (KnownEnd known)) (others : range.EndsIn (KnownEnd known))

include agrees ends others

theorem fDisjointLeft_agrees :
    @fDisjointLeft E comp this range = @fDisjointLeft E CComparator.ofOrder this range := by
  unfold fDisjointLeft
  split
  · rename_i a b isRight isLeft
    obtain ⟨eq, lt⟩ := agrees a b (ends.2 a isRight) (others.1 b isLeft)
    rw [eq, lt]
  · rfl

theorem fStartsBefore_agrees :
    @fStartsBefore E comp this range = @fStartsBefore E CComparator.ofOrder this range := by
  unfold fStartsBefore
  split
  · rfl
  · rfl
  · rename_i b a isOther isLeft
    have lt := (agrees a b (ends.1 a isLeft) (others.1 b isOther)).2
    have gt := (agrees b a (others.1 b isOther) (ends.1 a isLeft)).2
    unfold CComparator.isGreaterThan
    rw [lt, gt]

theorem fStartsWithOrBefore_agrees : @fStartsWithOrBefore E comp this range =
    @fStartsWithOrBefore E CComparator.ofOrder this range := by
  unfold fStartsWithOrBefore
  rw [fStartsBefore_agrees agrees ends others]
  split
  · rfl
  · split
    · rfl
    · rename_i b a isOther isLeft
      rw [(agrees a b (ends.1 a isLeft) (others.1 b isOther)).1]
    · rfl

theorem fEndsAfter_agrees :
    @fEndsAfter E comp this range = @fEndsAfter E CComparator.ofOrder this range := by
  unfold fEndsAfter
  split
  · rfl
  · rfl
  · rename_i b a isOther isRight
    have lt := (agrees a b (ends.2 a isRight) (others.2 b isOther)).2
    have gt := (agrees b a (others.2 b isOther) (ends.2 a isRight)).2
    unfold CComparator.isGreaterThan
    rw [lt, gt]

theorem fEndsWithOrAfter_agrees : @fEndsWithOrAfter E comp this range =
    @fEndsWithOrAfter E CComparator.ofOrder this range := by
  unfold fEndsWithOrAfter
  rw [fEndsAfter_agrees agrees ends others]
  split
  · rfl
  · split
    · rfl
    · rename_i b a isOther isRight
      rw [(agrees a b (ends.2 a isRight) (others.2 b isOther)).1]
    · rfl

theorem contains_agrees :
    @contains E comp this range = @contains E CComparator.ofOrder this range := by
  unfold contains
  rw [fStartsWithOrBefore_agrees agrees ends others, fEndsWithOrAfter_agrees agrees ends others]

theorem prngDifferenceLeft_agrees : @prngDifferenceLeft E comp this range =
    @prngDifferenceLeft E CComparator.ofOrder this range := by
  unfold prngDifferenceLeft
  rw [fDisjointLeft_agrees agrees ends others, fStartsBefore_agrees agrees ends others]

theorem prngDifferenceRight_agrees : @prngDifferenceRight E comp this range =
    @prngDifferenceRight E CComparator.ofOrder this range := by
  unfold prngDifferenceRight
  rw [fDisjointLeft_agrees agrees others ends, fEndsAfter_agrees agrees ends others]

theorem prngIntersect_agrees : @prngIntersect E comp this range =
    @prngIntersect E CComparator.ofOrder this range := by
  unfold prngIntersect fOverlapsLeft fOverlapsRight
  rw [contains_agrees agrees ends others, contains_agrees agrees others ends,
    fStartsBefore_agrees agrees ends others, fEndsAfter_agrees agrees ends others,
    fDisjointLeft_agrees agrees ends others, fDisjointLeft_agrees agrees others ends]

theorem sameEnd_agrees : @sameEnd E comp range.left this.right =
    @sameEnd E CComparator.ofOrder range.left this.right := by
  unfold sameEnd
  split
  · rename_i b a isLeft isRight
    exact (agrees b a (others.1 b isLeft) (ends.2 a isRight)).1
  · rfl
  · rfl

theorem prngExtend_agrees :
    @prngExtend E comp this range = @prngExtend E CComparator.ofOrder this range := by
  unfold prngExtend
  rw [sameEnd_agrees agrees ends others]

end Operations

end CRange

section Loops
variable {ranges these others new : List (CRange E)} {piece : Option (CRange E)} {fuel : ℕ}

include agrees

theorem appendOrExtend_agrees (built : AllEnds (KnownEnd known) ranges)
    (added : AllEnds (KnownEnd known) piece.toList) :
    @appendOrExtend E comp ranges piece = @appendOrExtend E CComparator.ofOrder ranges piece := by
  cases piece with
  | none => rfl
  | some range =>
    rcases List.eq_nil_or_concat ranges with rfl | ⟨init, last, rfl⟩
    · rfl
    rw [List.concat_eq_append] at built ⊢
    simp only [appendOrExtend, List.getLast?_concat]
    rw [CRange.prngExtend_agrees agrees (allEnds_some.mp (allEnds_append.mp built).2)
      (allEnds_some.mp added)]

theorem addRemainingRanges_agrees (remaining : AllEnds (KnownEnd known) others)
    (built : AllEnds (KnownEnd known) ranges) :
    @addRemainingRanges E comp others ranges =
      @addRemainingRanges E CComparator.ofOrder others ranges := by
  induction others generalizing ranges with
  | nil => rfl
  | cons range others ih =>
    obtain ⟨first, rest⟩ := allEnds_cons.mp remaining
    have added := allEnds_some.mpr first
    have step := appendOrExtend_agrees agrees built added
    have next := ih rest (@appendOrExtend_ends E _ _ comp _ built added)
    simp only [addRemainingRanges, List.foldl_cons, step] at next ⊢
    exact next

theorem unionLoop_agrees (endsThese : AllEnds (KnownEnd known) these)
    (endsOthers : AllEnds (KnownEnd known) others) (endsNew : AllEnds (KnownEnd known) new) :
    @unionLoop E comp fuel these others new =
      @unionLoop E CComparator.ofOrder fuel these others new := by
  induction fuel generalizing these others new with
  | zero =>
    unfold unionLoop
    rw [addRemainingRanges_agrees agrees endsThese endsNew, addRemainingRanges_agrees agrees
      endsOthers (@addRemainingRanges_ends E _ _ _ CComparator.ofOrder endsThese endsNew)]
  | succ fuel ih =>
    cases these with
    | nil =>
      unfold unionLoop
      exact addRemainingRanges_agrees agrees endsOthers endsNew
    | cons this these =>
      cases others with
      | nil =>
        unfold unionLoop
        exact addRemainingRanges_agrees agrees endsThese endsNew
      | cons other others =>
        obtain ⟨first, restThese⟩ := allEnds_cons.mp endsThese
        obtain ⟨second, restOthers⟩ := allEnds_cons.mp endsOthers
        have left := @prngDifferenceLeft_ends E _ _ _ CComparator.ofOrder first second
        have right := @prngDifferenceLeft_ends E _ _ _ CComparator.ofOrder second first
        simp only [unionLoop, CRange.fEndsAfter_agrees agrees second first,
          CRange.prngDifferenceLeft_agrees agrees first second,
          CRange.prngDifferenceLeft_agrees agrees second first,
          appendOrExtend_agrees agrees endsNew left, appendOrExtend_agrees agrees endsNew right]
        rw [ih restThese endsOthers (@appendOrExtend_ends E _ _ CComparator.ofOrder _ endsNew left),
          ih endsThese restOthers (@appendOrExtend_ends E _ _ CComparator.ofOrder _ endsNew right)]

theorem intersectLoop_agrees (endsThese : AllEnds (KnownEnd known) these)
    (endsOthers : AllEnds (KnownEnd known) others) :
    @intersectLoop E comp fuel these others new =
      @intersectLoop E CComparator.ofOrder fuel these others new := by
  induction fuel generalizing these others new with
  | zero => rfl
  | succ fuel ih =>
    cases these with
    | nil => rfl
    | cons this these =>
      cases others with
      | nil => rfl
      | cons other others =>
        obtain ⟨first, restThese⟩ := allEnds_cons.mp endsThese
        obtain ⟨second, restOthers⟩ := allEnds_cons.mp endsOthers
        simp only [intersectLoop, CRange.fEndsAfter_agrees agrees second first,
          CRange.prngIntersect_agrees agrees first second,
          CRange.prngIntersect_agrees agrees second first]
        rw [ih restThese endsOthers, ih endsThese restOthers]

theorem prangeDiffWithRightResidual_agrees {first second : CRange E}
    (ends : first.EndsIn (KnownEnd known)) (others : second.EndsIn (KnownEnd known)) :
    @prangeDiffWithRightResidual E comp first second =
      @prangeDiffWithRightResidual E CComparator.ofOrder first second := by
  unfold prangeDiffWithRightResidual
  rw [CRange.fDisjointLeft_agrees agrees others ends, CRange.contains_agrees agrees ends others,
    CRange.prngDifferenceLeft_agrees agrees ends others,
    CRange.prngDifferenceRight_agrees agrees ends others]

theorem differenceLoop_agrees {residual : Option (CRange E)}
    (endsThese : AllEnds (KnownEnd known) these) (endsOthers : AllEnds (KnownEnd known) others)
    (endsNew : AllEnds (KnownEnd known) new)
    (endsResidual : AllEnds (KnownEnd known) residual.toList) :
    @differenceLoop E comp fuel these others new residual =
      @differenceLoop E CComparator.ofOrder fuel these others new residual := by
  fun_induction @differenceLoop E CComparator.ofOrder fuel these others new residual with
  | case1 new residual fuel first these other others this reaches ih =>
    obtain ⟨inFirst, restThese⟩ := allEnds_cons.mp endsThese
    obtain ⟨second, -⟩ := allEnds_cons.mp endsOthers
    have inThis : this.EndsIn (KnownEnd known) := getD_ends inFirst endsResidual
    have left := @prngDifferenceLeft_ends E _ _ _ CComparator.ofOrder inThis second
    rw [@differenceLoop.eq_1 E comp, CRange.fEndsWithOrAfter_agrees agrees second inThis,
      if_pos reaches, CRange.prngDifferenceLeft_agrees agrees inThis second,
      appendOrExtend_agrees agrees endsNew left]
    exact ih restThese endsOthers (@appendOrExtend_ends E _ _ CComparator.ofOrder _ endsNew left)
      allEnds_none
  | case2 new residual fuel first these other others this short parts ih =>
    obtain ⟨inFirst, -⟩ := allEnds_cons.mp endsThese
    obtain ⟨second, restOthers⟩ := allEnds_cons.mp endsOthers
    have inThis : this.EndsIn (KnownEnd known) := getD_ends inFirst endsResidual
    have pieces := @prangeDiffWithRightResidual_ends E _ CComparator.ofOrder _ _ inThis second
    rw [@differenceLoop.eq_1 E comp, CRange.fEndsWithOrAfter_agrees agrees second inThis,
      if_neg short, prangeDiffWithRightResidual_agrees agrees inThis second]
    dsimp only
    rw [appendOrExtend_agrees agrees endsNew pieces.1]
    exact ih endsThese restOthers
      (@appendOrExtend_ends E _ _ CComparator.ofOrder _ endsNew pieces.1) pieces.2
  | case3 new fuel these others stuck =>
    rw [@differenceLoop.eq_2 E comp _ _ _ _ stuck]
    exact addRemainingRanges_agrees agrees endsThese endsNew
  | case4 new fuel these others residual stuck =>
    rw [@differenceLoop.eq_3 E comp _ _ _ _ _ stuck,
      appendOrExtend_agrees agrees endsNew endsResidual]
    refine addRemainingRanges_agrees agrees (fun range listed => ?_)
      (@appendOrExtend_ends E _ _ CComparator.ofOrder _ endsNew endsResidual)
    exact endsThese range (List.mem_of_mem_tail listed)

end Loops

end Agreement

end Constraints
