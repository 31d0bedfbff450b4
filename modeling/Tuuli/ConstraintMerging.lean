import Tuuli.ConstraintConversion

/-!
Which rows a constructed conjunction or disjunction admits. Each listed constraint is stood for by
one child of the object: itself, or what the constraints on its column were merged into. A merged
expression that cannot be converted leaves the first of its constraints, which loses rows of a
disjunction.
-/
namespace Constraints
open OrderedSpans

namespace CConstraint

variable {D : ℕ → Type} [∀ c, LinearOrder (D c)] {row : Row D} {metadata : Metadata D}
  {ect : EConstraintType} {children : List (CConstraint D)} {child : CConstraint D}

theorem all_flattened :
    (∀ part ∈ flattened .ectConjunction child, Sat row part) ↔ Sat row child := by
  cases child with
  | conjunction children => exact sat_conjunction.symm
  | _ => simp [flattened]

theorem any_flattened :
    (∃ part ∈ flattened .ectDisjunction child, Sat row part) ↔ Sat row child := by
  cases child with
  | disjunction children => exact sat_disjunction.symm
  | _ => simp [flattened]

section Replacing
variable [∀ c, CComparator (WithBot (D c))] {all done rest : List (CConstraint D)}
  {deduped marked : List ℕ} {child made : CConstraint D} {col : ℕ}

def merged (metadata : Metadata D) (ect : EConstraintType) (all : List (CConstraint D)) (col : ℕ) :
    Option (CConstraint D) :=
  match pciMerged metadata ect all col with
  | none => none
  | some none => (pdrgpcnstrOnColumn all col).head?
  | some (some pci) => some (.interval col pci)

def replacement (metadata : Metadata D) (ect : EConstraintType) (all : List (CConstraint D))
    (child : CConstraint D) : Option (CConstraint D) :=
  match pcrsUsed child with
  | [col] =>
    if (pdrgpcnstrOnColumn all col).length = 1 then some child else merged metadata ect all col
  | _ => some child

/-- Between two rounds of the loop: the columns of the merged constraints before are marked,
and marked columns have been merged. -/
structure Deduping (metadata : Metadata D) (ect : EConstraintType)
    (all done rest : List (CConstraint D)) (deduped : List ℕ) : Prop where
  split : all = done ++ rest
  marked : ∀ c ∈ done, ∀ col, pcrsUsed c = [col] →
    (pdrgpcnstrOnColumn all col).length ≠ 1 → col ∈ deduped
  several : ∀ col ∈ deduped, (pdrgpcnstrOnColumn all col).length ≠ 1
  made : ∀ col ∈ deduped, ∃ d, merged metadata ect all col = some d

variable {new : List (CConstraint D)}
  (deduping : Deduping metadata ect all done (child :: rest) deduped)

include deduping

theorem Deduping.next {columns : List ℕ} (kept : ∀ col ∈ deduped, col ∈ columns)
    (marks : ∀ col, pcrsUsed child = [col] → (pdrgpcnstrOnColumn all col).length ≠ 1 → col ∈
      columns) (several : ∀ col ∈ columns, (pdrgpcnstrOnColumn all col).length ≠ 1)
    (made : ∀ col ∈ columns, ∃ d, merged metadata ect all col = some d) :
    Deduping metadata ect all (done ++ [child]) rest columns where
  split := by rw [deduping.split, List.append_assoc, List.singleton_append]
  marked c listed used is_used more := by
    rcases List.mem_append.mp listed with before | only
    · exact kept used (deduping.marked c before used is_used more)
    · rw [List.mem_singleton.mp only] at is_used
      exact marks used is_used more
  several := several
  made := made

theorem Deduping.head (used : pcrsUsed child = [col])
    (more : (pdrgpcnstrOnColumn all col).length ≠ 1) (fresh : col ∉ deduped) :
    (pdrgpcnstrOnColumn all col).head? = some child := by
  have none_before : pdrgpcnstrOnColumn done col = [] := by
    refine List.filter_eq_nil_iff.mpr fun c listed is_used => ?_
    exact fresh (deduping.marked c listed col (of_decide_eq_true is_used) more)
  have split : pdrgpcnstrOnColumn all col =
      pdrgpcnstrOnColumn done col ++ pdrgpcnstrOnColumn (child :: rest) col := by
    rw [deduping.split]
    exact List.filter_append ..
  rw [split, none_before, List.nil_append, pdrgpcnstrOnColumn, List.filter_cons, if_pos]
  · rfl
  · exact decide_eq_true used

theorem Deduping.cases
    (result : deduplicateLoop metadata ect all deduped (child :: rest) = some new) :
    (∃ col ∈ deduped, pcrsUsed child = [col] ∧
      deduplicateLoop metadata ect all deduped rest = some new) ∨
    (∃ more, new = child :: more ∧ deduplicateLoop metadata ect all deduped rest = some more ∧
      ∀ col, pcrsUsed child = [col] → (pdrgpcnstrOnColumn all col).length = 1) ∨
    ∃ col d more, new = d :: more ∧ pcrsUsed child = [col] ∧
      (pdrgpcnstrOnColumn all col).length ≠ 1 ∧ merged metadata ect all col = some d ∧
      deduplicateLoop metadata ect all (col :: deduped) rest = some more := by
  rw [deduplicateLoop] at result
  split at result
  · rename_i col used
    split at result
    · rename_i known
      exact .inl ⟨col, known, used, result⟩
    · rename_i fresh
      split at result
      · rename_i single
        obtain ⟨more, further, rfl⟩ := Option.map_eq_some_iff.mp result
        refine .inr (.inl ⟨more, rfl, further, fun other same => ?_⟩)
        rw [used] at same
        cases same
        exact single
      · rename_i several
        split at result
        · cases result
        · rename_i unconverted
          obtain ⟨more, further, rfl⟩ := Option.map_eq_some_iff.mp result
          refine .inr (.inr ⟨col, child, more, rfl, used, several, ?_, further⟩)
          rw [merged, unconverted]
          exact deduping.head used several fresh
        · rename_i pci converted
          obtain ⟨more, further, rfl⟩ := Option.map_eq_some_iff.mp result
          refine .inr (.inr ⟨col, .interval col pci, more, rfl, used, several, ?_, further⟩)
          rw [merged, converted]
  · rename_i notSingle
    obtain ⟨more, further, rfl⟩ := Option.map_eq_some_iff.mp result
    exact .inr (.inl ⟨more, rfl, further, fun col used => absurd used (notSingle col)⟩)

omit deduping

theorem replacement_eq_self
    (single : ∀ col, pcrsUsed child = [col] → (pdrgpcnstrOnColumn all col).length = 1) :
    replacement metadata ect all child = some child := by
  unfold replacement
  split
  · rename_i col used
    rw [if_pos (single col used)]
  · rfl

theorem replacement_eq_merged (used : pcrsUsed child = [col])
    (several : (pdrgpcnstrOnColumn all col).length ≠ 1) :
    replacement metadata ect all child = merged metadata ect all col := by
  rw [replacement, used]
  exact if_neg several

/-- The children made are replacements of what is listed, and every listed constraint has its
replacement among them, or made before if its column is marked. -/
structure Replaces (metadata : Metadata D) (ect : EConstraintType)
    (all rest : List (CConstraint D)) (deduped : List ℕ) (new : List (CConstraint D)) : Prop where
  sources : ∀ d ∈ new, ∃ c ∈ rest, replacement metadata ect all c = some d
  kept : ∀ c ∈ rest, ∃ d, replacement metadata ect all c = some d ∧
    (d ∈ new ∨ ∃ col ∈ deduped, merged metadata ect all col = some d)

theorem Replaces.cons (later : Replaces metadata ect all rest marked new)
    (replaced : replacement metadata ect all child = some made)
    (columns : ∀ col ∈ marked, col ∈ deduped ∨ merged metadata ect all col = some made) :
    Replaces metadata ect all (child :: rest) deduped (made :: new) where
  sources d listed := by
    rcases List.mem_cons.mp listed with rfl | inside
    · exact ⟨child, List.mem_cons_self, replaced⟩
    · exact List.exists_mem_cons_of_exists (later.sources d inside)
  kept c listed := by
    rcases List.mem_cons.mp listed with rfl | inside
    · exact ⟨made, replaced, .inl List.mem_cons_self⟩
    · obtain ⟨d, is_replaced, present | ⟨col, known, from_col⟩⟩ := later.kept c inside
      · exact ⟨d, is_replaced, .inl (List.mem_cons_of_mem made present)⟩
      · refine ⟨d, is_replaced, ?_⟩
        rcases columns col known with before | is_made
        · exact .inr ⟨col, before, from_col⟩
        · have same : made = d := Option.some.inj (is_made.symm.trans from_col)
          exact .inl (same ▸ List.mem_cons_self)

theorem replaces_deduplicateLoop (deduping : Deduping metadata ect all done rest deduped)
    (result : deduplicateLoop metadata ect all deduped rest = some new) :
    Replaces metadata ect all rest deduped new := by
  induction rest generalizing done deduped new with
  | nil =>
    rw [deduplicateLoop] at result
    cases result
    exact ⟨by simp, by simp⟩
  | cons child rest ih =>
    rcases deduping.cases result with ⟨col, known, used, further⟩ |
      ⟨more, rfl, further, single⟩ | ⟨col, made, more, rfl, used, several, is_made, further⟩
    · have replaced : replacement metadata ect all child = merged metadata ect all col :=
        replacement_eq_merged used (deduping.several col known)
      have next : Deduping metadata ect all (done ++ [child]) rest deduped :=
        deduping.next (fun _ => id)
          (fun other same _ => by rw [used] at same; cases same; exact known)
          deduping.several deduping.made
      have later := ih next further
      refine ⟨fun d listed => List.exists_mem_cons_of_exists (later.sources d listed), ?_⟩
      obtain ⟨d, is_made⟩ := deduping.made col known
      exact List.forall_mem_cons.mpr
        ⟨⟨d, replaced.trans is_made, .inr ⟨col, known, is_made⟩⟩, later.kept⟩
    · have next : Deduping metadata ect all (done ++ [child]) rest deduped :=
        deduping.next (fun _ => id) (fun other same more => absurd (single other same) more)
          deduping.several deduping.made
      exact (ih next further).cons (replacement_eq_self single) fun _ => .inl
    · have next : Deduping metadata ect all (done ++ [child]) rest (col :: deduped) :=
        deduping.next (fun other known => List.mem_cons_of_mem col known)
          (fun other same _ => by rw [used] at same; cases same; exact List.mem_cons_self)
          (List.forall_mem_cons.mpr ⟨several, deduping.several⟩)
          (List.forall_mem_cons.mpr ⟨⟨made, is_made⟩, deduping.made⟩)
      exact (ih next further).cons ((replacement_eq_merged used several).trans is_made)
        (List.forall_mem_cons.mpr ⟨.inr is_made, fun _ => .inl⟩)

theorem mem_pdrgpcnstrDeduplicate (result : pdrgpcnstrDeduplicate metadata ect all = some new) :
    (∀ d ∈ new, ∃ c ∈ all, replacement metadata ect all c = some d) ∧
    ∀ c ∈ all, ∃ d ∈ new, replacement metadata ect all c = some d := by
  have start : Deduping metadata ect all [] all [] :=
    ⟨rfl, by simp, by simp, by simp⟩
  obtain ⟨sources, kept⟩ := replaces_deduplicateLoop start result
  refine ⟨sources, fun c listed => ?_⟩
  obtain ⟨d, is_replaced, present | ⟨col, none, -⟩⟩ := kept c listed
  · exact ⟨d, present, is_replaced⟩
  · exact absurd none List.not_mem_nil

end Replacing

section Merging
variable [comp : ∀ c, CComparator (WithBot (D c))] {all listed : List (CConstraint D)}
  {child d : CConstraint D} {col : ℕ}

/-- The datums compared where the constraints on a column are merged: ends of their intervals, or
of the universe of a boolean column. -/
def EndOf (metadata : Metadata D) (listed : List (CConstraint D)) (col : ℕ)
    (d : WithBot (D col)) : Prop :=
  (∃ pci, ⟨col, pci⟩ ∈ intervalsOf listed ∧
    ∃ range ∈ pci.ranges, range.left = some d ∨ range.right = some d) ∨
  ∃ type ∈ (metadata.column col).boolType, d = type.fls ∨ d = type.tru

/-- What of several constraints on one column makes their merged form stand for all of them. -/
structure Mergeable (metadata : Metadata D) (ect : EConstraintType)
    (listed : List (CConstraint D)) (col : ℕ) : Prop where
  compares : (comp col).AgreesOn (EndOf metadata listed col)
  ordered : ∀ p ∈ intervalsOf listed, Ordered p.2.ranges ∧ p.2.Honest (metadata.column p.1)
  recovers : AllRecover metadata col listed
  converts : ect = .ectDisjunction →
    ((metadata.column col).constrainable = true ∧
      ∃ c ∈ listed, pexprScalar metadata col c = some (.const (some true))) ∨
    ∀ c ∈ listed, ∀ e, pexprScalar metadata col c = some e →
      fConverts metadata.settings (metadata.column col) .emdindSentinel e = true

namespace Mergeable
variable (mergeable : Mergeable metadata ect listed col)

include mergeable

theorem regular : Regular metadata (EndOf metadata listed) (intervalsOf listed) := by
  rintro ⟨used, pci⟩ mem
  obtain ⟨ordered, honest⟩ := mergeable.ordered _ mem
  refine ⟨⟨ordered, fun range inside => ⟨fun d isLeft => ?_, fun d isRight => ?_⟩⟩, honest⟩
  · exact .inl ⟨pci, mem, range, inside, .inl isLeft⟩
  · exact .inl ⟨pci, mem, range, inside, .inr isRight⟩

omit comp mergeable in
theorem bounds : (metadata.column col).KnownBounds (EndOf metadata listed col) :=
  fun type isType => ⟨.inr ⟨type, isType, .inl rfl⟩, .inr ⟨type, isType, .inr rfl⟩⟩

variable {exprs : List (CScalar (D col))} {pci : RangeInterval (D col)}
  (made : pexprScalars metadata col listed = some exprs)

include made

theorem has_of_all (run : converted metadata.settings (metadata.column col) false
      (pexprConjDisj true exprs []) = some (some pci))
    (sat : ∀ c ∈ listed, Sat row c) : pci.Has (row col) := by
  have datums := datumsKnownAll mergeable.compares bounds listed mergeable.regular
  refine has_conj mergeable.compares bounds (datums_exprs made datums) run fun e mem p derived => ?_
  obtain ⟨c, inside, isExpr⟩ := child_of_expr made mem
  exact allRecovered mergeable.compares bounds listed mergeable.regular mergeable.recovers c inside e
    isExpr p derived row (sat c inside)

theorem has_of_any (run : converted metadata.settings (metadata.column col) false
      (pexprConjDisj false exprs []) = some (some pci))
    (inside : child ∈ listed) (sat : Sat row child) : pci.Has (row col) := by
  have datums := datumsKnownAll mergeable.compares bounds listed mergeable.regular
  obtain ⟨e, mem, isExpr⟩ := expr_of_child made inside
  refine has_disj mergeable.compares bounds (datums_exprs made datums) run mem fun p derived => ?_
  exact allRecovered mergeable.compares bounds listed mergeable.regular mergeable.recovers child
    inside e isExpr p derived row sat

theorem fConverts_merged (isDisjunction : ect = .ectDisjunction) :
    fConverts metadata.settings (metadata.column col) .emdindSentinel
      (pexprConjDisj false exprs []) = true := by
  rcases mergeable.converts isDisjunction with ⟨constrainable, c, inside, isTrue⟩ | all
  · obtain ⟨e, mem, isExpr⟩ := expr_of_child made inside
    cases isTrue.symm.trans isExpr
    rw [pexprConjDisj_decided mem]
    simp [fConverts, constrainable]
  · refine fConverts_disj fun e mem => ?_
    obtain ⟨c, inside, isExpr⟩ := child_of_expr made mem
    exact all c inside e isExpr

end Mergeable

theorem sat_merged_conjunction
    (mergeable : Mergeable metadata .ectConjunction (pdrgpcnstrOnColumn all col) col)
    (result : merged metadata .ectConjunction all col = some d)
    (sat : ∀ c ∈ all, Sat row c) : Sat row d := by
  have onColumn : ∀ c ∈ pdrgpcnstrOnColumn all col, Sat row c :=
    fun c mem => sat c (List.mem_of_mem_filter mem)
  unfold merged pciMerged at result
  cases made : pexprScalars metadata col (pdrgpcnstrOnColumn all col) with
  | none => simp [made] at result
  | some exprs =>
    rw [made] at result
    dsimp only [EConstraintType.fConj] at result
    split at result
    · cases result
    · exact onColumn d (List.mem_of_mem_head? result)
    · rename_i pci run
      cases result
      rw [Sat]
      exact mergeable.has_of_all made run onColumn

theorem sat_merged_disjunction
    (mergeable : Mergeable metadata .ectDisjunction (pdrgpcnstrOnColumn all col) col)
    (result : merged metadata .ectDisjunction all col = some d)
    (inside : child ∈ pdrgpcnstrOnColumn all col) (sat : Sat row child) : Sat row d := by
  unfold merged pciMerged at result
  cases made : pexprScalars metadata col (pdrgpcnstrOnColumn all col) with
  | none => simp [made] at result
  | some exprs =>
    rw [made] at result
    dsimp only [EConstraintType.fConj] at result
    split at result
    · cases result
    · rename_i run
      have converts := mergeable.fConverts_merged made rfl
      cases (isSome_derived _ _ _ run).trans converts
    · rename_i pci run
      cases result
      rw [Sat]
      exact mergeable.has_of_any made run inside sat

def Listed (ect : EConstraintType) (row : Row D) (constraints : List (CConstraint D)) : Prop :=
  match ect with
  | .ectConjunction => ∀ c ∈ constraints, Sat row c
  | .ectDisjunction => ∃ c ∈ constraints, Sat row c

variable {constraints : List (CConstraint D)} {built : CConstraint D}

omit comp in
theorem any_flatMap_flattened :
    (∃ c ∈ constraints.flatMap (flattened .ectDisjunction), Sat row c) ↔
      ∃ c ∈ constraints, Sat row c := by
  simp only [List.mem_flatMap]
  constructor
  · rintro ⟨part, ⟨c, member, inside⟩, sat⟩
    exact ⟨c, member, any_flattened.mp ⟨part, inside, sat⟩⟩
  · rintro ⟨c, member, sat⟩
    obtain ⟨part, inside, satPart⟩ := any_flattened.mpr sat
    exact ⟨part, ⟨c, member, inside⟩, satPart⟩

omit comp in
theorem all_flatMap_flattened :
    (∀ c ∈ constraints.flatMap (flattened .ectConjunction), Sat row c) ↔
      ∀ c ∈ constraints, Sat row c := by
  simp only [List.mem_flatMap]
  constructor
  · intro parts c member
    exact all_flattened.mp fun part inside => parts part ⟨c, member, inside⟩
  · rintro all_sat part ⟨c, member, inside⟩
    exact all_flattened.mpr (all_sat c member) part inside

theorem replacement_cases (replaced : replacement metadata ect all child = some d)
    (member : child ∈ all) : d = child ∨
      ∃ col, child ∈ pdrgpcnstrOnColumn all col ∧ 1 < (pdrgpcnstrOnColumn all col).length ∧
        merged metadata ect all col = some d := by
  unfold replacement at replaced
  split at replaced
  · rename_i col used
    split at replaced
    · cases replaced
      exact .inl rfl
    · rename_i several
      have inside : child ∈ pdrgpcnstrOnColumn all col :=
        List.mem_filter.mpr ⟨member, decide_eq_true used⟩
      have positive := List.length_pos_of_mem inside
      exact .inr ⟨col, inside, by omega, replaced⟩
  · cases replaced
    exact .inl rfl

end Merging

section Merged

def integers : Metadata fun _ => ℕ where
  settings := plainSettings
  column _ := plainColumn
  cmpOp _ _ _ := some 0
  arrayCmp _ _ := true

def point (n : ℕ) : CConstraint fun _ => ℕ :=
  .interval 0 (pciIntervalFromColConstCmp .ecmptEq (some n) false)

/-- `NOT ((x >= 1 OR x IS NULL) AND (x < 5 OR x IS NULL))`. -/
def outside : CConstraint fun _ => ℕ :=
  .negation (.conjunction
    [.interval 0 (pciIntervalFromColConstCmp .ecmptGEq (some 1) true),
      .interval 0 (pciIntervalFromColConstCmp .ecmptL (some 5) true)])

theorem outside_point_regular : ∀ p ∈ intervalsOf [outside, point 2],
    Ordered p.2.ranges ∧ p.2.Honest (integers.column p.1) := by
  have plain : ∀ cmpType n includesNull, Ordered
      (pciIntervalFromColConstCmp cmpType (some n) includesNull : RangeInterval ℕ).ranges ∧
        (pciIntervalFromColConstCmp cmpType (some n) includesNull).Honest plainColumn := by
    refine fun cmpType n includesNull => ⟨pciRangeFromColConstCmp_ordered cmpType, ?_⟩
    intro contradiction range listed
    obtain ⟨type, _, _, isBool, -⟩ := contradiction_range listed contradiction
    cases isBool
  intro p listed
  simp only [intervalsOf, outside, point, intervals, List.append_nil, List.mem_append,
    List.mem_singleton] at listed
  rcases listed with (rfl | rfl) | rfl
  · exact plain _ _ _
  · exact plain _ _ _
  · exact plain _ _ _

end Merged

section Dropped

def conflicting : Metadata fun _ => ℕ where
  settings := plainSettings
  column _ := plainColumn
  cmpOp _ _ constant := if constant = some 1 then none else some 0
  arrayCmp _ _ := true

end Dropped

end CConstraint
end Constraints
