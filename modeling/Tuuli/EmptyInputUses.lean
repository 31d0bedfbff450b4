import Mathlib.Data.List.Basic
import Tuuli.EmptyInputs

/-!
What an accepted compensation is worth. The search for uses sees identifiers only. It is right
about every upper list in which no descriptor reads a column that passes on a count, and wrong
about every other one.
-/
namespace EmptyInputs
open RuleModels

section Uses

mutual

/-- The columns that descriptors in an expression read from outside. -/
def CExpression.freeDescriptors : CExpression → List ℕ
  | .ident _ => []
  | .const _ => []
  | .node op children =>
    op.outerColumns ++ (descriptorsOfChildren children).filter (· ∉ op.produced)

def descriptorsOfChildren : List CExpression → List ℕ
  | [] => []
  | child :: rest => child.freeDescriptors ++ descriptorsOfChildren rest

end

def covered (pcr : ℕ) (expr : CExpression) : Bool :=
  (fAllUsesCoalescedToZero pcr expr false).1

variable {pcr : ℕ} {op : COperator} {children : List CExpression} {child : CExpression}

theorem mem_usedByChildren : pcr ∈ usedByChildren children ↔
    ∃ child ∈ children, pcr ∈ child.deriveUsedColumns := by
  induction children with
  | nil => simp [usedByChildren]
  | cons child rest ih => rw [usedByChildren, List.mem_append, ih, List.exists_mem_cons_iff]

theorem mem_descriptorsOfChildren : pcr ∈ descriptorsOfChildren children ↔
    ∃ child ∈ children, pcr ∈ child.freeDescriptors := by
  induction children with
  | nil => simp [descriptorsOfChildren]
  | cons child rest ih => rw [descriptorsOfChildren, List.mem_append, ih, List.exists_mem_cons_iff]

theorem mem_used_node : pcr ∈ (CExpression.node op children).deriveUsedColumns ↔
    pcr ∈ op.outerColumns ∨
      (∃ child ∈ children, pcr ∈ child.deriveUsedColumns) ∧ pcr ∉ op.produced := by
  rw [CExpression.deriveUsedColumns, List.mem_append, List.mem_filter, mem_usedByChildren,
    decide_eq_true_eq]

theorem mem_free_node : pcr ∈ (CExpression.node op children).freeDescriptors ↔
    pcr ∈ op.outerColumns ∨
      (∃ child ∈ children, pcr ∈ child.freeDescriptors) ∧ pcr ∉ op.produced := by
  rw [CExpression.freeDescriptors, List.mem_append, List.mem_filter, mem_descriptorsOfChildren,
    decide_eq_true_eq]

theorem allUsesInChildren_fst
    (same : ∀ child ∈ children, ∀ found, (fAllUsesCoalescedToZero pcr child found).1 = covered pcr
      child) (found : Bool) :
    (allUsesInChildren pcr children found).1 = children.all (covered pcr) := by
  induction children generalizing found with
  | nil => rfl
  | cons child rest ih =>
    rw [List.forall_mem_cons] at same
    unfold allUsesInChildren
    rw [List.all_cons, ← same.1 found, ← ih same.2 (fAllUsesCoalescedToZero pcr child found).2]
    cases (fAllUsesCoalescedToZero pcr child found).1 <;> rfl

theorem fAllUsesCoalescedToZero_fst (expr : CExpression) (found : Bool) :
    (fAllUsesCoalescedToZero pcr expr found).1 = covered pcr expr := by
  induction expr using CExpression.induct generalizing found with
  | ident column => rfl
  | const datum => rfl
  | node op children ih =>
    unfold covered fAllUsesCoalescedToZero
    split
    case isTrue => rfl
    case isFalse => rw [allUsesInChildren_fst ih, allUsesInChildren_fst ih]

theorem covered_node : covered pcr (.node op children) =
    (coalescedToZero pcr op children || children.all (covered pcr)) := by
  have inChildren := @allUsesInChildren_fst pcr children
    (fun child _ found => fAllUsesCoalescedToZero_fst child found) false
  rw [covered, fAllUsesCoalescedToZero, ← inChildren]
  cases coalescedToZero pcr op children <;> rfl

theorem coalescedToZero_shape (coalesced : coalescedToZero pcr op children = true) :
    op = .coalesce ∧ ∃ default, children = [.ident pcr, default] ∧
      fScalarInt8Zero default = true := by
  unfold coalescedToZero at coalesced
  split at coalesced
  case h_1 column default =>
    rw [Bool.and_eq_true, decide_eq_true_eq] at coalesced
    rw [← coalesced.1]
    exact ⟨rfl, default, rfl, coalesced.2⟩
  case h_2 => cases coalesced

end Uses

section Blindness
variable {V : Type} {interpretation : Interpretation V} {row row' : ℕ → V} {pcr : ℕ}
  {op : COperator} {children : List CExpression}

/-- Two rows that differ only in columns that an expression does not read, or reads only where
zero and NULL are the same to it. -/
def Blind (interpretation : Interpretation V) (row row' : ℕ → V) (expr : CExpression) : Prop :=
  ∀ pcr, row pcr = row' pcr ∨
    (row pcr = interpretation.zero ∧ row' pcr = interpretation.null ∧ covered pcr expr = true ∧
      pcr ∉ expr.freeDescriptors) ∨
    pcr ∉ expr.deriveUsedColumns

theorem evalChildren_congr {produced : List ℕ}
    (same : ∀ child ∈ children, ∀ bindings, child.eval interpretation (bound produced bindings
      row) = child.eval interpretation (bound produced bindings row')) :
    evalChildren interpretation produced row children =
      evalChildren interpretation produced row' children := by
  induction children with
  | nil => rfl
  | cons child rest ih =>
    rw [List.forall_mem_cons] at same
    unfold evalChildren
    rw [ih same.2]
    congr 1
    funext bindings
    exact same.1 bindings

theorem eval_coalesced {default : CExpression} (isZero : fScalarInt8Zero default = true) :
    (CExpression.node .coalesce [.ident pcr, default]).eval interpretation row =
      interpretation.apply .coalesce [] [fun _ => row pcr, fun _ => interpretation.zero] := by
  cases default with
  | const datum =>
    rw [← interpretation.const_zero datum isZero]
    rfl
  | ident column => cases isZero
  | node op children => cases isZero

theorem Blind.child (blind : Blind interpretation row row' (.node op children))
    (plain : ∀ pcr, coalescedToZero pcr op children = false) {child : CExpression}
    (mem : child ∈ children) (bindings : ℕ → V) :
    Blind interpretation (bound op.produced bindings row) (bound op.produced bindings row')
      child := by
  intro pcr
  unfold bound
  by_cases produced : pcr ∈ op.produced
  case pos =>
    left
    rw [if_pos produced, if_pos produced]
  case neg =>
    rw [if_neg produced, if_neg produced]
    rcases blind pcr with same | ⟨isZero, isNull, uses, free⟩ | unused
    · exact Or.inl same
    · rw [covered_node, plain pcr, Bool.false_or, List.all_eq_true] at uses
      rw [mem_free_node, not_or] at free
      refine Or.inr (Or.inl ⟨isZero, isNull, uses child mem, fun inChild => ?_⟩)
      exact free.2 ⟨⟨child, mem, inChild⟩, produced⟩
    · rw [mem_used_node, not_or] at unused
      exact Or.inr (Or.inr fun inChild => unused.2 ⟨⟨child, mem, inChild⟩, produced⟩)

theorem Blind.outerColumns (blind : Blind interpretation row row' (.node op children)) :
    op.outerColumns.map row = op.outerColumns.map row' := by
  apply List.map_congr_left
  intro pcr reads
  rcases blind pcr with same | zeroed | unused
  · exact same
  · exact absurd (mem_free_node.mpr (Or.inl reads)) zeroed.2.2.2
  · exact absurd (mem_used_node.mpr (Or.inl reads)) unused

theorem eval_blind (expr : CExpression) (blind : Blind interpretation row row' expr) :
    expr.eval interpretation row = expr.eval interpretation row' := by
  induction expr using CExpression.induct generalizing row row' with
  | const datum => rfl
  | ident column =>
    rcases blind column with same | ⟨-, -, uses, -⟩ | unused
    · exact same
    · exact absurd rfl (of_decide_eq_true uses)
    · exact absurd (List.mem_singleton_self column) unused
  | node op children ih =>
    by_cases coalesced : ∃ pcr, coalescedToZero pcr op children = true
    case pos =>
      obtain ⟨pcr, coalesced⟩ := coalesced
      obtain ⟨isCoalesce, default, shape, isZero⟩ := coalescedToZero_shape coalesced
      subst isCoalesce
      subst shape
      rw [eval_coalesced isZero, eval_coalesced isZero]
      rcases blind pcr with same | zeroed | unused
      · rw [same]
      · rw [zeroed.1, zeroed.2.1, interpretation.coalesce_null]
        by_cases degenerate : interpretation.zero = interpretation.null
        case pos =>
          have coalesces := interpretation.coalesce_null
          rw [← degenerate] at coalesces
          exact coalesces
        case neg => exact interpretation.coalesce_value _ degenerate
      · exact absurd (mem_used_node.mpr (Or.inr ⟨⟨_, List.mem_cons_self,
          List.mem_singleton_self pcr⟩, List.not_mem_nil⟩)) unused
    case neg =>
      have plain : ∀ pcr, coalescedToZero pcr op children = false := fun pcr =>
        Bool.eq_false_iff.mpr fun found => coalesced ⟨pcr, found⟩
      unfold CExpression.eval
      rw [blind.outerColumns, evalChildren_congr fun child mem bindings =>
        ih child mem (blind.child plain mem bindings)]

end Blindness

section Acceptance
variable {upper : CExpression} {lower : List CExpression} {pcrOutput : ℕ}

/-- What the loop over the lower list establishes of a count's column. -/
def Compensates (upper : CExpression) (pcrOutput : ℕ) (lower : List CExpression) : Prop :=
  ∀ elem ∈ lower, ∃ pcrIntermediate value,
    elem = .node (.projectElement pcrIntermediate) [value] ∧
    (pcrOutput ∈ value.deriveUsedColumns →
      value = .ident pcrOutput ∧ covered pcrIntermediate upper = true)

theorem mapped_spec {fMapped result : Bool}
    (success : mapped upper pcrOutput lower fMapped = some result) :
    Compensates upper pcrOutput lower := by
  unfold Compensates
  fun_induction mapped upper pcrOutput lower fMapped with
  | case1 => simp
  | case2 pcrIntermediate value rest fMapped unread ih =>
    rw [List.forall_mem_cons]
    exact ⟨⟨pcrIntermediate, value, rfl, fun reads => absurd reads unread⟩, ih success⟩
  | case5 pcrIntermediate rest fMapped column isOutput found _ ih =>
    simp only [Bool.or_eq_true, Bool.not_eq_true', not_or, Bool.not_eq_false] at found
    rw [List.forall_mem_cons]
    refine ⟨⟨pcrIntermediate, .ident column, rfl, fun _ => ⟨?_, found.1.2⟩⟩, ih success⟩
    exact congrArg CExpression.ident (not_not.mp isOutput)
  | _ => cases success

theorem compensated_spec {aggregates : List (CExpression × ℕ)} {fHasZeroOnEmpty : Bool}
    (accepted : compensated upper lower aggregates fHasZeroOnEmpty = true) :
    ∀ entry ∈ aggregates, ∃ aggregate args, entry.1 = .node (.aggFunc aggregate) args ∧
      (aggregate.isCount = true →
        Compensates upper entry.2 lower ∧ entry.2 ∉ upper.deriveUsedColumns) := by
  fun_induction compensated upper lower aggregates fHasZeroOnEmpty with
  | case1 => simp
  | case3 aggregate args output rest fHasZeroOnEmpty other _ ih =>
    rw [Bool.not_eq_true'] at other
    rw [List.forall_mem_cons]
    refine ⟨⟨aggregate, args, rfl, fun isCount => ?_⟩, ih accepted⟩
    rw [other] at isCount
    cases isCount
  | case6 aggregate args output rest fHasZeroOnEmpty _ fMapped success read ih =>
    rw [Bool.or_eq_true, not_or, decide_eq_true_eq] at read
    rw [List.forall_mem_cons]
    exact ⟨⟨aggregate, args, rfl, fun _ => ⟨mapped_spec success, read.2⟩⟩, ih accepted⟩
  | _ => cases accepted

end Acceptance

section Compensation
variable {V : Type}

def countColumn (aggregates : List (CExpression × ℕ)) (pcr : ℕ) : Bool :=
  match aggregates.find? fun aggregate => aggregate.2 = pcr with
  | some (.node (.aggFunc aggregate) _, _) => aggregate.isCount
  | _ => false

def passesOnCount (lower : List CExpression) (aggregates : List (CExpression × ℕ)) (pcr : ℕ) :
    Bool :=
  match definition lower pcr with
  | some (.ident column) => countColumn aggregates column
  | _ => false

/-- The columns of the upper list do not depend on whether the counts are zero or NULL. -/
def Compensation (upper lower : List CExpression) (aggregates : List (CExpression × ℕ)) : Prop :=
  ∀ (V : Type) (interpretation : Interpretation V) (row : ℕ → V) (pcr : ℕ) (value : CExpression),
    .node (.projectElement pcr) [value] ∈ upper →
    value.eval interpretation
        (projected interpretation lower (emptyRow interpretation aggregates row)) =
      value.eval interpretation
        (projected interpretation lower (nullRow interpretation aggregates row))

variable {interpretation : Interpretation V} {upper lower : List CExpression}
  {aggregates : List (CExpression × ℕ)} {row : ℕ → V} {pcr : ℕ} {value : CExpression} {column : ℕ}

theorem emptyRow_cases (interpretation : Interpretation V) (aggregates : List (CExpression × ℕ))
    (row : ℕ → V) (pcr : ℕ) :
    emptyRow interpretation aggregates row pcr = nullRow interpretation aggregates row pcr ∨
      (countColumn aggregates pcr = true ∧
        emptyRow interpretation aggregates row pcr = interpretation.zero ∧
        nullRow interpretation aggregates row pcr = interpretation.null) := by
  unfold emptyRow nullRow countColumn
  cases aggregates.find? fun aggregate => aggregate.2 = pcr with
  | none => exact Or.inl rfl
  | some entry =>
    obtain ⟨func, output⟩ := entry
    change emptyResult interpretation func = interpretation.null ∨ _
    unfold emptyResult
    split
    case h_2 => exact Or.inl rfl
    case h_1 aggregate args =>
      cases isCount : aggregate.isCount with
      | false => exact Or.inl rfl
      | true => exact Or.inr ⟨isCount, if_pos isCount, rfl⟩

theorem rows_of_countColumn (isCount : countColumn aggregates pcr = true) :
    emptyRow interpretation aggregates row pcr = interpretation.zero ∧
      nullRow interpretation aggregates row pcr = interpretation.null := by
  unfold emptyRow nullRow
  unfold countColumn at isCount
  split at isCount
  case h_2 => cases isCount
  case h_1 aggregate args output found =>
    rw [found]
    exact ⟨if_pos isCount, rfl⟩

theorem mem_of_countColumn (isCount : countColumn aggregates pcr = true) :
    ∃ aggregate args, (.node (.aggFunc aggregate) args, pcr) ∈ aggregates ∧
      aggregate.isCount = true := by
  unfold countColumn at isCount
  split at isCount
  case h_2 => cases isCount
  case h_1 aggregate args output found =>
    have isColumn : output = pcr := by
      have same := List.find?_some found
      exact of_decide_eq_true same
    rw [← isColumn]
    exact ⟨aggregate, args, List.mem_of_find?_eq_some found, isCount⟩

theorem mem_of_definition (found : definition lower pcr = some value) :
    .node (.projectElement pcr) [value] ∈ lower := by
  obtain ⟨elem, mem, defines⟩ := List.exists_of_findSome?_eq_some found
  split at defines
  case h_2 => cases defines
  case h_1 column element =>
    split at defines
    case isFalse => cases defines
    case isTrue same =>
      cases defines
      rw [← same]
      exact mem

theorem covered_value (mem : .node (.projectElement pcr) [value] ∈ upper)
    (uses : covered column (.node .projectList upper) = true) : covered column value = true := by
  rw [covered_node, show coalescedToZero column .projectList upper = false from rfl, Bool.false_or,
    List.all_eq_true] at uses
  have element := uses _ mem
  rw [covered_node, show coalescedToZero column (.projectElement pcr) [value] = false from rfl,
    Bool.false_or, List.all_eq_true] at element
  exact element value List.mem_cons_self

theorem used_value (mem : .node (.projectElement pcr) [value] ∈ upper)
    (reads : column ∈ value.deriveUsedColumns) :
    column ∈ (CExpression.node .projectList upper).deriveUsedColumns := by
  have element : column ∈ (CExpression.node (.projectElement pcr) [value]).deriveUsedColumns :=
    mem_used_node.mpr (Or.inr ⟨⟨value, List.mem_cons_self, reads⟩, List.not_mem_nil⟩)
  exact mem_used_node.mpr (Or.inr ⟨⟨_, mem, element⟩, List.not_mem_nil⟩)

theorem projected_defined (found : definition lower column = some value) :
    projected interpretation lower row column = value.eval interpretation row := by
  unfold projected
  rw [found]

theorem projected_undefined (missing : definition lower column = none) :
    projected interpretation lower row column = row column := by
  unfold projected
  rw [missing]

theorem eval_without_count
    (noCount : ∀ column ∈ value.deriveUsedColumns, countColumn aggregates column = false) :
    value.eval interpretation (emptyRow interpretation aggregates row) =
      value.eval interpretation (nullRow interpretation aggregates row) := by
  apply eval_blind
  intro column
  cases emptyRow_cases interpretation aggregates row column with
  | inl same => exact Or.inl same
  | inr count =>
    refine Or.inr (Or.inr fun reads => ?_)
    have none := noCount column reads
    rw [count.1] at none
    cases none

/-- The upper list is blind to the difference where no descriptor reads a count passed on. -/
theorem blind_upper
    (accepted : compensated (.node .projectList upper) lower aggregates false = true)
    (mem : .node (.projectElement pcr) [value] ∈ upper)
    (unread : ∀ column ∈ value.freeDescriptors, passesOnCount lower aggregates column = false) :
    Blind interpretation
      (projected interpretation lower (emptyRow interpretation aggregates row))
      (projected interpretation lower (nullRow interpretation aggregates row)) value := by
  have compensates : ∀ output, countColumn aggregates output = true →
      Compensates (.node .projectList upper) output lower ∧
        output ∉ (CExpression.node .projectList upper).deriveUsedColumns := by
    intro output isCount
    obtain ⟨aggregate, args, inAggregates, count⟩ := mem_of_countColumn isCount
    obtain ⟨aggregate', args', same, facts⟩ := compensated_spec accepted _ inAggregates
    cases same
    exact facts count
  intro column
  cases found : definition lower column with
  | none =>
    rw [projected_undefined found, projected_undefined found]
    cases emptyRow_cases interpretation aggregates row column with
    | inl same => exact Or.inl same
    | inr count =>
      exact Or.inr (Or.inr fun reads => (compensates column count.1).2 (used_value mem reads))
  | some defining =>
    rw [projected_defined found, projected_defined found]
    by_cases reads : ∃ output ∈ defining.deriveUsedColumns, countColumn aggregates output = true
    case neg =>
      left
      apply eval_without_count
      intro output used
      exact Bool.eq_false_iff.mpr fun isCount => reads ⟨output, used, isCount⟩
    case pos =>
      obtain ⟨output, used, isCount⟩ := reads
      obtain ⟨intermediate, value', same, facts⟩ :=
        (compensates output isCount).1 _ (mem_of_definition found)
      cases same
      obtain ⟨isIdent, uses⟩ := facts used
      subst isIdent
      have rows := @rows_of_countColumn V interpretation aggregates row output isCount
      refine Or.inr (Or.inl ⟨rows.1, rows.2, covered_value mem uses, fun inDescriptor => ?_⟩)
      have passes := unread column inDescriptor
      unfold passesOnCount at passes
      rw [found] at passes
      change countColumn aggregates output = false at passes
      rw [isCount] at passes
      cases passes

end Compensation

section Marks

inductive Mark where
  | null
  | zero
  | clean
  | dirty
  deriving DecidableEq, Repr

/-- A node is dirty if its descriptor reads a zero in the column, or a child is dirty. -/
def markNode (column : ℕ) (op : COperator) (read marks : List Mark) : Mark :=
  match op, marks with
  | .coalesce, [.null, .zero] => .zero
  | .coalesce, [mark, .zero] => mark
  | _, _ =>
    if (column, Mark.zero) ∈ op.outerColumns.zip read ∨ Mark.dirty ∈ marks then .dirty else .clean

def marking (column : ℕ) : Interpretation Mark where
  null := .null
  zero := .zero
  const := fun datum =>
    if fScalarInt8Zero (.const datum) then .zero else if datum.isNull then .null else .clean
  apply := fun op read children =>
    markNode column op read (children.map fun child => child fun _ => .clean)
  const_zero := fun datum isZero => if_pos isZero
  coalesce_null := rfl
  coalesce_value := by
    intro value notNull
    cases value with
    | null => exact absurd rfl notNull
    | zero => rfl
    | clean => rfl
    | dirty => rfl

variable {column : ℕ} {op : COperator} {children : List CExpression} {row : ℕ → Mark}
  {read marks : List Mark}

theorem markNode_dirty (plain : (column, Mark.zero) ∉ op.outerColumns.zip read)
    (clean : Mark.dirty ∉ marks) : markNode column op read marks ≠ .dirty := by
  unfold markNode
  split
  case h_1 => exact Mark.noConfusion
  case h_2 mark _ =>
    intro isDirty
    rw [isDirty] at clean
    exact clean List.mem_cons_self
  case h_3 =>
    rw [if_neg fun found => found.elim plain clean]
    exact Mark.noConfusion

theorem evalChildren_marks {produced : List ℕ} :
    (evalChildren (marking column) produced row children).map (fun child => child fun _ => .clean) =
      children.map fun child => child.eval (marking column)
        (bound produced (fun _ => .clean) row) := by
  induction children with
  | nil => rfl
  | cons child rest ih =>
    unfold evalChildren
    rw [List.map_cons, List.map_cons, ih]

theorem eval_mark : (CExpression.node op children).eval (marking column) row =
    markNode column op (op.outerColumns.map row)
      (children.map fun child => child.eval (marking column)
        (bound op.produced (fun _ => .clean) row)) := by
  rw [CExpression.eval, ← evalChildren_marks]
  rfl

theorem mem_zip_read {columns : List ℕ} {mark : Mark} :
    (column, mark) ∈ columns.zip (columns.map row) ↔ column ∈ columns ∧ row column = mark := by
  rw [← List.map_prod_left_eq_zip, List.mem_map]
  constructor
  · intro ⟨other, mem, same⟩
    cases same
    exact ⟨mem, rfl⟩
  · intro ⟨mem, isMark⟩
    exact ⟨column, mem, by rw [isMark]⟩

theorem eval_ne_dirty (expr : CExpression) (clean : ∀ pcr, row pcr ≠ .dirty)
    (notZero : row column ≠ .zero) : expr.eval (marking column) row ≠ .dirty := by
  induction expr using CExpression.induct generalizing row with
  | ident pcr => exact clean pcr
  | const datum =>
    change (if _ then _ else if _ then _ else _ : Mark) ≠ _
    split
    case isTrue => exact Mark.noConfusion
    case isFalse => split <;> exact Mark.noConfusion
  | node op children ih =>
    rw [eval_mark]
    apply markNode_dirty
    · intro mem
      exact notZero (mem_zip_read.mp mem).2
    · intro mem
      obtain ⟨child, isChild, isDirty⟩ := List.mem_map.mp mem
      refine ih child isChild ?_ ?_ isDirty
      · intro pcr
        unfold bound
        split
        case isTrue => exact Mark.noConfusion
        case isFalse => exact clean pcr
      · unfold bound
        split
        case isTrue => exact Mark.noConfusion
        case isFalse => exact notZero

theorem markNode_of_dirty (mem : Mark.dirty ∈ marks) : markNode column op read marks = .dirty := by
  unfold markNode
  split
  case h_1 =>
    simp at mem
  case h_2 =>
    simp at mem
    exact mem.symm
  case h_3 => exact if_pos (Or.inr mem)

theorem markNode_of_read (mem : (column, Mark.zero) ∈ op.outerColumns.zip read) :
    markNode column op read marks = .dirty := by
  unfold markNode
  split
  case h_1 => cases mem
  case h_2 => cases mem
  case h_3 => exact if_pos (Or.inl mem)

theorem eval_dirty (expr : CExpression) (isZero : row column = .zero)
    (reads : column ∈ expr.freeDescriptors) : expr.eval (marking column) row = .dirty := by
  induction expr using CExpression.induct generalizing row with
  | ident pcr => cases reads
  | const datum => cases reads
  | node op children ih =>
    rw [eval_mark]
    cases mem_free_node.mp reads with
    | inl own =>
      apply markNode_of_read
      exact mem_zip_read.mpr ⟨own, isZero⟩
    | inr below =>
      obtain ⟨⟨child, isChild, inChild⟩, unbound⟩ := below
      apply markNode_of_dirty
      refine List.mem_map.mpr ⟨child, isChild, ih child isChild ?_ inChild⟩
      unfold bound
      rw [if_neg unbound]
      exact isZero

end Marks

section Result
variable {upper lower : List CExpression} {aggregates : List (CExpression × ℕ)}

theorem not_compensation {pcr column : ℕ} {value : CExpression}
    (mem : .node (.projectElement pcr) [value] ∈ upper) (reads : column ∈ value.freeDescriptors)
    (passes : passesOnCount lower aggregates column = true) :
    ¬ Compensation upper lower aggregates := by
  intro compensation
  have same := compensation Mark (marking column) (fun _ => .clean) pcr value mem
  unfold passesOnCount at passes
  split at passes
  case h_2 => cases passes
  case h_1 output found =>
    have rows := @rows_of_countColumn Mark (marking column) aggregates (fun _ => .clean) output
      passes
    have zero : projected (marking column) lower (emptyRow (marking column) aggregates
        fun _ => .clean) column = .zero := (projected_defined found).trans rows.1
    have null : projected (marking column) lower (nullRow (marking column) aggregates
        fun _ => .clean) column = .null := (projected_defined found).trans rows.2
    have nullRow_dirty : ∀ pcr, nullRow (marking column) aggregates (fun _ => .clean) pcr ≠ .dirty ∧
        nullRow (marking column) aggregates (fun _ => .clean) pcr ≠ .zero := by
      intro pcr
      unfold nullRow
      split <;> exact ⟨Mark.noConfusion, Mark.noConfusion⟩
    have lower_clean : ∀ pcr, projected (marking column) lower (nullRow (marking column) aggregates
        fun _ => .clean) pcr ≠ .dirty := by
      intro pcr
      cases definitionOf : definition lower pcr with
      | none =>
        rw [projected_undefined definitionOf]
        exact (nullRow_dirty pcr).1
      | some defining =>
        rw [projected_defined definitionOf]
        exact eval_ne_dirty defining (fun pcr => (nullRow_dirty pcr).1) (nullRow_dirty column).2
    rw [eval_dirty value zero reads] at same
    refine eval_ne_dirty value lower_clean ?_ same.symm
    rw [null]
    exact Mark.noConfusion

theorem compensation_iff
    (accepted : compensated (.node .projectList upper) lower aggregates false = true) :
    Compensation upper lower aggregates ↔
      ∀ pcr value, .node (.projectElement pcr) [value] ∈ upper →
        ∀ column ∈ value.freeDescriptors, passesOnCount lower aggregates column = false := by
  constructor
  · intro compensation pcr value mem column reads
    refine Bool.eq_false_iff.mpr fun passes => ?_
    exact not_compensation mem reads passes compensation
  · intro unread V interpretation row pcr value mem
    exact eval_blind value (blind_upper accepted mem (unread pcr value mem))

theorem fCompensates_spec {upperList lowerList : CExpression} {outputs : List ℕ}
    {funcs : List CExpression} (accepted : fCompensates upperList lowerList outputs funcs = true) :
    ∃ upper lower, upperList = .node .projectList upper ∧ lowerList = .node .projectList lower ∧
      compensated (.node .projectList upper) lower (funcs.zip outputs) false = true := by
  unfold fCompensates at accepted
  split at accepted
  case h_2 => cases accepted
  case h_1 upper lower =>
    split at accepted
    case isTrue => cases accepted
    case isFalse => exact ⟨upper, lower, rfl, rfl, accepted⟩

/-- An accepted compensation is right exactly where no descriptor in a value of the upper list
reads a column in which the lower list passes on a count. -/
theorem empty_input_compensation_sound (con : CDSLConstraint) (model : Model)
    (accepted : fCheckEmptyInputCompensation con model = true) :
    ∃ e0 e1 a f upper lower outputs funcs, con.symbols = [e0, e1, a, f] ∧
      model.pexprExpr e0 = some (.node .projectList upper) ∧
      model.pexprExpr e1 = some (.node .projectList lower) ∧
      model.pdrgpcrAttrs a = some outputs ∧ model.pdrgpexprFunc f = some funcs ∧
      (Compensation upper lower (funcs.zip outputs) ↔
        ∀ pcr value, .node (.projectElement pcr) [value] ∈ upper →
          ∀ column ∈ value.freeDescriptors,
            passesOnCount lower (funcs.zip outputs) column = false) := by
  unfold fCheckEmptyInputCompensation at accepted
  split at accepted
  case h_2 => cases accepted
  case h_1 e0 e1 a f symbols =>
    split at accepted
    case isTrue => cases accepted
    case isFalse =>
      split at accepted
      case h_2 => cases accepted
      case h_1 upperList lowerList outputs funcs isUpper isLower isOutputs isFuncs =>
        obtain ⟨upper, lower, upperShape, lowerShape, loops⟩ := fCompensates_spec accepted
        subst upperShape
        subst lowerShape
        exact ⟨e0, e1, a, f, upper, lower, outputs, funcs, symbols, isUpper, isLower, isOutputs,
          isFuncs, compensation_iff loops⟩

def countModel (upper : List CExpression) : Model := fun sym =>
  match sym.kind with
  | .expr =>
    if sym.id = 0 then some (.artifact (.expr (.node .projectList upper)))
    else some (.artifact (.expr (.node .projectList [.node (.projectElement 2) [.ident 1]])))
  | .attrs => some (.attrs [1])
  | .func => some (.artifact (.func [.node (.aggFunc .countStar) []]))
  | _ => none

def compensationConstraint : CDSLConstraint where
  kind := .emptyInputCompensation
  symbols := [⟨0, .expr, .source⟩, ⟨1, .expr, .source⟩, ⟨2, .attrs, .source⟩,
    ⟨3, .func, .source⟩]

def coalescedCount : CExpression :=
  .node .coalesce [.ident 2, .const ⟨.int8, false, 0⟩]

def subqueryAny : CExpression :=
  .node (.other 7 [2] []) [.node (.other 8 [] []) [], .const ⟨.int8, false, 0⟩]

theorem coalesced_count_sound :
    fCheckEmptyInputCompensation compensationConstraint
        (countModel [.node (.projectElement 3) [coalescedCount]]) = true ∧
      Compensation [.node (.projectElement 3) [coalescedCount]]
        [.node (.projectElement 2) [.ident 1]] [(.node (.aggFunc .countStar) [], 1)] := by
  refine ⟨by decide, ?_⟩
  obtain ⟨e0, e1, a, f, upper, lower, outputs, funcs, symbols, isUpper, isLower, isOutputs,
    isFuncs, sound⟩ := empty_input_compensation_sound compensationConstraint
      (countModel [.node (.projectElement 3) [coalescedCount]]) (by decide)
  cases symbols
  cases isUpper
  cases isLower
  cases isOutputs
  cases isFuncs
  refine sound.mpr fun pcr value mem column reads => ?_
  cases List.mem_singleton.mp mem
  cases reads

inductive SqlValue where
  | null
  | int (value : ℤ)
  | truth (holds : Bool)
  | rows (count : ℕ)
  deriving DecidableEq

/-- `value = ANY (SELECT column FROM relation)` for a column from outside, which all rows have. -/
def equalsAny (column value : SqlValue) : SqlValue → SqlValue
  | .rows 0 => .truth false
  | .rows (_ + 1) => if column = .null ∨ value = .null then .null else .truth (column = value)
  | _ => .null

/-- Operator 8 is a relation of one row, operator 7 is `ANY`, all others give NULL. -/
def sqlMeaning : Interpretation SqlValue where
  null := .null
  zero := .int 0
  const := fun datum => if datum.isNull then .null else .int datum.value
  apply := fun
    | .other 8 _ _, _, _ => .rows 1
    | .other 7 _ _, [column], [relation, value] =>
      equalsAny column (value fun _ => .null) (relation fun _ => .null)
    | .coalesce, _, [first, second] =>
      if first (fun _ => .null) = .null then second fun _ => .null else first fun _ => .null
    | _, _, _ => .null
  const_zero := by
    intro datum isZero
    simp only [fScalarInt8Zero, Bool.and_eq_true, Bool.not_eq_true', decide_eq_true_eq] at isZero
    simp [isZero.1.1, isZero.2]
  coalesce_null := rfl
  coalesce_value := by
    intro value known
    exact if_neg known

/-- A subquery compares its outer column with zero: the count is coalesced elsewhere, but the
subquery sees NULL in place of zero and is UNKNOWN in place of TRUE. -/
theorem subquery_column_missed :
    fCheckEmptyInputCompensation compensationConstraint
        (countModel [.node (.projectElement 3) [coalescedCount],
          .node (.projectElement 4) [subqueryAny]]) = true ∧
      ¬ Compensation
        [.node (.projectElement 3) [coalescedCount], .node (.projectElement 4) [subqueryAny]]
        [.node (.projectElement 2) [.ident 1]] [(.node (.aggFunc .countStar) [], 1)] := by
  refine ⟨by decide, fun compensation => ?_⟩
  have same := compensation SqlValue sqlMeaning (fun _ => .null) 4 subqueryAny
    (List.mem_cons_of_mem _ List.mem_cons_self)
  revert same
  decide

end Result
end EmptyInputs
