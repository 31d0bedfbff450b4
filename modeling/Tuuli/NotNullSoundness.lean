import Tuuli.NotNullProofs

/-!
What `FExpressionProvesNotNull` proves is true of every row. A followed child keeps the values of
its columns, so a NULL in a row of the operator is a NULL in a row of the child.
-/
namespace NotNullProofs

section Operators
variable {V : Type} {database : Database V} {pred : Scalar} {columns : List ℕ}
  {row joined outer : Row V} {others rows : List (Row V)} {pcr : ℕ} {upper lower : Row V}
  {child kept : CExpression} {rest : List CExpression} {ul : ℕ}

theorem overlay_of_mem (mem : pcr ∈ columns) : overlay columns upper lower pcr = upper pcr :=
  if_pos mem

theorem overlay_of_notMem (notMem : pcr ∉ columns) : overlay columns upper lower pcr = lower pcr :=
  if_neg notMem

theorem mem_matching (mem : joined ∈ matching database pred columns row others) :
    ∃ other ∈ others, joined = overlay columns other row := by
  obtain ⟨other, isOther, same⟩ := List.mem_map.mp (List.mem_filter.mp mem).1
  exact ⟨other, isOther, same.symm⟩

theorem mem_padded (mem : joined ∈ padded database pred columns row others) :
    ∃ upper, joined = overlay columns upper row := by
  unfold padded at mem
  split at mem
  case h_1 => exact ⟨_, List.mem_singleton.mp mem⟩
  case h_2 =>
    obtain ⟨other, -, same⟩ := mem_matching mem
    exact ⟨other, same⟩

theorem mem_of_mem_limited {offset count : Scalar}
    (mem : row ∈ limited database offset count outer rows) : row ∈ rows := by
  unfold limited at mem
  simp only at mem
  split at mem
  case h_1 => exact List.mem_of_mem_drop (List.mem_of_mem_take mem)
  case h_2 => exact List.mem_of_mem_drop mem

theorem eq_first {first : CExpression} (follows : ul ∈ [0])
    (isChild : (first :: rest)[ul]? = some child) : child = first := by
  rw [List.mem_singleton.mp follows] at isChild
  exact (Option.some.inj isChild).symm

theorem joined_keeps {left right : CExpression} (rowsOf : Row V → Row V)
    (mem : joined ∈ (left.rows database outer).flatMap fun row => matching database pred
      (deriveOutputColumns right) row (right.rows database (rowsOf row)))
    (distinct : ∀ pcr ∈ deriveOutputColumns left, pcr ∉ deriveOutputColumns right)
    (follows : ul ∈ [0, 1]) (isChild : (left :: right :: rest)[ul]? = some child)
    (output : pcr ∈ deriveOutputColumns child) :
    ∃ outer', ∃ origin ∈ child.rows database outer', joined pcr = origin pcr := by
  obtain ⟨row, isRow, found⟩ := List.mem_flatMap.mp mem
  obtain ⟨other, isOther, same⟩ := mem_matching found
  rw [same]
  cases List.mem_cons.mp follows with
  | inl isLeft =>
    rw [isLeft] at isChild
    cases isChild
    exact ⟨outer, row, isRow, overlay_of_notMem (distinct pcr output)⟩
  | inr isRight =>
    rw [List.mem_singleton.mp isRight] at isChild
    cases isChild
    exact ⟨rowsOf row, other, isOther, overlay_of_mem output⟩

theorem padded_keeps {othersOf : Row V → List (Row V)}
    (mem : joined ∈ (kept.rows database outer).flatMap fun row => padded database pred columns row
      (othersOf row)) (distinct : pcr ∉ columns) :
    ∃ outer', ∃ origin ∈ kept.rows database outer', joined pcr = origin pcr := by
  obtain ⟨row, isRow, found⟩ := List.mem_flatMap.mp mem
  obtain ⟨upper, same⟩ := mem_padded found
  rw [same]
  exact ⟨outer, row, isRow, overlay_of_notMem distinct⟩

theorem filtered_keeps {test : Row V → Bool} (mem : row ∈ (kept.rows database outer).filter test) :
    ∃ outer', ∃ origin ∈ kept.rows database outer', row pcr = origin pcr :=
  ⟨outer, row, (List.mem_filter.mp mem).1, rfl⟩

theorem passes_on {op : EOperatorId} {children : List CExpression}
    (mem : row ∈ (CExpression.logical op children).rows database outer)
    (distinct : DistinctColumns op children) (follows : ul ∈ followed op)
    (isChild : children[ul]? = some child) (output : pcr ∈ deriveOutputColumns child) :
    ∃ outer', ∃ origin ∈ child.rows database outer', row pcr = origin pcr := by
  unfold CExpression.rows at mem
  split at mem
  case h_1 same =>
    -- Select
    cases same
    cases eq_first follows isChild
    exact filtered_keeps mem
  case h_2 same =>
    -- Project
    cases same
    cases eq_first follows isChild
    obtain ⟨origin, isOrigin, found⟩ := List.mem_flatMap.mp mem
    obtain ⟨values, -, same⟩ := List.mem_map.mp found
    rw [← same]
    exact ⟨_, origin, isOrigin, overlay_of_notMem fun defined => distinct pcr defined output⟩
  case h_3 same =>
    -- SequenceProject
    cases same
    cases eq_first follows isChild
    obtain ⟨⟨origin, position⟩, entry, same⟩ := List.mem_map.mp mem
    rw [← same]
    exact ⟨_, origin, List.fst_mem_of_mem_zipIdx entry,
      overlay_of_notMem fun defined => distinct pcr defined output⟩
  case h_4 same =>
    -- Limit
    cases same
    cases eq_first follows isChild
    exact ⟨_, row, database.mem_of_mem_sorted (mem_of_mem_limited mem), rfl⟩
  case h_5 same =>
    -- InnerJoin
    cases same
    exact joined_keeps (fun _ => _) mem distinct follows isChild output
  case h_6 same =>
    -- InnerApply
    cases same
    exact joined_keeps id mem distinct follows isChild output
  case h_7 same =>
    -- LeftOuterJoin
    cases same
    cases eq_first follows isChild
    exact padded_keeps mem (distinct pcr output)
  case h_8 same =>
    -- LeftOuterApply
    cases same
    cases eq_first follows isChild
    exact padded_keeps mem (distinct pcr output)
  case h_9 same =>
    -- RightOuterJoin
    cases same
    rw [List.mem_singleton.mp follows] at isChild
    cases isChild
    exact padded_keeps mem fun left => distinct pcr left output
  case h_10 same =>
    -- LeftSemiJoin
    cases same
    cases eq_first follows isChild
    exact filtered_keeps mem
  case h_11 same =>
    -- LeftAntiSemiJoin
    cases same
    cases eq_first follows isChild
    exact filtered_keeps mem
  case h_12 same =>
    -- LeftAntiSemiJoinNotIn
    cases same
    cases eq_first follows isChild
    exact filtered_keeps mem
  case h_13 same =>
    -- No child of another operator is followed.
    cases same
    cases follows
  case h_14 => cases mem

end Operators

section Soundness
variable {V : Type}

structure Analyses.Sound (analyses : Analyses) (database : Database V) : Prop where
  notNull : ∀ (expr : CExpression) (outer row : Row V), row ∈ expr.rows database outer →
    ∀ pcr ∈ analyses.deriveNotNullColumns expr, row pcr ≠ none
  nullRejecting : ∀ (pred : Scalar) (pcr : ℕ) (row : Row V),
    analyses.fNullRejecting pred pcr = true → row pcr = none → database.truth pred row ≠ some true

variable {analyses : Analyses} {database : Database V} {pcr : ℕ} {outer row : Row V}
  {expr : CExpression}

theorem selection_chain_sound (sound : analyses.Sound database) (expr : CExpression)
    (rejects : fSelectionChainRejectsNull analyses pcr expr = true)
    (mem : row ∈ expr.rows database outer) : row pcr ≠ none := by
  induction expr using CExpression.induct generalizing outer with
  | scalar s => cases rejects
  | logical op children ih =>
    unfold fSelectionChainRejectsNull at rejects
    split at rejects
    case h_2 => cases rejects
    case h_1 input pred same =>
      cases same
      have kept := List.mem_filter.mp mem
      split at rejects
      case isTrue direct =>
        intro isNull
        exact sound.nullRejecting pred pcr row direct.2 isNull (of_decide_eq_true kept.2)
      case isFalse => exact ih input List.mem_cons_self rejects kept.1

theorem followed_child {indices : List ℕ} {ul : ℕ} {children : List CExpression}
    (proves : followedProveNotNull analyses pcr indices ul children = true) :
    ∃ i child, ul + i ∈ indices ∧ children[i]? = some child ∧
      fExpressionProvesNotNull analyses pcr child = true := by
  induction children generalizing ul with
  | nil => cases proves
  | cons child rest ih =>
    unfold followedProveNotNull at proves
    rw [Bool.or_eq_true, Bool.and_eq_true, decide_eq_true_eq] at proves
    cases proves with
    | inl here => exact ⟨0, child, here.1, rfl, here.2⟩
    | inr later =>
      obtain ⟨i, found, inIndices, isChild, proven⟩ := ih later
      refine ⟨i + 1, found, ?_, isChild, proven⟩
      rw [← Nat.add_assoc, Nat.add_right_comm]
      exact inIndices

theorem output_of_proves (proves : fExpressionProvesNotNull analyses pcr expr = true) :
    pcr ∈ deriveOutputColumns expr := by
  cases expr with
  | scalar s => cases proves
  | logical op children =>
    unfold fExpressionProvesNotNull at proves
    rw [Bool.and_eq_true, decide_eq_true_eq] at proves
    exact proves.1

theorem not_null_of_proves (sound : analyses.Sound database) (wellScoped : WellScoped expr)
    (proves : fExpressionProvesNotNull analyses pcr expr = true)
    (mem : row ∈ expr.rows database outer) : row pcr ≠ none := by
  induction wellScoped generalizing outer row with
  | scalar s => cases proves
  | @logical op children distinct below ih =>
    unfold fExpressionProvesNotNull at proves
    rw [Bool.and_eq_true, Bool.or_eq_true, Bool.or_eq_true, decide_eq_true_eq] at proves
    cases proves.2 with
    | inl direct =>
      cases direct with
      | inl derived => exact sound.notNull _ outer row mem pcr (of_decide_eq_true derived)
      | inr rejects => exact selection_chain_sound sound _ rejects mem
    | inr followedProves =>
      obtain ⟨ul, child, follows, isChild, proven⟩ := followed_child followedProves
      rw [Nat.zero_add] at follows
      obtain ⟨outer', origin, isOrigin, same⟩ :=
        passes_on mem distinct follows isChild (output_of_proves proven)
      rw [same]
      exact ih child (List.mem_of_getElem? isChild) proven isOrigin

open RuleModels in
theorem fCheckNotNull_spec {con : CDSLConstraint} {model : Model}
    (accepted : fCheckNotNull analyses con model = true) :
    ∃ attrs ∈ con.symbols, ∃ table ∈ con.symbols, ∃ expr columns,
      attrs.kind = .attrs ∧ table.kind = .table ∧ model.pexprTable table = some expr ∧
      model.pcrsFromAttrsSym attrs = some columns ∧
      ∀ pcr ∈ columns, fExpressionProvesNotNull analyses pcr expr = true := by
  have ofKind : ∀ {kind : EDslSymbolKind} {sym : CDSLSymbol},
      lastOfKind kind con.symbols = some sym → sym ∈ con.symbols ∧ sym.kind = kind := by
    intro kind sym found
    unfold lastOfKind at found
    have isKind := List.find?_some found
    exact ⟨List.mem_reverse.mp (List.mem_of_find?_eq_some found), of_decide_eq_true isKind⟩
  unfold fCheckNotNull at accepted
  split at accepted
  case isTrue => cases accepted
  case isFalse =>
    split at accepted
    case h_2 => cases accepted
    case h_1 attrs table isAttrs isTable =>
      split at accepted
      case h_2 => cases accepted
      case h_1 expr columns bound known =>
        exact ⟨attrs, (ofKind isAttrs).1, table, (ofKind isTable).1, expr, columns,
          (ofKind isAttrs).2, (ofKind isTable).2, bound, known, List.all_eq_true.mp accepted⟩

open RuleModels in
/-- What the search and the constraint `NotNull` accept is never NULL. -/
theorem expression_proves_not_null (analyses : Analyses) (database : Database V)
    (sound : analyses.Sound database) :
    (∀ expr, WellScoped expr → ∀ pcr, fExpressionProvesNotNull analyses pcr expr = true →
      ∀ outer, ∀ row ∈ expr.rows database outer, row pcr ≠ none) ∧
    ∀ (con : CDSLConstraint) (model : Model), fCheckNotNull analyses con model = true →
      ∃ attrs ∈ con.symbols, ∃ table ∈ con.symbols, ∃ expr columns,
        attrs.kind = .attrs ∧ table.kind = .table ∧ model.pexprTable table = some expr ∧
        model.pcrsFromAttrsSym attrs = some columns ∧
        (WellScoped expr → ∀ pcr ∈ columns, ∀ outer, ∀ row ∈ expr.rows database outer,
          row pcr ≠ none) := by
  constructor
  · intro expr wellScoped pcr proves outer row mem
    exact not_null_of_proves sound wellScoped proves mem
  · intro con model accepted
    obtain ⟨attrs, inAttrs, table, inTable, expr, columns, isAttrs, isTable, bound, known,
      proves⟩ := fCheckNotNull_spec accepted
    refine ⟨attrs, inAttrs, table, inTable, expr, columns, isAttrs, isTable, bound, known, ?_⟩
    intro wellScoped pcr inColumns outer row mem
    exact not_null_of_proves sound wellScoped (proves pcr inColumns) mem

/-- Two tables with one row each that has a value and one that has NULL. Predicate 7 compares
column 1 with 3. -/
def twoRows : Database ℕ where
  truth := fun pred row => if pred.id = 7 then (row 1).map fun value => value == 3 else some true
  projected := fun _ _ => []
  windowed := fun _ _ _ _ _ => none
  sorted := fun _ rows => rows
  mem_of_mem_sorted := fun mem => mem
  bound := fun _ _ => none
  other := fun _ _ _ => [fun _ => some 3, fun _ => none]

/-- An analysis that knows predicate 7 to reject NULL in column 1. -/
def knowsSeven : Analyses where
  deriveNotNullColumns := fun _ => []
  fNullRejecting := fun pred pcr => pred.id = 7 && pcr = 1

theorem knowsSeven_sound : knowsSeven.Sound twoRows where
  notNull := by
    intro expr outer row _ pcr mem
    cases mem
  nullRejecting := by
    intro pred pcr row rejects isNull
    unfold knowsSeven at rejects
    rw [Bool.and_eq_true, decide_eq_true_eq, decide_eq_true_eq] at rejects
    have truth : twoRows.truth pred row = (row 1).map fun value => value == 3 :=
      if_pos rejects.1
    rw [truth, ← rejects.2, isNull]
    intro found
    cases found

def filteredLeft : CExpression :=
  .logical .leftOuterJoin [.logical .select [.logical (.other 0 [1]) [], .scalar ⟨7, [1], []⟩],
    .logical (.other 1 [2]) [], .scalar ⟨8, [1, 2], []⟩]

theorem filteredLeft_wellScoped : WellScoped filteredLeft := by
  have table : ∀ id output, WellScoped (.logical (.other id output) []) := by
    intro id output
    refine .logical trivial fun child mem => ?_
    cases mem
  have distinct : ∀ pcr ∈ [1], pcr ∉ [2] := by decide
  refine .logical distinct ?_
  simp only [List.forall_mem_cons]
  refine ⟨.logical trivial ?_, table 1 [2], .scalar _, fun child mem => by cases mem⟩
  simp only [List.forall_mem_cons]
  exact ⟨table 0 [1], .scalar _, fun child mem => by cases mem⟩

theorem filteredLeft_not_null :
    fExpressionProvesNotNull knowsSeven 1 filteredLeft = true ∧
      (filteredLeft.rows twoRows fun _ => none).length = 2 ∧
      ∀ row ∈ filteredLeft.rows twoRows fun _ => none, row 1 ≠ none :=
  ⟨by decide, by decide, (expression_proves_not_null knowsSeven twoRows knowsSeven_sound).1
    filteredLeft filteredLeft_wellScoped 1 (by decide) _⟩

end Soundness
end NotNullProofs
