import Mathlib.Data.List.Nodup
import Tuuli.ProjectLists

/-!
The laws of project lists. A list may be evaluated in two layers when the upper layer reads no
column of the lower one and only one of them has set-returning elements.
-/
namespace ProjectLists

section Steady
variable {V : Type} {execution : Execution V} {list : CScalarProjectList}

def Steady (list : CScalarProjectList) : Prop :=
  ∀ elem ∈ list, elem.expr.efs.rank < EFuncStbl.volatile.rank

theorem larger_lt {efs efsChild : EFuncStbl} {bound : ℕ} :
    (efs.larger efsChild).rank < bound ↔ efs.rank < bound ∧ efsChild.rank < bound := by
  unfold EFuncStbl.larger
  split <;> omega

theorem foldl_larger_lt {start : EFuncStbl} {bound : ℕ} :
    (list.foldl (fun efs elem => efs.larger elem.expr.efs) start).rank < bound ↔
      start.rank < bound ∧ ∀ elem ∈ list, elem.expr.efs.rank < bound := by
  induction list generalizing start with
  | nil =>
    rw [List.foldl_nil]
    constructor
    · intro low
      refine ⟨low, fun elem mem => ?_⟩
      cases mem
    · exact And.left
  | cons elem rest ih =>
    rw [List.foldl_cons, ih, larger_lt, List.forall_mem_cons, and_assoc]

theorem fReorderableProjectList_iff : fReorderableProjectList list = true ↔ Steady list := by
  unfold fReorderableProjectList efs
  rw [decide_eq_true_eq, foldl_larger_lt]
  constructor
  · exact And.right
  · intro steady
    exact ⟨by decide, steady⟩

theorem expand_occasion (steady : Steady list) (occasion occasion' : Occasion) (row : ℕ → V) :
    expand execution occasion list row = expand execution occasion' list row := by
  unfold expand
  have same : ∀ values, assign execution occasion list values row =
      assign execution occasion' list values row := by
    intro values
    funext pcr
    unfold assign
    cases found : list.find? fun elem => elem.pcr = pcr with
    | none => rfl
    | some elem =>
      have steadyElem := steady elem (List.mem_of_find?_eq_some found)
      change (if _ then _ else _) = if _ then _ else _
      rw [execution.value_congr occasion occasion' steadyElem fun _ _ => rfl]
  rw [execution.cohort_congr occasion occasion'
    (fun elem mem => steady elem (List.mem_filter.mp mem).1) fun _ _ _ _ => rfl]
  exact List.map_congr_left fun values _ => same values

theorem project_eq_flatMap (steady : Steady list) (place : ℕ) (rows : List (ℕ → V)) :
    project execution place list rows = rows.flatMap (expand execution (0, 0) list) := by
  have positions : rows.flatMap (expand execution (0, 0) list) =
      (rows.zipIdx.map Prod.fst).flatMap (expand execution (0, 0) list) := by
    rw [List.zipIdx_map_fst]
  unfold project
  rw [positions, List.flatMap_map]
  apply List.flatMap_congr
  intro entry _
  exact expand_occasion steady _ _ _

end Steady

section Layers
variable {V : Type} {execution : Execution V} {occasion : Occasion}
  {upper lower list list' : CScalarProjectList} {values row row' : ℕ → V} {pcr : ℕ}

/-- No element of `upper` reads a column that `lower` defines. -/
def Independent (upper lower : CScalarProjectList) : Prop :=
  ∀ elem ∈ upper, ∀ pcr ∈ elem.deriveUsedColumns, pcr ∉ deriveDefinedColumns lower

def Plain (list : CScalarProjectList) : Prop :=
  ∀ elem ∈ list, elem.deriveHasNonScalarFunction = false

variable {elem : CScalarProjectElement}

theorem find?_column (distinct : (deriveDefinedColumns list).Nodup) (mem : elem ∈ list) :
    list.find? (fun other => other.pcr = elem.pcr) = some elem := by
  induction list with
  | nil => cases mem
  | cons first rest ih =>
    unfold deriveDefinedColumns at distinct
    rw [List.map_cons, List.nodup_cons] at distinct
    cases List.mem_cons.mp mem with
    | inl isFirst =>
      subst isFirst
      exact List.find?_cons_of_pos (decide_eq_true rfl)
    | inr later =>
      have other : first.pcr ≠ elem.pcr := by
        intro same
        rw [same] at distinct
        exact distinct.1 (List.mem_map_of_mem later)
      rw [List.find?_cons_of_neg (by rw [decide_eq_true_eq]; exact other)]
      exact ih distinct.2 later

theorem find?_eq_none_of_undefined (undefined : pcr ∉ deriveDefinedColumns list) :
    list.find? (fun elem => elem.pcr = pcr) = none := by
  rw [List.find?_eq_none]
  intro elem mem same
  rw [decide_eq_true_eq] at same
  exact undefined (same ▸ List.mem_map_of_mem mem)

theorem assign_found (found : list.find? (fun elem => elem.pcr = pcr) = some elem) :
    assign execution occasion list values row pcr =
      if elem.deriveHasNonScalarFunction then values pcr
      else execution.value occasion elem.expr row := by
  unfold assign
  rw [found]

theorem assign_missing (missing : list.find? (fun elem => elem.pcr = pcr) = none) :
    assign execution occasion list values row pcr = row pcr := by
  unfold assign
  rw [missing]

theorem assign_undefined (undefined : pcr ∉ deriveDefinedColumns list) :
    assign execution occasion list values row pcr = row pcr :=
  assign_missing (find?_eq_none_of_undefined undefined)

theorem assign_perm (distinct : (deriveDefinedColumns list).Nodup) (perm : list.Perm list') :
    assign execution occasion list values row = assign execution occasion list' values row := by
  have distinct' : (deriveDefinedColumns list').Nodup := (perm.map _).nodup_iff.mp distinct
  funext pcr
  by_cases defined : pcr ∈ deriveDefinedColumns list
  case pos =>
    obtain ⟨elem, mem, isColumn⟩ := List.mem_map.mp defined
    subst isColumn
    rw [assign_found (find?_column distinct mem),
      assign_found (find?_column distinct' (perm.mem_iff.mp mem))]
  case neg =>
    have undefined : pcr ∉ deriveDefinedColumns list' := fun mem =>
      defined ((perm.map _).mem_iff.mpr mem)
    rw [assign_undefined defined, assign_undefined undefined]

theorem expand_perm (distinct : (deriveDefinedColumns list).Nodup) (perm : list.Perm list')
    (cohort : list.filter CScalarProjectElement.deriveHasNonScalarFunction = list'.filter
      CScalarProjectElement.deriveHasNonScalarFunction) :
    expand execution occasion list row = expand execution occasion list' row := by
  unfold expand
  rw [cohort]
  exact List.map_congr_left fun values _ => assign_perm distinct perm

theorem assign_append (independent : Independent upper lower) (steady : Steady upper) :
    assign execution occasion (upper ++ lower) values row =
      assign execution occasion upper values (assign execution occasion lower values row) := by
  funext pcr
  cases found : upper.find? fun elem => elem.pcr = pcr with
  | none =>
    rw [assign_missing found]
    unfold assign
    rw [List.find?_append, found, Option.none_or]
  | some elem =>
    have mem := List.mem_of_find?_eq_some found
    have both : (upper ++ lower).find? (fun elem => elem.pcr = pcr) = some elem := by
      rw [List.find?_append, found, Option.some_or]
    have same : execution.value occasion elem.expr row =
        execution.value occasion elem.expr (assign execution occasion lower values row) :=
      execution.value_congr occasion occasion (steady elem mem) fun used inUsed =>
        (assign_undefined (independent elem mem used inUsed)).symm
    rw [assign_found both, assign_found found, same]

theorem assign_plain (plain : Plain list) (values values' : ℕ → V) :
    assign execution occasion list values row = assign execution occasion list values' row := by
  funext pcr
  cases found : list.find? fun elem => elem.pcr = pcr with
  | none => rw [assign_missing found, assign_missing found]
  | some elem =>
    have scalar := plain elem (List.mem_of_find?_eq_some found)
    rw [assign_found found, assign_found found, scalar]
    rfl

theorem filter_plain (plain : Plain list) :
    list.filter CScalarProjectElement.deriveHasNonScalarFunction = [] := by
  rw [List.filter_eq_nil_iff]
  intro elem mem
  rw [plain elem mem]
  exact Bool.false_ne_true

theorem expand_plain (plain : Plain list) (values : ℕ → V) :
    expand execution occasion list row = [assign execution occasion list values row] := by
  obtain ⟨own, single⟩ := execution.cohort_nil occasion row
  unfold expand
  rw [filter_plain plain, single, List.map_singleton, assign_plain plain own values]

theorem expand_append (independent : Independent upper lower) (steady : Steady upper)
    (single : Plain upper ∨ Plain lower) :
    (expand execution occasion lower row).flatMap (expand execution occasion upper) =
      expand execution occasion (upper ++ lower) row := by
  cases single with
  | inl plain =>
    have whole : expand execution occasion (upper ++ lower) row = (execution.cohort occasion
        (lower.filter CScalarProjectElement.deriveHasNonScalarFunction) row).map
          fun values => assign execution occasion (upper ++ lower) values row := by
      unfold expand
      rw [List.filter_append, filter_plain plain, List.nil_append]
    have lowerRows : expand execution occasion lower row = (execution.cohort occasion
        (lower.filter CScalarProjectElement.deriveHasNonScalarFunction) row).map
          fun values => assign execution occasion lower values row := rfl
    rw [whole, lowerRows, List.flatMap_map, List.map_eq_flatMap]
    apply List.flatMap_congr
    intro values _
    rw [assign_append independent steady]
    exact expand_plain plain values
  | inr plain =>
    have whole : expand execution occasion (upper ++ lower) row = (execution.cohort occasion
        (upper.filter CScalarProjectElement.deriveHasNonScalarFunction) row).map
          fun values => assign execution occasion (upper ++ lower) values row := by
      unfold expand
      rw [List.filter_append, filter_plain plain, List.append_nil]
    rw [whole, expand_plain plain row, List.flatMap_singleton]
    unfold expand
    rw [execution.cohort_congr occasion occasion
      (fun elem mem => steady elem (List.mem_filter.mp mem).1) fun elem mem used inUsed =>
        assign_undefined (independent elem (List.mem_filter.mp mem).1 used inUsed)]
    apply List.map_congr_left
    intro values _
    rw [assign_append independent steady, assign_plain plain values row]

theorem project_project (independent : Independent upper lower) (steady : Steady upper)
    (steadyLower : Steady lower) (single : Plain upper ∨ Plain lower) (place place' place'' : ℕ)
    (rows : List (ℕ → V)) :
    project execution place upper (project execution place' lower rows) =
      project execution place'' (upper ++ lower) rows := by
  have steadyBoth : Steady (upper ++ lower) := by
    intro elem mem
    cases List.mem_append.mp mem with
    | inl inUpper => exact steady elem inUpper
    | inr inLower => exact steadyLower elem inLower
  rw [project_eq_flatMap steady, project_eq_flatMap steadyLower, project_eq_flatMap steadyBoth,
    List.flatMap_assoc]
  apply List.flatMap_congr
  intro row _
  exact expand_append independent steady single

theorem project_perm (distinct : (deriveDefinedColumns list).Nodup) (perm : list.Perm list')
    (cohort : list.filter CScalarProjectElement.deriveHasNonScalarFunction = list'.filter
      CScalarProjectElement.deriveHasNonScalarFunction) (steady : Steady list) (place place' : ℕ)
    (rows : List (ℕ → V)) :
    project execution place list rows = project execution place' list' rows := by
  have steady' : Steady list' := fun elem mem => steady elem (perm.mem_iff.mpr mem)
  rw [project_eq_flatMap steady, project_eq_flatMap steady']
  apply List.flatMap_congr
  intro row _
  exact expand_perm distinct perm cohort

end Layers

section Split
variable {V : Type} {execution : Execution V}
  {upper lower merged moved residual : CScalarProjectList}

/-- How an upper list is split over a lower one. -/
structure Split (upper lower moved residual : CScalarProjectList) : Prop where
  steady : Steady upper
  steadyLower : Steady lower
  partition : (moved ++ residual).Perm upper
  cohort : (residual ++ moved).filter CScalarProjectElement.deriveHasNonScalarFunction =
    upper.filter CScalarProjectElement.deriveHasNonScalarFunction
  together : Plain moved ∨ Plain residual
  independent : Independent moved lower
  single : Plain moved ∨ Plain lower

theorem plain_of_deriveHasNonScalarFunction (none : deriveHasNonScalarFunction lower = false) :
    Plain lower := by
  intro elem mem
  unfold deriveHasNonScalarFunction at none
  rw [List.any_eq_false] at none
  exact Bool.eq_false_iff.mpr (none elem mem)

theorem plain_filter (test : CScalarProjectElement → Bool) :
    Plain ((upper.filter fun elem => !elem.deriveHasNonScalarFunction).filter test) := by
  intro elem mem
  have scalar := (List.mem_filter.mp (List.mem_filter.mp mem).1).2
  rw [Bool.not_eq_true'] at scalar
  exact scalar

theorem independent_of_all
    (all : ∀ elem ∈ moved, independent (deriveDefinedColumns lower) elem = true) :
    Independent moved lower := by
  intro elem mem pcr used
  have reads := all elem mem
  unfold independent at reads
  rw [List.all_eq_true] at reads
  exact of_decide_eq_true (reads pcr used)

theorem perm_upper (test : CScalarProjectElement → Bool) :
    (((upper.filter fun elem => !elem.deriveHasNonScalarFunction).filter test ++
      (upper.filter fun elem => !elem.deriveHasNonScalarFunction).filter fun elem => !test elem) ++
      upper.filter CScalarProjectElement.deriveHasNonScalarFunction).Perm upper := by
  have halves := List.filter_append_perm test
    (upper.filter fun elem => !elem.deriveHasNonScalarFunction)
  have whole := List.filter_append_perm CScalarProjectElement.deriveHasNonScalarFunction upper
  exact ((halves.append_right _).trans List.perm_append_comm).trans whole

theorem filter_cohort : (upper.filter CScalarProjectElement.deriveHasNonScalarFunction).filter
    CScalarProjectElement.deriveHasNonScalarFunction =
    upper.filter CScalarProjectElement.deriveHasNonScalarFunction := by
  rw [List.filter_filter]
  apply List.filter_congr
  intro elem _
  exact Bool.and_self _

theorem cohort_plain (list : CScalarProjectList) (test : CScalarProjectElement → Bool) :
    ((list.filter fun elem => !elem.deriveHasNonScalarFunction).filter test).filter
      CScalarProjectElement.deriveHasNonScalarFunction = [] :=
  filter_plain (plain_filter test)

theorem split_moving (steady : Steady upper) (steadyLower : Steady lower) (plain : Plain lower)
    (all : ∀ elem ∈ upper.filter CScalarProjectElement.deriveHasNonScalarFunction, independent
      (deriveDefinedColumns lower) elem = true) :
    Split upper lower
      ((upper.filter fun elem => !elem.deriveHasNonScalarFunction).filter
        (independent (deriveDefinedColumns lower)) ++
        upper.filter CScalarProjectElement.deriveHasNonScalarFunction)
      ((upper.filter fun elem => !elem.deriveHasNonScalarFunction).filter fun elem =>
        !independent (deriveDefinedColumns lower) elem) where
  steady := steady
  steadyLower := steadyLower
  partition := by
    refine List.Perm.trans ?_ (perm_upper (independent (deriveDefinedColumns lower)))
    rw [List.append_assoc, List.append_assoc]
    exact List.perm_append_comm.append_left _
  cohort := by
    rw [List.filter_append, List.filter_append, cohort_plain, cohort_plain, filter_cohort]
    rfl
  together := Or.inr (plain_filter _)
  independent := by
    apply independent_of_all
    intro elem mem
    cases List.mem_append.mp mem with
    | inl scalar => exact (List.mem_filter.mp scalar).2
    | inr srf => exact all elem srf
  single := Or.inr plain

theorem split_staying (steady : Steady upper) (steadyLower : Steady lower) :
    Split upper lower
      ((upper.filter fun elem => !elem.deriveHasNonScalarFunction).filter
        (independent (deriveDefinedColumns lower)))
      ((upper.filter fun elem => !elem.deriveHasNonScalarFunction).filter (fun elem =>
        !independent (deriveDefinedColumns lower) elem) ++
        upper.filter CScalarProjectElement.deriveHasNonScalarFunction) where
  steady := steady
  steadyLower := steadyLower
  partition := by
    rw [← List.append_assoc]
    exact perm_upper _
  cohort := by
    rw [List.filter_append, List.filter_append, cohort_plain, cohort_plain, filter_cohort,
      List.append_nil]
    rfl
  together := Or.inl (plain_filter _)
  independent := independent_of_all fun elem mem => (List.mem_filter.mp mem).2
  single := Or.inl (plain_filter _)

theorem split_of_fSplit (success : fSplit upper lower = some (merged, residual)) :
    ∃ moved, merged = moved ++ lower ∧ Split upper lower moved residual := by
  unfold fSplit at success
  split at success
  case isTrue => cases success
  case isFalse reorderable =>
    rw [Bool.not_eq_true, Bool.or_eq_false_iff, Bool.not_eq_false', Bool.not_eq_false',
      fReorderableProjectList_iff, fReorderableProjectList_iff] at reorderable
    obtain ⟨steady, steadyLower⟩ := reorderable
    simp only at success
    split at success
    case isTrue moves =>
      rw [Bool.and_eq_true, Bool.not_eq_true', beq_iff_eq] at moves
      have all := List.length_filter_eq_length_iff.mp moves.2.symm
      split at success
      case isTrue => cases success
      case isFalse =>
        cases success
        refine ⟨_, rfl, ?_⟩
        rw [List.append_nil]
        exact split_moving steady steadyLower (plain_of_deriveHasNonScalarFunction moves.1) all
    case isFalse =>
      split at success
      case isTrue => cases success
      case isFalse =>
        cases success
        refine ⟨_, rfl, ?_⟩
        rw [List.append_nil]
        exact split_staying steady steadyLower

/-- Lists that define columns which no element of the lists themselves reads, but for the upper
list reading the columns of the lower one. -/
structure Fresh (upper lower : CScalarProjectList) : Prop where
  distinct : (deriveDefinedColumns (upper ++ lower)).Nodup
  upper_unread : Independent (upper ++ lower) upper
  lower_unread : Independent lower lower

theorem Fresh.distinct_upper (fresh : Fresh upper lower) : (deriveDefinedColumns upper).Nodup := by
  have distinct := fresh.distinct
  unfold deriveDefinedColumns at distinct
  rw [List.map_append] at distinct
  exact distinct.of_append_left

theorem Split.project_eq (split : Split upper lower moved residual) (fresh : Fresh upper lower)
    (place₁ place₂ place₃ place₄ : ℕ) (rows : List (ℕ → V)) :
    project execution place₁ residual (project execution place₂ (moved ++ lower) rows) =
      project execution place₃ upper (project execution place₄ lower rows) := by
  have inUpper : ∀ elem ∈ residual ++ moved, elem ∈ upper := fun elem mem =>
    split.partition.mem_iff.mp (List.perm_append_comm.mem_iff.mp mem)
  have steadyMoved : Steady moved := fun elem mem =>
    split.steady elem (inUpper elem (List.mem_append_right _ mem))
  have steadyResidual : Steady residual := fun elem mem =>
    split.steady elem (inUpper elem (List.mem_append_left _ mem))
  have unread : Independent residual moved := by
    intro elem mem pcr used defined
    obtain ⟨other, isMoved, same⟩ := List.mem_map.mp defined
    apply fresh.upper_unread elem
      (List.mem_append_left _ (inUpper elem (List.mem_append_left _ mem))) pcr used
    exact List.mem_map.mpr ⟨other, inUpper other (List.mem_append_right _ isMoved), same⟩
  calc project execution place₁ residual (project execution place₂ (moved ++ lower) rows)
      = project execution place₁ residual (project execution place₂ moved
          (project execution place₄ lower rows)) := by
        rw [project_project split.independent steadyMoved split.steadyLower split.single]
    _ = project execution place₃ (residual ++ moved) (project execution place₄ lower rows) :=
        project_project unread steadyResidual steadyMoved split.together.symm _ _ _ _
    _ = project execution place₃ upper (project execution place₄ lower rows) := by
        have perm : upper.Perm (residual ++ moved) :=
          split.partition.symm.trans List.perm_append_comm
        exact (project_perm fresh.distinct_upper perm split.cohort.symm split.steady _ _ _).symm

theorem project_pexprConcat (fresh : Fresh upper lower) (unread : Independent upper lower)
    (success : pexprConcat upper lower = some merged) (place₁ place₂ place₃ : ℕ)
    (rows : List (ℕ → V)) :
    project execution place₁ merged rows =
      project execution place₂ upper (project execution place₃ lower rows) := by
  unfold pexprConcat at success
  split at success
  case isFalse => cases success
  case isTrue safe =>
    cases success
    unfold fConcatSafe at safe
    rw [Bool.and_eq_true, Bool.and_eq_true, Bool.not_eq_true', Bool.and_eq_false_iff,
      fReorderableProjectList_iff, fReorderableProjectList_iff] at safe
    obtain ⟨⟨steady, steadyLower⟩, notBoth⟩ := safe
    have single : Plain upper ∨ Plain lower :=
      notBoth.imp plain_of_deriveHasNonScalarFunction plain_of_deriveHasNonScalarFunction
    rw [project_project unread steady steadyLower single place₂ place₃ place₁]
    have sorted : (upper.filter (fun elem => !elem.deriveHasNonScalarFunction) ++
        upper.filter CScalarProjectElement.deriveHasNonScalarFunction).Perm upper :=
      List.perm_append_comm.trans (List.filter_append_perm _ upper)
    have noCohort : (upper.filter fun elem => !elem.deriveHasNonScalarFunction).filter
        CScalarProjectElement.deriveHasNonScalarFunction = [] := by
      apply filter_plain
      intro elem mem
      exact Bool.not_eq_true' _ ▸ (List.mem_filter.mp mem).2
    symm
    apply project_perm fresh.distinct (sorted.append_right lower).symm
    · rw [List.filter_append, List.filter_append, List.filter_append, noCohort, filter_cohort]
      rfl
    · intro elem mem
      cases List.mem_append.mp mem with
      | inl inUpper => exact steady elem inUpper
      | inr inLower => exact steadyLower elem inLower

/-- A split is a partition that keeps the set-returning elements together and moves only
independent elements, and splits and concatenations keep the rows. -/
theorem project_list_laws (upper lower : CScalarProjectList) (fresh : Fresh upper lower)
    (execution : Execution V) (rows : List (ℕ → V)) (place₁ place₂ place₃ place₄ : ℕ) :
    (∀ merged residual, fSplit upper lower = some (merged, residual) →
      ∃ moved, merged = moved ++ lower ∧ (moved ++ residual).Perm upper ∧
        ((∀ elem ∈ moved, elem.deriveHasNonScalarFunction = false) ∨
          ∀ elem ∈ residual, elem.deriveHasNonScalarFunction = false) ∧
        (∀ elem ∈ moved, ∀ pcr ∈ elem.deriveUsedColumns, pcr ∉ deriveDefinedColumns lower) ∧
        project execution place₁ residual (project execution place₂ merged rows) =
          project execution place₃ upper (project execution place₄ lower rows)) ∧
    ((∀ elem ∈ upper, ∀ pcr ∈ elem.deriveUsedColumns, pcr ∉ deriveDefinedColumns lower) →
      ∀ merged, pexprConcat upper lower = some merged →
        project execution place₁ merged rows =
          project execution place₃ upper (project execution place₄ lower rows)) := by
  constructor
  · intro merged residual success
    obtain ⟨moved, same, split⟩ := split_of_fSplit success
    subst same
    exact ⟨moved, rfl, split.partition, split.together, split.independent,
      split.project_eq fresh _ _ _ _ _⟩
  · intro unread merged success
    exact project_pexprConcat fresh unread success _ _ _ _

/-- A series of numbers for every function with one argument. -/
def series : Functions ℕ where
  null := 0
  value := fun _ expr row => match expr with
    | .ident pcr => row pcr
    | _ => 0
  values := fun _ expr row => match expr with
    | .op _ _ _ [.ident pcr] => List.range (row pcr)
    | _ => []
  value_congr := by
    intro expr row row' _ _ _ same
    cases expr with
    | ident pcr => exact same pcr (List.mem_singleton_self pcr)
    | const | op | subquery => rfl
  values_congr := by
    intro expr row row' _ _ _
    split
    next _ _ _ pcr _ =>
      intro same
      rw [same pcr (List.mem_singleton_self pcr)]
    next =>
      intro _
      rfl

/-- An upper list whose set-returning element moves under an element that reads column 5. -/
theorem project_list_laws_series :
    Fresh [⟨10, .op 1 true .immutable [.ident 0]⟩, ⟨11, .ident 5⟩] [⟨5, .ident 0⟩] ∧
      fSplit [⟨10, .op 1 true .immutable [.ident 0]⟩, ⟨11, .ident 5⟩] [⟨5, .ident 0⟩] =
        some ([⟨10, .op 1 true .immutable [.ident 0]⟩, ⟨5, .ident 0⟩], [⟨11, .ident 5⟩]) ∧
      project series.execution 1 [⟨11, .ident 5⟩] (project series.execution 2
        [⟨10, .op 1 true .immutable [.ident 0]⟩, ⟨5, .ident 0⟩] [fun _ => 2]) =
      project series.execution 3 [⟨10, .op 1 true .immutable [.ident 0]⟩, ⟨11, .ident 5⟩]
        (project series.execution 4 [⟨5, .ident 0⟩] [fun _ => 2]) := by
  have fresh : Fresh [⟨10, .op 1 true .immutable [.ident 0]⟩, ⟨11, .ident 5⟩] [⟨5, .ident 0⟩] := by
    constructor
    · decide
    · unfold Independent
      simp only [List.forall_mem_cons, List.cons_append, List.nil_append]
      decide
    · unfold Independent
      simp only [List.forall_mem_cons]
      decide
  have success : fSplit [⟨10, .op 1 true .immutable [.ident 0]⟩, ⟨11, .ident 5⟩] [⟨5, .ident 0⟩] =
      some ([⟨10, .op 1 true .immutable [.ident 0]⟩, ⟨5, .ident 0⟩], [⟨11, .ident 5⟩]) := rfl
  obtain ⟨moved, _, _, _, _, same⟩ :=
    (project_list_laws _ _ fresh series.execution [fun _ => 2] 1 2 3 4).1 _ _ success
  exact ⟨fresh, success, same⟩

end Split
end ProjectLists
