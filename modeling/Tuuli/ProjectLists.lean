import Mathlib.Data.List.Basic

/-!
Project lists and the two ways in which `CDSLExprListUtils` takes them apart and together. An
element with a set-returning function makes several rows; all such elements of one list are
evaluated together.
-/
namespace ProjectLists

section Lists

inductive EFuncStbl where
  | immutable
  | stable
  | volatile
  deriving DecidableEq, Repr

def EFuncStbl.rank : EFuncStbl → ℕ
  | .immutable => 0
  | .stable => 1
  | .volatile => 2

/-- Scalar expressions. Columns and operators are numbers, and a subquery carries the columns
that it uses. -/
inductive CScalar where
  | ident (pcr : ℕ)
  | const (datum : ℕ)
  | op (id : ℕ) (returns_set : Bool) (stability : EFuncStbl) (args : List CScalar)
  | subquery (id : ℕ) (used : List ℕ) (stability : EFuncStbl)

mutual

def CScalar.deriveUsedColumns : CScalar → List ℕ
  | .ident pcr => [pcr]
  | .const _ => []
  | .op _ _ _ args => CScalar.usedByArgs args
  | .subquery _ used _ => used

def CScalar.usedByArgs : List CScalar → List ℕ
  | [] => []
  | arg :: rest => CScalar.deriveUsedColumns arg ++ CScalar.usedByArgs rest

end

mutual

def CScalar.deriveHasNonScalarFunction : CScalar → Bool
  | .op _ returns_set _ args => returns_set || CScalar.anyNonScalar args
  | _ => false

def CScalar.anyNonScalar : List CScalar → Bool
  | [] => false
  | arg :: rest => CScalar.deriveHasNonScalarFunction arg || CScalar.anyNonScalar rest

end

def EFuncStbl.larger (efs efsChild : EFuncStbl) : EFuncStbl :=
  if efs.rank < efsChild.rank then efsChild else efs

mutual

def CScalar.efs : CScalar → EFuncStbl
  | .op _ _ stability args => CScalar.efsDeriveFromChildren args stability
  | .subquery _ _ stability => stability
  | _ => .immutable

def CScalar.efsDeriveFromChildren : List CScalar → EFuncStbl → EFuncStbl
  | [], efs => efs
  | arg :: rest, efs => CScalar.efsDeriveFromChildren rest (efs.larger (CScalar.efs arg))

end

structure CScalarProjectElement where
  pcr : ℕ
  expr : CScalar

abbrev CScalarProjectList := List CScalarProjectElement

def CScalarProjectElement.deriveUsedColumns (elem : CScalarProjectElement) : List ℕ :=
  elem.expr.deriveUsedColumns

def CScalarProjectElement.deriveHasNonScalarFunction (elem : CScalarProjectElement) : Bool :=
  elem.expr.deriveHasNonScalarFunction

def deriveDefinedColumns (list : CScalarProjectList) : List ℕ :=
  list.map CScalarProjectElement.pcr

def deriveHasNonScalarFunction (list : CScalarProjectList) : Bool :=
  list.any CScalarProjectElement.deriveHasNonScalarFunction

def efs (list : CScalarProjectList) : EFuncStbl :=
  list.foldl (fun efs elem => efs.larger elem.expr.efs) .immutable

def fReorderableProjectList (list : CScalarProjectList) : Bool :=
  (efs list).rank < EFuncStbl.volatile.rank

end Lists

section Algebra

def fConcatSafe (upper lower : CScalarProjectList) : Bool :=
  fReorderableProjectList upper && fReorderableProjectList lower &&
    !(deriveHasNonScalarFunction upper && deriveHasNonScalarFunction lower)

def pexprConcat (upper lower : CScalarProjectList) : Option CScalarProjectList :=
  if fConcatSafe upper lower then
    some (upper.filter (fun elem => !elem.deriveHasNonScalarFunction) ++
      upper.filter CScalarProjectElement.deriveHasNonScalarFunction ++ lower)
  else none

def independent (defined : List ℕ) (elem : CScalarProjectElement) : Bool :=
  elem.deriveUsedColumns.all fun pcr => pcr ∉ defined

def fSplit (upper lower : CScalarProjectList) : Option (CScalarProjectList × CScalarProjectList) :=
  if !fReorderableProjectList upper || !fReorderableProjectList lower then none
  else
    let lowerDefined := deriveDefinedColumns lower
    let srf := upper.filter CScalarProjectElement.deriveHasNonScalarFunction
    let plain := upper.filter fun elem => !elem.deriveHasNonScalarFunction
    let fMoveSrfCohort := !deriveHasNonScalarFunction lower &&
      srf.length == (srf.filter (independent lowerDefined)).length
    let moved := plain.filter (independent lowerDefined) ++ (if fMoveSrfCohort then srf else [])
    let residual := plain.filter (fun elem => !independent lowerDefined elem) ++
      (if fMoveSrfCohort then [] else srf)
    if moved.length == 0 || residual.length == 0 then none else some (moved ++ lower, residual)

end Algebra

section Execution

abbrev Occasion := ℕ × ℕ

/-- How elements are evaluated. Only volatile expressions may depend on the occasion. `cohort`
evaluates the set-returning elements of a list together, and gives the values of their columns in
each of the rows that they make. -/
structure Execution (V : Type) where
  value : Occasion → CScalar → (ℕ → V) → V
  cohort : Occasion → List CScalarProjectElement → (ℕ → V) → List (ℕ → V)
  value_congr : ∀ {expr : CScalar} {row row' : ℕ → V} (occasion occasion' : Occasion),
    expr.efs.rank < EFuncStbl.volatile.rank →
    (∀ pcr ∈ expr.deriveUsedColumns, row pcr = row' pcr) →
    value occasion expr row = value occasion' expr row'
  cohort_congr : ∀ {elems : List CScalarProjectElement} {row row' : ℕ → V}
    (occasion occasion' : Occasion),
    (∀ elem ∈ elems, elem.expr.efs.rank < EFuncStbl.volatile.rank) →
    (∀ elem ∈ elems, ∀ pcr ∈ elem.deriveUsedColumns, row pcr = row' pcr) →
    cohort occasion elems row = cohort occasion' elems row'
  cohort_nil : ∀ occasion row, ∃ values, cohort occasion [] row = [values]

variable {V : Type}

/-- A row with the columns of a list. `values` has those of the set-returning elements. -/
def assign (execution : Execution V) (occasion : Occasion) (list : CScalarProjectList)
    (values row : ℕ → V) : ℕ → V := fun pcr =>
  match list.find? fun elem => elem.pcr = pcr with
  | some elem =>
    if elem.deriveHasNonScalarFunction then values pcr else execution.value occasion elem.expr row
  | none => row pcr

def expand (execution : Execution V) (occasion : Occasion) (list : CScalarProjectList)
    (row : ℕ → V) : List (ℕ → V) :=
  (execution.cohort occasion (list.filter CScalarProjectElement.deriveHasNonScalarFunction) row).map
    fun values => assign execution occasion list values row

/-- `CLogicalProject` at a place of the plan. -/
def project (execution : Execution V) (place : ℕ) (list : CScalarProjectList)
    (rows : List (ℕ → V)) : List (ℕ → V) :=
  rows.zipIdx.flatMap fun (row, position) => expand execution (place, position) list row

end Execution

section LockStep
variable {V : Type}

structure Functions (V : Type) where
  null : V
  value : Occasion → CScalar → (ℕ → V) → V
  values : Occasion → CScalar → (ℕ → V) → List V
  value_congr : ∀ {expr : CScalar} {row row' : ℕ → V} (occasion occasion' : Occasion),
    expr.efs.rank < EFuncStbl.volatile.rank →
    (∀ pcr ∈ expr.deriveUsedColumns, row pcr = row' pcr) →
    value occasion expr row = value occasion' expr row'
  values_congr : ∀ {expr : CScalar} {row row' : ℕ → V} (occasion occasion' : Occasion),
    expr.efs.rank < EFuncStbl.volatile.rank →
    (∀ pcr ∈ expr.deriveUsedColumns, row pcr = row' pcr) →
    values occasion expr row = values occasion' expr row'

/-- One row for each position that some list has. Shorter lists are filled up with NULL. -/
def lockStep (null : V) (columns : List (ℕ × List V)) : List (ℕ → V) :=
  match columns with
  | [] => [fun _ => null]
  | columns => (List.range ((columns.map fun column => column.2.length).foldr max 0)).map
      fun i pcr => ((columns.lookup pcr).bind fun values => values[i]?).getD null

def Functions.execution (functions : Functions V) : Execution V where
  value := functions.value
  cohort := fun occasion elems row => lockStep functions.null
    (elems.map fun elem => (elem.pcr, functions.values occasion elem.expr row))
  value_congr := functions.value_congr
  cohort_congr := by
    intro elems row row' occasion occasion' steady same
    have columns : elems.map (fun elem => (elem.pcr, functions.values occasion elem.expr row)) =
        elems.map fun elem => (elem.pcr, functions.values occasion' elem.expr row') := by
      apply List.map_congr_left
      intro elem mem
      rw [functions.values_congr occasion occasion' (steady elem mem) (same elem mem)]
    rw [columns]
  cohort_nil := fun _ _ => ⟨_, rfl⟩

end LockStep
end ProjectLists
