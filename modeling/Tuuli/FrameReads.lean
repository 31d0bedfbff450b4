import Mathlib.Data.Finset.Piecewise

/-!
`PcrsFrameReads`: the columns through which an expression can see the environment it stands in.
The analysis is compared with an evaluation in which every operator is an arbitrary function of
what reaches it, the columns its descriptor names and its children over the rows they see.
-/
namespace FrameReads

abbrev CColRefSet := Finset ℕ

inductive EJoin
  | innerJoin | leftOuterJoin | fullOuterJoin
  | innerApply | innerCorrelatedApply | leftOuterApply | leftOuterCorrelatedApply

def EJoin.isApply : EJoin → Bool
  | innerJoin | leftOuterJoin | fullOuterJoin => false
  | innerApply | innerCorrelatedApply | leftOuterApply | leftOuterCorrelatedApply => true

/-- The operators of the analysis with the part of their descriptors that it looks at or that
names columns. A constant has a `bound` if it is an integer and not NULL. -/
inductive COperator
  | logicalGet (outputs : CColRefSet)
  | logicalConstTableGet (outputs : CColRefSet)
  | logicalGbAgg (global : Bool) (pdrgpcr : List ℕ)
  | logicalProject
  | logicalSequenceProject (orderSpecs frameSpecs singleton : Bool)
  | logicalJoin (kind : EJoin)
  | logicalSelect
  | logicalMaxOneRow
  | logicalAssert
  | logicalUnionAll (outputs : CColRefSet) (inputs : List (List ℕ))
  | logicalLimit (global topUnderDML hasCount : Bool) (sortColumns : List ℕ)
  | scalarConst (bound : Option ℤ)
  | scalarIdent (pcr : ℕ)
  | scalarCast
  | scalarWindowFunc
  | scalarAssertConstraintList
  | scalarAssertConstraint
  | scalarSubquery (pcr : ℕ)
  | scalarSubqueryExists
  | scalarSubqueryNotExists
  | scalarSubqueryAny (pcr : ℕ)
  | scalarSubqueryAll (pcr : ℕ)
  | scalarProjectList
  | scalarProjectElement (pcr : ℕ)
  | scalarValuesList
  | scalarAggFunc
  | scalarBoolOp
  | scalarNullTest
  | scalarBooleanTest
  | scalarIf
  | scalarCall
  | other

inductive CExpression
  | node (op : COperator) (descriptor : ℕ) (children : List CExpression)

namespace COperator

def fLogical : COperator → Bool
  | logicalGet _ | logicalConstTableGet _ | logicalGbAgg _ _ | logicalProject
  | logicalSequenceProject _ _ _ | logicalJoin _ | logicalSelect | logicalMaxOneRow | logicalAssert
  | logicalUnionAll _ _ | logicalLimit _ _ _ _ => true
  | _ => false

def fScalar : COperator → Bool
  | other => false
  | op => !op.fLogical

/-- `DeriveOutputColumns` of a relation, `DeriveDefinedColumns` of a project list. -/
def columns (below : List CColRefSet) : COperator → CColRefSet
  | logicalGet outputs | logicalConstTableGet outputs | logicalUnionAll outputs _ => outputs
  | logicalGbAgg _ pdrgpcr => pdrgpcr.toFinset ∩ below.getD 0 ∅ ∪ below.getD 1 ∅
  | logicalProject | logicalSequenceProject _ _ _ | logicalJoin _ => below.getD 0 ∅ ∪ below.getD 1 ∅
  | logicalSelect | logicalMaxOneRow | logicalAssert | logicalLimit _ _ _ _ => below.getD 0 ∅
  | scalarProjectElement pcr => {pcr}
  | scalarProjectList => below.foldr (· ∪ ·) ∅
  | _ => ∅

def scope (below : List CColRefSet) : COperator → ℕ → CColRefSet
  | logicalSelect, 1 | logicalProject, 1 | logicalSequenceProject _ _ _, 1 | logicalGbAgg _ _, 1
  | logicalAssert, 1 => below.getD 0 ∅
  | logicalJoin kind, 1 => if kind.isApply then below.getD 0 ∅ else ∅
  | logicalJoin _, 2 => below.getD 0 ∅ ∪ below.getD 1 ∅
  | _, _ => ∅

def reads (below : List CColRefSet) : COperator → List (ℕ × CColRefSet)
  | scalarIdent pcr => [(pcr, ∅)]
  | logicalGbAgg _ columns | logicalLimit _ _ _ columns => columns.map fun c => (c, below.getD 0 ∅)
  | scalarSubquery pcr | scalarSubqueryAny pcr | scalarSubqueryAll pcr => [(pcr, below.getD 0 ∅)]
  | logicalUnionAll _ inputs =>
    (inputs.zip below).flatMap fun branch => branch.1.map fun c => (c, branch.2)
  | _ => []

/-- The children that are evaluated. The bounds of a limit, constants wherever the analysis takes
one, count as part of its descriptor. -/
def evaluated {α : Type} (children : List α) : COperator → List α
  | scalarConst _ => []
  | logicalLimit _ _ _ _ => children.take 1
  | _ => children

def included (below : List CColRefSet) : COperator → CColRefSet
  | scalarIdent pcr | scalarSubquery pcr => {pcr}
  | logicalGbAgg _ pdrgpcr => pdrgpcr.toFinset
  | logicalProject | logicalSequenceProject _ _ _ => below.getD 0 ∅
  | logicalJoin _ => below.getD 0 ∅ ∪ below.getD 1 ∅
  | _ => ∅

def unlisted : COperator → Bool
  | scalarSubqueryAny _ | scalarSubqueryAll _ | logicalUnionAll _ _ => true
  | _ => false

end COperator

namespace CExpression

def op : CExpression → COperator
  | node op _ _ => op

mutual

def columns : CExpression → CColRefSet
  | node op _ children => op.columns (columnsOf children)

def columnsOf : List CExpression → List CColRefSet
  | [] => []
  | child :: rest => columns child :: columnsOf rest

end

theorem induct {P : CExpression → Prop}
    (step : ∀ op descriptor children, (∀ child ∈ children, P child) → P (node op descriptor
      children)) : ∀ expr, P expr
  | node op descriptor children => step op descriptor children (all children)
where
  all : ∀ children : List CExpression, ∀ child ∈ children, P child
    | [] => List.forall_mem_nil P
    | first :: rest => List.forall_mem_cons.mpr ⟨induct step first, all rest⟩

end CExpression

open CExpression COperator

section Analysis

/-- What the catalog knows: which calls `FScalarCall` takes and which casts cannot fail. -/
structure Metadata where
  fScalarCall : CExpression → Bool
  fScalarCastProvablyErrorFree : CExpression → Bool

variable (md : Metadata)

def fNonnegativeLimitBound : CExpression → Bool
  | node scalarCast descriptor [child] =>
    md.fScalarCastProvablyErrorFree (node scalarCast descriptor [child]) &&
      fNonnegativeLimitBound child
  | node (scalarConst bound) _ _ => bound.any (0 ≤ ·)
  | _ => false

def fAdmits (op : COperator) (descriptor : ℕ) (children : List CExpression) : Bool :=
  match op, children with
  | logicalGet _, [] | logicalConstTableGet _, [] | scalarConst _, [] | scalarIdent _, []
  | scalarWindowFunc, [] => true
  | scalarCast, [child] | scalarAssertConstraint, [child] => child.op.fScalar
  | logicalGbAgg global _, [child, list] =>
    global && child.op.fLogical && (list.op matches scalarProjectList)
  | logicalProject, [child, list] => child.op.fLogical && (list.op matches scalarProjectList)
  | logicalSequenceProject orderSpecs frameSpecs singleton, [child, list] =>
    child.op.fLogical && (list.op matches scalarProjectList) && !orderSpecs && !frameSpecs &&
      singleton
  | logicalJoin _, [left, right, predicate] =>
    left.op.fLogical && right.op.fLogical && predicate.op.fScalar
  | logicalSelect, [child, scalar] | scalarSubqueryAny _, [child, scalar]
  | scalarSubqueryAll _, [child, scalar] => child.op.fLogical && scalar.op.fScalar
  | logicalMaxOneRow, [child] | scalarSubquery _, [child] | scalarSubqueryExists, [child]
  | scalarSubqueryNotExists, [child] => child.op.fLogical
  | logicalAssert, [child, list] =>
    child.op.fLogical && (list.op matches scalarAssertConstraintList)
  | scalarAssertConstraintList, children => children.all (·.op matches scalarAssertConstraint)
  | logicalUnionAll _ _, children => 2 ≤ children.length && children.all (·.op.fLogical)
  | logicalLimit global topUnderDML hasCount sortColumns, [child, offset, count] =>
    global && !topUnderDML && child.op.fLogical && fNonnegativeLimitBound md offset &&
      (!hasCount || fNonnegativeLimitBound md count) && sortColumns.all (· ∈ child.columns)
  | scalarProjectList, _ | scalarProjectElement _, _ | scalarValuesList, _ | scalarAggFunc, _
  | scalarBoolOp, _ | scalarNullTest, _ | scalarBooleanTest, _ | scalarIf, _ => true
  | scalarCall, children => md.fScalarCall (node scalarCall descriptor children)
  | _, _ => false

mutual

def fCollectFrameReads : CExpression → CColRefSet → Option CColRefSet
  | node op descriptor children, reads =>
    if fAdmits md op descriptor children then
      match op, children with
      -- of a limit only the relation is visited
      | logicalLimit _ _ _ _, child :: _ => fCollectFrameReads child reads
      | op, children => collectChildren children (reads ∪ op.included (columnsOf children))
    else none

def collectChildren : List CExpression → CColRefSet → Option CColRefSet
  | [], reads => some reads
  | child :: rest, reads =>
    match fCollectFrameReads child reads with
    | some reads => collectChildren rest reads
    | none => none

end

def pcrsFrameReads (expr : CExpression) : Option CColRefSet :=
  fCollectFrameReads md expr ∅

end Analysis

section Evaluation
variable {V R : Type}

/-- A database: what an operator makes of the columns and the children that reach it, each as a
function of the rows that its scope binds. Inside an aggregate such a row can carry, for every
column, the values of a whole group. -/
abbrev Interpretation (V R : Type) :=
  COperator → ℕ → List ((ℕ → V) → V) → List ((ℕ → V) → R) → R

mutual

def eval (db : Interpretation V R) : CExpression → (ℕ → V) → R
  | node op descriptor children, env =>
    let below := columnsOf children
    db op descriptor ((op.reads below).map fun read row => read.2.piecewise row env read.1)
      (op.evaluated (evalChildren db children (op.scope below) env))

def evalChildren (db : Interpretation V R) :
    List CExpression → (ℕ → CColRefSet) → (ℕ → V) → List ((ℕ → V) → R)
  | [], _, _ => []
  | child :: rest, scope, env =>
    (fun row => eval db child ((scope 0).piecewise row env)) ::
      evalChildren db rest (fun i => scope (i + 1)) env

end

def DependsOnly (expr : CExpression) (columns : CColRefSet) : Prop :=
  ∀ (V R : Type) (db : Interpretation V R) (env env' : ℕ → V),
    (∀ c ∈ columns, env c = env' c) → eval db expr env = eval db expr env'

/-- The column occurs at an operator that `sees` it, and no row of the expression binds it there. -/
inductive Occurs (sees : COperator → List CColRefSet → ℕ → Prop)
    (binds : List CColRefSet → COperator → ℕ → CColRefSet) : CExpression → ℕ → Prop
  | here {op : COperator} {descriptor : ℕ} {children : List CExpression} {c : ℕ}
      (seen : sees op (columnsOf children) c) : Occurs sees binds (node op descriptor children) c
  | inside {op : COperator} {descriptor : ℕ} {children : List CExpression} {c i : ℕ}
      {child : CExpression} (at_i : (op.evaluated children)[i]? = some child)
      (occurs : Occurs sees binds child c) (free : c ∉ binds (columnsOf children) op i) :
      Occurs sees binds (node op descriptor children) c

def COperator.ReadsOuter (op : COperator) (below : List CColRefSet) (c : ℕ) : Prop :=
  ∃ bound, (c, bound) ∈ op.reads below ∧ c ∉ bound

def CExpression.Reads : CExpression → ℕ → Prop :=
  Occurs ReadsOuter COperator.scope

variable {db : Interpretation V R} {env env' : ℕ → V}

theorem evalChildren_getElem? {children : List CExpression} {scope : ℕ → CColRefSet} {i : ℕ} :
    (evalChildren db children scope env)[i]? =
      children[i]?.map fun child row => eval db child ((scope i).piecewise row env) := by
  induction children generalizing scope i with
  | nil => rfl
  | cons child rest ih =>
    cases i with
    | zero => rfl
    | succ i => exact ih

theorem evaluated_getElem? {op : COperator} {children : List CExpression} {scope : ℕ → CColRefSet}
    {i : ℕ} :
    (op.evaluated (evalChildren db children scope env))[i]? = (op.evaluated children)[i]?.map
      fun child row => eval db child ((scope i).piecewise row env) := by
  unfold evaluated
  split
  · rfl
  · simp only [List.getElem?_take, evalChildren_getElem?]
    split <;> rfl
  · exact evalChildren_getElem?

theorem mem_of_evaluated {op : COperator} {children : List CExpression} {child : CExpression}
    (listed : child ∈ op.evaluated children) : child ∈ children := by
  unfold evaluated at listed
  split at listed
  · cases listed
  · exact List.mem_of_mem_take listed
  · exact listed

theorem piecewise_congr {bound : CColRefSet} {c : ℕ} {row : ℕ → V}
    (agree : c ∉ bound → env c = env' c) :
    bound.piecewise row env c = bound.piecewise row env' c := by
  by_cases inside : c ∈ bound
  · simp [inside]
  · simp [inside, agree inside]

theorem eval_congr (expr : CExpression) :
    ∀ {env env' : ℕ → V}, (∀ c, expr.Reads c → env c = env' c) →
      eval db expr env = eval db expr env' := by
  induction expr using CExpression.induct with
  | step op descriptor children ih =>
    intro env env' agree
    simp only [eval]
    congr 1
    · apply List.map_congr_left
      intro read named
      funext row
      exact piecewise_congr fun free => agree read.1 (.here ⟨read.2, named, free⟩)
    · apply List.ext_getElem?
      intro i
      rw [evaluated_getElem?, evaluated_getElem?]
      cases found : (op.evaluated children)[i]? with
      | none => rfl
      | some child =>
        have listed := mem_of_evaluated (List.mem_of_getElem? found)
        simp only [Option.map_some]
        congr 1
        funext row
        apply ih child listed
        intro c reads
        exact piecewise_congr fun free => agree c (.inside found reads free)

def watch : Interpretation Bool Bool := fun _ _ reads children =>
  reads.any (fun read => read fun _ => false) || children.any (fun child => child fun _ => false)

theorem watch_false (expr : CExpression) : eval watch expr (fun _ => false) = false := by
  induction expr using CExpression.induct with
  | step op descriptor children ih =>
    rw [eval, watch, Bool.or_eq_false_iff]
    constructor
    · simp [Finset.piecewise_same]
    · apply List.any_eq_false.mpr
      intro value listed
      obtain ⟨i, at_i⟩ := List.getElem?_of_mem listed
      rw [evaluated_getElem?] at at_i
      obtain ⟨child, found, rfl⟩ := Option.map_eq_some_iff.mp at_i
      simp [Finset.piecewise_same, ih child (mem_of_evaluated (List.mem_of_getElem? found))]

theorem watch_of_reads {expr : CExpression} {c : ℕ} (reads : expr.Reads c) :
    ∀ {env : ℕ → Bool}, env c = true → eval watch expr env = true := by
  induction reads with
  | here seen =>
    intro env true_c
    obtain ⟨bound, read, free⟩ := seen
    rw [eval, watch, Bool.or_eq_true]
    apply Or.inl
    refine List.any_eq_true.mpr ⟨_, List.mem_map_of_mem read, ?_⟩
    rw [Finset.piecewise_eq_of_notMem _ _ _ free, true_c]
  | @inside op _ children _ i child at_i _ free ih =>
    intro env true_c
    rw [eval, watch, Bool.or_eq_true]
    apply Or.inr
    have found := @evaluated_getElem? _ _ watch env op children (op.scope (columnsOf children)) i
    rw [at_i] at found
    refine List.any_eq_true.mpr ⟨_, List.mem_of_getElem? found, ih ?_⟩
    rw [Finset.piecewise_eq_of_notMem _ _ _ free, true_c]

theorem dependsOnly_iff {expr : CExpression} {columns : CColRefSet} :
    DependsOnly expr columns ↔ ∀ c, expr.Reads c → c ∈ columns := by
  constructor
  · intro depends c reads
    by_contra outside
    have agree : ∀ x ∈ columns, false = decide (x = c) := by
      intro x listed
      exact (decide_eq_false (ne_of_mem_of_not_mem listed outside)).symm
    have same := depends Bool Bool watch (fun _ => false) (fun x => decide (x = c)) agree
    rw [watch_false, watch_of_reads reads (decide_eq_true rfl)] at same
    cases same
  · intro covered V R db env env' agree
    exact eval_congr expr fun c reads => agree c (covered c reads)

end Evaluation

section Soundness
variable {md : Metadata} {op : COperator} {children : List CExpression} {c : ℕ}

/-- An identifier, a grouping key or a scalar subquery names the column, or an input of a
projection, a window or a join has it among its outputs. -/
def CExpression.Names : CExpression → ℕ → Prop :=
  Occurs (fun op below c => c ∈ op.included below) fun _ _ _ => ∅

def CExpression.ReadsUnlisted : CExpression → ℕ → Prop :=
  Occurs (fun op below c => op.unlisted ∧ op.ReadsOuter below c) COperator.scope

structure Collected (expr : CExpression) (reads out : CColRefSet) : Prop where
  named : ∀ c, c ∈ out ↔ c ∈ reads ∨ expr.Names c
  covered : ∀ c, expr.Reads c → expr.Names c ∨ expr.ReadsUnlisted c

theorem collectChildren_spec {children : List CExpression} {reads out : CColRefSet}
    (each : ∀ child ∈ children, ∀ {reads out}, fCollectFrameReads md child reads = some out →
      Collected child reads out) (collected : collectChildren md children reads = some out) :
    (∀ c, c ∈ out ↔ c ∈ reads ∨ ∃ child ∈ children, child.Names c) ∧
      ∀ child ∈ children, ∀ c, child.Reads c → child.Names c ∨ child.ReadsUnlisted c := by
  induction children generalizing reads with
  | nil =>
    cases collected
    simp
  | cons child rest ih =>
    rw [collectChildren] at collected
    split at collected
    next more first =>
      have here := each child List.mem_cons_self first
      obtain ⟨named, covered⟩ :=
        ih (fun other later => each other (List.mem_cons_of_mem child later)) collected
      constructor
      · intro c
        rw [named, here.named, List.exists_mem_cons_iff, or_assoc]
      · exact List.forall_mem_cons.mpr ⟨here.covered, covered⟩
    next => cases collected

variable {descriptor : ℕ}

theorem limit_admitted {global top hasCount : Bool} {columns : List ℕ}
    (admitted : fAdmits md (logicalLimit global top hasCount columns) descriptor children = true) :
    ∃ child rest, children = child :: rest ∧ ∀ c ∈ columns, c ∈ child.columns := by
  rcases children with _ | ⟨child, _ | ⟨offset, _ | ⟨count, _ | _⟩⟩⟩ <;> simp_all [fAdmits]

theorem fCollectFrameReads_eq {reads : CColRefSet}
    (admitted : fAdmits md op descriptor children = true) :
    fCollectFrameReads md (node op descriptor children) reads =
      collectChildren md (op.evaluated children) (reads ∪ op.included (columnsOf children)) := by
  unfold fCollectFrameReads
  rw [if_pos admitted]
  cases op with
  | logicalLimit global top hasCount columns =>
    obtain ⟨child, rest, rfl, -⟩ := limit_admitted admitted
    simp only [evaluated, included, Finset.union_empty, List.take_succ_cons, List.take_zero,
      collectChildren]
    cases fCollectFrameReads md child reads <;> rfl
  | scalarConst bound =>
    cases children with
    | nil => rfl
    | cons child rest => simp [fAdmits] at admitted
  | _ => rfl

theorem included_or_unlisted (admitted : fAdmits md op descriptor children = true)
    (reads : op.ReadsOuter (columnsOf children) c) :
    c ∈ op.included (columnsOf children) ∨ op.unlisted = true := by
  obtain ⟨bound, read, free⟩ := reads
  cases op with
  | logicalLimit global top hasCount columns =>
    obtain ⟨child, rest, rfl, sorted⟩ := limit_admitted admitted
    obtain ⟨_, listed, same⟩ := List.mem_map.mp read
    cases same
    exact absurd (sorted c listed) free
  | _ => simp_all [COperator.reads, included, unlisted]

theorem collectFrameReads_spec (expr : CExpression) : ∀ {reads out},
    fCollectFrameReads md expr reads = some out → Collected expr reads out := by
  induction expr using CExpression.induct with
  | step op descriptor children ih =>
    intro reads out collected
    by_cases admitted : fAdmits md op descriptor children = true
    · rw [fCollectFrameReads_eq admitted] at collected
      obtain ⟨named, covered⟩ := collectChildren_spec
        (fun child listed => ih child (mem_of_evaluated listed)) collected
      constructor
      · intro c
        rw [named, Finset.mem_union, or_assoc]
        apply or_congr_right
        constructor
        · rintro (here | ⟨child, listed, names⟩)
          · exact .here here
          · obtain ⟨i, at_i⟩ := List.getElem?_of_mem listed
            exact .inside at_i names (Finset.notMem_empty c)
        · intro names
          cases names with
          | here seen => exact Or.inl seen
          | inside at_i names _ => exact Or.inr ⟨_, List.mem_of_getElem? at_i, names⟩
      · intro c reads
        cases reads with
        | here seen =>
          exact (included_or_unlisted admitted seen).imp .here (.here ⟨·, seen⟩)
        | inside at_i reads free =>
          exact (covered _ (List.mem_of_getElem? at_i) c reads).imp
            (fun names => .inside at_i names (Finset.notMem_empty c)) (.inside at_i · free)
    · unfold fCollectFrameReads at collected
      rw [if_neg admitted] at collected
      cases collected

theorem CExpression.ReadsUnlisted.reads {expr : CExpression} (unlisted : expr.ReadsUnlisted c) :
    expr.Reads c := by
  induction unlisted with
  | here seen => exact .here seen.2
  | inside at_i _ free ih => exact .inside at_i ih free

/-- The collected columns are all that the result depends on, unless a quantified subquery or a
branch of a union reads a column from outside that is named nowhere else. -/
theorem frame_reads_complete_iff (md : Metadata) (expr : CExpression) (reads : CColRefSet)
    (collected : pcrsFrameReads md expr = some reads) :
    DependsOnly expr reads ↔ ∀ c, expr.ReadsUnlisted c → expr.Names c := by
  have found := collectFrameReads_spec expr collected
  have named : ∀ c, c ∈ reads ↔ expr.Names c := by
    intro c
    rw [found.named, or_iff_right (Finset.notMem_empty c)]
  rw [dependsOnly_iff]
  simp only [named]
  constructor
  · exact fun covered c unlisted => covered c unlisted.reads
  · intro listed c reads
    rcases found.covered c reads with names | unlisted
    · exact names
    · exact listed c unlisted

theorem not_readsUnlisted (here : op.unlisted = true → ∀ c, ¬ op.ReadsOuter (columnsOf children) c)
    (inside : ∀ child ∈ op.evaluated children, ∀ c, ¬ child.ReadsUnlisted c) (c : ℕ) :
    ¬ (node op descriptor children).ReadsUnlisted c := by
  intro unlisted
  cases unlisted with
  | here seen => exact here seen.1 c seen.2
  | inside at_i below _ => exact inside _ (List.mem_of_getElem? at_i) c below

/-- The rows of a table with column 1 whose value is among those of column 4 of another table
for which a call of columns 4 and 3 is true. -/
def correlatedAny : CExpression :=
  node logicalSelect 0 [node (logicalGet {1}) 0 [],
    node (scalarSubqueryAny 4) 0 [
      node logicalSelect 0 [node (logicalGet {4}) 0 [],
        node scalarCall 0 [node (scalarIdent 4) 0 [], node (scalarIdent 3) 0 []]],
      node (scalarIdent 1) 0 []]]

theorem correlatedAny_depends_only : DependsOnly correlatedAny {1, 3, 4} := by
  apply (frame_reads_complete_iff ⟨fun _ => true, fun _ => true⟩ _ _ (by decide)).mpr
  have own : ∀ c, ¬ (scalarSubqueryAny 4).ReadsOuter [{4}, ∅] c := by
    rintro c ⟨bound, read, free⟩
    simp_all [COperator.reads]
  have ident : ∀ column c, ¬ (node (scalarIdent column) 0 []).ReadsUnlisted c :=
    fun _ => not_readsUnlisted nofun nofun
  have table : ∀ column c, ¬ (node (logicalGet {column}) 0 []).ReadsUnlisted c :=
    fun _ => not_readsUnlisted nofun nofun
  suffices none : ∀ c, ¬ correlatedAny.ReadsUnlisted c from fun c found => absurd found (none c)
  refine not_readsUnlisted nofun ?_
  refine List.forall_mem_cons.mpr ⟨table 1, List.forall_mem_singleton.mpr ?_⟩
  refine not_readsUnlisted (fun _ => own) ?_
  refine List.forall_mem_cons.mpr ⟨?_, List.forall_mem_singleton.mpr (ident 1)⟩
  refine not_readsUnlisted nofun ?_
  refine List.forall_mem_cons.mpr ⟨table 4, List.forall_mem_singleton.mpr ?_⟩
  refine not_readsUnlisted nofun ?_
  exact List.forall_mem_cons.mpr ⟨ident 4, List.forall_mem_singleton.mpr (ident 3)⟩

end Soundness

section Quantified

def outerAny : CExpression :=
  node (scalarSubqueryAny 7) 0 [node (logicalGet {1}) 0 [], node (scalarConst none) 0 []]

/-- Tables of one row of zeros, constants zero, and `ANY` true if a row equals the constant. -/
def oneRow : Interpretation ℕ (List ℕ)
  | scalarSubqueryAny _, _, [column], [rows, value] =>
    [if column (fun c => (rows fun _ => 0).getD c 0) = (value fun _ => 0).getD 0 0 then 1 else 0]
  | _, _, _, _ => [0]

theorem outerAny_depends_on_seven :
    pcrsFrameReads ⟨fun _ => true, fun _ => true⟩ outerAny = some ∅ ∧
      eval oneRow outerAny (fun _ => 0) ≠ eval oneRow outerAny (fun _ => 1) := by
  decide

end Quantified

end FrameReads
