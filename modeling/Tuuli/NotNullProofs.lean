import Tuuli.RuleModels

/-!
`FExpressionProvesNotNull`: which columns of a logical expression are never NULL. The derived
not-null columns and `FNullRejecting` are parameters; the operators that the search looks through
have their meaning on rows, and all others have any meaning.
-/
namespace NotNullProofs

section Trees

/-- Logical operators. Other operators than those of the search are `other`, with their output
columns. -/
inductive EOperatorId where
  | select
  | project
  | sequenceProject (window : ℕ)
  | limit (order : ℕ)
  | innerJoin
  | innerApply
  | leftOuterJoin
  | leftOuterApply
  | leftSemiJoin
  | leftAntiSemiJoin
  | leftAntiSemiJoinNotIn
  | rightOuterJoin
  | other (id : ℕ) (output : List ℕ)
  deriving DecidableEq, Repr

structure Scalar where
  id : ℕ
  used : List ℕ
  defined : List ℕ
  deriving DecidableEq, Repr

inductive CExpression where
  | scalar (scalar : Scalar)
  | logical (op : EOperatorId) (children : List CExpression)

theorem CExpression.induct {P : CExpression → Prop} (scalar : ∀ scalar, P (.scalar scalar))
    (logical : ∀ op children, (∀ child ∈ children, P child) → P (.logical op children)) :
    ∀ expr, P expr
  | .scalar s => scalar s
  | .logical op children => logical op children fun child _ =>
      CExpression.induct scalar logical child

def deriveOutputColumns : CExpression → List ℕ
  | .logical .select [input, .scalar _] => deriveOutputColumns input
  | .logical .project [input, .scalar list] => deriveOutputColumns input ++ list.defined
  | .logical (.sequenceProject _) [input, .scalar list] =>
    deriveOutputColumns input ++ list.defined
  | .logical (.limit _) [input, .scalar _, .scalar _] => deriveOutputColumns input
  | .logical .innerJoin [left, right, .scalar _] =>
    deriveOutputColumns left ++ deriveOutputColumns right
  | .logical .innerApply [left, right, .scalar _] =>
    deriveOutputColumns left ++ deriveOutputColumns right
  | .logical .leftOuterJoin [left, right, .scalar _] =>
    deriveOutputColumns left ++ deriveOutputColumns right
  | .logical .leftOuterApply [left, right, .scalar _] =>
    deriveOutputColumns left ++ deriveOutputColumns right
  | .logical .rightOuterJoin [left, right, .scalar _] =>
    deriveOutputColumns left ++ deriveOutputColumns right
  | .logical .leftSemiJoin [left, _, .scalar _] => deriveOutputColumns left
  | .logical .leftAntiSemiJoin [left, _, .scalar _] => deriveOutputColumns left
  | .logical .leftAntiSemiJoinNotIn [left, _, .scalar _] => deriveOutputColumns left
  | .logical (.other _ output) _ => output
  | _ => []

end Trees

section Search

structure Analyses where
  deriveNotNullColumns : CExpression → List ℕ
  fNullRejecting : Scalar → ℕ → Bool

variable (analyses : Analyses)

def fSelectionChainRejectsNull (pcr : ℕ) : CExpression → Bool
  | .logical .select [input, .scalar pred] =>
    if pcr ∈ pred.used ∧ analyses.fNullRejecting pred pcr then true
    else fSelectionChainRejectsNull pcr input
  | _ => false

def followed : EOperatorId → List ℕ
  | .select | .project | .sequenceProject _ | .limit _ => [0]
  | .innerJoin | .innerApply => [0, 1]
  | .leftOuterJoin | .leftOuterApply | .leftSemiJoin | .leftAntiSemiJoin
  | .leftAntiSemiJoinNotIn => [0]
  | .rightOuterJoin => [1]
  | .other _ _ => []

mutual

def fExpressionProvesNotNull (pcr : ℕ) : CExpression → Bool
  | .scalar _ => false
  | .logical op children =>
    pcr ∈ deriveOutputColumns (.logical op children) &&
      (pcr ∈ analyses.deriveNotNullColumns (.logical op children) ||
        fSelectionChainRejectsNull analyses pcr (.logical op children) ||
        followedProveNotNull pcr (followed op) 0 children)

def followedProveNotNull (pcr : ℕ) (indices : List ℕ) (ul : ℕ) : List CExpression → Bool
  | [] => false
  | child :: rest =>
    ul ∈ indices && fExpressionProvesNotNull pcr child ||
      followedProveNotNull pcr indices (ul + 1) rest

end

end Search

section Rows

abbrev Row (V : Type) := ℕ → Option V

def overlay {V : Type} (columns : List ℕ) (upper lower : Row V) : Row V := fun pcr =>
  if pcr ∈ columns then upper pcr else lower pcr

/-- What the operators depend on in a database. `projected` gives the values of a project list in
each row that it makes of a row, `windowed` those of a window project at a position of its input. -/
structure Database (V : Type) where
  truth : Scalar → Row V → Option Bool
  projected : Scalar → Row V → List (Row V)
  windowed : ℕ → Scalar → List (Row V) → ℕ → Row V
  sorted : ℕ → List (Row V) → List (Row V)
  mem_of_mem_sorted : ∀ {order rows row}, row ∈ sorted order rows → row ∈ rows
  bound : Scalar → Row V → Option ℕ
  other : ℕ → List (Row V → List (Row V)) → Row V → List (Row V)

variable {V : Type} (database : Database V)

def matching (pred : Scalar) (columns : List ℕ) (row : Row V) (others : List (Row V)) :
    List (Row V) :=
  (others.map fun other => overlay columns other row).filter fun joined =>
    database.truth pred joined = some true

def padded (pred : Scalar) (columns : List ℕ) (row : Row V) (others : List (Row V)) :
    List (Row V) :=
  match matching database pred columns row others with
  | [] => [overlay columns (fun _ => none) row]
  | found => found

def limited (offset count : Scalar) (outer : Row V) (rows : List (Row V)) : List (Row V) :=
  let rest := rows.drop ((database.bound offset outer).getD 0)
  match database.bound count outer with
  | some n => rest.take n
  | none => rest

mutual

def CExpression.rows : CExpression → Row V → List (Row V)
  | .logical .select [input, .scalar pred], outer =>
    (input.rows outer).filter fun row => database.truth pred row = some true
  | .logical .project [input, .scalar list], outer =>
    (input.rows outer).flatMap fun row =>
      (database.projected list row).map fun values => overlay list.defined values row
  | .logical (.sequenceProject window) [input, .scalar list], outer =>
    (input.rows outer).zipIdx.map fun (row, position) =>
      overlay list.defined (database.windowed window list (input.rows outer) position) row
  | .logical (.limit order) [input, .scalar offset, .scalar count], outer =>
    limited database offset count outer (database.sorted order (input.rows outer))
  | .logical .innerJoin [left, right, .scalar pred], outer =>
    (left.rows outer).flatMap fun row =>
      matching database pred (deriveOutputColumns right) row (right.rows outer)
  | .logical .innerApply [left, right, .scalar pred], outer =>
    (left.rows outer).flatMap fun row =>
      matching database pred (deriveOutputColumns right) row (right.rows row)
  | .logical .leftOuterJoin [left, right, .scalar pred], outer =>
    (left.rows outer).flatMap fun row =>
      padded database pred (deriveOutputColumns right) row (right.rows outer)
  | .logical .leftOuterApply [left, right, .scalar pred], outer =>
    (left.rows outer).flatMap fun row =>
      padded database pred (deriveOutputColumns right) row (right.rows row)
  | .logical .rightOuterJoin [left, right, .scalar pred], outer =>
    (right.rows outer).flatMap fun row =>
      padded database pred (deriveOutputColumns left) row (left.rows outer)
  | .logical .leftSemiJoin [left, right, .scalar pred], outer =>
    (left.rows outer).filter fun row =>
      !(matching database pred (deriveOutputColumns right) row (right.rows outer)).isEmpty
  | .logical .leftAntiSemiJoin [left, right, .scalar pred], outer =>
    (left.rows outer).filter fun row =>
      (matching database pred (deriveOutputColumns right) row (right.rows outer)).isEmpty
  | .logical .leftAntiSemiJoinNotIn [left, right, .scalar pred], outer =>
    (left.rows outer).filter fun row => (right.rows outer).all fun other =>
      database.truth pred (overlay (deriveOutputColumns right) other row) = some false
  | .logical (.other id _) children, outer => database.other id (rowsAll children) outer
  | _, _ => []

def rowsAll : List CExpression → List (Row V → List (Row V))
  | [] => []
  | child :: rest => child.rows :: rowsAll rest

end

/-- The inputs of an operator have no column in common, and a project list defines new columns. -/
def DistinctColumns : EOperatorId → List CExpression → Prop
  | .project, [input, .scalar list] => ∀ pcr ∈ list.defined, pcr ∉ deriveOutputColumns input
  | .sequenceProject _, [input, .scalar list] =>
    ∀ pcr ∈ list.defined, pcr ∉ deriveOutputColumns input
  | .innerJoin, [left, right, _] | .innerApply, [left, right, _]
  | .leftOuterJoin, [left, right, _] | .leftOuterApply, [left, right, _]
  | .rightOuterJoin, [left, right, _] =>
    ∀ pcr ∈ deriveOutputColumns left, pcr ∉ deriveOutputColumns right
  | _, _ => True

inductive WellScoped : CExpression → Prop
  | scalar (s : Scalar) : WellScoped (.scalar s)
  | logical {op : EOperatorId} {children : List CExpression}
      (distinct : DistinctColumns op children)
      (below : ∀ child ∈ children, WellScoped child) : WellScoped (.logical op children)

end Rows

section Constraint
open RuleModels

abbrev Model := CDSLModel CDSLSymbol (Binding CExpression)

def Model.pexprTable (model : Model) (sym : CDSLSymbol) : Option CExpression :=
  match model sym with
  | some (.artifact expr) => some expr
  | _ => none

def Model.pcrsFromAttrsSym (model : Model) (sym : CDSLSymbol) : Option (List ℕ) :=
  match model sym with
  | some (.attrs columns) => some columns
  | _ => none

def lastOfKind (kind : EDslSymbolKind) (symbols : List CDSLSymbol) : Option CDSLSymbol :=
  symbols.reverse.find? fun sym => sym.kind = kind

def fCheckNotNull (analyses : Analyses) (con : CDSLConstraint) (model : Model) : Bool :=
  if con.symbols.length ≠ 2 then false
  else
    match lastOfKind .attrs con.symbols, lastOfKind .table con.symbols with
    | some attrs, some table =>
      match model.pexprTable table, model.pcrsFromAttrsSym attrs with
      | some expr, some columns =>
        columns.all fun pcr => fExpressionProvesNotNull analyses pcr expr
      | _, _ => false
    | _, _ => false

end Constraint
end NotNullProofs
