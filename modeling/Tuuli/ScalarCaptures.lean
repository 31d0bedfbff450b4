import Mathlib.Data.FinEnum
import Tuuli.ScalarContexts

/-!
`FMatchExpressionBinding`: the captures of a symbol and of the operands of its definition in a
live scalar tree. A definition may be a `Context`, whose hole is searched for in the tree.
What the view answers about expressions from their metadata is arbitrary.
-/
namespace ScalarCaptures
open RewriteProgram RuleModels ScalarContexts ScalarContexts.Matching CExpression

inductive EBoolOperator where
  | and | or | not
  deriving DecidableEq

inductive EQuantifier where
  | any | all
  deriving DecidableEq

inductive COperator where
  | scalarIdent (pcr : ℕ)
  | scalarCmp (mdidOp : ℕ)
  | scalarBoolOp (eboolop : EBoolOperator)
  | scalarBooleanTest (isNotTrue : Bool)
  | scalarIf
  | scalarProjectList
  | scalarProjectElement (pcr : ℕ)
  | scalarSubquery (pcr : ℕ) (generatedByExist generatedByQuantified : Bool)
  | scalarSubqueryExists
  | scalarSubqueryNotExists
  | scalarSubqueryQuantified (quantifier : EQuantifier) (pcr mdidOp : ℕ)
  | otherScalar (id : ℕ)
  | logical (id : ℕ)
  deriving DecidableEq

def COperator.fLogical : COperator → Bool
  | logical _ => true
  | _ => false

def COperator.fScalar (op : COperator) : Bool := !op.fLogical

abbrev Expr := CExpression COperator

instance : Inhabited Expr := ⟨node .scalarIf []⟩

instance : BEq Expr := ⟨fMatches fun op op' => op = op'⟩

instance : ReflBEq Expr := ⟨fun {expr} => expr.fMatches_refl (by simp)⟩

inductive Captured where
  | expression (expr : Expr)
  | expressions (exprs : List Expr)
  | columns (pcrs : List ℕ)
  | context (root : Expr) (path : Path)
  deriving BEq, ReflBEq

structure CDSLMatchView where
  fScalarValue : Expr → Bool
  fBooleanValue : Expr → Bool
  fTypedProjectList : Expr → Bool
  pdrgpexprFunctions : Expr → Option (List Expr)
  deriveHasSubquery : Expr → Bool
  fQueryDemandInsensitive : Expr → Bool
  fSameCapturedExpression : Expr → Expr → Bool
  fScalarCall : Expr → Bool
  fSameCallHead : Expr → Expr → Bool
  fBuiltInComparisonIsVeryStrict : ℕ → Bool
  fSelectedSubqueryInput : Expr → ℕ → Bool
  fQuantifiedInputs : Expr → Expr → List Expr → ℕ → Bool
  pexprComparison : Expr → Expr
  fNullSafeEqColumns : Expr → Option (List ℕ × List ℕ)
  mdidType : Expr → ℕ
  etiBool : ℕ → Bool
  columnType : ℕ → ℕ
  typeModifier : ℕ → ℤ
  scalarValueTypeModifier : Expr → ℤ
  deriving Inhabited

namespace CDSLMatchView
variable (view : CDSLMatchView)

def same : Captured → Captured → Bool
  | .expression existing, .expression expr => view.fSameCapturedExpression existing expr
  | .expressions existing, .expressions exprs =>
    existing.length == exprs.length &&
      (existing.zip exprs).all fun (expr, expr') => view.fSameCapturedExpression expr expr'
  | .columns existing, .columns pcrs => existing == pcrs
  | .context existing path, .context root path' =>
    path == path' && view.fSameCapturedExpression existing root
  | _, _ => false

def sameHead : Captured → Captured → Bool
  | .expression existing, .expression expr => view.fSameCallHead existing expr
  | _, _ => false

def fAdmits : EDslSymbolKind → Expr → Bool
  | .scalar, expr => view.fScalarValue expr
  | .pred, expr => view.fBooleanValue expr
  | .expr, expr | .window, expr => view.fTypedProjectList expr
  | _, _ => true

/-- An opaque capture keeps the whole tree, subqueries included. -/
def fAdmitsOpaque : EDslSymbolKind → Expr → Bool
  | .table, _ | .scalar, _ | .expr, _ | .window, _ | .func, _ => true
  | .pred, expr => expr.op.fScalar || !view.deriveHasSubquery expr
  | _, expr => !view.deriveHasSubquery expr

def fStrictComparison : Expr → Bool
  | node (.scalarCmp mdidOp) [_, _] => view.fBuiltInComparisonIsVeryStrict mdidOp
  | _ => false

end CDSLMatchView

/-- `EDslExpressionKind` with the operands of a binding of that kind. Kinds without a branch of
    their own in the matcher are `other`. -/
inductive Pattern (Sym : Type) where
  | context (hole : Sym)
  | existsQuery (query : Sym)
  | call (head arguments : Sym)
  | compare (head arguments : Sym)
  | column (attrs : Sym)
  | scalarSubquery (output query : Sym)
  | quantified (quantifier : EQuantifier) (head arguments output query : Sym)
  | boolValue (inner : Sym)
  | valueBool (inner : Sym)
  | case (condition positive negative : Sym)
  | noItem
  | item (value output rest : Sym)
  | nullSafeEq (left right : Sym)
  | and (left right : Sym)
  | or (left right : Sym)
  | not (inner : Sym)
  | notTrue (inner : Sym)
  | noArgs
  | args (head tail : Sym)
  | other (operands : List Sym)

inductive EBinding where
  | legacy | match | build
  deriving DecidableEq

structure CDefinition (Sym : Type) where
  binding : EBinding
  pattern : Pattern Sym

/-- The two maps of the model: `m_phmSymToRef` and `m_phmScalarContexts`. -/
abbrev Slot (Sym : Type) := Sym ⊕ Sym

structure CDSLRule (Sym : Type) where
  kind : Sym → EDslSymbolKind
  pdef : Sym → Option (CDefinition Sym)
  ulDefinitions : ℕ
  constraints : List (EDslConstraintKind × Sym)
  psymBindingOrigin : Sym → Option Sym
  fCheckScalarProperty : EDslConstraintKind → Sym → CDSLModel (Slot Sym) Captured → Bool

namespace CDSLRule
variable {Sym : Type} [FinEnum Sym] (rule : CDSLRule Sym) (view : CDSLMatchView)

abbrev Capturing (Sym : Type) := Matching (Slot Sym) Captured

def fCheckCapturedScalarProperties (model previous : CDSLModel (Slot Sym) Captured) : Bool :=
  rule.constraints.all fun (kind, symbol) =>
    (kind != .errorFree && kind != .deterministic) ||
      match rule.psymBindingOrigin symbol with
      | none => true
      | some origin =>
        !((rule.kind origin == .scalar || rule.kind origin == .pred) &&
          (previous (.inl origin)).isNone && (model (.inl origin)).isSome) ||
          rule.fCheckScalarProperty kind symbol model

def bindSymbol (symbol : Sym) (value : Captured) : Capturing Sym :=
  bind view.same (.inl symbol) value

def bindHead (symbol : Sym) (expr : Expr) : Capturing Sym :=
  bind view.sameHead (.inl symbol) (.expression expr)

def contextSearch (hole : Expr → Capturing Sym) (symbol : Sym) (root : Expr) :
    ContextSearch COperator (Slot Sym) Captured where
  fScalar := COperator.fScalar
  fScalarValue := view.fScalarValue
  capture := fun previous value path => inOrder [
    hole value,
    test fun trial => rule.fCheckCapturedScalarProperties trial previous,
    bind view.same (.inr symbol) (.context root path)]

def matchOperands (below : Sym → Expr → Capturing Sym) (operands : List Sym) (expr : Expr)
    (op : COperator) : Capturing Sym :=
  inOrder (check (operands.length == expr.arity && expr.op == op) ::
    (operands.zip expr.children).map fun (operand, child) => below operand child)

/-- A flat `AND` or `OR` is read as its operands but the last, and the last. -/
def matchConnective (below : Sym → Expr → Capturing Sym) (left right : Sym) (expr : Expr)
    (eboolop : EBoolOperator) : Capturing Sym :=
  match expr with
  | node op (first :: second :: third :: rest) =>
    let last := (third :: rest).getLast (by simp)
    let others := first :: second :: (third :: rest).dropLast
    if op = .scalarBoolOp eboolop then inOrder [
      check (view.fQueryDemandInsensitive expr),
      below left (node op others),
      below right last]
    else check false
  | expr => matchOperands below [left, right] expr (.scalarBoolOp eboolop)

def fMatchPattern (below : Sym → Expr → Capturing Sym)
    (belowArguments : Sym → List Expr → Capturing Sym) (symbol : Sym) (expr : Expr) :
    Pattern Sym → Capturing Sym
  | .context hole =>
    (rule.contextSearch view (below hole) symbol expr).fMatchScalarContext expr []
  | .existsQuery query =>
    match expr with
    | node .scalarSubqueryExists [input] =>
      inOrder [check input.op.fLogical, below query input]
    | _ => check false
  | .call head arguments => inOrder [
      check (view.fScalarCall expr),
      bindHead view head expr,
      belowArguments arguments expr.children]
  | .compare head arguments => inOrder [
      check (view.fScalarCall expr && view.fStrictComparison expr),
      bindHead view head expr,
      belowArguments arguments expr.children]
  | .column attrs =>
    match expr with
    | node (.scalarIdent pcr) [] => bindSymbol view attrs (.columns [pcr])
    | _ => check false
  | .scalarSubquery output query =>
    match expr with
    | node (.scalarSubquery pcr false false) [input] => inOrder [
        check (view.fSelectedSubqueryInput input pcr),
        bindSymbol view output (.columns [pcr]),
        below query input]
    | _ => check false
  | .quantified quantifier head arguments output query =>
    match expr with
    | node (.scalarSubqueryQuantified found pcr _) [input, argument] => inOrder [
        check (found == quantifier && view.fQuantifiedInputs expr input [argument] pcr),
        bindHead view head (view.pexprComparison expr),
        bindSymbol view output (.columns [pcr]),
        belowArguments arguments [argument],
        below query input]
    | _ => check false
  | .boolValue inner | .valueBool inner =>
    inOrder [check (view.etiBool (view.mdidType expr)), below inner expr]
  | .case condition positive negative =>
    match expr with
    | node .scalarIf [first, second, third] => inOrder [
        check (([second, third].all fun value =>
          view.fScalarValue value && view.mdidType expr == view.mdidType value) &&
          view.fBooleanValue first),
        below condition first,
        below positive second,
        below negative third]
    | _ => check false
  | .noItem =>
    match expr with
    | node .scalarProjectList items => check items.isEmpty
    | _ => check false
  | .item value output rest =>
    match expr with
    | node .scalarProjectList (node (.scalarProjectElement pcr) [input] :: items) => inOrder [
        check (view.fScalarValue input && view.columnType pcr == view.mdidType input &&
          view.typeModifier pcr == view.scalarValueTypeModifier input),
        bindSymbol view output (.columns [pcr]),
        below value input,
        below rest (node .scalarProjectList items)]
    | _ => check false
  | .nullSafeEq left right =>
    match view.fNullSafeEqColumns expr with
    | some (pcrs, pcrs') => inOrder [
        bindSymbol view left (.columns pcrs),
        bindSymbol view right (.columns pcrs')]
    | none => check false
  | .and left right => matchConnective view below left right expr .and
  | .or left right => matchConnective view below left right expr .or
  | .not inner =>
    match expr with
    -- `NOT EXISTS` has an operator of its own.
    | node .scalarSubqueryNotExists [input] => below inner (node .scalarSubqueryExists [input])
    | expr => matchOperands below [inner] expr (.scalarBoolOp .not)
  | .notTrue inner => matchOperands below [inner] expr (.scalarBooleanTest true)
  | .noArgs => matchOperands below [] expr (.scalarBoolOp .not)
  | .args head tail => matchOperands below [head, tail] expr (.scalarBoolOp .not)
  | .other operands => matchOperands below operands expr (.scalarBoolOp .not)

def bindCapture (symbol : Sym) (expr : Expr) : Capturing Sym :=
  if rule.kind symbol = .func then
    match view.pdrgpexprFunctions expr with
    | some functions => bindSymbol view symbol (.expressions functions)
    | none => check false
  else bindSymbol view symbol (.expression expr)

/-!
The matches below a symbol stop when they are nested more deeply than there are definitions.
`left` counts down the depths that remain: `ulDefinitions + 1` of them at depth 0.
-/
mutual

def fMatchExpressionBinding : ℕ → Sym → Expr → Capturing Sym
  | 0, _, _ => check false
  | left + 1, symbol, expr => inOrder [
      check (view.fAdmits (rule.kind symbol) expr),
      rule.bindCapture view symbol expr,
      match rule.pdef symbol with
      | none | some ⟨.legacy, _⟩ => check (view.fAdmitsOpaque (rule.kind symbol) expr)
      | some ⟨.build, _⟩ => check false
      | some ⟨.match, pattern⟩ =>
        rule.fMatchPattern view (fMatchExpressionBinding left) (fMatchValueArguments left)
          symbol expr pattern]

def fMatchValueArguments : ℕ → Sym → List Expr → Capturing Sym
  | 0, _, _ => check false
  | left + 1, symbol, arguments => inOrder [
      check (arguments.all view.fScalarValue),
      bindSymbol view symbol (.expressions arguments),
      match rule.pdef symbol, arguments with
      | none, _ => check true
      | some ⟨.match, .noArgs⟩, arguments => check arguments.isEmpty
      | some ⟨.match, .args head tail⟩, first :: rest =>
        inOrder [fMatchExpressionBinding left head first, fMatchValueArguments left tail rest]
      | some _, _ => check false]

end

section Adds
variable {rule view} {below : Sym → Expr → Capturing Sym}
  {belowArguments : Sym → List Expr → Capturing Sym}

@[simp] theorem adds_bindSymbol (symbol : Sym) (value : Captured) :
    (bindSymbol view symbol value).Adds :=
  adds_bind _ _ _

@[simp] theorem adds_bindHead (symbol : Sym) (expr : Expr) : (bindHead view symbol expr).Adds :=
  adds_bind _ _ _

theorem adds_bindCapture (symbol : Sym) (expr : Expr) :
    (rule.bindCapture view symbol expr).Adds := by
  unfold bindCapture
  split
  · split <;> simp
  · simp

theorem adds_capture {hole : Expr → Capturing Sym} (adds : ∀ value, (hole value).Adds)
    (symbol : Sym) (root : Expr) (before : CDSLModel (Slot Sym) Captured) (value : Expr)
    (path : Path) : ((rule.contextSearch view hole symbol root).capture before value path).Adds :=
  adds_inOrder (by simp [adds])

variable (adds : ∀ symbol expr, (below symbol expr).Adds)

include adds in
omit [FinEnum Sym] in
theorem adds_matchOperands (operands : List Sym) (expr : Expr) (op : COperator) :
    (matchOperands below operands expr op).Adds := by
  refine adds_inOrder ?_
  intro part listed
  rcases List.mem_cons.1 listed with rfl | mapped
  · exact adds_check _
  · obtain ⟨⟨operand, child⟩, _, rfl⟩ := List.mem_map.1 mapped
    exact adds operand child

include adds in
omit [FinEnum Sym] in
theorem adds_matchConnective (left right : Sym) (expr : Expr) (eboolop : EBoolOperator) :
    (matchConnective view below left right expr eboolop).Adds := by
  unfold matchConnective
  split
  · split
    · exact adds_inOrder (by simp [adds])
    · exact adds_check _
  · exact adds_matchOperands adds _ _ _

include adds in
theorem adds_fMatchPattern (addsArguments : ∀ symbol exprs, (belowArguments symbol exprs).Adds)
    (symbol : Sym) (expr : Expr) (pattern : Pattern Sym) :
    (rule.fMatchPattern view below belowArguments symbol expr pattern).Adds := by
  cases pattern <;> simp only [fMatchPattern]
  case context hole =>
    exact ContextSearch.adds_fMatchScalarContext (adds_capture (adds hole) symbol expr) expr []
  case and | or => exact adds_matchConnective adds _ _ _ _
  case not =>
    split
    · exact adds _ _
    · exact adds_matchOperands adds _ _ _
  case notTrue | noArgs | args | other => exact adds_matchOperands adds _ _ _
  case call | compare | boolValue | valueBool =>
    exact adds_inOrder (by simp [adds, addsArguments])
  case column | noItem => split <;> simp
  case existsQuery | scalarSubquery | quantified | case | item | nullSafeEq =>
    split
    · exact adds_inOrder (by simp [adds, addsArguments])
    · exact adds_check _

end Adds

mutual

theorem adds_fMatchExpressionBinding : ∀ (left : ℕ) (symbol : Sym) (expr : Expr),
    (rule.fMatchExpressionBinding view left symbol expr).Adds
  | 0, _, _ => adds_check _
  | left + 1, symbol, expr => by
    unfold fMatchExpressionBinding
    refine adds_inOrder ?_
    simp only [List.forall_mem_cons, List.not_mem_nil, false_implies, implies_true, and_true]
    refine ⟨adds_check _, adds_bindCapture symbol expr, ?_⟩
    split
    case h_4 =>
      exact adds_fMatchPattern (adds_fMatchExpressionBinding left)
        (adds_fMatchValueArguments left) _ _ _
    all_goals exact adds_check _

theorem adds_fMatchValueArguments : ∀ (left : ℕ) (symbol : Sym) (arguments : List Expr),
    (rule.fMatchValueArguments view left symbol arguments).Adds
  | 0, _, _ => adds_check _
  | left + 1, symbol, arguments => by
    unfold fMatchValueArguments
    refine adds_inOrder ?_
    simp only [List.forall_mem_cons, List.not_mem_nil, false_implies, implies_true, and_true]
    refine ⟨adds_check _, adds_bindSymbol _ _, ?_⟩
    split
    case h_3 head tail first rest _ =>
      have here := adds_fMatchExpressionBinding left head first
      have later := adds_fMatchValueArguments left tail rest
      exact adds_inOrder (by simp [here, later])
    all_goals exact adds_check _

end

def holeSearch (depth : ℕ) (hole symbol : Sym) (root : Expr) :
    ContextSearch COperator (Slot Sym) Captured :=
  rule.contextSearch view
    (rule.fMatchExpressionBinding view (rule.ulDefinitions + 1 - depth) hole) symbol root

/-- The search with its trials is the plain one: a candidate that fails leaves no trace. -/
theorem scalarContext_is_first_fit (depth : ℕ) (hole symbol : Sym) (root candidate : Expr)
    (path : Path) (model : CDSLModel (Slot Sym) Captured) :
    (rule.holeSearch view depth hole symbol root).fMatchScalarContext candidate path model =
      (rule.holeSearch view depth hole symbol root).firstFit model
        ((rule.holeSearch view depth hole symbol root).values candidate path) := by
  have adds := rule.adds_fMatchExpressionBinding view (rule.ulDefinitions + 1 - depth) hole
  exact ContextSearch.fMatchScalarContext_eq (adds_capture adds symbol root) candidate path model

end CDSLRule

section Guarded

def ident (pcr : ℕ) : Expr := node (.scalarIdent pcr) []

def comparison : Expr := node (.scalarCmp 0) [ident 3, ident 5]

def plainView : CDSLMatchView :=
  { (default : CDSLMatchView) with fScalarValue := fun expr => expr.op.fScalar }

/-- `p = Context(n)`, `n = Column(a)` and a guard on `n`. -/
def columnContext : CDSLRule (Fin 3) where
  kind
    | 0 => .pred
    | 1 => .scalar
    | 2 => .attrs
  pdef
    | 0 => some ⟨.match, .context 1⟩
    | 1 => some ⟨.match, .column 2⟩
    | 2 => none
  ulDefinitions := 2
  constraints := [(.deterministic, 1)]
  psymBindingOrigin := some
  fCheckScalarProperty := fun _ symbol model => model (.inl symbol) != some (.expression (ident 3))

/-- The comparison is no column and the guard refuses its first operand; neither stays bound. -/
theorem guarded_column_passed_over :
    ∃ after, (columnContext.holeSearch plainView 1 1 0 comparison).fMatchScalarContext comparison []
        CDSLModel.empty = (true, after) ∧
      after (.inl 1) = some (.expression (ident 5)) ∧
      after (.inl 2) = some (.columns [5]) ∧
      after (.inr 0) = some (.context comparison [1]) := by
  rw [CDSLRule.scalarContext_is_first_fit]
  exact ⟨_, rfl, rfl, rfl, rfl⟩

end Guarded

end ScalarCaptures
