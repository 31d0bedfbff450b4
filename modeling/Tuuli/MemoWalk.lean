import Tuuli.CandidateWalk

/-!
`PdrgpexprBindings`: the walk of a group expression of the Memo through the prefix
index. It builds one expression for each way to read alternatives of the groups
along a path of the index, and emits those that end at a node with an available
rule. The Memo is acyclic, so a group is given with its alternatives as a tree.
-/
namespace RuleIndex
open WildcardTrie RewriteProgram

mutual

/-- A group with its derived property `DeriveHasSubquery` and its alternatives; of a
    relational group only the logical ones, which are all the walk looks at. -/
inductive CGroup where
  | group (scalar hasSubquery : Bool) (first : CGroupExpression) (rest : List CGroupExpression)

inductive CGroupExpression where
  | gexpr (pop : COperator) (dslProvenance : Bool) (children : List CGroup)

end

def CGroup.fScalar : CGroup → Bool
  | group scalar _ _ _ => scalar

def CGroup.deriveHasSubquery : CGroup → Bool
  | group _ hasSubquery _ _ => hasSubquery

def CGroupExpression.pop : CGroupExpression → COperator
  | gexpr pop _ _ => pop

def CGroupExpression.fHasDSLProvenance : CGroupExpression → Bool
  | gexpr _ dslProvenance _ => dslProvenance

/-! ### Representatives -/

mutual

/-- `PexprRepresentative` of a group: its first native alternative, or the first one. An
    expression carries the derived properties of the group it was built from. -/
def CGroup.pexprRepresentative : CGroup → ℕ → Expr
  | .group scalar hasSubquery first rest, depth =>
    if scalar || !first.fHasDSLProvenance then first.pexprRepresentative hasSubquery depth
    else
      (nativeRepresentative hasSubquery rest depth).getD
        (first.pexprRepresentative hasSubquery depth)

def nativeRepresentative (hasSubquery : Bool) : List CGroupExpression → ℕ → Option Expr
  | [], _ => none
  | gexpr :: rest, depth =>
    if gexpr.fHasDSLProvenance then nativeRepresentative hasSubquery rest depth
    else some (gexpr.pexprRepresentative hasSubquery depth)

def CGroupExpression.pexprRepresentative (hasSubquery : Bool) : CGroupExpression → ℕ → Expr
  | .gexpr pop _ children, depth =>
    .node ⟨pop, hasSubquery⟩ (if 128 ≤ depth then [] else representatives children (depth + 1))

def representatives : List CGroup → ℕ → List Expr
  | [], _ => []
  | group :: rest, depth => group.pexprRepresentative depth :: representatives rest depth

end

/-! ### Bindings at an adapter boundary -/

def fEqualBindings (left right : Expr) : Bool :=
  left.fMatches (fun live live' => live.pop = live'.pop) right

def distinctFrom (seen : List Expr) : List Expr → List Expr
  | [] => []
  | expr :: rest =>
    if seen.any (fEqualBindings expr) then distinctFrom seen rest
    else expr :: distinctFrom (expr :: seen) rest

def followed (depth : ℕ) (gexpr : CGroupExpression) : Bool :=
  depth = 0 || (gexpr.fHasDSLProvenance && gexpr.pop.eopid = .logicalSelect)

mutual

def CGroup.pdrgpexprAdapterBindings : CGroup → ℕ → List Expr
  | .group scalar hasSubquery first rest, depth =>
    if scalar then [first.pexprRepresentative hasSubquery depth]
    else
      distinctFrom []
        ((if 0 < depth then [(CGroup.group scalar hasSubquery first rest).pexprRepresentative depth]
            else []) ++
          (if followed depth first then first.pdrgpexprAdapterBindings hasSubquery depth else []) ++
          adapterAlternatives hasSubquery rest depth)

def adapterAlternatives (hasSubquery : Bool) : List CGroupExpression → ℕ → List Expr
  | [], _ => []
  | gexpr :: rest, depth =>
    (if followed depth gexpr then gexpr.pdrgpexprAdapterBindings hasSubquery depth else []) ++
      adapterAlternatives hasSubquery rest depth

/-- `PdrgpexprAdapterBindings` of a group expression: a `Select` over one relational child
    around each binding of that child. -/
def CGroupExpression.pdrgpexprAdapterBindings (hasSubquery : Bool) :
    CGroupExpression → ℕ → List Expr
  | .gexpr pop dslProvenance children, depth =>
    if pop.eopid ≠ .logicalSelect || children.countP (fun child => !child.fScalar) ≠ 1 ||
        128 ≤ depth then
      [(CGroupExpression.gexpr pop dslProvenance children).pexprRepresentative hasSubquery depth]
    else (adapterChildren children (depth + 1)).map (.node ⟨pop, hasSubquery⟩)

def adapterChildren : List CGroup → ℕ → List (List Expr)
  | [], _ => [[]]
  | child :: rest, depth =>
    if child.fScalar then
      (adapterChildren rest depth).map (child.pexprRepresentative depth :: ·)
    else
      (child.pdrgpexprAdapterBindings depth).flatMap fun binding =>
        (adapterChildren rest depth).map (binding :: ·)

end

/-! ### The walk -/

section Walk
variable {Rule : Type}

structure SBindingState (Rule : Type) where
  node : SNode Rule
  expr : Expr

structure SChildBindingState (Rule : Type) where
  node : SNode Rule
  exprs : List Expr

def groupsHaveSubquery (pop : COperator) (children : List CGroup) : Bool :=
  match pop.eopid, children with
  | .logicalGbAgg, [_, projectList] => projectList.deriveHasSubquery
  | _, _ => false

def CGroup.pdrgpexprAlternatives : CGroup → List Expr
  | .group scalar hasSubquery first rest =>
    first.pexprRepresentative hasSubquery 0 ::
      (if scalar then [] else rest.map fun gexpr => gexpr.pexprRepresentative hasSubquery 0)

variable (available : SRuleEntry Rule → Bool)

def fNodeHasAvailableTerminal (node : SNode Rule) : Bool := node.entries.any available

def consumeAtTerminal (follow : Bool) (group : CGroup) (node : SNode Rule) :
    List (SBindingState Rule) :=
  if fNodeHasAvailableTerminal available node then
    (if follow then group.pdrgpexprAdapterBindings 0 else group.pdrgpexprAlternatives).map
      fun expr => ⟨node, expr⟩
  else []

def consumeInput (group : CGroup) (node : SNode Rule) : List (SBindingState Rule) :=
  match node.wild with
  | none => []
  | some child =>
    if child.any available then
      group.pdrgpexprAlternatives.map fun expr => ⟨child, expr⟩
    else []

def wrapStates (live : LiveOp) (others : List CGroup) (states : List (SBindingState Rule)) :
    List (SBindingState Rule) :=
  states.map fun state => ⟨state.node, .node live (state.expr :: representatives others 0)⟩

mutual

def pdrgpstateConsumeGroup (follow : Bool) : CGroup → SNode Rule → List (SBindingState Rule)
  | .group scalar hasSubquery first rest, node =>
    if node.any available then
      consumeAtTerminal available follow (.group scalar hasSubquery first rest) node ++
        consumeInput available (.group scalar hasSubquery first rest) node ++
        (pdrgpstateConsumeGExpr follow hasSubquery first node ++
          if scalar then [] else consumeAlternatives follow hasSubquery rest node)
    else []

def consumeAlternatives (follow hasSubquery : Bool) :
    List CGroupExpression → SNode Rule → List (SBindingState Rule)
  | [], _ => []
  | gexpr :: rest, node =>
    pdrgpstateConsumeGExpr follow hasSubquery gexpr node ++
      consumeAlternatives follow hasSubquery rest node

def pdrgpstateConsumeGExpr (follow hasSubquery : Bool) :
    CGroupExpression → SNode Rule → List (SBindingState Rule)
  | .gexpr pop _ children, node =>
    node.edges.flatMap fun edge =>
      if fEdgeMatchesOperator edge.1 pop (groupsHaveSubquery pop children) &&
          edge.1.ulChildren ≤ children.length && edge.2.any available then
        (consumeChildren follow edge.1.adapterFlags true edge.1.ulChildren children
          [⟨edge.2, []⟩]).map fun state => ⟨state.node, .node ⟨pop, hasSubquery⟩ state.exprs⟩
      else []

/-- The loop over the children an edge consumes; the others are represented. The first child
    is consumed as `PdrgpstateConsumeAdaptedChild` does: as it is, and below its wrappers. -/
def consumeChildren (follow : Bool) (flags : AdapterFlags) :
    Bool → ℕ → List CGroup → List (SChildBindingState Rule) → List (SChildBindingState Rule)
  | _, 0, others, states =>
    states.map fun state => ⟨state.node, state.exprs ++ representatives others 0⟩
  | _, _ + 1, [], _ => []
  | first, count + 1, child :: rest, states =>
    consumeChildren follow flags false count rest
      (states.flatMap fun state =>
        (pdrgpstateConsumeGroup follow child state.node ++
            if first then consumePeeled follow flags child state.node else []).map
          fun binding => ⟨binding.node, state.exprs ++ [binding.expr]⟩)

def consumePeeled (follow : Bool) (flags : AdapterFlags) :
    CGroup → SNode Rule → List (SBindingState Rule)
  | .group scalar hasSubquery first rest, node =>
    if scalar then []
    else
      consumePeeledGExpr follow flags hasSubquery first node ++
        consumePeeledGExprs follow flags hasSubquery rest node

def consumePeeledGExprs (follow : Bool) (flags : AdapterFlags) (hasSubquery : Bool) :
    List CGroupExpression → SNode Rule → List (SBindingState Rule)
  | [], _ => []
  | gexpr :: rest, node =>
    consumePeeledGExpr follow flags hasSubquery gexpr node ++
      consumePeeledGExprs follow flags hasSubquery rest node

def consumePeeledGExpr (follow : Bool) (flags : AdapterFlags) (hasSubquery : Bool) :
    CGroupExpression → SNode Rule → List (SBindingState Rule)
  | .gexpr _ _ [], _ => []
  | .gexpr pop _ (below :: others), node =>
    (if flags.projectPeelLimit && pop.eopid = .logicalLimit && others.length = 2 then
      wrapStates ⟨pop, hasSubquery⟩ others
        (pdrgpstateConsumeGroup follow below node ++ consumePeeled follow flags below node)
      else []) ++
      (if others.length = 1 &&
          ((flags.projectPeelAgg && pop.eopid = .logicalGbAgg) ||
            (flags.gbAggPeelProject && pop.eopid = .logicalProject)) then
        wrapStates ⟨pop, hasSubquery⟩ others (pdrgpstateConsumeGroup follow below node)
        else [])

end

/-- The expressions emitted, each with the node it is emitted for: one witness for the rules
    at the root, and the states that reached an available rule. -/
def emissions (index : CDSLRulePrefixIndex Rule) (hasSubquery : Bool)
    (gexprRoot : CGroupExpression) : List (SBindingState Rule) :=
  (if index.root.entries.isEmpty || fNodeHasAvailableTerminal available index.root then
    [⟨index.root, gexprRoot.pexprRepresentative hasSubquery 0⟩] else []) ++
    (pdrgpstateConsumeGExpr available index.fFollowDSLSelectAlternatives hasSubquery gexprRoot
      index.root).filter fun state => fNodeHasAvailableTerminal available state.node

def pdrgpexprBindings (index : CDSLRulePrefixIndex Rule) (hasSubquery : Bool)
    (gexprRoot : CGroupExpression) : List Expr :=
  distinctFrom [] ((emissions available index hasSubquery gexprRoot).map SBindingState.expr)

end Walk

end RuleIndex
