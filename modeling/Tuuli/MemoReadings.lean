import Tuuli.PaddedPaths

/-!
What the walk of the Memo reads: the expression of a state is read along the path of
its node with wildcards put in, and so is the Memo, in whose groups the operators of
the path stand. Below a wrapper the walk reads more views than that of an expression
does.
-/
namespace RuleIndex
open WildcardTrie RewriteProgram

/-! ### The derived property of an expression is that of its group -/

def Expr.hasSubquery (expr : Expr) : Bool := expr.op.deriveHasSubquery

variable {hasSubquery : Bool} {gexprs : List CGroupExpression} {depth : ℕ} {expr : Expr}
  {group : CGroup} {exprs : List Expr}

theorem CGroupExpression.hasSubquery_representative (gexpr : CGroupExpression) (depth : ℕ) :
    (gexpr.pexprRepresentative hasSubquery depth).hasSubquery = hasSubquery := by
  cases gexpr
  rw [pexprRepresentative]
  rfl

theorem hasSubquery_nativeRepresentative
    (found : nativeRepresentative hasSubquery gexprs depth = some expr) :
    expr.hasSubquery = hasSubquery := by
  induction gexprs with
  | nil =>
    rw [nativeRepresentative] at found
    cases found
  | cons gexpr rest ih =>
    rw [nativeRepresentative] at found
    split at found
    · exact ih found
    · cases found
      exact gexpr.hasSubquery_representative depth

theorem CGroup.hasSubquery_representative (group : CGroup) (depth : ℕ) :
    (group.pexprRepresentative depth).hasSubquery = group.deriveHasSubquery := by
  cases group with
  | group scalar hasSubquery first rest =>
    rw [pexprRepresentative]
    split
    · exact first.hasSubquery_representative depth
    · cases found : nativeRepresentative hasSubquery rest depth with
      | none => exact first.hasSubquery_representative depth
      | some expr => exact hasSubquery_nativeRepresentative found

theorem map_hasSubquery_representatives (groups : List CGroup) (depth : ℕ) :
    (representatives groups depth).map Expr.hasSubquery =
      groups.map CGroup.deriveHasSubquery := by
  induction groups with
  | nil => rw [representatives]; rfl
  | cons group rest ih =>
    rw [representatives, List.map_cons, List.map_cons, ih, group.hasSubquery_representative]

theorem CGroup.hasSubquery_alternatives (mem : expr ∈ group.pdrgpexprAlternatives) :
    expr.hasSubquery = group.deriveHasSubquery := by
  cases group with
  | group scalar hasSubquery first rest =>
    rw [pdrgpexprAlternatives] at mem
    rcases List.mem_cons.mp mem with same | mem
    · rw [same]
      exact first.hasSubquery_representative 0
    · split at mem
      · cases mem
      · obtain ⟨gexpr, _, same⟩ := List.mem_map.mp mem
        rw [← same]
        exact gexpr.hasSubquery_representative 0

theorem mem_of_mem_distinctFrom {seen : List Expr} (mem : expr ∈ distinctFrom seen exprs) :
    expr ∈ exprs := by
  induction exprs generalizing seen with
  | nil => cases mem
  | cons head rest ih =>
    rw [distinctFrom] at mem
    split at mem
    · exact List.mem_cons_of_mem _ (ih mem)
    · rcases List.mem_cons.mp mem with same | mem
      · exact same ▸ List.mem_cons_self
      · exact List.mem_cons_of_mem _ (ih mem)

theorem CGroupExpression.hasSubquery_adapterBindings {gexpr : CGroupExpression}
    (mem : expr ∈ gexpr.pdrgpexprAdapterBindings hasSubquery depth) :
    expr.hasSubquery = hasSubquery := by
  cases gexpr with
  | gexpr pop dslProvenance children =>
    rw [pdrgpexprAdapterBindings] at mem
    split at mem
    · rw [List.mem_singleton.mp mem]
      exact hasSubquery_representative _ depth
    · obtain ⟨exprs, _, same⟩ := List.mem_map.mp mem
      rw [← same]
      rfl

theorem hasSubquery_adapterAlternatives (mem : expr ∈ adapterAlternatives hasSubquery gexprs depth) :
    expr.hasSubquery = hasSubquery := by
  induction gexprs with
  | nil =>
    rw [adapterAlternatives] at mem
    cases mem
  | cons gexpr rest ih =>
    rw [adapterAlternatives] at mem
    rcases List.mem_append.mp mem with mem | mem
    · split at mem
      · exact CGroupExpression.hasSubquery_adapterBindings mem
      · cases mem
    · exact ih mem

theorem CGroup.hasSubquery_adapterBindings (mem : expr ∈ group.pdrgpexprAdapterBindings depth) :
    expr.hasSubquery = group.deriveHasSubquery := by
  cases group with
  | group scalar hasSubquery first rest =>
    rw [pdrgpexprAdapterBindings] at mem
    split at mem
    · rw [List.mem_singleton.mp mem]
      exact first.hasSubquery_representative depth
    · have listed := mem_of_mem_distinctFrom mem
      simp only [List.mem_append] at listed
      rcases listed with (mem | mem) | mem
      · split at mem
        · rw [List.mem_singleton.mp mem]
          exact hasSubquery_representative _ depth
        · cases mem
      · split at mem
        · exact CGroupExpression.hasSubquery_adapterBindings mem
        · cases mem
      · exact hasSubquery_adapterAlternatives mem

theorem gbAggHasSubquery_eq (pop : COperator) {groups : List CGroup}
    (same : exprs.map Expr.hasSubquery = groups.map CGroup.deriveHasSubquery) :
    gbAggHasSubquery pop exprs = groupsHaveSubquery pop groups := by
  have lengths : exprs.length = groups.length := by
    rw [← List.length_map, same, List.length_map]
  obtain ⟨eopid, egbaggtype, payload⟩ := pop
  match exprs, groups with
  | [], [] => cases eopid <;> rfl
  | [_], [_] => cases eopid <;> rfl
  | [_, expr], [_, group] =>
    simp only [List.map_cons, List.cons.injEq] at same
    cases eopid with
    | logicalGbAgg => exact same.2.1
    | _ => rfl
  | _ :: _ :: _ :: _, _ :: _ :: _ :: _ => cases eopid <;> rfl

/-! ### Paths in the Memo -/

def CGroup.Lists (gexpr : CGroupExpression) : CGroup → Prop
  | .group scalar _ first rest => gexpr = first ∨ scalar = false ∧ gexpr ∈ rest

/-- A `Limit` of the group, with its offset and count, that the flags let through. -/
def LimitOver (flags : AdapterFlags) (group below : CGroup) : Prop :=
  flags.projectPeelLimit = true ∧ group.fScalar = false ∧
    ∃ pop dslProvenance others, group.Lists (.gexpr pop dslProvenance (below :: others)) ∧
      pop.eopid = .logicalLimit ∧ others.length = 2

/-- An aggregate or projection of the group that the flags let through. -/
def GroupingOver (flags : AdapterFlags) (group below : CGroup) : Prop :=
  group.fScalar = false ∧
    ∃ pop dslProvenance list, group.Lists (.gexpr pop dslProvenance [below, list]) ∧
      ((flags.projectPeelAgg && pop.eopid = .logicalGbAgg) ||
        (flags.gbAggPeelProject && pop.eopid = .logicalProject)) = true

inductive Wrappers where
  | limits
  | grouping
  | both
  deriving DecidableEq

def Wrappers.underLimit : Wrappers → Wrappers
  | .limits => .limits
  | _ => .both

mutual

/-- The exact edges of the path match alternatives of the Memo that stand to each other as the
    path says, each first child as it is or below wrappers that the flags let through. `twice` says
    that somewhere an exact edge is read below both kinds of wrappers. -/
inductive GExprAlong : (twice : Bool) → CGroupExpression → Edges → Prop
  | edge {twice : Bool} {pop : COperator} {dslProvenance : Bool} {children : List CGroup}
      {edge : SExactEdge} {path : Edges}
      (matched : fEdgeMatchesOperator edge pop (groupsHaveSubquery pop children) = true)
      (enough : edge.ulChildren ≤ children.length)
      (below : ChildrenAlong twice edge.adapterFlags true edge.ulChildren children path) :
      GExprAlong twice (.gexpr pop dslProvenance children) (.key edge :: path)

inductive GroupAlong : Bool → CGroup → Edges → Prop
  | wild (group : CGroup) : GroupAlong false group [.wild]
  | alternative {twice : Bool} {group : CGroup} {gexpr : CGroupExpression} {path : Edges}
      (listed : group.Lists gexpr) (along : GExprAlong twice gexpr path) :
      GroupAlong twice group path

inductive ChildrenAlong : Bool → AdapterFlags → Bool → ℕ → List CGroup → Edges → Prop
  | done {flags : AdapterFlags} {first : Bool} {groups : List CGroup} :
      ChildrenAlong false flags first 0 groups []
  | plain {here later : Bool} {flags : AdapterFlags} {first : Bool} {count : ℕ} {group : CGroup}
      {rest : List CGroup} {path more : Edges} (head : GroupAlong here group path)
      (tail : ChildrenAlong later flags false count rest more) :
      ChildrenAlong (here || later) flags first (count + 1) (group :: rest) (path ++ more)
  | peeled {here later : Bool} {flags : AdapterFlags} {wrappers : Wrappers} {count : ℕ}
      {group : CGroup} {rest : List CGroup} {edge : SExactEdge} {path more : Edges}
      (head : PeeledAlong here flags wrappers group (.key edge :: path))
      (tail : ChildrenAlong later flags false count rest more) :
      ChildrenAlong (decide (wrappers = .both) || here || later) flags true (count + 1)
        (group :: rest) (.key edge :: path ++ more)

inductive PeeledAlong : Bool → AdapterFlags → Wrappers → CGroup → Edges → Prop
  | limit {twice : Bool} {flags : AdapterFlags} {group below : CGroup} {path : Edges}
      (wraps : LimitOver flags group below) (along : GroupAlong twice below path) :
      PeeledAlong twice flags .limits group path
  | limits {twice : Bool} {flags : AdapterFlags} {wrappers : Wrappers} {group below : CGroup}
      {path : Edges} (wraps : LimitOver flags group below)
      (along : PeeledAlong twice flags wrappers below path) :
      PeeledAlong twice flags wrappers.underLimit group path
  | grouping {twice : Bool} {flags : AdapterFlags} {group below : CGroup} {path : Edges}
      (wraps : GroupingOver flags group below) (along : GroupAlong twice below path) :
      PeeledAlong twice flags .grouping group path

end

theorem GroupAlong.path_cases {twice : Bool} {path : Edges} (along : GroupAlong twice group path) :
    path = [.wild] ∨ ∃ edge rest, path = .key edge :: rest := by
  cases along with
  | wild => exact .inl rfl
  | alternative _ along =>
    cases along
    exact .inr ⟨_, _, rfl⟩

theorem PeeledAlong.path_cases {twice : Bool} {flags : AdapterFlags} {wrappers : Wrappers}
    {group : CGroup} {path : Edges} : PeeledAlong twice flags wrappers group path →
      path = [.wild] ∨ ∃ edge rest, path = .key edge :: rest
  | .limit _ along => along.path_cases
  | .limits _ along => along.path_cases
  | .grouping _ along => along.path_cases

/-- The view is one of those that the walk of an expression has below such wrappers. -/
def Wrappers.Shows (flags : AdapterFlags) (expr view : Expr) : Wrappers → Prop
  | .limits => flags.projectPeelLimit = true ∧ view ∈ belowLimits expr
  | .grouping => view ∈ belowGrouping flags expr
  | .both => True

theorem Wrappers.Shows.mem_views {flags : AdapterFlags} {view : Expr} {wrappers : Wrappers}
    (shows : wrappers.Shows flags expr view) (once : wrappers ≠ .both) :
    view ∈ views flags true expr := by
  cases wrappers with
  | limits =>
    rw [views, shows.1]
    exact List.mem_cons_of_mem _ (List.mem_append_left _ shows.2)
  | grouping => exact List.mem_cons_of_mem _ (List.mem_append_right _ shows)
  | both => exact absurd rfl once

theorem Wrappers.Shows.under_limit {flags : AdapterFlags} {view : Expr} {wrappers : Wrappers}
    {live : LiveOp} {others : List Expr} (shows : wrappers.Shows flags expr view)
    (limit : (live.pop.eopid = .logicalLimit && others.length = 2) = true) :
    wrappers.underLimit.Shows flags (.node live (expr :: others)) view := by
  cases wrappers with
  | limits =>
    refine ⟨shows.1, ?_⟩
    rw [belowLimits, if_pos limit]
    exact List.mem_cons_of_mem _ shows.2
  | grouping => trivial
  | both => trivial

/-! ### What a state has read -/

section Reading
variable {Rule : Type} (available : SRuleEntry Rule → Bool)

/-- The expression is read from one node to the other along a path that the Memo has. -/
def Reads (along : Bool → Edges → Prop) (u v : SNode Rule) (view : Expr) : Prop :=
  ∃ twice path padded, Pads available u path padded v ∧ along twice padded ∧
    (twice = false → Full views view padded)

def ReadsExact (along : Bool → Edges → Prop) (u v : SNode Rule) (expr : Expr) : Prop :=
  ∃ twice edge child path padded, (edge, child) ∈ u.edges ∧ Pads available child path padded v ∧
    along twice (.key edge :: padded) ∧ (twice = false → Full views expr (.key edge :: padded))

variable {available} {along other : Bool → Edges → Prop} {u : SNode Rule} {group : CGroup}
  {state : SBindingState Rule}

theorem Reads.mono {v : SNode Rule} {expr : Expr} (h : Reads available along u v expr)
    (weaker : ∀ twice path, along twice path → other twice path) :
    Reads available other u v expr := by
  obtain ⟨twice, path, padded, pads, meets, full⟩ := h
  exact ⟨twice, path, padded, pads, weaker twice padded meets, full⟩

theorem ReadsExact.reads {v : SNode Rule} {expr : Expr} (h : ReadsExact available along u v expr)
    (weaker : ∀ twice path, along twice path → other twice path) :
    Reads available other u v expr := by
  obtain ⟨twice, edge, child, path, padded, listed, pads, meets, full⟩ := h
  exact ⟨twice, _, _, .key listed pads, weaker twice _ meets, full⟩

theorem reads_of_consumeAtTerminal {follow : Bool}
    (mem : state ∈ consumeAtTerminal available follow group u) :
    state.expr.hasSubquery = group.deriveHasSubquery ∧
      Reads available (GroupAlong · group) u state.node state.expr := by
  rw [consumeAtTerminal] at mem
  split at mem
  next terminal =>
    obtain ⟨expr, listed, same⟩ := List.mem_map.mp mem
    subst same
    constructor
    · split at listed
      · exact CGroup.hasSubquery_adapterBindings listed
      · exact CGroup.hasSubquery_alternatives listed
    · exact ⟨false, [], [.wild], .stay terminal (.refl u), .wild group, fun _ => .wild expr⟩
  next => cases mem

theorem reads_of_consumeInput (mem : state ∈ consumeInput available group u) :
    state.expr.hasSubquery = group.deriveHasSubquery ∧
      Reads available (GroupAlong · group) u state.node state.expr := by
  rw [consumeInput] at mem
  cases edge : u.wild with
  | none => simp [edge] at mem
  | some child =>
    simp only [edge] at mem
    split at mem
    · obtain ⟨expr, listed, same⟩ := List.mem_map.mp mem
      subst same
      exact ⟨CGroup.hasSubquery_alternatives listed, false, [.wild], [.wild],
        .wild edge (.refl child), .wild group, fun _ => .wild expr⟩
    · cases mem

/-- One child of the loop over the children: what it adds to the path that the Memo has and, unless
    it is read below both kinds of wrappers, to the path of the expression. -/
def ReadsChild (available : SRuleEntry Rule → Bool) (flags : AdapterFlags) (first : Bool)
    (group : CGroup) (u v : SNode Rule) (expr : Expr) : Prop :=
  ∃ here path padded, Pads available u path padded v ∧
    (∀ later count rest more, ChildrenAlong later flags false count rest more →
      ChildrenAlong (here || later) flags first (count + 1) (group :: rest) (padded ++ more)) ∧
    (here = false → ∃ view ∈ views flags first expr, Full views view padded)

theorem Reads.child {v : SNode Rule} (reads : Reads available (GroupAlong · group) u v expr)
    (flags : AdapterFlags) (first : Bool) : ReadsChild available flags first group u v expr := by
  obtain ⟨here, path, padded, pads, along, full⟩ := reads
  exact ⟨here, path, padded, pads, fun _ _ _ _ => .plain along, fun once =>
    ⟨expr, List.mem_cons_self, full once⟩⟩

theorem Reads.peeled_child {v : SNode Rule} {flags : AdapterFlags} {wrappers : Wrappers}
    {view : Expr} (shows : wrappers.Shows flags expr view)
    (reads : Reads available (PeeledAlong · flags wrappers group) u v view) :
    ReadsChild available flags true group u v expr := by
  obtain ⟨twice, path, padded, pads, along, full⟩ := reads
  rcases along.path_cases with rfl | ⟨edge, tail, rfl⟩
  · -- a wildcard reads the wrapped expression as well
    exact ⟨false, path, [.wild], pads, fun _ _ _ _ => .plain (.wild group), fun _ =>
      ⟨expr, List.mem_cons_self, .wild expr⟩⟩
  · refine ⟨decide (wrappers = .both) || twice, path, _, pads, fun _ _ _ _ => .peeled along,
      fun once => ?_⟩
    rw [Bool.or_eq_false_iff, decide_eq_false_iff_not] at once
    exact ⟨view, shows.mem_views once.1, full once.2⟩

mutual

theorem reads_of_consumeGroup (follow : Bool) : ∀ (group : CGroup) {u : SNode Rule}
    {state : SBindingState Rule},
    state ∈ pdrgpstateConsumeGroup available follow group u →
      state.expr.hasSubquery = group.deriveHasSubquery ∧
        Reads available (GroupAlong · group) u state.node state.expr
  | .group scalar hasSubquery first rest, u, state, mem => by
    rw [pdrgpstateConsumeGroup] at mem
    split at mem
    · simp only [List.mem_append] at mem
      rcases mem with (mem | mem) | mem | mem
      · exact reads_of_consumeAtTerminal mem
      · exact reads_of_consumeInput mem
      · obtain ⟨derived, reads⟩ := reads_of_consumeGExpr follow hasSubquery first mem
        exact ⟨derived, reads.reads fun _ _ => .alternative (.inl rfl)⟩
      · split at mem
        · cases mem
        next relational =>
          obtain ⟨derived, gexpr, listed, reads⟩ :=
            reads_of_consumeAlternatives follow hasSubquery rest mem
          exact ⟨derived, reads.reads fun _ _ =>
            .alternative (.inr ⟨Bool.eq_false_of_not_eq_true relational, listed⟩)⟩
    · cases mem

theorem reads_of_consumeAlternatives (follow hasSubquery : Bool) :
    ∀ (gexprs : List CGroupExpression) {u : SNode Rule} {state : SBindingState Rule},
    state ∈ consumeAlternatives available follow hasSubquery gexprs u →
      state.expr.hasSubquery = hasSubquery ∧
        ∃ gexpr ∈ gexprs, ReadsExact available (GExprAlong · gexpr) u state.node state.expr
  | [], _, _, mem => by
    rw [consumeAlternatives] at mem
    cases mem
  | gexpr :: rest, u, state, mem => by
    rw [consumeAlternatives] at mem
    rcases List.mem_append.mp mem with mem | mem
    · obtain ⟨derived, reads⟩ := reads_of_consumeGExpr follow hasSubquery gexpr mem
      exact ⟨derived, gexpr, List.mem_cons_self, reads⟩
    · obtain ⟨derived, other, listed, reads⟩ :=
        reads_of_consumeAlternatives follow hasSubquery rest mem
      exact ⟨derived, other, List.mem_cons_of_mem gexpr listed, reads⟩

theorem reads_of_consumeGExpr (follow hasSubquery : Bool) :
    ∀ (gexpr : CGroupExpression) {u : SNode Rule} {state : SBindingState Rule},
    state ∈ pdrgpstateConsumeGExpr available follow hasSubquery gexpr u →
      state.expr.hasSubquery = hasSubquery ∧
        ReadsExact available (GExprAlong · gexpr) u state.node state.expr
  | .gexpr pop dslProvenance children, u, state, mem => by
    rw [pdrgpstateConsumeGExpr] at mem
    obtain ⟨⟨edge, child⟩, listed, mem⟩ := List.mem_flatMap.mp mem
    split at mem
    next taken =>
      simp only [Bool.and_eq_true, decide_eq_true_eq] at taken
      obtain ⟨inner, reached, same⟩ := List.mem_map.mp mem
      subst same
      obtain ⟨start, origin, exprs, built, derived, twice, path, padded, pads, along, full⟩ :=
        reads_of_consumeChildren follow edge.adapterFlags children reached
      cases List.mem_singleton.mp origin
      rw [List.nil_append] at built
      have matched : fEdgeMatches edge pop inner.exprs = true := by
        have lengths : inner.exprs.length = children.length := by
          rw [built, ← List.length_map, derived, List.length_map]
        rw [fEdgeMatches, built, gbAggHasSubquery_eq pop derived, ← built, lengths]
        simp only [taken.1.1, taken.1.2, decide_true, Bool.and_self]
      refine ⟨rfl, twice, edge, child, path, padded, listed, pads,
        .edge taken.1.1 taken.1.2 along, fun once => .edge matched ?_⟩
      rw [built]
      exact full once
    next => cases mem

theorem reads_of_consumeChildren (follow : Bool) (flags : AdapterFlags) :
    ∀ (groups : List CGroup) {first : Bool} {count : ℕ} {states : List (SChildBindingState Rule)}
    {state : SChildBindingState Rule},
    state ∈ consumeChildren available follow flags first count groups states →
      ∃ start ∈ states, ∃ exprs, state.exprs = start.exprs ++ exprs ∧
        exprs.map Expr.hasSubquery = groups.map CGroup.deriveHasSubquery ∧
        ∃ twice path padded, Pads available start.node path padded state.node ∧
          ChildrenAlong twice flags first count groups padded ∧
            (twice = false → FullChildren views flags first count exprs padded)
  | groups, first, 0, states, state, mem => by
    have mem : state ∈ states.map fun state =>
        (⟨state.node, state.exprs ++ representatives groups 0⟩ : SChildBindingState Rule) := by
      cases groups <;> (rw [consumeChildren] at mem; exact mem)
    obtain ⟨start, listed, same⟩ := List.mem_map.mp mem
    subst same
    exact ⟨start, listed, _, rfl, map_hasSubquery_representatives groups 0, false, [], [], .refl _,
      .done, fun _ => .done⟩
  | [], _, _ + 1, _, _, mem => by
    rw [consumeChildren] at mem
    cases mem
  | group :: rest, first, count + 1, states, state, mem => by
    rw [consumeChildren] at mem
    obtain ⟨middle, reached, exprs, built, derived, later, more, morePadded, pads, along, full⟩ :=
      reads_of_consumeChildren follow flags rest mem
    obtain ⟨start, listed, advanced⟩ := List.mem_flatMap.mp reached
    obtain ⟨binding, found, same⟩ := List.mem_map.mp advanced
    subst same
    have head : binding.expr.hasSubquery = group.deriveHasSubquery ∧
        ReadsChild available flags first group start.node binding.node binding.expr := by
      rcases List.mem_append.mp found with plain | peeled
      · obtain ⟨same, reads⟩ := reads_of_consumeGroup follow group plain
        exact ⟨same, reads.child flags first⟩
      · split at peeled
        next isFirst =>
          obtain ⟨same, _, _, shows, reads⟩ := reads_of_consumePeeled follow flags group peeled
          rw [isFirst]
          exact ⟨same, reads.peeled_child shows⟩
        next => cases peeled
    obtain ⟨same, here, path, padded, front, extend, read⟩ := head
    refine ⟨start, listed, binding.expr :: exprs, ?_, ?_, here || later, path ++ more,
      padded ++ morePadded, front.trans pads, extend later count rest morePadded along, ?_⟩
    · rw [built, List.append_assoc]
      rfl
    · rw [List.map_cons, List.map_cons, same, derived]
    · intro once
      rw [Bool.or_eq_false_iff] at once
      obtain ⟨view, shown, fullHead⟩ := read once.1
      exact .next shown fullHead (full once.2)

theorem reads_of_consumePeeled (follow : Bool) (flags : AdapterFlags) :
    ∀ (group : CGroup) {u : SNode Rule} {state : SBindingState Rule},
    state ∈ consumePeeled available follow flags group u →
      state.expr.hasSubquery = group.deriveHasSubquery ∧
        ∃ wrappers view, wrappers.Shows flags state.expr view ∧
          Reads available (PeeledAlong · flags wrappers group) u state.node view
  | .group scalar hasSubquery first rest, u, state, mem => by
    rw [consumePeeled] at mem
    split at mem
    · cases mem
    next relational =>
      have relational := Bool.eq_false_of_not_eq_true relational
      rcases List.mem_append.mp mem with mem | mem
      · exact reads_of_consumePeeledGExpr follow flags hasSubquery first mem relational (.inl rfl)
      · exact reads_of_consumePeeledGExprs follow flags hasSubquery rest mem relational
          fun gexpr listed => .inr ⟨relational, listed⟩

theorem reads_of_consumePeeledGExprs (follow : Bool) (flags : AdapterFlags) (hasSubquery : Bool) :
    ∀ (gexprs : List CGroupExpression) {u : SNode Rule} {state : SBindingState Rule},
    state ∈ consumePeeledGExprs available follow flags hasSubquery gexprs u →
      ∀ {group : CGroup}, group.fScalar = false → (∀ gexpr ∈ gexprs, group.Lists gexpr) →
      state.expr.hasSubquery = hasSubquery ∧
        ∃ wrappers view, wrappers.Shows flags state.expr view ∧
          Reads available (PeeledAlong · flags wrappers group) u state.node view
  | [], _, _, mem, _, _, _ => by
    rw [consumePeeledGExprs] at mem
    cases mem
  | gexpr :: rest, u, state, mem, group, relational, listed => by
    obtain ⟨here, later⟩ := List.forall_mem_cons.mp listed
    rw [consumePeeledGExprs] at mem
    rcases List.mem_append.mp mem with mem | mem
    · exact reads_of_consumePeeledGExpr follow flags hasSubquery gexpr mem relational here
    · exact reads_of_consumePeeledGExprs follow flags hasSubquery rest mem relational later

theorem reads_of_consumePeeledGExpr (follow : Bool) (flags : AdapterFlags) (hasSubquery : Bool) :
    ∀ (gexpr : CGroupExpression) {u : SNode Rule} {state : SBindingState Rule},
    state ∈ consumePeeledGExpr available follow flags hasSubquery gexpr u →
      ∀ {group : CGroup}, group.fScalar = false → group.Lists gexpr →
      state.expr.hasSubquery = hasSubquery ∧
        ∃ wrappers view, wrappers.Shows flags state.expr view ∧
          Reads available (PeeledAlong · flags wrappers group) u state.node view
  | .gexpr _ _ [], _, _, mem, _, _, _ => by
    rw [consumePeeledGExpr] at mem
    cases mem
  | .gexpr pop dslProvenance (below :: others), u, state, mem, group, relational, listed => by
    have kept : (representatives others 0).length = others.length := by
      rw [← List.length_map, map_hasSubquery_representatives, List.length_map]
    rw [consumePeeledGExpr] at mem
    rcases List.mem_append.mp mem with mem | mem
    · split at mem
      next limit =>
        obtain ⟨inner, reached, same⟩ := List.mem_map.mp mem
        subst same
        rw [Bool.and_assoc, Bool.and_eq_true] at limit
        have isLimit := limit.2
        rw [← kept] at isLimit
        simp only [Bool.and_eq_true, decide_eq_true_eq] at limit
        have wraps : LimitOver flags group below :=
          ⟨limit.1, relational, pop, dslProvenance, others, listed, limit.2⟩
        rcases List.mem_append.mp reached with plain | peeled
        · refine ⟨rfl, .limits, inner.expr, ⟨limit.1, ?_⟩,
            (reads_of_consumeGroup follow below plain).2.mono fun _ _ => .limit wraps⟩
          rw [belowLimits, if_pos isLimit]
          exact List.mem_cons_self
        · obtain ⟨_, wrappers, view, shows, reads⟩ :=
            reads_of_consumePeeled follow flags below peeled
          exact ⟨rfl, wrappers.underLimit, view, shows.under_limit isLimit,
            reads.mono fun _ _ => .limits wraps⟩
      next => cases mem
    · split at mem
      next grouping =>
        obtain ⟨inner, reached, same⟩ := List.mem_map.mp mem
        subst same
        rw [Bool.and_eq_true, decide_eq_true_eq] at grouping
        obtain ⟨list, single⟩ := List.length_eq_one_iff.mp (kept.trans grouping.1)
        have wraps : GroupingOver flags group below := by
          obtain ⟨only, isOnly⟩ := List.length_eq_one_iff.mp grouping.1
          rw [isOnly] at listed
          exact ⟨relational, pop, dslProvenance, only, listed, grouping.2⟩
        refine ⟨rfl, .grouping, inner.expr, ?_,
          (reads_of_consumeGroup follow below reached).2.mono fun _ _ => .grouping wraps⟩
        rw [single, Wrappers.Shows, belowGrouping, if_pos grouping.2]
        exact List.mem_singleton_self _
      next => cases mem

end

end Reading

end RuleIndex
