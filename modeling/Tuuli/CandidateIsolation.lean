import Tuuli.CandidateWalk

/-!
The walk of an expression through the index, said path by path: the paths that
consume an expression, and the paths that end at a node passed on the way, do not
mention the tree. The walk in a shared index meets an entry exactly if it is
available and stored at such a path.
-/
namespace RuleIndex
open WildcardTrie RewriteProgram

/-! ### The views of a child -/

/-- The relations below the `Limit`s of a chain. -/
def belowLimits : Expr → List Expr
  | .node live (below :: others) =>
    if live.pop.eopid = .logicalLimit && others.length = 2 then below :: belowLimits below
    else []
  | .node _ [] => []

def belowGrouping (flags : AdapterFlags) : Expr → List Expr
  | .node live [below, _] =>
    if (flags.projectPeelAgg && live.pop.eopid = .logicalGbAgg) ||
        (flags.gbAggPeelProject && live.pop.eopid = .logicalProject) then [below]
    else []
  | _ => []

def views (flags : AdapterFlags) (first : Bool) (child : Expr) : List Expr :=
  child :: ((if first && flags.projectPeelLimit then belowLimits child else []) ++
    (if first then belowGrouping flags child else []))

theorem nodes_of_mem_belowLimits : ∀ (expr : Expr) {view : Expr},
    view ∈ belowLimits expr → view.nodes < expr.nodes
  | .node live (below :: others), view, mem => by
    rw [belowLimits] at mem
    split at mem
    · have smaller : below.nodes < (CExpression.node live (below :: others)).nodes := by
        simp only [CExpression.nodes, CExpression.nodesList]
        omega
      rcases List.mem_cons.mp mem with rfl | mem
      · exact smaller
      · exact lt_trans (nodes_of_mem_belowLimits below mem) smaller
    · cases mem
  | .node _ [], _, mem => by cases mem

theorem nodes_of_mem_belowGrouping {flags : AdapterFlags} {expr view : Expr}
    (mem : view ∈ belowGrouping flags expr) : view.nodes < expr.nodes := by
  unfold belowGrouping at mem
  split at mem
  · split at mem
    · rw [List.mem_singleton.mp mem]
      simp only [CExpression.nodes, CExpression.nodesList]
      omega
    · cases mem
  · cases mem

theorem nodes_of_mem_views {flags : AdapterFlags} {first : Bool} {child view : Expr}
    (mem : view ∈ views flags first child) : view.nodes ≤ child.nodes := by
  rcases List.mem_cons.mp mem with rfl | mem
  · exact le_refl _
  · rcases List.mem_append.mp mem with mem | mem
    · split at mem
      · exact (nodes_of_mem_belowLimits child mem).le
      · cases mem
    · split at mem
      · exact (nodes_of_mem_belowGrouping mem).le
      · cases mem

theorem nodes_lt_of_mem {child : Expr} {children : List Expr} (live : LiveOp)
    (mem : child ∈ children) : child.nodes < (CExpression.node live children).nodes := by
  rw [CExpression.nodes]
  induction children with
  | nil => cases mem
  | cons head rest ih =>
    rw [CExpression.nodesList]
    rcases List.mem_cons.mp mem with rfl | mem
    · omega
    · have := ih mem
      omega

section Walk
variable {Rule : Type} {available : SRuleEntry Rule → Bool}

namespace Found
variable {α : Type}

@[simp] theorem mem_append_entries {first second : Found Rule} {entry : SRuleEntry Rule} :
    entry ∈ (first.append second).entries ↔ entry ∈ first.entries ∨ entry ∈ second.entries :=
  List.mem_append

@[simp] theorem mem_append_nodes {first second : Found Rule} {node : SNode Rule} :
    node ∈ (first.append second).nodes ↔ node ∈ first.nodes ∨ node ∈ second.nodes :=
  List.mem_append

@[simp] theorem mem_collect_entries {items : List α} {find : α → Found Rule}
    {entry : SRuleEntry Rule} :
    entry ∈ (collect items find).entries ↔ ∃ item ∈ items, entry ∈ (find item).entries :=
  List.mem_flatMap

@[simp] theorem mem_collect_nodes {items : List α} {find : α → Found Rule} {node : SNode Rule} :
    node ∈ (collect items find).nodes ↔ ∃ item ∈ items, node ∈ (find item).nodes :=
  List.mem_flatMap

theorem collect_append (items more : List α) (find : α → Found Rule) :
    collect (items ++ more) find = (collect items find).append (collect more find) := by
  simp [collect, append]

theorem collect_cons (item : α) (items : List α) (find : α → Found Rule) :
    collect (item :: items) find = (find item).append (collect items find) :=
  rfl

end Found

theorem matchBelowLimits_eq : ∀ (expr : Expr) (state : SNode Rule),
    matchBelowLimits available expr state =
      .collect (belowLimits expr) fun view => matchOne available view state
  | .node live (below :: others), state => by
    rw [matchBelowLimits, belowLimits]
    split
    · rw [Found.collect_cons, matchBelowLimits_eq below state]
    · rfl
  | .node _ [], _ => by
    rw [matchBelowLimits, belowLimits]
    rfl

theorem matchBelowGrouping_eq (flags : AdapterFlags) (expr : Expr) (state : SNode Rule) :
    matchBelowGrouping available flags expr state =
      .collect (belowGrouping flags expr) fun view => matchOne available view state := by
  cases expr with
  | node live children =>
    match children with
    | [] => rfl
    | [_] => rfl
    | [below, _] =>
      rw [matchBelowGrouping, belowGrouping]
      split
      · simp [Found.collect]
      · rfl
    | _ :: _ :: _ :: _ => rfl

theorem matchChild_eq (flags : AdapterFlags) (first : Bool) (child : Expr) (state : SNode Rule) :
    (matchOne available child state).append
        ((if first && flags.projectPeelLimit then matchBelowLimits available child state
            else .none).append
          (if first then matchBelowGrouping available flags child state else .none)) =
      .collect (views flags first child) fun view => matchOne available view state := by
  rw [views, Found.collect_cons, Found.collect_append, matchBelowLimits_eq,
    matchBelowGrouping_eq]
  congr 2
  · split <;> rfl
  · split <;> rfl

def advance (available : SRuleEntry Rule → Bool) (flags : AdapterFlags) (first : Bool)
    (child : Expr) (states : List (SNode Rule)) : Found Rule :=
  .collect states fun state =>
    .collect (views flags first child) fun view => matchOne available view state

theorem matchChildren_cons (flags : AdapterFlags) (first : Bool) (count : ℕ) (child : Expr)
    (rest : List Expr) (states : List (SNode Rule)) :
    matchChildren available flags first (count + 1) (child :: rest) states =
      Found.append ⟨(advance available flags first child states).entries, []⟩
        (matchChildren available flags false count rest
          (advance available flags first child states).nodes) := by
  rw [matchChildren]
  simp only [matchChild_eq]
  rfl

end Walk

/-! ### Paths -/

mutual

/-- The path consumes the expression, where `shows` gives the views of a child. -/
inductive Full (shows : AdapterFlags → Bool → Expr → List Expr) : Expr → Edges → Prop
  | wild (expr : Expr) : Full shows expr [.wild]
  | edge {live : LiveOp} {children : List Expr} {edge : SExactEdge} {path : Edges}
      (fits : fEdgeMatches edge live.pop children = true)
      (rest : FullChildren shows edge.adapterFlags true edge.ulChildren children path) :
      Full shows (.node live children) (.key edge :: path)

inductive FullChildren (shows : AdapterFlags → Bool → Expr → List Expr) :
    AdapterFlags → Bool → ℕ → List Expr → Edges → Prop
  | done {flags : AdapterFlags} {first : Bool} {children : List Expr} :
      FullChildren shows flags first 0 children []
  | next {flags : AdapterFlags} {first : Bool} {count : ℕ} {child view : Expr}
      {rest : List Expr} {path more : Edges} (shown : view ∈ shows flags first child)
      (head : Full shows view path) (tail : FullChildren shows flags false count rest more) :
      FullChildren shows flags first (count + 1) (child :: rest) (path ++ more)

end

mutual

inductive Visits : Expr → Edges → Prop
  | wild (expr : Expr) : Visits expr [.wild]
  | here {live : LiveOp} {children : List Expr} {edge : SExactEdge}
      (fits : fEdgeMatches edge live.pop children = true) :
      Visits (.node live children) [.key edge]
  | inside {live : LiveOp} {children : List Expr} {edge : SExactEdge} {path : Edges}
      (fits : fEdgeMatches edge live.pop children = true)
      (rest : VisitsChildren edge.adapterFlags true edge.ulChildren children path) :
      Visits (.node live children) (.key edge :: path)

inductive VisitsChildren : AdapterFlags → Bool → ℕ → List Expr → Edges → Prop
  | child {flags : AdapterFlags} {first : Bool} {count : ℕ} {child view : Expr}
      {rest : List Expr} {path : Edges} (shown : view ∈ views flags first child)
      (head : Visits view path) : VisitsChildren flags first (count + 1) (child :: rest) path
  | later {flags : AdapterFlags} {first : Bool} {count : ℕ} {child view : Expr}
      {rest : List Expr} {path more : Edges} (shown : view ∈ views flags first child)
      (head : Full views view path) (tail : VisitsChildren flags false count rest more) :
      VisitsChildren flags first (count + 1) (child :: rest) (path ++ more)

end

section Isolation
variable {Rule : Type} {available : SRuleEntry Rule → Bool}

theorem mem_matchInput_nodes {node v : SNode Rule} :
    v ∈ (matchInput available node).nodes ↔ node.wild = some v ∧ v.any available = true := by
  rw [matchInput]
  cases edge : node.wild with
  | none => simp [Found.none]
  | some child =>
    by_cases holds : child.any available = true
    · simp only [holds, if_true, List.mem_singleton, Option.some.injEq]
      constructor
      · intro same
        rw [same]
        exact ⟨rfl, holds⟩
      · intro ⟨same, _⟩
        exact same.symm
    · simp only [holds, Option.some.injEq]
      constructor
      · intro mem
        cases mem
      · intro ⟨same, other⟩
        rw [same] at holds
        exact absurd other holds

theorem mem_matchInput_entries {node : SNode Rule} {entry : SRuleEntry Rule} :
    entry ∈ (matchInput available node).entries ↔
      available entry = true ∧ node.EntryAt [.wild] entry := by
  rw [Trie.entryAt_wild, matchInput]
  cases edge : node.wild with
  | none => simp [Found.none]
  | some child =>
    simp only [Option.some.injEq, exists_eq_left', Trie.entryAt_nil]
    by_cases holds : child.any available = true
    · rw [if_pos holds]
      exact List.mem_filter.trans and_comm
    · rw [if_neg holds]
      constructor
      · intro mem
        cases mem
      · intro ⟨ready, listed⟩
        exact absurd (Trie.any_eq_true.mpr (Or.inl ⟨entry, listed, ready⟩)) holds

/-- What the walk of an expression finds from every node, said by paths. -/
structure WalkSpec (available : SRuleEntry Rule → Bool) (expr : Expr) : Prop where
  nodes : ∀ u v : SNode Rule, v ∈ (matchOne available expr u).nodes ↔
    v.any available = true ∧ ∃ path, Trie.Leads u path v ∧ Full views expr path
  entries : ∀ (u : SNode Rule) (entry : SRuleEntry Rule),
    entry ∈ (matchOne available expr u).entries ↔
      available entry = true ∧ ∃ path, u.EntryAt path entry ∧ Visits expr path

theorem mem_advance_nodes {flags : AdapterFlags} {first : Bool} {child : Expr}
    (spec : ∀ view ∈ views flags first child, WalkSpec available view) {states : List (SNode Rule)}
    {v : SNode Rule} :
    v ∈ (advance available flags first child states).nodes ↔ v.any available = true ∧
      ∃ u ∈ states, ∃ view ∈ views flags first child, ∃ path, Trie.Leads u path v ∧
        Full views view path := by
  simp only [advance, Found.mem_collect_nodes]
  constructor
  · intro ⟨u, listed, view, shown, found⟩
    obtain ⟨holds, path, leads, full⟩ := ((spec view shown).nodes u v).mp found
    exact ⟨holds, u, listed, view, shown, path, leads, full⟩
  · intro ⟨holds, u, listed, view, shown, path, leads, full⟩
    exact ⟨u, listed, view, shown, ((spec view shown).nodes u v).mpr ⟨holds, path, leads, full⟩⟩

theorem mem_advance_entries {flags : AdapterFlags} {first : Bool} {child : Expr}
    (spec : ∀ view ∈ views flags first child, WalkSpec available view) {states : List (SNode Rule)}
    {entry : SRuleEntry Rule} :
    entry ∈ (advance available flags first child states).entries ↔ available entry = true ∧
      ∃ u ∈ states, ∃ view ∈ views flags first child, ∃ path, u.EntryAt path entry ∧
        Visits view path := by
  simp only [advance, Found.mem_collect_entries]
  constructor
  · intro ⟨u, listed, view, shown, found⟩
    obtain ⟨ready, path, stored, visits⟩ := ((spec view shown).entries u entry).mp found
    exact ⟨ready, u, listed, view, shown, path, stored, visits⟩
  · intro ⟨ready, u, listed, view, shown, path, stored, visits⟩
    exact ⟨u, listed, view, shown,
      ((spec view shown).entries u entry).mpr ⟨ready, path, stored, visits⟩⟩

theorem matchChildren_zero (flags : AdapterFlags) (first : Bool) (children : List Expr)
    (states : List (SNode Rule)) :
    matchChildren available flags first 0 children states = ⟨[], states⟩ := by
  cases children <;> rw [matchChildren]

theorem mem_matchChildren_nodes {flags : AdapterFlags} {children : List Expr}
    (spec : ∀ child ∈ children, ∀ first, ∀ view ∈ views flags first child, WalkSpec available view)
    {first : Bool} {count : ℕ} {states : List (SNode Rule)}
    (live : ∀ state ∈ states, state.any available = true) {v : SNode Rule} :
    v ∈ (matchChildren available flags first count children states).nodes ↔
      v.any available = true ∧ ∃ u ∈ states, ∃ path, Trie.Leads u path v ∧
        FullChildren views flags first count children path := by
  induction children generalizing first count states with
  | nil =>
    cases count with
    | zero =>
      rw [matchChildren_zero]
      constructor
      · intro mem
        exact ⟨live v mem, v, mem, [], .refl v, .done⟩
      · intro ⟨_, u, mem, path, leads, full⟩
        cases full
        cases leads
        exact mem
    | succ count =>
      rw [matchChildren]
      constructor
      · intro mem
        cases mem
      · intro ⟨_, u, _, path, _, full⟩
        cases full
  | cons child rest ih =>
    cases count with
    | zero =>
      rw [matchChildren_zero]
      constructor
      · intro mem
        exact ⟨live v mem, v, mem, [], .refl v, .done⟩
      · intro ⟨_, u, mem, path, leads, full⟩
        cases full
        cases leads
        exact mem
    | succ count =>
      have here := spec child List.mem_cons_self first
      have reached : ∀ state ∈ (advance available flags first child states).nodes,
          state.any available = true := fun state mem => ((mem_advance_nodes here).mp mem).1
      rw [matchChildren_cons, Found.mem_append_nodes,
        ih (fun other mem => spec other (List.mem_cons_of_mem _ mem)) reached]
      simp only [List.not_mem_nil, false_or]
      constructor
      · rintro ⟨holds, state, mem, more, second, tail⟩
        obtain ⟨_, u, listed, view, shown, path, leads, head⟩ := (mem_advance_nodes here).mp mem
        exact ⟨holds, u, listed, path ++ more, leads.trans second, .next shown head tail⟩
      · rintro ⟨holds, u, listed, path, leads, full⟩
        cases full with
        | next shown head tail =>
          obtain ⟨state, front, back⟩ := leads.split
          exact ⟨holds, state,
            (mem_advance_nodes here).mpr ⟨back.any holds, u, listed, _, shown, _, front, head⟩,
            _, back, tail⟩

theorem mem_matchChildren_entries {flags : AdapterFlags} {children : List Expr}
    (spec : ∀ child ∈ children, ∀ first, ∀ view ∈ views flags first child, WalkSpec available view)
    {first : Bool} {count : ℕ} {states : List (SNode Rule)} {entry : SRuleEntry Rule} :
    entry ∈ (matchChildren available flags first count children states).entries ↔
      available entry = true ∧ ∃ u ∈ states, ∃ path, u.EntryAt path entry ∧
        VisitsChildren flags first count children path := by
  induction children generalizing first count states with
  | nil =>
    constructor
    · intro mem
      cases count <;> simp [matchChildren, Found.none] at mem
    · intro ⟨_, u, _, path, _, visits⟩
      cases visits
  | cons child rest ih =>
    cases count with
    | zero =>
      rw [matchChildren_zero]
      constructor
      · intro mem
        cases mem
      · intro ⟨_, u, _, path, _, visits⟩
        cases visits
    | succ count =>
      have here := spec child List.mem_cons_self first
      rw [matchChildren_cons, Found.mem_append_entries, mem_advance_entries here,
        ih (fun other mem => spec other (List.mem_cons_of_mem _ mem))]
      constructor
      · rintro (⟨ready, u, listed, view, shown, path, stored, visits⟩ |
          ⟨ready, state, mem, more, stored, tail⟩)
        · exact ⟨ready, u, listed, path, stored, .child shown visits⟩
        · obtain ⟨_, u, listed, view, shown, path, leads, head⟩ :=
            (mem_advance_nodes here).mp mem
          exact ⟨ready, u, listed, path ++ more, leads.entryAt stored, .later shown head tail⟩
      · intro ⟨ready, u, listed, path, stored, visits⟩
        cases visits with
        | child shown head => exact Or.inl ⟨ready, u, listed, _, shown, path, stored, head⟩
        | later shown head tail =>
          obtain ⟨state, front, back⟩ := stored.split
          refine Or.inr ⟨ready, state, ?_, _, back, tail⟩
          exact (mem_advance_nodes here).mpr
            ⟨back.any ready, u, listed, _, shown, _, front, head⟩

theorem WalkSpec.node {live : LiveOp} {children : List Expr}
    (spec : ∀ (flags : AdapterFlags), ∀ child ∈ children, ∀ first, ∀ view ∈ views flags first
      child, WalkSpec available view) :
    WalkSpec available (.node live children) where
  nodes u v := by
    rw [matchOne, Found.mem_append_nodes, mem_matchInput_nodes, Found.mem_collect_nodes]
    constructor
    · rintro (⟨wild, holds⟩ | ⟨edge, listed, found⟩)
      · exact ⟨holds, _, .wild wild (.refl v), .wild _⟩
      · split at found
        next taken =>
          simp only [Bool.and_eq_true] at taken
          rw [Found.mem_append_nodes, mem_matchChildren_nodes (spec _)
            (by simpa using taken.2)] at found
          simp only [List.not_mem_nil, false_or, List.mem_singleton, exists_eq_left] at found
          obtain ⟨holds, path, leads, full⟩ := found
          exact ⟨holds, _, .key listed leads, .edge taken.1 full⟩
        next => cases found
    · rintro ⟨holds, path, leads, full⟩
      cases full with
      | wild =>
        cases leads with
        | wild wild rest =>
          cases rest
          exact Or.inl ⟨wild, holds⟩
      | edge fits rest =>
        cases leads with
        | key listed leads =>
          refine Or.inr ⟨_, listed, ?_⟩
          have below := leads.any holds
          rw [if_pos (by rw [fits, below]; rfl), Found.mem_append_nodes,
            mem_matchChildren_nodes (spec _) (by simpa using below)]
          exact Or.inr ⟨holds, _, List.mem_singleton_self _, _, leads, rest⟩
  entries u entry := by
    rw [matchOne, Found.mem_append_entries, mem_matchInput_entries, Found.mem_collect_entries]
    constructor
    · rintro (⟨ready, stored⟩ | ⟨edge, listed, found⟩)
      · exact ⟨ready, _, stored, .wild _⟩
      · split at found
        next taken =>
          simp only [Bool.and_eq_true] at taken
          rw [Found.mem_append_entries, mem_matchChildren_entries (spec _)] at found
          rcases found with met | ⟨ready, u', same, path, stored, visits⟩
          · obtain ⟨stored, ready⟩ := List.mem_filter.mp met
            exact ⟨ready, [.key edge.1],
              Trie.entryAt_key.mpr ⟨_, listed, Trie.entryAt_nil.mpr stored⟩, .here taken.1⟩
          · cases List.mem_singleton.mp same
            exact ⟨ready, _, Trie.entryAt_key.mpr ⟨_, listed, stored⟩, .inside taken.1 visits⟩
        next => cases found
    · rintro ⟨ready, path, stored, visits⟩
      cases visits with
      | wild => exact Or.inl ⟨ready, stored⟩
      | here fits =>
        obtain ⟨child, listed, stored⟩ := Trie.entryAt_key.mp stored
        refine Or.inr ⟨_, listed, ?_⟩
        rw [if_pos (by rw [fits, stored.any ready]; rfl), Found.mem_append_entries]
        exact Or.inl (List.mem_filter.mpr ⟨Trie.entryAt_nil.mp stored, ready⟩)
      | inside fits rest =>
        obtain ⟨child, listed, stored⟩ := Trie.entryAt_key.mp stored
        refine Or.inr ⟨_, listed, ?_⟩
        rw [if_pos (by rw [fits, stored.any ready]; rfl), Found.mem_append_entries,
          mem_matchChildren_entries (spec _)]
        exact Or.inr ⟨ready, child, List.mem_singleton_self _, _, stored, rest⟩

/-- The walk of every expression, by induction on the number of its nodes: the views of a
    child are not larger than the child. -/
theorem walkSpec (available : SRuleEntry Rule → Bool) (expr : Expr) : WalkSpec available expr := by
  induction size : expr.nodes using Nat.strong_induction_on generalizing expr with
  | _ size ih =>
    subst size
    cases expr with
    | node live children =>
      apply WalkSpec.node
      intro flags child mem first view shown
      have smaller : view.nodes < (CExpression.node live children).nodes :=
        lt_of_le_of_lt (nodes_of_mem_views shown) (nodes_lt_of_mem live mem)
      exact ih view.nodes smaller view rfl

end Isolation

/-! ### Candidates -/

section Sorted
variable {Rule : Type} [DecidableEq Rule]

theorem mem_dropRepeated {previous : Option Rule} {rules : List Rule} {r : Rule}
    (other : some r ≠ previous) : r ∈ dropRepeated previous rules ↔ r ∈ rules := by
  induction rules generalizing previous with
  | nil => rfl
  | cons rule rest ih =>
    rw [dropRepeated]
    split
    next same =>
      have different : r ≠ rule := fun h => other (h ▸ same)
      rw [ih other, List.mem_cons, or_iff_right different]
    next =>
      rw [List.mem_cons, List.mem_cons]
      by_cases same : r = rule
      · simp [same]
      · rw [ih (fun h => same (Option.some.inj h))]

theorem mem_of_mem_dropRepeated {previous : Option Rule} {rules : List Rule} {r : Rule}
    (mem : r ∈ dropRepeated previous rules) : r ∈ rules := by
  induction rules generalizing previous with
  | nil => cases mem
  | cons rule rest ih =>
    rw [dropRepeated] at mem
    split at mem
    · exact List.mem_cons_of_mem _ (ih mem)
    · rcases List.mem_cons.mp mem with same | mem
      · exact same ▸ List.mem_cons_self
      · exact List.mem_cons_of_mem _ (ih mem)

theorem lt_of_mem_dropRepeated [PartialOrder Rule] {rule r : Rule} {rest : List Rule}
    (sorted : (rule :: rest).Pairwise (· ≤ ·)) (mem : r ∈ dropRepeated (some rule) rest) :
    rule < r := by
  induction rest with
  | nil => cases mem
  | cons next rest ih =>
    obtain ⟨least, tail⟩ := List.pairwise_cons.mp sorted
    rw [dropRepeated] at mem
    split at mem
    next =>
      apply ih _ mem
      exact sorted.sublist (.cons_cons _ (List.sublist_cons_self _ _))
    next different =>
      have bound : rule < next := by
        apply lt_of_le_of_ne (least next List.mem_cons_self)
        intro same
        exact different (congrArg some same.symm)
      rcases List.mem_cons.mp mem with same | mem
      · exact same ▸ bound
      · have later := mem_of_mem_dropRepeated mem
        exact lt_of_lt_of_le bound ((List.pairwise_cons.mp tail).1 r later)

theorem pairwise_dropRepeated [PartialOrder Rule] {rules : List Rule}
    (sorted : rules.Pairwise (· ≤ ·)) (previous : Option Rule) :
    (dropRepeated previous rules).Pairwise (· < ·) := by
  induction rules generalizing previous with
  | nil => exact List.Pairwise.nil
  | cons rule rest ih =>
    have tail := (List.pairwise_cons.mp sorted).2
    rw [dropRepeated]
    split
    · exact ih tail previous
    · apply List.pairwise_cons.mpr
      exact ⟨fun r mem => lt_of_mem_dropRepeated sorted mem, ih tail _⟩

end Sorted

section Library
variable (library : List CDSLRule)

/-- A rule is known by its position in the library, which is its ordinal as well. -/
def ruleEntry (rule : Fin library.length) : SRuleEntry (Fin library.length) := ⟨rule, rule⟩

def bucketIndex (bucket : EOperatorId) (rules : List (Fin library.length)) :
    CDSLRulePrefixIndex (Fin library.length) :=
  buildIndex library.get bucket (rules.map (ruleEntry library))

/-- What decides about one rule alone: it is available, and its own path is visited. -/
def Selects (available : SRuleEntry (Fin library.length) → Bool) (bucket : EOperatorId)
    (expr : Expr) (rule : Fin library.length) : Prop :=
  available (ruleEntry library rule) = true ∧
    (terminalPath bucket (library.get rule) = [] ∨
      Visits expr (terminalPath bucket (library.get rule)))

variable {library} {available : SRuleEntry (Fin library.length) → Bool} {bucket : EOperatorId}
  {rules : List (Fin library.length)} {expr : Expr}

theorem entryAt_bucketIndex {path : Edges} {entry : SRuleEntry (Fin library.length)} :
    (bucketIndex library bucket rules).root.EntryAt path entry ↔
      ∃ rule ∈ rules, entry = ruleEntry library rule ∧
        path = terminalPath bucket (library.get rule) := by
  rw [bucketIndex, entryAt_buildIndex, List.mem_map]
  constructor
  · intro ⟨⟨rule, listed, same⟩, place⟩
    subst same
    exact ⟨rule, listed, rfl, place⟩
  · intro ⟨rule, listed, same, place⟩
    subst same
    exact ⟨⟨rule, listed, rfl⟩, place⟩

theorem mem_found_iff {entry : SRuleEntry (Fin library.length)} :
    entry ∈ availableEntries available (bucketIndex library bucket rules).root ++
        (matchOne available expr (bucketIndex library bucket rules).root).entries ↔
      ∃ rule ∈ rules, entry = ruleEntry library rule ∧
        Selects library available bucket expr rule := by
  rw [List.mem_append, (walkSpec available expr).entries, availableEntries, List.mem_filter,
    ← Trie.entryAt_nil]
  simp only [entryAt_bucketIndex]
  constructor
  · rintro (⟨⟨rule, listed, same, place⟩, ready⟩ |
      ⟨ready, path, ⟨rule, listed, same, place⟩, visits⟩)
    · subst same
      exact ⟨rule, listed, rfl, ready, Or.inl place.symm⟩
    · subst same place
      exact ⟨rule, listed, rfl, ready, Or.inr visits⟩
  · rintro ⟨rule, listed, same, ready, place | visits⟩
    · subst same
      exact Or.inl ⟨⟨rule, listed, rfl, place.symm⟩, ready⟩
    · subst same
      exact Or.inr ⟨ready, _, ⟨rule, listed, rfl, rfl⟩, visits⟩

theorem mem_candidates_iff {rule : Fin library.length} :
    rule ∈ pdrgpruleCandidates available (bucketIndex library bucket rules) expr ↔
      rule ∈ rules ∧ Selects library available bucket expr rule := by
  rw [pdrgpruleCandidates, mem_dropRepeated (by simp), List.mem_map]
  simp only [List.mem_insertionSort, mem_found_iff]
  constructor
  · rintro ⟨_, ⟨rule', listed, rfl, selects⟩, rfl⟩
    exact ⟨listed, selects⟩
  · intro ⟨listed, selects⟩
    exact ⟨ruleEntry library rule, ⟨rule, listed, rfl, selects⟩, rfl⟩

theorem candidates_increasing :
    (pdrgpruleCandidates available (bucketIndex library bucket rules) expr).Pairwise
      (· < ·) := by
  apply pairwise_dropRepeated
  rw [List.pairwise_map]
  apply List.Pairwise.imp_of_mem _ (List.pairwise_insertionSort _ _)
  intro left right first second ordered
  -- every entry found was made from a rule, and carries its position
  obtain ⟨_, _, rfl, _⟩ := mem_found_iff.mp (List.mem_insertionSort _ |>.mp first)
  obtain ⟨_, _, rfl, _⟩ := mem_found_iff.mp (List.mem_insertionSort _ |>.mp second)
  exact ordered

/-- The candidates of a shared index are free of duplicates, sorted by ordinal and the union of
    those of the indexes of its single rules; further rules change nothing for those before. -/
theorem candidates_isolated (library : List CDSLRule)
    (available : SRuleEntry (Fin library.length) → Bool) (bucket : EOperatorId)
    (rules : List (Fin library.length)) (expr : Expr) :
    let candidates := fun inserted =>
      pdrgpruleCandidates available (bucketIndex library bucket inserted) expr
    (candidates rules).Nodup ∧ (candidates rules).Pairwise (fun left right =>
        (ruleEntry library left).ordinal < (ruleEntry library right).ordinal) ∧
      (∀ rule, rule ∈ candidates rules ↔ ∃ single ∈ rules, rule ∈ candidates [single]) ∧
      ∀ more, (candidates (rules ++ more)).filter (fun rule => rule ∈ rules) =
        candidates rules := by
  intro candidates
  have sorted : (candidates rules).Pairwise (· < ·) := candidates_increasing
  refine ⟨sorted.imp ne_of_lt, sorted, ?_, ?_⟩
  · intro rule
    simp only [candidates, mem_candidates_iff, List.mem_singleton]
    constructor
    · rintro ⟨listed, selects⟩
      exact ⟨rule, listed, rfl, selects⟩
    · rintro ⟨single, listed, rfl, selects⟩
      exact ⟨listed, selects⟩
  · intro more
    have larger : (candidates (rules ++ more)).Pairwise (· < ·) := candidates_increasing
    apply (larger.filter _).eq_of_mem_iff sorted
    intro rule
    simp only [candidates, List.mem_filter, mem_candidates_iff, List.mem_append,
      decide_eq_true_eq]
    constructor
    · rintro ⟨⟨_, selects⟩, listed⟩
      exact ⟨listed, selects⟩
    · rintro ⟨listed, selects⟩
      exact ⟨⟨Or.inl listed, selects⟩, listed⟩

end Library

end RuleIndex
