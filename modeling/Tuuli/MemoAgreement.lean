import Tuuli.MemoReadings

/-!
When the walk of the Memo agrees with that of an expression. An emitted expression is
found again by the other walk if the Memo does not have the operators on which the
first walk strays: one that an exact edge matches behind a sibling consumed at a node
where a rule ends, or one below an aggregate or projection that stands below a
`Limit`.
-/
namespace RuleIndex
open WildcardTrie RewriteProgram

/-! ### Flags that let both kinds of wrappers through -/

def AdapterFlags.peelsBoth (flags : AdapterFlags) : Bool :=
  flags.projectPeelLimit && (flags.projectPeelAgg || flags.gbAggPeelProject)

theorem GroupingOver.peels {flags : AdapterFlags} {group below : CGroup}
    (wraps : GroupingOver flags group below) :
    (flags.projectPeelAgg || flags.gbAggPeelProject) = true := by
  obtain ⟨-, pop, -, -, -, peels⟩ := wraps
  simp only [Bool.or_eq_true, Bool.and_eq_true] at peels ⊢
  exact peels.imp And.left And.left

theorem PeeledAlong.peels_grouping {twice : Bool} {flags : AdapterFlags} {wrappers : Wrappers}
    {group : CGroup} {path : Edges} (along : PeeledAlong twice flags wrappers group path)
    (isGrouping : wrappers = .grouping) :
    (flags.projectPeelAgg || flags.gbAggPeelProject) = true := by
  cases along with
  | limit => cases isGrouping
  | @limits _ _ inner => cases inner <;> cases isGrouping
  | grouping wraps _ => exact wraps.peels

theorem PeeledAlong.underLimit_ne_both {twice : Bool} {flags : AdapterFlags} {wrappers : Wrappers}
    {group below : CGroup} {path : Edges} (wraps : LimitOver flags group below)
    (along : PeeledAlong twice flags wrappers below path) (flag : flags.peelsBoth = false)
    (inner : wrappers ≠ .both) : wrappers.underLimit ≠ .both := by
  intro isBoth
  cases wrappers with
  | limits => cases isBoth
  | grouping =>
    rw [AdapterFlags.peelsBoth, wraps.1, along.peels_grouping rfl] at flag
    cases flag
  | both => exact inner rfl

mutual

theorem GExprAlong.once {twice : Bool} : ∀ {gexpr : CGroupExpression} {path : Edges},
    GExprAlong twice gexpr path →
    (∀ edge, .key edge ∈ path → edge.adapterFlags.peelsBoth = false) → twice = false
  | _, _, .edge _ _ below, single =>
    below.once (single _ List.mem_cons_self) fun edge mem => single edge (List.mem_cons_of_mem _ mem)

theorem GroupAlong.once {twice : Bool} : ∀ {group : CGroup} {path : Edges},
    GroupAlong twice group path →
    (∀ edge, .key edge ∈ path → edge.adapterFlags.peelsBoth = false) → twice = false
  | _, _, .wild _, _ => rfl
  | _, _, .alternative _ along, single => along.once single

theorem ChildrenAlong.once : ∀ {twice : Bool} {flags : AdapterFlags} {first : Bool} {count : ℕ}
    {groups : List CGroup} {path : Edges}, ChildrenAlong twice flags first count groups path →
    flags.peelsBoth = false →
    (∀ edge, .key edge ∈ path → edge.adapterFlags.peelsBoth = false) → twice = false
  | _, _, _, _, _, _, .done, _, _ => rfl
  | _, _, _, _, _, _, .plain head tail, flag, single => by
    rw [head.once fun edge mem => single edge (List.mem_append_left _ mem),
      tail.once flag fun edge mem => single edge (List.mem_append_right _ mem)]
    rfl
  | _, _, _, _, _, _, .peeled head tail, flag, single => by
    obtain ⟨here, apart⟩ := head.once flag fun edge mem => single edge (List.mem_append_left _ mem)
    rw [here, tail.once flag fun edge mem => single edge (List.mem_append_right _ mem),
      decide_eq_false apart]
    rfl

theorem PeeledAlong.once : ∀ {twice : Bool} {flags : AdapterFlags} {wrappers : Wrappers}
    {group : CGroup} {path : Edges}, PeeledAlong twice flags wrappers group path →
    flags.peelsBoth = false →
    (∀ edge, .key edge ∈ path → edge.adapterFlags.peelsBoth = false) →
      twice = false ∧ wrappers ≠ .both
  | _, _, _, _, _, .limit _ along, _, single => ⟨along.once single, nofun⟩
  | _, _, _, _, _, .grouping _ along, _, single => ⟨along.once single, nofun⟩
  | _, _, _, _, _, .limits wraps along, flag, single =>
    ⟨(along.once flag single).1, along.underLimit_ne_both wraps flag (along.once flag single).2⟩

end

/-! ### Memos on which the walks agree -/

section Library
variable (library : List CDSLRule) (available : SRuleEntry (Fin library.length) → Bool)
  (bucket : EOperatorId) (rules : List (Fin library.length))

def StoredAt (path : Edges) : Prop :=
  ∃ rule ∈ rules, available (ruleEntry library rule) = true ∧
    path = terminalPath bucket (library.get rule)

/-- An expression emitted for a node has the rules of that node as candidates. -/
def WalksAgree (hasSubquery : Bool) (gexpr : CGroupExpression) : Prop :=
  ∀ state ∈ emissions available (bucketIndex library bucket rules) hasSubquery gexpr,
  ∀ entry ∈ availableEntries available state.node,
    entry.rule ∈ pdrgpruleCandidates available (bucketIndex library bucket rules) state.expr

structure KeepsToPaths (stored : Edges → Prop) (gexpr : CGroupExpression) : Prop where
  /-- If a rule ends inside another's path, the next exact edge of that path matches no operator
      at a later child than the one where the path has it. -/
  boundary : ∀ (front rest tail : Edges) (edge : SExactEdge) (wilds later : ℕ) (twice : Bool),
    front ≠ [] → stored front → stored (front ++ (List.replicate wilds .wild ++ .key edge :: rest)) →
    wilds < later →
    ¬ GExprAlong twice gexpr (front ++ (List.replicate later .wild ++ .key edge :: tail))
  /-- No exact edge of a path matches an operator that stands below an aggregate or projection
      that stands below a `Limit`. -/
  wrappers : ∀ (path : Edges) (more : ℕ), stored path →
    ¬ GExprAlong true gexpr (path ++ List.replicate more .wild)

variable {library available bucket rules} {path padded : Edges} {v : SNode (Fin library.length)}
  {gexpr : CGroupExpression} {expr : Expr}

theorem storedAt_of_terminal (leads : Trie.Leads (bucketIndex library bucket rules).root path v)
    (terminal : fNodeHasAvailableTerminal available v = true) :
    StoredAt library available bucket rules path := by
  obtain ⟨entry, listed, ready⟩ := List.any_eq_true.mp terminal
  obtain ⟨rule, mem, same, place⟩ := entryAt_bucketIndex.mp ⟨v, leads, listed⟩
  subst same
  exact ⟨rule, mem, ready, place⟩

variable (keeps : KeepsToPaths (StoredAt library available bucket rules) gexpr)

include keeps

theorem KeepsToPaths.padded_eq {twice : Bool}
    (pads : Pads available (bucketIndex library bucket rules).root path padded v)
    (terminal : fNodeHasAvailableTerminal available v = true)
    (along : GExprAlong twice gexpr padded) :
    ∃ more, padded = path ++ List.replicate more .wild := by
  rcases pads.first_stay with rfl | ⟨front, back, backPadded, w, rfl, rfl, leads, stays, later⟩
  · exact ⟨0, (List.append_nil _).symm⟩
  have nonempty : front ≠ [] := by
    rintro rfl
    cases along
  have wilds : ∀ label ∈ back, label = .wild := by
    intro label mem
    cases label with
    | wild => rfl
    | key edge =>
      obtain ⟨wilds, more, next, rest, tail, rfl, rfl, le⟩ := later.first_key mem
      exact absurd along (keeps.boundary front rest tail next wilds (more + 1) twice nonempty
        (storedAt_of_terminal leads stays) (storedAt_of_terminal pads.leads terminal)
        (Nat.lt_succ_of_le le))
  obtain ⟨same, samePadded, le⟩ := later.front_of_wild wilds
  refine ⟨backPadded.length + 1 - back.length, ?_⟩
  rw [List.append_assoc, same, samePadded, ← List.replicate_succ,
    List.replicate_append_replicate]
  simp only [List.length_replicate]
  congr 2
  omega

theorem KeepsToPaths.visits {twice : Bool}
    (pads : Pads available (bucketIndex library bucket rules).root path padded v)
    (terminal : fNodeHasAvailableTerminal available v = true)
    (along : GExprAlong twice gexpr padded) (full : twice = false → Full views expr padded)
    (nonempty : path ≠ []) : Visits expr path := by
  obtain ⟨more, rfl⟩ := keeps.padded_eq pads terminal along
  have once : twice = false := by
    by_contra isTwice
    rw [Bool.eq_true_of_not_eq_false isTwice] at along
    exact keeps.wrappers path more (storedAt_of_terminal pads.leads terminal) along
  exact (full once).visits_front rfl nonempty

omit keeps in
/-- The walks agree on every Memo that keeps to the paths of the rules. -/
theorem walks_agree (library : List CDSLRule) (available : SRuleEntry (Fin library.length) → Bool)
    (bucket : EOperatorId) (rules : List (Fin library.length)) (hasSubquery : Bool)
    (gexpr : CGroupExpression)
    (keeps : KeepsToPaths (StoredAt library available bucket rules) gexpr) :
    WalksAgree library available bucket rules hasSubquery gexpr := by
  intro state emitted entry listed
  obtain ⟨stored, ready⟩ := List.mem_filter.mp listed
  rw [mem_candidates_iff]
  rcases List.mem_append.mp emitted with witness | found
  · split at witness
    · cases List.mem_singleton.mp witness
      obtain ⟨rule, mem, same, place⟩ := entryAt_bucketIndex.mp (Trie.entryAt_nil.mpr stored)
      subst same
      exact ⟨mem, ready, Or.inl place.symm⟩
    · cases witness
  · obtain ⟨reached, terminal⟩ := List.mem_filter.mp found
    obtain ⟨_, twice, edge, child, path, padded, first, pads, along, full⟩ :=
      reads_of_consumeGExpr _ hasSubquery gexpr reached
    have whole := Pads.key first pads
    obtain ⟨rule, mem, same, place⟩ := entryAt_bucketIndex.mp ⟨_, whole.leads, stored⟩
    subst same
    have visits := keeps.visits whole terminal along full (List.cons_ne_nil _ _)
    rw [place] at visits
    exact ⟨mem, ready, Or.inr visits⟩

end Library

/-! ### A projection over a join -/

def projectedJoin : CDSLRule where
  popRoot := .op .proj false 2 [.op .innerJoin false 2 [.op .input false 1 [],
    .op .input false 1 []]]
  fHasBindings := false
  fHasMatchBindings := false

def tableGroup (payload : ℕ) : CGroup :=
  .group false false (.gexpr ⟨.other 0, .global, payload⟩ false []) []

def scalarGroup : CGroup :=
  .group true false (.gexpr ⟨.other 1, .global, 0⟩ false []) []

def joinGroup : CGroup :=
  .group false false (.gexpr ⟨.other 0, .global, 1⟩ false [])
    [.gexpr ⟨.logicalInnerJoin, .global, 0⟩ false [tableGroup 2, tableGroup 3, scalarGroup]]

def projectOverJoin : CGroupExpression :=
  .gexpr ⟨.logicalProject, .global, 0⟩ false [joinGroup, scalarGroup]

def liveNode (eopid : EOperatorId) (payload : ℕ) (children : List Expr) : Expr :=
  .node ⟨⟨eopid, .global, payload⟩, false⟩ children

def tablesJoin : Expr :=
  liveNode .logicalInnerJoin 0
    [liveNode (.other 0) 2 [], liveNode (.other 0) 3 [], liveNode (.other 1) 0 []]

theorem storedAt_projectedJoin {path : Edges}
    (stored : StoredAt [projectedJoin] (fun _ => true) .logicalProject [0] path) :
    path = terminalPath .logicalProject projectedJoin := by
  obtain ⟨rule, only, -, rfl⟩ := stored
  rw [List.mem_singleton.mp only]
  rfl

theorem joinGroup_unwrapped {twice : Bool} {flags : AdapterFlags} {wrappers : Wrappers}
    {path : Edges} (along : PeeledAlong twice flags wrappers joinGroup path) : False := by
  have names : ∀ gexpr, joinGroup.Lists gexpr →
      gexpr.pop.eopid = .other 0 ∨ gexpr.pop.eopid = .logicalInnerJoin := by
    rintro gexpr (rfl | ⟨-, listed⟩)
    · exact .inl rfl
    · rw [List.mem_singleton.mp listed]
      exact .inr rfl
  cases along with
  | limit wraps =>
    obtain ⟨-, -, pop, _, _, listed, isLimit, -⟩ := wraps
    simpa [CGroupExpression.pop, isLimit] using names _ listed
  | limits wraps =>
    obtain ⟨-, -, pop, _, _, listed, isLimit, -⟩ := wraps
    simpa [CGroupExpression.pop, isLimit] using names _ listed
  | grouping wraps =>
    obtain ⟨-, pop, _, _, listed, peels⟩ := wraps
    rcases names _ listed with isTable | isJoin
    · simp [CGroupExpression.pop] at isTable
      simp [isTable] at peels
    · simp [CGroupExpression.pop] at isJoin
      simp [isJoin] at peels

theorem projectOverJoin_once {edge next : SExactEdge} {rest : Edges} (one : edge.ulChildren = 1)
    (single : ∀ other, .key other ∈ .key next :: rest → other.adapterFlags.peelsBoth = false) :
    ¬ GExprAlong true projectOverJoin (.key edge :: .key next :: rest) := by
  intro along
  generalize isTrue : true = twice at along
  generalize isPath : .key next :: rest = path at along single
  cases along with
  | edge _ _ below =>
    rw [one] at below
    cases below with
    | plain head tail =>
      cases tail
      rw [head.once fun other mem => single other (List.mem_append_left _ mem)] at isTrue
      cases isTrue
    | peeled head => exact joinGroup_unwrapped head

theorem projectOverJoin_agrees :
    liveNode .logicalProject 0 [tablesJoin, liveNode (.other 1) 0 []] ∈
      pdrgpexprBindings (fun _ => true) (bucketIndex [projectedJoin] .logicalProject [0]) false
        projectOverJoin ∧
    WalksAgree [projectedJoin] (fun _ => true) .logicalProject [0] false projectOverJoin := by
  refine ⟨List.mem_cons_of_mem _ (List.mem_singleton_self _), walks_agree _ _ _ _ _ _ ⟨?_, ?_⟩⟩
  · intro front rest tail edge wilds later twice _ stored longer
    rw [storedAt_projectedJoin stored] at longer
    have same := congrArg List.length (storedAt_projectedJoin longer)
    simp at same
  · intro path more stored along
    rw [storedAt_projectedJoin stored] at along
    obtain ⟨edge, next, isPath, one, flags⟩ : ∃ edge next,
        terminalPath .logicalProject projectedJoin = [.key edge, .key next, .wild, .wild] ∧
          edge.ulChildren = 1 ∧ next.adapterFlags.peelsBoth = false :=
      ⟨_, _, rfl, rfl, rfl⟩
    rw [isPath] at along
    refine projectOverJoin_once one (fun other mem => ?_) along
    have isNext : other = next := by simpa using mem
    rw [isNext]
    exact flags

/-! ### A disagreement -/

def aggGroup : CGroup :=
  .group false false (.gexpr ⟨.logicalGbAgg, .global, 0⟩ false [joinGroup, scalarGroup]) []

def limitGroup : CGroup :=
  .group false false
    (.gexpr ⟨.logicalLimit, .global, 0⟩ false [aggGroup, scalarGroup, scalarGroup]) []

def projectOverLimit : CGroupExpression :=
  .gexpr ⟨.logicalProject, .global, 0⟩ false [limitGroup, scalarGroup]

def projectedLimitedJoin : Expr :=
  liveNode .logicalProject 0
    [liveNode .logicalLimit 0
      [liveNode .logicalGbAgg 0
        [tablesJoin, liveNode (.other 1) 0 []],
        liveNode (.other 1) 0 [], liveNode (.other 1) 0 []],
      liveNode (.other 1) 0 []]

/-- The Memo walk emits the expression for the node of the rule, which is not among the
    candidates of the expression. -/
theorem projectedLimitedJoin_without_candidate :
    let index := bucketIndex [projectedJoin] .logicalProject [0]
    (∃ state ∈ emissions (fun _ => true) index false projectOverLimit,
        state.expr = projectedLimitedJoin ∧
          ruleEntry [projectedJoin] 0 ∈ availableEntries (fun _ => true) state.node) ∧
      projectedLimitedJoin ∈ pdrgpexprBindings (fun _ => true) index false projectOverLimit ∧
      pdrgpruleCandidates (fun _ => true) index projectedLimitedJoin = [] := by
  refine ⟨⟨_, List.mem_cons_of_mem _ (List.mem_singleton_self _), rfl, List.mem_singleton_self _⟩,
    List.mem_cons_of_mem _ (List.mem_singleton_self _), rfl⟩

/-- `InnerJoin(Agg(..), Input)`, with further joins to the left; an aggregate ends the path. -/
def aggregatedJoin : ℕ → CDSLOp
  | 0 => .op .agg false 5 [.op .input false 1 []]
  | depth + 1 => .op .innerJoin false 2 [aggregatedJoin depth, .op .input false 1 []]

-- the state that stays at the node of the first rule goes on with the second child
example :
    let library : List CDSLRule :=
      [⟨aggregatedJoin 1, false, false⟩, ⟨aggregatedJoin 2, false, false⟩]
    let index := bucketIndex library .logicalInnerJoin [0, 1]
    let joined := liveNode .logicalInnerJoin 0
      [liveNode (.other 0) 4 [], tablesJoin, liveNode (.other 1) 0 []]
    ((emissions (fun _ => true) index false (.gexpr ⟨.logicalInnerJoin, .global, 0⟩ false
        [tableGroup 4, joinGroup, scalarGroup])).map fun state =>
      (state.expr, availableEntries (fun _ => true) state.node))[3]? =
        some (joined, [ruleEntry library 1]) ∧
    pdrgpruleCandidates (fun _ => true) index joined = [0] :=
  ⟨rfl, rfl⟩

end RuleIndex
