import Mathlib.Data.List.Sort

/-!
`CDSLPolicySnapshot`: the schedule compiled from a policy document for the
loaded rules. A rule is taken from its explicit entry, else from the `*`
entry, else from the defaults; only explicit entries are resolved further.
-/
namespace RulePolicy

inductive EDslRulePlacement where
  | rbo
  | cbo
  | auto
  | rejected
  deriving DecidableEq, Repr

inductive EDslRulePhase where
  | normalize
  | preJoin
  | cleanup
  | explore
  deriving DecidableEq, Repr

inductive EDslRuleEffect where
  | changesJoinGraph
  | preservesJoinGraph
  | joinReordering
  deriving DecidableEq, Repr

inductive EDslRuleOrder where
  | topDown
  | bottomUp
  deriving DecidableEq, Repr

inductive EntryIdentity where
  | wildcard
  | canonical : String → EntryIdentity
  deriving DecidableEq, Repr

structure SDSLRulePolicy where
  ruleIdentity : EntryIdentity
  enabled : Bool
  placement : EDslRulePlacement
  phase : EDslRulePhase
  effect : EDslRuleEffect
  priority : Int
  order : EDslRuleOrder
  fixpoint : Bool
  budgetPerNode : ℕ
  budgetPerRule : ℕ
  budgetPerQuery : ℕ
  deriving DecidableEq, Repr

def defaultPolicy (identity : String) : SDSLRulePolicy :=
  ⟨.canonical identity, true, .cbo, .explore, .preservesJoinGraph, 0, .bottomUp, false, 0, 0, 0⟩

/-- The checks of the document loader on a finished entry; `phaseGiven` says that the entry
has a `phase` field. -/
def entryError (entry : SDSLRulePolicy) (phaseGiven : Bool) : Option String :=
  if entry.enabled ∧ entry.placement = .rbo ∧ (¬ phaseGiven ∨ entry.phase = .explore) then
    some "an RBO rule requires normalize, pre_join, or cleanup phase\n"
  else if entry.enabled ∧ entry.placement = .cbo ∧ entry.phase ≠ .explore then
    some "a CBO rule must use the explore phase\n"
  else none

def resolveAuto (entry : SDSLRulePolicy) : SDSLRulePolicy :=
  if entry.placement = .auto then
    match entry.effect with
    | .changesJoinGraph =>
      { entry with
        placement := .rbo
        phase := if entry.phase = .explore then .preJoin else entry.phase }
    | .preservesJoinGraph => { entry with placement := .cbo, phase := .explore }
    | .joinReordering => { entry with placement := .rejected }
  else entry

def resolveConfigured (entry : SDSLRulePolicy) : SDSLRulePolicy :=
  let resolved := resolveAuto entry
  if resolved.effect = .joinReordering then { resolved with placement := .rejected }
  else resolved

def defaultEntry (entries : List SDSLRulePolicy) : Option SDSLRulePolicy :=
  (entries.filter (fun entry => entry.ruleIdentity = .wildcard)).getLast?

def configuredEntry (entries : List SDSLRulePolicy) (identity : String) : Option SDSLRulePolicy :=
  entries.find? (fun entry => entry.ruleIdentity = .canonical identity)

def resolveRule (entries : List SDSLRulePolicy) (identity : String) : SDSLRulePolicy :=
  match configuredEntry entries identity with
  | some entry => resolveConfigured entry
  | none =>
    match defaultEntry entries with
    | some entry => { entry with ruleIdentity := .canonical identity }
    | none => defaultPolicy identity

inductive Stage where
  | cbo
  | rbo : EDslRulePhase → Stage
  deriving DecidableEq, Repr

def stageOf (policy : SDSLRulePolicy) : Option Stage :=
  if ¬ policy.enabled then none
  else if policy.placement = .cbo then some .cbo
  else if policy.placement = .rbo ∧ policy.phase ≠ .explore then some (.rbo policy.phase)
  else none

section Resolution
variable {Rule : Type} (szIdentity : Rule → String)

def wildcardPolicy (fields : SDSLRulePolicy) : List SDSLRulePolicy :=
  [{ fields with ruleIdentity := .wildcard }]

def explicitPolicy (fields : SDSLRulePolicy) (rules : List Rule) : List SDSLRulePolicy :=
  rules.map (fun rule => { fields with ruleIdentity := .canonical (szIdentity rule) })

/-- Fields that do not depend on the resolution of explicit entries: a disabled entry, or one
without automatic placement and without a stage that join reordering would take from it. -/
def ResolutionFree (fields : SDSLRulePolicy) : Prop :=
  fields.enabled = true →
    (fields.placement = .auto → fields.effect = .joinReordering) ∧
      (fields.effect = .joinReordering →
        fields.placement ≠ .cbo ∧ (fields.placement = .rbo → fields.phase = .explore))

variable {rules : List Rule} {rule : Rule} (fields : SDSLRulePolicy)

include fields

theorem stageOf_resolveConfigured_iff :
    stageOf fields = stageOf (resolveConfigured fields) ↔ ResolutionFree fields := by
  obtain ⟨identity, enabled, placement, phase, effect, priority, order, fixpoint, n, r, q⟩ := fields
  cases enabled
  · cases placement <;> cases effect <;>
      simp [stageOf, resolveConfigured, resolveAuto, ResolutionFree]
  · cases placement <;> cases phase <;> cases effect <;>
      simp [stageOf, resolveConfigured, resolveAuto, ResolutionFree]

theorem resolveConfigured_identity (identity : EntryIdentity) :
    resolveConfigured { fields with ruleIdentity := identity }
      = { resolveConfigured fields with ruleIdentity := identity } := by
  obtain ⟨old, enabled, placement, phase, effect, priority, order, fixpoint, n, r, q⟩ := fields
  cases placement <;> cases effect <;> rfl

theorem resolveRule_wildcard (identity : String) :
    resolveRule (wildcardPolicy fields) identity
      = { fields with ruleIdentity := .canonical identity } := by
  simp [resolveRule, wildcardPolicy, configuredEntry, defaultEntry]

theorem configuredEntry_explicit (member : rule ∈ rules) :
    configuredEntry (explicitPolicy szIdentity fields rules) (szIdentity rule)
      = some { fields with ruleIdentity := .canonical (szIdentity rule) } := by
  induction rules with
  | nil => simp at member
  | cons first rest ih =>
    simp only [configuredEntry, explicitPolicy, List.map_cons, List.find?_cons] at ih ⊢
    by_cases same : szIdentity first = szIdentity rule
    · simp [same]
    · have later : rule ∈ rest := by
        rcases List.mem_cons.mp member with rfl | later
        · exact absurd rfl same
        · exact later
      simpa [same] using ih later

theorem resolveRule_explicit (member : rule ∈ rules) :
    resolveRule (explicitPolicy szIdentity fields rules) (szIdentity rule)
      = { resolveConfigured fields with ruleIdentity := .canonical (szIdentity rule) } := by
  rw [resolveRule, configuredEntry_explicit szIdentity fields member]
  exact resolveConfigured_identity fields _

end Resolution

/-- Rule objects are compared by identity of the object, so `Rule` has decidable equality. -/
structure CDSLPolicySnapshot (Rule : Type) where
  policies : List SDSLRulePolicy
  ruleToPolicy : List (Rule × ℕ)
  rboRules : EDslRulePhase → List Rule
  cboRules : List Rule
  explicitPolicy : Bool

section Queues
variable {Rule : Type}

def byPriority (policyOf : Rule → Option SDSLRulePolicy) (rules : List Rule) : List Rule :=
  rules.insertionSort (fun left right =>
    ((policyOf right).map SDSLRulePolicy.priority).getD 0
      ≤ ((policyOf left).map SDSLRulePolicy.priority).getD 0)

def queued (policyOf : Rule → Option SDSLRulePolicy) (stage : Stage) (rules : List Rule) :
    List Rule :=
  rules.filter (fun rule => (policyOf rule).bind stageOf = some stage)

variable {policyOf : Rule → Option SDSLRulePolicy} {rules : List Rule}

theorem queued_uniform {found : Option Stage}
    (uniform : ∀ rule ∈ rules, (policyOf rule).bind stageOf = found) (stage : Stage) :
    queued policyOf stage rules = if found = some stage then rules else [] := by
  have same : queued policyOf stage rules = rules.filter (fun _ => found = some stage) :=
    List.filter_congr (fun rule member => by rw [uniform rule member])
  rw [same]
  split
  · rename_i eq
    simp [eq]
  · rename_i ne
    simp [ne]

theorem byPriority_uniform {n : Int}
    (uniform : ∀ rule ∈ rules, (policyOf rule).map SDSLRulePolicy.priority = some n) :
    byPriority policyOf rules = rules := by
  refine List.Pairwise.insertionSort_eq (List.pairwise_of_forall_mem_list ?_)
  intro left inLeft right inRight
  rw [uniform left inLeft, uniform right inRight]

end Queues

section Compile
variable {Rule : Type} [DecidableEq Rule] (szIdentity : Rule → String)

def lookupPolicy (policies : List SDSLRulePolicy) (ruleToPolicy : List (Rule × ℕ)) (rule : Rule) :
    Option SDSLRulePolicy :=
  (ruleToPolicy.find? (fun pair => pair.1 = rule)).bind (fun pair => policies[pair.2]?)

def unknownIdentities (rules : List Rule) (entries : List SDSLRulePolicy) : List String :=
  (entries.filterMap (fun entry =>
    match entry.ruleIdentity with
    | .canonical identity => if identity ∈ rules.map szIdentity then none else some identity
    | .wildcard => none)).eraseDups

def buildSnapshot (rules : List Rule) (policies : List SDSLRulePolicy) (explicit : Bool) :
    CDSLPolicySnapshot Rule :=
  let ruleToPolicy := rules.zipIdx
  let policyOf := lookupPolicy policies ruleToPolicy
  { policies := policies
    ruleToPolicy := ruleToPolicy
    rboRules := fun phase =>
      if phase = .explore then [] else byPriority policyOf (queued policyOf (.rbo phase) rules)
    cboRules := queued policyOf .cbo rules
    explicitPolicy := explicit }

def psnapshotCompile (rules : List Rule) (policy : Option (List SDSLRulePolicy)) :
    Except (List String) (CDSLPolicySnapshot Rule) :=
  let entries := policy.getD []
  match unknownIdentities szIdentity rules entries with
  | [] => .ok (buildSnapshot rules
      (rules.map (fun rule => resolveRule entries (szIdentity rule))) policy.isSome)
  | unknown => .error
      (unknown.map (fun identity => "policy references unknown rule identity: " ++ identity ++ "\n"))

def CDSLPolicySnapshot.ppolicy (snapshot : CDSLPolicySnapshot Rule) (rule : Rule) :
    Option SDSLRulePolicy :=
  lookupPolicy snapshot.policies snapshot.ruleToPolicy rule

/-- The cost-based search tries the rules that the rule index finds at an expression in the order
of their priorities. -/
def CDSLPolicySnapshot.pdrgpruleCBOCandidates (snapshot : CDSLPolicySnapshot Rule)
    (found : List Rule) : List Rule :=
  byPriority snapshot.ppolicy (queued snapshot.ppolicy .cbo found)

/-- The same rules in the same stages, in the same order and with the same budgets. -/
structure SameSchedule (s t : CDSLPolicySnapshot Rule) : Prop where
  cbo : s.cboRules = t.cboRules
  candidates : ∀ found, s.pdrgpruleCBOCandidates found = t.pdrgpruleCBOCandidates found
  rbo : ∀ phase, s.rboRules phase = t.rboRules phase
  budgets : ∀ rule,
    (s.ppolicy rule).map (fun p => (p.budgetPerNode, p.budgetPerRule, p.budgetPerQuery))
      = (t.ppolicy rule).map (fun p => (p.budgetPerNode, p.budgetPerRule, p.budgetPerQuery))

variable {rules : List Rule} {rule : Rule}

theorem lookupPolicy_zipIdx (f : Rule → SDSLRulePolicy) (before : List SDSLRulePolicy)
    (member : rule ∈ rules) :
    lookupPolicy (before ++ rules.map f) (rules.zipIdx before.length) rule = some (f rule) := by
  induction rules generalizing before with
  | nil => simp at member
  | cons first rest ih =>
    simp only [lookupPolicy, List.zipIdx_cons, List.find?_cons, List.map_cons]
    by_cases same : first = rule
    · simp [same]
    · have later : rule ∈ rest := by
        rcases List.mem_cons.mp member with rfl | later
        · exact absurd rfl same
        · exact later
      have step := ih (before ++ [f first]) later
      rw [List.append_assoc, List.singleton_append, List.length_append,
        List.length_singleton] at step
      simpa [same, lookupPolicy] using step

theorem lookupPolicy_unknown (policies : List SDSLRulePolicy) (unknown : rule ∉ rules) (n : ℕ) :
    lookupPolicy policies (rules.zipIdx n) rule = none := by
  have absent : (rules.zipIdx n).find? (fun pair => pair.1 = rule) = none := by
    rw [List.find?_eq_none]
    intro pair member same
    have found := List.fst_mem_of_mem_zipIdx member
    rw [of_decide_eq_true same] at found
    exact unknown found
  rw [lookupPolicy, absent, Option.bind_none]

theorem buildSnapshot_policy (f : Rule → SDSLRulePolicy) (rules : List Rule) (explicit : Bool)
    (rule : Rule) : (buildSnapshot rules (rules.map f) explicit).ppolicy rule
      = if rule ∈ rules then some (f rule) else none := by
  split
  · rename_i member
    exact lookupPolicy_zipIdx f [] member
  · rename_i unknown
    exact lookupPolicy_unknown _ unknown 0

theorem stageOf_ne_explore (policy : SDSLRulePolicy) : stageOf policy ≠ some (.rbo .explore) := by
  unfold stageOf
  split
  · simp
  · split
    · simp
    · split
      · rename_i staged
        simpa using staged.2
      · simp

def uniformSnapshot (policy : SDSLRulePolicy) (rules : List Rule) (explicit : Bool) :
    CDSLPolicySnapshot Rule :=
  buildSnapshot rules (rules.map (fun rule =>
    { policy with ruleIdentity := .canonical (szIdentity rule) })) explicit

theorem uniformSnapshot_queued (policy : SDSLRulePolicy) (rules : List Rule) (explicit : Bool)
    (stage : Stage) :
    queued (uniformSnapshot szIdentity policy rules explicit).ppolicy stage rules
      = if stageOf policy = some stage then rules else [] := by
  refine queued_uniform (fun rule member => ?_) stage
  rw [uniformSnapshot, buildSnapshot_policy, if_pos member]
  rfl

theorem uniformSnapshot_rbo (policy : SDSLRulePolicy) (rules : List Rule) (explicit : Bool)
    (phase : EDslRulePhase) :
    (uniformSnapshot szIdentity policy rules explicit).rboRules phase
      = if stageOf policy = some (.rbo phase) then rules else [] := by
  by_cases explore : phase = .explore
  · have never := stageOf_ne_explore policy
    subst explore
    rw [if_neg never]
    rfl
  · have lists := uniformSnapshot_queued szIdentity policy rules explicit (.rbo phase)
    have sorted : (uniformSnapshot szIdentity policy rules explicit).rboRules phase
        = byPriority (uniformSnapshot szIdentity policy rules explicit).ppolicy
          (queued (uniformSnapshot szIdentity policy rules explicit).ppolicy (.rbo phase) rules) :=
      if_neg explore
    rw [sorted, lists]
    split
    · refine byPriority_uniform (n := policy.priority) (fun rule member => ?_)
      rw [uniformSnapshot, buildSnapshot_policy, if_pos member]
      rfl
    · rfl

theorem uniformSnapshot_candidates {p q : SDSLRulePolicy} (priority : p.priority = q.priority)
    (agree : rules = [] ∨ stageOf p = stageOf q) (a b : Bool) (found : List Rule) :
    (uniformSnapshot szIdentity p rules a).pdrgpruleCBOCandidates found =
      (uniformSnapshot szIdentity q rules b).pdrgpruleCBOCandidates found := by
  have stages : ∀ rule, ((uniformSnapshot szIdentity p rules a).ppolicy rule).bind stageOf =
      ((uniformSnapshot szIdentity q rules b).ppolicy rule).bind stageOf := by
    intro rule
    simp only [uniformSnapshot, buildSnapshot_policy]
    rcases agree with rfl | same
    · rfl
    · split
      · exact same
      · rfl
  have priorities : ∀ rule,
      ((uniformSnapshot szIdentity p rules a).ppolicy rule).map SDSLRulePolicy.priority =
        ((uniformSnapshot szIdentity q rules b).ppolicy rule).map SDSLRulePolicy.priority := by
    intro rule
    simp only [uniformSnapshot, buildSnapshot_policy]
    split
    · exact congrArg some priority
    · rfl
  simp only [CDSLPolicySnapshot.pdrgpruleCBOCandidates, byPriority, queued, stages, priorities]

theorem sameSchedule_iff {p q : SDSLRulePolicy} (priority : p.priority = q.priority)
    (node : p.budgetPerNode = q.budgetPerNode) (perRule : p.budgetPerRule = q.budgetPerRule)
    (query : p.budgetPerQuery = q.budgetPerQuery) (rules : List Rule) (a b : Bool) :
    SameSchedule (uniformSnapshot szIdentity p rules a) (uniformSnapshot szIdentity q rules b)
      ↔ rules = [] ∨ stageOf p = stageOf q := by
  have cboP : (uniformSnapshot szIdentity p rules a).cboRules = _ :=
    uniformSnapshot_queued szIdentity p rules a .cbo
  have cboQ : (uniformSnapshot szIdentity q rules b).cboRules = _ :=
    uniformSnapshot_queued szIdentity q rules b .cbo
  constructor
  · rintro ⟨cbo, -, rbo, -⟩
    by_cases empty : rules = []
    · exact .inl empty
    · rw [cboP, cboQ] at cbo
      simp only [uniformSnapshot_rbo] at rbo
      have agree : ∀ stage, stageOf p = some stage ↔ stageOf q = some stage := by
        intro stage
        have lists : (if stageOf p = some stage then rules else [])
            = if stageOf q = some stage then rules else [] := by
          cases stage with
          | cbo => exact cbo
          | rbo phase => exact rbo phase
        by_cases left : stageOf p = some stage <;> by_cases right : stageOf q = some stage <;>
          simp_all
      exact .inr (Option.ext agree)
  · intro agree
    have queues : ∀ stage, (if stageOf p = some stage then rules else [])
        = if stageOf q = some stage then rules else [] := by
      intro stage
      rcases agree with empty | same
      · simp [empty]
      · rw [same]
    refine ⟨?_, uniformSnapshot_candidates szIdentity priority agree a b, fun phase => ?_,
      fun rule => ?_⟩
    · rw [cboP, cboQ, queues]
    · rw [uniformSnapshot_rbo, uniformSnapshot_rbo, queues]
    · rw [uniformSnapshot, uniformSnapshot, buildSnapshot_policy, buildSnapshot_policy]
      split
      · simp [node, perRule, query]
      · rfl

theorem psnapshotCompile_wildcard (fields : SDSLRulePolicy) (rules : List Rule) :
    psnapshotCompile szIdentity rules (some (wildcardPolicy fields))
      = .ok (uniformSnapshot szIdentity fields rules true) := by
  have known : unknownIdentities szIdentity rules (wildcardPolicy fields) = [] := by
    simp [unknownIdentities, wildcardPolicy]
  simp only [psnapshotCompile, Option.getD_some, known, resolveRule_wildcard, Option.isSome_some]
  rfl

theorem psnapshotCompile_explicit (fields : SDSLRulePolicy) (rules : List Rule) :
    psnapshotCompile szIdentity rules (some (explicitPolicy szIdentity fields rules))
      = .ok (uniformSnapshot szIdentity (resolveConfigured fields) rules true) := by
  have known : unknownIdentities szIdentity rules (explicitPolicy szIdentity fields rules) = [] := by
    have none : (explicitPolicy szIdentity fields rules).filterMap (fun entry =>
        match entry.ruleIdentity with
        | .canonical identity => if identity ∈ rules.map szIdentity then none else some identity
        | .wildcard => none) = [] := by
      rw [List.filterMap_eq_nil_iff]
      intro entry member
      obtain ⟨rule, loaded, rfl⟩ := List.mem_map.mp member
      simp [List.mem_map_of_mem loaded]
    rw [unknownIdentities, none]
    rfl
  have policies : rules.map (fun rule =>
        resolveRule (explicitPolicy szIdentity fields rules) (szIdentity rule))
      = rules.map (fun rule =>
        { resolveConfigured fields with ruleIdentity := .canonical (szIdentity rule) }) :=
    List.map_congr_left (fun rule member => resolveRule_explicit szIdentity fields member)
  simp only [psnapshotCompile, Option.getD_some, known, policies, Option.isSome_some]
  rfl

/-- A `*` entry schedules the rules as one explicit entry per rule does, exactly for fields that
the resolution of explicit entries leaves in their stage. -/
theorem wildcard_schedules_as_explicit_iff (fields : SDSLRulePolicy) (rules : List Rule) :
    (∃ s t, psnapshotCompile szIdentity rules (some (wildcardPolicy fields)) = .ok s ∧
      psnapshotCompile szIdentity rules (some (explicitPolicy szIdentity fields rules)) = .ok t ∧
      SameSchedule s t) ↔ rules = [] ∨ ResolutionFree fields := by
  have kept : fields.priority = (resolveConfigured fields).priority ∧
      fields.budgetPerNode = (resolveConfigured fields).budgetPerNode ∧
      fields.budgetPerRule = (resolveConfigured fields).budgetPerRule ∧
      fields.budgetPerQuery = (resolveConfigured fields).budgetPerQuery := by
    obtain ⟨old, enabled, placement, phase, effect, priority, order, fixpoint, n, r, q⟩ := fields
    cases placement <;> cases effect <;> exact ⟨rfl, rfl, rfl, rfl⟩
  rw [psnapshotCompile_wildcard, psnapshotCompile_explicit, ← stageOf_resolveConfigured_iff,
    ← sameSchedule_iff szIdentity kept.1 kept.2.1 kept.2.2.1 kept.2.2.2 rules true true]
  constructor
  · rintro ⟨s, t, wild, explicit, same⟩
    rw [Except.ok.inj wild, Except.ok.inj explicit]
    exact same
  · intro same
    exact ⟨_, _, rfl, rfl, same⟩

end Compile

/-- The fields of `placement: auto` with the other fields left at their defaults. -/
def automatic : SDSLRulePolicy :=
  { defaultPolicy "" with placement := .auto }

/-- One rule under `placement: auto`, which the loader accepts: the explicit entry queues it for
cost-based search and the `*` entry for no stage. -/
theorem automatic_wildcard_schedules_nothing :
    entryError automatic false = none ∧
      ¬ ∃ s t, psnapshotCompile (fun _ : Unit => "0123456789abcdef") [()]
          (some (wildcardPolicy automatic)) = .ok s ∧
        psnapshotCompile (fun _ : Unit => "0123456789abcdef") [()]
          (some (explicitPolicy (fun _ : Unit => "0123456789abcdef") automatic [()])) = .ok t ∧
        SameSchedule s t := by
  refine ⟨rfl, ?_⟩
  rintro ⟨s, t, wild, explicit, same⟩
  have none : s.cboRules = [] := by
    rw [← Except.ok.inj wild]
    rfl
  have one : t.cboRules = [()] := by
    rw [← Except.ok.inj explicit]
    rfl
  have cbo := same.cbo
  rw [none, one] at cbo
  simp at cbo

end RulePolicy
