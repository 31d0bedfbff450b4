import Tuuli.WildcardTrie

/-!
`CDSLRulePrefixIndex`: the source template of a rule is serialized in preorder
into a path of exact edges and wildcard (Input) edges, as far as it is a necessary
prefix of a live expression, and the rule is stored where the path ends. What
`PnodeInsertOp` does to the tree below a node is given by the edges it walks or
creates there.
-/
namespace RuleIndex
open WildcardTrie

/-- The operators of `COperator::EOperatorId` the index names; `other` stands for the rest. -/
inductive EOperatorId where
  | logicalSelect
  | logicalProject
  | logicalGbAgg
  | logicalGbAggDeduplicate
  | logicalLimit
  | logicalInnerJoin
  | logicalLeftOuterJoin
  | logicalFullOuterJoin
  | logicalLeftSemiJoin
  | logicalLeftAntiSemiJoin
  | logicalLeftAntiSemiJoinNotIn
  | logicalInnerApply
  | logicalInnerCorrelatedApply
  | logicalLeftOuterApply
  | logicalLeftOuterCorrelatedApply
  | logicalLeftSemiApply
  | logicalLeftSemiApplyIn
  | logicalLeftSemiCorrelatedApply
  | logicalLeftSemiCorrelatedApplyIn
  | logicalLeftAntiSemiApply
  | logicalLeftAntiSemiCorrelatedApply
  | logicalLeftAntiSemiApplyNotIn
  | logicalLeftAntiSemiCorrelatedApplyNotIn
  | logicalUnion
  | logicalUnionAll
  | logicalIntersect
  | logicalIntersectAll
  | logicalDifference
  | logicalDifferenceAll
  | logicalSequenceProject
  | logicalMaxOneRow
  | logicalAssert
  | logicalConstTableGet
  | logicalCTEConsumer
  | logicalCTEAnchor
  | other (id : ℕ)
  | sentinel
  deriving DecidableEq, Repr

inductive EDslOpKind where
  | input
  | innerJoin
  | leftJoin
  | filter
  | inSubFilter
  | exists
  | notExists
  | proj
  | agg
  | sort
  | limit
  | union
  | compute
  | any
  | all
  | empty
  | semiJoin
  | semiApply
  | antiJoin
  | antiApply
  | innerApply
  | leftOuterApply
  | antiJoinNotIn
  | antiApplyNotIn
  | windowRows
  | windowFrame
  | maxOneRow
  | assertMaxOneRow
  | intersect
  | except
  | rowNumber
  | fullJoin
  | cteConsumer
  | cteAnchor
  | bind
  | sentinel
  deriving DecidableEq, Repr

def eopidOf : EDslOpKind → Bool → EOperatorId
  | .filter, _ => .logicalSelect
  | .proj, distinct => if distinct then .logicalGbAgg else .logicalProject
  | .compute, _ => .logicalProject
  | .innerJoin, _ => .logicalInnerJoin
  | .leftJoin, _ => .logicalLeftOuterJoin
  | .fullJoin, _ => .logicalFullOuterJoin
  | .semiJoin, _ => .logicalLeftSemiJoin
  | .semiApply, _ => .logicalLeftSemiApply
  | .antiJoin, _ => .logicalLeftAntiSemiJoin
  | .antiApply, _ => .logicalLeftAntiSemiApply
  | .antiJoinNotIn, _ => .logicalLeftAntiSemiJoinNotIn
  | .antiApplyNotIn, _ => .logicalLeftAntiSemiApplyNotIn
  | .innerApply, _ => .logicalInnerApply
  | .leftOuterApply, _ => .logicalLeftOuterApply
  | .agg, _ => .logicalGbAgg
  | .exists, _ => .logicalLeftSemiApply
  | .notExists, _ => .logicalLeftAntiSemiApply
  | .inSubFilter, _ => .logicalLeftSemiApplyIn
  | .any, _ => .logicalLeftSemiApplyIn
  | .all, _ => .logicalLeftAntiSemiApplyNotIn
  | .union, distinct => if distinct then .logicalUnion else .logicalUnionAll
  | .intersect, distinct => if distinct then .logicalIntersect else .logicalIntersectAll
  | .except, distinct => if distinct then .logicalDifference else .logicalDifferenceAll
  | .sort, _ => .logicalLimit
  | .limit, _ => .logicalLimit
  | .windowRows, _ => .logicalSequenceProject
  | .windowFrame, _ => .logicalSequenceProject
  | .rowNumber, _ => .logicalSequenceProject
  | .maxOneRow, _ => .logicalMaxOneRow
  | .assertMaxOneRow, _ => .logicalAssert
  | .empty, _ => .logicalConstTableGet
  | .cteConsumer, _ => .logicalCTEConsumer
  | .cteAnchor, _ => .logicalCTEAnchor
  | .input, _ => .sentinel
  | .bind, _ => .sentinel
  | .sentinel, _ => .sentinel

/-- A node of a source template with the number of its symbols. -/
inductive CDSLOp where
  | op (kind : EDslOpKind) (distinct : Bool) (symbols : ℕ) (children : List CDSLOp)

namespace CDSLOp

def edslop : CDSLOp → EDslOpKind
  | op kind _ _ _ => kind

def fDistinct : CDSLOp → Bool
  | op _ distinct _ _ => distinct

def symbols : CDSLOp → ℕ
  | op _ _ symbols _ => symbols

def children : CDSLOp → List CDSLOp
  | op _ _ _ children => children

def ulChildren (op : CDSLOp) : ℕ := op.children.length

def eopid (op : CDSLOp) : EOperatorId := eopidOf op.edslop op.fDistinct

/-- The operator below a chain of `kind` operators with one child each. -/
def skipChain (kinds : List EDslOpKind) : CDSLOp → CDSLOp
  | op kind distinct symbols [child] =>
    if kind ∈ kinds then skipChain kinds child else op kind distinct symbols [child]
  | other => other

end CDSLOp

structure AdapterFlags where
  projectPeelLimit : Bool
  projectPeelAgg : Bool
  gbAggGlobal : Bool
  nullRejectedInnerJoin : Bool
  gbAggHasSubquery : Bool
  gbAggPeelProject : Bool
  deriving DecidableEq, Repr

def AdapterFlags.none : AdapterFlags := ⟨false, false, false, false, false, false⟩

/-- The fields by which `PnodeExact` looks an edge up. -/
structure SExactEdge where
  eopid : EOperatorId
  ulChildren : ℕ
  adapterFlags : AdapterFlags
  deriving DecidableEq, Repr

abbrev Edges := List (Label SExactEdge)

def exact (eopid : EOperatorId) (ulChildren : ℕ) (flags : AdapterFlags) : Label SExactEdge :=
  .key ⟨eopid, ulChildren, flags⟩

def fStructurallyExact : EDslOpKind → Bool
  | .input | .innerJoin | .leftJoin | .fullJoin | .union | .intersect | .except | .compute
  | .empty | .semiJoin | .semiApply | .antiJoin | .antiApply | .antiJoinNotIn
  | .antiApplyNotIn | .innerApply | .leftOuterApply | .windowRows | .windowFrame | .rowNumber
  | .maxOneRow | .assertMaxOneRow | .cteConsumer | .cteAnchor => true
  | _ => false

def subqueryView (kind : EDslOpKind) (symbols : ℕ) : Bool :=
  kind = .any || kind = .all || (kind = .inSubFilter && symbols = 1) ||
    ((kind = .exists || kind = .notExists) && symbols = 0)

def literalEopid (kind : EDslOpKind) (distinct : Bool) (symbols : ℕ) : EOperatorId :=
  if (kind = .inSubFilter && symbols = 5) || (kind = .exists && symbols = 3) then
    .logicalLeftSemiJoin
  else eopidOf kind distinct

def literalFlags (literal : Bool) (flags : AdapterFlags) (op : CDSLOp) : AdapterFlags :=
  if literal && op.edslop = .proj && op.fDistinct then
    { flags with
      gbAggGlobal := true
      gbAggPeelProject := flags.gbAggPeelProject ||
        (op.symbols = 3 && (op.children.head?.map CDSLOp.edslop ≠ some .input)) }
  else flags

mutual

/-- `PnodeInsertOp` with `fSourceRoot` false: the edges below the given node, and whether
    the whole operator is covered. -/
def insertOp (literal filterViews : Bool) (flags : AdapterFlags) : CDSLOp → Edges × Bool
  | .op .limit _ _ [.op .sort _ _ [child]] =>
    if literal then
      let (edges, complete) := insertOp literal filterViews .none child
      (exact .logicalLimit 1 .none :: edges, complete)
    else ([], false)
  | .op kind distinct symbols children =>
    if subqueryView kind symbols || kind = .agg || (filterViews && kind = .filter) ||
        (!literal && !fStructurallyExact kind) then ([], false)
    else if kind = .input then ([.wild], true)
    else if literalEopid kind distinct symbols = .sentinel then ([], false)
    else
      let (edges, complete) := insertChildren literal filterViews children
      (exact (literalEopid kind distinct symbols) children.length
        (literalFlags literal flags (.op kind distinct symbols children)) :: edges, complete)

def insertChildren (literal filterViews : Bool) : List CDSLOp → Edges × Bool
  | [] => ([], true)
  | child :: rest =>
    match insertOp literal filterViews .none child with
    | (edges, true) =>
      let (more, complete) := insertChildren literal filterViews rest
      (edges ++ more, complete)
    | (edges, false) => (edges, false)

end

def fCompensationChainEndsInLeftApply (op : CDSLOp) : Bool :=
  (op.skipChain [.proj, .agg]).edslop = .leftOuterApply

def rootProjFlags (distinct : Bool) (child : EDslOpKind) : AdapterFlags :=
  if distinct then { AdapterFlags.none with gbAggGlobal := true }
  else
    { AdapterFlags.none with
      projectPeelLimit := child ≠ .limit && child ≠ .sort
      projectPeelAgg := child ≠ .input && child ≠ .proj && child ≠ .agg }

/-- `PnodeInsertOp` with `fSourceRoot` true, which is never literal: the adapters of a root
    `Filter`, `Proj` and `Agg`. -/
def insertRoot (op : CDSLOp) : Edges × Bool :=
  match op with
  | .op .filter _ _ _ =>
    let base := op.skipChain [.filter]
    if base.edslop = .leftOuterApply then ([exact .logicalSelect 0 .none], false)
    else
      let flags := { AdapterFlags.none with
        nullRejectedInnerJoin := base.edslop = .innerJoin }
      let (edges, complete) := insertOp false false flags base
      (exact .logicalSelect 1 .none :: edges, complete)
  | .op .proj distinct _ [child] =>
    let afterProjectChain := (child.skipChain [.proj]).edslop
    if !distinct && (afterProjectChain = .innerApply || afterProjectChain = .leftOuterApply) then
      ([exact op.eopid 0 .none], false)
    else
      let (edges, complete) := insertOp false false .none child
      (exact op.eopid 1 (rootProjFlags distinct child.edslop) :: edges, complete)
  | .op .agg _ _ [child] =>
    if fCompensationChainEndsInLeftApply child then
      ([exact .logicalGbAgg 0
        { AdapterFlags.none with gbAggGlobal := true, gbAggHasSubquery := true }], false)
    else
      let (edges, complete) := insertOp false false .none child
      (exact .logicalGbAgg 1 { AdapterFlags.none with gbAggGlobal := true } :: edges, complete)
  | op => insertOp false false .none op

/-! ### Insertion of a rule -/

structure CDSLRule where
  popRoot : CDSLOp
  fHasBindings : Bool
  fHasMatchBindings : Bool

def fDedupAggView (root : CDSLOp) (bucket : EOperatorId) : Bool :=
  root.edslop = .proj && root.fDistinct && bucket = .logicalGbAggDeduplicate

def fCorrelatedNotInApplyView (root : CDSLOp) (bucket : EOperatorId) : Bool :=
  root.edslop = .antiApplyNotIn && bucket = .logicalLeftAntiSemiCorrelatedApplyNotIn

def overFilter (kind : EDslOpKind) : CDSLOp → Bool
  | .op k _ _ [_, second] => k = kind && second.edslop = .filter
  | _ => false

def fSemiApplyView (root : CDSLOp) (bucket : EOperatorId) : Bool :=
  overFilter .semiApply root &&
    (bucket = .logicalLeftSemiCorrelatedApply || bucket = .logicalLeftSemiApplyIn ||
      bucket = .logicalLeftSemiCorrelatedApplyIn)

def fAntiApplyView (root : CDSLOp) (bucket : EOperatorId) : Bool :=
  overFilter .antiApply root && bucket = .logicalLeftAntiSemiCorrelatedApply

def fCorrelatedApply (root : CDSLOp) (bucket : EOperatorId) : Bool :=
  (root.edslop = .innerApply && bucket = .logicalInnerCorrelatedApply) ||
    (root.edslop = .leftOuterApply && bucket = .logicalLeftOuterCorrelatedApply) ||
    (root.edslop = .semiApply && bucket = .logicalLeftSemiCorrelatedApply) ||
    (root.edslop = .antiApply && bucket = .logicalLeftAntiSemiCorrelatedApply)

/-- The path at whose end `Insert` stores a rule in a bucket; a rule routed to another shell
    is stored at the root. -/
def terminalPath (bucket : EOperatorId) (rule : CDSLRule) : Edges :=
  let root := rule.popRoot
  if (root.eopid = bucket || fCorrelatedApply root bucket) && rule.fHasBindings then
    (insertOp true (!rule.fHasMatchBindings) .none root).1
  else if root.eopid = bucket || fDedupAggView root bucket ||
      fCorrelatedNotInApplyView root bucket || fSemiApplyView root bucket ||
      fAntiApplyView root bucket then
    (insertRoot root).1
  else []

section Index
variable {Rule : Type}

structure SRuleEntry (Rule : Type) where
  rule : Rule
  ordinal : ℕ
  deriving DecidableEq

abbrev SNode (Rule : Type) := Trie SExactEdge (SRuleEntry Rule)

structure CDSLRulePrefixIndex (Rule : Type) where
  root : SNode Rule
  fFollowDSLSelectAlternatives : Bool

def CDSLRulePrefixIndex.empty : CDSLRulePrefixIndex Rule := ⟨.empty, false⟩

def CDSLRulePrefixIndex.insert (source : Rule → CDSLRule) (bucket : EOperatorId)
    (index : CDSLRulePrefixIndex Rule) (entry : SRuleEntry Rule) : CDSLRulePrefixIndex Rule where
  root := index.root.insert entry (terminalPath bucket (source entry.rule))
  fFollowDSLSelectAlternatives := index.fFollowDSLSelectAlternatives ||
    fSemiApplyView (source entry.rule).popRoot bucket ||
    fAntiApplyView (source entry.rule).popRoot bucket

def buildIndex (source : Rule → CDSLRule) (bucket : EOperatorId)
    (entries : List (SRuleEntry Rule)) : CDSLRulePrefixIndex Rule :=
  entries.foldl (CDSLRulePrefixIndex.insert source bucket) .empty

variable {path : Edges} {entry : SRuleEntry Rule}

theorem entryAt_foldl_insert (source : Rule → CDSLRule) (bucket : EOperatorId)
    (entries : List (SRuleEntry Rule)) (index : CDSLRulePrefixIndex Rule) :
    (entries.foldl (CDSLRulePrefixIndex.insert source bucket) index).root.EntryAt path entry ↔
      index.root.EntryAt path entry ∨
        entry ∈ entries ∧ path = terminalPath bucket (source entry.rule) := by
  induction entries generalizing index with
  | nil => simp
  | cons stored rest ih =>
    rw [List.foldl_cons, ih]
    simp only [CDSLRulePrefixIndex.insert, Trie.entryAt_insert, List.mem_cons]
    constructor
    · rintro ((before | ⟨place, rfl⟩) | ⟨listed, place⟩)
      · exact Or.inl before
      · exact Or.inr ⟨Or.inl rfl, place⟩
      · exact Or.inr ⟨Or.inr listed, place⟩
    · rintro (before | ⟨rfl | listed, place⟩)
      · exact Or.inl (Or.inl before)
      · exact Or.inl (Or.inr ⟨place, rfl⟩)
      · exact Or.inr ⟨listed, place⟩

theorem entryAt_buildIndex {source : Rule → CDSLRule} {bucket : EOperatorId}
    {entries : List (SRuleEntry Rule)} :
    (buildIndex source bucket entries).root.EntryAt path entry ↔
      entry ∈ entries ∧ path = terminalPath bucket (source entry.rule) := by
  unfold buildIndex
  rw [entryAt_foldl_insert]
  exact or_iff_right Trie.not_entryAt_empty

end Index

end RuleIndex
