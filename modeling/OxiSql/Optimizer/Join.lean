import OxiSql.Btree.Seek
import OxiSql.Optimizer.Constraints

namespace OxiSql.Optimizer
open Btree Lib Translate OxiSql.Types

structure ColumnOrder where
  tableId : TableId
  columnNo : Nat
  order : SortOrder
deriving DecidableEq

/-- Without references an access method is a scan, with some a search. -/
structure AccessMethod (Cost : Type) where
  cost : Cost
  iterDir : IterationDirection
  index : Option Index
  constraintRefs : List ConstraintRef

def AccessMethod.isScan {Cost : Type} (m : AccessMethod Cost) : Bool :=
  m.constraintRefs.isEmpty

/-- The estimates. Costs are floats computed from the statistics; only that they are computed from
these arguments matters for what is chosen among. -/
structure Estimates (Cost : Type) where
  zero : Cost
  max : Cost
  add : Cost → Cost → Cost
  lt : Cost → Cost → Bool
  ge : Cost → Cost → Bool
  /-- What an index gains by delivering the rows in order. -/
  orderBonus : Cost
  scanCost : JoinedTable → Nat → Cost
  seekCost : JoinedTable → Option Index → List Constraint → List ConstraintRef → Nat → Cost
  outputCardinality : JoinedTable → List Constraint → Nat → Nat
  sortingPenalty : Nat → Cost

/-- What a query gives the planner. -/
structure Query where
  refs : TableReferences
  whereClause : List WhereTerm
  availableIndexes : String → List Index
  orderTarget : Option (List ColumnOrder)

section
variable {Cost : Type} (E : Estimates Cost)

/-- Whether an index delivers rows as the order target wants them, and the other way round. -/
def matchesOrder (table : JoinedTable) (index : Option Index) : List ColumnOrder → Nat → Bool × Bool
  | [], _ => (true, true)
  | target :: targets, i =>
    if i < (index.map fun index => index.columns.length).getD 1 then
      let correctColumn : Bool :=
        match index with
        | some index => (index.columns[i]?.map IndexColumn.posInTable) = some target.columnNo
        | none => table.rowidAlias = some target.columnNo
      let correctOrder : Bool :=
        match index with
        | some index => (index.columns[i]?.map IndexColumn.order) = some target.order
        | none => target.order = .asc
      if target.tableId = table.internalId ∧ correctColumn then
        let (same, opposite) := matchesOrder table index targets (i + 1)
        (same && correctOrder, opposite && !correctOrder)
      else (false, false)
    else (true, true)

def directionAndBonus (target : Option (List ColumnOrder)) (table : JoinedTable)
    (index : Option Index) : IterationDirection × Cost :=
  match target with
  | none => (.forwards, E.zero)
  | some target =>
    match matchesOrder table index target 0 with
    | (true, _) => (.forwards, E.orderBonus)
    | (false, true) => (.backwards, E.orderBonus)
    | (false, false) => (.forwards, E.zero)

/-- One turn of the loop over the candidates. -/
def betterCandidate (target : Option (List ColumnOrder)) (table : JoinedTable)
    (constraints : List Constraint) (before : List Nat) (tableIdx card : Nat)
    (best : AccessMethod Cost) (candidate : ConstraintUseCandidate) : AccessMethod Cost :=
  let usable := usableConstraintsForJoinOrder constraints candidate.refs before tableIdx
  let cost := E.seekCost table candidate.index constraints usable card
  let (iterDir, bonus) := directionAndBonus E target table candidate.index
  if E.lt cost (E.add best.cost bonus) then ⟨cost, iterDir, candidate.index, usable⟩ else best

/-- `before` are the tables joined so far, and `tableIdx` the table to join. -/
def findBestAccessMethodForJoinOrder (target : Option (List ColumnOrder)) (table : JoinedTable)
    (cs : TableConstraints) (before : List Nat) (tableIdx card : Nat) : AccessMethod Cost :=
  cs.candidates.foldl (betterCandidate E target table cs.constraints before tableIdx card)
    ⟨E.scanCost table card, .forwards, none, []⟩

structure JoinN (Cost : Type) where
  data : List (Nat × AccessMethod Cost)
  outputCardinality : Nat
  cost : Cost

def JoinN.tableNumbers {Cost : Type} (plan : JoinN Cost) : List Nat :=
  plan.data.map Prod.fst

structure Joinable where
  idx : Nat
  table : JoinedTable
  cs : TableConstraints

def joinLhsAndRhs (target : Option (List ColumnOrder)) (lhs : Option (JoinN Cost))
    (rhs : Joinable) (costUpperBound : Cost) : Option (JoinN Cost) :=
  let before := (lhs.map JoinN.tableNumbers).getD []
  let inputCardinality := (lhs.map JoinN.outputCardinality).getD 1
  let best := findBestAccessMethodForJoinOrder E target rhs.table rhs.cs before rhs.idx
    inputCardinality
  let cost := E.add ((lhs.map JoinN.cost).getD E.zero) best.cost
  if E.lt costUpperBound cost then none
  else some
    { data := (lhs.map JoinN.data).getD [] ++ [(rhs.idx, best)]
      outputCardinality := E.outputCardinality rhs.table
        (rhs.cs.constraints.filter fun c => ∀ t ∈ c.lhsMask, t ∈ before) inputCardinality
      cost := cost }

/-- The columns of an index against those still wanted: `none` when one differs, else what is still
wanted. -/
def matchIndexColumns (iterDir : IterationDirection) :
    List IndexColumn → List ColumnOrder → Option (List ColumnOrder)
  | [], targets => some targets
  | _ :: _, [] => some []
  | column :: columns, target :: targets =>
    if target.columnNo = column.posInTable ∧
        (iterDir = .forwards ↔ target.order = column.order) then
      matchIndexColumns iterDir columns targets
    else none

def planSatisfiesOrderTarget (joinedTables : List JoinedTable) :
    List (Nat × AccessMethod Cost) → List ColumnOrder → Bool
  | _, [] => true
  | [], _ :: _ => false
  | (t, m) :: data, target :: targets =>
    match joinedTables[t]? with
    | none => false
    | some table =>
      if target.tableId ≠ table.internalId then false
      else
        match m.index with
        | none =>
          if table.rowidAlias = some target.columnNo ∧
              (m.iterDir = .forwards ↔ target.order = .asc) then
            planSatisfiesOrderTarget joinedTables data targets
          else false
        | some index =>
          match matchIndexColumns m.iterDir index.columns (target :: targets) with
          | none => false
          | some rest => planSatisfiesOrderTarget joinedTables data rest

/-- Gosper's hack: the next number with as many bits set. -/
def nextCombination (current : Nat) : Nat :=
  let c := current &&& (2 ^ 128 - current)
  let r := current + c
  r ||| ((current ^^^ r) >>> 2) / c

def joinBitmasksFrom (maxExclusive : Nat) : Nat → Nat → List Nat
  | 0, _ => []
  | fuel + 1, current =>
    if maxExclusive ≤ current then []
    else current :: joinBitmasksFrom maxExclusive fuel (nextCombination current)

/-- A mask has bit `i` set for table `i`. -/
def generateJoinBitmasks (tables howMany : Nat) : List Nat :=
  joinBitmasksFrom (2 ^ tables) (2 ^ tables) (2 ^ howMany - 1)

/-- Joining a table before the right side of a LEFT JOIN that stands after it is illegal. -/
def illegalLhs (joinedTables : List JoinedTable) (lhsMask rhsIdx : Nat) : Bool :=
  (joinedTables.zipIdx).any fun (t, j) => t.outer && rhsIdx < j && lhsMask.testBit j

/-- What is known of a mask while its tables are tried in turn as the last one. -/
structure BestForMask (Cost : Type) where
  best : Option (JoinN Cost)
  ordered : Option (JoinN Cost)
  isAlsoOrdered : Bool

def isOrdered (joinedTables : List JoinedTable) (target : Option (List ColumnOrder))
    (plan : JoinN Cost) : Bool :=
  target.any fun target => planSatisfiesOrderTarget joinedTables plan.data target

/-- One turn of the loop over the tables of a mask. -/
def tryRhs (target : Option (List ColumnOrder)) (joinedTables : List JoinedTable) (bound : Cost)
    (memo : List (Nat × JoinN Cost)) (mask : Nat) (acc : BestForMask Cost) (rhs : Joinable) :
    BestForMask Cost :=
  let lhsMask := mask ^^^ (1 <<< rhs.idx)
  if !mask.testBit rhs.idx || lhsMask = 0 || illegalLhs joinedTables lhsMask rhs.idx then acc
  else
    match memo.lookup lhsMask with
    | none => acc
    | some lhs =>
      match joinLhsAndRhs E target (some lhs) rhs bound with
      | none => acc
      | some rel =>
        let ordered := isOrdered joinedTables target rel
        if E.ge rel.cost bound then
          if !ordered then acc
          else if E.lt rel.cost ((acc.ordered.map JoinN.cost).getD E.max) then
            { acc with ordered := some rel }
          else acc
        else if acc.best.all fun best => E.lt rel.cost best.cost then
          { acc with best := some rel, isAlsoOrdered := ordered }
        else acc

/-- The plans found so far. -/
structure BestPlans (Cost : Type) where
  best : JoinN Cost
  isAlsoOrdered : Bool
  ordered : Option (JoinN Cost)
  memo : List (Nat × JoinN Cost)

/-- One turn of the loop over the masks. -/
def tryMask (target : Option (List ColumnOrder)) (joinedTables : List JoinedTable)
    (joinables : List Joinable) (bound : Cost) (acc : BestPlans Cost) (mask : Nat) : BestPlans Cost :=
  let found := joinables.foldl (tryRhs E target joinedTables bound acc.memo mask) ⟨none, none, false⟩
  let hasAllTables : Bool := mask = 2 ^ joinedTables.length - 1
  let acc :=
    match found.ordered with
    | some rel => if hasAllTables && E.lt rel.cost bound then { acc with ordered := some rel } else acc
    | none => acc
  match found.best with
  | none => acc
  | some rel =>
    if hasAllTables then
      if E.lt rel.cost bound then { acc with best := rel, isAlsoOrdered := found.isAlsoOrdered }
      else acc
    else { acc with memo := (mask, rel) :: acc.memo }

def computeNaiveLeftDeepPlan (target : Option (List ColumnOrder)) :
    Option (JoinN Cost) → List Joinable → Except Btree.Fault (Option (JoinN Cost))
  | plan, [] => .ok plan
  | plan, rhs :: joinables =>
    match joinLhsAndRhs E target plan rhs E.max with
    | none => .error (.panic
        "call to join_lhs_and_rhs in compute_naive_left_deep_plan always returns Some(JoinN)")
    | some plan => computeNaiveLeftDeepPlan target (some plan) joinables

def computeBestJoinOrder (target : Option (List ColumnOrder)) (joinedTables : List JoinedTable)
    (joinables : List Joinable) : Except Btree.Fault (Option (JoinN Cost × Option (JoinN Cost))) := do
  match ← computeNaiveLeftDeepPlan E target none joinables with
  | none => return none
  | some naive =>
    if joinables.length = 1 then return some (naive, none)
    let singles := joinables.filterMap fun rhs =>
      (joinLhsAndRhs E target none rhs naive.cost).map fun plan => (1 <<< rhs.idx, plan)
    let masks := (List.range (joinables.length - 1)).flatMap fun k =>
      generateJoinBitmasks joinables.length (k + 2)
    let plans := masks.foldl (tryMask E target joinedTables joinables naive.cost)
      ⟨naive, isOrdered joinedTables target naive, none, singles⟩
    return some (plans.best, if plans.isAlsoOrdered then none else plans.ordered)

def Query.joinables (q : Query) (constraintsPerTable : List TableConstraints) : List Joinable :=
  (q.refs.joinedTables.zip constraintsPerTable).zipIdx.map fun ((table, cs), i) => ⟨i, table, cs⟩

/-- The plan `optimize_table_access` goes on with. -/
def choosePlan (q : Query) (constraintsPerTable : List TableConstraints) :
    Except Btree.Fault (Option (JoinN Cost)) := do
  match ← computeBestJoinOrder E q.orderTarget q.refs.joinedTables
      (q.joinables constraintsPerTable) with
  | none => return none
  | some (best, none) => return some best
  | some (best, some ordered) =>
    if E.lt ordered.cost (E.add best.cost (E.sortingPenalty best.outputCardinality)) then
      return some ordered
    else return some best

variable {E}

/-- What an access method is one of: the scan of the table, or a candidate with its references as
far as they are usable. -/
def AccessMethod.Of (cs : TableConstraints) (before : List Nat) (tableIdx : Nat)
    (m : AccessMethod Cost) : Prop :=
  (m.index = none ∧ m.constraintRefs = []) ∨
    ∃ candidate ∈ cs.candidates, m.index = candidate.index ∧
      m.constraintRefs =
        usableConstraintsForJoinOrder cs.constraints candidate.refs before tableIdx

theorem findBest_of :
    (findBestAccessMethodForJoinOrder E target table cs before tableIdx card).Of cs before tableIdx := by
  refine List.foldlRecOn (motive := AccessMethod.Of cs before tableIdx) _ _ (.inl ⟨rfl,rfl⟩) ?_
  intro best hbe candidate hca
  unfold betterCandidate
  dsimp only
  split
  · exact .inr ⟨candidate,hca,rfl,rfl⟩
  · exact hbe

inductive Built (joinables : List Joinable) : List (Nat × AccessMethod Cost) → Prop
  | nil : Built joinables []
  | snoc {data : List (Nat × AccessMethod Cost)} {rhs : Joinable} {m : AccessMethod Cost}
      (lhs : Built joinables data) (mem : rhs ∈ joinables)
      (of : m.Of rhs.cs (data.map Prod.fst) rhs.idx) : Built joinables (data ++ [(rhs.idx, m)])

theorem joinLhsAndRhs_built (hlhs : ∀ p, lhs = some p → Built joinables p.data)
    (hrhs : rhs ∈ joinables) (h : joinLhsAndRhs E target lhs rhs bound = some plan) :
    Built joinables plan.data := by
  unfold joinLhsAndRhs at h
  dsimp only at h
  split at h
  · cases h
  · cases h
    cases lhs with
    | none => exact .snoc .nil hrhs (findBest_of ..)
    | some p => exact .snoc (hlhs p rfl) hrhs (findBest_of ..)

theorem naive_built {start plan : Option (JoinN Cost)} (hsub : ∀ rhs ∈ rest, rhs ∈ joinables)
    (hst : ∀ p, start = some p → Built joinables p.data)
    (h : computeNaiveLeftDeepPlan E target start rest = .ok plan) :
    ∀ p, plan = some p → Built joinables p.data := by
  induction rest generalizing start with
  | nil =>
    cases h
    exact hst
  | cons rhs rest ih =>
    unfold computeNaiveLeftDeepPlan at h
    split at h
    · cases h
    · rename_i joined hjo
      refine ih (fun r hr => hsub r (.tail _ hr)) (fun p hp => ?_) h
      cases hp
      exact joinLhsAndRhs_built hst (hsub rhs (.head _)) hjo

def Memoized (joinables : List Joinable) (memo : List (Nat × JoinN Cost)) : Prop :=
  ∀ entry ∈ memo, Built joinables entry.2.data

structure BestForMask.Built (joinables : List Joinable) (acc : BestForMask Cost) : Prop where
  best : ∀ p, acc.best = some p → Optimizer.Built joinables p.data
  ordered : ∀ p, acc.ordered = some p → Optimizer.Built joinables p.data

theorem tryRhs_built (hme : Memoized joinables memo) (hacc : acc.Built joinables) (hrhs : rhs ∈ joinables) :
    (tryRhs E target joinedTables bound memo mask acc rhs).Built joinables := by
  unfold tryRhs
  dsimp only
  split
  · exact hacc
  split
  · exact hacc
  rename_i lhs hlhs
  split
  · exact hacc
  rename_i rel hrel
  have hbu : Built joinables rel.data := by
    refine joinLhsAndRhs_built (fun p hp => ?_) hrhs hrel
    cases hp
    obtain ⟨l1,l2,hm,-⟩ := List.lookup_eq_some_iff.mp hlhs
    exact hme (mask ^^^ 1 <<< rhs.idx, lhs) (by simp [hm])
  have hso : ∀ p, some rel = some p → Built joinables p.data := by
    intro p hp
    cases hp
    exact hbu
  split
  · split
    · exact hacc
    · split
      · exact ⟨hacc.best,hso⟩
      · exact hacc
  · split
    · exact ⟨hso,hacc.ordered⟩
    · exact hacc

structure BestPlans.Built (joinables : List Joinable) (acc : BestPlans Cost) : Prop where
  best : Optimizer.Built joinables acc.best.data
  ordered : ∀ p, acc.ordered = some p → Optimizer.Built joinables p.data
  memo : Memoized joinables acc.memo

theorem tryMask_built (hacc : acc.Built joinables) :
    (tryMask E target joinedTables joinables bound acc mask).Built joinables := by
  have hfo : (joinables.foldl (tryRhs E target joinedTables bound acc.memo mask)
      ⟨none,none,false⟩).Built joinables := by
    refine List.foldlRecOn (motive := BestForMask.Built joinables) _ _ ⟨nofun,nofun⟩ ?_
    intro found hfo rhs hrhs
    exact tryRhs_built hacc.memo hfo hrhs
  unfold tryMask
  generalize joinables.foldl (tryRhs E target joinedTables bound acc.memo mask)
    ⟨none,none,false⟩ = found at hfo
  obtain ⟨best,ordered,isAlsoOrdered⟩ := found
  have hor : (match ordered with
      | some rel =>
        if (decide (mask = 2 ^ joinedTables.length - 1) && E.lt rel.cost bound) = true then
          { acc with ordered := some rel }
        else acc
      | none => acc).Built joinables := by
    cases ordered with
    | none => exact hacc
    | some rel =>
      dsimp only
      split
      · exact ⟨hacc.best,hfo.ordered,hacc.memo⟩
      · exact hacc
  cases best with
  | none => exact hor
  | some rel =>
    have hrel := hfo.best rel rfl
    dsimp only
    split
    · split
      · exact ⟨hrel,hor.ordered,hor.memo⟩
      · exact hor
    · refine ⟨hor.best,hor.ordered,fun entry hen => ?_⟩
      rcases List.mem_cons.mp hen with rfl | hen
      · exact hrel
      · exact hor.memo entry hen

theorem computeBestJoinOrder_built
    (h : computeBestJoinOrder E target joinedTables joinables = .ok (some plans)) :
    Built joinables plans.1.data ∧ ∀ p, plans.2 = some p → Built joinables p.data := by
  obtain ⟨naive,hna,h⟩ := bind_ok h
  have hnone : ∀ p : JoinN Cost, none = some p → Built joinables p.data := nofun
  have hbu := naive_built (fun rhs hrhs => hrhs) hnone hna
  cases naive with
  | none => cases h
  | some naive =>
    have hbu := hbu naive rfl
    dsimp only at h
    split at h
    · cases h
      exact ⟨hbu,nofun⟩
    · cases h
      have hpl : (((List.range (joinables.length - 1)).flatMap fun k =>
          generateJoinBitmasks joinables.length (k + 2)).foldl
            (tryMask E target joinedTables joinables naive.cost)
            ⟨naive,isOrdered joinedTables target naive,none,joinables.filterMap fun rhs =>
              (joinLhsAndRhs E target none rhs naive.cost).map fun plan =>
                (1 <<< rhs.idx, plan)⟩).Built joinables := by
        refine List.foldlRecOn (motive := BestPlans.Built joinables) _ _ ⟨hbu,nofun,?_⟩
          fun acc hacc mask _ => tryMask_built hacc
        intro entry hen
        obtain ⟨rhs,hrhs,hsi⟩ := List.mem_filterMap.mp hen
        obtain ⟨plan,hpla,rfl⟩ := Option.map_eq_some_iff.mp hsi
        exact joinLhsAndRhs_built hnone hrhs hpla
      refine ⟨hpl.best,fun p hp => ?_⟩
      split at hp
      · cases hp
      · exact hpl.ordered p hp

theorem choosePlan_built (h : choosePlan E q constraintsPerTable = .ok (some plan)) :
    Built (q.joinables constraintsPerTable) plan.data := by
  obtain ⟨plans,hpl,h⟩ := bind_ok h
  cases plans with
  | none => cases h
  | some plans =>
    obtain ⟨hbe,hor⟩ := computeBestJoinOrder_built hpl
    obtain ⟨best,ordered⟩ := plans
    cases ordered with
    | none =>
      cases h
      exact hbe
    | some ordered =>
      dsimp only at h
      split at h
      · cases h
        exact hor _ rfl
      · cases h
        exact hbe

end

end OxiSql.Optimizer
