import OxiSql.Lib.Results
import OxiSql.Translate.Expr
import OxiSql.Types.Value

namespace OxiSql.Optimizer
open Lib Storage Translate OxiSql.Types List

/-- A term of the WHERE clause; one from the ON clause of a LEFT JOIN names its right table. -/
structure WhereTerm where
  expr : Expr
  fromOuterJoin : Option TableId

structure IndexColumn where
  posInTable : Nat
  order : SortOrder
deriving DecidableEq

structure Index where
  name : String
  columns : List IndexColumn
  unique : Bool
  ephemeral : Bool

def Index.columnTablePosToIndexPos (index : Index) (tablePos : Nat) : Option Nat :=
  index.columns.findIdx? fun column => column.posInTable == tablePos

/-- `rowidAlias` is the column that stands for the rowid, and `columnIsUsed` tells the columns the
query refers to. -/
structure JoinedTable where
  internalId : TableId
  name : String
  columnCount : Nat
  rowidAlias : Option Nat
  columnIsUsed : Nat → Bool
  isFromClauseSubquery : Bool
  outer : Bool

/-- The tables a query joins, and those of the queries around it. -/
structure TableReferences where
  joinedTables : List JoinedTable
  outerQueryRefs : List TableId
  distinct : (joinedTables.map JoinedTable.internalId).Nodup

def TableReferences.position (refs : TableReferences) (table : TableId) : Option Nat :=
  refs.joinedTables.findIdx? fun t => t.internalId == table

/-- `table_mask_from_expr`, the mask as the list of its tables. -/
def tableMaskFromExpr (refs : TableReferences) (e : Expr) : Except LimboError (List Nat) :=
  e.walked.foldlM (fun mask table =>
    match refs.position table with
    | some i => .ok (mask ++ [i])
    | none =>
      if table ∈ refs.outerQueryRefs then .ok mask
      else .error (.parseError "table not found in joined_tables")) []

inductive BinaryExprSide where
  | lhs
  | rhs
deriving DecidableEq

/-- The estimated selectivity is left out: it is used for costs only. -/
structure Constraint where
  whereClausePos : Nat × BinaryExprSide
  operator : CmpOp
  tableColPos : Nat
  lhsMask : List Nat
deriving DecidableEq

def Constraint.getConstrainingExpr (c : Constraint) (whereClause : List WhereTerm) : Option Expr :=
  match whereClause[c.whereClausePos.1]? with
  | none => none
  | some term =>
    match term.expr.asBinaryComponents with
    | .ok (some (lhs, _, rhs)) => if c.whereClausePos.2 = .lhs then some lhs else some rhs
    | _ => none

structure ConstraintRef where
  constraintVecPos : Nat
  indexColPos : Nat
  sortOrder : SortOrder
deriving DecidableEq

/-- Without an index the candidate is the rowid. -/
structure ConstraintUseCandidate where
  index : Option Index
  refs : List ConstraintRef

structure TableConstraints where
  tableId : TableId
  constraints : List Constraint
  candidates : List ConstraintUseCandidate

def oppositeCmpOp : CmpOp → CmpOp
  | .equals => .equals
  | .greater => .less
  | .greaterEquals => .lessEquals
  | .less => .greater
  | .lessEquals => .greaterEquals

/-- What one side of a comparison constrains of a table, `other` being the constraining side. -/
def constraintsOfSide (refs : TableReferences) (table : JoinedTable) (pos : Nat × BinaryExprSide)
    (side : Expr) (op : CmpOp) (other : Expr) : Except LimboError (List Constraint) :=
  let constrained (col : Nat) : Except LimboError (List Constraint) :=
    (tableMaskFromExpr refs other).map fun mask => [⟨pos, op, col, mask⟩]
  match side with
  | .column id col => if id = table.internalId then constrained col else .ok []
  | .rowid id =>
    match table.rowidAlias with
    | some col => if id = table.internalId then constrained col else .ok []
    | none => .ok []
  | _ => .ok []

/-- What a term constrains of a table. A term of a LEFT JOIN is for its right table only. -/
def constraintsOfTerm (refs : TableReferences) (table : JoinedTable) (i : Nat) (term : WhereTerm) :
    Except LimboError (List Constraint) := do
  match ← term.expr.asBinaryComponents with
  | none => return []
  | some (lhs, op, rhs) =>
    if term.fromOuterJoin.any (· ≠ table.internalId) then return []
    let left ← constraintsOfSide refs table (i, .rhs) lhs op rhs
    let right ← constraintsOfSide refs table (i, .lhs) rhs (oppositeCmpOp op) lhs
    return left ++ right

def constraintsOfTerms (refs : TableReferences) (table : JoinedTable) :
    Nat → List WhereTerm → Except LimboError (List Constraint)
  | _, [] => .ok []
  | i, term :: terms => do
    let here ← constraintsOfTerm refs table i term
    let rest ← constraintsOfTerms refs table (i + 1) terms
    return here ++ rest

def isEquality (constraints : List Constraint) (cref : ConstraintRef) : Bool :=
  constraints[cref.constraintVecPos]?.any fun c => c.operator = .equals

/-- `dedup_by_key`: of references in a row to one position the first is kept. -/
def dedupByPos : Option Nat → List ConstraintRef → List ConstraintRef
  | _, [] => []
  | last, cref :: crefs =>
    if last = some cref.indexColPos then dedupByPos last crefs
    else cref :: dedupByPos (some cref.indexColPos) crefs

/-- References to the positions from `i` on, up to the first gap. -/
def contiguousFrom : Nat → List ConstraintRef → List ConstraintRef
  | _, [] => []
  | i, cref :: crefs => if cref.indexColPos = i then cref :: contiguousFrom (i + 1) crefs else []

/-- Up to the first reference that is no equality, with it. -/
def throughInequality (constraints : List Constraint) : List ConstraintRef → List ConstraintRef
  | [] => []
  | cref :: crefs =>
    if isEquality constraints cref then cref :: throughInequality constraints crefs else [cref]

def usablePrefix (constraints : List Constraint) (crefs : List ConstraintRef) : List ConstraintRef :=
  throughInequality constraints (contiguousFrom 0 (dedupByPos none
    (crefs.insertionSort fun a b => a.indexColPos ≤ b.indexColPos)))

def refsTo (constraints : List Constraint) (position : Nat → Option (Nat × SortOrder)) : List ConstraintRef :=
  constraints.zipIdx.filterMap fun (c, i) =>
    (position c.tableColPos).map fun (pos, order) => ⟨i, pos, order⟩

def indexPosition (index : Index) (tableCol : Nat) : Option (Nat × SortOrder) :=
  (index.columnTablePosToIndexPos tableCol).map fun pos =>
    (pos, (index.columns[pos]?.map IndexColumn.order).getD .asc)

def rowidPosition (table : JoinedTable) (tableCol : Nat) : Option (Nat × SortOrder) :=
  if table.rowidAlias = some tableCol then some (0, .asc) else none

/-- `sort_by` puts equalities first, but the comparison it is given says of two of them that each
is less: any order may come out, which `sort` stands for. -/
structure SortConstraints where
  sort : List Constraint → List Constraint
  perm : ∀ constraints, (sort constraints).Perm constraints

def tableConstraints (sorting : SortConstraints) (refs : TableReferences)
    (availableIndexes : String → List Index) (whereClause : List WhereTerm) (table : JoinedTable) :
    Except LimboError TableConstraints :=
  (constraintsOfTerms refs table 0 whereClause).map fun found =>
    let constraints := sorting.sort found
    { tableId := table.internalId
      constraints := constraints
      candidates :=
        (availableIndexes table.name).map (fun index =>
          ⟨some index, usablePrefix constraints (refsTo constraints (indexPosition index))⟩) ++
        [⟨none, usablePrefix constraints (refsTo constraints (rowidPosition table))⟩] }

def constraintsFromWhereClause (sorting : SortConstraints) (whereClause : List WhereTerm)
    (refs : TableReferences) (availableIndexes : String → List Index) :
    Except LimboError (List TableConstraints) :=
  refs.joinedTables.mapM (tableConstraints sorting refs availableIndexes whereClause)

/-- The references whose constraining side needs only tables joined before. -/
def usableConstraintsForJoinOrder (constraints : List Constraint) (crefs : List ConstraintRef)
    (joinedBefore : List Nat) (tableIdx : Nat) : List ConstraintRef :=
  crefs.takeWhile fun cref =>
    constraints[cref.constraintVecPos]?.any fun c =>
      ¬ tableIdx ∈ c.lhsMask ∧ ∀ t ∈ c.lhsMask, t ∈ joinedBefore

theorem dedupByPos_sublist (last : Option Nat) : (dedupByPos last crefs).Sublist crefs := by
  induction crefs generalizing last with
  | nil => exact .refl _
  | cons cref crefs ih =>
    unfold dedupByPos
    split
    · exact .cons _ (ih _)
    · exact .cons_cons _ (ih _)

theorem contiguousFrom_initial (i : Nat) : contiguousFrom i crefs <+: crefs := by
  induction crefs generalizing i with
  | nil => exact prefix_rfl
  | cons cref crefs ih =>
    unfold contiguousFrom
    split
    · exact (prefix_cons_inj _).mpr (ih _)
    · exact nil_prefix

theorem contiguousFrom_pos (hk : (contiguousFrom i crefs)[k]? = some cref) : cref.indexColPos = i + k := by
  induction crefs generalizing i k with
  | nil => cases hk
  | cons first crefs ih =>
    unfold contiguousFrom at hk
    split at hk
    · cases k with
      | zero =>
        cases hk
        assumption
      | succ k =>
        have := ih hk
        omega
    · cases hk

theorem throughInequality_initial : throughInequality constraints crefs <+: crefs := by
  induction crefs with
  | nil => exact prefix_rfl
  | cons cref crefs ih =>
    unfold throughInequality
    split
    · exact (prefix_cons_inj _).mpr ih
    · exact (prefix_cons_inj _).mpr nil_prefix

theorem throughInequality_equality (h : cref ∈ (throughInequality constraints crefs).dropLast) :
    isEquality constraints cref = true := by
  induction crefs with
  | nil => cases h
  | cons first crefs ih =>
    unfold throughInequality at h
    split at h
    · rename_i heq
      cases hre : throughInequality constraints crefs with
      | nil =>
        rw [hre] at h
        cases h
      | cons second rest =>
        rw [hre] at h ih
        rcases mem_cons.mp h with rfl | h
        · exact heq
        · exact ih h
    · cases h

/-- References fit to form a key: to the columns in order, equalities but for the last. -/
structure KeyRefs (constraints : List Constraint) (crefs : List ConstraintRef) : Prop where
  contiguous : ∀ k (cref : ConstraintRef), crefs[k]? = some cref → cref.indexColPos = k
  equalities : ∀ cref ∈ crefs.dropLast, isEquality constraints cref = true

theorem getElem?_of_initial {α : Type} {l l' : List α} {k : Nat} {x : α} (hp : l <+: l')
    (hk : l[k]? = some x) : l'[k]? = some x := by
  obtain ⟨rest,rfl⟩ := hp
  rw [getElem?_append_left (List.getElem?_eq_some_iff.mp hk).1]
  exact hk

theorem KeyRefs.shortened (h : KeyRefs constraints crefs) (hp : crefs' <+: crefs) :
    KeyRefs constraints crefs' := by
  refine ⟨fun k cref hk => h.contiguous k cref (getElem?_of_initial hp hk),fun cref hcr => ?_⟩
  obtain ⟨rest,rfl⟩ := hp
  refine h.equalities cref ?_
  cases rest with
  | nil => simpa using hcr
  | cons first rest =>
    rw [dropLast_append_cons]
    exact mem_append_left _ (dropLast_subset _ hcr)

theorem keyRefs_usablePrefix : KeyRefs constraints (usablePrefix constraints crefs) := by
  refine ⟨fun k cref hk => ?_,fun cref => throughInequality_equality⟩
  simpa using contiguousFrom_pos (getElem?_of_initial (throughInequality_initial) hk)

theorem mem_of_mem_usablePrefix (h : cref ∈ usablePrefix constraints crefs) : cref ∈ crefs := by
  have h := (throughInequality_initial).subset h
  have h := (contiguousFrom_initial _).subset h
  have h := (dedupByPos_sublist _).subset h
  exact (perm_insertionSort _ _).mem_iff.mp h

theorem mem_refsTo (h : cref ∈ refsTo constraints position) :
    ∃ c, constraints[cref.constraintVecPos]? = some c ∧
      position c.tableColPos = some (cref.indexColPos,cref.sortOrder) := by
  obtain ⟨⟨c,i⟩,hmem,hmap⟩ := mem_filterMap.mp h
  obtain ⟨⟨pos,order⟩,hpos,rfl⟩ := Option.map_eq_some_iff.mp hmap
  exact ⟨c,by simpa [mem_zipIdx_iff_getElem?] using hmem,hpos⟩

theorem usable_prefix (constraints : List Constraint) (crefs : List ConstraintRef)
    (joinedBefore : List Nat) (tableIdx : Nat) :
    usableConstraintsForJoinOrder constraints crefs joinedBefore tableIdx <+: crefs :=
  takeWhile_prefix _

theorem usable_mask (h : cref ∈ usableConstraintsForJoinOrder constraints crefs joinedBefore tableIdx) :
    ∃ c, constraints[cref.constraintVecPos]? = some c ∧ ∀ t ∈ c.lhsMask, t ∈ joinedBefore := by
  have hus := mem_takeWhile_imp h
  cases hc : constraints[cref.constraintVecPos]? with
  | none =>
    rw [hc] at hus
    cases hus
  | some c =>
    rw [hc,Option.any_some,decide_eq_true_iff] at hus
    exact ⟨c,rfl,hus.2⟩

theorem position_mem_mask (hm : tableMaskFromExpr refs e = .ok mask) (ht : t ∈ e.walked)
    (hi : refs.position t = some i) : i ∈ mask := by
  have hfo : ∀ (tables : List TableId) (init : List Nat), tables.foldlM (fun mask table =>
        match refs.position table with
        | some i => (.ok (mask ++ [i]) : Except LimboError (List Nat))
        | none =>
          if table ∈ refs.outerQueryRefs then .ok mask
          else .error (.parseError "table not found in joined_tables")) init = .ok mask →
      (∀ i ∈ init, i ∈ mask) ∧ ∀ t ∈ tables, ∀ i, refs.position t = some i → i ∈ mask := by
    intro tables
    induction tables with
    | nil =>
      intro init h
      cases h
      exact ⟨fun _ h => h,nofun⟩
    | cons table tables ih =>
      intro init h
      rw [foldlM_cons] at h
      cases hp : refs.position table with
      | some j =>
        rw [hp] at h
        obtain ⟨hin,hre⟩ := ih _ h
        refine ⟨fun i hi => hin i (by simp [hi]),fun t ht i hi => ?_⟩
        rcases mem_cons.mp ht with rfl | ht
        · rw [hp] at hi
          cases hi
          exact hin _ (by simp)
        · exact hre t ht i hi
      | none =>
        rw [hp] at h
        simp only at h
        split at h
        · obtain ⟨hin,hre⟩ := ih _ h
          refine ⟨hin,fun t ht i hi => ?_⟩
          rcases mem_cons.mp ht with rfl | ht
          · rw [hp] at hi
            cases hi
          · exact hre t ht i hi
        · cases h
  exact (hfo _ _ hm).2 t ht i hi

def Derived (refs : TableReferences) (whereClause : List WhereTerm) (c : Constraint) : Prop :=
  ∃ e, c.getConstrainingExpr whereClause = some e ∧ tableMaskFromExpr refs e = .ok c.lhsMask

theorem constraintsOfSide_spec (hf : constraintsOfSide refs table pos side op other = .ok found)
    (hc : c ∈ found) : c.whereClausePos = pos ∧ tableMaskFromExpr refs other = .ok c.lhsMask := by
  have hmap : ∀ col, (tableMaskFromExpr refs other).map
      (fun mask => [(⟨pos,op,col,mask⟩ : Constraint)]) = .ok found →
      c.whereClausePos = pos ∧ tableMaskFromExpr refs other = .ok c.lhsMask := by
    intro col h
    cases hm : tableMaskFromExpr refs other with
    | error e =>
      rw [hm] at h
      cases h
    | ok mask =>
      rw [hm] at h
      cases h
      cases mem_singleton.mp hc
      exact ⟨rfl,rfl⟩
  unfold constraintsOfSide at hf
  split at hf
  · split at hf
    · exact hmap _ hf
    · cases hf
      cases hc
  · split at hf
    · split at hf
      · exact hmap _ hf
      · cases hf
        cases hc
    · cases hf
      cases hc
  · cases hf
    cases hc

theorem constraintsOfTerm_spec (hf : constraintsOfTerm refs table i term = .ok found) (hc : c ∈ found) :
    ∃ lhs op rhs, term.expr.asBinaryComponents = .ok (some (lhs,op,rhs)) ∧
      (c.whereClausePos = (i,.rhs) ∧ tableMaskFromExpr refs rhs = .ok c.lhsMask ∨
        c.whereClausePos = (i,.lhs) ∧ tableMaskFromExpr refs lhs = .ok c.lhsMask) := by
  obtain ⟨components,hb,hf⟩ := bind_ok hf
  cases components with
  | none =>
    cases hf
    cases hc
  | some sides =>
    obtain ⟨lhs,op,rhs⟩ := sides
    refine ⟨lhs,op,rhs,hb,?_⟩
    dsimp only at hf
    split at hf
    · cases hf
      cases hc
    · obtain ⟨left,hle,hf⟩ := bind_ok hf
      obtain ⟨right,hri,hf⟩ := bind_ok hf
      cases hf
      rcases mem_append.mp hc with hc | hc
      · exact .inl (constraintsOfSide_spec hle hc)
      · exact .inr (constraintsOfSide_spec hri hc)

theorem constraintsOfTerms_spec (done : List WhereTerm)
    (hf : constraintsOfTerms refs table done.length whereClause = .ok found) (hc : c ∈ found) :
    Derived refs (done ++ whereClause) c := by
  induction whereClause generalizing done found with
  | nil =>
    cases hf
    cases hc
  | cons term terms ih =>
    obtain ⟨here,hhe,hf⟩ := bind_ok hf
    obtain ⟨rest,hre,hf⟩ := bind_ok hf
    cases hf
    rcases mem_append.mp hc with hc | hc
    · obtain ⟨lhs,op,rhs,hb,⟨hpos,hma⟩ | ⟨hpos,hma⟩⟩ := constraintsOfTerm_spec hhe hc
      · exact ⟨rhs,by simp [Constraint.getConstrainingExpr,hpos,hb],hma⟩
      · exact ⟨lhs,by simp [Constraint.getConstrainingExpr,hpos,hb],hma⟩
    · have hlen : done.length + 1 = (done ++ [term]).length := by simp
      rw [hlen] at hre
      simpa using ih _ hre hc

def candidatePosition (table : JoinedTable) : Option Index → Nat → Option (Nat × SortOrder)
  | some index => indexPosition index
  | none => rowidPosition table

/-- The constraints of a table, and the references of its candidates. -/
structure Sound (refs : TableReferences) (whereClause : List WhereTerm) (table : JoinedTable)
    (cs : TableConstraints) : Prop where
  tableId : cs.tableId = table.internalId
  derived : ∀ c ∈ cs.constraints, Derived refs whereClause c
  keys : ∀ candidate ∈ cs.candidates, KeyRefs cs.constraints candidate.refs
  positions : ∀ candidate ∈ cs.candidates, ∀ cref ∈ candidate.refs,
    ∃ c, cs.constraints[cref.constraintVecPos]? = some c ∧
      candidatePosition table candidate.index c.tableColPos =
        some (cref.indexColPos, cref.sortOrder)

theorem tableConstraints_sound {sorting : SortConstraints}
    (h : tableConstraints sorting refs availableIndexes whereClause table = .ok cs) :
    Sound refs whereClause table cs := by
  obtain ⟨found,hf,rfl⟩ := map_ok h
  refine ⟨rfl,fun c hc => ?_,fun candidate hca => ?_,fun candidate hca cref hcr => ?_⟩
  · have := constraintsOfTerms_spec [] hf ((sorting.perm found).mem_iff.mp hc)
    simpa using this
  · rcases mem_append.mp hca with hca | hca
    · obtain ⟨index,-,rfl⟩ := mem_map.mp hca
      exact keyRefs_usablePrefix
    · cases mem_singleton.mp hca
      exact keyRefs_usablePrefix
  · rcases mem_append.mp hca with hca | hca
    · obtain ⟨index,-,rfl⟩ := mem_map.mp hca
      exact mem_refsTo (mem_of_mem_usablePrefix hcr)
    · cases mem_singleton.mp hca
      exact mem_refsTo (mem_of_mem_usablePrefix hcr)

theorem candidatePosition_getElem? {order : SortOrder}
    (h : candidatePosition table index col = some (pos,order)) : (match index with
      | some index => index.columns.map IndexColumn.posInTable
      | none => table.rowidAlias.toList)[pos]? = some col := by
  cases index with
  | some index =>
    obtain ⟨pos',hpos,he⟩ := Option.map_eq_some_iff.mp h
    cases he
    obtain ⟨hlt,heq,-⟩ := findIdx?_eq_some_iff_getElem.mp hpos
    simp [hlt,eq_of_beq heq]
  | none =>
    have h : rowidPosition table col = some (pos, order) := h
    unfold rowidPosition at h
    split at h
    · rename_i hal
      cases h
      simp [hal]
    · cases h

end OxiSql.Optimizer
