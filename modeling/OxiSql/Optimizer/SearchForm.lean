import OxiSql.Optimizer.TableAccess

namespace OxiSql.Optimizer
open Lib List Prod Search

namespace Search

def index : Search → Option Index
  | .rowidEq _ => none
  | .seek index _ => index

def components : Search → List KeyColumn
  | .rowidEq cmp => [cmp]
  | .seek _ seekDef => seekDef.key

def columns (table : JoinedTable) (s : Search) : List Nat :=
  match s.index with
  | some index => index.columns.map IndexColumn.posInTable
  | none => table.rowidAlias.toList

def keyColumns (s : Search) : List Nat :=
  s.components.map fun key => key.constraint.tableColPos

/-- `before` are the tables that precede in the join order. -/
structure WellFormed (refs : TableReferences) (table : JoinedTable) (before : List Nat)
    (s : Search) : Prop where
  columns : s.keyColumns <+: s.columns table
  distinct : s.keyColumns.Nodup
  equalities : ∀ key ∈ s.components.dropLast, key.constraint.operator = .equals
  precede : ∀ key ∈ s.components, ∀ t ∈ key.expr.refs, ∀ i, refs.position t = some i → i ∈ before

end Search

structure Installed.Right (refs : TableReferences) (table : JoinedTable) (before : List Nat)
    (x : Installed) : Prop where
  search : ∀ s, x.op = .search s → s.WellFormed refs table before
  consumed : ∀ w ∈ x.marked,
    ∃ s, x.op = .search s ∧ ∃ key ∈ s.components, key.constraint.whereClausePos.1 = w

def Optimized.Right {Cost : Type} (q : Query) (o : Optimized Cost) : Prop :=
  o.installed.length = o.plan.data.length ∧
    ∀ (i t : Nat) (m : AccessMethod Cost) (x : Installed) (table : JoinedTable),
      o.plan.data[i]? = some (t, m) → o.installed[i]? = some x →
      q.refs.joinedTables[t]? = some table →
      x.Right q.refs table ((o.plan.data.take i).map Prod.fst)

section

def IsKeyColumn (constraints : List Constraint) (whereClause : List WhereTerm)
    (cref : ConstraintRef) (key : KeyColumn) : Prop :=
  constraints[cref.constraintVecPos]? = some key.constraint ∧
    key.constraint.getConstrainingExpr whereClause = some key.expr

theorem asSeekKeyColumn_isKeyColumn {key : KeyColumn}
    (h : cref.asSeekKeyColumn constraints whereClause = .ok key) :
    IsKeyColumn constraints whereClause cref key := by
  unfold ConstraintRef.asSeekKeyColumn at h
  split at h
  · cases h
  · rename_i c hc
    split at h
    · cases h
    · rename_i e he
      cases h
      exact ⟨hc,he⟩

theorem buildSeekDef_key (h : buildSeekDefFromConstraints constraints crefs iterDir whereClause = .ok seekDef) :
    List.Forall₂ (IsKeyColumn constraints whereClause) crefs seekDef.key := by
  obtain ⟨key,hkey,h⟩ := bind_ok h
  have hall := (mapM_ok hkey).imp fun _ _ => asSeekKeyColumn_isKeyColumn
  split at h
  · cases h
  · cases h
    exact hall

variable (h : List.Forall₂ (IsKeyColumn constraints whereClause) crefs key)
include h

theorem keyColumns_eq : key.map (fun k => k.constraint.tableColPos) = columnsOf constraints crefs := by
  induction h with
  | nil => rfl
  | cons hk _ ih =>
    unfold columnsOf at ih ⊢
    rw [map_cons,filterMap_cons,hk.1,ih]
    rfl

theorem equalities_iff : (∀ k ∈ key.dropLast, k.constraint.operator = .equals) ↔
      ∀ cref ∈ crefs.dropLast, isEquality constraints cref = true := by
  induction h with
  | nil => simp
  | cons hk hre ih =>
    rename_i cref k crefs keys
    have hone : isEquality constraints cref = true ↔ k.constraint.operator = .equals := by
      simp [isEquality,hk.1]
    cases hre with
    | nil => simp
    | cons hk' hre => simp [hone] at ih ⊢; simp [ih]

def HiddenPrecede (refs : TableReferences) (whereClause : List WhereTerm) (before : List Nat)
    (constraints : List Constraint) (crefs : List ConstraintRef) : Prop :=
  ∀ cref ∈ crefs, ∀ c, constraints[cref.constraintVecPos]? = some c →
    ∀ e, c.getConstrainingExpr whereClause = some e →
      ∀ t ∈ e.hidden, ∀ i, refs.position t = some i → i ∈ before

/-- What is walked over precedes in any case, as the masks tell. -/
theorem precede_iff (hde : ∀ c ∈ constraints, Derived refs whereClause c)
    (hus : ∀ cref ∈ crefs, ∃ c, constraints[cref.constraintVecPos]? = some c ∧ ∀ t ∈ c.lhsMask, t ∈ before) :
    (∀ k ∈ key, ∀ t ∈ k.expr.refs, ∀ i, refs.position t = some i → i ∈ before) ↔
      HiddenPrecede refs whereClause before constraints crefs := by
  constructor
  · intro hall cref hcr c hc e he t ht i hi
    obtain ⟨k,hk,hkey⟩ := forall₂_left h hcr
    obtain ⟨hco,hex⟩ := hkey
    rw [hc] at hco
    cases hco
    rw [he] at hex
    cases hex
    exact hall k hk t (mem_append_right _ ht) i hi
  · intro hhi k hk t ht i hi
    obtain ⟨cref,hcr,hkey⟩ := forall₂_right h hk
    obtain ⟨hco,hex⟩ := hkey
    rcases mem_append.mp ht with hwa | hht
    · obtain ⟨c,hc,hma⟩ := hus cref hcr
      rw [hc] at hco
      cases hco
      obtain ⟨e,he,hem⟩ := hde _ (mem_of_getElem? hc)
      rw [hex] at he
      cases he
      exact hma i (position_mem_mask hem hwa hi)
    · exact hhi cref hcr _ hco _ hex t hht i hi

end

section
variable {Cost : Type} {q : Query} {m : AccessMethod Cost}

def termsOf (constraints : List Constraint) (crefs : List ConstraintRef) : List Nat :=
  crefs.filterMap fun cref => constraints[cref.constraintVecPos]?.map fun c => c.whereClausePos.1

theorem consume_eq (h : consume consumed constraints crefs = .ok marked) :
    marked = termsOf constraints crefs := by
  induction crefs generalizing consumed marked with
  | nil =>
    cases h
    rfl
  | cons cref crefs ih =>
    unfold consume at h
    split at h
    · cases h
    · rename_i c hc
      split at h
      · cases h
      · obtain ⟨rest,hre,h⟩ := bind_ok h
        cases h
        rw [ih hre]
        simp [termsOf,hc]

theorem installSearch_spec (h : installSearch q cs consumed m = .ok x) :
    ∃ s, x.op = .search s ∧ s.index = m.index ∧ x.marked = termsOf cs.constraints m.constraintRefs ∧
      List.Forall₂ (IsKeyColumn cs.constraints q.whereClause) m.constraintRefs s.components := by
  obtain ⟨marked,hma,h⟩ := bind_ok h
  have hma := consume_eq hma
  split at h
  · rename_i index crefs hindex
    obtain ⟨seekDef,hse,h⟩ := bind_ok h
    cases h
    exact ⟨_,rfl,hindex.symm,hma,buildSeekDef_key hse⟩
  · rename_i cref hindex hcr
    obtain ⟨key,hkey,h⟩ := bind_ok h
    rw [hcr,hindex]
    rw [hcr] at hma
    have hkey := asSeekKeyColumn_isKeyColumn hkey
    split at h
    · cases h
      exact ⟨_,rfl,rfl,hma,.cons hkey .nil⟩
    · obtain ⟨seekDef,hse,h⟩ := bind_ok h
      cases h
      exact ⟨_,rfl,rfl,hma,buildSeekDef_key hse⟩
  · cases h

theorem columnsOf_matched (h : ∀ cref ∈ crefs, ∃ c, constraints[cref.constraintVecPos]? = some c) :
    List.Forall₂ (fun (cref : ConstraintRef) col =>
      ∃ c, constraints[cref.constraintVecPos]? = some c ∧ c.tableColPos = col)
      crefs (columnsOf constraints crefs) := by
  induction crefs with
  | nil => exact .nil
  | cons cref crefs ih =>
    obtain ⟨c,hc⟩ := h cref (.head _)
    have hre := ih fun cref hcr => h cref (.tail _ hcr)
    unfold columnsOf at hre ⊢
    rw [filterMap_cons,hc]
    exact .cons ⟨c,hc,rfl⟩ hre

theorem columnsOf_candidate (hso : Sound refs whereClause table cs)
    (hca : candidate ∈ cs.candidates) (hp : crefs <+: candidate.refs)
    (hk : (columnsOf cs.constraints crefs)[k]? = some col) :
    ∃ order, candidatePosition table candidate.index col = some (k,order) := by
  have hma : List.Forall₂ _ crefs (columnsOf cs.constraints crefs) :=
    columnsOf_matched fun cref hcr => by
      obtain ⟨c,hc,-⟩ := hso.positions candidate hca cref (hp.subset hcr)
      exact ⟨c,hc⟩
  obtain ⟨cref,hcr,c,hc,rfl⟩ := forall₂_getElem? hma hk
  obtain ⟨c',hc',hpos⟩ := hso.positions candidate hca cref (hp.subset (mem_of_getElem? hcr))
  rw [hc] at hc'
  cases hc'
  rw [((hso.keys candidate hca).shortened hp).contiguous k cref hcr] at hpos
  exact ⟨_,hpos⟩

theorem installSearch_right_iff (hso : Sound refs q.whereClause table cs)
    (hof : m.Of cs before tableIdx) (hsearch : m.isScan = false) (h : installSearch q cs consumed m = .ok x) :
    x.Right refs table before ↔ HiddenPrecede refs q.whereClause before cs.constraints m.constraintRefs := by
  obtain ⟨s,hs,hindex,hma,hkey⟩ := installSearch_spec h
  rcases hof with ⟨-,hre⟩ | ⟨candidate,hca,hci,hre⟩
  · simp [AccessMethod.isScan,hre] at hsearch
  have hp : m.constraintRefs <+: candidate.refs := hre ▸ usable_prefix ..
  have hpos : ∀ k col : Nat, (columnsOf cs.constraints m.constraintRefs)[k]? = some col →
      ∃ order, candidatePosition table candidate.index col = some (k, order) :=
    fun k col => columnsOf_candidate hso hca hp
  have hco := keyColumns_eq hkey
  have hpr := precede_iff hkey hso.derived fun cref hcr => usable_mask (hre ▸ hcr)
  constructor
  · intro hri
    exact hpr.mp (hri.search s hs).precede
  · intro hhi
    refine ⟨fun s' hs' => ?_,fun w hw => ?_⟩
    · rw [hs] at hs'
      cases hs'
      refine ⟨?_,?_,?_,hpr.mpr hhi⟩
      · unfold keyColumns
        rw [hco,prefix_iff_getElem?]
        intro k hk
        obtain ⟨order,hpl⟩ := hpos k _ (getElem?_eq_getElem hk)
        unfold columns
        rw [hindex,hci]
        exact candidatePosition_getElem? hpl
      · unfold keyColumns
        rw [hco,nodup_iff_getElem?_ne_getElem?]
        intro i j hij hj heq
        obtain ⟨_,hi⟩ := hpos i _ (heq.trans (getElem?_eq_getElem hj))
        obtain ⟨_,hj⟩ := hpos j _ (getElem?_eq_getElem hj)
        rw [hi] at hj
        cases hj
        omega
      · rw [equalities_iff hkey]
        exact ((hso.keys candidate hca).shortened hp).equalities
    · rw [hma] at hw
      obtain ⟨cref,hcr,hte⟩ := mem_filterMap.mp hw
      obtain ⟨k,hk,hcon,-⟩ := forall₂_left hkey hcr
      rw [hcon] at hte
      exact ⟨s,hs,k,hk,Option.some.inj hte⟩

/-- The references an access method comes to be used with: its own, or for a scan that is replaced
all usable ones. -/
def usedRefs (table : JoinedTable) (cs : TableConstraints) (before : List Nat) (tableIdx : Nat)
    (m : AccessMethod Cost) : List ConstraintRef :=
  if m.isScan then
    if before.isEmpty || m.index.isSome || table.isFromClauseSubquery then []
    else usableConstraintsForJoinOrder cs.constraints (allRefs cs.constraints) before tableIdx
  else m.constraintRefs

/-- References an ephemeral index can be searched with: no column is constrained twice, each is one
the index has, and only the last constraint may be no equality. -/
structure EphemeralKey (table : JoinedTable) (constraints : List Constraint)
    (crefs : List ConstraintRef) : Prop where
  distinct : (columnsOf constraints crefs).Nodup
  used : ∀ col ∈ columnsOf constraints crefs, col ∈ table.usedColumns
  equalities : ∀ cref ∈ crefs.dropLast, isEquality constraints cref = true

theorem installScan_spec (hfi : constraintsPerTable.find? (fun cs => cs.tableId == table.internalId) = some cs)
    (hsc : m.isScan = true) (h : installScan q table constraintsPerTable before tableIdx m = .ok x) :
    x.marked = [] ∧ ((∃ dir index, x.op = .scan dir index) ∧ usedRefs table cs before tableIdx m = [] ∨
        ∃ seekDef, x.op = .search (.seek (some (ephemeralIndexBuild table cs.constraints
            (usedRefs table cs before tableIdx m))) seekDef) ∧
          List.Forall₂ (IsKeyColumn cs.constraints q.whereClause)
            (usedRefs table cs before tableIdx m) seekDef.key) := by
  unfold installScan at h
  unfold usedRefs
  rw [if_pos hsc]
  split at h
  · rename_i hfirst
    cases h
    exact ⟨rfl,.inl ⟨⟨_,_,rfl⟩,if_pos hfirst⟩⟩
  · rename_i hfirst
    rw [hfi] at h
    rw [if_neg hfirst]
    dsimp only at h
    split at h
    · rename_i hempty
      cases h
      exact ⟨rfl,.inl ⟨⟨_,_,rfl⟩,List.isEmpty_iff.mp hempty⟩⟩
    · obtain ⟨seekDef,hse,h⟩ := bind_ok h
      cases h
      exact ⟨rfl,.inr ⟨seekDef,rfl,buildSeekDef_key hse⟩⟩

theorem ephemeral_columns : (ephemeralIndexBuild table constraints crefs).columns.map IndexColumn.posInTable =
      table.usedColumns.insertionSort fun a b =>
        (columnsOf constraints crefs).idxOf a ≤ (columnsOf constraints crefs).idxOf b := by
  simp [ephemeralIndexBuild,Function.comp_def]

theorem ephemeral_columns_iff (table : JoinedTable) (constraints : List Constraint)
    (crefs : List ConstraintRef) : (columnsOf constraints crefs <+:
        (ephemeralIndexBuild table constraints crefs).columns.map IndexColumn.posInTable ∧
      (columnsOf constraints crefs).Nodup) ↔
    (columnsOf constraints crefs).Nodup ∧ ∀ col ∈ columnsOf constraints crefs, col ∈ table.usedColumns := by
  rw [ephemeral_columns]
  constructor
  · rintro ⟨hp,hno⟩
    refine ⟨hno,fun col hcol => ?_⟩
    exact (perm_insertionSort _ _).mem_iff.mp (hp.subset hcol)
  · rintro ⟨hno,hus⟩
    exact ⟨rank_initial hno (nodup_range.filter _) hus,hno⟩

theorem installScan_right_iff (hso : Sound refs q.whereClause table cs)
    (hfi : constraintsPerTable.find? (fun cs => cs.tableId == table.internalId) = some cs)
    (hsc : m.isScan = true) (h : installScan q table constraintsPerTable before tableIdx m = .ok x) :
    x.Right refs table before ↔ EphemeralKey table cs.constraints (usedRefs table cs before tableIdx m) ∧
        HiddenPrecede refs q.whereClause before cs.constraints (usedRefs table cs before tableIdx m) := by
  have hus : ∀ cref ∈ usedRefs table cs before tableIdx m,
      ∃ c, cs.constraints[cref.constraintVecPos]? = some c ∧ ∀ t ∈ c.lhsMask, t ∈ before := by
    unfold usedRefs
    rw [if_pos hsc]
    split
    · nofun
    · exact fun cref hcr => usable_mask hcr
  obtain ⟨hma,⟨⟨dir,index,hop⟩,hre⟩ | ⟨seekDef,hop,hkey⟩⟩ := installScan_spec hfi hsc h
  · refine ⟨fun _ => ?_,fun _ => ⟨fun s hs => ?_,fun w hw => ?_⟩⟩
    · rw [hre]
      exact ⟨⟨.nil,nofun,nofun⟩,nofun⟩
    · rw [hop] at hs
      cases hs
    · rw [hma] at hw
      cases hw
  · generalize usedRefs table cs before tableIdx m = crefs at *
    have hco := keyColumns_eq hkey
    have hpr := precede_iff hkey hso.derived hus
    have hfirst := ephemeral_columns_iff table cs.constraints crefs
    constructor
    · intro hri
      obtain ⟨hcol,hdi,heq,hbe⟩ := hri.search _ hop
      unfold keyColumns components at hcol hdi
      rw [hco] at hcol hdi
      obtain ⟨hno,huse⟩ := hfirst.mp ⟨hcol,hdi⟩
      exact ⟨⟨hno,huse,(equalities_iff hkey).mp heq⟩,hpr.mp hbe⟩
    · rintro ⟨⟨hno,huse,heq⟩,hhi⟩
      obtain ⟨hcol,hdi⟩ := hfirst.mpr ⟨hno,huse⟩
      refine ⟨fun s hs => ?_,fun w hw => ?_⟩
      · rw [hop] at hs
        cases hs
        rw [← hco] at hcol hdi
        exact ⟨hcol,hdi,(equalities_iff hkey).mpr heq,hpr.mpr hhi⟩
      · rw [hma] at hw
        cases hw

/-- The condition on a place of the plan: the references a scan is replaced with make a key of an
ephemeral index, and what the subqueries of the constraining expressions refer to precedes. -/
structure Fits (q : Query) (table : JoinedTable) (cs : TableConstraints) (before : List Nat)
    (tableIdx : Nat) (m : AccessMethod Cost) : Prop where
  ephemeral : m.isScan = true → EphemeralKey table cs.constraints (usedRefs table cs before tableIdx m)
  hidden : HiddenPrecede q.refs q.whereClause before cs.constraints
    (usedRefs table cs before tableIdx m)

theorem install_right_iff (hso : Sound q.refs q.whereClause table cs)
    (hfi : constraintsPerTable.find? (fun cs => cs.tableId == table.internalId) = some cs)
    (hta : q.refs.joinedTables[tableIdx]? = some table)
    (hcs : constraintsPerTable[tableIdx]? = some cs) (hof : m.Of cs before tableIdx)
    (h : install q constraintsPerTable before consumed tableIdx m = .ok x) :
    x.Right q.refs table before ↔ Fits q table cs before tableIdx m := by
  unfold install at h
  rw [hta,hcs] at h
  dsimp only at h
  split at h
  · rename_i hsc
    rw [installScan_right_iff hso hfi hsc h]
    exact ⟨fun h => ⟨fun _ => h.1,h.2⟩,fun h => ⟨h.ephemeral hsc,h.hidden⟩⟩
  · rename_i hsearch
    have hre : usedRefs table cs before tableIdx m = m.constraintRefs := if_neg hsearch
    rw [installSearch_right_iff hso hof (eq_false_of_ne_true hsearch) h,← hre]
    exact ⟨fun h => ⟨fun hsc => absurd hsc hsearch,h⟩,Fits.hidden⟩

theorem installAll_spec (h : installAll q constraintsPerTable before consumed data = .ok installed) :
    installed.length = data.length ∧ ∀ (i t : Nat) (m : AccessMethod Cost) (x : Installed),
      data[i]? = some (t,m) → installed[i]? = some x → ∃ consumed,
        install q constraintsPerTable (before ++ (data.take i).map fst) consumed t m = .ok x := by
  induction data generalizing before consumed installed with
  | nil =>
    cases h
    exact ⟨rfl,fun i t m x hda => by cases hda⟩
  | cons entry data ih =>
    obtain ⟨first,hfirst,h⟩ := bind_ok h
    obtain ⟨rest,hre,h⟩ := bind_ok h
    cases h
    obtain ⟨hlen,hst⟩ := ih hre
    refine ⟨by simp [hlen],fun i t m x hda hx => ?_⟩
    cases i with
    | zero =>
      cases hda
      cases hx
      exact ⟨consumed,by simpa using hfirst⟩
    | succ i => simpa using hst i t m x hda hx

theorem Built.of (h : Built joinables data) (hi : data[i]? = some (t,m)) :
    ∃ rhs ∈ joinables, rhs.idx = t ∧ m.Of rhs.cs ((data.take i).map fst) t := by
  induction h with
  | nil => cases hi
  | @snoc data rhs best lhs mem of ih =>
    rcases Nat.lt_or_ge i data.length with hlt | hge
    · rw [getElem?_append_left hlt] at hi
      rw [take_append_of_le_length (Nat.le_of_lt hlt)]
      exact ih hi
    · rw [getElem?_append_right hge] at hi
      obtain ⟨rfl,hen⟩ : i = data.length ∧ (rhs.idx, best) = (t, m) := by
        cases hsub : i - data.length with
        | zero =>
          rw [hsub] at hi
          exact ⟨by omega,Option.some.inj hi⟩
        | succ n =>
          rw [hsub] at hi
          cases hi
      cases hen
      refine ⟨rhs,mem,rfl,?_⟩
      rw [take_left]
      exact of

theorem mem_joinables (h : rhs ∈ q.joinables constraintsPerTable) :
    q.refs.joinedTables[rhs.idx]? = some rhs.table ∧ constraintsPerTable[rhs.idx]? = some rhs.cs := by
  obtain ⟨⟨⟨table,cs⟩,i⟩,hmem,rfl⟩ := mem_map.mp h
  have hzip := mem_zipIdx_iff_getElem?.mp hmem
  exact getElem?_zip_eq_some.mp hzip

theorem find_constraints (hids : (tables.map JoinedTable.internalId).Nodup)
    (h : List.Forall₂ (fun (table : JoinedTable) (cs : TableConstraints) =>
      cs.tableId = table.internalId) tables constraintsPerTable) {i : Nat}
    (hta : tables[i]? = some table) (hcs : constraintsPerTable[i]? = some cs) :
    constraintsPerTable.find? (fun cs => cs.tableId == table.internalId) = some cs := by
  induction h generalizing i with
  | nil => cases hta
  | @cons first firstCs tables rest hid hre ih =>
    rw [map_cons,nodup_cons] at hids
    cases i with
    | zero =>
      cases hta
      cases hcs
      rw [find?_cons_of_pos (by simp [hid])]
    | succ i =>
      have hne : first.internalId ≠ table.internalId := by
        intro heq
        exact hids.1 (heq ▸ mem_map_of_mem (mem_of_getElem? hta))
      rw [find?_cons_of_neg (by simp [hid,hne])]
      exact ih hids.2 hta hcs

/-- All searches are well-formed, and only terms of their keys consumed, exactly when every place
of the plan fits. -/
theorem optimizeTableAccess_right_iff {E : Estimates Cost} {sorting : SortConstraints} {q : Query}
    {consumed : List Nat} {o : Optimized Cost} (h : optimizeTableAccess E sorting q consumed = .ok (some o)) :
    o.Right q ↔ ∀ constraintsPerTable,
        constraintsFromWhereClause sorting q.whereClause q.refs q.availableIndexes = .ok constraintsPerTable →
        ∀ (i t : Nat) (m : AccessMethod Cost) (table : JoinedTable) (cs : TableConstraints),
          o.plan.data[i]? = some (t, m) → q.refs.joinedTables[t]? = some table →
          constraintsPerTable[t]? = some cs →
          Fits q table cs ((o.plan.data.take i).map Prod.fst) t m := by
  obtain ⟨per,hper,h⟩ := bind_ok h
  obtain ⟨plan,hpl,h⟩ := bind_ok h
  replace hper : constraintsFromWhereClause sorting q.whereClause q.refs q.availableIndexes = .ok per := by
    cases hc : constraintsFromWhereClause sorting q.whereClause q.refs q.availableIndexes with
    | error e =>
      rw [hc] at hper
      cases hper
    | ok per' =>
      rw [hc] at hper
      cases hper
      rfl
  cases plan with
  | none => cases h
  | some plan =>
    obtain ⟨installed,hin,h⟩ := bind_ok h
    cases h
    obtain ⟨hlen,hst⟩ := installAll_spec hin
    have hbu := choosePlan_built hpl
    have hso := (mapM_ok hper).imp fun _ _ => tableConstraints_sound
    -- each place of the plan by itself
    have hpla : ∀ (i t : Nat) (m : AccessMethod Cost) (x : Installed) (table : JoinedTable)
        (cs : TableConstraints), plan.data[i]? = some (t, m) → installed[i]? = some x →
        q.refs.joinedTables[t]? = some table → per[t]? = some cs →
        (x.Right q.refs table ((plan.data.take i).map fst) ↔
          Fits q table cs ((plan.data.take i).map fst) t m) := by
      intro i t m x table cs hda hx hta hcs
      obtain ⟨consumed,hins⟩ := hst i t m x hda hx
      obtain ⟨rhs,hrhs,rfl,hof⟩ := hbu.of hda
      obtain ⟨-,hrcs⟩ := mem_joinables hrhs
      rw [hcs] at hrcs
      cases hrcs
      obtain ⟨table',hta',hs⟩ := forall₂_getElem? hso hcs
      rw [hta] at hta'
      cases hta'
      have hfi := find_constraints q.refs.distinct (hso.imp fun _ _ hs => hs.tableId) hta hcs
      exact install_right_iff hs hfi hta hcs hof hins
    constructor
    · rintro ⟨-,hri⟩ per' hper' i t m table cs hda hta hcs
      rw [hper] at hper'
      cases hper'
      have hi : i < installed.length := hlen ▸ (List.getElem?_eq_some_iff.mp hda).1
      have hx : installed[i]? = some installed[i] := getElem?_eq_getElem hi
      exact (hpla i t m _ table cs hda hx hta hcs).mp (hri i t m _ table hda hx hta)
    · intro hfits
      refine ⟨hlen,fun i t m x table hda hx hta => ?_⟩
      obtain ⟨rhs,hrhs,rfl,-⟩ := hbu.of hda
      obtain ⟨-,hcs⟩ := mem_joinables hrhs
      exact (hpla i _ m x table _ hda hx hta hcs).mpr (hfits per hper i _ m table _ hda hta hcs)

end

def selectivity (c : Constraint) : Nat × Nat :=
  if c.operator = .equals then (1, 100) else (4, 10)

/-- Of a million rows for each input row, what the constraints leave. -/
def rowsLeft (constraints : List Constraint) (card : Nat) : Nat × Nat :=
  ((card * 1000000) * (constraints.map fun c => (selectivity c).1).prod,
    (constraints.map fun c => (selectivity c).2).prod)

def pages (rows : Nat × Nat) : Nat :=
  (rows.1 + (rows.2 * 50 - 1)) / (rows.2 * 50)

/-- The column of the rowid is in every index, but an index is not used for it alone. -/
def indexIsCovering (table : JoinedTable) (index : Index) : Bool :=
  !table.isFromClauseSubquery && table.usedColumns != [] && table.usedColumns != table.rowidAlias.toList &&
    table.usedColumns.all fun col => index.columns.any (·.posInTable == col) || table.rowidAlias == some col

def coveringMultiplier (table : JoinedTable) (index : Option Index) : Nat × Nat :=
  if index.any (indexIsCovering table) then (9, 10) else (1, 1)

/-- The estimates for tables without statistics or a primary key. -/
def unanalyzed : Estimates Nat where
  zero := 0
  max := 2 ^ 200
  add := (· + ·)
  lt a b := a < b
  ge a b := b ≤ a
  orderBonus := 1
  scanCost _ card := pages (rowsLeft [] card)
  seekCost table index constraints crefs card :=
    let rows := rowsLeft (crefs.filterMap fun cref => constraints[cref.constraintVecPos]?) card
    let covering := coveringMultiplier table index
    pages (rows.1 * covering.1, rows.2 * covering.2)
  outputCardinality _ constraints card :=
    let rows := rowsLeft constraints card
    (rows.1 + (rows.2 - 1)) / rows.2
  sortingPenalty card := card / 1000

def equalitiesFirst : SortConstraints where
  sort constraints :=
    constraints.filter (fun c => c.operator = .equals) ++
      constraints.filter (fun c => !decide (c.operator = .equals))
  perm _ := filter_append_perm _ _

/-- `t1(a, b)`, `t2(x)`, no index, joined under the given terms. -/
def twoTables (whereClause : List WhereTerm) : Query where
  refs :=
    { joinedTables :=
        [⟨1, "t1", 2, none, fun _ => true, false, false⟩, ⟨2, "t2", 1, none, fun _ => true, false, false⟩]
      outerQueryRefs := []
      distinct := by decide }
  whereClause := whereClause
  availableIndexes _ := []
  orderTarget := none

theorem fits_of_single {Cost : Type} {m : AccessMethod Cost} (hc : cs.constraints = [c])
    (hhi : ∀ e, c.getConstrainingExpr q.whereClause = some e → e.hidden = [])
    (hus : c.tableColPos ∈ table.usedColumns) : Fits q table cs before t m := by
  refine ⟨fun hsc => ?_,fun cref _ c' hc' e he x hx => ?_⟩
  · have hre : usedRefs table cs before t m = [] ∨ usedRefs table cs before t m = [⟨0,c.tableColPos,.asc⟩] := by
      unfold usedRefs
      rw [if_pos hsc]
      split
      · exact .inl rfl
      · have hp := usable_prefix cs.constraints (allRefs cs.constraints) before t
        rw [hc] at hp ⊢
        rcases prefix_cons_iff.mp hp with hnil | ⟨rest,heq,hres⟩
        · exact .inl hnil
        · rw [heq,prefix_nil.mp hres]
          exact .inr rfl
    rcases hre with hre | hre
    · rw [hre]
      exact ⟨.nil,nofun,nofun⟩
    · rw [hre,hc]
      exact ⟨nodup_singleton _,fun col hcol => by cases mem_singleton.mp hcol; exact hus,nofun⟩
  · rw [hc] at hc'
    cases mem_singleton.mp (mem_of_getElem? hc')
    rw [hhi e he] at hx
    cases hx

theorem ok_of_join {ε α : Type} {r : Except ε (Option α)} {a : α}
    (h : r.toOption.join = some a) : r = .ok (some a) := by
  cases r with
  | error e => cases h
  | ok o => exact congrArg Except.ok h

/-- `t2.x = t1.a` -/
def joinedOnEquality : Query :=
  twoTables [⟨.compare (.column 2 0) .equals (.column 1 0), none⟩]

theorem joinedOnEquality_right :
    ∃ o, optimizeTableAccess unanalyzed equalitiesFirst joinedOnEquality [] = .ok (some o) ∧
      o.Right joinedOnEquality := by
  have hso : (optimizeTableAccess unanalyzed equalitiesFirst joinedOnEquality
      []).toOption.join.isSome = true := by decide
  obtain ⟨o,ho⟩ := Option.isSome_iff_exists.mp hso
  refine ⟨o,ok_of_join ho,(optimizeTableAccess_right_iff (ok_of_join ho)).mpr ?_⟩
  intro per hper i t m table cs _ hta hcs
  have hone : ∃ c, cs.constraints = [c] ∧
      (∀ e, c.getConstrainingExpr joinedOnEquality.whereClause = some e → e.hidden = []) ∧
      c.tableColPos ∈ table.usedColumns := by
    cases hper
    match t with
    | 0 | 1 =>
      cases hcs
      cases hta
      refine ⟨_,rfl,fun e he => ?_,by decide⟩
      cases he
      rfl
    | _ + 2 => cases hcs
  obtain ⟨c,hc,hhi,hus⟩ := hone
  exact fits_of_single hc hhi hus

/-- `t2.x > t1.a AND t2.x < t1.b` -/
def joinedOnRanges : Query :=
  twoTables [⟨.compare (.column 2 0) .greater (.column 1 0), none⟩,
    ⟨.compare (.column 2 0) .less (.column 1 1), none⟩]

def keysOf {Cost : Type} (o : Optimized Cost) : List Nat × List (List Nat) :=
  (o.plan.data.map Prod.fst, o.installed.map fun x =>
    match x.op with
    | .search s => s.keyColumns
    | .scan .. => [])

/-- Both ranges become components of the key of the ephemeral index. -/
theorem joinedOnRanges_wrong :
    ∃ o, optimizeTableAccess unanalyzed equalitiesFirst joinedOnRanges [] = .ok (some o) ∧
      ¬ o.Right joinedOnRanges := by
  have hke : (optimizeTableAccess unanalyzed equalitiesFirst joinedOnRanges
      []).toOption.join.map keysOf = some ([0,1], [[],[0,0]]) := by decide
  obtain ⟨o,ho,hke⟩ := Option.map_eq_some_iff.mp hke
  refine ⟨o,ok_of_join ho,fun hri => ?_⟩
  obtain ⟨hda,hin⟩ := mk.inj hke
  obtain ⟨_,_,hda,-,hre⟩ := map_eq_cons_iff.mp hda
  obtain ⟨⟨t,m⟩,_,rfl,ht,-⟩ := map_eq_cons_iff.mp hre
  obtain ⟨_,_,hin,-,hre⟩ := map_eq_cons_iff.mp hin
  obtain ⟨x,_,rfl,hx,-⟩ := map_eq_cons_iff.mp hre
  cases ht
  obtain ⟨hsearch,-⟩ := hri.2 1 1 m x _ (by rw [hda]; rfl) (by rw [hin]; rfl) rfl
  cases hop : x.op with
  | scan dir index =>
    rw [hop] at hx
    cases hx
  | search s =>
    rw [hop] at hx
    have hx : s.keyColumns = [0,0] := hx
    have hdi := (hsearch s hop).distinct
    rw [hx] at hdi
    exact absurd hdi (by decide)

end OxiSql.Optimizer
