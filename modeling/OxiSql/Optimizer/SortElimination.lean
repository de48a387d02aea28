import OxiSql.Optimizer.RowOrder
import OxiSql.Optimizer.SearchForm

namespace OxiSql.Optimizer
open Btree Lib Translate OxiSql.Types List JoinedTable Ordering

theorem directed_swap : (directed order o).swap = directed order o.swap := by
  cases order <;> rfl

section
variable {κ : Type}

theorem lex_append : lex f (a ++ b) = (lex f a).then (lex f b) := by
  induction a with
  | nil => rfl
  | cons k a ih =>
    show (f k).then (lex f (a ++ b)) = ((f k).then (lex f a)).then (lex f b)
    rw [ih,then_assoc]

theorem lex_swap (keys : List κ) : (lex f keys).swap = lex (fun k => (f k).swap) keys := by
  induction keys with
  | nil => rfl
  | cons k keys ih =>
    show ((f k).then (lex f keys)).swap = (f k).swap.then _
    rw [swap_then,ih]
    rfl

theorem lex_congr {keys : List κ} (h : ∀ k ∈ keys, f k = g k) : lex f keys = lex g keys := by
  induction keys with
  | nil => rfl
  | cons k keys ih =>
    show (f k).then (lex f keys) = (g k).then (lex g keys)
    rw [h k (.head _),ih fun k hk => h k (.tail _ hk)]

theorem lex_eq {keys : List κ} (h : ∀ k ∈ keys, f k = .eq) : lex f keys = .eq := by
  rw [lex_congr h]
  induction keys with
  | nil => rfl
  | cons k keys ih => exact ih fun k hk => h k (.tail _ hk)

theorem then_ne_gt {a b : Ordering} (h : a.then b ≠ .gt) : a ≠ .gt := by
  rintro rfl
  exact h rfl

end

def ahead (dir : IterationDirection) (R : Row → Row → Prop) (r s : Row) : Prop :=
  match dir with
  | .forwards => R r s
  | .backwards => R s r

theorem along_pairwise (h : l.Pairwise R) : (along dir l).Pairwise (ahead dir R) := by
  cases dir with
  | forwards => exact h
  | backwards => exact pairwise_reverse.mpr h

section
variable {Cost : Type} {collations : Collations} {level : Level collations}

def Level.compareOwn (level : Level collations) (own : List ColumnOrder) (r s : Row) : Ordering :=
  lex (fun t => directed t.order (level.table.compareColumn collations r s t.columnNo)) own

/-- The rows found agree on the columns of the index before that of the rowid. -/
def Level.AgreesUpToRowid (level : Level collations) (index : Index) (before : List (Option Row)) : Prop :=
  ∃ first column rest, index.columns = first ++ column :: rest ∧
    level.table.rowidAlias = some column.posInTable ∧
    ∀ r ∈ level.walk before, ∀ s ∈ level.walk before, ∀ c ∈ first,
      level.table.compareColumn collations r s c.posInTable = .eq

def AccessMethod.width (m : AccessMethod Cost) : Nat :=
  (m.index.map fun index => index.columns.length).getD 1

/-- What the check of the plan leaves open at a level: that the columns matched, and no others, are
its own, that an automatic index in place of the table goes by the rowid, and that no two rows tie
on the columns when there are more to come. -/
structure Level.Keeps (level : Level collations) (m : AccessMethod Cost)
    (targets : List ColumnOrder) (before : List (Option Row)) : Prop where
  own : ∀ t ∈ targets.take m.width, t.tableId = level.table.internalId
  others : ∀ t ∈ targets.drop m.width, t.tableId ≠ level.table.internalId
  auto : m.index = none → ∀ index seekDef, level.op = .search (.seek (some index) seekDef) →
    level.AgreesUpToRowid index before
  apart : (level.walk before).Pairwise fun r s =>
    targets.drop m.width ≠ [] → level.compareOwn (targets.take m.width) r s ≠ .eq

def Keeps : List (Nat × AccessMethod Cost) → List (Level collations) → List ColumnOrder →
    List (Option Row) → Prop
  | (_, m) :: data, level :: levels, target :: targets, before =>
    level.Keeps m (target :: targets) before ∧ ∀ row ∈ level.visit before,
      Keeps data levels ((target :: targets).drop m.width) (before ++ [row])
  | _, _, _, _ => True

/-- The operations that carry out an access method. -/
inductive Serves (m : AccessMethod Cost) : Operation → Prop
  | scan : Serves m (.scan m.iterDir m.index)
  | rowidEq (cmp : KeyColumn) (hindex : m.index = none) : Serves m (.search (.rowidEq cmp))
  | seek (seekDef : SeekDef) (hdir : seekDef.iterDir = m.iterDir) :
    Serves m (.search (.seek m.index seekDef))
  | auto (index : Index) (seekDef : SeekDef) (hindex : m.index = none)
    (hdir : seekDef.iterDir = m.iterDir) (hasc : ∀ c ∈ index.columns, c.order = .asc) :
    Serves m (.search (.seek (some index) seekDef))

theorem ahead_imp (h : ahead dir R r s)
    (himp : ∀ a b, (a = r ∧ b = s) ∨ (a = s ∧ b = r) → R a b → S a b) : ahead dir S r s := by
  cases dir with
  | forwards => exact himp r s (.inl ⟨rfl,rfl⟩) h
  | backwards => exact himp s r (.inr ⟨rfl,rfl⟩) h

variable {table : JoinedTable}

theorem compareColumn_alias (h : table.rowidAlias = some col) :
    table.compareColumn collations r s col = compare r.rowid s.rowid := by
  simp [JoinedTable.compareColumn,JoinedTable.read,h,Value.compareWith]

theorem rowid_le_of_compareEntries (hco : index.columns = first ++ column :: rest)
    (hal : table.rowidAlias = some column.posInTable) (hasc : column.order = .asc)
    (hfirst : ∀ c ∈ first, table.compareColumn collations r s c.posInTable = .eq)
    (h : table.compareEntries collations index r s = .lt) : r.rowid ≤ s.rowid := by
  unfold compareEntries at h
  rw [hco,lex_append,@lex_eq _ _ first] at h
  · by_contra hlt
    have hgt : compare r.rowid s.rowid = .gt := compare_gt_iff_gt.mpr (not_le.mp hlt)
    have hcol : directed column.order (table.compareColumn collations r s column.posInTable) = .gt := by
      rw [hasc,compareColumn_alias hal]
      exact hgt
    change (Ordering.then .eq (Ordering.then (directed column.order _) _)).then _ = _ at h
    rw [hcol] at h
    cases h
  · intro c hc
    rw [hfirst c hc]
    cases c.order <;> rfl

theorem walk_rows (hop : level.op = .scan dir none ∨
      ∃ seekDef : SeekDef, seekDef.iterDir = dir ∧ level.op = .search (.seek none seekDef)) :
    (level.walk before).Pairwise (ahead dir fun r s => r.rowid ≤ s.rowid) := by
  rcases hop with hop | ⟨seekDef,rfl,hop⟩ <;> simp only [Level.walk,hop] <;>
    exact (along_pairwise (level.contents.rising.imp le_of_lt)).filter _

theorem walk_entries {dir : IterationDirection} {index : Index} (hop : level.op = .scan dir (some index) ∨
      ∃ seekDef : SeekDef, seekDef.iterDir = dir ∧ level.op = .search (.seek (some index) seekDef)) :
    (level.walk before).Pairwise (ahead dir fun r s => level.table.compareEntries collations index r s = .lt) := by
  rcases hop with hop | ⟨seekDef,rfl,hop⟩ <;> simp only [Level.walk,hop] <;>
    exact (along_pairwise (level.contents.ordered index)).filter _

theorem walk_rowid (hse : Serves m level.op) (hindex : m.index = none)
    (hau : ∀ index seekDef, level.op = .search (.seek (some index) seekDef) →
      level.AgreesUpToRowid index before) :
    (level.walk before).Pairwise (ahead m.iterDir fun r s => r.rowid ≤ s.rowid) := by
  generalize hop : level.op = op at hse
  cases hse with
  | scan => exact walk_rows (.inl (hindex ▸ hop))
  | rowidEq cmp =>
    simp only [Level.walk,hop]
    cases level.contents.rows.find? (level.found before) <;> simp
  | seek seekDef hdir => exact walk_rows (.inr ⟨seekDef,hdir,hindex ▸ hop⟩)
  | auto index seekDef _ hdir hasc =>
    obtain ⟨first,column,rest,hco,hal,hag⟩ := hau index seekDef hop
    have hen := @walk_entries _ level before _ index (.inr ⟨seekDef,hdir,hop⟩)
    refine hen.imp_of_mem fun {r s} hr hs h => ahead_imp h fun a b hab hlt => ?_
    refine rowid_le_of_compareEntries hco hal (hasc column (by simp [hco])) ?_ hlt
    rcases hab with ⟨rfl,rfl⟩ | ⟨rfl,rfl⟩
    · exact hag a hr b hs
    · exact hag a hs b hr

theorem walk_index (hse : Serves m level.op) (hindex : m.index = some index) : (level.walk before).Pairwise
      (ahead m.iterDir fun r s => level.table.compareEntries collations index r s = .lt) := by
  generalize hop : level.op = op at hse
  cases hse with
  | scan => exact walk_entries (.inl (hindex ▸ hop))
  | rowidEq cmp hnone =>
    rw [hindex] at hnone
    cases hnone
  | seek seekDef hdir => exact walk_entries (.inr ⟨seekDef,hdir,hindex ▸ hop⟩)
  | auto _ _ hnone =>
    rw [hindex] at hnone
    cases hnone

/-- A column of an index that goes the way of a column of the target. -/
def Matched (dir : IterationDirection) (column : IndexColumn) (t : ColumnOrder) : Prop :=
  t.columnNo = column.posInTable ∧ (dir = .forwards ↔ t.order = column.order)

theorem matchIndexColumns_some (h : matchIndexColumns dir columns targets = some rest) :
    rest = targets.drop columns.length ∧ ∃ first more, columns = first ++ more ∧
      List.Forall₂ (Matched dir) first (targets.take columns.length) := by
  induction columns generalizing targets with
  | nil =>
    cases h
    exact ⟨rfl,[],[],rfl,.nil⟩
  | cons column columns ih =>
    cases targets with
    | nil =>
      cases h
      exact ⟨rfl,[],_,rfl,.nil⟩
    | cons t targets =>
      unfold matchIndexColumns at h
      split at h
      · rename_i hma
        obtain ⟨hre,first,more,hco,hfirst⟩ := ih h
        exact ⟨hre,column :: first,more,by rw [hco]; rfl,.cons hma hfirst⟩
      · cases h

theorem directed_matched {dir : IterationDirection} {c : IndexColumn} {t : ColumnOrder}
    (h : Matched dir c t) (table : JoinedTable) (r s : Row) :
    ahead dir (fun a b => directed t.order (table.compareColumn collations r s t.columnNo) =
      directed c.order (table.compareColumn collations a b c.posInTable)) r s := by
  obtain ⟨hcol,hdir⟩ := h
  rw [hcol]
  cases dir with
  | forwards =>
    have hor : t.order = c.order := hdir.mp rfl
    exact congrArg (directed · _) hor
  | backwards =>
    have hor : t.order ≠ c.order := fun heq => nomatch hdir.mpr heq
    have hsw : table.compareColumn collations s r c.posInTable =
        (table.compareColumn collations r s c.posInTable).swap := (Value.compareWith_swap _ _).symm
    show directed t.order _ = directed c.order (table.compareColumn collations s r c.posInTable)
    rw [hsw]
    cases hc : c.order <;> cases ht : t.order <;> first
      | rfl
      | exact absurd (ht.trans hc.symm) hor
      | exact (Ordering.swap_swap).symm

theorem compareOwn_matched {dir : IterationDirection} {first : List IndexColumn}
    {own : List ColumnOrder} (h : List.Forall₂ (Matched dir) first own) (r s : Row) :
    ahead dir (fun a b => level.compareOwn own r s = lex (fun c : IndexColumn =>
      directed c.order (level.table.compareColumn collations a b c.posInTable)) first) r s := by
  induction h with
  | nil => cases dir <;> rfl
  | @cons c t first own hct hre ih =>
    have hhe := @directed_matched collations _ _ _ hct level.table r s
    cases dir with
    | forwards | backwards => exact congrArg₂ Ordering.then hhe ih

/-- A level visits its rows in the order of its own columns. -/
theorem walk_ordered (hse : Serves m level.op) (hke : level.Keeps m (target :: targets) before)
    (hma : match m.index with
      | none => level.table.rowidAlias = some target.columnNo ∧
          (m.iterDir = .forwards ↔ target.order = .asc) ∧ rest = targets
      | some index => matchIndexColumns m.iterDir index.columns (target :: targets) = some rest) :
    rest = (target :: targets).drop m.width ∧ (level.walk before).Pairwise fun r s =>
      level.compareOwn ((target :: targets).take m.width) r s ≠ .gt := by
  cases hindex : m.index with
  | none =>
    rw [hindex] at hma
    obtain ⟨hal,hdir,rfl⟩ := hma
    have hwi : m.width = 1 := by simp [AccessMethod.width,hindex]
    rw [hwi]
    refine ⟨rfl,(walk_rowid hse hindex (hke.auto hindex)).imp fun {r s} h => ?_⟩
    show (directed target.order (level.table.compareColumn collations r s target.columnNo)).then .eq ≠ _
    rw [compareColumn_alias hal,then_eq]
    cases hite : m.iterDir with
    | forwards =>
      rw [hite] at hdir h
      rw [hdir.mp rfl]
      exact compare_le_iff_le.mpr h
    | backwards =>
      rw [hite] at hdir h
      have hde : target.order = .desc := by
        cases hor : target.order with
        | asc => exact nomatch hdir.mpr hor
        | desc => rfl
      rw [hde]
      show (compare r.rowid s.rowid).swap ≠ .gt
      rw [← Std.OrientedOrd.eq_swap]
      exact compare_le_iff_le.mpr h
  | some index =>
    rw [hindex] at hma
    obtain ⟨hre,first,more,hco,hfirst⟩ := matchIndexColumns_some hma
    have hwi : m.width = index.columns.length := by simp [AccessMethod.width,hindex]
    rw [hwi]
    refine ⟨hre,(walk_index hse hindex).imp fun {r s} h => ?_⟩
    have hown := @compareOwn_matched _ level _ _ _ hfirst r s
    have hgt : ∀ a b, level.table.compareEntries collations index a b = .lt → lex (fun c : IndexColumn =>
          directed c.order (level.table.compareColumn collations a b c.posInTable)) first ≠ .gt := by
      intro a b hlt
      unfold compareEntries at hlt
      rw [hco,lex_append] at hlt
      exact then_ne_gt (then_ne_gt (hlt.trans_ne nofun))
    cases hdir : m.iterDir with
    | forwards =>
      rw [hdir] at hown h
      rw [hown]
      exact hgt r s h
    | backwards =>
      rw [hdir] at hown h
      rw [hown]
      exact hgt s r h

theorem valueOf_cons (rows : List (Option Row)) :
    valueOf (level :: levels) (row :: rows) level.table.internalId col = level.value col row :=
  if_pos rfl

theorem valueOf_cons_ne {id : TableId} (h : id ≠ level.table.internalId) :
    valueOf (level :: levels) (row :: rows) id col = valueOf levels rows id col :=
  if_neg h.symm

theorem compareTarget_cons {levels : List (Level collations)} {own rest : List ColumnOrder}
    (hown : ∀ t ∈ own, t.tableId = level.table.internalId)
    (hre : ∀ t ∈ rest, t.tableId ≠ level.table.internalId) (r s : Option Row) (l l' : List (Option Row)) :
    compareTarget (level :: levels) (own ++ rest) (r :: l) (s :: l') =
      (lex (fun t => directed t.order ((level.value t.columnNo r).compareWith
        (collations level.table.internalId t.columnNo) (level.value t.columnNo s))) own).then
          (compareTarget levels rest l l') := by
  unfold compareTarget
  rw [lex_append]
  congr 1
  · refine lex_congr fun t ht => ?_
    rw [hown t ht,valueOf_cons,valueOf_cons]
  · refine lex_congr fun t ht => ?_
    rw [valueOf_cons_ne (hre t ht),valueOf_cons_ne (hre t ht)]

theorem visit_cases : level.visit before = [none] ∨ level.visit before = (level.walk before).map some := by
  unfold Level.visit
  dsimp only
  split
  · exact .inl rfl
  · exact .inr rfl

theorem visit_pairwise (h : (level.walk before).Pairwise R)
    (himp : ∀ r s, R r s → S (some r) (some s)) : (level.visit before).Pairwise S := by
  rcases visit_cases with hv | hv
  · rw [hv]
    exact pairwise_singleton _ _
  · rw [hv]
    exact pairwise_map.mpr (h.imp (himp _ _))

variable {data : List (Nat × AccessMethod Cost)}

theorem satisfied_cons (hta : joinedTables[t]? = some table)
    (h : planSatisfiesOrderTarget joinedTables ((t,m) :: data) (target :: targets) = true) :
    ∃ rest, (match m.index with
      | none => table.rowidAlias = some target.columnNo ∧
          (m.iterDir = .forwards ↔ target.order = .asc) ∧ rest = targets
      | some index => matchIndexColumns m.iterDir index.columns (target :: targets) = some rest) ∧
      planSatisfiesOrderTarget joinedTables data rest = true := by
  unfold planSatisfiesOrderTarget at h
  rw [hta] at h
  dsimp only at h
  split at h
  · cases h
  · cases hindex : m.index with
    | none =>
      rw [hindex] at h
      dsimp only at h
      split at h
      case isTrue hal => exact ⟨targets,⟨hal.1,hal.2,rfl⟩,h⟩
      case isFalse => cases h
    | some index =>
      rw [hindex] at h
      dsimp only at h
      split at h
      case _ => cases h
      case _ rest hma => exact ⟨rest,hma,h⟩

theorem nestedLoop_ordered {target : List ColumnOrder}
    (hle : List.Forall₂ (fun (entry : Nat × AccessMethod Cost) (level : Level collations) =>
      joinedTables[entry.1]? = some level.table ∧ Serves entry.2 level.op) data levels)
    (hsa : planSatisfiesOrderTarget joinedTables data target = true)
    (hke : Keeps data levels target before) :
    (nestedLoop levels before).Pairwise fun l r => compareTarget levels target l r ≠ .gt := by
  induction hle generalizing target before with
  | nil => exact pairwise_singleton _ _
  | @cons entry level data levels hen _ ih =>
    obtain ⟨t,m⟩ := entry
    obtain ⟨hta,hse⟩ := hen
    cases target with
    | nil => exact pairwise_of_forall fun l r => nofun
    | cons first targets =>
      obtain ⟨hke,hin⟩ := hke
      obtain ⟨rest,hma,hre⟩ := satisfied_cons hta hsa
      obtain ⟨rfl,hwa⟩ := walk_ordered hse hke hma
      have hsp := take_append_drop m.width (first :: targets)
      have hco := fun r s l l' => hsp ▸ @compareTarget_cons _ _ levels _ _ hke.own hke.others r s l l'
      refine pairwise_flatMap.mpr ⟨fun row hrow => ?_,?_⟩
      · refine pairwise_map.mpr ((ih hre (hin row hrow)).imp fun {l r} h => ?_)
        rw [hco,lex_eq fun t _ => ?_]
        · exact h
        · rw [Value.compareWith_self]
          cases t.order <;> rfl
      · refine visit_pairwise (hwa.and hke.apart) fun r s hrs x hx y hy => ?_
        obtain ⟨l,-,rfl⟩ := mem_map.mp hx
        obtain ⟨l',-,rfl⟩ := mem_map.mp hy
        rw [hco]
        change (level.compareOwn _ r s).then _ ≠ _
        cases hown : level.compareOwn ((first :: targets).take m.width) r s with
        | lt => nofun
        | gt => exact absurd hown hrs.1
        | eq =>
          -- a tie, so there are no columns left
          have hlast : (first :: targets).drop m.width = [] := by
            by_contra hmo
            exact hrs.2 hmo hown
          rw [hlast]
          nofun

theorem buildSeekDef_dir (h : buildSeekDefFromConstraints constraints crefs iterDir whereClause = .ok seekDef) :
    seekDef.iterDir = iterDir := by
  obtain ⟨key,-,h⟩ := bind_ok h
  split at h
  · cases h
  · cases h
    rfl

theorem ephemeral_asc : ∀ c ∈ (ephemeralIndexBuild table constraints crefs).columns, c.order = .asc := by
  intro c hc
  obtain ⟨pos,-,rfl⟩ := mem_map.mp hc
  rfl

variable {before : List Nat}

theorem installScan_serves (h : installScan q table per before tableIdx m = .ok x) : Serves m x.op := by
  unfold installScan at h
  dsimp only at h
  split at h
  · cases h
    exact .scan
  · rename_i hfirst
    split at h
    · cases h
      exact .scan
    · split at h
      · cases h
        exact .scan
      · obtain ⟨seekDef,hse,h⟩ := bind_ok h
        cases h
        have hindex : m.index = none := by
          simp only [Bool.or_eq_true,not_or,Bool.not_eq_true,Option.isSome_eq_false_iff] at hfirst
          exact Option.isNone_iff_eq_none.mp hfirst.1.2
        exact .auto _ seekDef hindex (buildSeekDef_dir hse) ephemeral_asc

theorem installSearch_serves (h : installSearch q cs consumed m = .ok x) : Serves m x.op := by
  obtain ⟨marked,-,h⟩ := bind_ok h
  split at h
  case _ index hindex =>
    obtain ⟨seekDef,hse,h⟩ := bind_ok h
    cases h
    rw [← hindex]
    exact .seek seekDef (buildSeekDef_dir hse)
  case _ hindex _ =>
    obtain ⟨key,-,h⟩ := bind_ok h
    split at h
    · cases h
      exact .rowidEq key hindex
    · obtain ⟨seekDef,hse,h⟩ := bind_ok h
      cases h
      rw [← hindex]
      exact .seek seekDef (buildSeekDef_dir hse)
  case _ => cases h

theorem installAll_serves (h : installAll q per before consumed data = .ok installed) :
    List.Forall₂ (fun entry (x : Installed) => Serves entry.2 x.op) data installed := by
  induction data generalizing before consumed installed with
  | nil =>
    cases h
    exact .nil
  | cons entry data ih =>
    obtain ⟨first,hfirst,h⟩ := bind_ok h
    obtain ⟨rest,hre,h⟩ := bind_ok h
    cases h
    refine .cons ?_ (ih hre)
    unfold install at hfirst
    split at hfirst
    · split at hfirst
      · exact installScan_serves hfirst
      · exact installSearch_serves hfirst
    · cases hfirst

/-- Levels for the tables of a plan, with what is installed for each and any contents. -/
structure CarriesOut (q : Query) (o : Optimized Cost) (levels : List (Level collations)) : Prop where
  tables : List.Forall₂ (fun entry level => q.refs.joinedTables[entry.1]? = some level.table)
    o.plan.data levels
  ops : o.installed.map Installed.op = levels.map Level.op

/-- Where the sorter is dropped, the rows of the loop come in its order under the condition. -/
theorem dropped_sort_ordered {E : Estimates Cost} {sorting : SortConstraints} {q : Query}
    {consumed : List Nat} {o : Optimized Cost} {target : List ColumnOrder} {levels : List (Level collations)}
    (hoptimized : optimizeTableAccess E sorting q consumed = .ok (some o))
    (hsatisfied : planSatisfiesOrderTarget q.refs.joinedTables o.plan.data target = true)
    (hlevels : CarriesOut q o levels) (hkeeps : Keeps o.plan.data levels target [])
    (kept : List (Option Row) → Bool) :
    ((nestedLoop levels []).filter kept).Pairwise fun l r => compareTarget levels target l r ≠ .gt := by
  obtain ⟨per,-,h⟩ := bind_ok hoptimized
  obtain ⟨plan,-,h⟩ := bind_ok h
  cases plan with
  | none => cases h
  | some plan =>
    obtain ⟨installed,hin,h⟩ := bind_ok h
    cases h
    have hse : List.Forall₂ (fun entry (level : Level collations) => Serves entry.2 level.op)
        plan.data levels := by
      have hops := List.forall₂_map_right_iff.mpr (installAll_serves hin)
      rw [hlevels.ops] at hops
      exact List.forall₂_map_right_iff.mp hops
    have hbo := hlevels.tables.mp (fun _ _ ht hs => And.intro ht hs) hse
    exact (nestedLoop_ordered hbo hsatisfied hkeeps).filter _

end

theorem compareEntries_swap (table : JoinedTable) :
    (table.compareEntries collations index r s).swap = table.compareEntries collations index s r := by
  unfold compareEntries
  rw [swap_then,lex_swap,← Std.OrientedOrd.eq_swap]
  congr 1
  refine lex_congr fun c _ => ?_
  rw [directed_swap,JoinedTable.compareColumn,Value.compareWith_swap]
  rfl

def Contents.single (collations : Collations) (table : JoinedTable) (row : Row) :
    Contents collations table where
  rows := [row]
  rising := pairwise_singleton _ _
  entries _ := [row]
  perm _ := .refl _
  ordered _ := pairwise_singleton _ _

def Contents.pair (collations : Collations) (table : JoinedTable) (r s : Row)
    (h : r.rowid < s.rowid) : Contents collations table where
  rows := [r, s]
  rising := by simpa using h
  entries index := if table.compareEntries collations index r s = .lt then [r, s] else [s, r]
  perm index := by
    split
    · exact .refl _
    · exact .swap r s []
  ordered index := by
    split
    case isTrue hlt => simpa using hlt
    case isFalse hlt =>
      have hne : table.compareEntries collations index r s ≠ .eq := by
        intro heq
        have hrowid := (Ordering.then_eq_eq.mp heq).2
        exact absurd (compare_eq_iff_eq.mp hrowid) (ne_of_lt h)
      have hgt : table.compareEntries collations index s r = .lt := by
        rw [← compareEntries_swap]
        cases hrs : table.compareEntries collations index r s with
        | lt => exact absurd hrs hlt
        | eq => exact absurd hrs hne
        | gt => rfl
      simpa using hgt

/-- `t1(a, b)` with an index on `a`, `t2(id INTEGER PRIMARY KEY)`. -/
def t1 : JoinedTable :=
  ⟨1, "t1", 2, none, fun _ => true, false, false⟩

def t2 : JoinedTable :=
  ⟨2, "t2", 1, some 0, fun _ => true, false, false⟩

def byA : Index :=
  ⟨"by_a", [⟨0, .asc⟩], false, false⟩

/-- `SELECT t1.b, t2.id FROM t1, t2 WHERE t1.a = 7 ORDER BY t1.a, t2.id` -/
def orderedByBoth : Query where
  refs := ⟨[t1, t2], [], by decide⟩
  whereClause := [⟨.compare (.column 1 0) .equals .literal, none⟩]
  availableIndexes name := if name = "t1" then [byA] else []
  orderTarget := some [⟨1, 0, .asc⟩, ⟨2, 0, .asc⟩]

/-- A search of the index for `t1`, and for each of its rows a scan of `t2`. -/
def searchThenScan : Optimized Nat where
  plan := ⟨[(0, ⟨200, .forwards, some byA, [⟨0, 0, .asc⟩]⟩), (1, ⟨200000000, .forwards, none, []⟩)],
    10000000000, 200000200⟩
  installed :=
    [⟨.search (.seek (some byA) ⟨[⟨⟨(0, .rhs), .equals, 0, []⟩, .literal, .asc⟩], .forwards,
        some ⟨1, false, .ge true⟩, some ⟨1, false, .gt⟩⟩), [0]⟩,
      ⟨.scan .forwards none, []⟩]

theorem orderedByBoth_optimized :
    optimizeTableAccess unanalyzed equalitiesFirst orderedByBoth [] = .ok (some searchThenScan) := rfl

def levelsOver (contents : Contents (fun _ _ => .binary) t1) : List (Level fun _ _ => .binary) :=
  [⟨t1, .search (.seek (some byA) ⟨[⟨⟨(0, .rhs), .equals, 0, []⟩, .literal, .asc⟩], .forwards,
      some ⟨1, false, .ge true⟩, some ⟨1, false, .gt⟩⟩), contents, fun _ _ => true⟩,
    ⟨t2, .scan .forwards none, .pair _ t2 ⟨1, [.null]⟩ ⟨2, [.null]⟩ (by decide), fun _ _ => true⟩]

theorem levelsOver_carriesOut : CarriesOut orderedByBoth searchThenScan (levelsOver contents) :=
  ⟨.cons rfl (.cons rfl .nil),rfl⟩

/-- With one row of `t1` the rows come sorted. -/
theorem single_row_sorted : ∃ levels : List (Level fun _ _ => .binary),
      CarriesOut orderedByBoth searchThenScan levels ∧
      ((nestedLoop levels []).filter fun _ => true).Pairwise fun l r =>
        compareTarget levels [⟨1, 0, .asc⟩, ⟨2, 0, .asc⟩] l r ≠ .gt := by
  refine ⟨levelsOver (.single _ t1 ⟨1,[.integer 7,.null]⟩),levelsOver_carriesOut,?_⟩
  refine dropped_sort_ordered orderedByBoth_optimized rfl (levelsOver_carriesOut) ?_ _
  refine ⟨⟨by decide,by decide,nofun,pairwise_singleton _ _⟩,fun row _ => ⟨?_,?_⟩⟩
  · exact ⟨by decide,by decide,nofun,pairwise_of_forall fun _ _ hmo => absurd rfl hmo⟩
  · exact fun _ _ => trivial

/-- With two rows of `t1` that tie, `t2` is gone through twice and its rows are not in order. -/
theorem tied_rows_unsorted : ∃ levels : List (Level fun _ _ => .binary),
      optimizeTableAccess unanalyzed equalitiesFirst orderedByBoth [] = .ok (some searchThenScan) ∧
      planSatisfiesOrderTarget orderedByBoth.refs.joinedTables searchThenScan.plan.data
        [⟨1, 0, .asc⟩, ⟨2, 0, .asc⟩] = true ∧
      CarriesOut orderedByBoth searchThenScan levels ∧
      ¬(nestedLoop levels []).Pairwise fun l r =>
        compareTarget levels [⟨1, 0, .asc⟩, ⟨2, 0, .asc⟩] l r ≠ .gt := by
  refine ⟨levelsOver (.pair _ t1 ⟨1,[.integer 7,.null]⟩ ⟨2,[.integer 7,.null]⟩ (by decide)),
    orderedByBoth_optimized,rfl,levelsOver_carriesOut,?_⟩
  decide

end OxiSql.Optimizer
