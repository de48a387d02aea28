import OxiSql.Lib.Results
import OxiSql.Storage.Savepoints
import OxiSql.Types.Value

namespace OxiSql.Translate
open Storage OxiSql.Types List Function Option

/-- A DEFAULT with what it evaluates to; a constant one is evaluated once, before the first row. -/
structure Default where
  value : Value
  constant : Bool
deriving DecidableEq

/-- Names are normalized, so that equal ones name the same column. -/
structure Column where
  name : String
  isRowidAlias : Bool
  primaryKey : Bool
  default : Option Default

structure BTreeTable where
  name : String
  columns : List Column
  primaryKeyColumns : List String
  distinct : (columns.map Column.name).Nodup
  one_alias : columns.Pairwise fun a b => ¬ (a.isRowidAlias = true ∧ b.isRowidAlias = true)

structure ColumnMapping where
  column : Column
  valueIndex : Option Nat

def mapNames (table : BTreeTable) :
    Nat → List String → List ColumnMapping → Except LimboError (List ColumnMapping)
  | _, [], mappings => .ok mappings
  | k, name :: names, mappings =>
    match table.columns.findIdx? fun c => c.name == name with
    | none => .error (.parseError s!"table {table.name} has no column named {name}")
    | some i => mapNames table (k + 1) names
        (mappings.modify i fun mapping => { mapping with valueIndex := some k })

def resolveColumnsForInsert (table : BTreeTable) (columns : Option (List String))
    (numValues : Nat) : Except LimboError (List ColumnMapping) :=
  match columns with
  | none =>
    if numValues ≠ table.columns.length then
      .error (.parseError
        s!"table {table.name} has {table.columns.length} columns but {numValues} values were supplied")
    else .ok (table.columns.zipIdx.map fun (col, i) => ⟨col, some i⟩)
  | some names => mapNames table 0 names (table.columns.map fun col => ⟨col, none⟩)

def columnIsNullable (column : Column) (primaryKeyColumns : List String) : Bool :=
  column.isRowidAlias || (!column.primaryKey && !primaryKeyColumns.contains column.name)

/-- An instruction that sets a register of the row. A `load` takes the value at a place of the
source row: an expression of VALUES, a register of the coroutine or a column of the temp table. -/
inductive Insn where
  | load (k dst : Nat)
  | loadRowid (k : Nat)
  | default (d : Default) (dst : Nat)
  | null (dst : Nat)

def emitUnmapped (primaryKeyColumns : List String) (column : Column) (i : Nat) : Except LimboError Insn :=
  match column.default with
  | some d => .ok (.default d i)
  | none =>
    if columnIsNullable column primaryKeyColumns then .ok (.null i)
    else .error (.parseError s!"column {column.name} is not nullable")

/-- The code of a column for one row of VALUES: the value of the rowid alias goes to the rowid
register. -/
def emitColumn (primaryKeyColumns : List String) (mapping : ColumnMapping) (i : Nat) :
    Except LimboError (List Insn) :=
  match mapping.valueIndex with
  | some k => .ok (if mapping.column.isRowidAlias then [.loadRowid k, .null i] else [.load k i])
  | none => (emitUnmapped primaryKeyColumns mapping.column i).map fun insn => [insn]

def populateColumnRegisters (primaryKeyColumns : List String) :
    Nat → List ColumnMapping → Except LimboError (List Insn)
  | _, [] => .ok []
  | i, mapping :: mappings => do
    let here ← emitColumn primaryKeyColumns mapping i
    let rest ← populateColumnRegisters primaryKeyColumns (i + 1) mappings
    return here ++ rest

/-- The code for a column without a value where there are several rows. -/
def emitUnmappedOfRows (primaryKeyColumns : List String) (column : Column) (i : Nat) :
    Except LimboError Insn :=
  if column.isRowidAlias then .ok (.null i) else emitUnmapped primaryKeyColumns column i

/-- For rows from a coroutine, or from a temp table if the statement reads its own table. `seen`
counts the columns before that have a value, `other` those that have none. -/
def populateColumnsMultipleRows (tempTable : Bool) (primaryKeyColumns : List String) :
    (i seen other : Nat) → List ColumnMapping → Except LimboError (List Insn)
  | _, _, _, [] => .ok []
  | i, seen, other, mapping :: mappings =>
    match mapping.valueIndex with
    | some k => do
      let rest ← populateColumnsMultipleRows tempTable primaryKeyColumns (i + 1) (seen + 1) other
        mappings
      return .load seen (if tempTable then i else k + other) :: rest
    | none => do
      let here ← emitUnmappedOfRows primaryKeyColumns mapping.column i
      let rest ← populateColumnsMultipleRows tempTable primaryKeyColumns (i + 1) seen (other + 1)
        mappings
      return here :: rest

structure Registers where
  rowid : Value
  column : Nat → Value

def Registers.set (r : Registers) (dst : Nat) (v : Value) : Registers :=
  { r with column := Function.update r.column dst v }

def Insn.exec (src : List Value) (r : Registers) : Insn → Registers
  | .load k dst => r.set dst (src[k]?.getD .null)
  | .loadRowid k => { r with rowid := src[k]?.getD .null }
  | .default d dst => r.set dst d.value
  | .null dst => r.set dst .null

/-- Where the rows come from. The registers from which a coroutine's row is taken are those right
after its yield register; `skipped` of them the SELECT has allocated before its result columns, for
the counters of LIMIT and OFFSET or for subqueries in its FROM clause. -/
inductive RowSource where
  | values
  | coroutine (skipped : Nat)
  | tempTable (skipped : Nat)
deriving DecidableEq

namespace RowSource

def skipped : RowSource → Nat
  | .values => 0
  | .coroutine skipped | .tempTable skipped => skipped

def isTempTable : RowSource → Bool
  | .tempTable _ => true
  | _ => false

end RowSource

/-- A row of the source: what is in the skipped registers, the values, and the rowid that would be
new for it. -/
structure SourceRow where
  skipped : List Value
  values : List Value
  newRowid : Int

def SourceRow.registers (row : SourceRow) : List Value :=
  row.skipped ++ row.values

/-- Constant defaults of the code for several rows are moved before the loop. -/
def Insn.hoisted (source : RowSource) : Insn → Bool
  | .default d _ => d.constant && source ≠ .values
  | _ => false

/-- A row offered for insertion; its rowid alias is read as the rowid. -/
structure InsertedRow where
  rowid : Int
  record : List Value
deriving DecidableEq

def InsertedRow.get (row : InsertedRow) (column : Column) (i : Nat) : Value :=
  if column.isRowidAlias then .integer row.rowid else row.record[i]?.getD .null

/-- What is emitted for the rows of an INSERT. `rowidAlias` is the alias column if it has a value. -/
structure InsertCode where
  source : RowSource
  columnCount : Nat
  rowidAlias : Option Nat
  code : List Insn

def populate (source : RowSource) (primaryKeyColumns : List String)
    (mappings : List ColumnMapping) : Except LimboError (List Insn) :=
  match source with
  | .values => populateColumnRegisters primaryKeyColumns 0 mappings
  | .coroutine _ => populateColumnsMultipleRows false primaryKeyColumns 0 0 0 mappings
  | .tempTable _ => populateColumnsMultipleRows true primaryKeyColumns 0 0 0 mappings

def translateInsert (table : BTreeTable) (columns : Option (List String)) (source : RowSource)
    (numValues : Nat) : Except LimboError InsertCode := do
  let mappings ← resolveColumnsForInsert table columns numValues
  let code ← populate source table.primaryKeyColumns mappings
  let rowidAlias := (table.columns.findIdx? Column.isRowidAlias).filter fun i =>
    mappings[i]?.any fun m => m.valueIndex.isSome
  return ⟨source, table.columns.length, rowidAlias, code⟩

section
variable (mustBeInt : Value → Option Int)

/-- The rowid: the given one, or a new one if there is none or it is NULL. -/
def InsertCode.rowid (p : InsertCode) (r : Registers) (newRowid : Int) : Option Int × Registers :=
  match p.rowidAlias with
  | none => (some newRowid, r)
  | some a =>
    let r : Registers :=
      if p.source = .values then r else { r.set a .null with rowid := r.column a }
    if r.rowid = .null then (some newRowid, r) else (mustBeInt r.rowid, r)

def InsertCode.runRows (p : InsertCode) : Registers → List SourceRow → List InsertedRow
  | _, [] => []
  | r, row :: rows =>
    let r := (p.code.filter fun insn => !insn.hoisted p.source).foldl (Insn.exec row.registers) r
    match p.rowid mustBeInt r row.newRowid with
    | (none, _) => []
    | (some rowid, r) =>
      ⟨rowid, (List.range p.columnCount).map r.column⟩ :: p.runRows r rows

def InsertCode.run (p : InsertCode) (r : Registers) (rows : List SourceRow) : List InsertedRow :=
  p.runRows mustBeInt ((p.code.filter (Insn.hoisted p.source)).foldl (Insn.exec []) r) rows

end

def placeOf (columns : Option (List String)) (column : Column) (i : Nat) : Option Nat :=
  match columns with
  | none => some i
  | some names => names.idxOf? column.name

section
variable {table : BTreeTable}

theorem findIdx?_name (hi : (table.columns.findIdx? fun c => c.name == name) = some i)
    (hj : table.columns[j]? = some column) : column.name = name ↔ i = j := by
  obtain ⟨hlt,hna,-⟩ := findIdx?_eq_some_iff_getElem.mp hi
  have hna : table.columns[i].name = name := eq_of_beq hna
  constructor
  · intro hco
    refine (getElem?_inj (by simpa using hlt) table.distinct).mp ?_
    rw [getElem?_map,getElem?_map,hj,getElem?_eq_getElem hlt]
    simp [hna,hco]
  · rintro rfl
    rw [getElem?_eq_getElem hlt] at hj
    cases hj
    exact hna

theorem mapNames_spec (hna : names.Nodup)
    (hco : ∀ j : Nat, start[j]?.map ColumnMapping.column = table.columns[j]?)
    (h : mapNames table k names start = .ok mappings) (j : Nat) : mappings[j]? = start[j]?.map fun m =>
      ⟨m.column,((names.idxOf? m.column.name).map (k + ·)).or m.valueIndex⟩ := by
  induction names generalizing k start with
  | nil =>
    cases h
    cases mappings[j]? <;> simp
  | cons name names ih =>
    unfold mapNames at h
    split at h
    · cases h
    · rename_i i hi
      rw [nodup_cons] at hna
      have hco' : ∀ j : Nat, (start.modify i fun m => { m with valueIndex := some k })[j]?.map
          ColumnMapping.column = table.columns[j]? := by
        intro j
        rw [getElem?_modify,← hco j]
        cases start[j]? with
        | none => rfl
        | some m => by_cases hij : i = j <;> simp [hij]
      rw [ih hna.2 hco' h,getElem?_modify]
      cases hm : start[j]? with
      | none => rfl
      | some m =>
        have hj := hco j
        rw [hm] at hj
        have hnam := findIdx?_name hi hj.symm
        by_cases hij : i = j
        · have hmn := hnam.mpr hij
          have hnone : names.idxOf? name = none := idxOf?_eq_none_iff.mpr hna.1
          simp [hij,idxOf?_cons,hmn,hnone]
        · have hmn : ¬ name = m.column.name := fun h => hij (hnam.mp h.symm)
          have hsh : (fun x => k + 1 + x) = fun x => k + (x + 1) := by
            funext x
            omega
          simp [hij,idxOf?_cons,hmn,hsh,comp_def]

theorem resolveColumnsForInsert_spec (hna : ∀ names, columns = some names → names.Nodup)
    (h : resolveColumnsForInsert table columns numValues = .ok mappings) (i : Nat) :
    mappings[i]? = table.columns[i]?.map fun column => ⟨column,placeOf columns column i⟩ := by
  unfold resolveColumnsForInsert at h
  cases columns with
  | none =>
    dsimp only at h
    split at h
    · cases h
    · cases h
      rw [getElem?_map,getElem?_zipIdx]
      cases table.columns[i]? <;> simp [placeOf]
  | some names =>
    have hsp := mapNames_spec (hna names rfl) (fun j => by
      rw [getElem?_map]
      cases table.columns[j]? <;> rfl) h i
    rw [hsp,getElem?_map]
    cases table.columns[i]? <;> simp [placeOf]

end

def Insn.dst : Insn → Option Nat
  | .load _ dst | .default _ dst | .null dst => some dst
  | .loadRowid _ => none

def Insn.value (src : List Value) : Insn → Value
  | .load k _ | .loadRowid k => src[k]?.getD .null
  | .default d _ => d.value
  | .null _ => .null

section
variable {insn : Insn} {code : List Insn}

theorem Insn.exec_column_dst (h : insn.dst = some i) : (insn.exec src r).column i = insn.value src := by
  cases insn with
  | load k dst | default d dst | null dst =>
    cases h
    exact update_self ..
  | loadRowid k => cases h

theorem Insn.exec_column_ne (h : insn.dst ≠ some i) : (insn.exec src r).column i = r.column i := by
  cases insn with
  | load k dst | default d dst | null dst =>
    exact update_of_ne (fun heq => h (congrArg some heq.symm)) ..
  | loadRowid k => rfl

theorem run_column_of_not_mem (h : ∀ insn ∈ code, insn.dst ≠ some i) :
    (code.foldl (Insn.exec src) r).column i = r.column i := by
  induction code generalizing r with
  | nil => rfl
  | cons insn code ih =>
    rw [foldl_cons,ih fun insn hin => h insn (.tail _ hin),Insn.exec_column_ne (h insn (.head _))]

theorem run_column_cases : (∀ insn ∈ code, insn.dst ≠ some i) ∨
      ∃ insn ∈ code, insn.dst = some i ∧ ∀ src r, (code.foldl (Insn.exec src) r).column i = insn.value src := by
  induction code with
  | nil => exact .inl nofun
  | cons first code ih =>
    rcases ih with hnone | ⟨insn,hin,hdst,hva⟩
    · by_cases hfirst : first.dst = some i
      · refine .inr ⟨first,.head _,hfirst,fun src r => ?_⟩
        rw [foldl_cons,run_column_of_not_mem hnone,Insn.exec_column_dst hfirst]
      · refine .inl fun insn hin => ?_
        rcases mem_cons.mp hin with rfl | hin
        · exact hfirst
        · exact hnone insn hin
    · exact .inr ⟨insn,.tail _ hin,hdst,fun src r => hva src _⟩

theorem run_column_eq (hso : ∃ insn ∈ code, insn.dst = some i)
    (hall : ∀ insn ∈ code, insn.dst = some i → insn.value src = v) :
    (code.foldl (Insn.exec src) r).column i = v := by
  rcases run_column_cases with hnone | ⟨insn,hin,hdst,hva⟩
  · obtain ⟨insn,hin,hdst⟩ := hso
    exact absurd hdst (hnone insn hin)
  · rw [hva,hall insn hin hdst]

end

def BTreeTable.places (table : BTreeTable) (columns : Option (List String)) : List (Option Nat) :=
  table.columns.zipIdx.map fun (column, i) => placeOf columns column i

def listedBefore (places : List (Option Nat)) (i : Nat) : Nat :=
  (places.take i).countP Option.isSome

theorem listedBefore_succ (hi : places[i]? = some (some k)) :
    listedBefore places (i + 1) = listedBefore places i + 1 := by
  unfold listedBefore
  rw [take_add_one,hi,countP_append]
  rfl

theorem listedBefore_mono (hij : i ≤ j) : listedBefore places i ≤ listedBefore places j := by
  exact (take_sublist_take_left hij).countP_le

theorem listedBefore_inj (hi : places[i]? = some (some k)) (hj : places[j]? = some (some k'))
    (heq : listedBefore places i = listedBefore places j) : i = j := by
  rcases Nat.lt_trichotomy i j with hlt | rfl | hlt
  · have hsu := listedBefore_succ hi
    have hmo : listedBefore places (i + 1) ≤ listedBefore places j := listedBefore_mono hlt
    omega
  · rfl
  · have hsu := listedBefore_succ hj
    have hmo : listedBefore places (j + 1) ≤ listedBefore places i := listedBefore_mono hlt
    omega

theorem exists_listedBefore (hk : k < places.countP isSome) :
    ∃ i k', places[i]? = some (some k') ∧ listedBefore places i = k := by
  induction places generalizing k with
  | nil => cases hk
  | cons first places ih =>
    cases first with
    | none =>
      obtain ⟨i,k',hi,hco⟩ := ih hk
      refine ⟨i + 1,k',hi,?_⟩
      rw [← hco]
      simp [listedBefore]
    | some place =>
      rw [countP_cons_of_pos (by rfl)] at hk
      cases k with
      | zero => exact ⟨0,place,rfl,rfl⟩
      | succ k =>
        obtain ⟨i,k',hi,hco⟩ := ih (Nat.lt_of_succ_lt_succ hk)
        refine ⟨i + 1,k',hi,?_⟩
        rw [← hco]
        simp [listedBefore]

/-- The columns have the places from zero on, each its own. -/
structure Places (places : List (Option Nat)) : Prop where
  inj : ∀ i j k : Nat, places[i]? = some (some k) → places[j]? = some (some k) → i = j
  bound : ∀ i k : Nat, places[i]? = some (some k) → k < places.countP Option.isSome
  surj : ∀ k < places.countP Option.isSome, ∃ i : Nat, places[i]? = some (some k)

section
variable {table : BTreeTable}

theorem places_getElem? :
    (table.places columns)[i]? = table.columns[i]?.map fun column => placeOf columns column i := by
  unfold BTreeTable.places
  rw [getElem?_map,getElem?_zipIdx]
  cases table.columns[i]? <;> simp

theorem mapNames_columns (h : mapNames table k names start = .ok mappings) :
    ∀ name ∈ names, name ∈ table.columns.map Column.name := by
  induction names generalizing k start with
  | nil => nofun
  | cons first names ih =>
    unfold mapNames at h
    split at h
    · cases h
    · rename_i i hi
      intro name hna
      rcases mem_cons.mp hna with rfl | hna
      · obtain ⟨hlt,hfirst,-⟩ := findIdx?_eq_some_iff_getElem.mp hi
        exact mem_map.mpr ⟨_,getElem_mem hlt,eq_of_beq hfirst⟩
      · exact ih h name hna

theorem countP_places (hno : names.Nodup) (hall : ∀ name ∈ names, name ∈ table.columns.map Column.name) :
    (table.places (some names)).countP isSome = names.length := by
  have hpe : ((table.columns.map Column.name).filter fun name => decide (name ∈ names)).Perm names := by
    rw [perm_ext_iff_of_nodup (table.distinct.filter _) hno]
    intro name
    rw [mem_filter,decide_eq_true_iff]
    exact ⟨fun h => h.2,fun h => ⟨hall name h,h⟩⟩
  have hpl : table.places (some names) = (table.columns.map Column.name).map fun name => names.idxOf? name := by
    apply ext_getElem?
    intro i
    rw [places_getElem?,getElem?_map,getElem?_map]
    cases table.columns[i]? <;> rfl
  rw [hpl,countP_map,← hpe.length_eq,countP_eq_length_filter]
  congr 1
  apply filter_congr
  intro name _
  rw [Bool.eq_iff_iff,decide_eq_true_iff]
  exact isSome_idxOf?

theorem countP_places_none (table : BTreeTable) :
    (table.places none).countP isSome = table.columns.length := by
  rw [countP_eq_length.mpr]
  · simp [BTreeTable.places]
  · intro place hpl
    obtain ⟨_,-,rfl⟩ := mem_map.mp hpl
    rfl

theorem countP_places_le (hna : ∀ names, columns = some names → names.Nodup ∧ names.length ≤ numValues)
    (h : resolveColumnsForInsert table columns numValues = .ok mappings) :
    (table.places columns).countP isSome ≤ numValues := by
  cases columns with
  | none =>
    unfold resolveColumnsForInsert at h
    dsimp only at h
    split at h
    · cases h
    · rw [countP_places_none]
      omega
  | some names =>
    obtain ⟨hno,hlen⟩ := hna names rfl
    rwa [countP_places hno (mapNames_columns h)]

theorem places_of_resolve (hna : ∀ names, columns = some names → names.Nodup)
    (h : resolveColumnsForInsert table columns numValues = .ok mappings) : Places (table.places columns) := by
  cases columns with
  | none =>
    have hget : ∀ i k : Nat, (table.places none)[i]? = some (some k) ↔ i < table.columns.length ∧ i = k := by
      intro i k
      rw [places_getElem?,map_eq_some_iff]
      constructor
      · rintro ⟨column,hco,hpl⟩
        exact ⟨(List.getElem?_eq_some_iff.mp hco).1,some.inj hpl⟩
      · rintro ⟨hlt,rfl⟩
        exact ⟨_,getElem?_eq_getElem hlt,rfl⟩
    have hcou := countP_places_none table
    refine ⟨fun i j k hi hj => ?_,fun i k hi => ?_,fun k hk => ⟨k,?_⟩⟩
    · exact ((hget i k).mp hi).2.trans ((hget j k).mp hj).2.symm
    · obtain ⟨hlt,rfl⟩ := (hget i k).mp hi
      rwa [hcou]
    · exact (hget k k).mpr ⟨hcou ▸ hk,rfl⟩
  | some names =>
    have hall := mapNames_columns h
    have hcou := countP_places (hna names rfl) hall
    have hget : ∀ i k : Nat, (table.places (some names))[i]? = some (some k) ↔
        k < names.length ∧ (table.columns.map Column.name)[i]? = names[k]? := by
      intro i k
      rw [places_getElem?,getElem?_map]
      cases table.columns[i]? with
      | none =>
        constructor
        · nofun
        · rintro ⟨hlt,heq⟩
          rw [getElem?_eq_getElem hlt] at heq
          cases heq
      | some column =>
        rw [map_some,map_some,some.injEq]
        constructor
        · intro hpl
          obtain ⟨hlt,heq,-⟩ := idxOf?_eq_some_iff.mp hpl
          exact ⟨hlt,by rw [getElem?_eq_getElem hlt,heq]⟩
        · rintro ⟨hlt,heq⟩
          rw [getElem?_eq_getElem hlt,some.injEq] at heq
          refine idxOf?_eq_some_iff.mpr ⟨hlt,heq.symm,fun j hj hsa => ?_⟩
          have := (getElem_inj (hna names rfl)).mp (hsa.trans heq)
          omega
    refine ⟨fun i j k hi hj => ?_,fun i k hi => hcou ▸ ((hget i k).mp hi).1,fun k hk => ?_⟩
    · obtain ⟨hlt,hi⟩ := (hget i k).mp hi
      obtain ⟨-,hj⟩ := (hget j k).mp hj
      refine (getElem?_inj ?_ table.distinct).mp (hi.trans hj.symm)
      exact (List.getElem?_eq_some_iff.mp (hi.trans (getElem?_eq_getElem hlt))).1
    · rw [hcou] at hk
      obtain ⟨i,hi⟩ := mem_iff_getElem?.mp (hall names[k] (getElem_mem hk))
      exact ⟨i,(hget i k).mpr ⟨hk,hi.trans (getElem?_eq_getElem hk).symm⟩⟩

end

end OxiSql.Translate
