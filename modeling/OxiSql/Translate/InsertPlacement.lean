import OxiSql.Translate.InsertColumns

namespace OxiSql.Translate
open Lib OxiSql.Types List Insn Option

def Column.unlisted (column : Column) : Value :=
  (column.default.map Default.value).getD .null

/-- What a column is to have: the value at its place, as the rowid if it is the alias. -/
def expected (mustBeInt : Value → Option Int) (columns : Option (List String)) (column : Column)
    (i : Nat) (src : List Value) (newRowid : Int) : Value :=
  match placeOf columns column i with
  | some k =>
    let v := src[k]?.getD .null
    if !column.isRowidAlias then v
    else if v = .null then .integer newRowid
    else ((mustBeInt v).map .integer).getD .null
  | none => if column.isRowidAlias then .integer newRowid else column.unlisted

def Placed (mustBeInt : Value → Option Int) (table : BTreeTable) (columns : Option (List String))
    (src : List Value) (newRowid : Int) (row : InsertedRow) : Prop :=
  ∀ (i : Nat) (column : Column), table.columns[i]? = some column →
    row.get column i = expected mustBeInt columns column i src newRowid

def writtenTo (source : RowSource) (places : List (Option Nat)) (i k : Nat) : Nat :=
  if source.isTempTable then i else k + (i - listedBefore places i)

/-- The condition on the statement: no register is skipped, and the value a listed column takes from
the source row is that of the column it is written to. -/
def ColumnsFit (source : RowSource) (places : List (Option Nat)) : Prop :=
  source = .values ∨ ∀ i k : Nat, places[i]? = some (some k) → source.skipped = 0 ∧
    places[writtenTo source places i k]? = some (some (listedBefore places i))

def EmittedFor (source : RowSource) (places : List (Option Nat)) (i : Nat)
    (mapping : ColumnMapping) (insn : Insn) : Prop :=
  match mapping.valueIndex with
  | some k => insn = .load (listedBefore places i) (writtenTo source places i k)
  | none => insn.dst = some i ∧ (insn.hoisted source = true → mapping.column.isRowidAlias = false) ∧
      ∀ src, insn.value src = if mapping.column.isRowidAlias then .null else mapping.column.unlisted

theorem emitUnmapped_spec (h : emitUnmapped primaryKeyColumns column i = .ok insn) :
    insn.dst = some i ∧ ∀ src, insn.value src = column.unlisted := by
  unfold emitUnmapped at h
  cases hd : column.default with
  | some d =>
    rw [hd] at h
    cases h
    exact ⟨rfl,fun src => by simp [value,Column.unlisted,hd]⟩
  | none =>
    rw [hd] at h
    dsimp only at h
    split at h
    · cases h
      exact ⟨rfl,fun src => by simp [value,Column.unlisted,hd]⟩
    · cases h

/-- By recursion on the mappings still to come, `done` being those before. -/
theorem populateColumnsMultipleRows_spec
    (h : populateColumnsMultipleRows source.isTempTable primaryKeyColumns done.length
      (done.countP fun m => m.valueIndex.isSome)
      (done.length - done.countP fun m => m.valueIndex.isSome) mappings = .ok code) :
    List.Forall₂ (fun mi insn => EmittedFor source
      ((done ++ mappings).map ColumnMapping.valueIndex) mi.2 mi.1 insn)
      (mappings.zipIdx done.length) code := by
  induction mappings generalizing done code with
  | nil =>
    cases h
    exact .nil
  | cons mapping mappings ih =>
    have hbe : listedBefore ((done ++ mapping :: mappings).map ColumnMapping.valueIndex)
        done.length = done.countP fun m => m.valueIndex.isSome := by
      unfold listedBefore
      rw [map_append,take_left' (by simp),countP_map]
      rfl
    have hle : (done.countP fun m => m.valueIndex.isSome) ≤ done.length := countP_le_length
    have hnext : done ++ mapping :: mappings = (done ++ [mapping]) ++ mappings := by simp
    have hlen : done.length + 1 = (done ++ [mapping]).length := by simp
    have hih : ∀ {seen other rest}, populateColumnsMultipleRows source.isTempTable primaryKeyColumns
        (done.length + 1) seen other mappings = .ok rest →
        seen = ((done ++ [mapping]).countP fun m => m.valueIndex.isSome) → other = done.length + 1 - seen →
        List.Forall₂ (fun mi insn => EmittedFor source
          ((done ++ mapping :: mappings).map ColumnMapping.valueIndex) mi.2 mi.1 insn)
          (mappings.zipIdx (done.length + 1)) rest := by
      rintro _ _ rest hre rfl rfl
      rw [hlen] at hre ⊢
      exact hnext ▸ ih hre
    unfold populateColumnsMultipleRows at h
    cases hv : mapping.valueIndex with
    | some k =>
      rw [hv] at h
      obtain ⟨rest,hre,h⟩ := bind_ok h
      cases h
      refine .cons ?_ (hih hre (by simp [hv]) (by omega))
      unfold EmittedFor writtenTo
      rw [hv,hbe]
    | none =>
      rw [hv] at h
      obtain ⟨here,hhe,h⟩ := bind_ok h
      obtain ⟨rest,hre,h⟩ := bind_ok h
      cases h
      refine .cons ?_ (hih hre (by simp [hv]) (by omega))
      unfold EmittedFor
      rw [hv]
      unfold emitUnmappedOfRows at hhe
      split at hhe
      · rename_i hal
        cases hhe
        exact ⟨rfl,nofun,fun src => by simp [hal,value]⟩
      · rename_i hal
        obtain ⟨hdst,hva⟩ := emitUnmapped_spec hhe
        exact ⟨hdst,fun _ => by simpa using hal,fun src => by simp [hal,hva]⟩

section
variable {mustBeInt : Value → Option Int} {table : BTreeTable} {columns : Option (List String)}
  {source : RowSource} {numValues : Nat} {p : InsertCode}

/-- The code of a statement for several rows, column by column. -/
structure RowsCode (table : BTreeTable) (columns : Option (List String)) (p : InsertCode) :
    Prop where
  places : Places (table.places columns)
  count : p.columnCount = table.columns.length
  emitted : ∀ insn ∈ p.code, ∃ (i : Nat) (column : Column), table.columns[i]? = some column ∧
    EmittedFor p.source (table.places columns) i ⟨column, placeOf columns column i⟩ insn
  emits : ∀ (i : Nat) (column : Column), table.columns[i]? = some column → ∃ insn ∈ p.code,
    EmittedFor p.source (table.places columns) i ⟨column, placeOf columns column i⟩ insn

/-- The rowid alias is known as such if it is listed. -/
structure AliasOf (table : BTreeTable) (columns : Option (List String)) (p : InsertCode) :
    Prop where
  listed : ∀ a, p.rowidAlias = some a → ∃ column k, table.columns[a]? = some column ∧
    column.isRowidAlias = true ∧ placeOf columns column a = some k
  known : ∀ (a k : Nat) (column : Column), table.columns[a]? = some column →
    column.isRowidAlias = true → placeOf columns column a = some k → p.rowidAlias = some a

variable {j : Nat}

theorem alias_unique (hi : table.columns[i]? = some column) (hj : table.columns[j]? = some column')
    (hal : column.isRowidAlias = true) (hal' : column'.isRowidAlias = true) : i = j := by
  obtain ⟨hilt,rfl⟩ := List.getElem?_eq_some_iff.mp hi
  obtain ⟨hjlt,rfl⟩ := List.getElem?_eq_some_iff.mp hj
  have hpa := pairwise_iff_getElem.mp table.one_alias
  rcases Nat.lt_trichotomy i j with hlt | heq | hlt
  · exact absurd ⟨hal,hal'⟩ (hpa i j hilt hjlt hlt)
  · exact heq
  · exact absurd ⟨hal',hal⟩ (hpa j i hjlt hilt hlt)

section

variable (hna : ∀ names, columns = some names → names.Nodup)
include hna

variable (hp : translateInsert table columns source numValues = .ok p)
include hp

theorem translateInsert_aliasOf : AliasOf table columns p := by
  obtain ⟨mappings,hma,hp⟩ := bind_ok hp
  obtain ⟨code,-,hp⟩ := bind_ok hp
  cases hp
  have hmap := resolveColumnsForInsert_spec hna hma
  refine ⟨fun a ha => ?_,fun a k column hco hal hpl => ?_⟩
  · obtain ⟨hfi,hli⟩ := filter_eq_some_iff.mp ha
    obtain ⟨hlt,hal,-⟩ := findIdx?_eq_some_iff_getElem.mp hfi
    have hco := getElem?_eq_getElem hlt
    rw [hmap,hco] at hli
    obtain ⟨k,hk⟩ := isSome_iff_exists.mp hli
    exact ⟨_,k,hco,hal,hk⟩
  · cases hfi : table.columns.findIdx? Column.isRowidAlias with
    | none =>
      have := findIdx?_eq_none_iff.mp hfi column (mem_of_getElem? hco)
      rw [hal] at this
      cases this
    | some i =>
      obtain ⟨hlt,hfirst,-⟩ := findIdx?_eq_some_iff_getElem.mp hfi
      have hi : i = a := alias_unique (getElem?_eq_getElem hlt) hco hfirst hal
      subst hi
      simp [hmap,hco,hpl]

theorem translateInsert_rowsCode (hso : source ≠ .values) : p.source = source ∧ RowsCode table columns p := by
  obtain ⟨mappings,hma,hp⟩ := bind_ok hp
  obtain ⟨code,hcode,hp⟩ := bind_ok hp
  cases hp
  have hmap := resolveColumnsForInsert_spec hna hma
  have hpl : mappings.map ColumnMapping.valueIndex = table.places columns := by
    apply ext_getElem?
    intro i
    rw [getElem?_map,hmap,places_getElem?]
    cases table.columns[i]? <;> rfl
  have hcode : populateColumnsMultipleRows source.isTempTable table.primaryKeyColumns
      ([] : List ColumnMapping).length 0 0 mappings = .ok code := by
    cases source with
    | values => exact absurd rfl hso
    | coroutine skipped | tempTable skipped => exact hcode
  have hem := populateColumnsMultipleRows_spec hcode
  rw [nil_append,hpl] at hem
  refine ⟨rfl,places_of_resolve hna hma,rfl,fun insn hin => ?_, fun i column hco => ?_⟩
  · obtain ⟨⟨mapping,i⟩,hmem,hfor⟩ := forall₂_right hem hin
    have hi : mappings[i]? = some mapping := mem_zipIdx_iff_getElem?.mp hmem
    rw [hmap] at hi
    obtain ⟨column,hco,rfl⟩ := map_eq_some_iff.mp hi
    exact ⟨i,column,hco,hfor⟩
  · have hmem : (⟨column,placeOf columns column i⟩, i) ∈ mappings.zipIdx := by
      rw [mem_zipIdx_iff_getElem?,hmap,hco]
      rfl
    exact forall₂_left hem hmem

end

def registerOf (columns : Option (List String)) (column : Column) (i : Nat) (src : List Value) : Value :=
  match placeOf columns column i with
  | some k => src[k]?.getD .null
  | none => if column.isRowidAlias then .null else column.unlisted

def rowidValue (p : InsertCode) (r : Registers) (a : Nat) : Value :=
  if p.source = .values then r.rowid else r.column a

variable {rowid : Int}

theorem rowid_spec (h : p.rowid mustBeInt r newRowid = (some rowid,r')) :
    (p.rowidAlias = none ∧ rowid = newRowid ∧ r' = r) ∨
      ∃ a, p.rowidAlias = some a ∧ (∀ i, i ≠ a → r'.column i = r.column i) ∧
        (rowidValue p r a = .null → rowid = newRowid) ∧
        (rowidValue p r a ≠ .null → mustBeInt (rowidValue p r a) = some rowid) := by
  unfold InsertCode.rowid at h
  cases ha : p.rowidAlias with
  | none =>
    rw [ha] at h
    cases h
    exact .inl ⟨rfl,rfl,rfl⟩
  | some a =>
    rw [ha] at h
    refine .inr ⟨a,rfl,?_⟩
    unfold rowidValue
    by_cases hs : p.source = .values
    · simp only [if_pos hs] at h ⊢
      by_cases hnu : r.rowid = .null
      · rw [if_pos hnu] at h
        cases h
        exact ⟨fun _ _ => rfl,fun _ => rfl,fun hne => absurd hnu hne⟩
      · rw [if_neg hnu,Prod.mk.injEq] at h
        obtain ⟨hint,rfl⟩ := h
        exact ⟨fun _ _ => rfl,fun heq => absurd heq hnu,fun _ => hint⟩
    · simp only [if_neg hs] at h ⊢
      have hke : ∀ i, i ≠ a → (r.set a .null).column i = r.column i :=
        fun i hi => Function.update_of_ne hi ..
      by_cases hnu : r.column a = .null
      · rw [if_pos hnu] at h
        cases h
        exact ⟨hke,fun _ => rfl,fun hne => absurd hnu hne⟩
      · rw [if_neg hnu,Prod.mk.injEq] at h
        obtain ⟨hint,rfl⟩ := h
        exact ⟨hke,fun heq => absurd heq hnu,fun _ => hint⟩

theorem placed_of_registers (hco : p.columnCount = table.columns.length) (hal : AliasOf table columns p)
    (hcol : ∀ (i : Nat) (column : Column), table.columns[i]? = some column →
      column.isRowidAlias = false → r.column i = registerOf columns column i src)
    (hro : ∀ (a k : Nat) (column : Column), table.columns[a]? = some column →
      column.isRowidAlias = true → placeOf columns column a = some k →
      rowidValue p r a = src[k]?.getD .null)
    (h : p.rowid mustBeInt r newRowid = (some rowid,r')) :
    Placed mustBeInt table columns src newRowid ⟨rowid,(List.range p.columnCount).map r'.column⟩ ∧
      ∀ (i : Nat) (column : Column), table.columns[i]? = some column →
        column.isRowidAlias = false → r'.column i = registerOf columns column i src := by
  have hsp := rowid_spec h
  have hke : ∀ (i : Nat) (column : Column), table.columns[i]? = some column →
      column.isRowidAlias = false → r'.column i = registerOf columns column i src := by
    intro i column hcolu hnot
    rw [← hcol i column hcolu hnot]
    rcases hsp with ⟨-,-,rfl⟩ | ⟨a,ha,hke,-⟩
    · rfl
    · refine hke i fun heq => ?_
      obtain ⟨column',k,hcolu',hyes,-⟩ := hal.listed a ha
      rw [← heq,hcolu] at hcolu'
      cases hcolu'
      rw [hnot] at hyes
      cases hyes
  refine ⟨fun i column hcolu => ?_,hke⟩
  have hlt : i < p.columnCount := hco ▸ (List.getElem?_eq_some_iff.mp hcolu).1
  unfold InsertedRow.get expected
  cases hyes : column.isRowidAlias with
  | false =>
    have hi := hke i column hcolu hyes
    unfold registerOf at hi
    simp [getElem?_range hlt,hi,hyes]
  | true =>
    cases hpl : placeOf columns column i with
    | none =>
      rcases hsp with ⟨-,rfl,-⟩ | ⟨a,ha,-⟩
      · simp
      · obtain ⟨column',k,hcolu',hyes',hpl'⟩ := hal.listed a ha
        cases alias_unique hcolu hcolu' hyes hyes'
        rw [hcolu] at hcolu'
        cases hcolu'
        rw [hpl] at hpl'
        cases hpl'
    | some k =>
      have ha := hal.known i k column hcolu hyes hpl
      rcases hsp with ⟨hnone,-⟩ | ⟨a,ha',-,hnu,hint⟩
      · rw [ha] at hnone
        cases hnone
      · rw [ha] at ha'
        cases ha'
        rw [hro i k column hcolu hyes hpl] at hnu hint
        by_cases hv : src[k]?.getD .null = .null
        · simp [hv,hnu hv]
        · simp [hv,hint hv]

theorem places_of_placeOf (hco : table.columns[i]? = some column) (hpl : placeOf columns column i = some k) :
    (table.places columns)[i]? = some (some k) := by
  rw [places_getElem?,hco,map_some,hpl]

variable {insn : Insn}

def Ready (p : InsertCode) (r : Registers) : Prop :=
  ∀ insn ∈ p.code, insn.hoisted p.source = true → ∀ i, insn.dst = some i →
    r.column i = insn.value []

theorem value_of_hoisted (h : insn.hoisted source = true) : insn.value src = insn.value [] := by
  cases insn with
  | default d dst => rfl
  | load k dst | loadRowid k | null dst => cases h

section

variable (hcode : RowsCode table columns p)
include hcode

theorem RowsCode.dst_column (hin : insn ∈ p.code) (hho : insn.hoisted p.source = true)
    (hdst : insn.dst = some i) : ∃ column, table.columns[i]? = some column ∧
      placeOf columns column i = none ∧ column.isRowidAlias = false := by
  obtain ⟨j,column,hco,hfor⟩ := hcode.emitted insn hin
  cases hpl : placeOf columns column j with
  | some k =>
    rw [hpl] at hfor
    cases hfor
    cases hho
  | none =>
    rw [hpl] at hfor
    obtain ⟨hdst',hal,-⟩ := hfor
    rw [hdst] at hdst'
    cases hdst'
    exact ⟨column,hco,hpl,hal hho⟩

variable (hfit : ColumnsFit p.source (table.places columns)) (hso : p.source ≠ .values)
include hfit hso

/-- Where the column list fits, the instructions that set a register agree. -/
theorem RowsCode.agree (hin : insn ∈ p.code) (hdst : insn.dst = some i) (hco : table.columns[i]? = some column)
    (src : List Value) :
    insn.value src = registerOf columns column i src := by
  obtain ⟨j,column',hco',hfor⟩ := hcode.emitted insn hin
  unfold registerOf
  cases hpl' : placeOf columns column' j with
  | some k =>
    rw [hpl'] at hfor
    cases hfor
    -- the column is the one written to, whose place is the one taken
    have hj := ((hfit.resolve_left hso) j k (places_of_placeOf hco' hpl')).2
    cases hdst
    rw [places_getElem?,hco,map_some,some.injEq] at hj
    rw [hj]
    rfl
  | none =>
    rw [hpl'] at hfor
    obtain ⟨hdst',-,hva⟩ := hfor
    rw [hdst] at hdst'
    cases hdst'
    rw [hco] at hco'
    cases hco'
    rw [hpl',hva src]

/-- Where the column list fits, every register is set. -/
theorem RowsCode.sets (hco : table.columns[i]? = some column) : ∃ insn ∈ p.code, insn.dst = some i := by
  cases hpl : placeOf columns column i with
  | none =>
    obtain ⟨insn,hin,hfor⟩ := hcode.emits i column hco
    rw [hpl] at hfor
    exact ⟨insn,hin,hfor.1⟩
  | some k =>
    have hi := places_of_placeOf hco hpl
    obtain ⟨j,k',hj,hcou⟩ := exists_listedBefore (hcode.places.bound i k hi)
    rw [places_getElem?] at hj
    obtain ⟨column',hco',hpl'⟩ := map_eq_some_iff.mp hj
    obtain ⟨insn,hin,hfor⟩ := hcode.emits j column' hco'
    rw [hpl'] at hfor
    refine ⟨insn,hin,?_⟩
    have hwr := ((hfit.resolve_left hso) j k' (places_of_placeOf hco' hpl')).2
    rw [hcou] at hwr
    rw [hfor]
    exact congrArg some (hcode.places.inj _ _ k hwr hi)

theorem RowsCode.run_column (hre : Ready p r) (hco : table.columns[i]? = some column) :
    ((p.code.filter fun insn => !insn.hoisted p.source).foldl (exec src) r).column i =
      registerOf columns column i src := by
  by_cases hbo : ∃ insn ∈ p.code.filter fun insn => !insn.hoisted p.source, insn.dst = some i
  · exact run_column_eq hbo fun insn hin hdst =>
      hcode.agree hfit hso (mem_of_mem_filter hin) hdst hco src
  · obtain ⟨insn,hin,hdst⟩ := hcode.sets hfit hso hco
    have hho : insn.hoisted p.source = true := by
      by_contra hnot
      exact hbo ⟨insn,mem_filter.mpr ⟨hin,by simp [hnot]⟩,hdst⟩
    rw [run_column_of_not_mem fun insn hin hdst => hbo ⟨insn,hin,hdst⟩,
      hre insn hin hho i hdst,← value_of_hoisted hho]
    exact hcode.agree hfit hso hin hdst hco src

theorem RowsCode.ready : Ready p ((p.code.filter (hoisted p.source)).foldl (exec []) r) := by
  intro insn hin hho i hdst
  obtain ⟨column,hco,-⟩ := hcode.dst_column hin hho hdst
  refine run_column_eq ⟨insn,mem_filter.mpr ⟨hin,hho⟩,hdst⟩
    fun insn' hin' hdst' => ?_
  rw [hcode.agree hfit hso (mem_of_mem_filter hin') hdst' hco,hcode.agree hfit hso hin hdst hco]

/-- One row: it is placed, and the defaults stay in their registers. -/
theorem RowsCode.row_placed (hal : AliasOf table columns p) (hre : Ready p r)
    (hrow : p.rowid mustBeInt ((p.code.filter fun insn => !insn.hoisted p.source).foldl
      (exec src) r) newRowid = (some rowid,r')) :
    Placed mustBeInt table columns src newRowid
      ⟨rowid,(List.range p.columnCount).map r'.column⟩ ∧ Ready p r' := by
  have hrun : ∀ (i : Nat) (column : Column), table.columns[i]? = some column →
      ((p.code.filter fun insn => !insn.hoisted p.source).foldl (exec src) r).column i =
        registerOf columns column i src :=
    fun i column => hcode.run_column hfit hso hre
  obtain ⟨hpl,hke⟩ := placed_of_registers hcode.count hal (fun i column hco _ => hrun i column hco)
    (fun a k column hco _ hpla => by
      rw [rowidValue,if_neg hso,hrun a column hco,registerOf,hpla]) hrow
  refine ⟨hpl,fun insn hin hho i hdst => ?_⟩
  obtain ⟨column,hco,hpla,hnot⟩ := hcode.dst_column hin hho hdst
  rw [hke i column hco hnot,hcode.agree hfit hso hin hdst hco]
  simp [registerOf,hpla]

end

/-- All rows, by what one row keeps of the registers. -/
theorem rows_placed {Kept : Registers → Prop} (hplaces : ∀ {src newRowid rowid r r'}, Kept r →
      p.rowid mustBeInt ((p.code.filter fun insn => !insn.hoisted p.source).foldl (exec src) r)
        newRowid = (some rowid,r') →
      Placed mustBeInt table columns src newRowid ⟨rowid,(List.range p.columnCount).map r'.column⟩ ∧ Kept r')
    (hkept : Kept r) {src : SourceRow} (hsrc : rows[j]? = some src)
    (hrow : (p.runRows mustBeInt r rows)[j]? = some row) :
    Placed mustBeInt table columns src.registers src.newRowid row := by
  induction rows generalizing r j with
  | nil => cases hsrc
  | cons first rows ih =>
    unfold InsertCode.runRows at hrow
    dsimp only at hrow
    split at hrow
    · cases hrow
    · rename_i rowid r' hro
      obtain ⟨hpl,hkept'⟩ := hplaces hkept hro
      cases j with
      | zero =>
        cases hsrc
        cases hrow
        exact hpl
      | succ j => exact ih hkept' hsrc hrow

section

variable (h : emitColumn primaryKeyColumns mapping i = .ok here)
include h

theorem emitColumn_spec : (∃ insn ∈ here, insn.dst = some i) ∧ ∀ insn ∈ here,
      (∀ j, insn.dst = some j → j = i ∧ (mapping.column.isRowidAlias = false → ∀ src,
        insn.value src = match mapping.valueIndex with
          | some k => src[k]?.getD .null
          | none => mapping.column.unlisted)) := by
  unfold emitColumn at h
  cases hv : mapping.valueIndex with
  | some k =>
    rw [hv] at h
    cases h
    cases hal : mapping.column.isRowidAlias with
    | true =>
      refine ⟨⟨.null i,by simp,rfl⟩,fun insn hin j hdst => ⟨?_,nofun⟩⟩
      simp at hin
      rcases hin with rfl | rfl
      · cases hdst
      · cases hdst
        rfl
    | false =>
      refine ⟨⟨.load k i,by simp,rfl⟩,fun insn hin j hdst => ?_⟩
      simp at hin
      cases hin
      cases hdst
      exact ⟨rfl,fun _ src => rfl⟩
  | none =>
    rw [hv] at h
    obtain ⟨insn,hin,rfl⟩ := map_ok h
    obtain ⟨hdst,hva⟩ := emitUnmapped_spec hin
    refine ⟨⟨insn,by simp,hdst⟩,fun insn' hin' j hj => ?_⟩
    cases mem_singleton.mp hin'
    rw [hdst] at hj
    cases hj
    exact ⟨rfl,fun _ src => hva src⟩

theorem emitColumn_loadRowid :
    .loadRowid k ∈ here ↔ mapping.valueIndex = some k ∧ mapping.column.isRowidAlias = true := by
  unfold emitColumn at h
  cases hv : mapping.valueIndex with
  | some k' =>
    rw [hv] at h
    cases h
    cases mapping.column.isRowidAlias <;> simp [eq_comm]
  | none =>
    rw [hv] at h
    obtain ⟨insn,hin,rfl⟩ := map_ok h
    obtain ⟨hdst,-⟩ := emitUnmapped_spec hin
    refine ⟨fun hmem => ?_,nofun⟩
    cases mem_singleton.mp hmem
    cases hdst

end

theorem populateColumnRegisters_mem (h : populateColumnRegisters primaryKeyColumns i mappings = .ok code) :
    (∀ insn ∈ code, ∃ (j : Nat) (m : ColumnMapping) (here : List Insn), mappings[j]? = some m ∧
        emitColumn primaryKeyColumns m (i + j) = .ok here ∧ insn ∈ here) ∧
      ∀ (j : Nat) (m : ColumnMapping), mappings[j]? = some m → ∃ here,
        emitColumn primaryKeyColumns m (i + j) = .ok here ∧ ∀ insn ∈ here, insn ∈ code := by
  induction mappings generalizing i code with
  | nil =>
    cases h
    exact ⟨nofun,fun j m hm => by cases hm⟩
  | cons mapping mappings ih =>
    obtain ⟨here,hhe,h⟩ := bind_ok h
    obtain ⟨rest,hre,h⟩ := bind_ok h
    cases h
    obtain ⟨hfr,hto⟩ := ih hre
    constructor
    · intro insn hin
      rcases mem_append.mp hin with hin | hin
      · exact ⟨0,mapping,here,rfl,hhe,hin⟩
      · obtain ⟨j,m,here,hm,hem,hmem⟩ := hfr insn hin
        exact ⟨j + 1,m,here,hm,by rw [← hem,Nat.add_assoc,Nat.add_comm 1],hmem⟩
    · intro j m hm
      cases j with
      | zero =>
        cases hm
        exact ⟨here,hhe,fun insn hin => mem_append_left _ hin⟩
      | succ j =>
        obtain ⟨here,hem,hmem⟩ := hto j m hm
        exact ⟨here,by rw [← hem,Nat.add_assoc,Nat.add_comm 1],
          fun insn hin => mem_append_right _ (hmem insn hin)⟩

theorem run_rowid {code : List Insn} (hall : ∀ k, .loadRowid k ∈ code → src[k]?.getD .null = v)
    (hso : r.rowid = v ∨ ∃ k, .loadRowid k ∈ code) : (code.foldl (exec src) r).rowid = v := by
  induction code generalizing r with
  | nil => exact hso.resolve_right nofun
  | cons insn code ih =>
    refine ih (fun k hk => hall k (.tail _ hk)) ?_
    cases insn with
    | loadRowid k => exact .inl (hall k (.head _))
    | load k dst | default d dst | null dst =>
      refine hso.imp id fun ⟨k,hk⟩ => ⟨k,?_⟩
      rcases mem_cons.mp hk with heq | hk
      · cases heq
      · exact hk

structure ValuesCode (table : BTreeTable) (columns : Option (List String)) (p : InsertCode) :
    Prop where
  source : p.source = .values
  count : p.columnCount = table.columns.length
  sets : ∀ (i : Nat) (column : Column), table.columns[i]? = some column →
    ∃ insn ∈ p.code, insn.dst = some i
  agree : ∀ insn ∈ p.code, ∀ (i : Nat) (column : Column), insn.dst = some i →
    table.columns[i]? = some column → column.isRowidAlias = false →
    ∀ src, insn.value src = registerOf columns column i src
  rowid : ∀ (a k : Nat) (column : Column), table.columns[a]? = some column →
    column.isRowidAlias = true → placeOf columns column a = some k →
    ∀ k', .loadRowid k' ∈ p.code ↔ k' = k

theorem translateInsert_valuesCode (hna : ∀ names, columns = some names → names.Nodup)
    (hp : translateInsert table columns .values numValues = .ok p) : ValuesCode table columns p := by
  obtain ⟨mappings,hma,hp⟩ := bind_ok hp
  obtain ⟨code,hcode,hp⟩ := bind_ok hp
  cases hp
  have hmap := resolveColumnsForInsert_spec hna hma
  obtain ⟨hfr,hto⟩ := populateColumnRegisters_mem hcode
  refine ⟨rfl,rfl,fun i column hco => ?_,fun insn hin i column hdst hco hnot src => ?_,
    fun a k column hco hyes hpl k' => ?_⟩
  · obtain ⟨here,hem,hmem⟩ := hto i _ (by rw [hmap,hco]; rfl)
    obtain ⟨insn,hin,hdst⟩ := (emitColumn_spec hem).1
    exact ⟨insn,hmem insn hin,hdst.trans (by rw [Nat.zero_add])⟩
  · obtain ⟨j,m,here,hm,hem,hmem⟩ := hfr insn hin
    rw [Nat.zero_add] at hem
    obtain ⟨rfl,hva⟩ := (emitColumn_spec hem).2 insn hmem i hdst
    rw [hmap,hco] at hm
    cases hm
    rw [hva hnot src]
    simp [registerOf,hnot]
  · constructor
    · intro hlo
      obtain ⟨j,m,here,hm,hem,hmem⟩ := hfr _ hlo
      obtain ⟨hindex,hyes'⟩ := (emitColumn_loadRowid hem).mp hmem
      rw [hmap] at hm
      obtain ⟨column',hco',rfl⟩ := map_eq_some_iff.mp hm
      cases alias_unique hco hco' hyes hyes'
      rw [hco] at hco'
      cases hco'
      exact some.inj (hindex.symm.trans hpl)
    · rintro rfl
      obtain ⟨here,hem,hmem⟩ := hto a _ (by rw [hmap,hco]; rfl)
      exact hmem _ ((emitColumn_loadRowid hem).mpr ⟨hpl,hyes⟩)

theorem ValuesCode.row_placed (hcode : ValuesCode table columns p) (hal : AliasOf table columns p)
    (hrow : p.rowid mustBeInt ((p.code.filter fun insn => !insn.hoisted p.source).foldl
      (exec src) r) newRowid = (some rowid,r')) :
    Placed mustBeInt table columns src newRowid ⟨rowid,(List.range p.columnCount).map r'.column⟩ := by
  have hnone : p.code.filter (fun insn => !insn.hoisted p.source) = p.code := by
    rw [filter_eq_self]
    intro insn _
    rw [hcode.source]
    cases insn <;> simp [hoisted]
  rw [hnone] at hrow
  refine (placed_of_registers hcode.count hal (fun i column hco hnot => ?_)
    (fun a k column hco hyes hpl => ?_) hrow).1
  · exact run_column_eq (hcode.sets i column hco) fun insn hin hdst =>
      hcode.agree insn hin i column hdst hco hnot src
  · have hro := hcode.rowid a k column hco hyes hpl
    rw [rowidValue,if_pos hcode.source]
    exact run_rowid (fun k' hk' => by rw [(hro k').mp hk']) (.inr ⟨k,(hro k).mpr rfl⟩)

def probe (skipped numValues : Nat) : SourceRow where
  skipped := List.replicate skipped (.integer (-1))
  values := (List.range numValues).map fun (k : Nat) => Value.integer k
  newRowid := -1

theorem probe_values (hk : k < numValues) : (probe skipped numValues).values[k]?.getD .null = .integer k := by
  simp [probe,getElem?_range hk]

theorem probe_registers (hk : k < numValues) : (probe skipped numValues).registers[k]?.getD .null =
      .integer (if k < skipped then -1 else (k - skipped : Nat)) := by
  unfold SourceRow.registers
  by_cases hlt : k < skipped
  · rw [getElem?_append_left (by simpa [probe] using hlt)]
    simp [probe,hlt]
  · rw [getElem?_append_right (by simpa [probe] using hlt),if_neg hlt]
    have hsub : (probe skipped numValues).skipped.length = skipped := by simp [probe]
    rw [hsub,probe_values (by omega)]

theorem listedBefore_lt (hi : places[i]? = some (some k)) :
    listedBefore places i < places.countP isSome := by
  have hsu := listedBefore_succ hi
  have hle : listedBefore places (i + 1) ≤ places.countP isSome :=
    (take_sublist _ _).countP_le
  omega

/-- After the code the register of a listed column has a value that was loaded into it, if one
was. -/
theorem RowsCode.loaded (hcode : RowsCode table columns p) (r : Registers) (src : List Value)
    (hi : (table.places columns)[i]? = some (some k)) :
    let r1 := (p.code.filter (hoisted p.source)).foldl (exec []) r
    let r2 := (p.code.filter fun insn => !insn.hoisted p.source).foldl (exec src) r1
    r2.column i = r.column i ∨ ∃ j k' : Nat, (table.places columns)[j]? = some (some k') ∧
      writtenTo p.source (table.places columns) j k' = i ∧
      r2.column i = src[listedBefore (table.places columns) j]?.getD .null := by
  have hun : ∀ column, table.columns[i]? = some column → placeOf columns column i ≠ none := by
    intro column hco hnone
    rw [places_getElem?,hco,map_some,hnone] at hi
    cases hi
  rcases run_column_cases with
    hnone | ⟨insn,hin,hdst,hva⟩
  · refine .inl ((run_column_of_not_mem hnone).trans (run_column_of_not_mem ?_))
    intro insn hin hdst
    obtain ⟨hmem,hho⟩ := mem_filter.mp hin
    obtain ⟨column,hco,hpl,-⟩ := hcode.dst_column hmem hho hdst
    exact hun column hco hpl
  · obtain ⟨j,column,hco,hfor⟩ := hcode.emitted insn (mem_of_mem_filter hin)
    unfold EmittedFor at hfor
    cases hpl : placeOf columns column j with
    | none =>
      rw [hpl] at hfor
      rw [hdst] at hfor
      cases hfor.1
      exact absurd hpl (hun column hco)
    | some k' =>
      rw [hpl] at hfor
      cases hfor
      exact .inr ⟨j,k',places_of_placeOf hco hpl,some.inj hdst,hva _ _⟩

section

variable (hint : ∀ n, mustBeInt (.integer n) = some n)
include hint

theorem rowid_of_integer (hso : p.source ≠ .values)
    (hin : ∀ a, p.rowidAlias = some a → ∃ n, r.column a = .integer n) :
    ∃ rowid r', p.rowid mustBeInt r newRowid = (some rowid,r') ∧
      ∀ i, if p.rowidAlias = some i then r.column i = .integer rowid
        else r'.column i = r.column i := by
  unfold InsertCode.rowid
  cases ha : p.rowidAlias with
  | none => exact ⟨newRowid,r,rfl,fun i => by simp⟩
  | some a =>
    obtain ⟨n,hn⟩ := hin a ha
    refine ⟨n,{ r.set a .null with rowid := r.column a },?_,fun i => ?_⟩
    · simp [hso,hn,hint]
    · split
      · rename_i heq
        cases heq
        exact hn
      · rename_i hne
        exact Function.update_of_ne (fun heq => hne (congrArg some heq.symm)) ..

variable (hcode : RowsCode table columns p)
include hcode

/-- If the probe is placed, each of its values was loaded into the column whose place it has. -/
theorem RowsCode.probe_loaded (hal : AliasOf table columns p)
    (hso : p.source ≠ .values) (hwi : (table.places columns).countP isSome ≤ numValues)
    (hpl : ∀ row, (p.run mustBeInt ⟨.null,fun _ => .integer (-1)⟩ [probe skipped numValues])[0]? = some row →
      Placed mustBeInt table columns (probe skipped numValues).values (-1) row)
    (hi : (table.places columns)[i]? = some (some k)) :
    ∃ j k' : Nat, (table.places columns)[j]? = some (some k') ∧
      writtenTo p.source (table.places columns) j k' = i ∧
      listedBefore (table.places columns) j = k + skipped := by
  have hlo := fun i k hi => hcode.loaded ⟨.null,fun _ => .integer (-1)⟩
    (probe skipped numValues).registers (i := i) (k := k) hi
  dsimp only at hlo
  unfold InsertCode.run InsertCode.runRows at hpl
  dsimp only at hpl
  generalize (p.code.filter fun insn => !insn.hoisted p.source).foldl
    (exec (probe skipped numValues).registers) ((p.code.filter (hoisted p.source)).foldl
      (exec []) ⟨.null,fun _ => .integer (-1)⟩) = r2 at hlo hpl
  have hin : ∀ a, p.rowidAlias = some a → ∃ n, r2.column a = .integer n := by
    intro a ha
    obtain ⟨column,k,hco,-,hpla⟩ := hal.listed a ha
    rcases hlo a k (places_of_placeOf hco hpla) with heq | ⟨_,_,hj,-,heq⟩
    · exact ⟨_,heq⟩
    · exact ⟨_,heq.trans (probe_registers (Nat.lt_of_lt_of_le (listedBefore_lt hj) hwi))⟩
  obtain ⟨rowid,r',hro,hke⟩ := rowid_of_integer hint hso hin
  have hnew : (probe skipped numValues).newRowid = -1 := rfl
  rw [hnew,hro] at hpl
  have hpl := hpl _ rfl
  have hk : k < numValues := Nat.lt_of_lt_of_le (hcode.places.bound i k hi) hwi
  have hva : r2.column i = .integer k := by
    have hco := hi
    rw [places_getElem?] at hco
    obtain ⟨column,hco,hpla⟩ := map_eq_some_iff.mp hco
    have hget := hpl i column hco
    have hile : i < p.columnCount := hcode.count ▸ (List.getElem?_eq_some_iff.mp hco).1
    have hi' := hke i
    unfold InsertedRow.get expected at hget
    rw [hpla] at hget
    dsimp only at hget
    rw [probe_values hk] at hget
    cases hyes : column.isRowidAlias with
    | true =>
      rw [if_pos (hal.known i _ column hco hyes hpla)] at hi'
      simp [hyes,hint] at hget
      rw [hi',hget]
    | false =>
      rw [if_neg] at hi'
      · simp [hyes,getElem?_range hile] at hget
        rw [← hi',hget]
      · intro ha
        obtain ⟨column',_,hco',hyes',-⟩ := hal.listed i ha
        rw [hco] at hco'
        cases hco'
        rw [hyes] at hyes'
        cases hyes'
  rcases hlo i k hi with heq | ⟨j,k',hj,hwr,heq⟩
  · rw [hva] at heq
    have := Value.integer.inj heq
    omega
  · rw [hva,probe_registers (Nat.lt_of_lt_of_le (listedBefore_lt hj) hwi)] at heq
    have hbe := Value.integer.inj heq
    refine ⟨j,k',hj,hwr,?_⟩
    split at hbe <;> omega

/-- If the probe is placed, no register is skipped and each value was written where its place
is. -/
theorem RowsCode.fit_of_placed (hal : AliasOf table columns p)
    (hso : p.source ≠ .values) (hwi : (table.places columns).countP isSome ≤ numValues)
    (hpl : ∀ row, (p.run mustBeInt ⟨.null,fun _ => .integer (-1)⟩
      [probe p.source.skipped numValues])[0]? = some row →
      Placed mustBeInt table columns (probe p.source.skipped numValues).values (-1) row) :
    ColumnsFit p.source (table.places columns) := by
  refine .inr fun c k hc => ?_
  have hlt := listedBefore_lt hc
  -- the last place can only be loaded if nothing is skipped
  have hsk : p.source.skipped = 0 := by
    obtain ⟨i,hi⟩ := hcode.places.surj ((table.places columns).countP isSome - 1) (by omega)
    obtain ⟨j,k',hj,-,hbe⟩ := hcode.probe_loaded hint hal hso hwi hpl hi
    have := listedBefore_lt hj
    omega
  obtain ⟨i,hi⟩ := hcode.places.surj _ hlt
  obtain ⟨j,k',hj,hwr,hbe⟩ := hcode.probe_loaded hint hal hso hwi hpl hi
  cases listedBefore_inj hc hj (by omega)
  rw [hc] at hj
  cases hj
  refine ⟨hsk,?_⟩
  rw [hwr]
  exact hi

end

theorem Placed.of_registers {src : SourceRow} (hnone : src.skipped = [])
    (h : Placed mustBeInt table columns src.registers src.newRowid row) :
    Placed mustBeInt table columns src.values src.newRowid row := by
  unfold SourceRow.registers at h
  rwa [hnone] at h

/-- Without listed columns the source row does not matter. -/
theorem Placed.of_unlisted (hnone : ∀ i k : Nat, (table.places columns)[i]? ≠ some (some k))
    (h : Placed mustBeInt table columns src newRowid row) :
    Placed mustBeInt table columns src' newRowid row := by
  intro i column hco
  have hpl : placeOf columns column i = none := by
    cases hpl : placeOf columns column i with
    | none => rfl
    | some k => exact absurd (places_of_placeOf hco hpl) (hnone i k)
  have hget := h i column hco
  unfold expected at hget ⊢
  rwa [hpl] at hget ⊢

/-- Every row of every source is placed exactly when the column list fits. -/
theorem inserts_placed_iff (hint : ∀ n, mustBeInt (.integer n) = some n)
    (hnames : ∀ names, columns = some names → names.Nodup ∧ names.length ≤ numValues)
    (hp : translateInsert table columns source numValues = .ok p) :
    (∀ (r : Registers) (rows : List SourceRow),
      (∀ x ∈ rows, x.skipped.length = source.skipped ∧ x.values.length = numValues) →
      ∀ (j : Nat) (src : SourceRow) (row : InsertedRow),
        rows[j]? = some src → (p.run mustBeInt r rows)[j]? = some row →
        Placed mustBeInt table columns src.values src.newRowid row) ↔
      ColumnsFit source (table.places columns) := by
  have hno := fun names h => (hnames names h).1
  have hal := translateInsert_aliasOf hno hp
  by_cases hso : source = .values
  · subst hso
    have hcode := translateInsert_valuesCode hno hp
    refine ⟨fun _ => .inl rfl,fun _ r rows hro j src row hsrc hrow => ?_⟩
    have hnone := (hro src (mem_of_getElem? hsrc)).1
    have hpl := rows_placed (fun _ hro => ⟨hcode.row_placed hal hro,trivial⟩) trivial hsrc hrow
    exact hpl.of_registers (eq_nil_of_length_eq_zero hnone)
  · obtain ⟨rfl,hcode⟩ := translateInsert_rowsCode hno hp hso
    constructor
    · intro hall
      obtain ⟨mappings,hma,-⟩ := bind_ok hp
      have hwi := countP_places_le hnames hma
      refine hcode.fit_of_placed hint hal hso hwi fun row hrow => ?_
      exact hall _ _ (by simp [probe]) 0 _ row rfl hrow
    · intro hfit r rows hro j src row hsrc hrow
      have hpl := rows_placed (hcode.row_placed hfit hso hal) (hcode.ready hfit hso) hsrc hrow
      by_cases hli : ∃ i k : Nat, (table.places columns)[i]? = some (some k)
      · obtain ⟨i,k,hi⟩ := hli
        have hsk := ((hfit.resolve_left hso) i k hi).1
        refine hpl.of_registers (eq_nil_of_length_eq_zero ?_)
        rw [(hro src (mem_of_getElem? hsrc)).1,hsk]
      · exact hpl.of_unlisted fun i k hi => hli ⟨i,k,hi⟩

end

/-- Of the values the examples have, the integers are the ones that can be rowids. -/
def integerOnly : Value → Option Int
  | .integer n => some n
  | _ => none

/-- `t(a, b, c)` -/
def threeColumns : BTreeTable where
  name := "t"
  columns := [⟨"a", false, false, none⟩, ⟨"b", false, false, none⟩, ⟨"c", false, false, none⟩]
  primaryKeyColumns := []
  distinct := by decide
  one_alias := by decide

/-- `INSERT INTO t(a, c) SELECT …` -/
theorem threeColumns_inOrder : ∃ p, translateInsert threeColumns (some ["a", "c"]) (.coroutine 0) 2 = .ok p ∧
      ∀ (r : Registers) (rows : List SourceRow),
        (∀ x ∈ rows, x.skipped.length = (RowSource.coroutine 0).skipped ∧ x.values.length = 2) →
        ∀ (j : Nat) (src : SourceRow) (row : InsertedRow),
          rows[j]? = some src → (p.run integerOnly r rows)[j]? = some row →
          Placed integerOnly threeColumns (some ["a", "c"]) src.values src.newRowid row := by
  have hp : translateInsert threeColumns (some ["a","c"]) (.coroutine 0) 2 =
      .ok ⟨.coroutine 0,3,none,[.load 0 0,.null 1,.load 1 2]⟩ := rfl
  refine ⟨_,hp,(inserts_placed_iff (fun _ => rfl) (fun names h => ?_) hp).mpr ?_⟩
  · cases h
    decide
  · refine .inr fun i k hi => ?_
    match i with
    | 0 | 2 =>
      cases hi
      exact ⟨rfl,rfl⟩
    | 1 => cases hi
    | _ + 3 => cases hi

/-- `INSERT INTO t(c, a, b) SELECT 1, 2, 3` puts the 1 into b. -/
theorem threeColumns_cycle : ∃ p, translateInsert threeColumns (some ["c", "a", "b"]) (.coroutine 0) 3 = .ok p ∧
      ∃ row, p.run integerOnly ⟨.null, fun _ => .null⟩
          [⟨[], [.integer 1, .integer 2, .integer 3], 1⟩] = [row] ∧
        ¬ Placed integerOnly threeColumns (some ["c", "a", "b"]) [.integer 1, .integer 2, .integer 3]
          1 row := by
  refine ⟨_,rfl,_,rfl,fun hpl => ?_⟩
  have hb := hpl 1 ⟨"b",false,false,none⟩ rfl
  exact absurd hb (by decide)

end OxiSql.Translate
