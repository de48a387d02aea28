import OxiSql.Translate.InsertPlacement
import OxiSql.Translate.Trigger

namespace OxiSql.Translate.Trigger
open Lib OxiSql.Types List Function Write UpdatePlan Table

mutual

def references : Expr → List (RowImageKind × String)
  | .qualified qualifier column =>
    match RowImageKind.fromQualifier qualifier with
    | some kind => [(kind, column)]
    | none => []
  | .doublyQualified .. | .register _ | .leaf _ => []
  | .compound parts => referencesOf parts

def referencesOf : List Expr → List (RowImageKind × String)
  | [] => []
  | e :: es => references e ++ referencesOf es

end

mutual

def registers : Expr → List Nat
  | .register reg => [reg]
  | .qualified .. | .doublyQualified .. | .leaf _ => []
  | .compound parts => registersOf parts

def registersOf : List Expr → List Nat
  | [] => []
  | e :: es => registers e ++ registersOf es

end

mutual

theorem rewriteExpr_spec {e e' : Expr} (h : rewriteExpr normalizeIdent b e = .ok e')
    (hpl : registers e = []) : List.Forall₂ (fun ref reg => b.resolve normalizeIdent ref.1 ref.2 = .ok reg)
      (references e) (registers e') := by
  cases e with
  | qualified qualifier column =>
    unfold rewriteExpr at h
    unfold references
    split at h
    · rename_i kind hki
      obtain ⟨reg,hreg,h⟩ := bind_ok h
      cases h
      simpa only [hki] using .cons hreg .nil
    · rename_i hki
      cases h
      simpa only [hki] using .nil
  | doublyQualified db qualifier column =>
    unfold rewriteExpr at h
    split at h
    · cases h
    · cases h
      exact .nil
  | register reg => cases hpl
  | leaf text =>
    cases h
    exact .nil
  | compound parts =>
    unfold rewriteExpr at h
    obtain ⟨parts',hpa,h⟩ := bind_ok h
    cases h
    exact rewriteParts_spec hpa hpl

theorem rewriteParts_spec {es es' : List Expr} (h : rewriteParts normalizeIdent b es = .ok es')
    (hpl : registersOf es = []) : List.Forall₂ (fun ref reg => b.resolve normalizeIdent ref.1 ref.2 = .ok reg)
      (referencesOf es) (registersOf es') := by
  cases es with
  | nil =>
    cases h
    exact .nil
  | cons e es =>
    unfold rewriteParts at h
    obtain ⟨e',he,h⟩ := bind_ok h
    obtain ⟨es',hes,h⟩ := bind_ok h
    cases h
    obtain ⟨hpl,hpla⟩ := append_eq_nil_iff.mp hpl
    exact rel_append (rewriteExpr_spec he hpl) (rewriteParts_spec hes hpla)

end

def UpdatePlan.newValue (plan : UpdatePlan) (t : Table) (row : InsertedRow) (entry : Record)
    (column : Column) (i : Nat) : Value :=
  if column.isRowidAlias then .null
  else
    match plan.set i with
    | some value => value row
    | none =>
      match plan.index.bind fun columns => columns.idxOf? column.name with
      | some pos => entry[pos]?.getD .null
      | none => t.readColumn row i

section

theorem execAll_append {code code' : List Insn}
    (h : execAll mustBeInt applyAffinityChar t row entry (code ++ code') r = .ok r') :
    ∃ r1, execAll mustBeInt applyAffinityChar t row entry code r = .ok r1 ∧
      execAll mustBeInt applyAffinityChar t row entry code' r1 = .ok r' := by
  induction code generalizing r with
  | nil => exact ⟨r,rfl,h⟩
  | cons insn code ih =>
    obtain ⟨r0,hin,h⟩ := bind_ok h
    obtain ⟨r1,hco,hco'⟩ := ih h
    refine ⟨r1,?_,hco'⟩
    unfold execAll
    rw [hin]
    exact hco

theorem execAll_columns {is : List Nat} (h : execAll mustBeInt applyAffinityChar t row entry
      (is.map fun i => .column i (start + i)) r = .ok r') :
    (∀ i ∈ is, r' (start + i) = t.readColumn row i) ∧ ∀ n, (∀ i ∈ is, n ≠ start + i) → r' n = r n := by
  induction is generalizing r with
  | nil =>
    cases h
    exact ⟨nofun,fun _ _ => rfl⟩
  | cons i is ih =>
    obtain ⟨r0,hin,h⟩ := bind_ok h
    cases hin
    obtain ⟨hlo,hfr⟩ := ih h
    refine ⟨fun j hj => ?_,fun n hn => ?_⟩
    · by_cases hmem : j ∈ is
      · exact hlo j hmem
      · obtain rfl | hj := mem_cons.mp hj
        · have hout : ∀ k ∈ is, start + j ≠ start + k := by
            rintro k hk heq
            obtain rfl := Nat.add_left_cancel heq
            exact hmem hk
          rw [hfr _ hout,update_self]
        · exact absurd hj hmem
    · rw [hfr n fun k hk => hn k (.tail _ hk),update_of_ne (hn i (.head _))]

variable {plan : UpdatePlan}

theorem hasUserProvidedRowid_of_set (hco : t.columns[i]? = some column) (hset : plan.set i = some value) :
    (plan.hasUserProvidedRowid t && (column.primaryKey || column.isRowidAlias)) = column.isRowidAlias := by
  have hmem := mem_of_getElem? hco
  unfold hasUserProvidedRowid
  cases hfi : t.columns.findIdx? Column.isRowidAlias with
  | none =>
    rw [findIdx?_eq_none_iff.mp hfi column hmem]
    rfl
  | some a =>
    obtain ⟨hlt,hal,-⟩ := findIdx?_eq_some_iff_getElem.mp hfi
    have hon := (t.alias_only _ (getElem_mem hlt) hal).2 column hmem
    cases hyes : column.isRowidAlias with
    | true =>
      cases alias_unique (getElem?_eq_getElem hlt) hco hal hyes
      dsimp only
      rw [hset,Bool.or_true]
      rfl
    | false =>
      have hkey : column.primaryKey = false :=
        Bool.eq_false_iff.mpr fun hkey => Bool.false_ne_true (hyes.symm.trans (hon hkey))
      rw [hkey,Bool.or_false,Bool.and_false]

/-- The code of a column of an UPDATE sets the register of the column, and that of the rowid if it
assigns the alias. -/
theorem emitUpdateColumn_spec (hco : t.columns[i]? = some column)
    (h : execAll mustBeInt applyAffinityChar t row entry (emitUpdateColumn t plan beg column i) r = .ok r') :
    r' (beg + 1 + i) = plan.newValue t row entry column i ∧
      (∀ n, n ≠ beg + 1 + i → n ≠ rowidSetReg t beg → r' n = r n) ∧
      (column.isRowidAlias = true → (plan.set i).isSome = true → ∃ k, r' (rowidSetReg t beg) = .integer k) ∧
      ((plan.hasUserProvidedRowid t = true ∧ ∃ k, r' (rowidSetReg t beg) = .integer k) ∨
        r' (rowidSetReg t beg) = r (rowidSetReg t beg)) := by
  have hlt : i < t.columns.length := (List.getElem?_eq_some_iff.mp hco).1
  have hne : beg + 1 + i ≠ rowidSetReg t beg := by
    unfold rowidSetReg
    omega
  unfold emitUpdateColumn at h
  unfold newValue
  cases hset : plan.set i with
  | some value =>
    have hpr := hasUserProvidedRowid_of_set hco hset
    rw [hset] at h
    rw [hpr] at h
    cases hal : column.isRowidAlias with
    | true =>
      rw [hal,Bool.and_eq_true] at hpr
      rw [hal] at h
      obtain ⟨r1,h1,h⟩ := bind_ok h
      cases h1
      obtain ⟨r2,h2,h⟩ := bind_ok h
      obtain ⟨r3,h3,h⟩ := bind_ok h
      cases h3
      cases h
      unfold Insn.exec at h2
      dsimp only at h2
      split at h2
      · rename_i k hk
        cases h2
        have hro : update (update (update r (rowidSetReg t beg)
            (value row)) (rowidSetReg t beg) (.integer k)) (beg + 1 + i) .null
            (rowidSetReg t beg) = .integer k := by
          rw [update_of_ne hne.symm,update_self]
        refine ⟨update_self ..,fun n hn hn' => ?_,fun _ _ => ⟨k,hro⟩,.inl ⟨hpr.1,k,hro⟩⟩
        rw [update_of_ne hn,update_of_ne hn',update_of_ne hn']
      · cases h2
    | false =>
      rw [hal] at h
      obtain ⟨r1,h1,h⟩ := bind_ok h
      cases h1
      have hsa : r' = update r (beg + 1 + i) (value row) := by
        split at h
        · obtain ⟨r2,h2,h⟩ := bind_ok h
          cases h
          unfold Insn.exec at h2
          dsimp only at h2
          split at h2
          · cases h2
          · cases h2
            rfl
        · cases h
          rfl
      subst hsa
      exact ⟨update_self ..,fun n hn _ => update_of_ne hn ..,nofun,.inr (update_of_ne hne.symm ..)⟩
  | none =>
    rw [hset] at h
    dsimp only at h
    have hone : r' = update r (beg + 1 + i) (plan.newValue t row entry column i) := by
      unfold newValue
      rw [hset]
      split at h
      · rename_i hal
        cases h
        rw [if_pos hal]
      · rename_i hal
        rw [if_neg hal]
        split at h
        · rename_i pos hpos
          cases h
          simp [hpos]
        · rename_i hpos
          cases h
          simp [hpos]
    unfold newValue at hone
    rw [hset] at hone
    subst hone
    exact ⟨update_self ..,fun n hn _ => update_of_ne hn ..,nofun,.inr (update_of_ne hne.symm ..)⟩

variable {columns : List (Column × Nat)}

theorem emitUpdateColumns_spec
    (hco : ∀ c ∈ columns, t.columns[c.2]? = some c.1) (hno : (columns.map Prod.snd).Nodup)
    (h : execAll mustBeInt applyAffinityChar t row entry
      (columns.flatMap fun c => emitUpdateColumn t plan beg c.1 c.2) r = .ok r') :
    (∀ c ∈ columns, r' (beg + 1 + c.2) = plan.newValue t row entry c.1 c.2) ∧
      (∀ n, (∀ c ∈ columns, n ≠ beg + 1 + c.2) → n ≠ rowidSetReg t beg → r' n = r n) ∧
      (∀ c ∈ columns, c.1.isRowidAlias = true → (plan.set c.2).isSome = true →
        ∃ k, r' (rowidSetReg t beg) = .integer k) ∧
      ((plan.hasUserProvidedRowid t = true ∧ ∃ k, r' (rowidSetReg t beg) = .integer k) ∨
        r' (rowidSetReg t beg) = r (rowidSetReg t beg)) := by
  induction columns generalizing r with
  | nil =>
    cases h
    exact ⟨nofun,fun _ _ _ => rfl,nofun,.inr rfl⟩
  | cons c columns ih =>
    obtain ⟨r1,hhe,hre⟩ := execAll_append h
    obtain ⟨hout,hno⟩ := nodup_cons.mp hno
    obtain ⟨hva,hfr,hset,hro⟩ := emitUpdateColumn_spec (hco c (.head _)) hhe
    obtain ⟨hval,hfra,hse,hrow⟩ :=
      ih (fun c hc => hco c (.tail _ hc)) hno hre
    have hlt := (List.getElem?_eq_some_iff.mp (hco c (.head _))).1
    refine ⟨fun c' hc' => ?_,fun n hn hn' => ?_,fun c' hc' hal hso => ?_,?_⟩
    · rcases mem_cons.mp hc' with rfl | hc'
      · rw [hfra _ (fun d hd heq => hout ?_) (by unfold rowidSetReg; omega),hva]
        exact mem_map.mpr ⟨d,hd,(Nat.add_left_cancel heq).symm⟩
      · exact hval c' hc'
    · rw [hfra n (fun d hd => hn d (.tail _ hd)) hn',hfr n (hn c (.head _)) hn']
    · rcases mem_cons.mp hc' with rfl | hc'
      · rcases hrow with ⟨-,hk⟩ | hsa
        · exact hk
        · rw [hsa]
          exact hset hal hso
      · exact hse c' hc' hal hso
    · rcases hrow with hk | hsa
      · exact .inl hk
      · rw [hsa]
        exact hro

theorem checkColumns_spec (hno : (columns.map Prod.snd).Nodup)
    (h : checkColumns applyAffinityChar t start columns r = .ok r') :
    (∀ c ∈ columns, t.checkColumn applyAffinityChar c.1 c.2 (r (start + c.2)) = .ok (r' (start + c.2))) ∧
      ∀ n, (∀ c ∈ columns, n ≠ start + c.2) → r' n = r n := by
  induction columns generalizing r with
  | nil =>
    cases h
    exact ⟨nofun,fun _ _ => rfl⟩
  | cons c columns ih =>
    obtain ⟨column,i⟩ := c
    obtain ⟨v,hv,h⟩ := bind_ok h
    obtain ⟨hout,hno⟩ := nodup_cons.mp hno
    obtain ⟨hch,hfr⟩ := ih hno h
    have hne : ∀ d ∈ columns, start + d.2 ≠ start + i := fun d hd heq =>
      hout (mem_map.mpr ⟨d,hd,Nat.add_left_cancel heq⟩)
    refine ⟨fun d hd => ?_,fun n hn => ?_⟩
    · rcases mem_cons.mp hd with rfl | hd
      · rw [hfr _ fun d hd heq => hne d hd heq.symm,update_self]
        exact hv
      · have hd' := hch d hd
        rwa [update_of_ne (hne d hd)] at hd'
    · rw [hfr n fun d hd => hn d (.tail _ hd),update_of_ne (hn _ (.head _))]

end

namespace Write

def loaded (t : Table) (kind : RowImageKind) (column : Column) (i : Nat) : Write → Value
  | .insert offered => offered.record[i]?.getD .null
  | .update plan row entry =>
    match kind with
    | .old => t.readColumn row i
    | .new => plan.newValue t row entry column i
  | .delete row => t.readColumn row i

def image (t : Table) (free : Nat) (r : Registers) (w : Write) : RowImageKind → Option InsertedRow
  | .old => w.before
  | .new => w.after t free r

end Write

/-- What has been loaded when the BEFORE triggers run. -/
structure Landed (t : Table) (w : Write) (free : Nat) (r : Registers) : Prop where
  old : ∀ image, (w.code t free).old = some image → ∃ row, w.before = some row ∧
    r image.rowidReg = .integer row.rowid ∧
    ∀ i column, t.columns[i]? = some column →
      r (image.colsStartReg + i) = w.loaded t .old column i
  new : ∀ image, (w.code t free).new = some image →
    (∃ k, r image.rowidReg = .integer k ∧ ∀ offered, w = .insert offered → k = offered.rowid) ∧
    ∀ i column, t.columns[i]? = some column →
      r (image.colsStartReg + i) = w.loaded t .new column i

section
variable {t : Table} {w : Write}

theorem mem_zipIdx (h : t.columns[i]? = some column) : (column,i) ∈ t.columns.zipIdx :=
  mem_zipIdx_iff_getElem?.mpr h

theorem zipIdx_nodup : (t.columns.zipIdx.map Prod.snd).Nodup := by
  rw [zipIdx_map_snd]
  exact nodup_range'

theorem landed_insert : Landed t (.insert offered) free (offeredRegs free offered) where
  old := nofun
  new image h := by
    cases h
    refine ⟨⟨offered.rowid,if_pos rfl,by rintro _ ⟨⟩; rfl⟩,fun i column _ => ?_⟩
    have hne : free + 1 + i ≠ free := by omega
    unfold offeredRegs
    rw [if_neg hne,Nat.add_sub_cancel_left]
    rfl

theorem landed_delete (h : execAll mustBeInt applyAffinityChar t row [] (emitDeleteInsns t free).toBefore r =
      .ok r') : Landed t (.delete row) free r' where
  old image him := by
    cases him
    obtain ⟨r1,h1,h⟩ := bind_ok h
    cases h1
    obtain ⟨hlo,hfr⟩ := execAll_columns h
    refine ⟨row,rfl,?_,fun i column hco => ?_⟩
    · rw [hfr free fun i _ => by omega,update_self]
    · exact hlo i (mem_range.mpr (List.getElem?_eq_some_iff.mp hco).1)
  new := nofun

theorem landed_update (h : execAll mustBeInt applyAffinityChar t row entry
      (emitUpdateInsns t plan free).toBefore r = .ok r') :
    Landed t (.update plan row entry) free r' := by
  obtain ⟨r1,h1,h⟩ := bind_ok h
  cases h1
  obtain ⟨r2,hold,hnew⟩ := execAll_append h
  obtain ⟨hlo,hfr⟩ := execAll_columns hold
  obtain ⟨hva,hfra,hse,hset⟩ := emitUpdateColumns_spec
    (fun c hc => mem_zipIdx_iff_getElem?.mp hc) (zipIdx_nodup) hnew
  have hbe : ∀ c ∈ t.columns.zipIdx, c.2 < t.columns.length := fun c hc =>
    (List.getElem?_eq_some_iff.mp (mem_zipIdx_iff_getElem?.mp hc)).1
  have hro : r' free = .integer row.rowid := by
    rw [hfra free (fun c _ => by omega) (by unfold rowidSetReg; omega),
      hfr free (fun i _ => by unfold rowidSetReg; omega),update_self]
  refine ⟨fun image him => ?_,fun image him => ?_⟩
  · cases him
    refine ⟨row,rfl,hro,fun i column hco => ?_⟩
    have hlt := (List.getElem?_eq_some_iff.mp hco).1
    have hr2 := hlo i (mem_range.mpr hlt)
    refine Eq.trans ?_ hr2
    -- the register of a rowid that is set is the first of the old row if none is set
    by_cases hreg : rowidSetReg t free + (if plan.hasUserProvidedRowid t then 1 else 0) + i = rowidSetReg t free
    · rcases hset with ⟨hpr,-⟩ | hsa
      · rw [if_pos hpr] at hreg
        omega
      · rw [hreg]
        exact hsa
    · refine hfra _ (fun c hc => ?_) hreg
      have := hbe c hc
      dsimp only
      unfold rowidSetReg
      omega
  · cases him
    refine ⟨?_,fun i column hco => hva _ (mem_zipIdx hco)⟩
    split
    · rename_i hpr
      unfold hasUserProvidedRowid at hpr
      split at hpr
      · rename_i a ha
        obtain ⟨hlt,hal,-⟩ := findIdx?_eq_some_iff_getElem.mp ha
        obtain ⟨k,hk⟩ :=
          hse _ (mem_zipIdx (getElem?_eq_getElem hlt)) hal hpr
        exact ⟨k,hk,nofun⟩
      · cases hpr
    · exact ⟨row.rowid,hro,nofun⟩

/-- What a write fires, and when. -/
theorem run_firings (h : w.run mustBeInt applyAffinityChar t free r =
    .ok (firings,r')) : ∃ r1, firings = [⟨.before,⟨t,(w.code t free).old,(w.code t free).new⟩,r1⟩,
        ⟨.after,⟨t,(w.code t free).old,(w.code t free).new⟩,r'⟩] ∧ Landed t w free r1 ∧
      ∃ row entry, execAll mustBeInt applyAffinityChar t row entry (w.code t free).toAfter r1 = .ok r' := by
  cases w with
  | insert offered =>
    obtain ⟨r1,h1,h⟩ := bind_ok h
    obtain ⟨r2,h2,h⟩ := bind_ok h
    cases h
    cases h1
    exact ⟨_,rfl,landed_insert,_,_,h2⟩
  | update plan row entry =>
    obtain ⟨r1,h1,h⟩ := bind_ok h
    obtain ⟨r2,h2,h⟩ := bind_ok h
    cases h
    exact ⟨r1,rfl,landed_update h1,_,_,h2⟩
  | delete row =>
    obtain ⟨r1,h1,h⟩ := bind_ok h
    obtain ⟨r2,h2,h⟩ := bind_ok h
    cases h
    exact ⟨r1,rfl,landed_delete h1,_,_,h2⟩

/-- Between the triggers only the columns of the new row change, as the type check says. -/
structure Checked (applyAffinityChar : String → Value → Value) (t : Table) (code : RowCode)
    (r r' : Registers) : Prop where
  frame : ∀ n, n < code.start ∨ code.start + t.columns.length ≤ n → r' n = r n
  old : ∀ image, code.old = some image → code.new = none → r' = r
  new : ∀ image, code.new = some image → ∀ i column, t.columns[i]? = some column →
    if t.isStrict then t.checkColumn applyAffinityChar column i (r (code.start + i)) =
      .ok (r' (code.start + i))
    else r' (code.start + i) = r (code.start + i)

theorem typeChecks_spec {code : RowCode} (hnew : code.new.isSome) (h : execAll mustBeInt applyAffinityChar t row entry
      (typeChecks t code.start) r = .ok r') : Checked applyAffinityChar t code r r' := by
  unfold typeChecks at h
  split at h
  · rename_i hst
    obtain ⟨r1,h1,h⟩ := bind_ok h
    cases h
    obtain ⟨hch,hfr⟩ := checkColumns_spec (zipIdx_nodup) h1
    refine ⟨fun n hn => hfr n fun c hc => ?_,fun image _ hnone => ?_, fun image _ i column hco => ?_⟩
    · have := (List.getElem?_eq_some_iff.mp (mem_zipIdx_iff_getElem?.mp hc)).1
      omega
    · rw [hnone] at hnew
      cases hnew
    · rw [if_pos hst]
      exact hch _ (mem_zipIdx hco)
  · rename_i hst
    cases h
    exact ⟨fun _ _ => rfl,fun _ _ _ => rfl,fun _ _ _ _ _ => by rw [if_neg hst]⟩

theorem checked_of_exec (h : execAll mustBeInt applyAffinityChar t row entry (w.code t free).toAfter r = .ok r') :
    Checked applyAffinityChar t (w.code t free) r r' := by
  cases w with
  | insert offered | update plan row entry => exact typeChecks_spec rfl h
  | delete row =>
    cases h
    exact ⟨fun _ _ => rfl,fun _ _ _ => rfl,nofun⟩

/-- The new row is written from the registers of its image, which are apart from those of the old
one. -/
theorem code_layout (image : RowImage) : ((w.code t free).new = some image →
      image = ⟨(w.code t free).keyReg,(w.code t free).start⟩ ∧
      ((w.code t free).keyReg < (w.code t free).start ∨
        (w.code t free).start + t.columns.length ≤ (w.code t free).keyReg)) ∧
    ((w.code t free).old = some image → (w.code t free).new.isSome → image.rowidReg < (w.code t free).start ∧
        (w.code t free).start + t.columns.length ≤ image.colsStartReg) := by
  cases w with
  | insert offered =>
    refine ⟨fun h => ?_,nofun⟩
    cases h
    exact ⟨rfl,.inl (Nat.lt_succ_self _)⟩
  | update plan row entry =>
    refine ⟨fun h => ?_,fun h _ => ?_⟩
    · cases h
      refine ⟨rfl,?_⟩
      simp only [code,emitUpdateInsns,rowidSetReg]
      split <;> omega
    · cases h
      simp only [code,emitUpdateInsns,rowidSetReg]
      omega
  | delete row => exact ⟨nofun,fun _ h => by cases h⟩

end

/-- What a SELECT of the row gives for a name: a column, or else the rowid. -/
def Table.valueOf (normalizeIdent : String → String) (t : Table) (row : InsertedRow)
    (name : String) : Value :=
  match t.columns.findIdx? fun c => c.name == normalizeIdent name with
  | some i => (t.columns[i]?.map fun column => t.select row column i).getD .null
  | none => .integer row.rowid

namespace Write

def rowid : Write → Int
  | .insert offered => offered.rowid
  | .update _ row _ | .delete row => row.rowid

variable (normalizeIdent : String → String) (applyAffinityChar : String → Value → Value) (t : Table)
  (time : TriggerTime)

def aliasSlot (kind : RowImageKind) (column : Column) (i : Nat) (w : Write) : Value :=
  let v := w.loaded t kind column i
  if t.isStrict = true ∧ kind = .new ∧ time = .after ∧ v ≠ .null then
    applyAffinityChar (t.type i).tyStr v
  else v

/-- The condition on a column: the slot of the alias has the rowid in it, a value STRICT is yet to
convert is left as it is, and no integer is stored in a REAL column. -/
def ShowsColumn (kind : RowImageKind) (column : Column) (i : Nat) (w : Write) : Prop :=
  if column.isRowidAlias then
    w.aliasSlot applyAffinityChar t time kind column i = .integer w.rowid
  else if t.isStrict = true ∧ kind = .new then
    time = .before → applyAffinityChar (t.type i).tyStr (w.loaded t kind column i) =
      w.loaded t kind column i
  else ¬ ((t.type i).real = true ∧ ∃ k, w.loaded t kind column i = .integer k)

def Shows (ref : RowImageKind × String) (w : Write) : Prop :=
  ∀ i column, (t.columns.findIdx? fun c => c.name == normalizeIdent ref.2) = some i →
    t.columns[i]? = some column → w.ShowsColumn applyAffinityChar t time ref.1 column i

end Write

section
variable {t : Table} {w : Write}

variable {ty : ColumnType}

theorem affinity_eq_self : v = ty.affinity v ↔ ¬ (ty.real = true ∧ ∃ k, v = .integer k) := by
  cases v with
  | integer k => by_cases hre : ty.real = true <;> simp [ColumnType.affinity]
  | null | float x | text x | blob bytes => simp [ColumnType.affinity]

theorem affinity_of_fits (h : fits ty.tyStr v = true) : v = ty.affinity v := by
  rw [affinity_eq_self]
  rintro ⟨hre,k,rfl⟩
  refine ty.real_tyStr hre ?_
  have hmem : ty.tyStr ∈ ["INTEGER","INT","ANY"] := by simpa [fits] using h
  have hsub : ["INTEGER","INT","ANY"] ⊆ ["INTEGER","INT","BLOB","TEXT","ANY"] := by decide
  exact hsub hmem

theorem checkColumn_spec (h : t.checkColumn applyAffinityChar column i v = .ok v') :
    (column.isRowidAlias = true ∧ v = .null ∧ v' = .null) ∨
      (¬ (column.isRowidAlias = true ∧ v = .null) ∧ v' = applyAffinityChar (t.type i).tyStr v ∧
        fits (t.type i).tyStr v' = true) := by
  unfold checkColumn at h
  split at h
  · cases h
  · split at h
    · rename_i hnu
      rw [Bool.and_eq_true,decide_eq_true_eq] at hnu
      cases h
      exact .inl ⟨hnu.1,hnu.2,hnu.2⟩
    · rename_i hnu
      rw [Bool.and_eq_true,decide_eq_true_eq] at hnu
      dsimp only at h
      split at h
      · rename_i hfits
        cases h
        exact .inr ⟨hnu,rfl,hfits⟩
      · cases h

theorem old_column_iff (hbe : w.before = some row) : w.loaded t .old column i = t.select row column i ↔
      w.ShowsColumn applyAffinityChar t time .old column i := by
  have hlo : w.loaded t .old column i = t.readColumn row i := by
    cases w <;> cases hbe <;> rfl
  have hro : w.rowid = row.rowid := by
    cases w <;> cases hbe <;> rfl
  have hold : RowImageKind.old ≠ .new := nofun
  unfold Write.ShowsColumn aliasSlot select
  rw [hlo,hro]
  by_cases hal : column.isRowidAlias = true
  · rw [if_pos hal,if_pos hal,if_neg fun h => hold h.2.1]
  · rw [if_neg hal,if_neg hal,if_neg fun h => hold h.2,affinity_eq_self]

theorem new_column_iff (hv : w.loaded t .new column i = v)
    (hnu : (∀ offered, w ≠ .insert offered) → column.isRowidAlias = true → v = .null)
    (hk : ∀ offered, w = .insert offered → k = offered.rowid)
    (hch : if t.isStrict then t.checkColumn applyAffinityChar column i v = .ok v' else v' = v)
    (time : TriggerTime) : (match time with | .before => v | .after => v') =
        (if column.isRowidAlias then .integer k else (t.type i).affinity v') ↔
      w.ShowsColumn applyAffinityChar t time .new column i := by
  have hwr : column.isRowidAlias = true → (match time with | .before => v | .after => v') =
      w.aliasSlot applyAffinityChar t time .new column i := by
    intro hal
    unfold aliasSlot
    rw [hv]
    cases time with
    | before => simp
    | after =>
      by_cases hst : t.isStrict = true
      · rw [if_pos hst] at hch
        rcases checkColumn_spec hch with ⟨-,rfl,rfl⟩ | ⟨hnot,rfl,-⟩
        · simp
        · have hne : v ≠ .null := fun h => hnot ⟨hal,h⟩
          simp [hst,hne]
      · rw [if_neg hst] at hch
        simp [hst,hch]
  by_cases hal : column.isRowidAlias = true
  · unfold Write.ShowsColumn
    rw [if_pos hal,if_pos hal,hwr hal]
    by_cases hin : ∃ offered, w = .insert offered
    · obtain ⟨offered,rfl⟩ := hin
      rw [hk offered rfl]
      rfl
    · have hsl : w.aliasSlot applyAffinityChar t time .new column i = .null := by
        unfold aliasSlot
        rw [hv,hnu (fun offered h => hin ⟨offered,h⟩) hal]
        simp
      rw [hsl]
      exact ⟨nofun,nofun⟩
  · unfold Write.ShowsColumn
    rw [if_neg hal,if_neg hal,hv]
    by_cases hst : t.isStrict = true
    · rw [if_pos hst] at hch
      rcases checkColumn_spec hch with ⟨hyes,-⟩ | ⟨-,rfl,hfits⟩
      · exact absurd hyes hal
      · rw [if_pos ⟨hst,rfl⟩,← affinity_of_fits hfits]
        cases time with
        | before => exact ⟨fun h _ => h.symm,fun h => (h rfl).symm⟩
        | after => exact ⟨fun _ => nofun,fun _ => rfl⟩
    · rw [if_neg hst] at hch
      subst hch
      rw [if_neg fun h => hst h.1]
      cases time <;> exact affinity_eq_self

theorem loaded_alias (hin : ∀ offered, w ≠ .insert offered)
    (hnew : (w.code t free).new.isSome = true) (hal : column.isRowidAlias = true) :
    w.loaded t .new column i = .null := by
  cases w with
  | insert offered => exact absurd rfl (hin offered)
  | update plan row entry => exact if_pos hal
  | delete row => cases hnew

theorem after_of_key (hnew : (w.code t free).new.isSome = true)
    (hk : r' (w.code t free).keyReg = .integer k) : w.after t free r' =
      some ⟨k,(List.range t.columns.length).map fun i => r' ((w.code t free).start + i)⟩ := by
  cases w with
  | delete row => cases hnew
  | insert offered | update plan row entry =>
    unfold Write.after
    rw [hk]

/-- At the time of a trigger the image holds the row, but for the columns it does not show. -/
def Imaged (applyAffinityChar : String → Value → Value) (t : Table) (w : Write) (free : Nat) (r₁ r' : Registers)
    (time : TriggerTime) (kind : RowImageKind) (image : RowImage) : Prop :=
  ∃ row, w.image t free r' kind = some row ∧
    (match time with | .before => r₁ | .after => r') image.rowidReg = .integer row.rowid ∧
    ∀ i column, t.columns[i]? = some column →
      ((match time with | .before => r₁ | .after => r') (image.colsStartReg + i) = t.select row column i ↔
        w.ShowsColumn applyAffinityChar t time kind column i)

variable {image : RowImage}

theorem old_image_spec (hla : Landed t w free r1) (hch : Checked applyAffinityChar t (w.code t free) r1 r')
    (him : (w.code t free).old = some image) : Imaged applyAffinityChar t w free r1 r' time .old image := by
  obtain ⟨row,hbe,hro,hco⟩ := hla.old image him
  have hsa : (match time with | .before => r1 | .after => r') image.rowidReg =
      r1 image.rowidReg ∧ ∀ i, (match time with | .before => r1 | .after => r')
        (image.colsStartReg + i) = r1 (image.colsStartReg + i) := by
    cases time with
    | before => exact ⟨rfl,fun _ => rfl⟩
    | after =>
      cases hnew : (w.code t free).new with
      | none =>
        rw [hch.old image him hnew]
        exact ⟨rfl,fun _ => rfl⟩
      | some new =>
        obtain ⟨hlt,hle⟩ := (code_layout image).2 him (by rw [hnew]; rfl)
        exact ⟨hch.frame _ (.inl hlt),fun i => hch.frame _ (.inr (by omega))⟩
  refine ⟨row,hbe,hsa.1.trans hro,fun i column hcol => ?_⟩
  rw [hsa.2,hco i column hcol]
  exact old_column_iff hbe

theorem new_image_spec (hla : Landed t w free r1) (hch : Checked applyAffinityChar t (w.code t free) r1 r')
    (him : (w.code t free).new = some image) : Imaged applyAffinityChar t w free r1 r' time .new image := by
  have hnew : (w.code t free).new.isSome = true := by rw [him]; rfl
  obtain ⟨⟨k,hk,hof⟩,hco⟩ := hla.new image him
  obtain ⟨rfl,hout⟩ := (code_layout image).1 him
  have hk' := (hch.frame _ hout).trans hk
  refine ⟨_,after_of_key hnew hk',?_,fun i column hcol => ?_⟩
  · cases time with
    | before => exact hk
    | after => exact hk'
  · have hlt := (List.getElem?_eq_some_iff.mp hcol).1
    have hre : t.readColumn ⟨k,(List.range t.columns.length).map fun i =>
        r' ((w.code t free).start + i)⟩ i = r' ((w.code t free).start + i) := by
      unfold readColumn
      rw [getElem?_map,getElem?_range hlt]
      rfl
    have hiff := new_column_iff (hco i column hcol).symm
      (fun hin hal => (hco i column hcol).trans (loaded_alias hin hnew hal))
      hof (hch.new _ him i column hcol) time
    unfold select
    rw [hre]
    cases time <;> exact hiff

end

section
variable {normalizeIdent : String → String} {mustBeInt : Value → Option Int}
  {applyAffinityChar : String → Value → Value} {t : Table} {w : Write} {free : Nat} {r r' : Registers}

theorem resolve_spec {b : TriggerRowBindings} (h : b.resolve normalizeIdent kind name = .ok reg) :
    ∃ image, b.image kind = some image ∧
      ((∃ i, (b.table.columns.findIdx? fun c => c.name == normalizeIdent name) = some i ∧
          reg = image.colsStartReg + i) ∨
        (b.table.columns.findIdx? fun c => c.name == normalizeIdent name) = none ∧ reg = image.rowidReg) := by
  unfold TriggerRowBindings.resolve at h
  cases him : b.image kind with
  | none =>
    rw [him] at h
    cases h
  | some image =>
    rw [him] at h
    refine ⟨image,rfl,?_⟩
    dsimp only at h
    split at h
    · rename_i i hi
      cases h
      exact .inl ⟨i,hi,rfl⟩
    · rename_i hnone
      split at h
      · cases h
        exact .inr ⟨hnone,rfl⟩
      · cases h

/-- Of every write, in every expression of the triggers it fires: a reference to OLD or NEW reads
the value of the row that a SELECT would give exactly if the column is shown. -/
theorem references_true_iff (h : w.run mustBeInt applyAffinityChar t free r = .ok (firings, r')) {f : Firing}
    (hf : f ∈ firings) {e e' : Expr} (he : rewriteExpr normalizeIdent f.bindings e = .ok e')
    (hplain : registers e = []) : List.Forall₂ (fun ref reg => ∃ row, w.image t free r' ref.1 = some row ∧
      (f.regs reg = t.valueOf normalizeIdent row ref.2 ↔ w.Shows normalizeIdent applyAffinityChar t f.time ref))
      (references e) (registers e') := by
  refine (rewriteExpr_spec he hplain).imp fun ref reg hre => ?_
  obtain ⟨r₁,rfl,hla,row,entry,haf⟩ := run_firings h
  have hch := checked_of_exec haf
  have hfi : ∃ time : TriggerTime, f = ⟨time,⟨t,(w.code t free).old,(w.code t free).new⟩,
      match time with | .before => r₁ | .after => r'⟩ := by
    rcases mem_cons.mp hf with rfl | hf
    · exact ⟨.before,rfl⟩
    · exact ⟨.after,mem_singleton.mp hf⟩
  obtain ⟨time,rfl⟩ := hfi
  obtain ⟨image,him,hreg⟩ := resolve_spec hre
  have hsp : Imaged applyAffinityChar t w free r₁ r' time ref.1 image := by
    obtain ⟨kind,name⟩ := ref
    cases kind with
    | old => exact old_image_spec hla hch him
    | new => exact new_image_spec hla hch him
  obtain ⟨row,hrow,hro,hco⟩ := hsp
  refine ⟨row,hrow,?_⟩
  unfold valueOf Write.Shows
  rcases hreg with ⟨i,hi,rfl⟩ | ⟨hnone,rfl⟩
  · obtain ⟨hlt,-,-⟩ := findIdx?_eq_some_iff_getElem.mp hi
    have hcol := getElem?_eq_getElem hlt
    simp only [hi,hcol,Option.map_some,Option.getD_some]
    rw [hco i _ hcol]
    constructor
    · rintro hsh j column hj hcol'
      cases hj
      cases hcol.symm.trans hcol'
      exact hsh
    · exact fun hall => hall i _ rfl hcol
  · simp only [hnone]
    exact ⟨fun _ _ _ => nofun,fun _ => hro⟩

end

/-- `CREATE TABLE t(id INTEGER PRIMARY KEY, a)` -/
def keyedTable : Table where
  name := "t"
  columns := [⟨"id", true, true, none⟩, ⟨"a", false, false, none⟩]
  primaryKeyColumns := ["id"]
  distinct := by decide
  one_alias := by simp
  isStrict := false
  type i := ⟨if i = 0 then "INTEGER" else "", false, false, none, nofun⟩
  alias_only := by simp

/-- The row of `INSERT INTO t(a) VALUES (7)` into the empty table. -/
def offeredRow : InsertedRow :=
  ⟨1, [.null, .integer 7]⟩

/-- The AFTER triggers of the insertion. -/
def offeredFiring : Firing :=
  ⟨.after, ⟨keyedTable, none, some ⟨1, 2⟩⟩, offeredRegs 1 offeredRow⟩

theorem offeredRow_run : ∃ firings, (insert offeredRow).run integerOnly (fun _ v => v)
    keyedTable 1 (fun _ => .null) = .ok (firings,offeredRegs 1 offeredRow) ∧ offeredFiring ∈ firings :=
  ⟨_,rfl,.tail _ (.head _)⟩

theorem fromQualifier_new : RowImageKind.fromQualifier "NEW" = some .new := by
  decide +kernel

theorem rewriteExpr_new (h : offeredFiring.bindings.resolve id .new column = .ok reg) :
    rewriteExpr id offeredFiring.bindings (.qualified "NEW" column) = .ok (.register reg) := by
  unfold rewriteExpr
  rw [fromQualifier_new]
  dsimp only
  rw [h]
  rfl

/-- `NEW.a` is the value inserted. -/
theorem new_a_true : ∃ firings r' row, (insert offeredRow).run integerOnly (fun _ v => v)
    keyedTable 1 (fun _ => .null) = .ok (firings, r') ∧ offeredFiring ∈ firings ∧
      (insert offeredRow).image keyedTable 1 r' .new = some row ∧
      offeredFiring.regs 3 = keyedTable.valueOf id row "a" := by
  obtain ⟨firings,hrun,hmem⟩ := offeredRow_run
  have hnew := references_true_iff hrun hmem
    (rewriteExpr_new (show offeredFiring.bindings.resolve id .new "a" = .ok 3 from rfl)) rfl
  unfold references at hnew
  rw [fromQualifier_new] at hnew
  cases hnew with
  | cons h =>
    obtain ⟨row,him,hiff⟩ := h
    refine ⟨firings,_,row,hrun,hmem,him,hiff.mpr fun i column hi hcol => ?_⟩
    cases hi
    cases hcol
    simp [Write.ShowsColumn,keyedTable]

/-- `NEW.id` is NULL, and a SELECT gives 1. -/
theorem new_id_null : ∃ p firings r', translateInsert keyedTable.toBTreeTable (some ["a"]) .values 1 = .ok p ∧
    p.run integerOnly ⟨.null, fun _ => .null⟩ [⟨[], [.integer 7], 1⟩] = [offeredRow] ∧
    (insert offeredRow).run integerOnly (fun _ v => v) keyedTable 1 (fun _ => .null) =
      .ok (firings, r') ∧ offeredFiring ∈ firings ∧
    rewriteExpr id offeredFiring.bindings (.qualified "NEW" "id") = .ok (.register 2) ∧
    offeredFiring.regs 2 = .null ∧
    ((insert offeredRow).image keyedTable 1 r' .new).map
      (fun row => keyedTable.valueOf id row "id") = some (.integer 1) := by
  obtain ⟨firings,hrun,hmem⟩ := offeredRow_run
  exact ⟨_,firings,_,rfl,rfl,hrun,hmem,rewriteExpr_new rfl,rfl,rfl⟩

end OxiSql.Translate.Trigger
