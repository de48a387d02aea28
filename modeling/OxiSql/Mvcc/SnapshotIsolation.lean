import OxiSql.Mvcc.GarbageCollection
import OxiSql.Mvcc.Snapshots

namespace OxiSql.Mvcc
open Lib List MvStore Snapshots Option AList Function

/-- Every version of the row was ended by the transaction or before it began. -/
def FreeFor (s : MvStore) (tx : TxID) (beginTs : Nat) (id : RowID) : Prop :=
  ∀ v ∈ s.versions id, v.endMark = some (.txID tx) ∨ ∃ ts ≤ beginTs, v.endMark = some (.timestamp ts)

/-- The transaction has ended no version that another one began. -/
def Clean (s : MvStore) (tx : TxID) : Prop :=
  ∀ id, ∀ v ∈ s.versions id, v.endMark = some (.txID tx) → v.beginMark = .txID tx

def Conflicts (s : MvStore) (tx : TxID) (id : RowID) : Prop :=
  ∃ t v, s.txs.lookup tx = some t ∧ (s.versions id).findRev? (·.isVisibleTo t s.txs) = some v ∧
    isWriteWriteConflict s.txs t v = true

/-- A new version is put into free rows only, and who is rolled back has ended only own versions. -/
def Disciplined (s : MvStore) : Call → Prop
  | .insert tx row => ∀ t, s.txs.lookup tx = some t → FreeFor s tx t.beginTs row.id
  | .upsert tx row =>
    (∀ t, s.txs.lookup tx = some t → (∃ v ∈ s.versions row.id, v.isVisibleTo t s.txs = true) ∨
      FreeFor s tx t.beginTs row.id) ∧ (Conflicts s tx row.id → Clean s tx)
  | .update tx row => Conflicts s tx row.id → Clean s tx
  | .delete tx id => Conflicts s tx id → Clean s tx
  | .rollbackTx tx => Clean s tx
  | _ => True

def Snapshots.view (a : Snapshots) (id : RowID) : TxID → Option (Nat × Option (Option Row)) :=
  fun tx => (a.running tx).map fun r => (r.beginTs, r.writes id)

/-- The store shows every transaction what the history says. -/
structure Isolated (now : Nat) (s : MvStore) (a : Snapshots) : Prop where
  known : ∀ {tx t}, s.txs.lookup tx = some t → ∃ r, a.running tx = some r ∧ r.beginTs = t.beginTs
  gone : ∀ {tx}, s.txs.lookup tx = none → a.running tx = none
  early : ∀ {tx r}, a.running tx = some r → r.beginTs < now
  written : ∀ {id v tx t}, v ∈ s.versions id → v.MarkedBy tx → s.txs.lookup tx = some t → id ∈ t.writeSet
  rows : ∀ id, RowOk now a.log id (a.view id) (s.versions id)
  past : ∀ c ∈ a.log, c.commitTs < now
  apart : a.log.Pairwise Apart

namespace Isolated
variable {id : RowID}

theorem init : Isolated 0 {} .init where
  known := nofun
  gone _ := rfl
  early := nofun
  written := nofun
  rows id := .nil 0 id
  past := nofun
  apart := .nil

variable (h : Isolated now s a)
include h

theorem tracked (hv : v ∈ s.versions id) (hm : v.MarkedBy tx) : ∃ t, s.txs.lookup tx = some t := by
  cases hl : s.txs.lookup tx with
  | some t => exact ⟨t,rfl⟩
  | none =>
    refine absurd ?_ ((h.rows id).marked hv hm)
    rw [view,h.gone hl,map_none]

variable (hs : Sound s) (ht : s.txs.lookup tx = some t)
include hs ht

theorem isVisibleTo_eq (hv : v ∈ s.versions id) : v.isVisibleTo t s.txs = sees tx t.beginTs v := by
  unfold RowVersion.isVisibleTo isBeginVisible isEndVisible sees
  congr 1
  · cases hb : v.beginMark with
    | timestamp ts => rfl
    | txID x =>
      obtain ⟨u,hu⟩ := h.tracked hv (.inl hb)
      simp [hu,hs.active hu,hs.named hu,hs.named ht,eq_comm]
  · cases he : v.endMark with
    | none => rfl
    | some mark =>
      cases mark with
      | timestamp ts => rfl
      | txID x =>
        obtain ⟨u,hu⟩ := h.tracked hv (.inr he)
        simp [hu,hs.active hu,hs.named hu,hs.named ht,eq_comm]

theorem filter_visible (hr : a.running tx = some r) (id : RowID) :
    ((s.versions id).filter (·.isVisibleTo t s.txs)).map RowVersion.row = (a.read r id).toList := by
  obtain ⟨r',hr',hts⟩ := h.known ht
  obtain rfl : r = r' := some.inj (hr.symm.trans hr')
  rw [filter_congr fun v hv => h.isVisibleTo_eq hs ht hv,← hts]
  exact (h.rows id).seen (by rw [view,hr,map_some])

/-- What the call reads is what the history says. -/
theorem read_eq (hr : a.running tx = some r) (id : RowID) : (s.read tx id).2 = .ok (a.read r id) := by
  have hse := h.filter_visible hs ht hr id
  have hfi : ((s.versions id).findRev? (·.isVisibleTo t s.txs)).map RowVersion.row = a.read r id := by
    rw [findRev?_eq_find?_reverse,← head?_filter,filter_reverse,head?_reverse,← getLast?_map,hse]
    cases a.read r id <;> rfl
  rw [MvStore.read_eq hs ht]
  split
  · next v heq =>
    rw [heq] at hfi
    exact congrArg Except.ok hfi
  · next heq =>
    rw [heq] at hfi
    exact congrArg Except.ok hfi

end Isolated

namespace Snapshots
variable {a : Snapshots}

theorem running_set : (a.set tx o).running tx' = if tx' = tx then o else a.running tx' :=
  rfl

theorem view_set (tx : TxID) (id : RowID) : (a.set tx o).view id =
      Function.update (a.view id) tx (o.map fun r => (r.beginTs,r.writes id)) := by
  funext tx'
  unfold view set Function.update
  by_cases heq : tx' = tx
  · subst heq
    simp
  · simp [heq]

theorem view_write (hr : a.running tx = some r) (id id' : RowID) : (a.write tx id o).view id' =
      if id' = id then update (a.view id) tx (some (r.beginTs,some o)) else a.view id' := by
  rw [write,view_set,hr]
  split
  · next heq =>
    subst heq
    simp
  · next hne =>
    simp only [map_some,if_neg hne]
    simp [view,hr]

theorem write_write (id : RowID) : (a.write tx id o).write tx id o' = a.write tx id o' := by
  unfold write set
  congr 1
  funext tx'
  by_cases heq : tx' = tx
  · simp only [heq,if_true,Option.map_map]
    congr 1
    funext r
    simp only [comp,Running.mk.injEq,true_and]
    funext id'
    split <;> rfl
  · simp [heq]

end Snapshots

namespace Isolated
variable {s' : MvStore} {a : Snapshots} {id : RowID}

section

variable (h : Isolated now s a)
include h

theorem tracked_of_running (hr : a.running tx = some r) : ∃ t, s.txs.lookup tx = some t := by
  cases hl : s.txs.lookup tx with
  | some t => exact ⟨t,rfl⟩
  | none =>
    rw [h.gone hl] at hr
    cases hr

/-- A transaction leaves the store, and what it has to do with the rows has been settled. -/
theorem leave {now' : Nat} {a' : Snapshots} (htxs : s'.txs = s.txs.erase tx)
    (hrun : ∀ tx', a'.running tx' = if tx' = tx then none else a.running tx') (hnow : now ≤ now')
    (hma : ∀ {id v tx'}, tx' ≠ tx → v ∈ s'.versions id → v.MarkedBy tx' → ∃ w ∈ s.versions id, w.MarkedBy tx')
    (hro : ∀ id, RowOk now' a'.log id (a'.view id) (s'.versions id))
    (hpa : ∀ c ∈ a'.log, c.commitTs < now') (hap : a'.log.Pairwise Apart) :
    Isolated now' s' a' := by
  have hlo : ∀ {tx' t'}, s'.txs.lookup tx' = some t' → tx' ≠ tx ∧ s.txs.lookup tx' = some t' := by
    intro tx' t' ht'
    have hne : tx' ≠ tx := by
      rintro rfl
      rw [htxs,lookup_erase] at ht'
      cases ht'
    rw [htxs,lookup_erase_ne hne] at ht'
    exact ⟨hne,ht'⟩
  constructor
  case known =>
    intro tx' t' ht'
    obtain ⟨hne,ht'⟩ := hlo ht'
    rw [hrun,if_neg hne]
    exact h.known ht'
  case gone =>
    intro tx' ht'
    rw [hrun]
    split
    · rfl
    · next hne => exact h.gone (by rwa [htxs,lookup_erase_ne hne] at ht')
  case early =>
    intro tx' r' hr'
    rw [hrun] at hr'
    split at hr'
    · cases hr'
    · exact Nat.lt_of_lt_of_le (h.early hr') hnow
  case written =>
    intro id v tx' t' hv hm ht'
    obtain ⟨hne,ht'⟩ := hlo ht'
    obtain ⟨w,hw,hm⟩ := hma hne hv hm
    exact h.written hw hm ht'
  case rows => exact hro
  case past => exact hpa
  case apart => exact hap

theorem apart_of_running (hr : a.running tx = some r) {c : Committed}
    (hc : c ∈ a.log) : Apart c ⟨r.beginTs,ts,r.writes⟩ := by
  intro id hcw hrw
  obtain ⟨w,hw⟩ := ne_none_iff_exists'.mp hrw
  have hvi : a.view id tx = some (r.beginTs, some w) := by
    rw [view,hr]
    exact congrArg (fun w => some (r.beginTs, w)) hw
  obtain ⟨v,hv,hm⟩ := (h.rows id).committed hc hcw
  have hhe := (h.rows id).held hvi hv
  rcases hm with hb | he
  · obtain hb' | ⟨b,hle,hb'⟩ := hhe.began
    · cases hb.symm.trans hb'
    · cases hb.symm.trans hb'
      exact .inl hle
  · obtain ⟨-,he'⟩ | he' | ⟨e,hle,he'⟩ := hhe.ended
    · cases he.symm.trans he'
    · cases he.symm.trans he'
    · cases he.symm.trans he'
      exact .inl hle

section

variable (ht : s.txs.lookup tx = some t)
include ht

/-- A running transaction writes a row, of which the versions become `l`. -/
theorem write (hr : a.running tx = some r)
    (hids : s'.txs = s.txs.insert tx (t.insertToWriteSet id))
    (hvs : ∀ id', s'.versions id' = if id' = id then l else s.versions id')
    (hma : ∀ {v tx'}, v ∈ l → v.MarkedBy tx' → tx' = tx ∨ ∃ w ∈ s.versions id, w.MarkedBy tx')
    (hrow : RowOk now a.log id (update (a.view id) tx (some (r.beginTs,some o))) l) :
    Isolated now s' (a.write tx id o) := by
  have hru : ∀ tx', (a.write tx id o).running tx' = if tx' = tx then
      some { r with writes := fun id' => if id' = id then some o else r.writes id' } else a.running tx' := by
    intro tx'
    rw [Snapshots.write,hr]
    rfl
  have hlo : ∀ {tx'}, tx' ≠ tx → s'.txs.lookup tx' = s.txs.lookup tx' := by
    intro tx' hne
    rw [hids,lookup_insert_ne hne]
  have hse : s'.txs.lookup tx = some (t.insertToWriteSet id) := by
    rw [hids,lookup_insert]
  have hbe : r.beginTs = t.beginTs := by
    obtain ⟨r',hr',hts⟩ := h.known ht
    obtain rfl : r = r' := some.inj (hr.symm.trans hr')
    exact hts
  constructor
  case known =>
    intro tx' t' ht'
    rw [hru]
    split
    · next heq =>
      subst heq
      obtain rfl : t.insertToWriteSet id = t' := some.inj (hse.symm.trans ht')
      exact ⟨_,rfl,hbe⟩
    · next hne => exact h.known ((hlo hne).symm.trans ht')
  case gone =>
    intro tx' ht'
    rw [hru]
    split
    · next heq =>
      subst heq
      cases hse.symm.trans ht'
    · next hne => exact h.gone ((hlo hne).symm.trans ht')
  case early =>
    intro tx' r' hr'
    rw [hru] at hr'
    split at hr'
    · cases hr'
      exact (h.early hr : r.beginTs < now)
    · exact h.early hr'
  case written =>
    intro id' u tx' t' hu hm ht'
    rw [hvs] at hu
    by_cases heq : tx' = tx
    · subst heq
      obtain rfl : t.insertToWriteSet id = t' := some.inj (hse.symm.trans ht')
      split at hu
      · next hid => exact hid ▸ mem_insert_self
      · exact mem_insert_of_mem (h.written hu hm ht)
    · rw [hlo heq] at ht'
      split at hu
      · next hid =>
        obtain ⟨w,hw,hm⟩ := (hma hu hm).resolve_left heq
        exact hid ▸ h.written hw hm ht'
      · exact h.written hu hm ht'
  case rows =>
    intro id'
    rw [hvs,view_write hr]
    split
    · next hid => exact hid ▸ hrow
    · exact h.rows id'
  case past => exact h.past
  case apart => exact h.apart

theorem view_eq (id : RowID) :
    ∃ r, a.running tx = some r ∧ r.beginTs = t.beginTs ∧ a.view id tx = some (r.beginTs,r.writes id) := by
  obtain ⟨r,hr,hts⟩ := h.known ht
  exact ⟨r,hr,hts,by rw [view,hr,map_some]⟩

theorem touch (id : RowID) :
    Isolated now { s with txs := s.txs.insert tx (t.insertToReadSet id) } a := by
  have hlo : ∀ {tx' t'}, (s.txs.insert tx (t.insertToReadSet id)).lookup tx' = some t' →
      ∃ u, s.txs.lookup tx' = some u ∧ t'.beginTs = u.beginTs ∧ t'.writeSet = u.writeSet := by
    intro tx' t' ht'
    by_cases heq : tx' = tx
    · subst heq
      rw [lookup_insert] at ht'
      cases ht'
      exact ⟨t,ht,rfl,rfl⟩
    · rw [lookup_insert_ne heq] at ht'
      exact ⟨t',ht',rfl,rfl⟩
  refine ⟨fun ht' => ?_,fun {tx'} ht' => ?_,h.early,fun hv hm ht' => ?_,h.rows,h.past,h.apart⟩
  · obtain ⟨u,hu,hts,-⟩ := hlo ht'
    exact hts ▸ h.known hu
  · by_cases heq : tx' = tx
    · subst heq
      cases (lookup_insert _).symm.trans ht'
    · exact h.gone ((lookup_insert_ne heq).symm.trans ht')
  · obtain ⟨u,hu,-,hws⟩ := hlo ht'
    exact hws ▸ h.written hv hm hu

end

variable (hs : Sound s)
include hs

theorem beginTx (hnow : now ≤ ts) :
    Isolated (ts + 1) (s.beginTx ts).1 (a.set s.txIds (some ⟨ts,fun _ => none⟩)) := by
  have hfr : s.txs.lookup s.txIds = none := by
    cases hl : s.txs.lookup s.txIds with
    | none => rfl
    | some t => exact absurd (hs.bounded hl) (Nat.lt_irrefl _)
  constructor
  case known =>
    intro tx' t' ht'
    rw [running_set]
    obtain ⟨rfl,rfl⟩ | ht' := lookup_beginTx ht'
    · exact ⟨_,if_pos rfl,rfl⟩
    · have hne : tx' ≠ s.txIds := by
        rintro rfl
        cases hfr.symm.trans ht'
      rw [if_neg hne]
      exact h.known ht'
  case gone =>
    intro tx' ht'
    have hne : tx' ≠ s.txIds := by
      rintro rfl
      cases (lookup_insert _).symm.trans ht'
    rw [running_set,if_neg hne]
    exact h.gone ((lookup_insert_ne hne).symm.trans ht')
  case early =>
    intro tx' r' hr'
    rw [running_set] at hr'
    split at hr'
    · cases hr'
      exact Nat.lt_succ_self ts
    · exact Nat.lt_succ_of_lt (Nat.lt_of_lt_of_le (h.early hr') hnow)
  case written =>
    intro id v tx' t' hv hm ht'
    obtain ⟨u,hu⟩ := h.tracked hv hm
    have hne : tx' ≠ s.txIds := Nat.ne_of_lt (hs.bounded hu)
    exact h.written hv hm ((lookup_insert_ne hne).symm.trans ht')
  case rows =>
    intro id
    rw [view_set]
    exact (h.rows id).beginTx (by rw [view,h.gone hfr,map_none]) hnow h.past
  case past => exact fun c hc => Nat.lt_succ_of_lt (Nat.lt_of_lt_of_le (h.past c hc) hnow)
  case apart => exact h.apart

variable (ht : s.txs.lookup tx = some t)
include ht

theorem insert (hfr : FreeFor s tx t.beginTs row.id) :
    Isolated now (s.insert tx row).1 (a.write tx row.id (some row)) := by
  obtain ⟨r,hr,hts,hvi⟩ := h.view_eq ht row.id
  rw [MvStore.insert_eq hs ht]
  have hpe : ∀ s' : MvStore, (s'.insertVersionRaw (s.versions row.id) ⟨.txID tx,none,row⟩).Perm
      (⟨.txID tx,none,row⟩ :: s.versions row.id) := fun s' => insertAfterLast_perm ..
  refine h.write ht hr rfl (fun id' => versions_insertVersion ..) (fun {v tx'} hv hm => ?_) ?_
  · obtain rfl | hv := mem_cons.mp ((hpe _).mem_iff.mp hv)
    · rcases hm with hb | he
      · exact .inl (TxTimestampOrID.txID.inj hb).symm
      · cases he
    · exact .inr ⟨v,hv,hm⟩
  · exact ((h.rows row.id).insert hvi row (hts.symm ▸ hfr)).perm (hpe _)

theorem endMark_of_no_conflict (hv : v ∈ s.versions id) (hse : sees tx t.beginTs v = true)
    (hco : ¬isWriteWriteConflict s.txs t v = true) : v.endMark = none := by
  cases he : v.endMark with
  | none => rfl
  | some mark =>
    cases mark with
    | timestamp e => simp [isWriteWriteConflict,he] at hco
    | txID x =>
      obtain ⟨u,hu⟩ := h.tracked hv (.inr he)
      have hx : x ≠ tx := by
        simp only [sees,he,Bool.and_eq_true] at hse
        simpa using hse.2
      simp [isWriteWriteConflict,he,hu,hs.named hu,hs.named ht,hs.active hu,hx] at hco

theorem rollbackTx (hcl : Clean s tx) : Isolated now (s.rollbackTx tx).1 (a.set tx none) := by
  have hf := retainOthers_changesRow tx
  obtain ⟨htxs,-⟩ := hf.foldl_txs t.writeSet s
  rw [MvStore.rollbackTx_eq hs ht]
  have hvs : ∀ id, (t.writeSet.foldl (retainOthers tx) s).versions id =
      (s.versions id).filter fun v => v.beginMark ≠ .txID tx := by
    intro id
    rw [hf.foldl_versions]
    split
    · rfl
    · next hid =>
      refine (filter_eq_self.mpr fun v hv => ?_).symm
      simpa using fun hb => hid (h.written hv (.inl hb) ht)
  refine h.leave (congrArg (erase tx) htxs) (fun _ => rfl) (Nat.le_refl _)
    (fun {id v tx'} _ hv hm => ⟨v,mem_of_mem_filter (hvs id ▸ hv),hm⟩) (fun id => ?_) h.past h.apart
  rw [view_set]
  exact (hvs id).symm ▸ (h.rows id).rollbackTx (hcl id)

theorem commitTx (hnow : now ≤ ts) (hok : (s.commitTx tx ts storage).2 = .ok ()) :
    Isolated (ts + 1) (s.commitTx tx ts storage).1 (a.commit tx ts) := by
  obtain ⟨r,hr,hts⟩ := h.known ht
  have hf := rewriteRow_changesRow tx ts
  obtain ⟨htxs,-⟩ := hf.foldl_txs t.writeSet s
  have hvs : ∀ id, (t.writeSet.foldl (rewriteRow tx ts) s).versions id =
      (s.versions id).map (·.commit tx ts) := by
    intro id
    rw [hf.foldl_versions]
    split
    · rfl
    · next hid =>
      refine ((map_congr_left fun v hv => ?_).trans (map_id _)).symm
      exact RowOk.commit_of_not_markedBy fun hm => hid (h.written hv hm ht)
  have hco : a.commit tx ts = { a.set tx none with log := a.log ++ [⟨r.beginTs,ts,r.writes⟩] } := by
    rw [commit,hr]
  rw [commitTx_eq hs ht] at hok ⊢
  dsimp only at hok ⊢
  split
  · next heq =>
    rw [heq] at hok
    cases hok
  · rw [hco]
    refine h.leave (congrArg (erase tx) htxs) (fun _ => rfl) (Nat.le_succ_of_le hnow)
      (fun {id v tx'} hne hv hm => ?_) (fun id => ?_) (fun c hc => ?_) ?_
    · obtain ⟨w,hw,rfl⟩ := mem_map.mp (hvs id ▸ hv)
      exact ⟨w,hw,(RowOk.markedBy_commit hne).mp hm⟩
    · have hvi : a.view id tx = some (r.beginTs, r.writes id) := by
        rw [view,hr,map_some]
      have hearly : ∀ {tx b w}, a.view id tx = some (b, w) → b < now := by
        intro tx' b w hv
        obtain ⟨r',hr',he⟩ := map_eq_some_iff.mp hv
        cases he
        exact h.early hr'
      have hrow := (h.rows id).commitTx hvi hnow hearly ⟨r.beginTs,ts,r.writes⟩ rfl rfl
      have hv : view { a.set tx none with log := a.log ++ [⟨r.beginTs,ts,r.writes⟩] } id =
          update (a.view id) tx none := view_set tx id
      rw [hv]
      exact (hvs id).symm ▸ hrow
    · obtain hc | hc := mem_append.mp hc
      · exact Nat.lt_succ_of_lt (Nat.lt_of_lt_of_le (h.past c hc) hnow)
      · rw [mem_singleton.mp hc]
        exact Nat.lt_succ_self _
    · refine pairwise_append.mpr ⟨h.apart,pairwise_singleton ..,fun c hc d hd => ?_⟩
      rw [mem_singleton.mp hd]
      exact h.apart_of_running hr hc

/-- A delete finds nothing, or ends what it finds, or is rolled back. -/
theorem delete (id : RowID) (hco : Conflicts s tx id → Clean s tx) :
    s.delete tx id = (s,.ok false) ∧ (∀ v ∈ s.versions id, v.isVisibleTo t s.txs = false) ∨
      (∃ s1, s.delete tx id = (s1,.ok true) ∧ Isolated now s1 (a.write tx id none)) ∨
      ∃ s1, s.delete tx id = (s1,.error (.error .writeWriteConflict)) ∧ Isolated now s1 (a.set tx none) := by
  obtain ⟨r,hr,hts,hvi⟩ := h.view_eq ht id
  rw [delete_eq hs ht]
  cases hfi : (s.versions id).findRev? (·.isVisibleTo t s.txs) with
  | none =>
    refine .inl ⟨rfl,fun v hv => ?_⟩
    rw [findRev?_eq_find?_reverse,find?_eq_none] at hfi
    simpa using hfi v (mem_reverse.mpr hv)
  | some v =>
    dsimp only
    split
    · next hc => exact .inr (.inr ⟨_,rfl,h.rollbackTx hs ht (hco ⟨t,v,ht,hfi,hc⟩)⟩)
    · next hc =>
      have hmem : v ∈ s.versions id ∧ v.isVisibleTo t s.txs = true := by
        rw [findRev?_eq_find?_reverse] at hfi
        exact ⟨mem_reverse.mp (mem_of_find?_eq_some hfi),by simpa using find?_some hfi⟩
      have hse : sees tx t.beginTs v = true := h.isVisibleTo_eq hs ht hmem.1 ▸ hmem.2
      have hend := h.endMark_of_no_conflict hs ht hmem.1 hse hc
      obtain ⟨l0,hold,hnew⟩ := exists_perm_modifyLast
        (g := fun rv : RowVersion => { rv with endMark := some (.txID tx) }) hfi
      refine .inr (.inl ⟨_,rfl,h.write ht hr rfl (fun id' => versions_insert ..) ?_ ?_⟩)
      · intro u tx' hu hm
        obtain rfl | hu := mem_cons.mp (hnew.mem_iff.mp hu)
        · rcases hm with hb | he
          · exact .inr ⟨v,hmem.1,.inl hb⟩
          · exact .inl (TxTimestampOrID.txID.inj (some.inj he)).symm
        · exact .inr ⟨u,hold.mem_iff.mpr (mem_cons_of_mem v hu),hm⟩
      · exact (((h.rows id).perm hold.symm).endVersion hvi (hts.symm ▸ hse) hend).perm hnew

end

theorem freeFor_of_deleted (h : Isolated now s (a.write tx id none)) (hr : a.running tx = some r)
    (ht : s.txs.lookup tx = some t) : FreeFor s tx t.beginTs id := by
  obtain ⟨r',hr',hts,-⟩ := h.view_eq ht id
  have hvi : (a.write tx id none).view id tx = some (r.beginTs, some none) := by
    rw [view_write hr,if_pos rfl,update_self]
  have hbe : r'.beginTs = r.beginTs := by
    rw [Snapshots.write,Snapshots.running_set,if_pos rfl,hr] at hr'
    cases hr'
    rfl
  intro v hv
  rw [← hts,hbe]
  obtain ⟨hb,he⟩ | he := ((h.rows id).held hvi hv).ended
  · have hnil : (s.versions id).filter (sees tx r.beginTs) = [] :=
      map_eq_nil_iff.mp ((h.rows id).seen hvi)
    exact absurd (filter_eq_nil_iff.mp hnil v hv) (by simp [sees,hb,he])
  · exact he

theorem insert_after_delete (h : Isolated now s1 (a.write tx row.id none)) (hs : Sound s1)
    (hr : a.running tx = some r) :
    ∃ s2, s1.insert tx row = (s2,.ok ()) ∧ Isolated now s2 (a.write tx row.id (some row)) := by
  have hrun : ∃ r', (a.write tx row.id none).running tx = some r' := by
    rw [Snapshots.write,Snapshots.running_set,if_pos rfl,hr]
    exact ⟨_,rfl⟩
  obtain ⟨t1,ht1⟩ := h.tracked_of_running hrun.choose_spec
  have hins := h.insert hs ht1 (h.freeFor_of_deleted hr ht1)
  rw [write_write] at hins
  exact ⟨_,Prod.ext rfl (by rw [MvStore.insert_eq hs ht1]),hins⟩

end Isolated

theorem Isolated.mono (h : Isolated now s a) (hle : now ≤ now') : Isolated now' s a where
  known := h.known
  gone := h.gone
  early hr := Nat.lt_of_lt_of_le (h.early hr) hle
  written := h.written
  rows id := { h.rows id with
    beganAt := fun hv hb => Nat.lt_of_lt_of_le ((h.rows id).beganAt hv hb) hle
    endedAt := fun hv he => by
      obtain ⟨hlt,hb⟩ := (h.rows id).endedAt hv he
      exact ⟨Nat.lt_of_lt_of_le hlt hle,hb⟩ }
  past c hc := Nat.lt_of_lt_of_le (h.past c hc) hle
  apart := h.apart

/-- Every call that keeps to the discipline keeps the store in step with the history. -/
theorem Isolated.step (h : Isolated now s a) (hs : Sound s) (hf : call.Fresh now) (hd : Disciplined s call) :
    Isolated (call.advance now) (s.step call).1 (a.next (call,(s.step call).2)) := by
  cases hc : call.tx? with
  | none =>
    cases call with
    | beginTx ts => exact h.beginTx hs (hf ts rfl)
    | getTxId => exact ⟨h.known,h.gone,h.early,h.written,h.rows,h.past,h.apart⟩
    | _ => cases hc
  | some tx =>
    cases ht : s.txs.lookup tx with
    | none =>
      obtain ⟨r,hst,rfl | rfl | rfl⟩ := step_of_unknown ht hc <;> rw [hst]
      all_goals cases call <;> cases hc <;> exact h.mono (le_advance hf)
    | some t =>
      obtain ⟨r,hr,-⟩ := h.known ht
      cases call with
      | beginTx ts | getTxId => cases hc
      | insert tx' row =>
        cases hc
        have hins := h.insert hs ht (hd t ht)
        rw [MvStore.insert_eq hs ht] at hins
        rw [MvStore.step,MvStore.insert_eq hs ht]
        exact hins
      | update tx' row =>
        cases hc
        have hs1 := (Kept.delete hs ht row.id).sound hs
        rw [MvStore.step,MvStore.update]
        obtain ⟨heq,-⟩ | ⟨s1,heq,h1⟩ | ⟨s1,heq,h1⟩ := h.delete hs ht row.id hd
        · rw [heq]
          exact h
        · rw [heq] at hs1 ⊢
          dsimp only
          obtain ⟨s2,heq2,hins⟩ := h1.insert_after_delete hs1 hr
          rw [heq2]
          exact hins
        · rw [heq]
          exact h1
      | upsert tx' row =>
        cases hc
        have hs1 := (Kept.delete hs ht row.id).sound hs
        rw [MvStore.step,MvStore.upsert]
        obtain ⟨heq,hnone⟩ | ⟨s1,heq,h1⟩ | ⟨s1,heq,h1⟩ := h.delete hs ht row.id hd.2
        · rw [heq]
          dsimp only
          have hfr := (hd.1 t ht).resolve_left (by
            rintro ⟨v,hv,hvis⟩
            cases (hnone v hv).symm.trans hvis)
          have hins := h.insert hs ht hfr
          rw [MvStore.insert_eq hs ht] at hins ⊢
          exact hins
        · rw [heq] at hs1 ⊢
          dsimp only
          obtain ⟨s2,heq2,hins⟩ := h1.insert_after_delete hs1 hr
          rw [heq2]
          exact hins
        · rw [heq]
          exact h1
      | delete tx' id =>
        cases hc
        rw [MvStore.step]
        obtain ⟨heq,-⟩ | ⟨s1,heq,h1⟩ | ⟨s1,heq,h1⟩ := h.delete hs ht id hd
        · rw [heq]
          exact h
        · rw [heq]
          exact h1
        · rw [heq]
          exact h1
      | read tx' id =>
        cases hc
        rw [MvStore.step,MvStore.read_eq hs ht]
        cases (s.versions id).findRev? (·.isVisibleTo t s.txs) with
        | some v => exact h.touch ht id
        | none => exact h
      | commitTx tx' ts storage =>
        cases hc
        cases hok : (s.commitTx tx ts storage).2 with
        | ok u =>
          have hco := h.commitTx hs ht (hf ts rfl) hok
          rw [MvStore.step]
          dsimp only
          rw [hok]
          exact hco
        | error e =>
          have hsa : (s.commitTx tx ts storage).1 = s := by
            rw [commitTx_eq hs ht] at hok ⊢
            dsimp only at hok ⊢
            split
            · rfl
            · next heq =>
              rw [heq] at hok
              cases hok
          rw [MvStore.step]
          dsimp only
          rw [hok,hsa]
          exact h.mono (le_advance hf)
      | rollbackTx tx' =>
        cases hc
        have hro := h.rollbackTx hs ht hd
        rw [MvStore.rollbackTx_eq hs ht] at hro
        rw [MvStore.step,MvStore.rollbackTx_eq hs ht]
        exact hro

theorem Isolated.run (h : Isolated now s a) (hs : Sound s) (hinc : Increasing now calls)
    (hd : s.Along Disciplined calls) :
    Isolated (calls.foldl Call.advance now) (s.run calls) ((s.transcript calls).foldl .next a) := by
  induction calls generalizing now s a with
  | nil => exact h
  | cons call calls ih => exact ih (h.step hs hinc.1 hd.1) (hs.step call) hinc.2 hd.2

/-- After every history that keeps to the discipline, each running transaction reads its own latest
write or else the row that the transactions committed before it began have left, it sees at most one
version of a row, and no two transactions that overlapped have both written a row and committed. -/
theorem snapshot_isolation (calls : List Call) (hinc : Increasing 0 calls)
    (hd : ({} : MvStore).Along Disciplined calls) : let s := ({} : MvStore).run calls
    let a := ofTranscript (({} : MvStore).transcript calls)
    (∀ tx t id, s.txs.lookup tx = some t → ∃ r, a.running tx = some r ∧ r.beginTs = t.beginTs ∧
      (s.read tx id).2 = .ok (a.read r id) ∧
      ((s.versions id).filter (·.isVisibleTo t s.txs)).length ≤ 1) ∧
    a.log.Pairwise Apart := by
  intro s a
  have h : Isolated _ s a := Isolated.init.run .init hinc hd
  have hs : Sound s := Sound.init.run calls
  refine ⟨fun tx t id ht => ?_,h.apart⟩
  obtain ⟨r,hr,hts⟩ := h.known ht
  refine ⟨r,hr,hts,h.read_eq hs ht hr id,?_⟩
  rw [← length_map (f := RowVersion.row),h.filter_visible hs ht hr id]
  cases a.read r id <;> simp

/-- One transaction updates a row while another reads it; the second deletes a row of its own. -/
def updateWhileReading : List Call :=
  [.beginTx 0, .insert 1 ⟨⟨1, 1⟩, [7]⟩, .commitTx 1 1 .noop, .beginTx 2, .beginTx 3,
    .update 2 ⟨⟨1, 1⟩, [8]⟩, .upsert 3 ⟨⟨1, 2⟩, [9]⟩, .delete 3 ⟨1, 2⟩, .commitTx 2 4 .noop]

theorem updateWhileReading_disciplined : ({} : MvStore).Along Disciplined updateWhileReading := by
  refine ⟨trivial,fun t _ => nofun,trivial,trivial,trivial,fun ⟨t,v,ht,hv,hc⟩ => ?_,
    ⟨fun t _ => .inr nofun,fun ⟨t,v,ht,hv,hc⟩ => ?_⟩,fun ⟨t,v,ht,hv,hc⟩ => ?_,trivial,trivial⟩
  all_goals
    cases ht
    cases hv
  all_goals exact absurd hc (by decide)

theorem updateWhileReading_isolated :
    ((({} : MvStore).run updateWhileReading).read 3 ⟨1, 1⟩).2 = .ok (some ⟨⟨1, 1⟩, [7]⟩) := by
  obtain ⟨r,hr,-,hre,-⟩ :=
    (snapshot_isolation updateWhileReading (by decide) updateWhileReading_disciplined).1 3 _ ⟨1,1⟩ rfl
  cases hr
  exact hre

/-- The store has of each row what the commits in turn have left, and no two running transactions hold it. -/
theorem committed_current (calls : List Call) (hinc : Increasing 0 calls)
    (hd : ({} : MvStore).Along Disciplined calls) (id : RowID) : let s := ({} : MvStore).run calls
    ((s.versions id).filter (·.isCurrent)).map (·.row) =
      (replay (ofTranscript (({} : MvStore).transcript calls)).log id).toList ∧
    ∀ v ∈ s.versions id, ∀ u ∈ s.versions id, ∀ tx tx', v.MarkedBy tx → u.MarkedBy tx' → tx' = tx := by
  have h := (Isolated.init.run .init hinc hd).rows id
  refine ⟨h.current,?_⟩
  intro v hv u hu tx tx' hm hm'
  obtain ⟨ts,w,hvi⟩ := h.wrote hv hm
  exact (h.held hvi hu).eq_of_markedBy hm'

theorem updateWhileReading_current :
    (((({} : MvStore).run updateWhileReading).versions ⟨1,1⟩).filter (·.isCurrent)).map (·.row) = [⟨⟨1,1⟩,[8]⟩] :=
  (committed_current updateWhileReading (by decide) updateWhileReading_disciplined ⟨1,1⟩).1

/-- Two transactions insert the same row and both commit. -/
def insertsCollide : List Call :=
  [.beginTx 0, .beginTx 1, .insert 1 ⟨⟨1, 1⟩, [1]⟩, .insert 2 ⟨⟨1, 1⟩, [2]⟩, .commitTx 1 2 .noop,
    .commitTx 2 3 .noop, .beginTx 4]

/-- They overlap and both write the row, and a third transaction sees two versions of it. -/
theorem insertsCollide_not_isolated : let s := ({} : MvStore).run insertsCollide
    let a := ofTranscript (({} : MvStore).transcript insertsCollide)
    Increasing 0 insertsCollide ∧ (a.log.map fun c => (c.beginTs, c.commitTs, (c.writes ⟨1,1⟩).isSome)) =
        [(0, 2, true),(1, 3, true)] ∧
      ((s.versions ⟨1,1⟩).filter (·.isVisibleTo (.new 3 4) s.txs)).map (·.row.data) = [[1],[2]] := by
  decide

end OxiSql.Mvcc
