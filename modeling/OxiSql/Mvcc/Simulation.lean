import OxiSql.Mvcc.Effects

namespace OxiSql.Mvcc
open Lib List MvStore AList

def RowVersion.Free (out : TxID → Prop) (v : RowVersion) : Prop :=
  ∀ tx, out tx → v.beginMark ≠ .txID tx ∧ v.endMark ≠ some (.txID tx)

/-- The second store is the first one without the transactions in `out` and without some of its
hidden versions. -/
structure Sim (out : TxID → Prop) (hidden : RowVersion → Prop) (s s' : MvStore) : Prop where
  txIds : s'.txIds = s.txIds
  lookup : ∀ {tx}, ¬out tx → s'.txs.lookup tx = s.txs.lookup tx
  gone : ∀ {tx}, out tx → s'.txs.lookup tx = none
  thinned : ∀ id, Thinned hidden (s.versions id) (s'.versions id)
  free : ∀ {id v}, v ∈ s'.versions id → v.Free out

/-- No transaction that stays sees a hidden version or has to do with it. -/
structure Hides (out : TxID → Prop) (hidden : RowVersion → Prop) (s : MvStore) : Prop where
  unseen : ∀ {v}, hidden v → ∀ {tx t}, ¬out tx → s.txs.lookup tx = some t → v.isVisibleTo t s.txs = false
  unmarked : ∀ {v}, hidden v → ∀ {tx t}, ¬out tx → s.txs.lookup tx = some t →
    v.beginMark ≠ .txID tx ∧ v.endMark ≠ some (.txID tx)

/-- In a row the versions that began before the transaction come first. -/
def InOrder (s : MvStore) (tx : TxID) (id : RowID) : Prop :=
  ∀ t, s.txs.lookup tx = some t → (s.versions id).Pairwise fun v w =>
    s.getBeginTimestamp w.beginMark < t.beginTs → s.getBeginTimestamp v.beginMark < t.beginTs

variable {hidden : RowVersion → Prop} {s : MvStore} {v : RowVersion}

theorem RowVersion.commit_of_unmarked (h : v.beginMark ≠ .txID tx ∧ v.endMark ≠ some (.txID tx)) :
    v.commit tx ts = v := by
  rw [← getD_rewrittenForCommit,rewrittenForCommit_eq_none.mpr h,Option.getD_none]

/-- A commit leaves no new marks. -/
theorem RowVersion.Free.commit (h : v.Free out) : (v.commit tx ts).Free out := by
  have hmark : ∀ {mark : TxTimestampOrID} {tx'}, mark.commit tx ts = .txID tx' → mark = .txID tx' := by
    intro mark tx' hm
    unfold TxTimestampOrID.commit at hm
    split at hm
    · cases hm
    · exact hm
  refine fun tx' ho => ⟨fun hm => (h tx' ho).1 (hmark hm),fun hm => ?_⟩
  obtain ⟨mark,he,hm⟩ := Option.map_eq_some_iff.mp hm
  exact (h tx' ho).2 (he.trans (congrArg some (hmark hm)))

namespace Sim

section

variable (h : Sim out hidden s s')
include h

section

variable (hv : v.Free out)
include hv

theorem lookup_begin (hm : v.beginMark = .txID tx) : s'.txs.lookup tx = s.txs.lookup tx :=
  h.lookup fun ho => (hv tx ho).1 hm

theorem lookup_end (hm : v.endMark = some (.txID tx)) : s'.txs.lookup tx = s.txs.lookup tx :=
  h.lookup fun ho => (hv tx ho).2 hm

theorem isVisibleTo_eq (t : Transaction) : v.isVisibleTo t s'.txs = v.isVisibleTo t s.txs := by
  have hbe : isBeginVisible s'.txs t v = isBeginVisible s.txs t v := by
    unfold isBeginVisible
    cases hm : v.beginMark with
    | timestamp ts => rfl
    | txID tx => simp [h.lookup_begin hv hm]
  have hend : isEndVisible s'.txs t v = isEndVisible s.txs t v := by
    unfold isEndVisible
    cases hm : v.endMark with
    | none => rfl
    | some mark =>
      cases mark with
      | timestamp ts => rfl
      | txID tx => simp [h.lookup_end hv hm]
  rw [RowVersion.isVisibleTo,RowVersion.isVisibleTo,hbe,hend]

theorem isWriteWriteConflict_eq : isWriteWriteConflict s'.txs t v = isWriteWriteConflict s.txs t v := by
  unfold isWriteWriteConflict
  cases hm : v.endMark with
  | none => rfl
  | some mark =>
    cases mark with
    | timestamp ts => rfl
    | txID tx => simp [h.lookup_end hv hm]

theorem getBeginTimestamp_eq : s'.getBeginTimestamp v.beginMark = s.getBeginTimestamp v.beginMark := by
  unfold getBeginTimestamp
  cases hm : v.beginMark with
  | timestamp ts => rfl
  | txID tx => simp [h.lookup_begin hv hm]

end

/-- A transaction that stays finds the same version. -/
theorem findRev?_eq (hh : Hides out hidden s) (ho : ¬out tx)
    (ht : s.txs.lookup tx = some t) (id : RowID) : (s'.versions id).findRev? (·.isVisibleTo t s'.txs) =
      (s.versions id).findRev? (·.isVisibleTo t s.txs) := by
  rw [(h.thinned id).findRev?_eq fun v _ hv => hh.unseen hv ho ht]
  exact findRev?_congr fun v hv => h.isVisibleTo_eq (h.free hv) t

end

theorem getBeginTimestamp_touch (ht : s.txs.lookup tx = some t) (t' : Transaction) (ha : t.Alike t') (rows) :
    (MvStore.mk rows (s.txs.insert tx t') n).getBeginTimestamp mark = s.getBeginTimestamp mark := by
  unfold MvStore.getBeginTimestamp
  cases mark with
  | timestamp ts => rfl
  | txID tx' =>
    by_cases heq : tx' = tx
    · subst heq
      simp [ht,ha.2.2]
    · simp [lookup_insert_ne heq]

section

variable (h : Sim out hidden s s')
include h

theorem lookup_touch (ho : ¬out tx') : (s'.txs.insert tx t').lookup tx' = (s.txs.insert tx t').lookup tx' := by
  by_cases heq : tx' = tx
  · rw [heq,lookup_insert,lookup_insert]
  · rw [lookup_insert_ne heq,lookup_insert_ne heq,h.lookup ho]

theorem lookup_erase (ho : ¬out tx') : (s'.txs.erase tx).lookup tx' = (s.txs.erase tx).lookup tx' := by
  by_cases heq : tx' = tx
  · rw [heq,AList.lookup_erase,AList.lookup_erase]
  · rw [AList.lookup_erase_ne heq,AList.lookup_erase_ne heq,h.lookup ho]

theorem sound (hs : Sound s) : Sound s' := by
  have hlo : ∀ {tx t}, s'.txs.lookup tx = some t → s.txs.lookup tx = some t := by
    intro tx t hl
    by_cases ho : out tx
    · rw [h.gone ho] at hl
      cases hl
    · rwa [h.lookup ho] at hl
  exact ⟨fun hl => hs.active (hlo hl),fun hl => hs.named (hlo hl), fun hl => h.txIds.symm ▸ hs.bounded (hlo hl)⟩

theorem touch (ho : ¬out tx) {r r' : MvStore} (htxs : r.txs = s.txs.insert tx t')
    (htxs' : r'.txs = s'.txs.insert tx t') (hids : r.txIds = s.txIds) (hids' : r'.txIds = s'.txIds)
    (hro : ∀ id, Thinned hidden (r.versions id) (r'.versions id))
    (hfr : ∀ {id v}, v ∈ r'.versions id → v.Free out) : Sim out hidden r r' where
  txIds := hids'.trans (h.txIds.trans hids.symm)
  lookup ho' := by rw [htxs,htxs',h.lookup_touch ho']
  gone {tx'} ho' := by
    have hne : tx' ≠ tx := fun heq => ho (heq ▸ ho')
    rw [htxs',lookup_insert_ne hne,h.gone ho']
  thinned := hro
  free := hfr

theorem erase (hf : MvStore.ChangesRow change f) (ids : List RowID)
    (hro : ∀ id, Thinned hidden (change (s.versions id)) (change (s'.versions id)))
    (hfr : ∀ {id v}, v ∈ change (s'.versions id) → v.Free out) :
    Sim out hidden { ids.foldl f s with txs := (ids.foldl f s).txs.erase tx }
      { ids.foldl f s' with txs := (ids.foldl f s').txs.erase tx } := by
  obtain ⟨htxs,hids⟩ := hf.foldl_txs ids s
  obtain ⟨htxs',hids'⟩ := hf.foldl_txs ids s'
  refine ⟨hids'.trans (h.txIds.trans hids.symm),fun ho => ?_,fun {tx'} ho => ?_,fun id => ?_,fun {id v} hv => ?_⟩
  · rw [htxs,htxs',h.lookup_erase ho]
  · rw [htxs']
    by_cases heq : tx' = tx
    · rw [heq,AList.lookup_erase]
    · rw [AList.lookup_erase_ne heq,h.gone ho]
  · show Thinned hidden ((ids.foldl f s).versions id) ((ids.foldl f s').versions id)
    rw [hf.foldl_versions,hf.foldl_versions]
    split
    · exact hro id
    · exact h.thinned id
  · change v ∈ (ids.foldl f s').versions id at hv
    rw [hf.foldl_versions] at hv
    split at hv
    · exact hfr hv
    · exact h.free hv

end

theorem insertVersionRaw_touch (ht : s.txs.lookup tx = some t) :
    insertVersionRaw { s with txs := s.txs.insert tx (t.insertToWriteSet row.id) } l
        ⟨.txID tx,none,row⟩ =
      insertAfterLast (fun v => s.getBeginTimestamp v.beginMark < t.beginTs) ⟨.txID tx,none,row⟩ l := by
  have hown : s.getBeginTimestamp (.txID tx) = t.beginTs := by simp [MvStore.getBeginTimestamp,ht]
  unfold insertVersionRaw
  simp [getBeginTimestamp_touch ht (t.insertToWriteSet row.id) ⟨rfl,rfl,rfl⟩,hown]

section

variable (h : Sim out hidden s s')
include h

theorem insert (hs : Sound s) (ho : ¬out tx) (hord : InOrder s tx row.id) :
    Sim out hidden (s.insert tx row).1 (s'.insert tx row).1 ∧ (s'.insert tx row).2 = (s.insert tx row).2 := by
  have hlo := h.lookup ho
  cases ht : s.txs.lookup tx with
  | none =>
    rw [MvStore.insert,MvStore.insert,hlo,ht]
    exact ⟨h,rfl⟩
  | some t =>
    rw [ht] at hlo
    rw [insert_eq hs ht,insert_eq (h.sound hs) hlo]
    have hpl : insertAfterLast (fun v => s'.getBeginTimestamp v.beginMark < t.beginTs)
          ⟨.txID tx,none,row⟩ (s'.versions row.id) =
        insertAfterLast (fun v => s.getBeginTimestamp v.beginMark < t.beginTs)
          ⟨.txID tx,none,row⟩ (s'.versions row.id) :=
      insertAfterLast_congr fun v hv => by rw [h.getBeginTimestamp_eq (h.free hv)]
    refine ⟨h.touch ho rfl rfl rfl rfl (fun id => ?_) (fun {id v} hv => ?_),rfl⟩
    · rw [versions_insertVersion,versions_insertVersion,insertVersionRaw_touch ht, insertVersionRaw_touch hlo]
      split
      · refine hpl ▸ (h.thinned row.id).insertAfterLast ?_
        simpa using hord t ht
      · exact h.thinned id
    · rw [versions_insertVersion] at hv
      split at hv
      · obtain rfl | hv := mem_cons.mp ((insertAfterLast_perm ..).mem_iff.mp hv)
        · exact fun tx' ho' => ⟨fun heq => ho (TxTimestampOrID.txID.inj heq ▸ ho'),by simp⟩
        · exact h.free hv
      · exact h.free hv

theorem rollbackTx (hs : Sound s) (ho : ¬out tx) :
    Sim out hidden (s.rollbackTx tx).1 (s'.rollbackTx tx).1 ∧ (s'.rollbackTx tx).2 = (s.rollbackTx tx).2 := by
  have hlo := h.lookup ho
  cases ht : s.txs.lookup tx with
  | none =>
    rw [MvStore.rollbackTx,MvStore.rollbackTx,hlo,ht]
    exact ⟨h,rfl⟩
  | some t =>
    rw [ht] at hlo
    rw [rollbackTx_eq hs ht,rollbackTx_eq (h.sound hs) hlo]
    exact ⟨h.erase (retainOthers_changesRow tx) t.writeSet (fun id => (h.thinned id).filter _)
      fun hv => h.free (mem_of_mem_filter hv),rfl⟩

/-- A delete ends the same version in both stores, or meets the same conflict. -/
theorem delete (hs : Sound s) (hh : Hides out hidden s) (ho : ¬out tx)
    (ht : s.txs.lookup tx = some t) (id : RowID) : Sim out hidden (s.delete tx id).1 (s'.delete tx id).1 ∧
      (s'.delete tx id).2 = (s.delete tx id).2 := by
  have ht' := (h.lookup ho).trans ht
  rw [delete_eq hs ht,delete_eq (h.sound hs) ht',h.findRev?_eq hh ho ht]
  cases hfi : (s.versions id).findRev? (·.isVisibleTo t s.txs) with
  | none => exact ⟨h,rfl⟩
  | some v =>
    have hmem : v ∈ s'.versions id := by
      rw [← h.findRev?_eq hh ho ht,findRev?_eq_find?_reverse] at hfi
      exact mem_reverse.mp (mem_of_find?_eq_some hfi)
    dsimp only
    rw [h.isWriteWriteConflict_eq (h.free hmem)]
    split
    · exact ⟨(h.rollbackTx hs ho).1,rfl⟩
    · have hsa : modifyLast (·.isVisibleTo t s'.txs)
            (fun rv => { rv with endMark := some (.txID tx) }) (s'.versions id) =
          modifyLast (·.isVisibleTo t s.txs)
            (fun rv => { rv with endMark := some (.txID tx) }) (s'.versions id) :=
        modifyLast_congr fun v hv => h.isVisibleTo_eq (h.free hv) t
      refine ⟨h.touch ho rfl rfl rfl rfl (fun id' => ?_) (fun {id' w} hw => ?_),rfl⟩
      · rw [versions_insert,versions_insert,hsa]
        split
        · exact (h.thinned id).modifyLast fun v _ hv => hh.unseen hv ho ht
        · exact h.thinned id'
      · rw [versions_insert] at hw
        split at hw
        · obtain hw | ⟨u,hu,rfl⟩ := mem_modifyLast hw
          · exact h.free hw
          · exact fun tx' ho' => ⟨(h.free hu tx' ho').1,fun heq =>
              ho (TxTimestampOrID.txID.inj (Option.some.inj heq) ▸ ho')⟩
        · exact h.free hw

end

variable (hs : Sound s)
include hs

theorem inOrder_delete (id id' : RowID) (hord : InOrder s tx id') : InOrder (s.delete tx id).1 tx id' := by
  cases ht : s.txs.lookup tx with
  | none => rwa [delete_of_unknown ht]
  | some t =>
    rw [delete_eq hs ht]
    split
    · exact hord
    · split
      · intro u hu
        rw [rollbackTx_eq hs ht] at hu
        cases (AList.lookup_erase ..).symm.trans hu
      · intro u hu
        obtain rfl : t.insertToWriteSet id = u :=
          Option.some.inj ((AList.lookup_insert _).symm.trans hu)
        simp only [getBeginTimestamp_touch ht (t.insertToWriteSet id) ⟨rfl,rfl,rfl⟩]
        rw [MvStore.versions_insert]
        split
        · next heq =>
          subst heq
          exact pairwise_modifyLast RowVersion.beginMark (fun m m' =>
            s.getBeginTimestamp m' < t.beginTs → s.getBeginTimestamp m < t.beginTs) (fun _ => rfl)
            (hord t ht)
        · exact hord t ht

variable (h : Sim out hidden s s')
include h

variable (hh : Hides out hidden s)
include hh

section
variable (ho : ¬out tx) (ht : s.txs.lookup tx = some t) {row : Row} (hord : InOrder s tx row.id)
include ho ht hord

theorem delete_insert : ∃ s1 s1' r s2 s2' q, s.delete tx row.id = (s1,r) ∧ s'.delete tx row.id = (s1',r) ∧
    Sim out hidden s1 s1' ∧ s1.insert tx row = (s2,q) ∧ s1'.insert tx row = (s2',q) ∧ Sim out hidden s2 s2' := by
  obtain ⟨hdel,hre⟩ := h.delete hs hh ho ht row.id
  obtain ⟨hins,hre'⟩ := hdel.insert ((Kept.delete hs ht row.id).sound hs) ho (inOrder_delete hs row.id row.id hord)
  exact ⟨_,_,_,_,_,_,rfl,Prod.ext rfl hre,hdel,rfl,Prod.ext rfl hre',hins⟩

theorem update :
    Sim out hidden (s.update tx row).1 (s'.update tx row).1 ∧ (s'.update tx row).2 = (s.update tx row).2 := by
  obtain ⟨s1,s1',r,s2,s2',q,hd,hd',hdel,hi,hi',hins⟩ := delete_insert hs h hh ho ht hord
  rw [MvStore.update,MvStore.update,hd,hd']
  rcases r with e | _ | _
  · exact ⟨hdel,rfl⟩
  · exact ⟨hdel,rfl⟩
  · simp only [hi,hi']
    cases q with
    | error e | ok u => exact ⟨hins,rfl⟩

theorem upsert :
    Sim out hidden (s.upsert tx row).1 (s'.upsert tx row).1 ∧ (s'.upsert tx row).2 = (s.upsert tx row).2 := by
  obtain ⟨s1,s1',r,s2,s2',q,hd,hd',hdel,hi,hi',hins⟩ := delete_insert hs h hh ho ht hord
  rw [MvStore.upsert,MvStore.upsert,hd,hd']
  cases r with
  | error e => exact ⟨hdel,rfl⟩
  | ok b => simpa only [hi,hi',and_true] using hins

end

theorem read (ho : ¬out tx) (id : RowID) :
    Sim out hidden (s.read tx id).1 (s'.read tx id).1 ∧ (s'.read tx id).2 = (s.read tx id).2 := by
  have hlo := h.lookup ho
  cases ht : s.txs.lookup tx with
  | none =>
    rw [MvStore.read,MvStore.read,hlo,ht]
    exact ⟨h,rfl⟩
  | some t =>
    rw [ht] at hlo
    rw [read_eq hs ht,read_eq (h.sound hs) hlo,h.findRev?_eq hh ho ht]
    split
    · exact ⟨h.touch ho rfl rfl rfl rfl h.thinned h.free,rfl⟩
    · exact ⟨h,rfl⟩

omit hh in
omit hs in
theorem beginTx (ho : ¬out s.txIds) (ts : Nat) :
    Sim out hidden (s.beginTx ts).1 (s'.beginTx ts).1 ∧ (s'.beginTx ts).2 = (s.beginTx ts).2 := by
  unfold MvStore.beginTx MvStore.getTxId
  rw [h.txIds]
  refine ⟨⟨rfl,fun ho' => h.lookup_touch ho',fun {tx} ho' => ?_,h.thinned,h.free⟩,rfl⟩
  have hne : tx ≠ s.txIds := fun heq => ho (heq ▸ ho')
  exact (lookup_insert_ne hne).trans (h.gone ho')

omit hh in
omit hs in
theorem getTxId : Sim out hidden s.getTxId.1 s'.getTxId.1 ∧ s'.getTxId.2 = s.getTxId.2 :=
  ⟨⟨congrArg (· + 1) h.txIds,h.lookup,h.gone,h.thinned,h.free⟩,h.txIds⟩

/-- A commit has the same versions to log and rewrites them alike. -/
theorem commitTx (ho : ¬out tx) (ts : Nat) (storage : Storage) :
    Sim out hidden (s.commitTx tx ts storage).1 (s'.commitTx tx ts storage).1 ∧
      (s'.commitTx tx ts storage).2 = (s.commitTx tx ts storage).2 := by
  have hlo := h.lookup ho
  cases ht : s.txs.lookup tx with
  | none =>
    rw [MvStore.commitTx,MvStore.commitTx,hlo,ht]
    exact ⟨h,rfl⟩
  | some t =>
    rw [ht] at hlo
    have hlog : s'.logRecord t.writeSet tx ts = [] ↔ s.logRecord t.writeSet tx ts = [] := by
      rw [logRecord_eq_nil,logRecord_eq_nil]
      refine forall_congr' fun id => forall_congr' fun _ => ⟨fun hall v hv => ?_,fun hall v hv => ?_⟩
      · obtain hv | hv := (h.thinned id).mem_or hv
        · exact hall v hv
        · exact hh.unmarked hv ho ht
      · exact hall v ((h.thinned id).sublist.subset hv)
    have hst : (if s'.logRecord t.writeSet tx ts = [] then .ok () else
          storage.logTx (s'.logRecord t.writeSet tx ts)) =
        if s.logRecord t.writeSet tx ts = [] then .ok () else
          storage.logTx (s.logRecord t.writeSet tx ts) := by
      simp only [hlog]
      cases storage <;> rfl
    rw [commitTx_eq hs ht,commitTx_eq (h.sound hs) hlo]
    dsimp only
    rw [hst]
    split
    · exact ⟨h,rfl⟩
    · refine ⟨h.erase (rewriteRow_changesRow tx ts) t.writeSet (fun id => ?_) fun hv => ?_,rfl⟩
      · refine (h.thinned id).map fun v _ hv => ?_
        rwa [RowVersion.commit_of_unmarked (hh.unmarked hv ho ht)]
      · obtain ⟨w,hw,rfl⟩ := mem_map.mp hv
        exact (h.free hw).commit

end Sim

/-- A version is put into a row where the versions that began earlier come first. -/
def Orderly (s : MvStore) : Call → Prop
  | .insert tx row | .update tx row | .upsert tx row => InOrder s tx row.id
  | _ => True

/-- A delete asks for its transaction only where the row has versions. -/
def Known (s : MvStore) : Call → Prop
  | .update tx _ | .upsert tx _ | .delete tx _ => ∃ t, s.txs.lookup tx = some t
  | _ => True

/-- The calls of the transactions that stay keep the stores alike, and they get the same answers. -/
theorem Sim.step (h : Sim out hidden s s') (hs : Sound s) (hh : Hides out hidden s)
    (hst : ∀ tx, call.tx? = some tx → ¬out tx) (hbe : ∀ ts, call = .beginTx ts → ¬out s.txIds)
    (hord : Orderly s call) : Sim out hidden (s.step call).1 (s'.step call).1 ∧
      (Known s call → (s'.step call).2 = (s.step call).2) := by
  have hmap : ∀ {α : Type} {f : α → Answer} {r r' : MvStore × Except Fault α},
      Sim out hidden r.1 r'.1 ∧ r'.2 = r.2 →
        Sim out hidden r.1 r'.1 ∧ (Known s call → r'.2.map f = r.2.map f) :=
    fun hr => ⟨hr.1,fun _ => by rw [hr.2]⟩
  have hun : ∀ {tx}, call.tx? = some tx → s.txs.lookup tx = none → Sim out hidden (s.step call).1 (s'.step call).1 := by
    intro tx hc ht
    obtain ⟨_,hr,-⟩ := step_of_unknown ht hc
    obtain ⟨_,hr',-⟩ := step_of_unknown ((h.lookup (hst tx hc)).trans ht) hc
    rwa [hr,hr']
  cases call with
  | beginTx ts =>
    obtain ⟨hsim,hid⟩ := h.beginTx (hbe ts rfl) ts
    exact ⟨hsim,fun _ => congrArg (fun n => (Except.ok (Answer.tx n) : Reply)) hid⟩
  | insert tx row => exact hmap (h.insert hs (hst tx rfl) hord)
  | update tx row =>
    cases ht : s.txs.lookup tx with
    | none => exact ⟨hun rfl ht,fun ⟨t,hk⟩ => by rw [ht] at hk; cases hk⟩
    | some t => exact hmap (h.update hs hh (hst tx rfl) ht hord)
  | upsert tx row =>
    cases ht : s.txs.lookup tx with
    | none => exact ⟨hun rfl ht,fun ⟨t,hk⟩ => by rw [ht] at hk; cases hk⟩
    | some t => exact hmap (h.upsert hs hh (hst tx rfl) ht hord)
  | delete tx id =>
    cases ht : s.txs.lookup tx with
    | none => exact ⟨hun rfl ht,fun ⟨t,hk⟩ => by rw [ht] at hk; cases hk⟩
    | some t => exact hmap (h.delete hs hh (hst tx rfl) ht id)
  | read tx id => exact hmap (h.read hs hh (hst tx rfl) id)
  | commitTx tx ts storage => exact hmap (h.commitTx hs hh (hst tx rfl) ts storage)
  | rollbackTx tx => exact hmap (h.rollbackTx hs (hst tx rfl))
  | getTxId =>
    obtain ⟨hsim,hid⟩ := h.getTxId
    exact ⟨hsim,fun _ => congrArg (fun n => (Except.ok (Answer.tx n) : Reply)) hid⟩

def MvStore.Along (cond : MvStore → Call → Prop) (s : MvStore) : List Call → Prop
  | [] => True
  | call :: calls => cond s call ∧ (s.step call).1.Along cond calls

end OxiSql.Mvcc
