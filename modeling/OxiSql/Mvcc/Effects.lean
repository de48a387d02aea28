import OxiSql.Mvcc.Database

namespace OxiSql.Mvcc
open Lib List MvStore AList TxTimestampOrID Option

namespace MvStore
variable {s : MvStore} {id : RowID}

theorem versions_of_lookup (h : s.rows.lookup id = some l) : s.versions id = l := by
  rw [versions,h,getD_some]

theorem versions_of_lookup_none (h : s.rows.lookup id = none) : s.versions id = [] := by
  rw [versions,h,getD_none]

theorem versions_insert (txs : Txs) (n : TxID) :
    (mk (s.rows.insert id l) txs n).versions id' = if id' = id then l else s.versions id' := by
  split
  · next heq => rw [heq,versions,lookup_insert,getD_some]
  · next hne => rw [versions,lookup_insert_ne hne,versions]

theorem versions_insertVersion : (s.insertVersion id rv).versions id' =
      if id' = id then s.insertVersionRaw (s.versions id) rv else s.versions id' :=
  versions_insert ..

/-- `f` changes the versions of one row and nothing else. -/
structure ChangesRow (change : List RowVersion → List RowVersion) (f : MvStore → RowID → MvStore) :
    Prop where
  versions : ∀ s id id', (f s id).versions id' =
    if id' = id then change (s.versions id) else s.versions id'
  txs : ∀ s id, (f s id).txs = s.txs
  txIds : ∀ s id, (f s id).txIds = s.txIds
  again : ∀ l, change (change l) = change l

theorem ChangesRow.foldl_txs (h : ChangesRow change f) (ids : List RowID) (s : MvStore) :
    (ids.foldl f s).txs = s.txs ∧ (ids.foldl f s).txIds = s.txIds := by
  induction ids generalizing s with
  | nil => exact ⟨rfl,rfl⟩
  | cons id ids ih =>
    obtain ⟨htxs,hids⟩ := ih (f s id)
    exact ⟨htxs.trans (h.txs s id),hids.trans (h.txIds s id)⟩

theorem ChangesRow.foldl_versions (h : ChangesRow change f) (ids : List RowID) :
    (ids.foldl f s).versions id = if id ∈ ids then change (s.versions id) else s.versions id := by
  induction ids generalizing s with
  | nil => rfl
  | cons id' ids ih =>
    rw [foldl_cons,ih,h.versions]
    by_cases heq : id = id'
    · rw [if_pos heq,if_pos (mem_cons.mpr (.inl heq)),heq,h.again,ite_self]
    · simp [heq]

theorem retainOthers_changesRow (tx : TxID) :
    ChangesRow (·.filter fun rv => rv.beginMark ≠ .txID tx) (retainOthers tx) where
  versions s id id' := by
    cases hl : s.rows.lookup id with
    | none =>
      rw [versions_of_lookup_none hl,filter_nil]
      simp only [retainOthers,hl]
      split
      · next heq => rw [heq,versions_of_lookup_none hl]
      · rfl
    | some l =>
      rw [versions_of_lookup hl,retainOthers,hl]
      by_cases hke : l.filter (fun rv => rv.beginMark ≠ .txID tx) = []
      · simp only [hke,if_true]
        split
        · next heq => rw [heq,versions,lookup_erase,getD_none]
        · next hne => rw [versions,lookup_erase_ne hne,versions]
      · simp only [hke]
        exact versions_insert ..
  txs s id := by
    unfold retainOthers
    split <;> rfl
  txIds s id := by
    unfold retainOthers
    split <;> rfl
  again l := by simp

end MvStore

def TxTimestampOrID.commit (tx : TxID) (ts : Nat) (mark : TxTimestampOrID) : TxTimestampOrID :=
  if mark = .txID tx then .timestamp ts else mark

def RowVersion.commit (tx : TxID) (ts : Nat) (rv : RowVersion) : RowVersion :=
  { rv with beginMark := rv.beginMark.commit tx ts, endMark := rv.endMark.map (·.commit tx ts) }

theorem getD_rewrittenForCommit (tx : TxID) (ts : Nat) :
    (rewrittenForCommit rv tx ts).getD rv = rv.commit tx ts := by
  have hend : rv.endMark.map (·.commit tx ts) =
      if rv.endMark = some (.txID tx) then some (.timestamp ts) else rv.endMark := by
    cases hmark : rv.endMark with
    | none => simp
    | some mark => by_cases hm : mark = .txID tx <;> simp [commit,hm]
  rw [rewrittenForCommit,RowVersion.commit,hend]
  split
  · next h => simp [commit,h.1,h.2]
  · simp [commit]

theorem RowVersion.commit_commit (rv : RowVersion) (tx : TxID) (ts : Nat) :
    (rv.commit tx ts).commit tx ts = rv.commit tx ts := by
  have hmark : ∀ mark : TxTimestampOrID, (mark.commit tx ts).commit tx ts = mark.commit tx ts := by
    intro mark
    unfold TxTimestampOrID.commit
    by_cases hm : mark = .txID tx <;> simp [hm]
  simp [RowVersion.commit,hmark,Function.comp_def]

theorem MvStore.rewriteRow_changesRow (tx : TxID) (ts : Nat) :
    ChangesRow (·.map (·.commit tx ts)) (rewriteRow tx ts) where
  versions s id id' := by
    cases hl : s.rows.lookup id with
    | none =>
      rw [versions_of_lookup_none hl,map_nil]
      simp only [rewriteRow,hl]
      split
      · next heq => rw [heq,versions_of_lookup_none hl]
      · rfl
    | some l =>
      rw [versions_of_lookup hl,rewriteRow,hl]
      simp only [getD_rewrittenForCommit]
      exact versions_insert ..
  txs s id := by
    unfold rewriteRow
    split <;> rfl
  txIds s id := by
    unfold rewriteRow
    split <;> rfl
  again l := by simp [RowVersion.commit_commit]

theorem rewrittenForCommit_eq_none :
    rewrittenForCommit rv tx ts = none ↔ rv.beginMark ≠ .txID tx ∧ rv.endMark ≠ some (.txID tx) := by
  unfold rewrittenForCommit
  dsimp only
  split
  · next h => exact ⟨fun _ => h,fun _ => rfl⟩
  · next h => exact ⟨nofun,fun h' => absurd h' h⟩

theorem MvStore.insertVersionRaw_ne_nil (s : MvStore) : s.insertVersionRaw l rv ≠ [] := by
  intro h
  have hpe := insertAfterLast_perm
    (fun v => s.getBeginTimestamp v.beginMark < s.getBeginTimestamp rv.beginMark) rv l
  rw [show insertAfterLast _ rv l = [] from h] at hpe
  exact absurd hpe.length_eq (by simp)

theorem foldl_eq_nil {α β : Type} {f : List β → α → List β} {P : α → Prop}
    (hf : ∀ log a, f log a = [] ↔ log = [] ∧ P a) (l : List α) (log : List β) :
    l.foldl f log = [] ↔ log = [] ∧ ∀ a ∈ l, P a := by
  induction l generalizing log with
  | nil => simp
  | cons a l ih => rw [foldl_cons,ih,hf,forall_mem_cons,and_assoc]

theorem MvStore.logRecord_eq_nil (s : MvStore) (tx : TxID) (ts : Nat) :
    s.logRecord ids tx ts = [] ↔ ∀ id ∈ ids, ∀ v ∈ s.versions id,
      v.beginMark ≠ .txID tx ∧ v.endMark ≠ some (.txID tx) := by
  refine (foldl_eq_nil (fun log id => ?_) ids []).trans (and_iff_right rfl)
  refine foldl_eq_nil (fun log v => ?_) _ log
  rw [← rewrittenForCommit_eq_none]
  cases rewrittenForCommit v tx ts with
  | none => simp
  | some updated => simp [insertVersionRaw_ne_nil]

/-- Between calls every transaction is active and known by its own id. -/
structure Sound (s : MvStore) : Prop where
  active : ∀ {tx t}, s.txs.lookup tx = some t → t.state = .active
  named : ∀ {tx t}, s.txs.lookup tx = some t → t.txId = tx
  bounded : ∀ {tx t}, s.txs.lookup tx = some t → tx < s.txIds

theorem Sound.init : Sound {} :=
  ⟨nofun,nofun,nofun⟩

/-- Transactions that differ in what they have read and written only. -/
def Transaction.Alike (t t' : Transaction) : Prop :=
  t'.state = t.state ∧ t'.txId = t.txId ∧ t'.beginTs = t.beginTs

def Call.tx? : Call → Option TxID
  | .insert tx _ | .update tx _ | .upsert tx _ | .delete tx _ | .read tx _ | .commitTx tx _ _
  | .rollbackTx tx => some tx
  | .beginTx _ | .getTxId => none

namespace MvStore
variable {s : MvStore}

section

variable (hs : Sound s)
include hs

variable (ht : s.txs.lookup tx = some t)
include ht

theorem insert_eq : s.insert tx row =
      (insertVersion { s with txs := s.txs.insert tx (t.insertToWriteSet row.id) } row.id
        ⟨.txID tx,none,row⟩,.ok ()) := by
  simp [insert,ht,hs.active ht,hs.named ht]

theorem rollbackTx_eq : s.rollbackTx tx = ({ t.writeSet.foldl (retainOthers tx) s with
        txs := (t.writeSet.foldl (retainOthers tx) s).txs.erase tx },.ok ()) := by
  simp [rollbackTx,ht,hs.active ht]

theorem delete_eq (id : RowID) : s.delete tx id = match (s.versions id).findRev? (·.isVisibleTo t s.txs) with
      | none => (s,.ok false)
      | some rv =>
        if isWriteWriteConflict s.txs t rv then
          ((s.rollbackTx tx).1,.error (.error .writeWriteConflict))
        else
          ({ s with
            rows := s.rows.insert id (modifyLast (·.isVisibleTo t s.txs)
              (fun rv => { rv with endMark := some (.txID tx) }) (s.versions id))
            txs := s.txs.insert tx (t.insertToWriteSet id) },.ok true) := by
  unfold delete
  cases hvs : s.versions id with
  | nil => rfl
  | cons v l =>
    simp only [ht,hs.active ht,hs.named ht]
    rfl

theorem read_eq (id : RowID) : s.read tx id = match (s.versions id).findRev? (·.isVisibleTo t s.txs) with
      | some rv => ({ s with txs := s.txs.insert tx (t.insertToReadSet id) },.ok (some rv.row))
      | none => (s,.ok none) := by
  simp only [read,ht,hs.active ht]
  rfl

theorem commitTx_eq (ts : Nat) : s.commitTx tx ts storage = let log := s.logRecord t.writeSet tx ts
      match if log = [] then .ok () else storage.logTx log with
      | .error e => (s, .error (.error e))
      | .ok () =>
        ({ t.writeSet.foldl (rewriteRow tx ts) s with
          txs := (t.writeSet.foldl (rewriteRow tx ts) s).txs.erase tx }, .ok ()) := by
  simp only [commitTx,ht,hs.active ht]
  rfl

end

/-- What an update or upsert makes of a store: it deletes, and then inserts unless it stops there. -/
def Rewritten (s : MvStore) (tx : TxID) (row : Row) (s' : MvStore) : Prop :=
  s' = (s.delete tx row.id).1 ∨ s' = ((s.delete tx row.id).1.insert tx row).1

theorem update_rewritten : Rewritten s tx row (s.update tx row).1 := by
  unfold Rewritten update
  split
  · next heq => exact .inl (by rw [heq])
  · next heq => exact .inl (by rw [heq])
  · next heq =>
    rw [heq]
    split <;> next heq' => exact .inr (by rw [heq'])

theorem upsert_rewritten : Rewritten s tx row (s.upsert tx row).1 := by
  unfold Rewritten upsert
  split
  · next heq => exact .inl (by rw [heq])
  · next heq => exact .inr (by rw [heq])

variable (ht : s.txs.lookup tx = none)
include ht

theorem insert_of_unknown : (s.insert tx row).1 = s := by
  simp [insert,ht]

theorem delete_of_unknown (id : RowID) : (s.delete tx id).1 = s := by
  unfold delete
  split
  · rfl
  · simp [ht]

/-- Calls in the name of a transaction that does not run change nothing. -/
theorem step_of_unknown (hc : call.tx? = some tx) : ∃ r, s.step call = (s,r) ∧
    (r = .error (.error (.noSuchTransactionID tx)) ∨ r = .error (.error .txTerminated) ∨ r = .ok (.changed false)) := by
  have hde : ∀ id, s.delete tx id = (s, .ok false) ∨
      s.delete tx id = (s, .error (.error (.noSuchTransactionID tx))) := by
    intro id
    unfold delete
    split
    · exact .inl rfl
    · exact .inr (by simp [ht])
  have hin : ∀ row, s.insert tx row = (s, .error (.error (.noSuchTransactionID tx))) := by simp [insert,ht]
  cases call <;> cases hc
  case insert row =>
    rw [step,hin]
    exact ⟨_,rfl,.inl rfl⟩
  case update row =>
    rw [step,update]
    rcases hde row.id with hdel | hdel <;> rw [hdel]
    · exact ⟨_,rfl,.inr (.inr rfl)⟩
    · exact ⟨_,rfl,.inl rfl⟩
  case upsert row =>
    rw [step,upsert]
    rcases hde row.id with hdel | hdel <;> rw [hdel]
    · dsimp only
      rw [hin]
      exact ⟨_,rfl,.inl rfl⟩
    · exact ⟨_,rfl,.inl rfl⟩
  case delete id =>
    rw [step]
    rcases hde id with hdel | hdel <;> rw [hdel]
    · exact ⟨_,rfl,.inr (.inr rfl)⟩
    · exact ⟨_,rfl,.inl rfl⟩
  case read id =>
    rw [step,read,ht]
    exact ⟨_,rfl,.inl rfl⟩
  case commitTx ts storage =>
    rw [step,commitTx,ht]
    exact ⟨_,rfl,.inr (.inl rfl)⟩
  case rollbackTx =>
    rw [step,rollbackTx,ht]
    exact ⟨_,rfl,.inr (.inl rfl)⟩

end MvStore

/-- No transaction has come, and those that have stayed differ in their sets only. -/
structure Kept (s s' : MvStore) : Prop where
  txs : ∀ {tx t'}, s'.txs.lookup tx = some t' → ∃ t, s.txs.lookup tx = some t ∧ t.Alike t'
  txIds : s'.txIds = s.txIds

namespace Kept

theorem refl (s : MvStore) : Kept s s :=
  ⟨fun h => ⟨_,h,rfl,rfl,rfl⟩,rfl⟩

theorem trans (h : Kept s s') (h' : Kept s' s'') : Kept s s'' := by
  refine ⟨fun hl => ?_,h'.txIds.trans h.txIds⟩
  obtain ⟨t',ht',hs',hi',hb'⟩ := h'.txs hl
  obtain ⟨t,ht,hs,hi,hb⟩ := h.txs ht'
  exact ⟨t,ht,hs'.trans hs,hi'.trans hi,hb'.trans hb⟩

theorem sound (h : Kept s s') (hs : Sound s) : Sound s' where
  active hl := by
    obtain ⟨t,ht,hst,-,-⟩ := h.txs hl
    exact hst.trans (hs.active ht)
  named hl := by
    obtain ⟨t,ht,-,hid,-⟩ := h.txs hl
    exact hid.trans (hs.named ht)
  bounded hl := by
    obtain ⟨t,ht,-⟩ := h.txs hl
    exact h.txIds ▸ hs.bounded ht

theorem touch (h : s'.txs = s.txs.insert tx t') (ht : s.txs.lookup tx = some t) (ha : t.Alike t')
    (hn : s'.txIds = s.txIds) : Kept s s' := by
  refine ⟨fun {tx' u} hl => ?_,hn⟩
  rw [h] at hl
  by_cases heq : tx' = tx
  · rw [heq,lookup_insert,some.injEq] at hl
    exact ⟨t,heq ▸ ht,hl ▸ ha⟩
  · rw [lookup_insert_ne heq] at hl
    exact ⟨u,hl,rfl,rfl,rfl⟩

theorem erase (h : s'.txs = s.txs.erase tx) (hn : s'.txIds = s.txIds) : Kept s s' := by
  refine ⟨fun {tx' u} hl => ?_,hn⟩
  rw [h] at hl
  by_cases heq : tx' = tx
  · rw [heq,lookup_erase] at hl
    cases hl
  · rw [lookup_erase_ne heq] at hl
    exact ⟨u,hl,rfl,rfl,rfl⟩

variable (hs : Sound s)
include hs

theorem insert (row : Row) : Kept s (s.insert tx row).1 := by
  cases ht : s.txs.lookup tx with
  | none =>
    rw [insert_of_unknown ht]
    exact refl s
  | some t =>
    rw [insert_eq hs ht]
    exact touch rfl ht ⟨rfl,rfl,rfl⟩ rfl

variable (ht : s.txs.lookup tx = some t)
include ht

theorem rollbackTx : Kept s (s.rollbackTx tx).1 := by
  obtain ⟨htxs,hids⟩ := (retainOthers_changesRow tx).foldl_txs t.writeSet s
  rw [rollbackTx_eq hs ht]
  exact erase (congrArg (AList.erase tx) htxs) hids

theorem delete (id : RowID) : Kept s (s.delete tx id).1 := by
  rw [delete_eq hs ht]
  split
  · exact refl s
  · split
    · exact rollbackTx hs ht
    · exact touch rfl ht ⟨rfl,rfl,rfl⟩ rfl

theorem rewritten (h : Rewritten s tx row s') : Kept s s' := by
  have hdel := delete hs ht row.id
  rcases h with rfl | rfl
  · exact hdel
  · exact hdel.trans (insert (hdel.sound hs) row)

theorem read (id : RowID) : Kept s (s.read tx id).1 := by
  rw [read_eq hs ht]
  split
  · exact touch rfl ht ⟨rfl,rfl,rfl⟩ rfl
  · exact refl s

theorem commitTx (ts : Nat) (storage : Storage) : Kept s (s.commitTx tx ts storage).1 := by
  obtain ⟨htxs,hids⟩ := (rewriteRow_changesRow tx ts).foldl_txs t.writeSet s
  rw [commitTx_eq hs ht]
  dsimp only
  split
  · exact refl s
  · exact erase (congrArg (AList.erase tx) htxs) hids

end Kept

variable {s : MvStore}

theorem Kept.step (hs : Sound s) (hc : call.tx? = some tx) : Kept s (s.step call).1 := by
  cases ht : s.txs.lookup tx with
  | none =>
    obtain ⟨_,hst,-⟩ := step_of_unknown ht hc
    rw [hst]
    exact .refl s
  | some t =>
    match call, hc with
    | .insert _ row, rfl => exact .insert hs row
    | .update _ row, rfl => exact .rewritten hs ht (update_rewritten)
    | .upsert _ row, rfl => exact .rewritten hs ht (upsert_rewritten)
    | .delete _ id, rfl => exact .delete hs ht id
    | .read _ id, rfl => exact .read hs ht id
    | .commitTx _ ts storage, rfl => exact .commitTx hs ht ts storage
    | .rollbackTx _, rfl => exact .rollbackTx hs ht

theorem lookup_beginTx (h : (s.beginTx ts).1.txs.lookup tx = some t) :
    tx = s.txIds ∧ t = .new s.txIds ts ∨ s.txs.lookup tx = some t := by
  by_cases heq : tx = s.txIds
  · subst heq
    exact .inl ⟨rfl,(some.inj ((lookup_insert _).symm.trans h)).symm⟩
  · exact .inr ((lookup_insert_ne heq).symm.trans h)

theorem Sound.beginTx (hs : Sound s) (ts : Nat) : Sound (s.beginTx ts).1 := by
  refine ⟨fun hl => ?_,fun hl => ?_,fun {tx t} hl => ?_⟩
  · obtain ⟨rfl,rfl⟩ | hl := lookup_beginTx hl
    · rfl
    · exact hs.active hl
  · obtain ⟨rfl,rfl⟩ | hl := lookup_beginTx hl
    · rfl
    · exact hs.named hl
  · obtain ⟨rfl,rfl⟩ | hl := lookup_beginTx hl
    · exact Nat.lt_succ_self _
    · exact Nat.lt_succ_of_lt (hs.bounded hl)

theorem Sound.step (hs : Sound s) (call : Call) : Sound (s.step call).1 := by
  cases hc : call.tx? with
  | some tx => exact (Kept.step hs hc).sound hs
  | none =>
    cases call with
    | beginTx ts => exact hs.beginTx ts
    | getTxId => exact ⟨hs.active,hs.named,fun hl => Nat.lt_succ_of_lt (hs.bounded hl)⟩
    | _ => cases hc

theorem Sound.run (hs : Sound s) (calls : List Call) : Sound (s.run calls) := by
  induction calls generalizing s with
  | nil => exact hs
  | cons call calls ih => exact ih (hs.step call)

/-- Where a version of a row comes from in a call. -/
inductive Came (s : MvStore) (call : Call) (id : RowID) : RowVersion → Prop where
  | old {v : RowVersion} : v ∈ s.versions id → Came s call id v
  | new {tx : TxID} {t : Transaction} (row : Row) :
      s.txs.lookup tx = some t → Came s call id ⟨.txID tx, none, row⟩
  | ended {tx : TxID} {t : Transaction} {v : RowVersion} :
      v ∈ s.versions id → s.txs.lookup tx = some t →
        Came s call id { v with endMark := some (.txID tx) }
  | committed {tx : TxID} {v : RowVersion} {ts : Nat} (storage : Storage) :
      v ∈ s.versions id → call = .commitTx tx ts storage → Came s call id (v.commit tx ts)

section
variable {id : RowID}

variable (hs : Sound s)
include hs

theorem came_insert (h : v ∈ (s.insert tx row).1.versions id) :
    v ∈ s.versions id ∨ ∃ t, s.txs.lookup tx = some t ∧ v = ⟨.txID tx,none,row⟩ := by
  cases ht : s.txs.lookup tx with
  | none =>
    rw [insert_of_unknown ht] at h
    exact .inl h
  | some t =>
    rw [insert_eq hs ht,versions_insertVersion] at h
    split at h
    · next heq =>
      obtain rfl | h := mem_cons.mp ((insertAfterLast_perm ..).mem_iff.mp h)
      · exact .inr ⟨t,rfl,rfl⟩
      · exact .inl (heq ▸ h)
    · exact .inl h

section
variable (ht : s.txs.lookup tx = some t)
include ht

theorem came_rollbackTx (h : v ∈ (s.rollbackTx tx).1.versions id) : v ∈ s.versions id := by
  rw [rollbackTx_eq hs ht] at h
  change v ∈ (t.writeSet.foldl _ s).versions id at h
  rw [(retainOthers_changesRow tx).foldl_versions] at h
  split at h
  · exact mem_of_mem_filter h
  · exact h

theorem came_delete (h : v ∈ (s.delete tx id').1.versions id) :
    v ∈ s.versions id ∨ ∃ w ∈ s.versions id, v = { w with endMark := some (.txID tx) } := by
  rw [delete_eq hs ht] at h
  split at h
  · exact .inl h
  · split at h
    · exact .inl (came_rollbackTx hs ht h)
    · rw [versions_insert] at h
      split at h
      · next heq =>
        obtain h | ⟨w,hw,rfl⟩ := mem_modifyLast h
        · exact .inl (heq ▸ h)
        · exact .inr ⟨w,heq ▸ hw,rfl⟩
      · exact .inl h

end

theorem Came.step (h : v ∈ (s.step call).1.versions id) : Came s call id v := by
  cases hc : call.tx? with
  | none => cases call <;> cases hc <;> exact .old h
  | some tx =>
    cases ht : s.txs.lookup tx with
    | none =>
      obtain ⟨_,hst,-⟩ := step_of_unknown ht hc
      rw [hst] at h
      exact .old h
    | some t =>
      have hde : ∀ {id'}, v ∈ (s.delete tx id').1.versions id → Came s call id v := by
        intro id' h
        obtain h | ⟨w,hw,rfl⟩ := came_delete hs ht h
        · exact .old h
        · exact .ended hw ht
      have hre : ∀ {row s'}, Rewritten s tx row s' → v ∈ s'.versions id → Came s call id v := by
        rintro row _ (rfl | rfl) h
        · exact hde h
        · have hke := Kept.delete hs ht row.id
          obtain h | ⟨t,ht,rfl⟩ := came_insert (hke.sound hs) h
          · exact hde h
          · obtain ⟨u,hu,-⟩ := hke.txs ht
            exact .new row hu
      match call, hc with
      | .insert _ row, rfl =>
        obtain h | ⟨t,ht,rfl⟩ := came_insert hs h
        · exact .old h
        · exact .new row ht
      | .update _ row, rfl => exact hre (update_rewritten) h
      | .upsert _ row, rfl => exact hre (upsert_rewritten) h
      | .delete _ id', rfl => exact hde h
      | .read _ id', rfl =>
        change v ∈ (s.read tx id').1.versions id at h
        rw [read_eq hs ht] at h
        split at h <;> exact .old h
      | .commitTx _ ts storage, rfl =>
        change v ∈ (s.commitTx tx ts storage).1.versions id at h
        rw [commitTx_eq hs ht] at h
        dsimp only at h
        split at h
        · exact .old h
        · change v ∈ (t.writeSet.foldl _ s).versions id at h
          rw [(rewriteRow_changesRow tx ts).foldl_versions] at h
          split at h
          · obtain ⟨w,hw,rfl⟩ := mem_map.mp h
            exact .committed storage hw rfl
          · exact .old h
      | .rollbackTx _, rfl => exact .old (came_rollbackTx hs ht h)

end

end OxiSql.Mvcc