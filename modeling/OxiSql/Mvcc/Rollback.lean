import OxiSql.Mvcc.Simulation

namespace OxiSql.Mvcc
open Lib List MvStore AList

def Begun (tx : TxID) (v : RowVersion) : Prop :=
  v.beginMark = .txID tx ∧ (v.endMark = none ∨ v.endMark = some (.txID tx))

/-- The version a delete would end is the transaction's own. -/
def LatestOwn (s : MvStore) (tx : TxID) (id : RowID) : Prop :=
  ∀ t v, s.txs.lookup tx = some t → (s.versions id).findRev? (·.isVisibleTo t s.txs) = some v →
    isWriteWriteConflict s.txs t v = true ∨ v.beginMark = .txID tx

/-- The call ends no version that the transaction has not begun. -/
def EndsOnlyOwn (tx : TxID) (s : MvStore) : Call → Prop
  | .update tx' row | .upsert tx' row => tx' = tx → LatestOwn s tx row.id
  | .delete tx' id => tx' = tx → LatestOwn s tx id
  | _ => True

variable {s s' : MvStore} {id : RowID}

theorem hides_begun (hs : Sound s) : Hides (· = tx) (Begun tx) s where
  unseen {v} hv {tx' t} hne ht := by
    have hbe : isBeginVisible s.txs t v = false := by
      simp only [isBeginVisible,hv.1]
      cases hl : s.txs.lookup tx with
      | none => rfl
      | some tb => simp [hs.active hl,hs.named hl,hs.named ht,hne]
    rw [RowVersion.isVisibleTo,hbe,Bool.false_and]
  unmarked {v} hv {tx' t} hne _ := by
    have hmark : TxTimestampOrID.txID tx ≠ .txID tx' := fun h => hne (TxTimestampOrID.txID.inj h).symm
    refine ⟨hv.1 ▸ hmark,?_⟩
    rcases hv.2 with hend | hend
    · simp [hend]
    · simpa [hend] using hmark

/-- Calls of the transaction that is left out change the first store only. -/
theorem Sim.left (h : Sim (· = tx) (Begun tx) s s') {r : MvStore} (hids : r.txIds = s.txIds)
    (hlo : ∀ {tx'}, tx' ≠ tx → r.txs.lookup tx' = s.txs.lookup tx')
    (hro : ∀ id, Thinned (Begun tx) (r.versions id) (s'.versions id)) : Sim (· = tx) (Begun tx) r s' where
  txIds := h.txIds.trans hids.symm
  lookup hne := (h.lookup hne).trans (hlo hne).symm
  gone := h.gone
  thinned := hro
  free := h.free

section

variable (h : Sim (· = tx) (Begun tx) s s')
include h

section

variable (hs : Sound s)
include hs

theorem Sim.insert_left : Sim (· = tx) (Begun tx) (s.insert tx row).1 s' := by
  cases ht : s.txs.lookup tx with
  | none => rwa [insert_of_unknown ht]
  | some t =>
    rw [insert_eq hs ht]
    refine h.left rfl (fun hne => lookup_insert_ne hne) fun id => ?_
    rw [versions_insertVersion]
    split
    · next heq =>
      subst heq
      exact (h.thinned row.id).insertAfterLast_hidden ⟨rfl,.inl rfl⟩
    · exact h.thinned id

section
variable (ht : s.txs.lookup tx = some t)
include ht

theorem Sim.rollbackTx_left : Sim (· = tx) (Begun tx) (s.rollbackTx tx).1 s' := by
  have hf := retainOthers_changesRow tx
  obtain ⟨htxs,hids⟩ := hf.foldl_txs t.writeSet s
  rw [rollbackTx_eq hs ht]
  refine h.left hids (fun hne => ?_) fun id => ?_
  · rw [htxs,lookup_erase_ne hne]
  · show Thinned _ ((t.writeSet.foldl _ s).versions id) _
    rw [hf.foldl_versions]
    split
    · have hke : (s'.versions id).filter (fun v => v.beginMark ≠ .txID tx) = s'.versions id :=
        filter_eq_self.mpr fun v hv => by simpa using (h.free hv tx rfl).1
      exact hke ▸ (h.thinned id).filter _
    · exact h.thinned id

theorem Sim.delete_left (hown : LatestOwn s tx id) : Sim (· = tx) (Begun tx) (s.delete tx id).1 s' := by
  rw [delete_eq hs ht]
  split
  · exact h
  · next v hfi =>
    split
    · exact h.rollbackTx_left hs ht
    · next hco =>
      refine h.left rfl (fun hne => lookup_insert_ne hne) fun id' => ?_
      rw [versions_insert]
      split
      · next heq =>
        subst heq
        refine (h.thinned id').modifyLast_hidden (fun w hw hb => (h.free hw tx rfl).1 hb.1) ?_
        intro w hw
        obtain rfl : v = w := Option.some.inj (hfi.symm.trans hw)
        have hbe := (hown t v ht hfi).resolve_left hco
        refine ⟨⟨hbe,.inl ?_⟩,hbe,.inr rfl⟩
        -- A version of its own that the transaction sees has not ended.
        have hvis : v.isVisibleTo t s.txs = true := by
          rw [findRev?_eq_find?_reverse] at hfi
          simpa using find?_some hfi
        simp only [RowVersion.isVisibleTo,isBeginVisible,hbe,ht,hs.active ht,
          Bool.and_eq_true,Option.isNone_iff_eq_none] at hvis
        exact hvis.1.2
      · exact h.thinned id'

theorem Sim.rewritten_left (hre : Rewritten s tx row s1) (hown : LatestOwn s tx row.id) :
    Sim (· = tx) (Begun tx) s1 s' := by
  have hdel := h.delete_left hs ht hown
  rcases hre with rfl | rfl
  · exact hdel
  · exact hdel.insert_left ((Kept.delete hs ht row.id).sound hs)

theorem Sim.read_left : Sim (· = tx) (Begun tx) (s.read tx id).1 s' := by
  rw [read_eq hs ht]
  split
  · exact h.left rfl (fun hne => lookup_insert_ne hne) h.thinned
  · exact h

end

end

/-- Where the transaction begins, its id is all that is taken from the other store. -/
theorem Sim.beginTx_left (heq : s.txIds = tx) : Sim (· = tx) (Begun tx) (s.beginTx ts).1 s'.getTxId.1 where
  txIds := congrArg (· + 1) h.txIds
  lookup hne := (h.lookup hne).trans (lookup_insert_ne (heq ▸ hne)).symm
  gone := h.gone
  thinned := h.thinned
  free := h.free

end

/-- The calls of a transaction that do not commit it. -/
theorem Sim.step_left (h : Sim (· = tx) (Begun tx) s s') (hs : Sound s)
    (hca : call.tx? = some tx) (hown : EndsOnlyOwn tx s call)
    (hco : ∀ ts storage, call = .commitTx tx ts storage → (s.step call).2 ≠ .ok .done) :
    Sim (· = tx) (Begun tx) (s.step call).1 s' := by
  cases ht : s.txs.lookup tx with
  | none =>
    obtain ⟨_,hst,-⟩ := step_of_unknown ht hca
    rwa [hst]
  | some t =>
    match call, hca with
    | .insert _ row, rfl => exact h.insert_left hs
    | .update _ row, rfl => exact h.rewritten_left hs ht (update_rewritten) (hown rfl)
    | .upsert _ row, rfl => exact h.rewritten_left hs ht (upsert_rewritten) (hown rfl)
    | .delete _ id, rfl => exact h.delete_left hs ht (hown rfl)
    | .read _ id, rfl => exact h.read_left hs ht
    | .commitTx _ ts storage, rfl =>
      have hfa := hco ts storage rfl
      rw [MvStore.step,MvStore.commitTx_eq hs ht] at hfa ⊢
      dsimp only at hfa ⊢
      split
      · exact h
      · next hlog => simp [hlog,Except.map] at hfa
    | .rollbackTx _, rfl => exact h.rollbackTx_left hs ht

/-- A history without the calls of a transaction; only its id stays taken. -/
def without (tx : TxID) : TxID → List Call → List Call
  | _, [] => []
  | txIds, .beginTx ts :: calls =>
    (if txIds = tx then .getTxId else .beginTx ts) :: without tx (txIds + 1) calls
  | txIds, .getTxId :: calls => .getTxId :: without tx (txIds + 1) calls
  | txIds, call :: calls =>
    if call.tx? = some tx then without tx txIds calls else call :: without tx txIds calls

def readsOfOthers (tx : TxID) (transcript : List (Call × Reply)) : List (Call × Reply) :=
  transcript.filter fun entry =>
    match entry.1 with
    | .read tx' _ => tx' ≠ tx
    | _ => false

def Commits (tx : TxID) (entry : Call × Reply) : Prop :=
  ∃ ts storage, entry = (.commitTx tx ts storage, .ok .done)

def RollsBack (tx : TxID) (entry : Call × Reply) : Prop :=
  entry = (.rollbackTx tx, .ok .done) ∨
    entry.1.tx? = some tx ∧ entry.2 = .error (.error .writeWriteConflict)

def Over (tx : TxID) (s : MvStore) : Prop :=
  s.txs.lookup tx = none ∧ tx < s.txIds

theorem over_step (h : Over tx s) (hs : Sound s) : Over tx (s.step call).1 := by
  cases hc : call.tx? with
  | some tx' =>
    have hke := Kept.step hs hc
    refine ⟨?_,hke.txIds ▸ h.2⟩
    cases hl : (s.step call).1.txs.lookup tx with
    | none => rfl
    | some t =>
      obtain ⟨u,hu,-⟩ := hke.txs hl
      rw [h.1] at hu
      cases hu
  | none =>
    cases call with
    | beginTx ts =>
      exact ⟨(lookup_insert_ne (Nat.ne_of_lt h.2)).trans h.1,Nat.lt_succ_of_lt h.2⟩
    | getTxId => exact ⟨h.1,Nat.lt_succ_of_lt h.2⟩
    | _ => cases hc

theorem over_erase (hs : Sound s) (ht : s.txs.lookup tx = some t) {r : MvStore}
    (htxs : r.txs = s.txs.erase tx) (hids : r.txIds = s.txIds) : Over tx r :=
  ⟨htxs ▸ lookup_erase ..,hids ▸ hs.bounded ht⟩

theorem over_rollbackTx (hs : Sound s) (ht : s.txs.lookup tx = some t) : Over tx (s.rollbackTx tx).1 := by
  obtain ⟨htxs,hids⟩ := (retainOthers_changesRow tx).foldl_txs t.writeSet s
  rw [rollbackTx_eq hs ht]
  exact over_erase hs ht (congrArg (erase tx) htxs) hids

theorem insert_ne_conflict : (s.insert tx row).2 ≠ .error (.error .writeWriteConflict) := by
  unfold MvStore.insert
  split
  · nofun
  · split <;> nofun

theorem known_of_conflict (h : (s.delete tx id).2 = .error (.error .writeWriteConflict)) :
    ∃ t, s.txs.lookup tx = some t := by
  cases ht : s.txs.lookup tx with
  | some t => exact ⟨t,rfl⟩
  | none =>
    unfold delete at h
    split at h
    · cases h
    · simp [ht] at h

theorem over_delete (hs : Sound s) (h : (s.delete tx id).2 = .error (.error .writeWriteConflict)) :
    Over tx (s.delete tx id).1 := by
  obtain ⟨t,ht⟩ := known_of_conflict h
  rw [delete_eq hs ht] at h ⊢
  split at h
  · cases h
  · next v hfi =>
    split at h
    · next hco => simpa [hco] using over_rollbackTx hs ht
    · cases h

theorem logTx_ne_conflict (storage : Storage) : storage.logTx log ≠ .error .writeWriteConflict := by
  cases storage with
  | noop => nofun
  | flaky shouldFail => cases shouldFail <;> nofun

theorem step_conflict (hc : call.tx? = some tx) (h : (s.step call).2 = .error (.error .writeWriteConflict)) :
    ∃ id, (s.delete tx id).2 = .error (.error .writeWriteConflict) ∧ (s.step call).1 = (s.delete tx id).1 := by
  have hmap : ∀ {α : Type} {f : α → Answer} {r : Except Fault α} {e : Fault},
      r.map f = .error e → r = .error e := by
    intro α f r e hr
    cases r with
    | error e' => simpa [Except.map] using hr
    | ok a => cases hr
  cases call <;> cases hc
  case insert row =>
    exact absurd (hmap h) (insert_ne_conflict)
  case update row =>
    refine ⟨row.id,?_⟩
    have hupd := hmap h
    rw [step]
    unfold update at hupd ⊢
    split at hupd
    · next heq => simp_all
    · cases hupd
    · next s1 heq =>
      split at hupd
      · next e heq' =>
        obtain rfl : e = .error .writeWriteConflict := by simpa using hupd
        exact absurd (congrArg Prod.snd heq') (insert_ne_conflict)
      · cases hupd
  case upsert row =>
    refine ⟨row.id,?_⟩
    have hups := hmap h
    rw [step]
    unfold upsert at hups ⊢
    split at hups
    · next heq => simp_all
    · next s1 b heq => exact absurd hups (insert_ne_conflict)
  case delete id =>
    exact ⟨id,hmap h,rfl⟩
  case read id =>
    have hre := hmap h
    split at hre
    · cases hre
    · split at hre
      · cases hre
      · split at hre <;> cases hre
  case commitTx ts storage =>
    have hco := hmap h
    split at hco
    · cases hco
    · split at hco
      · cases hco
      · split at hco
        · cases hco
        · dsimp only at hco
          split at hco
          · next e hlog =>
            obtain rfl : e = .writeWriteConflict := by simpa using hco
            split at hlog
            · cases hlog
            · exact absurd hlog (logTx_ne_conflict storage)
          · cases hco
  case rollbackTx =>
    have hro := hmap h
    split at hro
    · cases hro
    · split at hro <;> cases hro

theorem not_over (ht : s.txs.lookup tx = some t) : ¬Over tx s :=
  fun ho => nomatch ho.1.symm.trans ht

theorem over_of_commits (hs : Sound s) (h : Commits tx (call,(s.step call).2)) :
    ¬Over tx s ∧ Over tx (s.step call).1 := by
  obtain ⟨ts,storage,heq⟩ := h
  obtain ⟨rfl,hre⟩ := Prod.mk.inj heq
  cases ht : s.txs.lookup tx with
  | none =>
    rw [step,commitTx,ht] at hre
    cases hre
  | some t =>
    refine ⟨not_over ht,?_⟩
    obtain ⟨htxs,hids⟩ := (rewriteRow_changesRow tx ts).foldl_txs t.writeSet s
    rw [step,commitTx_eq hs ht] at hre ⊢
    dsimp only at hre ⊢
    split
    · next hlog =>
      rw [hlog] at hre
      cases hre
    · exact over_erase hs ht (congrArg (erase tx) htxs) hids

theorem over_of_rollsBack (hs : Sound s) (h : RollsBack tx (call,(s.step call).2)) :
    ¬Over tx s ∧ Over tx (s.step call).1 := by
  rcases h with heq | ⟨hc,hre⟩
  · obtain ⟨rfl,hre⟩ := Prod.mk.inj heq
    cases ht : s.txs.lookup tx with
    | none =>
      rw [step,rollbackTx,ht] at hre
      cases hre
    | some t => exact ⟨not_over ht,over_rollbackTx hs ht⟩
  · obtain ⟨id,hdel,hst⟩ := step_conflict hc hre
    obtain ⟨t,ht⟩ := known_of_conflict hdel
    exact ⟨not_over ht,hst ▸ over_delete hs hdel⟩

/-- Once a transaction is over, no call commits it or rolls it back. -/
theorem Over.transcript (h : Over tx s) (hs : Sound s) (calls : List Call) :
    ∀ entry ∈ s.transcript calls, ¬Commits tx entry ∧ ¬RollsBack tx entry := by
  induction calls generalizing s with
  | nil => nofun
  | cons call calls ih =>
    rw [transcript,forall_mem_cons]
    exact ⟨⟨fun hc => (over_of_commits hs hc).1 h,fun hr => (over_of_rollsBack hs hr).1 h⟩,
      ih (over_step h hs) (hs.step call)⟩

theorem not_commits_of_rollsBack (hs : Sound s) (hro : ∃ entry ∈ s.transcript calls, RollsBack tx entry) :
    ∀ entry ∈ s.transcript calls, ¬Commits tx entry := by
  induction calls generalizing s with
  | nil => nofun
  | cons call calls ih =>
    rw [transcript] at hro ⊢
    obtain ⟨entry,hmem,hr⟩ := hro
    rw [forall_mem_cons]
    obtain rfl | hmem := mem_cons.mp hmem
    · have hov := (over_of_rollsBack hs hr).2
      refine ⟨fun ⟨ts,storage,heq⟩ => ?_,fun e he =>
        (hov.transcript (hs.step call) calls e he).1⟩
      rcases hr with hr | ⟨-,hr⟩
      · rw [heq] at hr
        cases hr
      · rw [heq] at hr
        cases hr
    · refine ⟨fun hc => ?_,ih (hs.step call) ⟨entry,hmem,hr⟩⟩
      exact ((over_of_commits hs hc).2.transcript (hs.step call) calls entry hmem).2 hr

/-- What a step has to meet for the rollback of a transaction to leave no trace. -/
def Traceless (tx : TxID) (s : MvStore) (call : Call) : Prop :=
  EndsOnlyOwn tx s call ∧ (call.tx? ≠ some tx → Orderly s call)

theorem without_cons (hc : call.tx? = some tx') (txIds : TxID) : without tx txIds (call :: calls) =
      if tx' = tx then without tx txIds calls else call :: without tx txIds calls := by
  cases call <;> cases hc <;> simp [without,Call.tx?]

theorem readsOfOthers_cons (transcript : List (Call × Reply)) :
    readsOfOthers tx (entry :: transcript) = readsOfOthers tx [entry] ++ readsOfOthers tx transcript :=
  filter_append [entry] transcript

theorem Sim.readsOfOthers_eq (h : Sim (· = tx) (Begun tx) s s') (hs : Sound s)
    (hco : s.Along (Traceless tx) calls) (hcom : ∀ entry ∈ s.transcript calls, ¬Commits tx entry) :
    readsOfOthers tx (s'.transcript (without tx s.txIds calls)) = readsOfOthers tx (s.transcript calls) := by
  induction calls generalizing s s' with
  | nil => rfl
  | cons call calls ih =>
    obtain ⟨⟨hown,hord⟩,hre⟩ := hco
    rw [transcript,forall_mem_cons] at hcom
    have hs1 := hs.step call
    rw [transcript,readsOfOthers_cons]
    cases hc : call.tx? with
    | some tx' =>
      have hids := (Kept.step hs hc).txIds
      rw [without_cons hc]
      by_cases heq : tx' = tx
      · subst heq
        have hle := h.step_left hs hc hown fun ts storage he hr =>
          hcom.1 ⟨ts,storage,Prod.ext he hr⟩
        have hnone : readsOfOthers tx' [(call, (s.step call).2)] = [] := by
          cases call <;> cases hc <;> simp [readsOfOthers]
        rw [if_pos rfl,hnone,nil_append,← ih hle hs1 hre hcom.2,hids]
      · obtain ⟨hsim,hrep⟩ := h.step hs (hides_begun hs)
          (fun u hu => by rw [hc] at hu; cases hu; exact heq)
          (fun ts he => by rw [he] at hc; cases hc)
          (hord (by rw [hc]; simpa using heq))
        have hsa : readsOfOthers tx [(call, (s'.step call).2)] =
            readsOfOthers tx [(call, (s.step call).2)] := by
          cases call with
          | read u id => rw [hrep trivial]
          | _ => rfl
        rw [if_neg heq,transcript,readsOfOthers_cons,hsa,← ih hsim hs1 hre hcom.2,hids]
    | none =>
      cases call with
      | beginTx ts =>
        rw [without,transcript,readsOfOthers_cons]
        by_cases heq : s.txIds = tx
        · rw [if_pos heq]
          exact congrArg₂ _ rfl (ih (h.beginTx_left heq) hs1 hre hcom.2)
        · rw [if_neg heq]
          exact congrArg₂ _ rfl (ih (h.beginTx heq ts).1 hs1 hre hcom.2)
      | getTxId =>
        rw [without,transcript,readsOfOthers_cons]
        exact congrArg₂ _ rfl (ih h.getTxId.1 hs1 hre hcom.2)
      | _ => cases hc

/-- The others read what they would read if the transaction that is rolled back had never been, in
every history in which it ends only versions of its own and in which the others put versions into
rows in order. -/
theorem rollback_leaves_no_trace (tx : TxID) (calls : List Call)
    (hroll : ∃ entry ∈ ({} : MvStore).transcript calls, RollsBack tx entry)
    (hcond : ({} : MvStore).Along (Traceless tx) calls) :
    readsOfOthers tx (({} : MvStore).transcript (without tx 1 calls)) =
      readsOfOthers tx (({} : MvStore).transcript calls) := by
  have hsim : Sim (· = tx) (Begun tx) ({} : MvStore) {} :=
    ⟨rfl,fun _ => rfl,fun _ => rfl,fun _ => .nil,nofun⟩
  exact hsim.readsOfOthers_eq .init hcond (not_commits_of_rollsBack .init hroll)

/-- One transaction writes a row that another one reads before and after the first is rolled back. -/
def ownInsertRolledBack : List Call :=
  [.beginTx 0, .insert 1 ⟨⟨1, 1⟩, [7]⟩, .delete 1 ⟨1, 1⟩, .insert 1 ⟨⟨1, 1⟩, [8]⟩, .beginTx 1,
    .insert 2 ⟨⟨1, 2⟩, [9]⟩, .read 2 ⟨1, 1⟩, .rollbackTx 1, .read 2 ⟨1, 1⟩, .read 2 ⟨1, 2⟩]

theorem ownInsertRolledBack_leaves_no_trace :
    readsOfOthers 1 (({} : MvStore).transcript (without 1 1 ownInsertRolledBack)) =
      readsOfOthers 1 (({} : MvStore).transcript ownInsertRolledBack) := by
  refine rollback_leaves_no_trace 1 ownInsertRolledBack ⟨(.rollbackTx 1, .ok .done),by decide,.inl rfl⟩ ?_
  refine ⟨⟨trivial,fun _ => trivial⟩,⟨trivial,fun h => absurd rfl h⟩,⟨fun _ t v ht hv => ?_,fun h => absurd rfl h⟩,
    ⟨trivial,fun h => absurd rfl h⟩,⟨trivial,fun _ => trivial⟩,⟨trivial,fun _ _ _ => .nil⟩,
    ⟨trivial,fun _ => trivial⟩,⟨trivial,fun _ => trivial⟩,⟨trivial,fun _ => trivial⟩,
    ⟨trivial,fun _ => trivial⟩,trivial⟩
  cases ht
  cases hv
  exact .inr rfl

/-- A transaction deletes a row and is rolled back. -/
def deleteRolledBack : List Call :=
  [.beginTx 0, .insert 1 ⟨⟨1, 1⟩, [7]⟩, .commitTx 1 1 .noop, .beginTx 2, .delete 2 ⟨1, 1⟩,
    .rollbackTx 2, .beginTx 3, .read 3 ⟨1, 1⟩]

/-- The row stays away, though without the transaction it would be there. -/
theorem deleted_row_stays_away :
    readsOfOthers 2 (({} : MvStore).transcript deleteRolledBack) = [(.read 3 ⟨1, 1⟩, .ok (.found none))] ∧
      readsOfOthers 2 (({} : MvStore).transcript (without 2 1 deleteRolledBack)) =
        [(.read 3 ⟨1, 1⟩, .ok (.found (some ⟨⟨1, 1⟩, [7]⟩)))] := by
  decide

end OxiSql.Mvcc
