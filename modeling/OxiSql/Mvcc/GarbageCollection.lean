import OxiSql.Mvcc.Simulation

namespace OxiSql.Mvcc
open Lib List

variable {s : MvStore} {id : RowID}

namespace MvStore

theorem versions_dropFrom : (s.dropFrom acc id').1.versions id =
      if id = id' then (s.versions id').filter s.shouldStay else acc.1.versions id := by
  unfold dropFrom
  dsimp only
  by_cases hke : (s.versions id').filter s.shouldStay = []
  · rw [if_pos hke,hke,versions]
    split
    · next heq => rw [heq,AList.lookup_erase,Option.getD_none]
    · next hne => rw [AList.lookup_erase_ne hne,versions]
  · rw [if_neg hke]
    exact versions_insert ..

theorem foldl_dropFrom (ids : List RowID) (acc : MvStore × Nat) :
    (ids.foldl s.dropFrom acc).1.txs = acc.1.txs ∧ (ids.foldl s.dropFrom acc).1.txIds = acc.1.txIds ∧
      ∀ id, (ids.foldl s.dropFrom acc).1.versions id =
        if id ∈ ids then (s.versions id).filter s.shouldStay else acc.1.versions id := by
  induction ids generalizing acc with
  | nil => exact ⟨rfl,rfl,fun _ => rfl⟩
  | cons id' ids ih =>
    obtain ⟨htxs,hids,hvs⟩ := ih (s.dropFrom acc id')
    refine ⟨htxs,hids,fun id => ?_⟩
    rw [foldl_cons,hvs,versions_dropFrom]
    by_cases heq : id = id'
    · simp [heq]
    · simp [heq]

theorem dropUnusedRowVersions_spec (s : MvStore) :
    s.dropUnusedRowVersions.1.txs = s.txs ∧ s.dropUnusedRowVersions.1.txIds = s.txIds ∧
      ∀ id, s.dropUnusedRowVersions.1.versions id = (s.versions id).filter s.shouldStay := by
  obtain ⟨htxs,hids,hvs⟩ := foldl_dropFrom s.rows.keys (s, 0)
  refine ⟨htxs,hids,fun id => (hvs id).trans ?_⟩
  split
  · rfl
  · next hmem =>
    rw [versions_of_lookup_none (AList.lookup_eq_none.mpr hmem),filter_nil]

end MvStore

def Call.ts? : Call → Option Nat
  | .beginTx ts | .commitTx _ ts _ => some ts
  | _ => none

/-- The least timestamp that the clock may answer after the call. -/
def Call.advance (now : Nat) (call : Call) : Nat :=
  match call.ts? with
  | some ts => ts + 1
  | none => now

def Call.Fresh (now : Nat) (call : Call) : Prop :=
  ∀ ts ∈ call.ts?, now ≤ ts

def Increasing : Nat → List Call → Prop
  | _, [] => True
  | now, call :: calls => call.Fresh now ∧ Increasing (call.advance now) calls

instance decidableIncreasing : ∀ now calls, Decidable (Increasing now calls)
  | _, [] => inferInstanceAs (Decidable True)
  | now, call :: calls =>
    have := decidableIncreasing (call.advance now) calls
    inferInstanceAs (Decidable ((∀ ts ∈ call.ts?, now ≤ ts) ∧ Increasing (call.advance now) calls))

/-- Stores that calls lead to, with dropping in between. -/
inductive Reachable : Nat → MvStore → Prop where
  | init : Reachable 0 {}
  | call {now : Nat} {s : MvStore} (call : Call) :
      Reachable now s → call.Fresh now → Reachable (call.advance now) (s.step call).1
  | drop {now : Nat} {s : MvStore} : Reachable now s → Reachable now s.dropUnusedRowVersions.1

/-- The marks of versions are from the past. -/
structure Past (now : Nat) (s : MvStore) : Prop where
  began : ∀ {id v tx}, v ∈ s.versions id → v.beginMark = .txID tx → tx < s.txIds
  ended : ∀ {id v tx}, v ∈ s.versions id → v.endMark = some (.txID tx) → tx < s.txIds
  timed : ∀ {id v ts}, v ∈ s.versions id → v.endMark = some (.timestamp ts) → ts < now

theorem txIds_le_step (hs : Sound s) (call : Call) : s.txIds ≤ (s.step call).1.txIds := by
  cases hc : call.tx? with
  | some tx => exact Nat.le_of_eq (Kept.step hs hc).txIds.symm
  | none =>
    cases call with
    | beginTx ts | getTxId => exact Nat.le_succ _
    | _ => cases hc

theorem le_advance {call : Call} (h : call.Fresh now) : now ≤ call.advance now := by
  unfold Call.advance
  split
  · next ts hts => exact Nat.le_succ_of_le (h ts hts)
  · exact Nat.le_refl _

theorem TxTimestampOrID.commit_cases (mark : TxTimestampOrID) (ts : Nat) :
    mark.commit tx ts = .timestamp ts ∨ mark.commit tx ts = mark := by
  unfold commit
  split
  · exact .inl rfl
  · exact .inr rfl

theorem Past.step (h : Past now s) (hs : Sound s) (hf : call.Fresh now) :
    Past (call.advance now) (s.step call).1 := by
  have hids := txIds_le_step hs call
  have hnow := le_advance hf
  refine ⟨fun {id v tx} hv hm => ?_,fun {id v tx} hv hm => ?_,fun {id v ts} hv hm => ?_⟩
  · cases Came.step hs hv with
    | old hv => exact Nat.lt_of_lt_of_le (h.began hv hm) hids
    | new row ht =>
      cases hm
      exact Nat.lt_of_lt_of_le (hs.bounded ht) hids
    | ended hw ht => exact Nat.lt_of_lt_of_le (h.began hw hm) hids
    | @committed tx' w ts storage hw hc =>
      rcases w.beginMark.commit_cases ts with he | he
      · cases he.symm.trans hm
      · exact Nat.lt_of_lt_of_le (h.began hw (he.symm.trans hm)) hids
  · cases Came.step hs hv with
    | old hv => exact Nat.lt_of_lt_of_le (h.ended hv hm) hids
    | new row ht => cases hm
    | ended hv ht =>
      cases hm
      exact Nat.lt_of_lt_of_le (hs.bounded ht) hids
    | @committed tx' w ts storage hw hc =>
      obtain ⟨mark,hmark,hm⟩ := Option.map_eq_some_iff.mp hm
      rcases mark.commit_cases ts with he | he
      · cases he.symm.trans hm
      · exact Nat.lt_of_lt_of_le (h.ended hw (hmark.trans (congrArg some (he.symm.trans hm)))) hids
  · cases Came.step hs hv with
    | old hv => exact Nat.lt_of_lt_of_le (h.timed hv hm) hnow
    | new row ht | ended hv ht => cases hm
    | @committed tx' w ts' storage hw hc =>
      obtain ⟨mark,hmark,hm⟩ := Option.map_eq_some_iff.mp hm
      rcases mark.commit_cases ts' with he | he
      · cases he.symm.trans hm
        subst hc
        exact Nat.lt_succ_self _
      · exact Nat.lt_of_lt_of_le (h.timed hw (hmark.trans (congrArg some (he.symm.trans hm)))) hnow

theorem Reachable.sound_past (h : Reachable now s) : Sound s ∧ Past now s := by
  induction h with
  | init => exact ⟨.init,nofun,nofun,nofun⟩
  | call call _ hf ih => exact ⟨ih.1.step call,ih.2.step ih.1 hf⟩
  | @drop now s _ ih =>
    obtain ⟨htxs,hids,hvs⟩ := s.dropUnusedRowVersions_spec
    have hmem : ∀ {id v}, v ∈ s.dropUnusedRowVersions.1.versions id → v ∈ s.versions id :=
      fun {id v} hv => mem_of_mem_filter (hvs id ▸ hv)
    exact ⟨⟨fun hl => ih.1.active (htxs ▸ hl),fun hl => ih.1.named (htxs ▸ hl),
      fun hl => hids.symm ▸ ih.1.bounded (htxs ▸ hl)⟩,
      fun hv hm => hids.symm ▸ ih.2.began (hmem hv) hm,fun hv hm => hids.symm ▸ ih.2.ended (hmem hv) hm,
      fun hv hm => ih.2.timed (hmem hv) hm⟩

/-- No transaction of the store, and none to come, can see the version: its marks are of transactions
that are over, and it ended before all snapshots. -/
structure Dead (now : Nat) (s : MvStore) (v : RowVersion) : Prop where
  began : ∀ tx, v.beginMark = .txID tx → s.txs.lookup tx = none ∧ tx < s.txIds
  ended : (∃ ts, v.endMark = some (.timestamp ts) ∧ ts ≤ now ∧
      ∀ {tx t}, s.txs.lookup tx = some t → ts ≤ t.beginTs) ∨
    ∃ tx, v.endMark = some (.txID tx) ∧ s.txs.lookup tx = none ∧ tx < s.txIds

theorem dead_of_dropped (hs : Sound s) (hp : Past now s) (hv : v ∈ s.versions id)
    (hdr : s.shouldStay v = false) : Dead now s v := by
  rw [MvStore.shouldStay,Bool.or_eq_false_iff] at hdr
  obtain ⟨hbe,hend⟩ := hdr
  refine ⟨fun tx hm => ?_,?_⟩
  · rw [hm] at hbe
    exact ⟨by simpa using hbe,hp.began hv hm⟩
  · cases hm : v.endMark with
    | none =>
      rw [hm] at hend
      cases hend
    | some mark =>
      rw [hm] at hend
      cases mark with
      | txID tx => exact .inr ⟨tx,rfl,by simpa using hend,hp.ended hv hm⟩
      | timestamp ts =>
        refine .inl ⟨ts,rfl,Nat.le_of_lt (hp.timed hv hm),fun {tx t} hl => ?_⟩
        have hen := any_eq_false.mp hend ⟨tx,t⟩ (AList.mem_lookup_iff.mp hl)
        simpa [hs.active hl] using hen

/-- A later store: what it has of old transactions has not changed, and the others are new. -/
def Later (now : Nat) (s s' : MvStore) : Prop :=
  ∀ {tx t'}, s'.txs.lookup tx = some t' →
    (∃ t, s.txs.lookup tx = some t ∧ t'.beginTs = t.beginTs) ∨ s.txIds ≤ tx ∧ now ≤ t'.beginTs

theorem Later.hides (h : Later now s s') : Hides (fun _ => False) (Dead now s) s' where
  unseen {v} hv {tx t} _ ht := by
    have hend : isEndVisible s'.txs t v = false := by
      unfold isEndVisible
      obtain ⟨ts,hm,hnow,hold⟩ | ⟨tx',hm,hnone,hlt⟩ := hv.ended
      · rw [hm]
        have hle : ts ≤ t.beginTs := by
          obtain ⟨t0,ht0,heq⟩ | ⟨-,hnew⟩ := h ht
          · exact heq ▸ hold ht0
          · exact Nat.le_trans hnow hnew
        simpa using hle
      · rw [hm]
        cases hl : s'.txs.lookup tx' with
        | none => simp [hl]
        | some t' =>
          obtain ⟨t0,ht0,-⟩ | ⟨hge,-⟩ := h hl
          · rw [hnone] at ht0
            cases ht0
          · exact absurd hlt (Nat.not_lt.mpr hge)
    rw [RowVersion.isVisibleTo,hend,Bool.and_false]
  unmarked {v} hv {tx t} _ ht := by
    have hold : s.txs.lookup tx = none → tx < s.txIds → False := by
      intro hnone hlt
      obtain ⟨t0,ht0,-⟩ | ⟨hge,-⟩ := h ht
      · rw [hnone] at ht0
        cases ht0
      · exact absurd hlt (Nat.not_lt.mpr hge)
    refine ⟨fun hm => hold (hv.began tx hm).1 (hv.began tx hm).2,fun hm => ?_⟩
    obtain ⟨ts,hm',-⟩ | ⟨tx',hm',hnone,hlt⟩ := hv.ended
    · cases hm.symm.trans hm'
    · cases hm.symm.trans hm'
      exact hold hnone hlt

theorem Later.step (h : Later now s s') (hs' : Sound s') (hids : s.txIds ≤ s'.txIds)
    (hnow : now ≤ now') (hf : call.Fresh now') : Later now s (s'.step call).1 := by
  intro tx t' hl
  cases hc : call.tx? with
  | some tx' =>
    obtain ⟨t,ht,-,-,hb⟩ := (Kept.step hs' hc).txs hl
    obtain ⟨t0,ht0,heq⟩ | ⟨hge,hnew⟩ := h ht
    · exact .inl ⟨t0,ht0,hb.trans heq⟩
    · exact .inr ⟨hge,hb ▸ hnew⟩
  | none =>
    cases call with
    | beginTx ts =>
      obtain ⟨rfl,rfl⟩ | hl := lookup_beginTx hl
      · exact .inr ⟨hids,Nat.le_trans hnow (hf ts rfl)⟩
      · exact h hl
    | getTxId => exact h hl
    | _ => cases hc

/-- What a call has to meet for dropped versions not to be missed. -/
def Unaffected (s : MvStore) (call : Call) : Prop :=
  Orderly s call ∧ Known s call

theorem Sim.transcript_eq (h : Sim (fun _ => False) (Dead now s) r r') (hr : Sound r)
    (hl : Later now s r) (hids : s.txIds ≤ r.txIds) (hnow : now ≤ now')
    (hinc : Increasing now' calls) (hco : r.Along Unaffected calls) :
    r'.transcript calls = r.transcript calls := by
  induction calls generalizing r r' now' with
  | nil => rfl
  | cons call calls ih =>
    obtain ⟨hf,hinc⟩ := hinc
    obtain ⟨⟨hord,hkn⟩,hco⟩ := hco
    obtain ⟨hsim,hre⟩ := h.step hr hl.hides (fun _ _ => id) (fun _ _ => id) hord
    rw [MvStore.transcript,MvStore.transcript,hre hkn,ih hsim (hr.step call) (hl.step hr hids hnow hf)
        (Nat.le_trans hids (txIds_le_step hr call)) (Nat.le_trans hnow (le_advance hf)) hinc hco]

/-- Dropping versions, at any time, changes the answer of no call after it, where every call that
writes is made by a running transaction and puts its version into a row in order. -/
theorem drop_unused_unnoticed (hreach : Reachable now s) {calls : List Call}
    (hinc : Increasing now calls) (hcond : s.Along Unaffected calls) :
    s.dropUnusedRowVersions.1.transcript calls = s.transcript calls := by
  obtain ⟨hs,hp⟩ := hreach.sound_past
  obtain ⟨htxs,hids,hvs⟩ := s.dropUnusedRowVersions_spec
  have hsim : Sim (fun _ => False) (Dead now s) s s.dropUnusedRowVersions.1 := by
    refine ⟨hids,fun _ => by rw [htxs],False.elim,fun id => ?_,fun _ _ => False.elim⟩
    rw [hvs]
    exact .of_filter fun v hv hdr => dead_of_dropped hs hp hv hdr
  exact hsim.transcript_eq hs (fun hl => .inl ⟨_,hl,rfl⟩) (Nat.le_refl _) (Nat.le_refl _) hinc hcond

theorem Reachable.run (h : Reachable now s) (calls : List Call) (hinc : Increasing now calls) :
    Reachable (calls.foldl Call.advance now) (s.run calls) := by
  induction calls generalizing now s with
  | nil => exact h
  | cons call calls ih => exact ih (h.call call hinc.1) hinc.2

/-- A row is written and deleted again. -/
def writtenAndDeleted : List Call :=
  [.beginTx 0, .insert 1 ⟨⟨1, 1⟩, [7]⟩, .commitTx 1 1 .noop, .beginTx 2, .delete 2 ⟨1, 1⟩, .commitTx 2 3 .noop]

theorem writtenAndDeleted_unnoticed : let s := ({} : MvStore).run writtenAndDeleted
    let calls := [Call.beginTx 4,.upsert 3 ⟨⟨1,1⟩,[8]⟩,.read 3 ⟨1,1⟩]
    s.dropUnusedRowVersions.2 = 1 ∧ s.dropUnusedRowVersions.1.transcript calls = s.transcript calls := by
  have hre : Reachable 4 (({} : MvStore).run writtenAndDeleted) := Reachable.init.run writtenAndDeleted (by decide)
  refine ⟨rfl,drop_unused_unnoticed hre (by decide) ?_⟩
  refine ⟨⟨trivial,trivial⟩,⟨fun t ht => ?_,_,rfl⟩,⟨trivial,trivial⟩,trivial⟩
  exact pairwise_singleton ..

/-- Two transactions insert the same row. The version of one is deleted before the other commits. -/
def concurrentInserts : List Call :=
  [.beginTx 0, .beginTx 1, .insert 2 ⟨⟨1, 1⟩, [2]⟩, .insert 1 ⟨⟨1, 1⟩, [1]⟩, .commitTx 2 2 .noop,
    .beginTx 3, .delete 3 ⟨1, 1⟩, .commitTx 3 4 .noop, .beginTx 5, .commitTx 1 6 .noop]

def insertAndRead : List Call :=
  [.insert 4 ⟨⟨1, 1⟩, [4]⟩, .commitTx 4 7 .noop, .beginTx 8, .read 5 ⟨1, 1⟩]

/-- The place of a new version depends on the version that was dropped, and so what is read. -/
theorem dropped_version_missed : let s := ({} : MvStore).run concurrentInserts
    Reachable 7 s ∧ Increasing 7 insertAndRead ∧ (s.transcript insertAndRead).getLast? =
        some (.read 5 ⟨1,1⟩, .ok (.found (some ⟨⟨1,1⟩,[4]⟩))) ∧
      (s.dropUnusedRowVersions.1.transcript insertAndRead).getLast? =
        some (.read 5 ⟨1,1⟩, .ok (.found (some ⟨⟨1,1⟩,[1]⟩))) :=
  ⟨Reachable.init.run concurrentInserts (by decide),by decide,by decide,by decide⟩

end OxiSql.Mvcc
