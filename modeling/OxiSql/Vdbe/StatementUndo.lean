import OxiSql.Storage.SavepointSemantics
import OxiSql.Vdbe.Statement

namespace OxiSql.Vdbe
open Lib Wal Storage Translate List Session Pager Option

/-- Nothing below the cache changed, and no savepoint was opened or closed. -/
structure SameLog (P P' : Pager) : Prop where
  wal : P'.wal = P.wal
  shared : P'.shared = P.shared
  db : P'.db = P.db
  savepoints : P'.savepoints = P.savepoints

namespace SameLog

theorem refl (P : Pager) : SameLog P P := ⟨rfl,rfl,rfl,rfl⟩

theorem trans (h : SameLog P P') (h' : SameLog P' P'') : SameLog P P'' :=
  ⟨h'.wal.trans h.wal,h'.shared.trans h.shared,h'.db.trans h.db,h'.savepoints.trans h.savepoints⟩

theorem modify (P : Pager) (page : Nat) (content : PageBytes) : SameLog P (P.modify page content) :=
  ⟨rfl,rfl,rfl,rfl⟩

theorem readPage (P : Pager) (page : Nat) (room : Room) : SameLog P (P.readPage page room).2 := by
  unfold Pager.readPage
  split
  · exact refl P
  · split
    · exact refl P
    · exact ⟨rfl,rfl,rfl,rfl⟩

theorem writeDatabaseHeader (P : Pager) (room : Room) : SameLog P (P.writeDatabaseHeader room).2 := by
  have hre := readPage P databaseHeaderPageId room
  unfold Pager.writeDatabaseHeader
  split
  · rename_i he
    rwa [he] at hre
  · rename_i he
    rw [he] at hre
    exact hre.trans (modify ..)

theorem growTo (P : Pager) (size : UInt32) (room : Room) : SameLog P (P.growTo size room).2 := by
  have hwr := writeDatabaseHeader { P with header := { P.header with databaseSize := size } } room
  unfold Pager.growTo
  split
  · rename_i he
    rw [he] at hwr
    exact ⟨hwr.wal,hwr.shared,hwr.db,hwr.savepoints⟩
  · rename_i he
    rw [he] at hwr
    exact ⟨hwr.wal,hwr.shared,hwr.db,hwr.savepoints⟩

theorem insertNew {content : PageBytes} (h : P.insertNew page content room = .ok P') : SameLog P P' := by
  unfold Pager.insertNew at h
  split at h
  · cases h
  · split at h
    · cases h
    · cases h
      exact ⟨rfl,rfl,rfl,rfl⟩

theorem allocatePage (P : Pager) (ptrmap buffer : PageBytes) (room : Room) :
    SameLog P (P.allocatePage ptrmap buffer room).2 := by
  unfold Pager.allocatePage
  dsimp only
  split
  · split
    · exact refl P
    · rename_i P1 h1
      split
      · exact (insertNew h1).trans ⟨rfl,rfl,rfl,rfl⟩
      · rename_i P2 h2
        exact ((insertNew h1).trans (insertNew h2)).trans (growTo ..)
  · split
    · exact refl P
    · rename_i P1 h1
      exact (insertNew h1).trans (growTo ..)

theorem linkFreePage (P : Pager) (page : Nat) (content : PageBytes) (room : Room) :
    SameLog P (P.linkFreePage page content room).2 := by
  have hre := readPage P P.header.freelistTrunkPage.toNat room
  unfold Pager.linkFreePage
  dsimp only
  split
  · exact ⟨rfl,rfl,rfl,rfl⟩
  · split
    · rename_i he
      rwa [he] at hre
    · rename_i he
      rw [he] at hre
      split
      · exact hre.trans (modify ..)
      · exact hre.trans ⟨rfl,rfl,rfl,rfl⟩

theorem freePage (P : Pager) (page : Nat) (room : Room) : SameLog P (P.freePage page room).2 := by
  have hre := readPage P page room
  unfold Pager.freePage
  split
  · exact refl P
  · split
    · rename_i he
      rwa [he] at hre
    · rename_i P1 he
      rw [he] at hre
      have hli := linkFreePage
        { P1 with header := { P1.header with freelistPages := P1.header.freelistPages + 1 } } page
        ‹PageBytes› room
      exact hre.trans ⟨hli.wal,hli.shared,hli.db,hli.savepoints⟩

/-- Cursors leave the log and the savepoints alone. -/
theorem step (hop : cursorOp op = true) (h : P.step op = some P') : SameLog P P' := by
  cases op with
  | readPage page room =>
    cases h
    exact readPage ..
  | evict pages =>
    cases h
    exact ⟨rfl,rfl,rfl,rfl⟩
  | writePage page content =>
    unfold Pager.step at h
    dsimp only at h
    split at h
    · cases h
    · split at h
      · cases h
        exact modify ..
      · cases h
  | allocatePage ptrmap buffer room =>
    unfold Pager.step at h
    dsimp only at h
    split at h
    · cases h
      exact allocatePage ..
    · cases h
  | freePage page room =>
    cases h
    exact freePage ..
  | setCookie | openSavepoint | rollbackToSavepoint | releaseSavepoint | rollback => cases hop

theorem readPage_eq (h : SameLog P P') (page : Nat) :
    P'.wal.readPage P'.shared P'.db page = P.wal.readPage P.shared P.db page := by
  rw [h.wal,h.shared,h.db]

theorem newest_eq (h : SameLog P P') : P'.newest page = P.newest page := by
  simp [Pager.newest,Pager.viewAt,h.wal,h.shared,h.db]

end SameLog

/-- What the rows of a statement leave of a session: pages touched above the log and, if a
constraint stopped it, what the halt made of them. -/
inductive Left (stmt : Statement) (s : Session) : Option StatementEnd → Session → Prop where
  | through {P : Pager} (h : SameLog s.pager P) : Left stmt s none { s with pager := P }
  | halted {P : Pager} (h : SameLog s.pager P) (error : LimboError) (own : ResolveType) :
      Left stmt s (some (.stopped error (effective stmt.onConflict own)))
        { s with pager := P.clearPageCache }
  | rolledBack {P P' : Pager} (h : SameLog s.pager P)
      (hback : P.rollbackToSavepoint stmtSavepoint = (.ok (), P')) (error : LimboError)
      (own : ResolveType) (hrolls : stmt.rollsBack (effective stmt.onConflict own) = true) :
      Left stmt s (some (.stopped error (effective stmt.onConflict own)))
        { s with pager := P'.clearPageCache }
  | failed {P P' : Pager} (h : SameLog s.pager P) {error : LimboError}
      (hback : P.rollbackToSavepoint stmtSavepoint = (.error error, P')) :
      Left stmt s (some (.failed error)) { s with pager := P' }

theorem Left.of_sameLog (h : SameLog s.pager P) (hle : Left stmt { s with pager := P } r s') :
    Left stmt s r s' := by
  cases hle with
  | through h' => exact .through (h.trans h')
  | halted h' error own => exact .halted (h.trans h') error own
  | rolledBack h' hback error own hrolls => exact .rolledBack (h.trans h') hback error own hrolls
  | failed h' hback => exact .failed (h.trans h') hback

theorem conflictHalt_left (h : s.conflictHalt (stmt.rollsBack (effective stmt.onConflict own)) description
      (effective stmt.onConflict own) = (r,s')) : Left stmt s r s' := by
  unfold conflictHalt at h
  split at h
  · rename_i hrolls
    split at h
    · rename_i hback
      cases h
      exact .failed (.refl _) hback
    · rename_i hback
      cases h
      exact .rolledBack (.refl _) hback _ own hrolls
  · cases h
    exact .halted (.refl _) _ own

theorem runRow_left (h : s.runRow stmt events = some (r,s')) : Left stmt s r s' := by
  induction events generalizing s with
  | nil =>
    cases h
    exact .through (.refl _)
  | cons event events ih =>
    cases event with
    | page op =>
      unfold runRow at h
      split at h
      · rename_i hop
        obtain ⟨P,hst,h⟩ := bind_eq_some_iff.mp h
        exact (ih h).of_sameLog (.step hop hst)
      · cases h
    | conflict own upsert description =>
      unfold runRow at h
      split at h
      · cases h
        exact .through (.refl _)
      · exact ih h
      · exact conflictHalt_left (some.inj h)
    | rowidTaken description => exact conflictHalt_left (some.inj h)
    | null description =>
      cases h
      exact .halted (.refl _) _ .abort

theorem runRows_left (h : s.runRows stmt rows = some (r,s')) : Left stmt s r s' := by
  induction rows generalizing s with
  | nil =>
    cases h
    exact .through (.refl _)
  | cons row rows ih =>
    unfold runRows at h
    split at h
    · cases h
    · rename_i hrow
      cases h
      exact runRow_left hrow
    · rename_i s1 hrow
      cases runRow_left hrow with
      | through hlog => exact (ih h).of_sameLog hlog

/-- Taking locks touches neither the cache nor the savepoints nor autocommit. -/
structure LocksOnly (s s' : Session) : Prop where
  cache : s'.pager.cache = s.pager.cache
  savepoints : s'.pager.savepoints = s.pager.savepoints
  autoCommit : s'.autoCommit = s.autoCommit

theorem acquireLocks_only (s : Session) (read write : Bool) : LocksOnly s (s.acquireLocks read write).2 := by
  have hre : LocksOnly s (if read then s.beginRead else (.ok, s)).2 := by
    split <;> exact ⟨rfl,rfl,rfl⟩
  unfold acquireLocks
  split
  · rename_i he
    rwa [he] at hre
  · rename_i s1 he
    rw [he] at hre
    split
    · exact ⟨hre.cache,hre.savepoints,hre.autoCommit⟩
    · exact hre

theorem opTransaction_only (s : Session) : LocksOnly s s.opTransaction.2 := by
  have hlo := acquireLocks_only s (s.transactionState = .none) (s.transactionState ≠ .write)
  unfold opTransaction
  split
  · rename_i he
    rwa [he] at hlo
  · rename_i he
    rw [he] at hlo
    exact ⟨hlo.cache,hlo.savepoints,hlo.autoCommit⟩

theorem openSavepoint_savepoints (P : Pager) (order : List Nat) : ∃ sp : SavepointFrame, sp.name = name ∧
      sp.walMaxFrame = (P.flushDirtyPagesToWal order).shared.maxFrame ∧
      (P.openSavepoint name isTxnOwner order).savepoints = P.savepoints ++ [sp] := by
  have hfl : (P.flushDirtyPagesToWal order).savepoints = P.savepoints := by
    unfold flushDirtyPagesToWal
    split <;> rfl
  refine ⟨⟨name,(P.flushDirtyPagesToWal order).shared.currentFrameState.1,
    (P.flushDirtyPagesToWal order).shared.currentFrameState.2,isTxnOwner⟩,rfl,rfl,?_⟩
  rw [← hfl]
  rfl

theorem savepointBegin_savepoints {s s' : Session} (h : s.savepointBegin name order = (.ok,s')) :
    ∃ sp : SavepointFrame, sp.name = name ∧ s'.pager.savepoints = s.pager.savepoints ++ [sp] := by
  unfold savepointBegin at h
  split at h
  · have hlo := acquireLocks_only s (s.transactionState = .none) (s.transactionState ≠ .write)
    split at h
    · cases h
    · rename_i he
      rw [he] at hlo
      cases h
      rw [← hlo.savepoints]
      obtain ⟨sp,hna,-,hsp⟩ := openSavepoint_savepoints _ order
      exact ⟨sp,hna,hsp⟩
  · cases h
    obtain ⟨sp,hna,-,hsp⟩ := openSavepoint_savepoints s.pager order
    exact ⟨sp,hna,hsp⟩

theorem savepointTarget_last (savepoints : List SavepointFrame) (sp : SavepointFrame) :
    savepointTarget (savepoints ++ [sp]) sp.name = .ok (sp,savepoints ++ [sp]) := by
  have hfi : findSavepoint (savepoints ++ [sp]) sp.name = some savepoints.length := by
    unfold findSavepoint
    induction savepoints with
    | nil => simp [rposition,eqIgnoreAsciiCase]
    | cons older savepoints ih =>
      rw [cons_append,rposition,ih]
      rfl
  have hta : (savepoints ++ [sp]).take (savepoints.length + 1) = savepoints ++ [sp] :=
    take_of_length_le (by simp)
  simp [savepointTarget,hfi]

/-- A stopped statement leaves the savepoints that were open after its own was. -/
theorem Left.savepoints (h : Left stmt s (some (.stopped error action)) s')
    (hna : sp.name = stmtSavepoint) (hsp : s.pager.savepoints = older ++ [sp]) :
    s'.pager.savepoints = older ++ [sp] := by
  cases h with
  | halted hlog => exact hlog.savepoints.trans hsp
  | rolledBack hlog hback _ _ _ =>
    have hta := savepointTarget_last older sp
    rw [← hsp,← hlog.savepoints,hna] at hta
    simp only [rollbackToSavepoint,hta,Prod.mk.injEq,true_and] at hback
    rw [← hback]
    exact hlog.savepoints.trans hsp

/-- Every page reads as before, and still does from the log once the transaction is committed;
autocommit and the open savepoints are as before. -/
structure Undone (s s' : Session) : Prop where
  reads : ∀ page, s'.pager.content page = s.pager.content page
  persists : ∀ order, order.Perm s'.pager.dirtyPages →
    ∀ page, (s'.commit order).pager.newest page = s.pager.content page
  autoCommit : s'.autoCommit = s.autoCommit
  savepoints : s'.pager.savepoints = s.pager.savepoints

/-- What the connection reads is what the log holds: it has no changes that are not flushed, and
no one else committed since. -/
def Session.AllFlushed (s : Session) : Prop :=
  let P := s.opTransaction.2.pager
  ∀ page, P.wal.readPage P.shared P.db page = s.pager.content page ∧
    P.newest page = s.pager.content page

def Statement.touchesNoRow : Statement → Bool
  | .insertValues .. | .insertRows .. => false
  | .update _ skipsLoop rows => skipsLoop || rows.isEmpty

/-- A statement with the action ABORT that a constraint stops is undone, and an UPDATE of no row
does not trip over its savepoint. -/
structure Contained (s : Session) (stmt : Statement) (r : StatementEnd) (s' : Session) : Prop where
  undone : ∀ error, r = .stopped error .abort → Undone s s'
  noRow : stmt.touchesNoRow = true → r ≠ .failed (noSuchSavepoint stmtSavepoint)

/-- The code of an INSERT of one row, nothing unflushed; and no UPDATE that jumps over its own
savepoint, unless another of the name is open. -/
structure Containable (s : Session) (stmt : Statement) (r : StatementEnd) : Prop where
  single : ∀ error, r = .stopped error .abort → (∃ onConflict row, stmt = .insertValues onConflict row) ∧
    s.AllFlushed
  noRow : stmt.skipsLoop = true → stmt.needsStmtSavepoint = true →
    reaching s.pager.savepoints stmtSavepoint ≠ []

section
variable {s s' : Session} {stmt : Statement} {r : StatementEnd} {flush commit : List Nat}

theorem insertValues_needsStmtSavepoint (row : List RowEvent) :
    (Statement.insertValues onConflict row).needsStmtSavepoint = false :=
  Bool.and_false _

theorem needsSavepoint_of_abort (h : effective stmt.onConflict own = .abort) :
    (∃ onConflict row, stmt = .insertValues onConflict row) ∨ stmt.needsStmtSavepoint = true := by
  have hre : (effective stmt.onConflict .abort).reverts = true := by
    cases ha : stmt.onConflict with
    | none => rfl
    | some action =>
      rw [ha] at h
      cases h
      rfl
  cases stmt with
  | insertValues onConflict row => exact .inl ⟨onConflict,row,rfl⟩
  | insertRows onConflict rows =>
    exact .inr ((Bool.and_true _).trans hre)
  | update orConflict skipsLoop rows => exact .inr hre

section

variable (hrun : s.exec stmt flush commit = some (r, s'))
include hrun

theorem exec_cases (hbu : r ≠ .busy) :
    (stmt.skipsLoop = true ∧ (r,s') = s.opTransaction.2.finish stmt.needsStmtSavepoint commit) ∨
    stmt.skipsLoop = false ∧ ∃ s1, s.opTransaction.2.openStmt stmt.needsStmtSavepoint flush = some (.ok,s1) ∧
      (Left stmt s1 (some r) s' ∨
        ∃ s2, Left stmt s1 none s2 ∧ (r,s') = s2.finish stmt.needsStmtSavepoint commit) ∧
      (stmt.rows = [] → (r,s') = s1.finish stmt.needsStmtSavepoint commit) := by
  unfold exec at hrun
  split at hrun
  · cases hrun
    exact absurd rfl hbu
  · rename_i s0 hlo
    have he : s.opTransaction.2 = s0 := by rw [hlo]
    rw [he]
    split at hrun
    · rename_i hsk
      exact .inl ⟨hsk,(some.inj hrun).symm⟩
    · rename_i hsk
      refine .inr ⟨by simpa using hsk,?_⟩
      split at hrun
      · cases hrun
      · cases hrun
        exact absurd rfl hbu
      · rename_i s1 hop
        refine ⟨s1,hop,?_,?_⟩
        · split at hrun
          · cases hrun
          · rename_i hro
            cases hrun
            exact .inl (runRows_left hro)
          · rename_i s2 hro
            exact .inr ⟨s2,runRows_left hro,(some.inj hrun).symm⟩
        · intro hro
          rw [hro] at hrun
          exact (some.inj hrun).symm

theorem exec_write (hbu : r ≠ .busy) : s.opTransaction.2.transactionState = .write := by
  unfold exec at hrun
  split at hrun
  · cases hrun
    exact absurd rfl hbu
  · rename_i s0 hlo
    rw [hlo]
    unfold opTransaction at hlo
    split at hlo
    · cases hlo
    · cases hlo
      rfl

end

theorem finish_failed (h : (r,s') = s.finish needsStmtSavepoint commit) :
    (r = .failed (noSuchSavepoint stmtSavepoint) ↔ needsStmtSavepoint = true ∧
      reaching s.pager.savepoints stmtSavepoint = []) ∧ ∀ error action, r ≠ .stopped error action := by
  unfold finish at h
  cases needsStmtSavepoint with
  | false =>
    cases h
    exact ⟨by simp,by simp⟩
  | true =>
    rcases savepoint_cases s.pager.savepoints stmtSavepoint with
      ⟨hre,-,hrel⟩ | ⟨idx,sp,-,hre,-,hrel⟩
    · simp only [Pager.releaseSavepoint,hrel] at h
      cases h
      exact ⟨by simp [hre],by simp⟩
    · simp only [Pager.releaseSavepoint,hrel] at h
      cases h
      exact ⟨by simp [hre],by simp⟩

theorem reaching_last (savepoints : List SavepointFrame) : reaching (savepoints ++ [sp]) sp.name ≠ [] := by
  have hta := savepointTarget_last savepoints sp
  rcases savepoint_cases (savepoints ++ [sp]) sp.name with ⟨-,hnone,-⟩ | ⟨idx,sp',-,hre,-⟩
  · rw [hnone] at hta
    cases hta
  · rw [hre]
    exact cons_ne_nil _ _

theorem savepoint_left_open (hop : s.opTransaction.2.openStmt true flush = some (.ok,s1))
    (hle : Left stmt s1 (some (.stopped error action)) s') : ¬ Undone s s' := by
  intro hun
  unfold openStmt at hop
  rw [if_pos rfl] at hop
  split at hop
  · obtain ⟨sp,hna,hsp⟩ := savepointBegin_savepoints (some.inj hop)
    have hlef := hle.savepoints hna hsp
    rw [hun.savepoints,(opTransaction_only s).savepoints] at hlef
    have hlen := congrArg List.length hlef
    simp at hlen
  · cases hop

theorem openStmt_pager (hwr : s.transactionState = .write) (hop : s.openStmt true flush = some (.ok,s1)) :
    flush.Perm s.pager.dirtyPages ∧
      ∃ isTxnOwner, s1.pager = s.pager.openSavepoint stmtSavepoint isTxnOwner flush := by
  unfold openStmt at hop
  rw [if_pos rfl] at hop
  split at hop
  · rename_i hpe
    refine ⟨hpe,?_⟩
    unfold savepointBegin acquireLocks at hop
    split at hop
    · simp only [hwr,reduceCtorEq,decide_false,if_false,ne_eq,
        not_true_eq_false,some.injEq,Prod.mk.injEq,true_and] at hop
      exact ⟨true,by rw [← hop]⟩
    · cases hop
      exact ⟨false,rfl⟩
  · cases hop

/-- The savepoint does restore the pages: whatever stopped the statement, they read as before. -/
theorem stopped_reads (hwr : s.transactionState = .write) (hco : s.pager.Coherent)
    (hop : s.openStmt true flush = some (.ok,s1))
    (hle : Left stmt s1 (some (.stopped error action)) s') :
    s'.pager.content page = s.pager.content page := by
  obtain ⟨hpe,isTxnOwner,hpa⟩ := openStmt_pager hwr hop
  have hfl := hco.flush hpe
  have hne : (s.pager.flushDirtyPagesToWal flush).newest page = s.pager.content page := by
    rw [← hfl.content page]
    exact (hfl.coherent.content_clean (by simp [hfl.clean])).symm
  rw [← hne]
  cases hle with
  | halted hlog =>
    have hre := hlog.readPage_eq page
    rw [hpa] at hre
    exact hre.trans (hfl.coherent.boundary page)
  | @rolledBack P P' hlog hback =>
    obtain ⟨sp,hna,hfr,hsp⟩ :=
      openSavepoint_savepoints s.pager flush
    have hta := savepointTarget_last s.pager.savepoints sp
    rw [← hsp,← hpa,← hlog.savepoints,hna] at hta
    simp only [rollbackToSavepoint,hta,Prod.mk.injEq,true_and] at hback
    have hvi : P'.clearPageCache.content page =
        Wal.viewAt P.wal.pageSize (P.shared.rollbackToFrame sp.walMaxFrame sp.walChecksum) P.db
          sp.walMaxFrame page := by
      rw [← hback]
      rfl
    refine hvi.trans ?_
    rw [hlog.wal,hlog.shared,hlog.db,hfr,hpa]
    exact viewAt_rollbackToFrame le_rfl

/-- If a statement with its own savepoint is stopped, every page reads as when it had got its locks. -/
theorem exec_stopped_reads (hrun : s.exec stmt flush commit = some (.stopped error action, s'))
    (hne : stmt.needsStmtSavepoint = true) (hco : s.opTransaction.2.pager.Coherent) :
    s'.pager.content page = s.opTransaction.2.pager.content page := by
  rcases exec_cases hrun nofun with ⟨-,hfi⟩ | ⟨-,s1,hop,hle | ⟨s2,-,hfi⟩,-⟩
  · exact absurd rfl ((finish_failed hfi).2 error action)
  · rw [hne] at hop
    exact stopped_reads (exec_write hrun nofun) hco hop hle
  · exact absurd rfl ((finish_failed hfi).2 error action)

/-- The first row goes in, the second one finds its key taken. -/
def refusedRow : Statement :=
  .insertRows none [[.page (.readPage 2 fun _ => some []), .page (.writePage 2 (replicate 512 7))],
    [.conflict .abort none "t.a"]]

set_option maxRecDepth 8000 in
theorem exec_refusedRow_reads : ∃ error s', exec ⟨firstWriter,.write,false⟩ refusedRow [] [] =
    some (.stopped error .abort, s') ∧ s'.pager.content 2 = firstWriter.content 2 :=
  have hrun := Eq.refl (exec ⟨firstWriter,.write,false⟩ refusedRow [] [])
  ⟨_,_,hrun,exec_stopped_reads hrun rfl (begun_firstWriter.coherent ⟨nofun,fun _ => rfl⟩)⟩

/-- The halt of an INSERT of one row undoes it exactly when there was nothing unflushed. -/
theorem undone_iff_allFlushed (hwr : s.opTransaction.2.transactionState = .write)
    (hlog : SameLog s.opTransaction.2.pager P) :
    Undone s { s.opTransaction.2 with pager := P.clearPageCache } ↔ s.AllFlushed := by
  have hon := opTransaction_only s
  have hre : ∀ page, P.clearPageCache.content page =
      s.opTransaction.2.pager.wal.readPage s.opTransaction.2.pager.shared
        s.opTransaction.2.pager.db page := fun page => hlog.readPage_eq page
  have hco : ∀ page, (commit { s.opTransaction.2 with pager := P.clearPageCache }
      []).pager.newest page = s.opTransaction.2.pager.newest page := by
    intro page
    rw [← hlog.newest_eq]
    unfold commit commitTxn
    rw [hwr]
    rfl
  constructor
  · intro h page
    exact ⟨(hre page).symm.trans (h.reads page),(hco page).symm.trans (h.persists [] (.refl _) page)⟩
  · intro h
    refine ⟨fun page => (hre page).trans (h page).1,fun order hor page => ?_,
      hon.autoCommit,hlog.savepoints.trans hon.savepoints⟩
    cases perm_nil.mp hor
    exact (hco page).trans (h page).2

/-- The action of a stopped statement is the one in effect at some constraint. -/
theorem Left.stopped_own (h : Left stmt s (some (.stopped error action)) s') :
    ∃ own, action = effective stmt.onConflict own := by
  cases h with
  | halted _ _ own | rolledBack _ _ _ own => exact ⟨own,rfl⟩

/-- An INSERT of one row that is stopped has touched pages and lost the cache. -/
theorem Left.insertValues (h : Left (.insertValues onConflict row) s (some (.stopped error action)) s') :
    ∃ P, SameLog s.pager P ∧ s' = { s with pager := P.clearPageCache } := by
  cases h with
  | halted hlog => exact ⟨_,hlog,rfl⟩
  | rolledBack _ _ _ _ hrolls =>
    exact absurd ((insertValues_needsStmtSavepoint row).symm.trans hrolls) nofun

/-- A stopped statement is undone, and an UPDATE of no row does not trip over its own savepoint,
exactly when it is an INSERT of one row with nothing unflushed, and not an UPDATE that jumps over
its savepoint. -/
theorem contained_iff (hrun : s.exec stmt flush commit = some (r, s')) (hbusy : r ≠ .busy) :
    Contained s stmt r s' ↔ Containable s stmt r := by
  rcases exec_cases hrun hbusy with ⟨hsk,hfi⟩ | ⟨hsk,s₁,hop,hre,hempty⟩
  · -- nothing was run: only the release can go wrong
    obtain ⟨hfa,hnot⟩ := finish_failed hfi
    rw [(opTransaction_only s).savepoints] at hfa
    constructor
    · intro h
      refine ⟨fun error he => absurd he (hnot error .abort),fun _ hne hnone => ?_⟩
      have hto : stmt.touchesNoRow = true := by
        cases stmt with
        | insertValues | insertRows => cases hsk
        | update orConflict skipsLoop rows =>
          cases hsk
          rfl
      exact h.noRow hto (hfa.mpr ⟨hne,hnone⟩)
    · intro h
      refine ⟨fun error he => absurd he (hnot error .abort),fun _ he => ?_⟩
      obtain ⟨hne,hnone⟩ := hfa.mp he
      exact h.noRow hsk hne hnone
  · have hun : ∀ error, r = .stopped error .abort →
        (Undone s s' ↔ (∃ onConflict row, stmt = .insertValues onConflict row) ∧ s.AllFlushed) := by
      rintro error rfl
      have hle : Left stmt s₁ (some (.stopped error .abort)) s' := by
        rcases hre with hle | ⟨s₂,-,hfi⟩
        · exact hle
        · exact absurd rfl ((finish_failed hfi).2 error .abort)
      obtain ⟨own,hown⟩ := hle.stopped_own
      rcases needsSavepoint_of_abort hown.symm with ⟨onConflict,row,rfl⟩ | hne
      · rw [insertValues_needsStmtSavepoint] at hop
        cases hop
        obtain ⟨P,hlog,rfl⟩ := hle.insertValues
        rw [undone_iff_allFlushed (exec_write hrun nofun) hlog]
        exact ⟨fun h => ⟨⟨onConflict,row,rfl⟩,h⟩,fun h => h.2⟩
      · rw [hne] at hop
        refine ⟨fun h => absurd h (savepoint_left_open hop hle),?_⟩
        rintro ⟨⟨onConflict,row,rfl⟩,-⟩
        exact absurd ((insertValues_needsStmtSavepoint row).symm.trans hne) nofun
    have hno : stmt.touchesNoRow = true → r ≠ .failed (noSuchSavepoint stmtSavepoint) := by
      intro hto he
      have hro : stmt.rows = [] := by
        cases stmt with
        | insertValues | insertRows => cases hto
        | update orConflict skipsLoop rows =>
          cases hsk
          exact List.isEmpty_iff.mp hto
      obtain ⟨hne,hnone⟩ := (finish_failed (hempty hro)).1.mp he
      rw [hne] at hop
      unfold openStmt at hop
      rw [if_pos rfl] at hop
      split at hop
      · obtain ⟨sp,hna,hsp⟩ := savepointBegin_savepoints (some.inj hop)
        rw [hsp,← hna] at hnone
        exact reaching_last _ hnone
      · cases hop
    constructor
    · intro h
      refine ⟨fun error he => (hun error he).mp (h.undone error he),fun hyes => ?_⟩
      rw [hsk] at hyes
      cases hyes
    · intro h
      exact ⟨fun error he => (hun error he).mpr (h.single error he),hno⟩

end

def opened (autoCommit : Bool) : Session :=
  ⟨firstWriter, .none, autoCommit⟩

/-- An INSERT of one row that finds its key taken, with nothing uncommitted. -/
theorem opened_insert_contained :
    ∃ error s', (opened true).exec (.insertValues none [.conflict .abort none "t.a"]) [] [] =
        some (.stopped error .abort, s') ∧
      Contained (opened true) (.insertValues none [.conflict .abort none "t.a"])
        (.stopped error .abort) s' := by
  obtain ⟨error,s',hrun⟩ : ∃ error s', (opened true).exec
      (.insertValues none [.conflict .abort none "t.a"]) [] [] = some (.stopped error .abort, s') := ⟨_,_,rfl⟩
  have hfl : (opened true).AllFlushed := fun page => ⟨rfl,rfl⟩
  exact ⟨error,s',hrun,(contained_iff hrun nofun).mpr ⟨fun _ _ => ⟨⟨_,_,rfl⟩,hfl⟩,nofun⟩⟩

/-- The first byte page 2 reads as after two statements, if the second is stopped by a
constraint. -/
def pageAfter (s : Session) (first second : Statement) : Option UInt8 :=
  match s.exec first [] [] with
  | some (.done, s) =>
    match s.exec second [] [] with
    | some (.stopped _ .abort, s) => (s.pager.content 2).head?
    | _ => none
  | _ => none

def insertPage2 : Statement :=
  .insertValues none
    [.page (.readPage 2 fun _ => some []), .page (.writePage 2 (List.replicate 512 7))]

/-- In a transaction the second INSERT takes the row of the first along, in autocommit mode a
stopped INSERT of several rows leaves its savepoint open and autocommit off, and an UPDATE with a
constant false WHERE fails. -/
theorem opened_statements_not_contained :
    pageAfter (opened false) insertPage2 (.insertValues none [.conflict .abort none "t.a"]) = some 0 ∧
    (∃ error s', (opened true).exec (.insertRows none [[.conflict .abort none "t.a"]]) [] [] =
        some (.stopped error .abort, s') ∧ s'.autoCommit = false ∧
        s'.pager.savepoints.map SavepointFrame.name = [stmtSavepoint] ∧
        ¬ Contained (opened true) (.insertRows none [[.conflict .abort none "t.a"]])
          (.stopped error .abort) s') ∧
    ∃ s', (opened true).exec (.update none true []) [] [] = some (.failed (noSuchSavepoint stmtSavepoint), s') ∧
      ¬ Contained (opened true) (.update none true []) (.failed (noSuchSavepoint stmtSavepoint)) s' := by
  refine ⟨by decide +kernel,⟨_,_,rfl,rfl,rfl,fun h => ?_⟩,_,rfl,fun h => h.noRow rfl rfl⟩
  have hau := (h.undone _ rfl).autoCommit
  cases hau

end OxiSql.Vdbe
