import OxiSql.Lib.Nested
import OxiSql.Lib.Runs
import OxiSql.Storage.Coherence

namespace OxiSql.Storage
open Lib Wal List Pager Nested

namespace Pager

/-- What flushing the dirty pages into the log leaves. -/
structure Flushed (P F : Pager) : Prop where
  coherent : Coherent F
  clean : F.dirtyPages = []
  savepoints : F.savepoints = P.savepoints
  header : F.header = P.header
  pageSize : F.wal.pageSize = P.wal.pageSize
  start : F.wal.txnStartMaxFrame = P.wal.txnStartMaxFrame
  grows : P.shared.maxFrame ≤ F.shared.maxFrame
  content : ∀ p, F.content p = P.content p
  viewAt : ∀ m p, m ≤ P.shared.maxFrame → F.viewAt m p = P.viewAt m p
  boundary : F = P ∨ F.wal.maxFrame = F.shared.maxFrame

/-- The frames a flush appends: each dirty page once, as it is cached. -/
theorem Coherent.flush_pages (h : Coherent P) {order : List Nat} (ho : order.Perm P.dirtyPages)
    (hp : pages = order.filterMap fun page => (P.cache page).map fun content => (page,content)) :
    (pages.map Prod.fst).Nodup ∧ ∀ page content, (page,content) ∈ pages ↔
        page ∈ P.dirtyPages ∧ P.cache page = some content := by
  have hmem : ∀ page content, (page, content) ∈ pages ↔ page ∈ P.dirtyPages ∧ P.cache page = some content := by
    intro page content
    simp only [hp,mem_filterMap,Option.map_eq_some_iff,Prod.mk.injEq]
    constructor
    · rintro ⟨q,hq,c,hc,rfl,rfl⟩
      exact ⟨ho.mem_iff.mp hq,hc⟩
    · rintro ⟨hd,hc⟩
      exact ⟨page,ho.mem_iff.mpr hd,content,hc,rfl,rfl⟩
  refine ⟨?_,hmem⟩
  have hfst : pages.map Prod.fst = order := by
    rw [hp,map_filterMap]
    refine filterMap_eq_map_iff_forall_eq_some.mpr ?_ |>.trans (map_id order)
    intro page hm
    obtain ⟨c,hc⟩ := Option.isSome_iff_exists.mp (h.dirty page (ho.mem_iff.mp hm))
    simp [hc]
  rw [hfst]
  exact ho.nodup_iff.mpr h.nodup

theorem Coherent.flush (h : Coherent P) (ho : order.Perm P.dirtyPages) :
    Flushed P (P.flushDirtyPagesToWal order) := by
  unfold flushDirtyPagesToWal
  split
  · rename_i hd
    exact ⟨h,by simpa using hd,rfl,rfl,rfl,rfl,le_rfl,fun _ => rfl,fun _ _ _ => rfl,.inl rfl⟩
  generalize hp : (order.filterMap fun page =>
    (P.cache page).map fun content => (page, content)) = pages
  obtain ⟨hno,hmem⟩ := h.flush_pages ho hp.symm
  have hlen : ∀ page ∈ pages, page.2.length = P.wal.pageSize :=
    fun page hm => h.cached page.1 page.2 ((hmem page.1 page.2).mp hm).2
  have hnew : ∀ page content, P.cache page = some content →
      Wal.viewAt P.wal.pageSize (P.wal.appendAll P.header.databaseSize P.shared pages) P.db
        (P.wal.appendAll P.header.databaseSize P.shared pages).maxFrame page = content := by
    intro page content hc
    by_cases hd : page ∈ P.dirtyPages
    · exact viewAt_appendAll_mem h.log rfl hlen hno ((hmem page content).mpr ⟨hd,hc⟩)
    · have hot : ∀ q ∈ pages, q.1 ≠ page :=
        fun q hq he => hd (he ▸ ((hmem q.1 q.2).mp hq).1)
      exact (viewAt_appendAll_other h.log rfl hlen hot).trans (h.clean page content hc hd).symm
  refine ⟨⟨h.log.appendAll,h.pageSize,h.dbPages,h.cached,nodup_nil,by simp,?_,
    fun _ => rfl⟩,rfl,rfl,rfl,rfl,rfl,?_,?_,?_,.inr rfl⟩
  · intro page content hc _
    exact (hnew page content hc).symm
  · rw [appendAll_maxFrame]
    exact Nat.le_add_right _ _
  · intro p
    unfold content
    simp only
    split
    · rfl
    · rename_i hc
      have hd : p ∉ P.dirtyPages := fun hd => by simpa [hc] using h.dirty p hd
      have hot : ∀ q ∈ pages, q.1 ≠ p :=
        fun q hq he => hd (he ▸ ((hmem q.1 q.2).mp hq).1)
      rw [h.boundary p]
      exact viewAt_appendAll_other h.log rfl hlen hot
  · intro m p hm
    exact viewAt_appendAll_old h.log rfl hm

/-- A pager inside a write transaction: every savepoint lies between the start of the
transaction and the end of the log, younger ones not before older ones. -/
structure Live (P : Pager) : Prop where
  coherent : Coherent P
  start : P.wal.txnStartMaxFrame ≤ P.shared.maxFrame
  bounds : ∀ sp ∈ P.savepoints,
    P.wal.txnStartMaxFrame ≤ sp.walMaxFrame ∧ sp.walMaxFrame ≤ P.shared.maxFrame
  ordered : P.savepoints.Pairwise fun older younger => older.walMaxFrame ≤ younger.walMaxFrame
  reader : P.wal.txnStartMaxFrame ≤ P.wal.maxFrame ∨
    ∀ p, P.viewAt P.wal.maxFrame p = P.viewAt P.wal.txnStartMaxFrame p

variable (h : Live P)
include h

theorem Live.touches (ht : Touches P P') : Live P' where
  coherent := ht.coherent
  start := by
    rw [ht.wal,ht.shared]
    exact h.start
  bounds := by
    rw [ht.savepoints,ht.wal,ht.shared]
    exact h.bounds
  ordered := by
    rw [ht.savepoints]
    exact h.ordered
  reader := by
    simp only [ht.viewAt,ht.wal]
    exact h.reader

theorem Live.openSavepoint (ho : order.Perm P.dirtyPages) (name : String) (isTxnOwner : Bool) :
    Live (P.openSavepoint name isTxnOwner order) := by
  have hf := h.coherent.flush ho
  have hc := hf.coherent
  have hgr := hf.grows
  have hst : (P.flushDirtyPagesToWal order).wal.txnStartMaxFrame ≤
      (P.flushDirtyPagesToWal order).shared.maxFrame := by
    rw [hf.start]
    exact h.start.trans hgr
  have hold : ∀ sp ∈ P.savepoints, sp.walMaxFrame ≤ (P.flushDirtyPagesToWal order).shared.maxFrame :=
    fun sp hm => (h.bounds sp hm).2.trans hgr
  refine ⟨⟨hc.log,hc.pageSize,hc.dbPages,hc.cached,hc.nodup,hc.dirty,hc.clean,hc.boundary⟩, hst,?_,?_,?_⟩
  · intro sp hm
    simp only [Pager.openSavepoint,hf.savepoints,mem_append,mem_singleton] at hm
    rcases hm with hm | rfl
    · refine ⟨?_,hold sp hm⟩
      exact hf.start.le.trans (h.bounds sp hm).1
    · exact ⟨hst,le_rfl⟩
  · simp only [Pager.openSavepoint,hf.savepoints]
    refine pairwise_append.mpr ⟨h.ordered,pairwise_singleton _ _,?_⟩
    intro older hm younger hy
    rw [mem_singleton.mp hy]
    exact hold older hm
  · rcases hf.boundary with he | he
    · simp only [Pager.openSavepoint,he]
      exact h.reader
    · exact .inl (hst.trans he.ge)

omit h in
/-- Going back to a frame leaves a coherent pager with the pages of that frame, if the reader
boundary is not before it or nothing changed in between. -/
theorem Coherent.rewound (h : Coherent P) {target : Nat} {sum : Checksum} {w : WalFile}
    (hm : target ≤ w.maxFrame ∨ ∀ p, P.viewAt w.maxFrame p = P.viewAt target p)
    (hs : P'.shared = P.shared.rollbackToFrame target sum) (hd : P'.db = P.db) (hw : P'.wal = w)
    (hps : w.pageSize = P.wal.pageSize) (hca : ∀ page, P'.cache page = none) (hdi : P'.dirtyPages = []) :
    Coherent P' ∧ (∀ p, P'.content p = P.viewAt target p) ∧
      ∀ m p, m ≤ target → P'.viewAt m p = P.viewAt m p := by
  have hlog : P'.shared.LogWf := hs ▸ h.log.rollbackToFrame target sum
  have hmax : P'.shared.maxFrame = target := by rw [hs]; rfl
  have hvi : ∀ m p, m ≤ target → P'.viewAt m p = P.viewAt m p := by
    intro m p hle
    simp only [viewAt,hw,hps,hd,hs]
    exact viewAt_rollbackToFrame hle
  have hbo : ∀ p, P'.wal.readPage P'.shared P'.db p = P'.newest p := by
    intro p
    rw [readPage_eq,newest,hmax]
    rcases Nat.le_total target w.maxFrame with hle | hle
    · have hre : P'.shared.maxFrame ≤ P'.wal.maxFrame := by
        rw [hmax,hw]
        exact hle
      rw [viewAt_beyond hlog hre,hmax]
      rfl
    · have heq : P.viewAt w.maxFrame p = P.viewAt target p := by
        rcases hm with hm | hm
        · rw [Nat.le_antisymm hle hm]
        · exact hm p
      rw [← hvi w.maxFrame p hle,← hvi target p le_rfl,← hw] at heq
      exact heq
  refine ⟨⟨hlog,by rw [hw,hps]; exact h.pageSize,?_,?_,by simp [hdi],by simp [hdi],?_,hbo⟩,?_,hvi⟩
  · intro page
    rw [hd,hw,hps]
    exact h.dbPages page
  · intro page content hc
    simp [hca] at hc
  · intro page content hc
    simp [hca] at hc
  · intro p
    have hrea : P'.content p = P'.newest p := by
      rw [← hbo p]
      simp [content,hca]
    rw [hrea,newest,hmax]
    exact hvi target p le_rfl

def rewindTo (P : Pager) (idx : Nat) (sp : SavepointFrame) : Pager :=
  { P.clearPageCache with
    savepoints := P.savepoints.take (idx + 1)
    shared := P.shared.rollbackToFrame sp.walMaxFrame sp.walChecksum
    wal := P.wal.setReaderMaxFrame sp.walMaxFrame }

theorem Live.le_of_mem_take (hsp : P.savepoints[idx]? = some sp)
    (hm : sp' ∈ P.savepoints.take (idx + 1)) : sp'.walMaxFrame ≤ sp.walMaxFrame := by
  obtain ⟨hlt,hget⟩ := List.getElem?_eq_some_iff.mp hsp
  obtain ⟨j,hj,rfl⟩ := mem_iff_getElem.mp hm
  rw [length_take] at hj
  rw [getElem_take]
  rcases Nat.lt_or_ge j idx with hji | hji
  · rw [← hget]
    exact pairwise_iff_getElem.mp h.ordered j idx (by omega) hlt hji
  · obtain rfl : j = idx := by omega
    rw [hget]

theorem Live.rewindTo (hsp : P.savepoints[idx]? = some sp) :
    Live (P.rewindTo idx sp) ∧ (∀ p, (P.rewindTo idx sp).content p = P.viewAt sp.walMaxFrame p) ∧
      ∀ m p, m ≤ sp.walMaxFrame → (P.rewindTo idx sp).viewAt m p = P.viewAt m p := by
  obtain ⟨hlo,hhi⟩ := h.bounds sp (mem_of_getElem? hsp)
  have hm : sp.walMaxFrame ≤ (P.wal.setReaderMaxFrame sp.walMaxFrame).maxFrame := le_rfl
  have hr : Coherent (P.rewindTo idx sp) ∧ _ :=
    h.coherent.rewound (.inl hm) rfl rfl rfl rfl (fun _ => rfl) rfl
  refine ⟨⟨hr.1,hlo,?_,h.ordered.sublist (take_sublist ..),.inl hlo⟩,hr.2⟩
  intro sp' hm
  exact ⟨(h.bounds sp' (mem_of_mem_take hm)).1,h.le_of_mem_take hsp hm⟩

theorem Live.releaseTo : Live { P with savepoints := P.savepoints.take idx } where
  coherent := ⟨h.coherent.log,h.coherent.pageSize,h.coherent.dbPages,h.coherent.cached,
    h.coherent.nodup,h.coherent.dirty,h.coherent.clean,h.coherent.boundary⟩
  start := h.start
  bounds := fun sp hm => h.bounds sp (mem_of_mem_take hm)
  ordered := h.ordered.sublist (take_sublist ..)
  reader := h.reader

/-- Rolling back gives the pages of the start of the transaction, although the reader boundary
stays where it was. -/
theorem Live.rollback : Live P.rollback ∧ (∀ p, P.rollback.content p = P.viewAt P.wal.txnStartMaxFrame p) ∧
      ∀ m p, m ≤ P.wal.txnStartMaxFrame → P.rollback.viewAt m p = P.viewAt m p := by
  have hr : Coherent P.rollback ∧ _ :=
    h.coherent.rewound h.reader rfl rfl rfl rfl (fun _ => rfl) rfl
  obtain ⟨hc,hco,hvi⟩ := hr
  refine ⟨⟨hc,le_rfl,?_,List.Pairwise.nil,?_⟩,hco,hvi⟩
  · intro sp hm
    cases hm
  · rcases Nat.le_total P.wal.txnStartMaxFrame P.wal.maxFrame with hle | hle
    · exact .inl hle
    · refine h.reader.imp id fun heq p => ?_
      exact (hvi P.wal.maxFrame p hle).trans ((heq p).trans (hvi _ p le_rfl).symm)

end Pager

def SavepointFrame.mark (sp : SavepointFrame) : String × Bool :=
  (sp.name, sp.isTransactionOwner)

def named (name : String) (mark : String × Bool) : Bool :=
  eqIgnoreAsciiCase mark.1 name

/-- The page contents with the restore points the savepoints stand for. -/
abbrev Shadow := Nested (String × Bool) (Nat → PageBytes)

namespace Pager

/-- What a call is meant to do to the page contents. Allocations, frees and header writes make
several page writes; their result is taken as it is. -/
def shadowOp (N : Shadow) (P' : Pager) : Op → Shadow
  | .readPage .. | .evict .. => N
  | .writePage page content => N.set (Function.update N.current page content)
  | .allocatePage .. | .freePage .. | .setCookie .. => N.set P'.content
  | .openSavepoint name isTxnOwner _ => N.mark (name, isTxnOwner)
  | .rollbackToSavepoint name => N.rewind (named name)
  | .releaseSavepoint name => N.release (named name)
  | .rollback => N.reset

def shadowStep (X : Pager × Shadow) (op : Op) : Option (Pager × Shadow) :=
  (X.1.step op).map fun P' => (P', shadowOp X.2 P' op)

/-- Every page reads as the shadow says, the same savepoints are open, and both calls answer
from the innermost savepoint of the name. -/
structure Faithful (X : Pager × Shadow) : Prop where
  reads : X.1.content = X.2.current
  savepoints : X.1.savepoints.reverse.map SavepointFrame.mark = X.2.points.map Prod.fst
  rollbackTo : ∀ name, (X.1.rollbackToSavepoint name).1 =
    match X.2.find (named name) with
    | some _ => .ok ()
    | none => .error (noSuchSavepoint name)
  release : ∀ name, (X.1.releaseSavepoint name).1 =
    match X.2.find (named name) with
    | some mark => .ok mark.2
    | none => .error (noSuchSavepoint name)

/-- The shadow holds the views of the log the savepoints go back to. -/
structure Tracks (P : Pager) (N : Shadow) : Prop where
  live : Live P
  current : P.content = N.current
  base : P.viewAt P.wal.txnStartMaxFrame = N.base
  points : N.points = P.savepoints.reverse.map fun sp => (sp.mark, P.viewAt sp.walMaxFrame)

section

variable (h : Tracks P N)
include h

/-- Searching the shadow is searching the savepoints. -/
theorem Tracks.reaching (name : String) : N.reaching (named name) =
      (Storage.reaching P.savepoints name).map fun sp => (sp.mark,P.viewAt sp.walMaxFrame) := by
  rw [Nested.reaching,h.points,dropWhile_map]
  rfl

theorem Tracks.faithful : Faithful (P,N) where
  reads := h.current
  savepoints := by
    simp [h.points]
  rollbackTo := by
    intro name
    simp only [find,h.reaching name,rollbackToSavepoint]
    rcases savepoint_cases P.savepoints name with ⟨hr,ht,-⟩ | ⟨idx,sp,-,hr,ht,-⟩
    · simp [hr,ht]
    · simp [hr,ht]
  release := by
    intro name
    simp only [find,h.reaching name,releaseSavepoint]
    rcases savepoint_cases P.savepoints name with ⟨hr,-,ht⟩ | ⟨idx,sp,-,hr,-,ht⟩
    · simp [hr,ht]
    · simp [hr,ht,SavepointFrame.mark]

/-- A call that leaves the log alone leaves the restore points alone. -/
theorem Tracks.touches (ht : Touches P P') (hx : P'.content = x) : Tracks P' (N.set x) where
  live := h.live.touches ht
  current := hx
  base := by
    rw [ht.wal]
    exact (funext fun p => ht.viewAt _ p).trans h.base
  points := by
    rw [ht.savepoints]
    refine h.points.trans (map_congr_left fun sp _ => ?_)
    exact Prod.ext rfl (funext fun p => (ht.viewAt _ p).symm)

theorem Tracks.reads (ht : Touches P P') (hx : ∀ p, P'.content p = P.content p) : Tracks P' N :=
  h.touches ht ((funext hx).trans h.current)

theorem Tracks.openSavepoint (ho : order.Perm P.dirtyPages) (name : String) (isTxnOwner : Bool) :
    Tracks (P.openSavepoint name isTxnOwner order) (N.mark (name,isTxnOwner)) := by
  have hf := h.live.coherent.flush ho
  have hco : (P.openSavepoint name isTxnOwner order).content = N.current :=
    (funext hf.content).trans h.current
  refine ⟨h.live.openSavepoint ho name isTxnOwner,hco,?_,?_⟩
  · refine Eq.trans (funext fun p => ?_) h.base
    have hv := hf.viewAt P.wal.txnStartMaxFrame p h.live.start
    rw [← hf.start] at hv
    exact hv.trans (by rw [hf.start])
  · -- The new point is the end of the log, where every page is as it reads now.
    have hnew : (P.flushDirtyPagesToWal order).viewAt
        (P.flushDirtyPagesToWal order).shared.maxFrame = N.current := by
      rw [← hco]
      funext p
      exact (hf.coherent.content_clean (by simp [hf.clean])).symm
    have hold : ∀ sp ∈ P.savepoints.reverse, (P.flushDirtyPagesToWal order).viewAt sp.walMaxFrame =
        P.viewAt sp.walMaxFrame := by
      intro sp hm
      funext p
      exact hf.viewAt _ p (h.live.bounds sp (mem_reverse.mp hm)).2
    simp only [Pager.openSavepoint,hf.savepoints,reverse_append]
    refine congrArg₂ List.cons (Prod.ext rfl hnew.symm) ?_
    refine h.points.trans (map_congr_left fun sp hm => ?_)
    exact Prod.ext rfl (hold sp hm).symm

theorem Tracks.rollbackToSavepoint (name : String) :
    Tracks (P.rollbackToSavepoint name).2 (N.rewind (named name)) := by
  have hre := h.reaching name
  rcases savepoint_cases P.savepoints name with ⟨hr,ht,-⟩ | ⟨idx,sp,hsp,hr,ht,-⟩
  · rw [hr] at hre
    simpa [Pager.rollbackToSavepoint,ht,Nested.rewind,hre] using h
  · rw [hr] at hre
    obtain ⟨hli,hco,hvi⟩ := h.live.rewindTo hsp
    have hlo := (h.live.bounds sp (mem_of_getElem? hsp)).1
    have hst : (P.rollbackToSavepoint name).2 = P.rewindTo idx sp := by
      simp [Pager.rollbackToSavepoint,ht,Pager.rewindTo]
    have hsh : N.rewind (named name) = { N with
        current := P.viewAt sp.walMaxFrame
        points := (P.savepoints.take (idx + 1)).reverse.map
          fun sp => (sp.mark, P.viewAt sp.walMaxFrame) } := by
      have hta : (P.savepoints.take (idx + 1)).reverse = sp :: (P.savepoints.take idx).reverse := by
        rw [take_add_one,hsp]
        simp
      rw [hta]
      simp [Nested.rewind,hre]
    rw [hst,hsh]
    refine ⟨hli,funext hco,?_,?_⟩
    · exact (funext fun p => hvi _ p hlo).trans h.base
    · refine map_congr_left fun sp' hm => ?_
      have hle := h.live.le_of_mem_take hsp (mem_reverse.mp hm)
      exact Prod.ext rfl (funext fun p => (hvi _ p hle).symm)

theorem Tracks.releaseSavepoint (name : String) :
    Tracks (P.releaseSavepoint name).2 (N.release (named name)) := by
  have hre := h.reaching name
  rcases savepoint_cases P.savepoints name with ⟨hr,-,ht⟩ | ⟨idx,sp,hsp,hr,-,ht⟩
  · rw [hr] at hre
    simpa [Pager.releaseSavepoint,ht,release,hre] using h
  · rw [hr] at hre
    have hst : (P.releaseSavepoint name).2 = { P with savepoints := P.savepoints.take idx } := by
      simp [Pager.releaseSavepoint,ht]
    rw [hst]
    simp only [release,hre]
    exact ⟨h.live.releaseTo,h.current,h.base,rfl⟩

theorem Tracks.rollback : Tracks P.rollback N.reset := by
  obtain ⟨hli,hco,hvi⟩ := h.live.rollback
  refine ⟨hli,(funext hco).trans h.base,?_,rfl⟩
  exact (funext fun p => hvi _ p le_rfl).trans h.base

/-- Every call does to the pages what its shadow says. -/
theorem Tracks.step (hs : P.step op = some P') : Tracks P' (shadowOp N P' op) := by
  have hc := h.live.coherent
  cases op with
  | readPage page room =>
    cases hs
    exact h.reads (hc.readPage page room) (content_readPage hc page room)
  | evict pages =>
    cases hs
    exact h.reads (hc.evict pages) (content_evict hc)
  | writePage page content =>
    simp only [Pager.step] at hs
    split at hs
    · cases hs
    · split at hs
      · rename_i hok
        cases hs
        refine h.touches (hc.modify page hok.1) (funext fun p => ?_)
        rw [content_modify,Function.update_apply,h.current]
      · cases hs
  | allocatePage ptrmap buffer room =>
    simp only [Pager.step] at hs
    split at hs
    · rename_i hok
      cases hs
      exact h.touches (hc.allocatePage room hok.1 hok.2) rfl
    · cases hs
  | freePage page room =>
    cases hs
    exact h.touches (hc.freePage page room) rfl
  | setCookie cookie value room =>
    cases hs
    exact h.touches (hc.setCookie cookie value room) rfl
  | openSavepoint name isTxnOwner order =>
    simp only [Pager.step] at hs
    split at hs
    · rename_i ho
      cases hs
      exact h.openSavepoint ho name isTxnOwner
    · cases hs
  | rollbackToSavepoint name =>
    cases hs
    exact h.rollbackToSavepoint name
  | releaseSavepoint name =>
    cases hs
    exact h.releaseSavepoint name
  | rollback =>
    cases hs
    exact h.rollback

end

/-- A write transaction has just begun. -/
structure Begun (P : Pager) : Prop where
  log : P.shared.LogWf
  pageSize : databaseHeaderSize ≤ P.wal.pageSize
  dbPages : ∀ page, (P.db page).length = P.wal.pageSize
  cached : ∀ page content, P.cache page = some content → content.length = P.wal.pageSize
  dirty : P.dirtyPages = []
  savepoints : P.savepoints = []
  start : P.wal.txnStartMaxFrame = P.shared.maxFrame

/-- The connection reads the newest version of every page, cached or not. -/
def Current (P : Pager) : Prop :=
  (∀ page content, P.cache page = some content → content = P.newest page) ∧
    ∀ page, P.wal.readPage P.shared P.db page = P.newest page

theorem Begun.coherent (h : Begun P) (hc : Current P) : Coherent P :=
  ⟨h.log,h.pageSize,h.dbPages,h.cached,by simp [h.dirty],by simp [h.dirty],
    fun page content he _ => hc.1 page content he,hc.2⟩

theorem Begun.live (h : Begun P) (hc : Current P) : Live P where
  coherent := h.coherent hc
  start := h.start.le
  bounds := by simp [h.savepoints]
  ordered := by simp [h.savepoints]
  reader := by
    rw [h.start]
    exact .inr hc.2

theorem Begun.tracks (h : Begun P) (hc : Current P) : Tracks P (.start P.content) := by
  refine ⟨h.live hc,rfl,?_,by simp [h.savepoints,Nested.start]⟩
  rw [h.start]
  funext p
  exact ((h.coherent hc).content_clean (by simp [h.dirty])).symm

def openAndBack : List Op :=
  [.openSavepoint "s" false [], .rollbackToSavepoint "s"]

theorem Begun.openAndBack_content (h : Begun P) :
    ∃ X, run shadowStep (P,.start P.content) openAndBack = some X ∧
      X.2.current = P.content ∧ ∀ p, X.1.content p = P.newest p := by
  have hfl : P.flushDirtyPagesToWal [] = P := by simp [flushDirtyPagesToWal,h.dirty]
  have hna : eqIgnoreAsciiCase "s" "s" = true := by decide
  let sp : SavepointFrame := ⟨"s",P.shared.maxFrame,P.shared.lastChecksum,false⟩
  let S : Pager := { P with savepoints := [sp] }
  have hop : P.step (.openSavepoint "s" false []) = some S := by
    simp [S,sp,step,h.dirty,openSavepoint,hfl,h.savepoints,WalFileShared.currentFrameState]
  have hback : S.step (.rollbackToSavepoint "s") = some (S.rewindTo 0 sp) := by
    simp [S,sp,step,rollbackToSavepoint,savepointTarget,findSavepoint,rposition, hna,rewindTo]
  refine ⟨(S.rewindTo 0 sp, ((Nested.start P.content).mark ("s", false)).rewind (named "s")),?_,?_,?_⟩
  · simp [openAndBack,run,shadowStep,hop,hback,shadowOp]
  · simp [Nested.start,Nested.mark,Nested.rewind,Nested.reaching,named,hna]
  · intro p
    exact viewAt_rollbackToFrame le_rfl

/-- Inside a write transaction savepoints do what they should in every run exactly when the
transaction began with the connection reading the newest version of every page. -/
theorem savepoints_faithful_iff (h : Begun P) :
    (∀ ops X, run shadowStep (P, .start P.content) ops = some X → Faithful X) ↔ Current P := by
  constructor
  · intro hall
    have hne : ∀ p, P.content p = P.newest p := by
      obtain ⟨X,hrun,hcu,hco⟩ := h.openAndBack_content
      have hre := (hall openAndBack X hrun).reads
      intro p
      rw [← hco p,hre,hcu]
    refine ⟨fun page content hc => ?_,fun page => ?_⟩
    · rw [← hne page,content_of_cached hc]
    · -- Once the page is evicted it is read past the cache.
      have hre := (hall [.evict [page]] (P.evict [page], .start P.content) rfl).reads
      have hp := congrFun hre page
      simp only [Nested.start,hne page] at hp
      rw [← hp]
      simp [content,evict,h.dirty]
  · intro hc ops X hrun
    have hinv : Tracks X.1 X.2 := by
      refine run_invariant_of_step (I := fun X : Pager × Shadow => Tracks X.1 X.2) ?_ (h.tracks hc) hrun
      intro X op X' hX hst
      simp only [shadowStep,Option.map_eq_some_iff] at hst
      obtain ⟨P',hP',rfl⟩ := hst
      exact hX.step hP'
    exact hinv.faithful

def overLog (wal : WalFile) (shared : WalFileShared) : Pager :=
  { wal := wal
    shared := shared
    db := fun _ => List.replicate 512 0
    header := .default
    cache := fun _ => none
    dirtyPages := []
    savepoints := []
    autoVacuumMode := .none }

def firstWriter : Pager :=
  overLog (.new 512) (.openFresh .empty 512 1 2)

theorem begun_firstWriter : Begun firstWriter where
  log := ⟨fun _ => List.Pairwise.nil,nofun,nofun,fun _ => ⟨nofun,nofun⟩⟩
  pageSize := show databaseHeaderSize ≤ 512 by decide
  dbPages := fun _ => length_replicate
  cached := nofun
  dirty := rfl
  savepoints := rfl
  start := rfl

theorem firstWriter_savepoints_faithful : Begun firstWriter ∧ ∀ ops X,
      run shadowStep (firstWriter, .start firstWriter.content) ops = some X → Faithful X :=
  ⟨begun_firstWriter,(savepoints_faithful_iff begun_firstWriter).mpr ⟨nofun,fun _ => rfl⟩⟩

/-- A connection that began to read, then another committed page 2, and now the first one
begins to write. -/
def staleWriter : Pager :=
  let reader := (WalFile.new 512).beginReadTx (.openFresh .empty 512 1 2)
  let other := (WalFile.new 512).beginReadTx reader.2.2
  let writer := other.2.1.beginWriteTx other.2.2
  let written := writer.2.1.appendFrame writer.2.2 2 (List.replicate 512 7) 2
  let committed := writer.2.1.endReadTx (writer.2.1.endWriteTx written)
  let upgraded := reader.2.1.beginWriteTx committed
  overLog upgraded.2.1 upgraded.2.2

/-- Going back to a savepoint shows it the other connection's version of page 2. -/
theorem stale_writer_breaks_savepoint :
    ∃ X, run shadowStep (staleWriter, .start staleWriter.content) openAndBack = some X ∧ ¬ Faithful X := by
  have hch : (run shadowStep (staleWriter, .start staleWriter.content) openAndBack).any
      (fun X => (X.1.content 2).head? != (X.2.current 2).head?) = true := by
    decide +kernel
  obtain ⟨X,hrun,hX⟩ := exists_of_run_any hch
  refine ⟨X,hrun,fun hf => ?_⟩
  simp [hf.reads] at hX

end Pager

end OxiSql.Storage
