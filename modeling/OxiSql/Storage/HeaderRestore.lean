import OxiSql.Storage.SavepointSemantics

namespace OxiSql.Storage
open Lib Wal DatabaseHeader

namespace Pager
variable {P : Pager}

/-- The header as it was when the transaction began and when each savepoint was opened. -/
abbrev HeaderShadow := Nested (String × Bool) DatabaseHeader

def headerOp (N : HeaderShadow) (P' : Pager) : Op → HeaderShadow
  | .openSavepoint name isTxnOwner _ => N.mark (name, isTxnOwner)
  | .rollbackToSavepoint name => N.rewind (named name)
  | .releaseSavepoint name => N.release (named name)
  | .rollback => N.reset
  | _ => N.set P'.header

def headerStep (X : Pager × HeaderShadow) (op : Op) : Option (Pager × HeaderShadow) :=
  (X.1.step op).map fun P' => (P', headerOp X.2 P' op)

def HeaderIs (P : Pager) (h : DatabaseHeader) : Prop :=
  P.header = h ∧ headerOf (P.content databaseHeaderPageId) = h

/-- A rollback from here brings the header back, in memory and in page 1. -/
structure RestoresHeader (X : Pager × HeaderShadow) : Prop where
  rollback : HeaderIs X.1.rollback X.2.base
  rollbackTo : ∀ name P', X.1.rollbackToSavepoint name = (.ok (), P') →
    HeaderIs P' (X.2.rewind (named name)).current

def CacheRefuses (P : Pager) (ptrmap buffer : PageBytes) (room : Room) : Prop :=
  let candidate := P.header.databaseSize + 1
  if P.autoVacuumMode = .full ∧ isPtrmapPage candidate P.header.getPageSize then
    ∀ P₁ P₂, P.insertNew candidate.toNat ptrmap room = .ok P₁ →
      P₁.insertNew (candidate + 1).toNat buffer room ≠ .ok P₂
  else ∀ P₁, P.insertNew candidate.toNat buffer room ≠ .ok P₁

def FreeRefused (P : Pager) (page : Nat) (room : Room) : Prop :=
  page < 2 ∨ P.header.databaseSize.toNat < page ∨ P.cache page = none ∧ room page = none

def HeaderSafe (P : Pager) : Op → Prop
  | .allocatePage ptrmap buffer room =>
    ptrmap.length = P.wal.pageSize ∧ buffer.length = P.wal.pageSize →
      P.CacheRefuses ptrmap buffer room
  | .freePage page room => P.FreeRefused page room
  | .setCookie cookie value _ => ∀ h, P.header.setCookie value cookie = .ok h → h = P.header
  | _ => True

@[simp] theorem header_writeDatabaseHeader (P : Pager) (room : Room) :
    (P.writeDatabaseHeader room).2.header = P.header := by
  have hh := header_readPage P databaseHeaderPageId room
  unfold writeDatabaseHeader
  rcases hr : P.readPage databaseHeaderPageId room with ⟨r,P1⟩
  rw [hr] at hh
  cases r with
  | error e | ok content => exact hh

theorem header_growTo : (P.growTo size room).2.header = { P.header with databaseSize := size } := by
  have hh := header_writeDatabaseHeader
    { P with header := { P.header with databaseSize := size } } room
  unfold growTo
  rcases hr : writeDatabaseHeader { P with header := _ } room with ⟨r,P1⟩
  rw [hr] at hh
  cases r with
  | error e | ok _ => exact hh

theorem add_one_ne (x : UInt32) : x + 1 ≠ x := by
  intro h
  have := congrArg UInt32.toNat h
  simp only [UInt32.toNat_add,UInt32.toNat_one] at this
  omega

theorem add_two_ne (x : UInt32) : x + 1 + 1 ≠ x := by
  intro h
  have := congrArg UInt32.toNat h
  simp only [UInt32.toNat_add,UInt32.toNat_one] at this
  omega

theorem header_allocatePage (hh : (P.allocatePage ptrmap buffer room).2.header = P.header) :
    P.CacheRefuses ptrmap buffer room := by
  unfold allocatePage at hh
  unfold CacheRefuses
  simp only at hh ⊢
  split at hh
  · rename_i hmap
    rw [if_pos hmap]
    intro P1 P2 h1 h2
    simp only [h1,h2,header_growTo] at hh
    exact add_two_ne _ (congrArg databaseSize hh)
  · rename_i hmap
    rw [if_neg hmap]
    intro P1 h1
    simp only [h1,header_growTo] at hh
    exact add_one_ne _ (congrArg databaseSize hh)

theorem freelistPages_linkFreePage (content : PageBytes) :
    (P.linkFreePage page content room).2.header.freelistPages = P.header.freelistPages := by
  unfold linkFreePage
  simp only
  split
  · rfl
  have hh := header_readPage P P.header.freelistTrunkPage.toNat room
  rcases hr : P.readPage P.header.freelistTrunkPage.toNat room with ⟨r,P1⟩
  rw [hr] at hh
  cases r with
  | error e => exact congrArg _ hh
  | ok entries =>
    simp only
    split
    · exact congrArg _ hh
    · have hsa : P1.header = P.header := hh
      simp [makeTrunk,hsa]

theorem header_freePage (hh : (P.freePage page room).2.header = P.header) : P.FreeRefused page room := by
  unfold freePage at hh
  split at hh
  · rename_i hp
    exact hp.imp_right .inl
  refine .inr (.inr ?_)
  rcases readPage_cases with ⟨c,-,he⟩ | ⟨hc,hr,-⟩ | ⟨victims,-,-,he⟩
  · rw [he] at hh
    have := (congrArg freelistPages hh).symm.trans (freelistPages_linkFreePage ..)
    exact absurd this.symm (add_one_ne _)
  · exact ⟨hc,hr⟩
  · rw [he] at hh
    have := (congrArg freelistPages hh).symm.trans (freelistPages_linkFreePage ..)
    exact absurd this.symm (add_one_ne _)

theorem headerSafe_of_header (hs : ∀ P' ∈ P.step op, P'.header = P.header) : HeaderSafe P op := by
  cases op with
  | allocatePage ptrmap buffer room =>
    intro hok
    exact header_allocatePage (hs _ (by simp [step,hok]))
  | freePage page room => exact header_freePage (hs _ rfl)
  | setCookie cookie value room =>
    intro h he
    have hh := hs _ rfl
    simpa [setCookie,he] using hh
  | _ => trivial

theorem HeaderIs.cacheSize (hh : HeaderIs P h) : h.defaultPageCacheSize ≠ 0 := by
  rw [← hh.2]
  exact headerOf_cacheSize

theorem HeaderIs.writeDatabaseHeader (hc : Coherent P) (hh : HeaderIs P h)
    (room : Room) : HeaderIs (P.writeDatabaseHeader room).2 h := by
  refine ⟨(header_writeDatabaseHeader P room).trans hh.1,?_⟩
  unfold Pager.writeDatabaseHeader
  rcases hr : P.readPage databaseHeaderPageId room with ⟨r,P1⟩
  obtain ⟨-,hheader,hco,-⟩ := hc.read_eq hr
  cases r with
  | error e =>
    simp only [hco]
    exact hh.2
  | ok content =>
    simp only [hheader,hh.1]
    exact headerOf_write hh.cacheSize

theorem isPtrmapPage_ne_one {page : UInt32} (h : isPtrmapPage page size = true) : page ≠ 1 := by
  rintro rfl
  simp [isPtrmapPage] at h

theorem content_insert_remove (hne : p ≠ page) (content : PageBytes) :
    ((P.modify page content).removeNew page).content p = P.content p := by
  simp [Pager.content,removeNew,modify,hne]

/-- A refused allocation takes back the pointer map page it may have put into the cache. -/
theorem HeaderIs.allocatePage (hc : Coherent P) (hh : HeaderIs P h) (hr : P.CacheRefuses ptrmap buffer room) :
    HeaderIs (P.allocatePage ptrmap buffer room).2 h := by
  unfold CacheRefuses at hr
  unfold Pager.allocatePage
  simp only at hr ⊢
  split
  · rename_i hmap
    rw [if_pos hmap] at hr
    cases h1 : P.insertNew (P.header.databaseSize + 1).toNat ptrmap room with
    | error e => exact hh
    | ok P1 =>
      simp only
      cases h2 : P1.insertNew (P.header.databaseSize + 1 + 1).toNat buffer room with
      | ok P2 => exact absurd h2 (hr P1 P2 h1)
      | error e =>
        obtain ⟨victims,-,-,rfl⟩ := insertNew_ok h1
        have hne : databaseHeaderPageId ≠ (P.header.databaseSize + 1).toNat := by
          intro he
          exact isPtrmapPage_ne_one hmap.2 (UInt32.toNat_inj.mp he.symm)
        refine ⟨hh.1,?_⟩
        simp only [content_insert_remove hne,content_evict hc]
        exact hh.2
  · rename_i hmap
    rw [if_neg hmap] at hr
    cases h1 : P.insertNew (P.header.databaseSize + 1).toNat buffer room with
    | error e => exact hh
    | ok P1 => exact absurd h1 (hr P1)

theorem freePage_of_refused (hr : P.FreeRefused page room) : (P.freePage page room).2 = P := by
  unfold freePage
  split
  · rfl
  · rename_i hp
    rcases hr with hlow | hhi | ⟨hc,hfu⟩
    · exact absurd (.inl hlow) hp
    · exact absurd (.inr hhi) hp
    · simp [readPage,hc,hfu]

theorem HeaderIs.setCookie (hc : Coherent P) (hh : HeaderIs P h)
    (hsa : ∀ h, P.header.setCookie value cookie = .ok h → h = P.header) (room : Room) :
    HeaderIs (P.setCookie cookie value room).2 h := by
  unfold Pager.setCookie
  cases he : P.header.setCookie value cookie with
  | error e => exact hh
  | ok header =>
    rw [hsa header he]
    exact hh.writeDatabaseHeader hc room

theorem HeaderIs.of_content (hh : HeaderIs P h) (hheader : P'.header = P.header)
    (hco : ∀ p, P'.content p = P.content p) : HeaderIs P' h :=
  ⟨hheader.trans hh.1,by rw [hco]; exact hh.2⟩

theorem headerOf_congr {a b : PageBytes}
    (h : a.take databaseHeaderSize = b.take databaseHeaderSize) : headerOf a = headerOf b := by
  rw [headerOf,h,headerOf]

theorem HeaderIs.writePage (hh : HeaderIs P h)
    {content : PageBytes} (hs : P.step (.writePage page content) = some P') : HeaderIs P' h := by
  simp only [step] at hs
  split at hs
  · cases hs
  · rename_i old hold
    split at hs
    · rename_i hok
      cases hs
      refine ⟨hh.1,?_⟩
      rw [content_modify]
      split
      · rename_i hp
        rw [headerOf_congr (hok.2 hp.symm),← content_of_cached hold,← hp]
        exact hh.2
      · exact hh.2
    · cases hs

/-- Page 1 holds `h` at every restore point, the header in memory is `h`, and so was it at every
restore point. -/
def Unchanged (h : DatabaseHeader) (X : Pager × HeaderShadow) : Prop :=
  ∃ S : Shadow, Tracks X.1 S ∧ S.All (fun pages => headerOf (pages databaseHeaderPageId) = h) ∧
    X.2.All (· = h) ∧ X.1.header = h

theorem Unchanged.restores (hX : Unchanged h X) : RestoresHeader X := by
  obtain ⟨S,ht,hpa,hhe,hh⟩ := hX
  constructor
  · have hback := ht.rollback.current
    refine ⟨hh.trans hhe.base.symm,?_⟩
    rw [hback,hhe.base]
    exact hpa.reset.current
  · intro name P' he
    have hback := (ht.rollbackToSavepoint name).current
    have hheader : (X.1.rollbackToSavepoint name).2.header = X.1.header := by
      unfold rollbackToSavepoint
      split <;> rfl
    rw [he] at hback hheader
    rw [hhe.rewind.current]
    refine ⟨hheader.trans hh,?_⟩
    rw [hback]
    exact hpa.rewind.current

/-- A page operation that keeps the header keeps all restore points. -/
theorem Unchanged.set {N : HeaderShadow} {S S' : Shadow}
    (ht : Tracks P' S') (hpa : S.All fun pages => headerOf (pages databaseHeaderPageId) = h)
    (hba : S'.base = S.base) (hpo : S'.points = S.points) (hhe : N.All (· = h))
    (hh : HeaderIs P' h) : Unchanged h (P',N.set P'.header) := by
  refine ⟨S',ht,⟨?_,?_,?_⟩,hhe.set hh.1,hh.1⟩
  · rw [hba]
    exact hpa.base
  · rw [← ht.current]
    exact hh.2
  · rw [hpo]
    exact hpa.points

theorem Unchanged.step (hX : Unchanged h X) (hsa : HeaderSafe X.1 op)
    (hs : headerStep X op = some X') : Unchanged h X' := by
  obtain ⟨S,ht,hpa,hhe,hh⟩ := hX
  simp only [headerStep,Option.map_eq_some_iff] at hs
  obtain ⟨P',hP',rfl⟩ := hs
  have ht' := ht.step hP'
  have hc := ht.live.coherent
  have hher : HeaderIs X.1 h := by
    refine ⟨hh,?_⟩
    rw [ht.current]
    exact hpa.current
  cases op with
  | readPage page room =>
    cases hP'
    exact .set ht' hpa rfl rfl hhe (hher.of_content (header_readPage ..) (content_readPage hc page room))
  | evict pages =>
    cases hP'
    exact .set ht' hpa rfl rfl hhe (hher.of_content rfl (content_evict hc))
  | writePage page content =>
    exact .set ht' hpa rfl rfl hhe (hher.writePage hP')
  | allocatePage ptrmap buffer room =>
    simp only [Pager.step] at hP'
    split at hP'
    · rename_i hok
      cases hP'
      exact .set ht' hpa rfl rfl hhe (hher.allocatePage hc (hsa hok))
    · cases hP'
  | freePage page room =>
    cases hP'
    refine .set ht' hpa rfl rfl hhe ?_
    rw [freePage_of_refused hsa]
    exact hher
  | setCookie cookie value room =>
    cases hP'
    exact .set ht' hpa rfl rfl hhe (hher.setCookie hc hsa room)
  | openSavepoint name isTxnOwner order =>
    simp only [Pager.step] at hP'
    split at hP'
    · rename_i ho
      cases hP'
      refine ⟨_,ht',hpa.mark _,hhe.mark _,?_⟩
      exact (hc.flush ho).header.trans hh
    · cases hP'
  | rollbackToSavepoint name =>
    cases hP'
    refine ⟨_,ht',hpa.rewind,hhe.rewind,?_⟩
    unfold Pager.rollbackToSavepoint
    split <;> exact hh
  | releaseSavepoint name =>
    cases hP'
    refine ⟨_,ht',hpa.release,hhe.release,?_⟩
    unfold Pager.releaseSavepoint
    split <;> exact hh
  | rollback =>
    cases hP'
    exact ⟨_,ht',hpa.reset,hhe.reset,hh⟩

theorem base_headerOp : (headerOp N P' op).base = N.base := by
  cases op <;> simp [headerOp]

/-- From an unchanged header a step is safe exactly when rollbacks restore the header after it. -/
theorem Unchanged.safe_iff (hX : Unchanged h X) : HeaderSafe X.1 op ↔ ∀ X' ∈ headerStep X op, RestoresHeader X' := by
  constructor
  · intro hsa X' hs
    exact (hX.step hsa hs).restores
  · intro hall
    obtain ⟨S,ht,-,hhe,hh⟩ := hX
    refine headerSafe_of_header fun P' hP' => ?_
    have hre := hall (P', headerOp X.2 P' op) (by simp [headerStep,Option.mem_def.mp hP'])
    have hback : P'.header = (headerOp X.2 P' op).base := hre.rollback.1
    rw [hback,base_headerOp,hhe.base,hh]

/-- In a transaction that began with the header of page 1 in memory, rollbacks restore the
header at every point of a run exactly when no step of it changes the header in memory. -/
theorem header_restored_iff (h : Begun P) (hcurrent : Current P)
    (hsync : headerOf (P.content databaseHeaderPageId) = P.header) (ops : List Op) :
    (∀ k X, run headerStep (P, .start P.header) (ops.take k) = some X → RestoresHeader X) ↔
      Meets headerStep (fun X => HeaderSafe X.1) (P, .start P.header) ops := by
  have hst : Unchanged P.header (P, .start P.header) :=
    ⟨.start P.content,h.tracks hcurrent,.start hsync,.start rfl,rfl⟩
  refine reached_iff_meets (I := Unchanged P.header) ?_ ?_ ?_ hst
  · exact fun X hX => hX.restores
  · exact fun X op hX => hX.safe_iff
  · exact fun X op X' hX hsa hs => hX.step hsa hs

def newDatabase : Pager :=
  { firstWriter with
    db := fun page =>
      if page = databaseHeaderPageId then writeHeaderToBuf (List.replicate 512 0) .default
      else List.replicate 512 0 }

theorem begun_newDatabase : Begun newDatabase where
  log := begun_firstWriter.log
  pageSize := begun_firstWriter.pageSize
  dbPages := by
    intro page
    simp only [newDatabase]
    split
    · rw [length_writeHeaderToBuf (by simp only [List.length_replicate]; decide),List.length_replicate]
      rfl
    · exact List.length_replicate
  cached := nofun
  dirty := rfl
  savepoints := rfl
  start := rfl

/-- Page 2 is written under a savepoint and the savepoint is undone; page 1 cannot be freed. -/
def writesOnly : List Op :=
  [.readPage 2 fun _ => some [], .openSavepoint "s" false [],
    .writePage 2 (List.replicate 512 7), .freePage 1 fun _ => some [],
    .rollbackToSavepoint "S", .rollback]

theorem writesOnly_restores_header : Begun newDatabase ∧ ∀ k X,
      run headerStep (newDatabase, .start newDatabase.header) (writesOnly.take k) = some X →
        RestoresHeader X := by
  refine ⟨begun_newDatabase,?_⟩
  refine (header_restored_iff begun_newDatabase ⟨nofun,fun _ => rfl⟩ ?_ writesOnly).mpr ?_
  · exact headerOf_write (by decide)
  · refine ⟨trivial,fun _ _ => ⟨trivial,fun _ _ => ⟨trivial,fun _ _ => ⟨.inl (by decide),?_⟩⟩⟩⟩
    exact fun _ _ => ⟨trivial,fun _ _ => ⟨trivial,fun _ _ => trivial⟩⟩

/-- After one allocation a rollback leaves the database one page larger in memory. -/
theorem allocated_page_survives_rollback : ∃ X, run headerStep (newDatabase, .start newDatabase.header)
        [.allocatePage (List.replicate 512 0) (List.replicate 512 0) fun _ => some []] = some X ∧
      ¬ RestoresHeader X := by
  have hch : (run headerStep (newDatabase, .start newDatabase.header)
      [.allocatePage (List.replicate 512 0) (List.replicate 512 0) fun _ => some []]).any
      (fun X => X.1.rollback.header.databaseSize != X.2.base.databaseSize) = true := by
    decide +kernel
  obtain ⟨X,hrun,hX⟩ := exists_of_run_any hch
  refine ⟨X,hrun,fun hr => ?_⟩
  simp [hr.rollback.1] at hX

end Pager

end OxiSql.Storage
