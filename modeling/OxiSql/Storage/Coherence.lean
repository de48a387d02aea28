import OxiSql.Storage.Pager

namespace OxiSql.Storage
open Lib Wal Function

namespace Pager
variable {P : Pager}

def viewAt (P : Pager) (m page : Nat) : PageBytes :=
  Wal.viewAt P.wal.pageSize P.shared P.db m page

def newest (P : Pager) (page : Nat) : PageBytes :=
  P.viewAt P.shared.maxFrame page

/-- Clean pages in the cache, and reads past the cache, give the newest version in the log. -/
structure Coherent (P : Pager) : Prop where
  log : P.shared.LogWf
  pageSize : databaseHeaderSize ≤ P.wal.pageSize
  dbPages : ∀ page, (P.db page).length = P.wal.pageSize
  cached : ∀ page content, P.cache page = some content → content.length = P.wal.pageSize
  nodup : P.dirtyPages.Nodup
  dirty : ∀ page ∈ P.dirtyPages, (P.cache page).isSome
  clean : ∀ page content, P.cache page = some content → page ∉ P.dirtyPages →
    content = P.newest page
  boundary : ∀ page, P.wal.readPage P.shared P.db page = P.newest page

/-- `P'` is coherent and differs from `P` above the log only. -/
structure Touches (P P' : Pager) : Prop where
  wal : P'.wal = P.wal
  shared : P'.shared = P.shared
  db : P'.db = P.db
  savepoints : P'.savepoints = P.savepoints
  coherent : Coherent P'

theorem Touches.trans (h : Touches P P') (h' : Touches P' P'') : Touches P P'' :=
  ⟨h'.wal.trans h.wal,h'.shared.trans h.shared,h'.db.trans h.db, h'.savepoints.trans h.savepoints,h'.coherent⟩

theorem Touches.viewAt (h : Touches P P') (m page : Nat) : P'.viewAt m page = P.viewAt m page := by
  simp [Pager.viewAt,h.wal,h.shared,h.db]

theorem length_viewAt (hd : ∀ page, (P.db page).length = P.wal.pageSize) :
    (P.viewAt m page).length = P.wal.pageSize := by
  simp only [Pager.viewAt,Wal.viewAt]
  split
  · simp [imageAt]
  · exact hd page

theorem content_of_cached (h : P.cache page = some c) : P.content page = c := by
  simp [content,h]

section

variable {content : PageBytes}

theorem content_modify : (P.modify page content).content p = if p = page then content else P.content p := by
  by_cases hp : p = page
  · subst hp
    simp [Pager.content,modify]
  · simp [Pager.content,modify,hp]

theorem readPage_cases : (∃ content, P.cache page = some content ∧ P.readPage page room = (.ok content,P)) ∨
    (P.cache page = none ∧ room page = none ∧ P.readPage page room = (.error .cacheFull,P)) ∨
    ∃ victims, P.cache page = none ∧ room page = some victims ∧ P.readPage page room =
        (.ok (P.wal.readPage P.shared P.db page),(P.evict victims).load page) := by
  cases hc : P.cache page with
  | some content => exact .inl ⟨content,rfl,by simp [readPage,hc]⟩
  | none =>
    cases hr : room page with
    | none => exact .inr (.inl ⟨rfl,rfl,by simp [readPage,hc,hr]⟩)
    | some victims =>
      exact .inr (.inr ⟨victims,rfl,rfl,by simp [readPage,hc,hr,content,load,evict]⟩)

/-- Bringing in a page that is not cached changes no read. -/
theorem content_load (hn : P.cache page = none) : (P.load page).content p = P.content p := by
  by_cases hp : p = page
  · subst hp
    simp [content,load,hn]
  · simp [content,load,hp]

theorem cache_evict_of_none (hn : P.cache page = none) : (P.evict pages).cache page = none := by
  simp [evict,hn]

/-- A read that succeeds returns the content of the page. -/
theorem readPage_ok (he : P.readPage page room = (.ok content,P')) : content = P.content page := by
  rcases readPage_cases with ⟨c,hc,h⟩ | ⟨-,-,h⟩ | ⟨victims,hc,-,h⟩
  · rw [h] at he
    cases he
    exact (content_of_cached hc).symm
  · rw [h] at he
    cases he
  · rw [h] at he
    cases he
    simp [Pager.content,hc]

theorem length_writeHeaderToBuf (hl : databaseHeaderSize ≤ buf.length) :
    (writeHeaderToBuf buf h).length = buf.length := by
  simp only [writeHeaderToBuf,List.length_append,DatabaseHeader.length_bytes,List.length_drop]
  omega

theorem insertNew_ok (he : P.insertNew page content room = .ok P') :
    ∃ victims, P.cache page = none ∧ room page = some victims ∧ P' = (P.evict victims).modify page content := by
  unfold insertNew at he
  split at he
  · cases he
  · rename_i hc
    split at he
    · cases he
    · rename_i victims hr
      cases he
      exact ⟨victims,hc,hr,rfl⟩

@[simp] theorem header_readPage (P : Pager) (page : Nat) (room : Room) :
    (P.readPage page room).2.header = P.header := by
  rcases readPage_cases with ⟨c,-,he⟩ | ⟨-,-,he⟩ | ⟨victims,-,-,he⟩
  · rw [he]
  · rw [he]
  · rw [he]
    rfl

end

variable (h : Coherent P)
include h

theorem Touches.refl : Touches P P :=
  ⟨rfl,rfl,rfl,rfl,h⟩

theorem Coherent.length_content (page : Nat) : (P.content page).length = P.wal.pageSize := by
  unfold content
  split
  · rename_i content hc
    exact h.cached page content hc
  · exact length_viewAt h.dbPages

theorem Coherent.content_clean (hd : page ∉ P.dirtyPages) :
    P.content page = P.newest page := by
  unfold content
  split
  · rename_i content hc
    exact h.clean page content hc hd
  · exact h.boundary page

theorem Coherent.setHeader (header : DatabaseHeader) : Touches P { P with header := header } :=
  ⟨rfl,rfl,rfl,rfl,h.log,h.pageSize,h.dbPages,h.cached,h.nodup,h.dirty,h.clean,h.boundary⟩

theorem Coherent.evict (pages : List Nat) : Touches P (P.evict pages) := by
  refine ⟨rfl,rfl,rfl,rfl,?_⟩
  have hsub : ∀ page content, (P.evict pages).cache page = some content → P.cache page = some content := by
    intro page content hc
    simp only [Pager.evict] at hc
    split at hc
    · cases hc
    · exact hc
  refine ⟨h.log,h.pageSize,h.dbPages,?_,h.nodup,?_,?_,h.boundary⟩
  · exact fun page content hc => h.cached page content (hsub page content hc)
  · intro page hp
    have hke : ¬ (page ∈ pages ∧ page ∉ P.dirtyPages) := fun hn => hn.2 hp
    simpa [Pager.evict,hke] using h.dirty page hp
  · exact fun page content hc hd => h.clean page content (hsub page content hc) hd

theorem content_evict (page : Nat) : (P.evict pages).content page = P.content page := by
  by_cases hp : page ∈ pages ∧ page ∉ P.dirtyPages
  · rw [h.content_clean hp.2]
    exact (h.evict pages).coherent.content_clean hp.2
  · simp [content,evict,hp]

variable {content : PageBytes}

theorem Coherent.modify (page : Nat)
    (hl : content.length = P.wal.pageSize) : Touches P (P.modify page content) := by
  refine ⟨rfl,rfl,rfl,rfl,?_⟩
  refine ⟨h.log,h.pageSize,h.dbPages,?_,h.nodup.insert,?_,?_,h.boundary⟩
  · intro p c hc
    by_cases hp : p = page
    · subst hp
      simp only [Pager.modify,update_self,Option.some.injEq] at hc
      exact hc ▸ hl
    · simp only [Pager.modify,update_of_ne hp] at hc
      exact h.cached p c hc
  · intro p hp
    by_cases he : p = page
    · subst he
      simp [Pager.modify]
    · have hd : p ∈ P.dirtyPages := by simpa [Pager.modify,he] using hp
      simpa [Pager.modify,update_of_ne he] using h.dirty p hd
  · intro p c hc hd
    have he : p ≠ page := by
      intro he
      simp [Pager.modify,he] at hd
    simp only [Pager.modify,update_of_ne he] at hc
    exact h.clean p c hc (by simpa [Pager.modify,he] using hd)

theorem Coherent.load (hn : P.cache page = none) : Touches P (P.load page) := by
  refine ⟨rfl,rfl,rfl,rfl,?_⟩
  refine ⟨h.log,h.pageSize,h.dbPages,?_,h.nodup,?_,?_,h.boundary⟩
  · intro p c hc
    by_cases hp : p = page
    · subst hp
      simp only [Pager.load,update_self,Option.some.injEq] at hc
      rw [← hc]
      exact length_viewAt h.dbPages
    · simp only [Pager.load,update_of_ne hp] at hc
      exact h.cached p c hc
  · intro p hp
    have hne : p ≠ page := by
      rintro rfl
      simpa [hn] using h.dirty p hp
    simpa [Pager.load,update_of_ne hne] using h.dirty p hp
  · intro p c hc hd
    by_cases hp : p = page
    · subst hp
      simp only [Pager.load,update_self,Option.some.injEq] at hc
      exact hc ▸ h.boundary p
    · simp only [Pager.load,update_of_ne hp] at hc
      exact h.clean p c hc hd

theorem Coherent.readPage (page : Nat) (room : Room) : Touches P (P.readPage page room).2 := by
  rcases readPage_cases with ⟨c,-,he⟩ | ⟨-,-,he⟩ | ⟨victims,hc,-,he⟩
  · exact he ▸ .refl h
  · exact he ▸ .refl h
  · rw [he]
    have hev := h.evict victims
    exact hev.trans (hev.coherent.load (cache_evict_of_none hc))

theorem content_readPage (page : Nat) (room : Room) (p : Nat) :
    (P.readPage page room).2.content p = P.content p := by
  rcases readPage_cases with ⟨c,-,he⟩ | ⟨-,-,he⟩ | ⟨victims,hc,-,he⟩
  · rw [he]
  · rw [he]
  · rw [he]
    exact (content_load (cache_evict_of_none hc)).trans (content_evict h p)

/-- A read with its result: nothing is incoherent and the page is whole. -/
theorem Coherent.read_eq (he : P.readPage page room = (r,P')) :
    Touches P P' ∧ P'.header = P.header ∧ (∀ p, P'.content p = P.content p) ∧ ∀ content, r = .ok content →
        content = P.content page ∧ content.length = P'.wal.pageSize := by
  have ht := h.readPage page room
  have hh := header_readPage P page room
  have hc := content_readPage h page room
  rw [he] at ht hh hc
  refine ⟨ht,hh,hc,?_⟩
  rintro content rfl
  have hco := readPage_ok he
  refine ⟨hco,?_⟩
  rw [hco,ht.wal]
  exact h.length_content page

theorem Coherent.writeDatabaseHeader (room : Room) :
    Touches P (P.writeDatabaseHeader room).2 := by
  unfold Pager.writeDatabaseHeader
  rcases hr : P.readPage databaseHeaderPageId room with ⟨r,P1⟩
  obtain ⟨ht,-,-,hok⟩ := h.read_eq hr
  cases r with
  | error e => exact ht
  | ok content =>
    obtain ⟨-,hl⟩ := hok content rfl
    refine ht.trans (ht.coherent.modify _ ?_)
    rw [length_writeHeaderToBuf (hl ▸ ht.coherent.pageSize)]
    exact hl

theorem Coherent.insertNew
    (hl : content.length = P.wal.pageSize) (he : P.insertNew page content room = .ok P') : Touches P P' := by
  obtain ⟨victims,-,-,rfl⟩ := insertNew_ok he
  have hev := h.evict victims
  exact hev.trans (hev.coherent.modify page hl)

theorem Coherent.removeNew (page : Nat) : Touches P (P.removeNew page) := by
  refine ⟨rfl,rfl,rfl,rfl,h.log,h.pageSize,h.dbPages,?_,h.nodup.erase page,?_,?_,h.boundary⟩
  · intro p c hc
    by_cases hp : p = page
    · simp [Pager.removeNew,hp] at hc
    · simp only [Pager.removeNew,update_of_ne hp] at hc
      exact h.cached p c hc
  · intro p hp
    obtain ⟨hne,hd⟩ := h.nodup.mem_erase_iff.mp hp
    simpa [Pager.removeNew,hne] using h.dirty p hd
  · intro p c hc hd
    have hp : p ≠ page := by
      rintro rfl
      simp [Pager.removeNew] at hc
    simp only [Pager.removeNew,update_of_ne hp] at hc
    exact h.clean p c hc fun hm => hd (h.nodup.mem_erase_iff.mpr ⟨hp,hm⟩)

theorem Coherent.growTo (size : UInt32) (room : Room) : Touches P (P.growTo size room).2 := by
  have hset := h.setHeader { P.header with databaseSize := size }
  have hwr := hset.trans (hset.coherent.writeDatabaseHeader room)
  unfold Pager.growTo
  rcases hr : Pager.writeDatabaseHeader { P with header := _ } room with ⟨r,P1⟩
  rw [hr] at hwr
  cases r with
  | error e | ok _ => exact hwr

theorem Coherent.allocatePage (room : Room) (hp : ptrmap.length = P.wal.pageSize)
    (hb : buffer.length = P.wal.pageSize) : Touches P (P.allocatePage ptrmap buffer room).2 := by
  unfold Pager.allocatePage
  simp only
  split
  · cases h1 : P.insertNew (P.header.databaseSize + 1).toNat ptrmap room with
    | error e => exact .refl h
    | ok P1 =>
      have ht1 := h.insertNew hp h1
      simp only
      cases h2 : P1.insertNew (P.header.databaseSize + 1 + 1).toNat buffer room with
      | error e => exact ht1.trans (ht1.coherent.removeNew _)
      | ok P2 =>
        have ht2 := ht1.trans (ht1.coherent.insertNew (by rw [hb,ht1.wal]) h2)
        exact ht2.trans (ht2.coherent.growTo _ room)
  · cases h1 : P.insertNew (P.header.databaseSize + 1).toNat buffer room with
    | error e => exact .refl h
    | ok P1 =>
      have ht1 := h.insertNew hb h1
      exact ht1.trans (ht1.coherent.growTo _ room)

theorem Coherent.makeTrunk (page : Nat) (next : UInt32)
    (hl : content.length = P.wal.pageSize) : Touches P (P.makeTrunk page content next) := by
  have hlen : (writeU32 (writeU32 content (pageOffset page) next) (pageOffset page + 4) 0).length =
      P.wal.pageSize := by simpa using hl
  have hm := h.modify page hlen
  exact hm.trans (hm.coherent.setHeader _)

theorem Coherent.linkFreePage (page : Nat) (room : Room)
    (hl : content.length = P.wal.pageSize) : Touches P (P.linkFreePage page content room).2 := by
  unfold Pager.linkFreePage
  simp only
  split
  · exact h.makeTrunk page _ hl
  rcases hr : P.readPage P.header.freelistTrunkPage.toNat room with ⟨r,P1⟩
  obtain ⟨ht,-,-,hok⟩ := h.read_eq hr
  cases r with
  | error e => exact ht
  | ok entries =>
    obtain ⟨-,hle⟩ := hok entries rfl
    simp only
    split
    · exact ht.trans (ht.coherent.modify _ (by simpa using hle))
    · exact ht.trans (ht.coherent.makeTrunk page _ (by rw [hl,ht.wal]))

theorem Coherent.freePage (page : Nat) (room : Room) : Touches P (P.freePage page room).2 := by
  unfold Pager.freePage
  split
  · exact .refl h
  rcases hr : P.readPage page room with ⟨r,P1⟩
  obtain ⟨ht,-,-,hok⟩ := h.read_eq hr
  cases r with
  | error e => exact ht
  | ok content =>
    obtain ⟨-,hl⟩ := hok content rfl
    have ht2 := ht.coherent.setHeader
      { P1.header with freelistPages := P1.header.freelistPages + 1 }
    exact (ht.trans ht2).trans (ht2.coherent.linkFreePage page room hl)

theorem Coherent.setCookie (cookie : Cookie) (value : Int32) (room : Room) :
    Touches P (P.setCookie cookie value room).2 := by
  unfold Pager.setCookie
  split
  · exact .refl h
  · rename_i header _
    have hset := h.setHeader header
    exact hset.trans (hset.coherent.writeDatabaseHeader room)

end Pager

end OxiSql.Storage
