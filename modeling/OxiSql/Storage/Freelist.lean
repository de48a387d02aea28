import OxiSql.Storage.Header
import OxiSql.Storage.Savepoints

namespace OxiSql.Storage
open Lib Wal List Function UInt32 Option

/-! Freeing pages: the chain of trunk pages that starts in the header. The pages are those of the
cache, which may still wait for their read to finish. -/

/-- A page of the cache. It has contents once its read is through; it is locked until then. -/
structure Page where
  contents : Option PageBytes
  dirty : Bool
  uptodate : Bool
  loaded : Bool
deriving DecidableEq

namespace Page

def new : Page :=
  ⟨none, false, false, false⟩

/-- `finish_read_page`. -/
def finishRead (page : Page) (buf : PageBytes) : Page :=
  { page with contents := some buf, uptodate := true, loaded := true }

/-- `clear_uptodate` and `clear_loaded`. -/
def clearFlags (page : Page) : Page :=
  { page with uptodate := false, loaded := false }

/-- Only unlocked clean pages leave the cache. -/
def canLeave (page : Page) : Bool :=
  page.contents.isSome && !page.dirty

end Page

/-- The cache over `stored`, which is what the log and the database file hold. -/
structure PageStore where
  header : DatabaseHeader
  cache : Nat → Option Page
  dirtyPages : List Nat
  stored : Nat → PageBytes

/-- What becomes of reading a page that is not cached: no room, or room after some pages have
left, and then an error, a read that is still under way or one that is through. -/
inductive Load where
  | refused (e : LimboError)
  | failed (e : LimboError) (victims : List Nat)
  | pending (uptodate : Bool) (victims : List Nat)
  | finished (victims : List Nat)

structure FreeCall where
  page : Option Page
  pageId : Nat
  load : Nat → Load

namespace PageStore

def content (s : PageStore) (page : Nat) : PageBytes :=
  ((s.cache page).bind Page.contents).getD (s.stored page)

def isDirty (s : PageStore) (page : Nat) : Bool :=
  (s.cache page).any Page.dirty

def usableSize (s : PageStore) : Nat :=
  s.header.getPageSize - s.header.reservedSpace.toNat

def maxFreeListEntries (s : PageStore) : Nat :=
  s.usableSize / 4 - 2

def evict (s : PageStore) (victims : List Nat) : PageStore :=
  { s with cache := fun page =>
      if page ∈ victims then (s.cache page).filter (! ·.canLeave) else s.cache page }

def put (s : PageStore) (page : Nat) (entry : Page) : PageStore :=
  { s with cache := Function.update s.cache page (some entry) }

/-- Changing a page through a reference to it. A page that has left the cache is changed for
nobody. -/
def alter (s : PageStore) (page : Nat) (f : Page → Page) : PageStore :=
  { s with cache := Function.update s.cache page ((s.cache page).map f) }

def readPage (s : PageStore) (page : Nat) (load : Nat → Load) : Except LimboError Page × PageStore :=
  match s.cache page with
  | some entry => (.ok entry, s)
  | none =>
    match load page with
    | .refused e => (.error e, s)
    | .failed e victims => (.error e, s.evict victims)
    | .pending uptodate victims =>
      let entry := { Page.new with uptodate }
      (.ok entry, (s.evict victims).put page entry)
    | .finished victims =>
      let entry := Page.new.finishRead (s.stored page)
      (.ok entry, (s.evict victims).put page entry)

/-- `set_dirty` and `add_dirty`. -/
def setDirty (s : PageStore) (page : Nat) : PageStore :=
  { s.alter page ({ · with dirty := true }) with dirtyPages := s.dirtyPages.insert page }

def writeContents (s : PageStore) (page : Nat) (buf : PageBytes) : PageStore :=
  s.alter page ({ · with contents := some buf })

/-- The end of `free_page`: the freed page becomes the first trunk. -/
def makeTrunk (s : PageStore) (entry : Page) (page : Nat) (trunk : UInt32) :
    Except LimboError Unit × PageStore :=
  let s := s.setDirty page
  match entry.contents with
  | none =>
    (.error (.corrupt
      s!"page {page} being turned into a free-list trunk has no contents loaded"), s)
  | some buf =>
    let s := s.writeContents page (writeU32 (writeU32 buf 0 trunk) 4 0)
    let s := { s with header := { s.header with freelistTrunkPage := UInt32.ofNat page } }
    (.ok (), s.alter page Page.clearFlags)

/-- The freed page becomes an entry of the first trunk. -/
def addLeaf (s : PageStore) (page : Nat) (trunk leaves : UInt32) (entries : PageBytes) : PageStore :=
  let s := s.setDirty trunk.toNat
  let entries := writeU32 entries 4 (leaves + 1)
  let s := s.writeContents trunk.toNat
    (writeU32 entries (8 + leaves.toNat * 4) (UInt32.ofNat page))
  s.alter page Page.clearFlags

/-- `detach` takes the contents of a cached page that leaves. -/
def detached (s : PageStore) (page : Nat) (entry : Page) : Page :=
  if (s.cache page).isSome then { entry with contents := none, loaded := false } else entry

/-- The part of `free_page` after the counter. `entry` is the freed page as the caller has it: one
that is still cached is seen through the cache. -/
def link (s : PageStore) (entry : Page) (page : Nat) (load : Nat → Load) :
    Except LimboError Unit × PageStore :=
  let trunk := s.header.freelistTrunkPage
  if trunk = 0 then s.makeTrunk entry page trunk
  else
    match s.readPage trunk.toNat load with
    | (.error e, s) => (.error e, s)
    | (.ok trunkPage, s') =>
      match trunkPage.contents with
      | none => (.error (.corrupt s!"free-list trunk page {trunk} has no contents loaded"), s')
      | some entries =>
        let leaves := readU32 entries 4
        if leaves.toNat < s'.maxFreeListEntries then (.ok (), s'.addLeaf page trunk leaves entries)
        else s'.makeTrunk ((s'.cache page).getD (s.detached page entry)) page trunk

def getPage (s : PageStore) (c : FreeCall) : Except LimboError Page × PageStore :=
  match c.page with
  | some entry => (.ok ((s.cache c.pageId).getD entry), s)
  | none => s.readPage c.pageId c.load

def countPage (s : PageStore) : PageStore :=
  { s with header := { s.header with freelistPages := s.header.freelistPages + 1 } }

def freePage (s : PageStore) (c : FreeCall) : Except LimboError Unit × PageStore :=
  if c.pageId < 2 ∨ s.header.databaseSize.toNat < c.pageId then
    (.error (.corrupt s!"Invalid page number {c.pageId} for free operation"), s)
  else
    match s.getPage c with
    | (.error e, s) => (.error e, s)
    | (.ok entry, s) => s.countPage.link entry c.pageId c.load

/-- `cacheflush`: dirty pages go to the log and are clean. -/
def flush (s : PageStore) : PageStore :=
  { s with
    cache := fun page => (s.cache page).map ({ · with dirty := false })
    dirtyPages := []
    stored := fun page => if s.isDirty page then s.content page else s.stored page }

/-- What else goes on between calls: pages are read, reads finish, pages leave, and are
flushed. -/
inductive Quiet (s : PageStore) : PageStore → Prop where
  | read (page : Nat) (load : Nat → Load) : Quiet s (s.readPage page load).2
  | finishRead (page : Nat) (entry : Page) (h : s.cache page = some entry)
      (hn : entry.contents = none) : Quiet s (s.put page (entry.finishRead (s.stored page)))
  | evict (victims : List Nat) : Quiet s (s.evict victims)
  | flush : Quiet s s.flush

/-- All contents have the size of a page, and what is clean is stored. -/
structure Coherent (s : PageStore) : Prop where
  pageSize : 512 ≤ s.header.getPageSize
  stored : ∀ page, (s.stored page).length = s.header.getPageSize
  contents : ∀ {page entry buf}, s.cache page = some entry → entry.contents = some buf →
    buf.length = s.header.getPageSize
  clean : ∀ {page entry buf}, s.cache page = some entry → entry.contents = some buf →
    entry.dirty = false → buf = s.stored page

/-- The header and all pages are as they were. -/
structure Unchanged (s s' : PageStore) : Prop where
  header : s'.header = s.header
  dirtyPages : s'.dirtyPages = s.dirtyPages
  content : ∀ page, s'.content page = s.content page
  isDirty : ∀ page, s'.isDirty page = s.isDirty page

theorem Unchanged.refl (s : PageStore) : s.Unchanged s :=
  ⟨rfl,rfl,fun _ => rfl,fun _ => rfl⟩

theorem Unchanged.trans {s s' s'' : PageStore} (h : s.Unchanged s') (h' : s'.Unchanged s'') :
    s.Unchanged s'' where
  header := h'.header.trans h.header
  dirtyPages := h'.dirtyPages.trans h.dirtyPages
  content page := (h'.content page).trans (h.content page)
  isDirty page := (h'.isDirty page).trans (h.isDirty page)

section
variable {s : PageStore}

theorem content_of_cached (h : s.cache page = some entry) (hb : entry.contents = some buf) :
    s.content page = buf := by
  simp [content,h,hb]

section

variable (hs : s.Coherent)
include hs

theorem Coherent.length_content (page : Nat) : (s.content page).length = s.header.getPageSize := by
  unfold content
  cases h : (s.cache page).bind Page.contents with
  | none => exact hs.stored page
  | some buf =>
    obtain ⟨entry,he,hb⟩ := bind_eq_some_iff.mp h
    exact hs.contents he hb

omit hs in
theorem cache_of_evict {victims : List Nat}
    (h : (s.evict victims).cache page = some entry) : s.cache page = some entry := by
  simp only [evict] at h
  split at h
  · exact (filter_eq_some_iff.mp h).1
  · exact h

variable (victims : List Nat)

theorem Coherent.evict : (s.evict victims).Coherent where
  pageSize := hs.pageSize
  stored := hs.stored
  contents h := hs.contents (cache_of_evict h)
  clean h := hs.clean (cache_of_evict h)

theorem evict_unchanged : s.Unchanged (s.evict victims) := by
  refine ⟨rfl,rfl,fun page => ?_,fun page => ?_⟩
  all_goals
    simp only [content,isDirty,PageStore.evict]
    split
    · cases hc : s.cache page with
      | none => rfl
      | some entry =>
        cases hl : entry.canLeave with
        | false => simp [Option.filter,hl]
        | true =>
          -- a clean page is stored as it is
          have hcl := hl
          simp only [Page.canLeave,Bool.and_eq_true,Bool.not_eq_true'] at hcl
          obtain ⟨buf,hb⟩ := Option.isSome_iff_exists.mp hcl.1
          simp [Option.filter,hl,hb,hcl.2,hs.clean hc hb hcl.2]
    · rfl

theorem Coherent.put (he : ∀ buf, entry.contents = some buf → buf = s.stored page) :
    (s.put page entry).Coherent where
  pageSize := hs.pageSize
  stored := hs.stored
  contents {p e buf} h hb := by
    by_cases hp : p = page
    · subst hp
      obtain rfl : entry = e := by simpa [PageStore.put] using h
      rw [he buf hb]
      exact hs.stored p
    · exact hs.contents (by simpa [PageStore.put,hp] using h) hb
  clean {p e buf} h hb hd := by
    by_cases hp : p = page
    · subst hp
      obtain rfl : entry = e := by simpa [PageStore.put] using h
      exact he buf hb
    · exact hs.clean (by simpa [PageStore.put,hp] using h) hb hd

omit hs in
theorem put_unchanged (hn : s.cache page = none)
    (he : ∀ buf, entry.contents = some buf → buf = s.stored page) (hd : entry.dirty = false) :
    s.Unchanged (s.put page entry) := by
  refine ⟨rfl,rfl,fun p => ?_,fun p => ?_⟩
  · by_cases hp : p = page
    · subst hp
      cases hb : entry.contents with
      | none => simp [content,PageStore.put,hn,hb]
      | some buf => simp [content,PageStore.put,hn,hb,he buf hb]
    · simp [content,PageStore.put,hp]
  · by_cases hp : p = page
    · subst hp
      simp [isDirty,PageStore.put,hn,hd]
    · simp [isDirty,PageStore.put,hp]

/-- A read that has to make room, and what it puts into the cache. -/
theorem evict_put (hn : s.cache page = none) (he : ∀ buf, entry.contents = some buf → buf = s.stored page)
    (hd : entry.dirty = false) :
    s.Unchanged ((s.evict victims).put page entry) ∧ ((s.evict victims).put page entry).Coherent := by
  have hn' : (s.evict victims).cache page = none := by simp [PageStore.evict,hn]
  exact ⟨(evict_unchanged hs victims).trans (put_unchanged hn' he hd),(hs.evict victims).put he⟩

theorem readPage_unchanged : s.Unchanged (s.readPage page load).2 ∧ (s.readPage page load).2.Coherent := by
  simp only [readPage]
  cases hc : s.cache page with
  | some entry => exact ⟨.refl s,hs⟩
  | none =>
    cases load page with
    | refused e => exact ⟨.refl s,hs⟩
    | failed e victims => exact ⟨evict_unchanged hs victims,hs.evict victims⟩
    | pending uptodate victims => exact evict_put hs victims hc (by simp [Page.new]) rfl
    | finished victims =>
      exact evict_put hs victims hc (fun buf hb => by simpa [Page.finishRead] using hb.symm) rfl

omit hs in
theorem readPage_cached {s' : PageStore} {load : Nat → Load}
    (h : s.readPage page load = (.ok entry,s')) : s'.cache page = some entry := by
  simp only [readPage] at h
  cases hc : s.cache page with
  | some e =>
    rw [hc] at h
    cases h
    exact hc
  | none =>
    rw [hc] at h
    cases hl : load page with
    | refused e | failed e victims => simp [hl] at h
    | pending uptodate victims | finished victims =>
      simp only [hl] at h
      obtain ⟨rfl,rfl⟩ := h
      simp [PageStore.put]

omit hs in
theorem flush_content (page : Nat) : s.flush.content page = s.content page := by
  cases hc : s.cache page with
  | none => simp [content,flush,hc]
  | some entry =>
    cases hb : entry.contents with
    | none | some buf => simp [content,flush,hc,hb]

theorem Coherent.flush : s.flush.Coherent where
  pageSize := hs.pageSize
  stored page := by
    simp only [PageStore.flush]
    split
    · exact hs.length_content page
    · exact hs.stored page
  contents h hb := by
    obtain ⟨entry,he,rfl⟩ := map_eq_some_iff.mp h
    exact hs.contents he hb
  clean {page e buf} h hb _ := by
    obtain ⟨entry,he,rfl⟩ := map_eq_some_iff.mp h
    cases hd : entry.dirty with
    | true => simp [PageStore.flush,isDirty,he,hd,content_of_cached he hb]
    | false => simpa [PageStore.flush,isDirty,he,hd] using hs.clean he hb hd

omit hs in
theorem Quiet.keeps {s' : PageStore} (h : s.Quiet s') (hs : s.Coherent) :
    s'.header = s.header ∧ (∀ page, s'.content page = s.content page) ∧ s'.Coherent := by
  cases h with
  | read page load =>
    obtain ⟨hu,hs'⟩ := readPage_unchanged hs
    exact ⟨hu.header,hu.content,hs'⟩
  | evict victims => exact ⟨rfl,(evict_unchanged hs victims).content,hs.evict victims⟩
  | flush => exact ⟨rfl,flush_content,hs.flush⟩
  | finishRead page entry h hn =>
    refine ⟨rfl,fun p => ?_,hs.put fun buf hb => by simpa [Page.finishRead] using hb.symm⟩
    by_cases hp : p = page
    · subst hp
      simp [content,PageStore.put,Page.finishRead,h,hn]
    · simp [content,PageStore.put,hp]

theorem Coherent.alter (hf : ∀ entry buf, s.cache page = some entry → (f entry).contents = some buf →
      buf.length = s.header.getPageSize ∧ ((f entry).dirty = false → buf = s.stored page)) :
    (s.alter page f).Coherent := by
  have hen : ∀ {p e}, (s.alter page f).cache p = some e →
      (p = page ∧ ∃ entry, s.cache page = some entry ∧ e = f entry) ∨ s.cache p = some e := by
    intro p e h
    by_cases hp : p = page
    · subst hp
      simp only [PageStore.alter,update_self,map_eq_some_iff] at h
      obtain ⟨entry,he,rfl⟩ := h
      exact .inl ⟨rfl,entry,he,rfl⟩
    · exact .inr (by simpa [PageStore.alter,hp] using h)
  refine ⟨hs.pageSize,hs.stored,fun h hb => ?_,fun h hb hd => ?_⟩
  · rcases hen h with ⟨rfl,entry,he,rfl⟩ | h
    · exact (hf entry _ he hb).1
    · exact hs.contents h hb
  · rcases hen h with ⟨rfl,entry,he,rfl⟩ | h
    · exact (hf entry _ he hb).2 hd
    · exact hs.clean h hb hd

theorem Coherent.clearFlags : (s.alter page Page.clearFlags).Coherent :=
  hs.alter fun _ _ he hb => ⟨hs.contents he hb,fun hd => hs.clean he hb hd⟩

theorem Coherent.withHeader {header : DatabaseHeader}
    (h : header.getPageSize = s.header.getPageSize) : { s with header }.Coherent where
  pageSize := h ▸ hs.pageSize
  stored page := (hs.stored page).trans h.symm
  contents he hb := (hs.contents he hb).trans h.symm
  clean := hs.clean

end

theorem content_alter (hf : ∀ entry, (f entry).contents = entry.contents) :
    (s.alter page f).content = s.content := by
  funext p
  by_cases hp : p = page
  · subst hp
    cases hc : s.cache p with
    | none => simp [content,PageStore.alter,hc]
    | some entry => simp [content,PageStore.alter,hc,hf]
  · simp [content,PageStore.alter,hp]

theorem content_setDirty : (s.setDirty page).content = s.content :=
  content_alter fun _ => rfl

theorem content_clearFlags : (s.alter page Page.clearFlags).content = s.content :=
  content_alter fun _ => rfl

theorem content_writeContents (h : s.cache page = some entry) :
    (s.writeContents page buf).content = update s.content page buf := by
  funext p
  by_cases hp : p = page
  · subst hp
    simp [content,writeContents,PageStore.alter,h]
  · simp [content,writeContents,PageStore.alter,hp]

theorem write_spec (hs : s.Coherent) (h : s.cache page = some entry)
    (hlen : buf.length = s.header.getPageSize) :
    ((s.setDirty page).writeContents page buf).content = update s.content page buf ∧
      ((s.setDirty page).writeContents page buf).Coherent := by
  have hc : (s.setDirty page).cache page = some { entry with dirty := true } := by
    simp [setDirty,PageStore.alter,h]
  have hdi : (s.setDirty page).Coherent := by
    have hal : (s.alter page ({ · with dirty := true })).Coherent :=
      hs.alter fun e b he hb => ⟨hs.contents he hb,fun hd => by cases hd⟩
    exact ⟨hal.pageSize,hal.stored,hal.contents,hal.clean⟩
  refine ⟨?_,hdi.alter fun e b he hb => ?_⟩
  · rw [content_writeContents hc,content_setDirty]
  · rw [hc] at he
    cases he
    cases hb
    exact ⟨hlen,fun hd => by cases hd⟩

end

def trunkWords (buf : PageBytes) (next : UInt32) : PageBytes :=
  writeU32 (writeU32 buf 0 next) 4 0

def withLeaf (entries : PageBytes) (page : Nat) : PageBytes :=
  let leaves := readU32 entries 4
  writeU32 (writeU32 entries 4 (leaves + 1)) (8 + leaves.toNat * 4) (UInt32.ofNat page)

/-- The page has been put into the first trunk, or in front of it. -/
inductive Linked (s : PageStore) (page : Nat) (s' : PageStore) : Prop where
  | leaf (htrunk : s.header.freelistTrunkPage ≠ 0)
      (hroom : (readU32 (s.content s.header.freelistTrunkPage.toNat) 4).toNat <
        s.maxFreeListEntries)
      (header : s'.header = s.header)
      (content : s'.content = Function.update s.content s.header.freelistTrunkPage.toNat
        (withLeaf (s.content s.header.freelistTrunkPage.toNat) page))
  | trunk (header : s'.header = { s.header with freelistTrunkPage := UInt32.ofNat page })
      (content : s'.content = Function.update s.content page
        (trunkWords (s.content page) s.header.freelistTrunkPage))

def hasContents (s : PageStore) (page : Nat) : Bool :=
  ((s.cache page).bind Page.contents).isSome

/-- The first trunk can be read and is loaded, and a page that has to become a trunk is still in
the cache, with its contents. -/
def canLink (s : PageStore) (page : Nat) (load : Nat → Load) : Bool :=
  if s.header.freelistTrunkPage = 0 then s.hasContents page
  else
    match s.readPage s.header.freelistTrunkPage.toNat load with
    | (.error _, _) => false
    | (.ok trunkPage, s) =>
      match trunkPage.contents with
      | none => false
      | some entries => (readU32 entries 4).toNat < s.maxFreeListEntries || s.hasContents page

def isReady (s : PageStore) (c : FreeCall) : Bool :=
  match s.getPage c with
  | (.error _, _) => true
  | (.ok _, s) =>
    c.pageId < 2 || s.header.databaseSize.toNat < c.pageId || s.canLink c.pageId c.load

section
variable {s : PageStore}

theorem getPage_unchanged (hs : s.Coherent) : s.Unchanged (s.getPage c).2 ∧ (s.getPage c).2.Coherent := by
  simp only [getPage]
  cases c.page with
  | some entry => exact ⟨.refl s,hs⟩
  | none => exact readPage_unchanged hs

theorem getPage_cached (h : s.getPage c = (.ok entry,s')) (he : s'.cache c.pageId = some e) : e = entry := by
  simp only [getPage] at h
  cases hp : c.page with
  | some given =>
    simp only [hp] at h
    obtain ⟨rfl,rfl⟩ := h
    simp [he]
  | none =>
    rw [hp] at h
    exact some.inj (he.symm.trans (readPage_cached h))

theorem makeTrunk_spec (hs : s.Coherent) (hc : s.cache page = some entry) (hb : entry.contents = some buf) :
    ∃ s', s.makeTrunk entry page trunk = (.ok (),s') ∧ s'.Coherent ∧
      s'.header = { s.header with freelistTrunkPage := ofNat page } ∧
      s'.content = update s.content page (trunkWords (s.content page) trunk) := by
  have hlen : (trunkWords buf trunk).length = s.header.getPageSize := by
    simpa [trunkWords] using hs.contents hc hb
  obtain ⟨hco,hcoh⟩ := write_spec hs hc hlen
  have heq : s.makeTrunk entry page trunk = (.ok (),
      { (s.setDirty page).writeContents page (trunkWords buf trunk) with
        header := { s.header with freelistTrunkPage := ofNat page } }.alter page Page.clearFlags) := by
    rw [makeTrunk,hb]
    rfl
  have hsi : { s.header with freelistTrunkPage := ofNat page }.getPageSize = s.header.getPageSize := rfl
  refine ⟨_,heq,(hcoh.withHeader hsi).clearFlags,rfl,?_⟩
  rw [content_of_cached hc hb,content_clearFlags]
  exact hco

theorem addLeaf_spec (hs : s.Coherent) (hc : s.cache trunk.toNat = some entry)
    (hb : entry.contents = some entries) :
    (s.addLeaf page trunk (readU32 entries 4) entries).Coherent ∧
      (s.addLeaf page trunk (readU32 entries 4) entries).header = s.header ∧
      (s.addLeaf page trunk (readU32 entries 4) entries).content =
        update s.content trunk.toNat (withLeaf (s.content trunk.toNat) page) := by
  have hlen : (withLeaf entries page).length = s.header.getPageSize := by
    simpa [withLeaf] using hs.contents hc hb
  obtain ⟨hco,hcoh⟩ := write_spec hs hc hlen
  refine ⟨hcoh.clearFlags,rfl,?_⟩
  rw [content_of_cached hc hb,addLeaf,content_clearFlags]
  exact hco

theorem hasContents_iff : s.hasContents page ↔
    ∃ entry buf, s.cache page = some entry ∧ entry.contents = some buf := by
  rw [hasContents,isSome_iff_exists]
  simp only [bind_eq_some_iff]
  exact exists_comm.trans (by simp)

theorem link_spec (hs : s.Coherent) (hen : ∀ e, s.cache page = some e → e = entry) (hre : s.canLink page load) :
    ∃ s', s.link entry page load = (.ok (),s') ∧ s'.Coherent ∧ s.Linked page s' := by
  rw [canLink] at hre
  rw [link]
  by_cases htrunk : s.header.freelistTrunkPage = 0
  · rw [if_pos htrunk] at hre ⊢
    obtain ⟨e,buf,he,hb⟩ := hasContents_iff.mp hre
    obtain rfl := hen e he
    obtain ⟨s',heq,hs',hheader,hco⟩ := makeTrunk_spec hs he hb
    exact ⟨s',heq,hs',.trunk hheader hco⟩
  · rw [if_neg htrunk] at hre ⊢
    obtain ⟨hu,hs1⟩ := readPage_unchanged hs
    cases hr : s.readPage s.header.freelistTrunkPage.toNat load with
    | mk result s1 =>
      rw [hr] at hre hu hs1
      cases result with
      | error e => cases hre
      | ok trunkPage =>
        cases hb : trunkPage.contents with
        | none => simp [hb] at hre
        | some entries =>
          have hca := readPage_cached hr
          have hmax : s1.maxFreeListEntries = s.maxFreeListEntries := by
            rw [maxFreeListEntries,usableSize,hu.header]
            rfl
          have hent : s.content s.header.freelistTrunkPage.toNat = entries := by
            rw [← hu.content,content_of_cached hca hb]
          have hsa : s1.content = s.content := funext hu.content
          simp only [hb,Bool.or_eq_true,decide_eq_true_eq] at hre ⊢
          by_cases hroom : (readU32 entries 4).toNat < s1.maxFreeListEntries
          · obtain ⟨hs',hheader,hco⟩ := addLeaf_spec hs1 hca hb
            rw [if_pos hroom]
            refine ⟨_,rfl,hs',.leaf htrunk ?_ (hheader.trans hu.header) ?_⟩
            · rw [hent,← hmax]
              exact hroom
            · rw [hco,hsa]
          · obtain ⟨e,buf,he,hbuf⟩ := hasContents_iff.mp (hre.resolve_left hroom)
            obtain ⟨s',heq,hs',hheader,hco⟩ :=
              makeTrunk_spec hs1 he hbuf
            rw [if_neg hroom,he]
            refine ⟨s',heq,hs',.trunk ?_ ?_⟩
            · rw [hheader,hu.header]
            · rw [hco,hsa]

theorem readPage_countPage : s.countPage.readPage page load =
      ((s.readPage page load).1,(s.readPage page load).2.countPage) := by
  simp only [readPage,show s.countPage.cache = s.cache from rfl]
  cases s.cache page with
  | some entry => rfl
  | none => cases load page <;> rfl

theorem canLink_countPage : s.countPage.canLink page load = s.canLink page load := by
  rw [canLink,canLink,readPage_countPage,
    show s.countPage.header.freelistTrunkPage = s.header.freelistTrunkPage from rfl]
  cases s.readPage s.header.freelistTrunkPage.toNat load with
  | mk result s1 => cases result <;> rfl

/-- A call that meets the condition either ends in an error and changes nothing, or puts the page
into the freelist. -/
theorem freePage_cases (hs : s.Coherent) (hre : s.isReady c) :
    (∃ e s', s.freePage c = (.error e,s') ∧ s'.Coherent ∧ s.Unchanged s') ∨
      ∃ s1 s', s.freePage c = (.ok (),s') ∧ s'.Coherent ∧ s1.Coherent ∧ s.Unchanged s1 ∧
        s1.countPage.Linked c.pageId s' ∧ 2 ≤ c.pageId ∧
        c.pageId ≤ s.header.databaseSize.toNat := by
  obtain ⟨hu,hs1⟩ := getPage_unchanged hs
  rw [isReady] at hre
  rw [freePage]
  by_cases hva : c.pageId < 2 ∨ s.header.databaseSize.toNat < c.pageId
  · rw [if_pos hva]
    exact .inl ⟨_,s,rfl,hs,.refl s⟩
  · rw [if_neg hva]
    cases hget : s.getPage c with
    | mk result s1 =>
      rw [hget] at hre hu hs1
      cases result with
      | error e => exact .inl ⟨e,s1,rfl,hs1,hu⟩
      | ok entry =>
        have hli : s1.countPage.canLink c.pageId c.load := by
          have hheader : s1.header = s.header := hu.header
          rw [canLink_countPage]
          simp only [hheader,Bool.or_eq_true,decide_eq_true_eq] at hre
          exact hre.resolve_left hva
        have hco : s1.countPage.Coherent := hs1.withHeader rfl
        obtain ⟨s',heq,hs',hlin⟩ :=
          link_spec hco (fun e he => getPage_cached hget he) hli
        exact .inr ⟨s1,s',heq,hs',hs1,hu,hlin,by omega,by omega⟩

end

def leavesOf (entries : PageBytes) : List Nat :=
  (List.range (readU32 entries 4).toNat).map fun i => (readU32 entries (8 + i * 4)).toNat

structure Trunk where
  page : Nat
  leaves : List Nat

def Trunk.pages (t : Trunk) : List Nat :=
  t.page :: t.leaves

/-- Following the first word of each trunk ends, after these trunks. -/
inductive Chain (content : Nat → PageBytes) (capacity : Nat) : UInt32 → List Trunk → Prop where
  | nil : Chain content capacity 0 []
  | cons {page : UInt32} {trunks : List Trunk} (hpage : page ≠ 0)
      (hroom : (readU32 (content page.toNat) 4).toNat ≤ capacity)
      (hnext : Chain content capacity (readU32 (content page.toNat) 0) trunks) :
      Chain content capacity page (⟨page.toNat, leavesOf (content page.toNat)⟩ :: trunks)

/-- The chain of the header has each freed page exactly once and nothing else. -/
structure Accounts (s : PageStore) (freed : List Nat) (trunks : List Trunk) : Prop where
  chain : Chain s.content s.maxFreeListEntries s.header.freelistTrunkPage trunks
  once : (trunks.flatMap Trunk.pages).Nodup
  perm : (trunks.flatMap Trunk.pages).Perm freed
  counted : s.header.freelistPages.toNat = freed.length
  inside : ∀ page ∈ freed, 2 ≤ page ∧ page ≤ s.header.databaseSize.toNat

section
variable {s : PageStore}

variable {content : Nat → PageBytes}

theorem Chain.congr (h : Chain content capacity page trunks)
    (hsa : ∀ p ∈ trunks.flatMap Trunk.pages, content' p = content p) :
    Chain content' capacity page trunks := by
  induction h with
  | nil => exact .nil
  | @cons page trunks hpage hroom hnext ih =>
    have hhe := hsa page.toNat
      (mem_flatMap.mpr ⟨_,mem_cons_self,mem_cons_self⟩)
    have hta := ih fun p hp => hsa p (mem_append_right _ hp)
    rw [← hhe] at hroom hta ⊢
    exact .cons hpage hroom hta

variable {page : Nat}

theorem Chain.update (h : Chain content capacity first trunks)
    (hnot : page ∉ trunks.flatMap Trunk.pages) (buf : PageBytes) :
    Chain (update content page buf) capacity first trunks := by
  refine h.congr fun p hp => ?_
  have hne : p ≠ page := fun hpp => hnot (hpp ▸ hp)
  exact update_of_ne hne _ _

theorem Chain.first {page : UInt32} (h : Chain content capacity page trunks) (hpage : page ≠ 0) :
    ∃ rest, trunks = ⟨page.toNat,leavesOf (content page.toNat)⟩ :: rest ∧
      Chain content capacity (readU32 (content page.toNat) 0) rest := by
  cases h with
  | nil => exact absurd rfl hpage
  | cons _ hroom hnext => exact ⟨_,rfl,hnext⟩

theorem withLeaf_spec {entries : PageBytes} (hpage : page < 2 ^ 32)
    (h : 8 + (readU32 entries 4).toNat * 4 + 4 ≤ entries.length) (hlen : entries.length < 2 ^ 32) :
    (readU32 (withLeaf entries page) 4).toNat = (readU32 entries 4).toNat + 1 ∧
      leavesOf (withLeaf entries page) = leavesOf entries ++ [page] := by
  have hco : (readU32 (withLeaf entries page) 4).toNat = (readU32 entries 4).toNat + 1 := by
    rw [withLeaf,readU32_writeU32_apart _ (by omega),readU32_writeU32 _ (by omega),UInt32.toNat_add]
    exact Nat.mod_eq_of_lt (show (readU32 entries 4).toNat + 1 < 2 ^ 32 by omega)
  have hlast : (readU32 (withLeaf entries page) (8 + (readU32 entries 4).toNat * 4)).toNat = page := by
    rw [withLeaf,readU32_writeU32 _ (by rw [length_writeU32]; omega)]
    simpa using Nat.mod_eq_of_lt hpage
  have hold : (List.range (readU32 entries 4).toNat).map
      (fun i => (readU32 (withLeaf entries page) (8 + i * 4)).toNat) = leavesOf entries := by
    refine map_congr_left fun i hi => ?_
    have hi := mem_range.mp hi
    rw [withLeaf,readU32_writeU32_apart _ (by omega),readU32_writeU32_apart _ (by omega)]
  refine ⟨hco,?_⟩
  rw [leavesOf,hco,range_succ,map_append,hold,map_singleton,hlast]

theorem readU32_withLeaf_next : readU32 (withLeaf entries page) 0 = readU32 entries 0 := by
  rw [withLeaf,readU32_writeU32_apart _ (by omega),readU32_writeU32_apart _ (by omega)]

theorem trunkWords_spec (next : UInt32) (h : 8 ≤ buf.length) :
    readU32 (trunkWords buf next) 0 = next ∧ leavesOf (trunkWords buf next) = [] ∧
      readU32 (trunkWords buf next) 4 = 0 := by
  have hco : readU32 (trunkWords buf next) 4 = 0 := by
    rw [trunkWords,readU32_writeU32 _ (by rw [length_writeU32]; omega)]
  refine ⟨?_,?_,hco⟩
  · rw [trunkWords,readU32_writeU32_apart _ (by omega),readU32_writeU32 _ (by omega)]
  · simp [leavesOf,hco]

theorem Accounts.start (hs : s.header.freelistTrunkPage = 0) (hp : s.header.freelistPages = 0) :
    s.Accounts [] [] where
  chain := hs ▸ .nil
  once := nodup_nil
  perm := .nil
  counted := by simp [hp]
  inside := by simp

/-- The accounts are of the header and the contents of the pages. -/
theorem Accounts.congr {s' : PageStore} (h : s.Accounts freed trunks) (hheader : s'.header = s.header)
    (hco : ∀ page, s'.content page = s.content page) : s'.Accounts freed trunks := by
  have hmax : s'.maxFreeListEntries = s.maxFreeListEntries := by
    rw [maxFreeListEntries,usableSize,hheader]
    rfl
  refine ⟨?_,h.once,h.perm,by rw [hheader,h.counted],by rw [hheader]; exact h.inside⟩
  rw [hmax,hheader]
  exact h.chain.congr fun page _ => hco page

/-- There is always room in the counter for one more page. -/
theorem Accounts.count (h : s.Accounts freed trunks) (hnew : page ∉ freed)
    (hin : 2 ≤ page ∧ page ≤ s.header.databaseSize.toNat) :
    s.countPage.header.freelistPages.toNat = (page :: freed).length := by
  have hno : (page :: freed).Nodup := nodup_cons.mpr ⟨hnew,h.perm.nodup_iff.mp h.once⟩
  have hsub : page :: freed ⊆ List.range' 2 (s.header.databaseSize.toNat - 1) := by
    intro p hp
    have hp' : 2 ≤ p ∧ p ≤ s.header.databaseSize.toNat := by
      rcases mem_cons.mp hp with rfl | hp
      · exact hin
      · exact h.inside p hp
    rw [mem_range'_1]
    omega
  have hlen := hno.length_le_of_subset hsub
  rw [length_range'] at hlen
  have hsi := s.header.databaseSize.toNat_lt
  rw [countPage,UInt32.toNat_add,h.counted]
  exact Nat.mod_eq_of_lt (show freed.length + 1 < 2 ^ 32 by rw [length_cons] at hlen; omega)

theorem page_notMem_rest (h : ((t :: trunks).flatMap Trunk.pages).Nodup) :
    t.page ∉ trunks.flatMap Trunk.pages := fun hp =>
  (nodup_cons.mp h).1 (mem_append_right _ hp)

theorem pages_addLeaf (h : ((t :: trunks).flatMap Trunk.pages).Perm freed) (page : Nat) :
    ((⟨t.page,t.leaves ++ [page]⟩ :: trunks).flatMap Trunk.pages).Perm (page :: freed) := by
  refine List.Perm.trans ?_ (h.cons page)
  simp only [flatMap_cons,Trunk.pages,cons_append,append_assoc]
  exact (perm_middle.cons _).trans (.swap ..)

theorem Chain.newTrunk {first : UInt32} (hs : s.Coherent)
    (h : Chain s.content capacity first trunks) (hpage : (ofNat page).toNat = page)
    (hpos : 0 < page) (hnot : page ∉ trunks.flatMap Trunk.pages) :
    Chain (Function.update s.content page (trunkWords (s.content page) first)) capacity
      (ofNat page) (⟨page,[]⟩ :: trunks) := by
  have hlen : 8 ≤ (s.content page).length := by
    have := hs.pageSize
    rw [hs.length_content]
    omega
  obtain ⟨hnext,hle,hze⟩ := trunkWords_spec first hlen
  have hne : ofNat page ≠ 0 := by
    intro hze
    rw [hze] at hpage
    exact Nat.ne_of_lt hpos hpage
  have hta := h.update hnot (trunkWords (s.content page) first)
  generalize hco : Function.update s.content page _ = content at hta ⊢
  have hse : content (ofNat page).toNat = trunkWords (s.content page) first := by
    rw [hpage,← hco,update_self]
  have hcon : Chain content capacity (ofNat page) (⟨_,leavesOf (content _)⟩ :: trunks) :=
    .cons hne (by rw [hse,hze]; exact Nat.zero_le _) (by rw [hse,hnext]; exact hta)
  rwa [hse,hle,hpage] at hcon

theorem Chain.newLeaf {first : UInt32} (hs : s.Coherent)
    (h : Chain s.content capacity (readU32 (s.content first.toNat) 0) rest) (hfirst : first ≠ 0)
    (hroom : (readU32 (s.content first.toNat) 4).toNat < capacity)
    (hcap : 4 * capacity + 8 ≤ s.header.getPageSize) (hpage : page < 2 ^ 32)
    (hnot : first.toNat ∉ rest.flatMap Trunk.pages) :
    Chain (Function.update s.content first.toNat (withLeaf (s.content first.toNat) page)) capacity
      first (⟨first.toNat,leavesOf (s.content first.toNat) ++ [page]⟩ :: rest) := by
  have hlen := hs.length_content first.toNat
  have hmax : s.header.getPageSize ≤ 65536 := s.header.getPageSize_le
  have hbo : 8 + (readU32 (s.content first.toNat) 4).toNat * 4 + 4 ≤
    (s.content first.toNat).length := by omega
  have hsh : (s.content first.toNat).length < 2 ^ 32 := by omega
  obtain ⟨hco,hle⟩ := withLeaf_spec hpage hbo hsh
  have hta := h.update hnot (withLeaf (s.content first.toNat) page)
  generalize hcon : Function.update s.content first.toNat _ = content at hta ⊢
  have hse : content first.toNat = withLeaf (s.content first.toNat) page := by
    rw [← hcon,update_self]
  have hcons : Chain content capacity first (⟨_,leavesOf (content _)⟩ :: rest) :=
    .cons hfirst (by rw [hse,hco]; exact hroom) (by rw [hse,readU32_withLeaf_next]; exact hta)
  rwa [hse,hle] at hcons

theorem Accounts.linked (h : s.Accounts freed trunks) (hs : s.Coherent) (hnew : page ∉ freed)
    (hin : 2 ≤ page ∧ page ≤ s.header.databaseSize.toNat) (hli : s.countPage.Linked page s') :
    ∃ trunks', s'.Accounts (page :: freed) trunks' := by
  have hco := h.count hnew hin
  have hins : ∀ p ∈ page :: freed, 2 ≤ p ∧ p ≤ s.header.databaseSize.toNat := by
    intro p hp
    rcases mem_cons.mp hp with rfl | hp
    · exact hin
    · exact h.inside p hp
  have hnot : page ∉ trunks.flatMap Trunk.pages := fun hp => hnew (h.perm.subset hp)
  have hwo : page < 2 ^ 32 := Nat.lt_of_le_of_lt hin.2 s.header.databaseSize.toNat_lt
  cases hli with
  | trunk header content =>
    have hpage : (ofNat page).toNat = page := by simpa using Nat.mod_eq_of_lt hwo
    refine ⟨⟨page,[]⟩ :: trunks,?_,nodup_cons.mpr ⟨hnot,h.once⟩,h.perm.cons page,
      by rw [header,← hco],by rw [header]; exact hins⟩
    rw [maxFreeListEntries,usableSize,header,content]
    exact Chain.newTrunk (s := s) hs h.chain hpage (by omega) hnot
  | leaf htrunk hroom header content =>
    obtain ⟨rest,rfl,hre⟩ := h.chain.first htrunk
    have hpa := pages_addLeaf h.perm page
    have hno : (page :: freed).Nodup := nodup_cons.mpr ⟨hnew,h.perm.nodup_iff.mp h.once⟩
    have hres := page_notMem_rest h.once
    have hcap : 4 * s.maxFreeListEntries + 8 ≤ s.header.getPageSize := by
      have hsi := hs.pageSize
      rw [maxFreeListEntries,usableSize]
      omega
    refine ⟨_,?_,hpa.nodup_iff.mpr hno,hpa,by rw [header,← hco],by rw [header]; exact hins⟩
    rw [maxFreeListEntries,usableSize,header,content]
    exact Chain.newLeaf (s := s) hs hre htrunk hroom hcap hwo hres

end

def freedBy : Except LimboError Unit → Nat → List Nat → List Nat
  | .ok (), page, freed => page :: freed
  | .error _, _, freed => freed

/-- Calls of `free_page` on pages that are not free yet, with anything else in between. -/
inductive Run (guard : PageStore → FreeCall → Prop) (start : PageStore) :
    List Nat → PageStore → Prop where
  | start : Run guard start [] start
  | free {freed : List Nat} {s : PageStore} (c : FreeCall) (hrun : Run guard start freed s)
      (hguard : guard s c) (hnew : c.pageId ∉ freed) :
      Run guard start (freedBy (s.freePage c).1 c.pageId freed) (s.freePage c).2
  | quiet {freed : List Nat} {s s' : PageStore} (hrun : Run guard start freed s)
      (hquiet : s.Quiet s') : Run guard start freed s'

/-- No page is free yet. -/
structure Unfreed (s : PageStore) : Prop where
  coherent : s.Coherent
  trunk : s.header.freelistTrunkPage = 0
  pages : s.header.freelistPages = 0

theorem Run.keeps {start s : PageStore} (hst : start.Unfreed)
    (hrun : Run (fun s c => s.isReady c) start freed s) :
    s.Coherent ∧ ∃ trunks, s.Accounts freed trunks := by
  induction hrun with
  | start => exact ⟨hst.coherent,[],.start hst.trunk hst.pages⟩
  | quiet hrun hquiet ih =>
    obtain ⟨hs,trunks,hac⟩ := ih
    obtain ⟨hheader,hco,hs'⟩ := hquiet.keeps hs
    exact ⟨hs',trunks,hac.congr hheader hco⟩
  | free c hrun hguard hnew ih =>
    obtain ⟨hs,trunks,hac⟩ := ih
    rcases freePage_cases hs hguard with ⟨e,s',heq,hs',hu⟩ |
      ⟨s1,s',heq,hs',hs1,hu,hli,hlo,hhi⟩
    · rw [heq]
      exact ⟨hs',trunks,hac.congr hu.header hu.content⟩
    · have hin : 2 ≤ c.pageId ∧ c.pageId ≤ s1.header.databaseSize.toNat := by
        rw [hu.header]
        exact ⟨hlo,hhi⟩
      rw [heq]
      exact ⟨hs',(hac.congr hu.header hu.content).linked hs1 hnew hin hli⟩

/-- Where every call that gets as far as the counter finds the trunk readable and the page loaded,
the chain of the header has each freed page once and nothing else, and a call that fails changes
nothing. -/
theorem freelist_accounts_for_freed {start s : PageStore} {freed : List Nat}
    (hstart : start.Unfreed) (hrun : Run (fun s c => s.isReady c) start freed s) :
    (∃ trunks, s.Accounts freed trunks) ∧ ∀ c e s', s.isReady c →
      s.freePage c = (.error e, s') → s.Unchanged s' := by
  obtain ⟨hs,hac⟩ := hrun.keeps hstart
  refine ⟨hac,fun c e s' hre herr => ?_⟩
  rcases freePage_cases hs hre with ⟨e',s₁,heq,_,hu⟩ | ⟨_,s₁,heq,_⟩
  · rw [herr] at heq
    cases heq
    exact hu
  · rw [herr] at heq
    cases heq

/-- Ten pages of 512 bytes, none of them cached. -/
def tenPages : PageStore where
  header := { DatabaseHeader.default with pageSize := 512, databaseSize := 10 }
  cache _ := none
  dirtyPages := []
  stored _ := .replicate 512 0

theorem tenPages_unfreed : tenPages.Unfreed where
  coherent := ⟨by decide,fun _ => length_replicate,fun h => (by cases h),fun h => (by cases h)⟩
  trunk := rfl
  pages := rfl

def freed (s : PageStore) (page : Nat) : PageStore :=
  (s.freePage ⟨none, page, fun _ => .finished []⟩).2

/-- The second page becomes a leaf of the first. -/
theorem loadedPages_freed : ∃ trunks, ((tenPages.freed 5).freed 6).Accounts [6,5] trunks :=
  (freelist_accounts_for_freed tenPages_unfreed (.free ⟨none,6,fun _ => .finished []⟩
    (.free ⟨none,5,fun _ => .finished []⟩ .start (by decide) (by decide)) (by decide +kernel) (by decide))).1

/-- A page that is still being read cannot become a trunk, but it is counted. -/
theorem unloadedPage_counted : ∃ e s', tenPages.freePage ⟨none, 5, fun _ => .pending false []⟩ =
    (.error e, s') ∧ s'.header ≠ tenPages.header ∧ ∀ trunks, ¬ s'.Accounts [] trunks := by
  refine ⟨_,_,rfl,by decide,fun trunks h => ?_⟩
  have hco := h.counted
  cases hco

end PageStore

end OxiSql.Storage
