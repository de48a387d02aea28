import OxiSql.Ondisk.Cell
import OxiSql.Lib.Results

namespace OxiSql.Ondisk
open Lib List PageContent

/-- The thresholds of a page of a legal size are far enough apart. -/
structure Thresholds (max min usableSize : Nat) : Prop where
  apart : min + 4 ≤ max
  room : 8 < usableSize

theorem sub_eq_ok (h : sub a b = .ok d) : b ≤ a ∧ d = a - b := by
  unfold sub at h
  split at h
  · cases h
  · cases h
    omega

theorem scaledThreshold_eq (h : scaledThreshold usableSpace factor = .ok n) :
    12 ≤ usableSpace ∧ 23 ≤ (usableSpace - 12) * factor / 255 ∧ n = (usableSpace - 12) * factor / 255 - 23 := by
  obtain ⟨d,hd,h⟩ := bind_ok h
  obtain ⟨hle,rfl⟩ := sub_eq_ok hd
  have := sub_eq_ok h
  omega

variable {max min : Nat} {pageType : PageType}

theorem thresholds_of_ok (hu : 480 ≤ usableSize) (hmax : payloadOverflowThresholdMax pageType usableSize = .ok max)
    (hmin : payloadOverflowThresholdMin usableSize = .ok min) : Thresholds max min usableSize := by
  obtain ⟨-,-,rfl⟩ := scaledThreshold_eq hmin
  refine ⟨?_,by omega⟩
  cases pageType with
  | indexInterior | indexLeaf =>
    obtain ⟨-,-,rfl⟩ := scaledThreshold_eq hmax
    omega
  | tableInterior | tableLeaf =>
    obtain ⟨-,rfl⟩ := sub_eq_ok hmax
    omega

theorem spaceOnPage_spec (ht : Thresholds max min usableSize) (hlen : max < len)
    (hn : spaceOnPage len max min usableSize = .ok n) : n ≤ max ∧ n + 4 < len := by
  have hap := ht.apart
  have hroom := ht.room
  have hab : sub len min = .ok (len - min) := if_neg (by omega)
  have hcap : sub usableSize 4 = .ok (usableSize - 4) := if_neg (by omega)
  have hrem : rem (len - min) (usableSize - 4) = .ok ((len - min) % (usableSize - 4)) :=
    if_neg (by omega)
  have hsp : spaceOnPage len max min usableSize = .ok (if max < min + (len - min) % (usableSize - 4) then min
        else min + (len - min) % (usableSize - 4)) := by
    simp [spaceOnPage,hab,hcap,hrem,bind,Except.bind]
  obtain rfl := Except.ok.inj (hsp.symm.trans hn)
  split
  · omega
  · -- at least one overflow page is full, so it holds more than a pointer
    have hdiv := Nat.div_add_mod (len - min) (usableSize - 4)
    have hpos : 0 < (len - min) / (usableSize - 4) := by
      by_contra hze
      have hq : (len - min) / (usableSize - 4) = 0 := Nat.eq_zero_of_not_pos hze
      rw [hq] at hdiv
      omega
    have hmul : usableSize - 4 ≤ (usableSize - 4) * ((len - min) / (usableSize - 4)) :=
      Nat.le_mul_of_pos_right _ hpos
    omega

/-- The bytes a cell has after its varints. -/
inductive Body (record : List UInt8) (max min usableSize : Nat) :
    List UInt8 → Option UInt32 → Nat → Prop where
  | whole (pad : List UInt8) (h : record.length ≤ max) :
      Body record max min usableSize (record ++ pad) none record.length
  | part (n : Nat) (first : UInt32) (h : max < record.length)
      (hn : spaceOnPage record.length max min usableSize = .ok n) :
      Body record max min usableSize (record.take n ++ u32Be first) (some first) n

section

variable (hb : Body record max min usableSize body first n)
include hb

variable (ht : Thresholds max min usableSize)
include ht

theorem Body.readCellPayload (pre post : List UInt8) :
    readCellPayload (pre ++ (body ++ post)) pre.length record.length max min usableSize =
      .ok (record.take n,first) := by
  cases hb with
  | whole pad h =>
    have hsub : sub (pre ++ (record ++ pad ++ post)).length pre.length =
        .ok ((record ++ pad ++ post).length) := by
      rw [sub,length_append,if_neg (by omega),Nat.add_sub_cancel_left]
    have hsl : slice (pre ++ (record ++ pad ++ post)) pre.length
        (record ++ pad ++ post).length = .ok (record ++ pad ++ post) := by
      rw [slice,length_append,if_neg (by omega),drop_left,take_length]
    simp only [Ondisk.readCellPayload,payloadOverflows,if_pos h,bind,Except.bind,hsub,hsl]
    rw [readPayload]
    simp
  | part n first h hn =>
    obtain ⟨hle,hlt⟩ := spaceOnPage_spec ht h hn
    have hta : (record.take n).length = n := length_take_of_le (by omega)
    have hbo : (record.take n ++ u32Be first).length = n + 4 := by
      rw [length_append,hta,length_u32Be]
    have hsl : slice (pre ++ (record.take n ++ u32Be first ++ post)) pre.length (n + 4) =
        .ok (record.take n ++ u32Be first) := by
      rw [slice,length_append,length_append,if_neg (by omega),drop_left,take_left' hbo]
    have hre : readU32At (record.take n ++ u32Be first) n = .ok first := by
      have := readU32At_append (record.take n) first []
      rwa [hta] at this
    simp only [Ondisk.readCellPayload,payloadOverflows,if_neg (by omega : ¬ record.length ≤ max),
      hn,bind,Except.bind,if_true,hsl]
    rw [if_neg (by simp only [length_append,length_u32Be]; omega),readPayload,
      if_neg (by omega),if_neg (by omega),hbo,Nat.add_sub_cancel]
    simp [hre,bind,Except.bind,take_left' hta]

theorem Body.rawLength (counted : Nat) : ∃ len, rawLength counted record.length max min usableSize = .ok len ∧
      (first = none → len = record.length + counted) ∧
      (first ≠ none → len = body.length + counted) := by
  cases hb with
  | whole pad h =>
    refine ⟨record.length + counted,?_,fun _ => rfl,fun hne => absurd rfl hne⟩
    simp [rawLength,payloadOverflows,if_pos h,bind,Except.bind]
  | part n first h hn =>
    obtain ⟨hle,hlt⟩ := spaceOnPage_spec ht h hn
    refine ⟨n + 4 + counted,?_,(by simp),fun _ => ?_⟩
    · simp [rawLength,payloadOverflows,if_neg (by omega : ¬ record.length ≤ max),hn,bind,Except.bind]
    · rw [length_append,length_take,length_u32Be]
      omega

end

theorem spill_eq (h : spill usableSpace pageSize ids rest = .ok (first,pages)) (hne : rest ≠ []) :
    ∃ id ids' next pages', ids = id :: ids' ∧
      spill usableSpace pageSize ids' (rest.drop (usableSpace - 4)) = .ok (next,pages') ∧
      first = id ∧ pages = (id,u32Be next ++ (rest.take (usableSpace - 4) ++
        List.replicate (pageSize - 4 - (rest.take (usableSpace - 4)).length) 0)) :: pages' := by
  obtain ⟨b,rest,rfl⟩ := exists_cons_of_ne_nil hne
  cases ids with
  | nil => cases h
  | cons id ids =>
    obtain ⟨⟨next,pages'⟩,hnext,h⟩ := bind_ok h
    cases h
    exact ⟨_,ids,next,pages',rfl,hnext,rfl,rfl⟩

theorem spill_nil (h : spill usableSpace pageSize ids [] = .ok (first,pages)) : first = 0 := by
  cases ids <;> cases h <;> rfl

theorem overflow_read (hroom : 8 < usableSpace) (hids : ∀ id ∈ ids, id ≠ 0) (hne : rest ≠ [])
    (h : spill usableSpace pageSize ids rest = .ok (first,pages))
    (hre : ∀ x ∈ pages, readPage x.1 = .ok x.2) (payload : List UInt8) : ∃ page, readPage first = .ok page ∧
      Ends (overflowTurn readPage usableSpace) ⟨payload,rest.length,page⟩ (.ok (payload ++ rest)) := by
  induction ids generalizing rest first pages payload with
  | nil =>
    obtain ⟨id,ids',next,pages',hid,-⟩ := spill_eq h hne
    cases hid
  | cons id ids ih =>
    obtain ⟨id',ids',next,pages',hco,hnext,rfl,rfl⟩ := spill_eq h hne
    obtain ⟨rfl,rfl⟩ := List.cons.inj hco
    refine ⟨_,hre _ (.head _),?_⟩
    generalize hcap : usableSpace - 4 = capacity at *
    have hsub : sub usableSpace 4 = .ok capacity := by
      rw [sub,if_neg (by omega),hcap]
    have hta : (rest.take capacity).length = min rest.length capacity := by
      rw [length_take,Nat.min_comm]
    have hwo := readU32At_append [] next (rest.take capacity ++
      List.replicate (pageSize - 4 - (rest.take capacity).length) 0)
    have hsl : slice (u32Be next ++ (rest.take capacity ++
        List.replicate (pageSize - 4 - (rest.take capacity).length) 0)) 4
          (min rest.length capacity) = .ok (rest.take capacity) := by
      rw [slice,if_neg (by simp only [length_append,length_u32Be]; omega),
        drop_left' (length_u32Be next),take_left' hta]
    have hle : rest.length - min rest.length capacity = (rest.drop capacity).length := by
      rw [length_drop]
      omega
    rw [nil_append,length_nil] at hwo
    by_cases hlast : rest.drop capacity = []
    · obtain rfl : next = 0 := spill_nil (by rw [hlast] at hnext; exact hnext)
      have hall : rest.take capacity = rest := by
        rw [← append_nil (rest.take capacity),← hlast,take_append_drop]
      apply Ends.done
      simp only [overflowTurn,overflowStep,hwo,hsub,hsl,hle,hlast,bind,Except.bind]
      simp [require,hall]
    · have hlen : (rest.drop capacity).length ≠ 0 := mt length_eq_zero_iff.mp hlast
      obtain ⟨page,hpage,hen⟩ := ih (fun i hi => hids i (.tail _ hi)) hlast hnext
        (fun x hx => hre x (.tail _ hx)) (payload ++ rest.take capacity)
      obtain ⟨id'',ids'',-,-,hids',-,hfirst,-⟩ := spill_eq hnext hlast
      have hno : next ≠ 0 := by
        rw [hfirst]
        exact hids _ (.tail _ (by rw [hids']; exact .head _))
      rw [append_assoc,take_append_drop] at hen
      refine Ends.again ?_ hen
      simp only [overflowTurn,overflowStep,hwo,hsub,hsl,hle,hpage,bind,Except.bind]
      rw [if_pos ⟨hlen,hno⟩]

theorem require_ok (h : require condition message = .ok u) : condition = true := by
  unfold require at h
  split at h
  · assumption
  · cases h

/-- What `fill_cell_payload` puts together. -/
structure Built (pageType : PageType) (key : Option Int64) (record : List UInt8)
    (max min usableSpace pageSize : Nat) (ids : List UInt32) (cell : List UInt8)
    (chain : List (UInt32 × List UInt8)) (start body : List UInt8) (first : Option UInt32)
    (n : Nat) : Prop where
  leaf : pageType = .tableLeaf ∨ pageType = .indexLeaf
  start_eq : cellStart pageType key record.length = .ok start
  cell_eq : cell = start ++ body
  body_eq : Body record max min usableSpace body first n
  padded : first = none → cell.length = Nat.max (record.length + start.length) minimumCellSize
  spilled : ∀ page, first = some page →
    spill usableSpace pageSize ids (record.drop n) = .ok (page, chain)

theorem fillCellPayload_built
    (h : fillCellPayload pageType key record usableSpace pageSize ids = .ok (cell,chain))
    (hmax : payloadOverflowThresholdMax pageType usableSpace = .ok max)
    (hmin : payloadOverflowThresholdMin usableSpace = .ok min) :
    ∃ start body first n, Built pageType key record max min usableSpace pageSize ids cell chain
      start body first n := by
  obtain ⟨u,hlea,h⟩ := bind_ok h
  obtain ⟨start,hst,h⟩ := bind_ok h
  rw [hmax] at h
  have hlea := of_decide_eq_true (require_ok hlea)
  by_cases hle : record.length ≤ max
  · simp only [bind,Except.bind,if_pos hle] at h
    cases h
    refine ⟨start,_,none,_,hlea,hst,append_assoc ..,.whole _ hle,?_,nofun⟩
    simp only [length_append,length_replicate,Nat.max_def]
    split <;> omega
  · simp only [bind,Except.bind,if_neg hle,hmin] at h
    obtain ⟨n,hn,h⟩ := bind_ok h
    obtain ⟨⟨first,pages⟩,hsp,h⟩ := bind_ok h
    cases h
    refine ⟨start,_,some first,n,hlea,hst,rfl,.part n first (by omega) hn,nofun,?_⟩
    intro page hpage
    cases hpage
    exact hsp

def leafCell (pageType : PageType) (key : Option Int64) (payload : List UInt8) (payloadSize : Nat)
    (firstOverflowPage : Option UInt32) : BTreeCell :=
  match pageType with
  | .tableLeaf => .tableLeaf (key.getD 0) payload payloadSize firstOverflowPage
  | _ => .indexLeaf payload payloadSize firstOverflowPage

theorem ofNat_toUInt64_toNat : Int64.ofNat key.toUInt64.toNat = key := by
  rw [← Int64.toInt64_toUInt64 (Int64.ofNat key.toUInt64.toNat),Int64.toUInt64_ofNat',
    UInt64.ofNat_toNat,Int64.toInt64_toUInt64]

section
variable {record : List UInt8} {first : Option UInt32}

theorem cellStart_leaf (hle : pageType = .tableLeaf ∨ pageType = .indexLeaf)
    (h : cellStart pageType key record.length = .ok start) : (∃ k, pageType = .tableLeaf ∧ key = some k ∧
      start = writeVarint record.length ++ writeVarint k.toUInt64.toNat) ∨
    (pageType = .indexLeaf ∧ start = writeVarint record.length) := by
  rcases hle with rfl | rfl
  · cases key with
    | none => cases h
    | some k =>
      cases h
      exact .inl ⟨k,rfl,rfl,rfl⟩
  · cases h
    exact .inr ⟨rfl,rfl⟩

theorem Built.readBtreeCell
    (hb : Built pageType key record max min usableSpace pageSize ids cell chain start body first n)
    (ht : Thresholds max min usableSpace) (hvec : record.length < 2 ^ 63) (pre post : List UInt8) :
    readBtreeCell (pre ++ (cell ++ post)) pageType pre.length max min usableSpace =
      .ok (leafCell pageType key (record.take n) record.length first) := by
  have hlen := readVarint_writeVarint (v := record.length) (by omega)
  rw [hb.cell_eq]
  rcases cellStart_leaf hb.leaf hb.start_eq with ⟨k,rfl,rfl,hst⟩ | ⟨rfl,hst⟩
  · have hkey := readVarint_writeVarint k.toUInt64.toNat_lt
    have hfst := sliceFrom_append pre (start ++ body ++ post)
    have hsnd := sliceFrom_append (pre ++ writeVarint record.length)
    have hpa := hb.body_eq.readCellPayload ht (pre ++ start) post
    simp only [hst,append_assoc,length_append] at hfst hsnd hpa ⊢
    rw [Ondisk.readBtreeCell,if_neg (by rw [length_append]; omega)]
    simp [hfst,hsnd,hlen,hkey,bind,Except.bind,Nat.add_assoc,hpa,leafCell,ofNat_toUInt64_toNat]
  · have hfst := sliceFrom_append pre (start ++ body ++ post)
    have hpa := hb.body_eq.readCellPayload ht (pre ++ start) post
    simp only [hst,append_assoc,length_append] at hfst hpa ⊢
    rw [Ondisk.readBtreeCell,if_neg (by rw [length_append]; omega)]
    simp [hfst,hlen,bind,Except.bind,hpa,leafCell]

end

/-- The page has the cell's bytes at `pos`, which is what the slot `idx` points to. -/
structure Placed (p : PageContent) (pageType : PageType) (idx pos : Nat) (cell : List UInt8) :
    Prop where
  type_eq : p.validateBtreePageType = .ok pageType
  counted : ∃ ncells, p.cellCount = .ok ncells ∧ idx < ncells
  pointer : p.readU16 (pageType.headerSize + idx * 2) = .ok pos
  bytes : ∃ pre post, p.buffer = pre ++ (cell ++ post) ∧ pre.length = pos

theorem index_lt (h : index buf i = .ok b) : i < buf.length := by
  unfold index at h
  cases hi : buf[i]? with
  | none => simp [hi] at h
  | some c => exact (List.getElem?_eq_some_iff.mp hi).1

theorem readU16At_le (h : readU16At buf pos = .ok n) : pos + 2 ≤ buf.length := by
  obtain ⟨b0,h0,h⟩ := bind_ok h
  obtain ⟨b1,h1,h⟩ := bind_ok h
  exact index_lt h1

theorem headerSize_of_type {p : PageContent}
    (h : p.validateBtreePageType = .ok pageType) : p.headerSize = .ok pageType.headerSize := by
  obtain ⟨b,hb,h⟩ := bind_ok h
  simp [PageContent.headerSize,PageContent.pageType,hb,h,bind,Except.bind]

theorem Placed.cellGet (hp : Placed p pageType idx pos cell) (max min usableSize : Nat) :
    p.cellGet idx max min usableSize = readBtreeCell p.buffer pageType pos max min usableSize := by
  obtain ⟨ncells,hco,hidx⟩ := hp.counted
  have hsl := readU16At_le hp.pointer
  simp only [PageContent.cellGet,hp.type_eq,hco,headerSize_of_type hp.type_eq,bind,Except.bind]
  rw [if_neg (by omega),if_neg (by omega),hp.pointer]

theorem Built.length_cell
    {first : Option UInt32}
    (hb : Built pageType key record max min usableSpace pageSize ids cell chain start body first n)
    (ht : Thresholds max min usableSpace) :
    ∃ len, rawLength start.length record.length max min usableSpace = .ok len ∧
      cell.length = Nat.max len minimumCellSize := by
  obtain ⟨len,hraw,hwh,hpa⟩ := hb.body_eq.rawLength ht start.length
  refine ⟨len,hraw,?_⟩
  cases first with
  | none => rw [hwh rfl,hb.padded rfl]
  | some page =>
    have h4 : 4 ≤ body.length := by
      cases hb.body_eq with
      | part n first h hn => simp
    rw [hpa nofun,hb.cell_eq,length_append,Nat.add_comm body.length]
    exact (Nat.max_eq_left (by unfold minimumCellSize; omega)).symm

/-- The region of a placed cell, its bytes before the payload read already. -/
theorem Placed.rawRegion
    {first : Option UInt32}
    (hp : Placed p pageType idx pos cell)
    (hb : Built pageType key record max min usableSpace pageSize ids cell chain start body first n)
    (ht : Thresholds max min usableSpace) (hvec : record.length < 2 ^ 63) :
    p.cellGetRawRegion idx max min usableSpace = .ok (pos,cell.length) := by
  obtain ⟨ncells,hco,hidx⟩ := hp.counted
  obtain ⟨pre,post,hbuf,rfl⟩ := hp.bytes
  obtain ⟨len,hraw,hlen⟩ := hb.length_cell ht
  have hsl := readU16At_le hp.pointer
  have h4 : 4 ≤ cell.length := by
    rw [hlen]
    exact Nat.le_max_right ..
  have hpo : p.readU16NoOffset (p.offset + pageType.headerSize + idx * 2) = .ok pre.length := by
    rw [Nat.add_assoc]
    exact hp.pointer
  have hvar := readVarint_writeVarint (v := record.length) (by omega)
  simp only [cellGetRawRegion,hp.type_eq,hco,headerSize_of_type hp.type_eq,bind,Except.bind]
  rw [if_neg (by omega),if_neg (by omega),hpo]
  simp only
  rw [if_neg (by rw [hbuf,length_append,length_append]; omega),hlen]
  rcases cellStart_leaf hb.leaf hb.start_eq with ⟨k,rfl,rfl,hst⟩ | ⟨rfl,hst⟩
  · have hkey := readVarint_writeVarint k.toUInt64.toNat_lt
    have hfst := sliceFrom_append pre (start ++ body ++ post)
    have hsnd := sliceFrom_append (pre ++ writeVarint record.length)
    simp only [hst,append_assoc,length_append] at hfst hsnd hraw
    simp only [hbuf,hb.cell_eq,hst,append_assoc] at hfst ⊢
    simp [hfst,hsnd,hvar,hkey,hraw]
  · have hfst := sliceFrom_append pre (start ++ body ++ post)
    simp only [hst] at hraw
    simp only [hbuf,hb.cell_eq,hst,append_assoc] at hfst ⊢
    simp [hfst,hvar,hraw]

/-- A page of at most 65536 bytes, of which at least 480 are for cells. -/
structure LegalSize (pageSize usableSize : Nat) : Prop where
  page_le : pageSize ≤ 65536
  usable_le : usableSize ≤ pageSize
  usable_ge : 480 ≤ usableSize

/-- A usable size whose thresholds can be reckoned has 16 bits. -/
theorem usable_mod (hleg : LegalSize pageSize usableSize)
    (hmax : payloadOverflowThresholdMax pageType (usableSize % 65536) = .ok max) :
    usableSize % 65536 = usableSize := by
  have hle := hleg.page_le
  have hus := hleg.usable_le
  by_cases h : usableSize = 65536
  · subst h
    cases pageType <;> cases hmax
  · exact Nat.mod_eq_of_lt (by omega)

/-- A cell that was built and placed is found with its length, its rowid, its size and the part of
its payload that is on the page, and the rest of the payload follows from the overflow pages. -/
theorem cell_round_trip {pageType : PageType} {key : Option Int64} {record cell : List UInt8}
    {chain : List (UInt32 × List UInt8)} {pageSize usableSize max min idx pos : Nat}
    {ids : List UInt32} {p : PageContent} {readPage : UInt32 → Except Fault (List UInt8)}
    (hlegal : LegalSize pageSize usableSize) (hvec : record.length < 2 ^ 63)
    (hfill : fillCellPayload pageType key record (usableSize % 65536) pageSize ids = .ok (cell, chain))
    (hids : ∀ id ∈ ids, id ≠ 0) (hread : ∀ x ∈ chain, readPage x.1 = .ok x.2)
    (hplaced : Placed p pageType idx pos cell)
    (hmax : payloadOverflowThresholdMax pageType (usableSize % 65536) = .ok max)
    (hmin : payloadOverflowThresholdMin (usableSize % 65536) = .ok min) :
    p.cellGetRawRegion idx max min usableSize = .ok (pos, cell.length) ∧
    ∃ payload first, p.cellGet idx max min usableSize =
        .ok (leafCell pageType key payload record.length first) ∧
      parseCellInfo record.length pageType usableSize = .ok (payload.length, record.length) ∧
      payload = record.take payload.length ∧ (first.isSome ↔ max < record.length) ∧
      (first = none → payload = record) ∧
      ∀ page, first = some page → ∃ s, startOverflowRead readPage payload page record.length = .ok s ∧
        Ends (overflowTurn readPage usableSize) s (.ok record) := by
  have hmod := usable_mod hlegal hmax
  rw [hmod] at hfill hmax hmin
  have ht := thresholds_of_ok hlegal.usable_ge hmax hmin
  obtain ⟨start,body,first,n,hb⟩ := fillCellPayload_built hfill hmax hmin
  obtain ⟨pre,post,hbuf,hpre⟩ := hplaced.bytes
  refine ⟨hplaced.rawRegion hb ht hvec,record.take n,first,?_,?_⟩
  · rw [hplaced.cellGet,hbuf,← hpre]
    exact hb.readBtreeCell ht hvec pre post
  · cases hb.body_eq with
    | whole pad h =>
      simp only [parseCellInfo,hmod,hmax,hmin,bind,Except.bind]
      simp [h]
    | part n page h hn =>
      obtain ⟨hle,hlt⟩ := spaceOnPage_spec ht h hn
      have hta : (record.take n).length = n := length_take_of_le (by omega)
      refine ⟨?_,by rw [hta],by simp [h],nofun,?_⟩
      · simp [parseCellInfo,hmod,hmax,hmin,bind,Except.bind,if_neg (by omega : ¬ record.length ≤ max),hn,hta]
      · intro page' hpage'
        cases hpage'
        have hne : record.drop n ≠ [] := by
          rw [← length_pos_iff,length_drop]
          omega
        obtain ⟨buf,hbuf',hen⟩ := overflow_read ht.room hids hne (hb.spilled page rfl) hread (record.take n)
        have hsub : sub record.length (record.take n).length = .ok (record.drop n).length := by
          rw [sub,hta,if_neg (by omega),length_drop]
        rw [take_append_drop] at hen
        refine ⟨_,?_,hen⟩
        simp only [startOverflowRead,hbuf',hsub,bind,Except.bind]

/-- 200 bytes of an index entry on pages of 512 bytes with 480 usable: 35 stay on the page. -/
theorem spilled_entry_round_trip : ∃ cell chain p readPage,
      fillCellPayload .indexLeaf none (List.replicate 200 7) (480 % 65536) 512 [3] =
        .ok (cell, chain) ∧ Placed p .indexLeaf 0 100 cell ∧ readPage 3 = .ok chain.head!.2 ∧
      p.cellGetRawRegion 0 94 35 480 = .ok (100, cell.length) ∧
      ∃ payload first, p.cellGet 0 94 35 480 = .ok (leafCell .indexLeaf none payload 200 first) ∧
        ∀ page, first = some page → ∃ s, startOverflowRead readPage payload page 200 = .ok s ∧
          Ends (overflowTurn readPage 480) s (.ok (List.replicate 200 7)) := by
  obtain ⟨cell,hcell⟩ : ∃ cell : List UInt8, cell = [129,72] ++ (List.replicate 35 7 ++ [0,0,0,3]) := ⟨_,rfl⟩
  obtain ⟨page,hpage⟩ : ∃ page : List UInt8,
    page = [0,0,0,0] ++ (List.replicate 165 7 ++ List.replicate 343 0) := ⟨_,rfl⟩
  obtain ⟨p,hp⟩ : ∃ p : PageContent, p = ⟨0,[10,0,0,0,1,0,0,0,0,100] ++
    List.replicate 90 0 ++ (cell ++ List.replicate 371 0)⟩ := ⟨_,rfl⟩
  have hfi : fillCellPayload .indexLeaf none (List.replicate 200 7) (480 % 65536) 512 [3] =
      .ok (cell, [(3, page)]) := by
    subst hcell hpage
    decide +kernel
  have hpl : Placed p .indexLeaf 0 100 cell := by
    subst hp
    refine ⟨rfl,⟨1,rfl,by decide⟩,rfl,_,_,rfl,rfl⟩
  obtain ⟨readPage,hpa⟩ : ∃ readPage : UInt32 → Except Fault (List UInt8),
    ∀ id, readPage id = .ok page := ⟨fun _ => .ok page,fun _ => rfl⟩
  have hre : ∀ x ∈ [((3 : UInt32), page)], readPage x.1 = .ok x.2 := by
    intro x hx
    rw [mem_singleton.mp hx]
    exact hpa 3
  have hle : LegalSize 512 480 := ⟨by decide,by decide,by decide⟩
  have hvec : (List.replicate 200 (7 : UInt8)).length < 2 ^ 63 := by
    rw [length_replicate]
    decide
  obtain ⟨hraw,payload,first,hget,-,-,-,-,hres⟩ :=
    cell_round_trip hle hvec hfi (by simp) hre hpl rfl rfl
  exact ⟨cell,_,p,readPage,hfi,hpl,hpa 3,hraw,payload,first,hget,hres⟩

end OxiSql.Ondisk
