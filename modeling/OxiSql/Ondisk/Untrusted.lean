import OxiSql.Ondisk.Page
import OxiSql.Ondisk.Record

namespace OxiSql.Ondisk
open Lib PageType

theorem Returns.of_ok {α : Type} {x : Except Fault α} {P : α → Prop} {a : α} (h : x = .ok a)
    (ha : P a) : Returns x P := by
  rw [h]
  exact ha

theorem Returns.of_forall {α : Type} {x : Except Fault α} {P : α → Prop} (h : Returns x fun _ => True)
    (hP : ∀ a, x = .ok a → P a) : Returns x P := by
  cases x with
  | ok a => exact hP a rfl
  | error e => cases e <;> exact h

theorem Returns.ite {α : Type} [Decidable c] {x y : Except Fault α} {P : α → Prop}
    (hx : c → Returns x P) (hy : ¬ c → Returns y P) : Returns (if c then x else y) P := by
  split
  · exact hx ‹_›
  · exact hy ‹_›

theorem readVarintFrom_returns (left v i : Nat) (buf : List UInt8) :
    Returns (readVarintFrom left v i buf) fun _ => True := by
  induction left generalizing v i buf with
  | zero => cases buf <;> trivial
  | succ left ih =>
    cases buf with
    | nil => trivial
    | cons c buf =>
      exact .ite (fun _ => trivial) fun _ => ih ..

variable (buf : List UInt8)

theorem readVarint_returns : Returns (readVarint buf) fun r => 0 < r.2 ∧ r.2 ≤ buf.length := by
  have hret := readVarintFrom_returns 8 0 0 buf
  cases h : readVarint buf with
  | ok r =>
    have := readVarint_length h
    exact ⟨this.1,this.2.2⟩
  | error e =>
    rw [readVarint] at h
    rw [h] at hret
    cases e <;> trivial

theorem varintAt_returns {α : Type} {buf : List UInt8} {f : Nat × Nat → Except Fault α}
    {P : α → Prop} (hpos : pos ≤ buf.length)
    (hf : ∀ r, 0 < r.2 ∧ pos + r.2 ≤ buf.length → Returns (f r) P) :
    Returns (sliceFrom buf pos >>= fun unread => readVarint unread >>= f) P := by
  refine (sliceFrom_returns hpos).bind fun unread hlen => ?_
  exact (readVarint_returns unread).bind fun r hr => hf r ⟨hr.1,by omega⟩

theorem readFixed_returns : Returns (readFixed buf n message) fun _ => n ≤ buf.length := by
  exact .ite (fun _ => trivial) fun h => Nat.le_of_not_lt h

theorem readValue_returns : Returns (readValue buf t) fun r => r.2 ≤ buf.length := by
  unfold readValue
  split <;> first
    | exact Nat.zero_le _
    | exact (readFixed_returns ..).bind fun _ h => h

variable (payload : List UInt8)

theorem readSerialTypes_returns (fuel headerSize pos : Nat) (types : SmallVec) (hpos : pos ≤ payload.length) :
    Returns (readSerialTypes payload fuel headerSize pos types) fun r => r.2 ≤ payload.length := by
  induction fuel generalizing headerSize pos types with
  | zero => exact hpos
  | succ fuel ih =>
    refine .ite (fun _ => hpos) fun _ => ?_
    refine varintAt_returns hpos fun r hr => ?_
    have hva : Returns (validateSerialType r.1) fun _ => True :=
      .ite (fun _ => trivial) fun _ => trivial
    refine hva.bind fun _ _ => ?_
    exact .ite (fun _ => trivial) fun _ => ih _ _ _ (by omega)

theorem readValues_returns (pos : Nat)
    (hpos : pos ≤ payload.length) : Returns (readValues payload pos codes) fun r => r.2 ≤ payload.length := by
  induction codes generalizing pos with
  | nil => exact hpos
  | cons code codes ih =>
    refine (sliceFrom_returns hpos).bind fun buf hbuf => ?_
    have htype : Returns (SerialType.tryFrom code) fun _ => True := by
      unfold SerialType.tryFrom
      split <;> trivial
    refine htype.bind fun t _ => ?_
    refine (readValue_returns buf).bind fun r hr => ?_
    exact (ih (pos + r.2) (by omega)).bind fun q hq => hq

theorem readRecord_returns : Returns (readRecord payload) fun _ => True := by
  refine (readVarint_returns payload).bind fun r hr => ?_
  refine .ite (fun _ => trivial) fun _ => ?_
  refine (readSerialTypes_returns payload _ _ r.2 .new hr.2).bind fun q hq => ?_
  refine (readValues_returns payload q.2 hq).bind fun v hv => ?_
  cases q.1.extraData with
  | none => trivial
  | some extra => exact (readValues_returns payload v.2 hv).bind fun _ _ => trivial

theorem readPayload_returns : Returns (readPayload unread payloadSize) fun _ => True := by
  refine .ite (fun _ => trivial) fun _ => .ite (fun _ => trivial) fun _ => ?_
  exact (readU32At_returns (by omega)).bind fun _ _ => trivial

/-- The limits a reader of cells is given: those of a page of any legal size are such. -/
structure Limits where
  max : Nat
  min : Nat
  usableSize : Nat
  le : min ≤ max
  room : 4 < usableSize

section
variable (limits : Limits) (payloadSize : Nat)

theorem spaceOnPage_returns (h : limits.max < payloadSize) :
    Returns (spaceOnPage payloadSize limits.max limits.min limits.usableSize) fun _ => True := by
  have hle := limits.le
  have hroom := limits.room
  refine (sub_returns (by omega)).bind fun above _ => ?_
  refine (sub_returns (by omega)).bind fun capacity hcap => ?_
  have hrem : Returns (rem above capacity) fun _ => True := by
    rw [rem,if_neg (by omega)]
    trivial
  exact hrem.bind fun _ _ => trivial

theorem payloadOverflows_returns :
    Returns (payloadOverflows payloadSize limits.max limits.min limits.usableSize)
      fun _ => True := by
  refine .ite (fun _ => trivial) fun h => ?_
  exact (spaceOnPage_returns limits payloadSize (by omega)).bind fun _ _ => trivial

theorem readCellPayload_returns (hpos : pos ≤ page.length) :
    Returns (readCellPayload page pos payloadSize limits.max limits.min limits.usableSize)
      fun _ => True := by
  have hre : ∀ toRead : Nat, Returns
      (if page.length < pos + toRead then .error (.corrupt "cell payload extends beyond page")
        else slice page pos toRead >>= fun unread => readPayload unread payloadSize)
      fun _ => True := fun toRead =>
    .ite (fun _ => trivial) fun h =>
      (slice_returns (by omega)).bind fun unread _ => readPayload_returns
  refine (payloadOverflows_returns limits payloadSize).bind fun r _ => ?_
  obtain ⟨overflows,onPage⟩ := r
  cases overflows with
  | true => exact hre onPage
  | false => exact (sub_returns hpos).bind fun toRead _ => hre toRead

theorem rawLength_returns :
    Returns (PageContent.rawLength counted payloadSize limits.max limits.min limits.usableSize)
      fun _ => True :=
  (payloadOverflows_returns limits payloadSize).bind fun _ _ => trivial

end

theorem readBtreeCell_returns (limits : Limits) (pageType : PageType) (pos : Nat) :
    Returns (readBtreeCell page pageType pos limits.max limits.min limits.usableSize)
      fun _ => True := by
  cases pageType <;> refine .ite (fun _ => trivial) fun h => ?_
  case indexInterior =>
    refine (readU32At_returns (by omega)).bind fun left _ => ?_
    refine varintAt_returns (by omega) fun r hr => ?_
    exact (readCellPayload_returns limits r.1 (by omega)).bind fun _ _ => trivial
  case tableInterior =>
    refine (readU32At_returns (by omega)).bind fun left _ => ?_
    exact varintAt_returns (by omega) fun _ _ => trivial
  case indexLeaf =>
    refine varintAt_returns (by omega) fun r hr => ?_
    exact (readCellPayload_returns limits r.1 (by omega)).bind fun _ _ => trivial
  case tableLeaf =>
    refine varintAt_returns (by omega) fun r hr => ?_
    refine varintAt_returns (by omega) fun r' hr' => ?_
    exact (readCellPayload_returns limits r.1 (by omega)).bind fun _ _ => trivial

/-- The buffer of a page of a legal size; the header of the first page starts at byte 100. -/
structure LegalPage (p : PageContent) : Prop where
  offset_eq : p.offset = 0 ∨ p.offset = 100
  size_ge : 512 ≤ p.buffer.length
  size_le : p.buffer.length ≤ 65536

def wordAt (buf : List UInt8) (pos : Nat) : Nat :=
  (beU16 (buf.getD pos 0) (buf.getD (pos + 1) 0)).toNat

theorem index_eq (buf : List UInt8) (i : Nat) : index buf i = if i < buf.length then .ok (buf.getD i 0)
      else .error (.panic "index out of bounds") := by
  unfold index
  split
  · next b hb =>
    have hi := (List.getElem?_eq_some_iff.mp hb).1
    rw [if_pos hi,List.getD_eq_getElem?_getD,hb,Option.getD_some]
  · next hnone =>
    rw [if_neg (by simpa using hnone)]

theorem readU16At_eq : readU16At buf pos = if pos + 2 ≤ buf.length then .ok (wordAt buf pos)
      else .error (.panic "index out of bounds") := by
  simp only [readU16At,index_eq,bind,Except.bind]
  by_cases h : pos + 2 ≤ buf.length
  · rw [if_pos (by omega),if_pos h]
    rw [if_pos (by omega)]
    rfl
  · rw [if_neg h]
    by_cases h' : pos < buf.length
    · rw [if_pos h']
      rw [if_neg (by omega)]
    · rw [if_neg h']

namespace PageContent

def typeByte (p : PageContent) : Option PageType :=
  match PageType.tryFrom (p.buffer.getD p.offset 0) with
  | .ok pageType => some pageType
  | .error _ => none

variable (hp : LegalPage p)
include hp

theorem readU8_zero : p.readU8 0 = .ok (p.buffer.getD p.offset 0) := by
  have hoff := hp.offset_eq
  have hsi := hp.size_ge
  rw [readU8,index_eq,Nat.add_zero,if_pos (by omega)]

theorem header_word (hpos : pos ≤ 6) : p.readU16 pos = .ok (wordAt p.buffer (p.offset + pos)) := by
  have hoff := hp.offset_eq
  have hsi := hp.size_ge
  rw [readU16,readU16At_eq,if_pos (by omega)]

omit hp in
theorem tryFrom_cases (b : UInt8) :
    (∃ t, tryFrom b = .ok t) ∨ ∃ message, tryFrom b = .error (.corrupt message) := by
  unfold tryFrom
  simp only
  split_ifs <;> simp

theorem pageType_eq : p.pageType = match p.typeByte with
      | some pageType => .ok pageType
      | none => .error (.panic "called `Result::unwrap()` on an `Err` value") := by
  rw [pageType,readU8_zero hp,typeByte]
  simp only [bind,Except.bind]
  cases tryFrom (p.buffer.getD p.offset 0) <;> rfl

theorem validateBtreePageType_returns :
    Returns p.validateBtreePageType fun t => p.headerSize = .ok t.headerSize := by
  rw [validateBtreePageType,headerSize,pageType,readU8_zero hp]
  rcases tryFrom_cases (p.buffer.getD p.offset 0) with ⟨t,ht⟩ | ⟨message,hm⟩
  · simp only [bind,Except.bind,ht]
    rfl
  · simp only [bind,Except.bind,hm]
    trivial

theorem cellCount_returns : Returns p.cellCount fun _ => True :=
  .of_ok (header_word hp (by decide)) trivial

theorem cellGet_returns (limits : Limits) :
    Returns (p.cellGet idx limits.max limits.min limits.usableSize) fun _ => True := by
  refine (validateBtreePageType_returns hp).bind fun t ht => ?_
  refine (cellCount_returns hp).bind fun ncells _ => ?_
  refine (Returns.of_ok ht (P := fun n => n = t.headerSize) rfl).bind fun n _ => ?_
  refine .ite (fun _ => trivial) fun _ => .ite (fun _ => trivial) fun h => ?_
  refine (readU16At_returns (by omega)).bind fun cellPointer _ => ?_
  exact readBtreeCell_returns limits t cellPointer

theorem cellGetRawRegion_returns (limits : Limits) :
    Returns (p.cellGetRawRegion idx limits.max limits.min limits.usableSize) fun _ => True := by
  refine (validateBtreePageType_returns hp).bind fun t ht => ?_
  refine (cellCount_returns hp).bind fun ncells _ => ?_
  refine (Returns.of_ok ht (P := fun n => n = t.headerSize) rfl).bind fun n _ => ?_
  refine .ite (fun _ => trivial) fun _ => .ite (fun _ => trivial) fun h => ?_
  refine (readU16At_returns (by omega)).bind fun cellPointer _ => ?_
  refine .ite (fun _ => trivial) fun h4 => ?_
  cases t with
  | indexInterior =>
    refine varintAt_returns (by omega) fun r _ => ?_
    exact (rawLength_returns limits r.1).bind fun _ _ => trivial
  | tableInterior =>
    exact varintAt_returns (by omega) fun _ _ => trivial
  | indexLeaf =>
    refine varintAt_returns (by omega) fun r _ => ?_
    exact (rawLength_returns limits r.1).bind fun _ _ => trivial
  | tableLeaf =>
    refine varintAt_returns (by omega) fun r hr => ?_
    refine varintAt_returns (by omega) fun r' _ => ?_
    exact (rawLength_returns limits r.1).bind fun _ _ => trivial

/-! The readers of a slot do not look whether the page has it. -/

omit hp in
theorem not_returns_of_panic {α β : Type} {x : Except Fault α} {f : α → Except Fault β}
    {P : β → Prop} {message : String} (h : x = .error (.panic message)) : ¬ Returns (x >>= f) P := by
  rw [h]
  exact id

theorem debugAssertType_ok
    (h : debug = true → p.typeByte = some expected) : p.debugAssertType debug expected = .ok () := by
  cases debug with
  | false => rfl
  | true =>
    simp only [debugAssertType,pageType_eq hp,h rfl,bind,Except.bind]
    simp [require]

theorem debugAssertType_panic (h : ¬ (debug = true → p.typeByte = some expected)) :
    ∃ message, p.debugAssertType debug expected = .error (.panic message) := by
  obtain ⟨rfl,hne⟩ := Classical.not_imp.mp h
  cases ht : p.typeByte with
  | none =>
    refine ⟨"called `Result::unwrap()` on an `Err` value",?_⟩
    rw [debugAssertType,pageType_eq hp,ht]
    rfl
  | some t =>
    have hne' : t ≠ expected := fun heq => hne (by rw [ht,heq])
    refine ⟨"assertion failed: self.page_type() == PageType",?_⟩
    simp only [debugAssertType,pageType_eq hp,ht,if_true,bind,Except.bind]
    rw [require,if_neg (by simpa using hne')]

/-- The slot is on the page, and the page has the type that a debug build asserts. -/
structure HasSlot (p : PageContent) (debug : Bool) (expected : PageType) (idx : Nat) : Prop where
  type_eq : debug = true → p.typeByte = some expected
  slot_le : p.offset + expected.headerSize + idx * 2 + 2 ≤ p.buffer.length

/-- What the three readers of a slot have in common: the assertion, the slot, and a rest that
checks what the slot points to. -/
theorem slot_returns_iff {α : Type} {rest : Nat → Except Fault α}
    (hre : ∀ pos, Returns (rest pos) fun _ => True) : Returns (do
        p.debugAssertType debug expected
        let cellPointer ← p.readU16 (expected.headerSize + idx * 2)
        rest cellPointer) (fun _ => True) ↔ HasSlot p debug expected idx := by
  constructor
  · intro h
    by_contra hno
    by_cases htype : debug = true → p.typeByte = some expected
    · have hsl : ¬ p.offset + (expected.headerSize + idx * 2) + 2 ≤ p.buffer.length :=
        fun hle => hno ⟨htype,by omega⟩
      have hpa : p.readU16 (expected.headerSize + idx * 2) =
          .error (.panic "index out of bounds") := (readU16At_eq ..).trans (if_neg hsl)
      rw [debugAssertType_ok hp htype] at h
      have h' : Returns (p.readU16 (expected.headerSize + idx * 2) >>= rest) fun _ => True := h
      exact not_returns_of_panic hpa h'
    · obtain ⟨message,hm⟩ := debugAssertType_panic hp htype
      exact not_returns_of_panic hm h
  · intro hsl
    have hle := hsl.slot_le
    rw [debugAssertType_ok hp hsl.type_eq]
    exact (readU16At_returns (by omega)).bind fun pos _ => hre pos

theorem cellTableInteriorReadRowid_returns_iff :
    Returns (p.cellTableInteriorReadRowid debug idx) (fun _ => True) ↔ HasSlot p debug .tableInterior idx := by
  apply slot_returns_iff hp
  intro pos
  refine .ite (fun _ => trivial) fun h => ?_
  exact varintAt_returns (by omega) fun _ _ => trivial

theorem cellTableInteriorReadLeftChildPage_returns_iff :
    Returns (p.cellTableInteriorReadLeftChildPage debug idx) (fun _ => True) ↔
      HasSlot p debug .tableInterior idx := by
  apply slot_returns_iff hp
  intro pos
  exact .ite (fun _ => trivial) fun h => readU32At_returns (by omega)

theorem cellTableLeafReadRowid_returns_iff :
    Returns (p.cellTableLeafReadRowid debug idx) (fun _ => True) ↔ HasSlot p debug .tableLeaf idx := by
  apply slot_returns_iff hp
  intro pos
  refine .ite (fun _ => trivial) fun h => ?_
  refine varintAt_returns (by omega) fun r hr => ?_
  exact varintAt_returns (by omega) fun _ _ => trivial

/-! The free space: the freeblocks are followed wherever they point. -/

/-- From the freeblock at `cur` the walk comes to the one at `last`, which points to `next` and has
`size` bytes; the freeblocks on the way have `total` bytes. -/
inductive Freeblocks (p : PageContent) : Nat → Nat → Nat → Nat → Nat → Prop where
  | last {cur : Nat} (hcur : cur + 4 ≤ p.buffer.length)
      (hnext : wordAt p.buffer cur ≤ cur + wordAt p.buffer (cur + 2) + 3) :
      Freeblocks p cur cur (wordAt p.buffer cur) (wordAt p.buffer (cur + 2))
        (wordAt p.buffer (cur + 2))
  | more {cur last next size total : Nat} (hcur : cur + 4 ≤ p.buffer.length)
      (hnext : cur + wordAt p.buffer (cur + 2) + 3 < wordAt p.buffer cur)
      (rest : Freeblocks p (wordAt p.buffer cur) last next size total) :
      Freeblocks p cur last next size (wordAt p.buffer (cur + 2) + total)

omit hp in
theorem walkFreeblocks_of_freeblocks {cur last next size total : Nat}
    (h : Freeblocks p cur last next size total) {fuel : Nat}
    (hfu : p.buffer.length ≤ cur + fuel) :
    p.walkFreeblocks fuel cur freeSpace = .ok (last,next,size,freeSpace + total) := by
  induction h generalizing fuel freeSpace with
  | last hcur hnext =>
    obtain ⟨fuel,rfl⟩ := Nat.exists_eq_add_one_of_ne_zero (by omega : fuel ≠ 0)
    simp only [walkFreeblocks,readU16NoOffset,readU16At_eq,bind,Except.bind]
    rw [if_pos (by omega)]
    rw [if_pos (by omega)]
    simp [if_pos hnext]
  | more hcur hnext _ ih =>
    obtain ⟨fuel,rfl⟩ := Nat.exists_eq_add_one_of_ne_zero (by omega : fuel ≠ 0)
    simp only [walkFreeblocks,readU16NoOffset,readU16At_eq,bind,Except.bind]
    rw [if_pos (by omega)]
    rw [if_pos (by omega)]
    simp only
    rw [if_neg (by omega),ih (by omega),Nat.add_assoc]

omit hp in
/-- The walk ends at a last freeblock, or with an access out of bounds. -/
theorem walkFreeblocks_cases (fuel cur freeSpace : Nat) :
    (∃ last next size total, p.walkFreeblocks fuel cur freeSpace =
        .ok (last,next,size,freeSpace + total) ∧ Freeblocks p cur last next size total) ∨
      ∃ message, p.walkFreeblocks fuel cur freeSpace = .error (.panic message) := by
  induction fuel generalizing cur freeSpace with
  | zero => exact .inr ⟨_,rfl⟩
  | succ fuel ih =>
    simp only [walkFreeblocks,readU16NoOffset,readU16At_eq,bind,Except.bind]
    by_cases hcur : cur + 4 ≤ p.buffer.length
    · rw [if_pos (by omega)]
      rw [if_pos (by omega)]
      simp only
      by_cases hnext : wordAt p.buffer cur ≤ cur + wordAt p.buffer (cur + 2) + 3
      · rw [if_pos hnext]
        exact .inl ⟨_,_,_,_,rfl,.last hcur hnext⟩
      · rw [if_neg hnext]
        rcases ih (wordAt p.buffer cur) (freeSpace + wordAt p.buffer (cur + 2)) with
          ⟨last,next,size,total,hw,hf⟩ | hpa
        · exact .inl ⟨last,next,size,_,by rw [hw,Nat.add_assoc],.more hcur (by omega) hf⟩
        · exact .inr hpa
    · right
      by_cases hcur2 : cur + 2 ≤ p.buffer.length
      · rw [if_pos hcur2]
        rw [if_neg (by omega)]
        exact ⟨_,rfl⟩
      · rw [if_neg hcur2]
        exact ⟨_,rfl⟩

def SpaceFits (p : PageContent) (pageType : PageType) (usableSpace freeSpace : Nat) : Prop :=
  freeSpace ≤ usableSpace ∧
    (p.offset + pageType.headerSize + 2 * wordAt p.buffer (p.offset + 3)) % 65536 ≤
      freeSpace % 65536

def contentStart (p : PageContent) : Nat :=
  if wordAt p.buffer (p.offset + 5) = 0 then 65535 else wordAt p.buffer (p.offset + 5)

def headerSpace (p : PageContent) : Nat :=
  p.contentStart + (p.buffer.getD (p.offset + 7) 0).toNat

/-- The list of freeblocks is empty, or shows at once that it is corrupt, or is inside the page and
then either out of order at its end or within the usable bytes. -/
inductive FreeSpaceSound (p : PageContent) (usableSpace : Nat) : Prop where
  | noFreeblock {pageType : PageType} (htype : p.typeByte = some pageType)
      (hfirst : wordAt p.buffer (p.offset + 1) = 0)
      (hfits : SpaceFits p pageType usableSpace p.headerSpace)
  | early {pageType : PageType} (htype : p.typeByte = some pageType)
      (hfirst : wordAt p.buffer (p.offset + 1) ≠ 0)
      (hearly : wordAt p.buffer (p.offset + 1) < p.contentStart)
  | disordered {pageType : PageType} {last next size total : Nat}
      (htype : p.typeByte = some pageType) (hfirst : wordAt p.buffer (p.offset + 1) ≠ 0)
      (hlist : Freeblocks p (wordAt p.buffer (p.offset + 1)) last next size total)
      (hnext : next ≠ 0)
  | freeblocks {pageType : PageType} {last size total : Nat}
      (htype : p.typeByte = some pageType) (hfirst : wordAt p.buffer (p.offset + 1) ≠ 0)
      (hlist : Freeblocks p (wordAt p.buffer (p.offset + 1)) last 0 size total)
      (hlast : last + size ≤ usableSpace)
      (hfits : SpaceFits p pageType usableSpace (p.headerSpace + total))

omit hp in
theorem space_returns_iff (pageType : PageType) : Returns (do
        require (freeSpace ≤ usableSpace) "corrupted page: free space is greater than usable space"
        sub (freeSpace % 65536)
          ((p.offset + pageType.headerSize + 2 * wordAt p.buffer (p.offset + 3)) % 65536))
      (fun _ => True) ↔ SpaceFits p pageType usableSpace freeSpace := by
  by_cases hle : freeSpace ≤ usableSpace
  · simp only [SpaceFits,hle,true_and,decide_true]
    rw [sub]
    split
    · next h => exact ⟨fun hr => hr.elim,fun h' => by omega⟩
    · next h => exact ⟨fun _ => by omega,fun _ => trivial⟩
  · simp only [SpaceFits,hle,false_and,iff_false]
    exact not_returns_of_panic rfl

theorem freeblockSpace_zero (hfirst : wordAt p.buffer (p.offset + 1) = 0) :
    p.freeblockSpace usableSpace start freeSpace = .ok freeSpace := by
  simp [freeblockSpace,firstFreeblock,header_word hp (by decide : 1 ≤ 6),hfirst,bind,Except.bind]

theorem freeblockSpace_walk (hfirst : wordAt p.buffer (p.offset + 1) ≠ 0)
    (hst : ¬ wordAt p.buffer (p.offset + 1) < start) : p.freeblockSpace usableSpace start freeSpace = (do
      let (cur,next,size,freeSpace) ←
        p.walkFreeblocks p.buffer.length (wordAt p.buffer (p.offset + 1)) freeSpace
      if next ≠ 0 then .error (.corrupt "Freeblocks list not in ascending order")
      else
        require (cur + size ≤ usableSpace) "corrupted page: last freeblock extends last page end"
        .ok freeSpace) := by
  rw [freeblockSpace,firstFreeblock,header_word hp (by decide : 1 ≤ 6)]
  simp [bind,Except.bind,if_neg hfirst,if_neg hst]

theorem computeFreeSpace_eq : p.computeFreeSpace usableSpace = (do
      let pageType ← p.pageType
      let freeSpace ← p.freeblockSpace usableSpace p.contentStart p.headerSpace
      require (freeSpace ≤ usableSpace) "corrupted page: free space is greater than usable space"
      sub (freeSpace % 65536)
        ((p.offset + pageType.headerSize + 2 * wordAt p.buffer (p.offset + 3)) % 65536)) := by
  have hoff := hp.offset_eq
  have hsi := hp.size_ge
  have hfr : p.numFragFreeBytes = .ok (p.buffer.getD (p.offset + 7) 0).toNat := by
    simp [numFragFreeBytes,readU8,index_eq,if_pos (by omega : p.offset + 7 < p.buffer.length),bind,Except.bind]
  simp only [computeFreeSpace,cellContentArea,cellCount,header_word hp (by decide : 5 ≤ 6),
    header_word hp (by decide : 3 ≤ 6),hfr]
  rfl

theorem FreeSpaceSound.of_returns (h : Returns (p.computeFreeSpace usableSpace) fun _ => True) :
    FreeSpaceSound p usableSpace := by
  rw [computeFreeSpace_eq hp,pageType_eq hp] at h
  cases htype : p.typeByte with
  | none =>
    rw [htype] at h
    exact h.elim
  | some t =>
    rw [htype] at h
    have h' : Returns (p.freeblockSpace usableSpace p.contentStart p.headerSpace >>= _)
      fun _ => True := h
    by_cases hfirst : wordAt p.buffer (p.offset + 1) = 0
    · rw [freeblockSpace_zero hp hfirst] at h'
      exact .noFreeblock htype hfirst ((space_returns_iff t).mp h')
    · by_cases hst : wordAt p.buffer (p.offset + 1) < p.contentStart
      · exact .early htype hfirst hst
      · rw [freeblockSpace_walk hp hfirst hst] at h'
        rcases walkFreeblocks_cases p.buffer.length (wordAt p.buffer (p.offset + 1))
            p.headerSpace with ⟨last,next,size,total,hwa,hlist⟩ | ⟨message,hpa⟩
        · rw [hwa] at h'
          by_cases hnext : next = 0
          · subst hnext
            by_cases hlast : last + size ≤ usableSpace
            · simp only [bind,Except.bind,hlast] at h'
              exact .freeblocks htype hfirst hlist hlast
                ((space_returns_iff t).mp h')
            · simp only [bind,Except.bind,hlast] at h'
              exact h'.elim
          · exact .disordered htype hfirst hlist hnext
        · rw [hpa] at h'
          exact h'.elim

theorem FreeSpaceSound.returns (h : FreeSpaceSound p usableSpace) :
    Returns (p.computeFreeSpace usableSpace) fun _ => True := by
  have hst : ∀ t, p.typeByte = some t → Returns (p.freeblockSpace usableSpace p.contentStart p.headerSpace)
        (SpaceFits p t usableSpace) →
      Returns (p.computeFreeSpace usableSpace) fun _ => True := by
    intro t htype hfr
    rw [computeFreeSpace_eq hp,pageType_eq hp,htype]
    exact hfr.bind fun freeSpace hfits => (space_returns_iff t).mpr hfits
  have hco : ∀ t, wordAt p.buffer (p.offset + 1) ≠ 0 → wordAt p.buffer (p.offset + 1) < p.contentStart →
      Returns (p.freeblockSpace usableSpace p.contentStart p.headerSpace) (SpaceFits p t usableSpace) := by
    intro t hfirst hsta
    rw [freeblockSpace,firstFreeblock,header_word hp (by decide : 1 ≤ 6)]
    simp only [bind,Except.bind,if_neg hfirst,if_pos hsta]
    trivial
  cases h with
  | @noFreeblock t htype hfirst hfits =>
    exact hst t htype (.of_ok (freeblockSpace_zero hp hfirst) hfits)
  | @early t htype hfirst hearly => exact hst t htype (hco t hfirst hearly)
  | @disordered t last next size total htype hfirst hlist hnext =>
    apply hst t htype
    by_cases hsta : wordAt p.buffer (p.offset + 1) < p.contentStart
    · exact hco t hfirst hsta
    · rw [freeblockSpace_walk hp hfirst hsta,walkFreeblocks_of_freeblocks hlist (Nat.le_add_left ..)]
      simp only [bind,Except.bind]
      rw [if_pos hnext]
      trivial
  | @freeblocks t last size total htype hfirst hlist hlast hfits =>
    apply hst t htype
    by_cases hsta : wordAt p.buffer (p.offset + 1) < p.contentStart
    · exact hco t hfirst hsta
    · rw [freeblockSpace_walk hp hfirst hsta,walkFreeblocks_of_freeblocks hlist (Nat.le_add_left ..)]
      simp only [bind,Except.bind,hlast]
      exact hfits

end PageContent

/-- A call of one of the functions that read untrusted bytes. -/
inductive Reader where
  | cellGet (idx : Nat) (limits : Limits)
  | cellGetRawRegion (idx : Nat) (limits : Limits)
  | cellTableInteriorReadRowid (idx : Nat)
  | cellTableInteriorReadLeftChildPage (idx : Nat)
  | cellTableLeafReadRowid (idx : Nat)
  | readBtreeCell (pageType : PageType) (pos : Nat) (limits : Limits)
  | readPayload (unread : List UInt8) (payloadSize : Nat)
  | readRecord (payload : List UInt8)
  | computeFreeSpace (usableSpace : Nat)

namespace Reader
open PageContent

/-- The call returns a value or the error for corrupt data; `debug` builds keep `debug_assert!`. -/
def Survives (p : PageContent) (debug : Bool) : Reader → Prop
  | cellGet idx limits => Returns (p.cellGet idx limits.max limits.min limits.usableSize) fun _ => True
  | cellGetRawRegion idx limits =>
    Returns (p.cellGetRawRegion idx limits.max limits.min limits.usableSize) fun _ => True
  | cellTableInteriorReadRowid idx =>
    Returns (p.cellTableInteriorReadRowid debug idx) fun _ => True
  | cellTableInteriorReadLeftChildPage idx =>
    Returns (p.cellTableInteriorReadLeftChildPage debug idx) fun _ => True
  | cellTableLeafReadRowid idx => Returns (p.cellTableLeafReadRowid debug idx) fun _ => True
  | readBtreeCell pageType pos limits =>
    Returns (Ondisk.readBtreeCell p.buffer pageType pos limits.max limits.min limits.usableSize)
      fun _ => True
  | readPayload unread payloadSize => Returns (Ondisk.readPayload unread payloadSize) fun _ => True
  | readRecord payload => Returns (Ondisk.readRecord payload) fun _ => True
  | computeFreeSpace usableSpace => Returns (p.computeFreeSpace usableSpace) fun _ => True

def Trusts (p : PageContent) (debug : Bool) : Reader → Prop
  | cellTableInteriorReadRowid idx | cellTableInteriorReadLeftChildPage idx =>
    HasSlot p debug .tableInterior idx
  | cellTableLeafReadRowid idx => HasSlot p debug .tableLeaf idx
  | computeFreeSpace usableSpace => FreeSpaceSound p usableSpace
  | cellGet .. | cellGetRawRegion .. | readBtreeCell .. | readPayload .. | readRecord _ => True

/-- On a page of a legal size a reader panics exactly if something it takes for granted is not so:
most take nothing for granted. -/
theorem survives_iff {p : PageContent} (hp : LegalPage p) (debug : Bool) (r : Reader) :
    r.Survives p debug ↔ r.Trusts p debug := by
  cases r with
  | cellGet idx limits => exact iff_of_true (cellGet_returns hp limits) trivial
  | cellGetRawRegion idx limits => exact iff_of_true (cellGetRawRegion_returns hp limits) trivial
  | cellTableInteriorReadRowid idx => exact cellTableInteriorReadRowid_returns_iff hp
  | cellTableInteriorReadLeftChildPage idx =>
    exact cellTableInteriorReadLeftChildPage_returns_iff hp
  | cellTableLeafReadRowid idx => exact cellTableLeafReadRowid_returns_iff hp
  | readBtreeCell pageType pos limits =>
    exact iff_of_true (readBtreeCell_returns limits pageType pos) trivial
  | readPayload unread payloadSize =>
    exact iff_of_true (readPayload_returns) trivial
  | readRecord payload => exact iff_of_true (readRecord_returns payload) trivial
  | computeFreeSpace usableSpace =>
    exact ⟨FreeSpaceSound.of_returns hp,FreeSpaceSound.returns hp⟩

/-- An interior page that says it has 65535 cells, of which 250 slots are on the page. -/
def crowdedPage : PageContent :=
  ⟨0, [5, 0, 0, 255, 255] ++ List.replicate 507 0⟩

theorem crowdedPage_legal : LegalPage crowdedPage :=
  ⟨.inl rfl,by decide +kernel,by decide +kernel⟩

/-- A slot the page has. -/
theorem crowdedPage_survives :
    LegalPage crowdedPage ∧ (cellTableInteriorReadRowid 249).Survives crowdedPage true := by
  have hsl : HasSlot crowdedPage true .tableInterior 249 :=
    ⟨fun _ => by decide +kernel,by decide +kernel⟩
  refine ⟨crowdedPage_legal,?_⟩
  rw [survives_iff crowdedPage_legal]
  exact hsl

/-- A slot the page does not have, though its count of cells says so, and the free space of the same
page. -/
theorem crowdedPage_panics : LegalPage crowdedPage ∧ crowdedPage.cellCount = .ok 65535 ∧
      crowdedPage.cellTableInteriorReadRowid false 32767 = .error (.panic "index out of bounds") ∧
      crowdedPage.computeFreeSpace 512 =
        .error (.panic "corrupted page: free space is greater than usable space") ∧
      ¬ (cellTableInteriorReadRowid 32767).Survives crowdedPage false ∧
      ¬ (computeFreeSpace 512).Survives crowdedPage false := by
  have hsl : crowdedPage.cellTableInteriorReadRowid false 32767 = .error (.panic "index out of bounds") := by
    decide +kernel
  have hsp : crowdedPage.computeFreeSpace 512 =
      .error (.panic "corrupted page: free space is greater than usable space") := by
    decide +kernel
  refine ⟨crowdedPage_legal,by decide +kernel,hsl,hsp,?_,?_⟩
  · rw [Survives,hsl]
    exact id
  · exact id

end Reader

end OxiSql.Ondisk
