import OxiSql.Integrity.Soundness
import OxiSql.Ondisk.Untrusted

namespace OxiSql.Integrity
open Ondisk PageContent

/-- The freeblocks from a place on. The list comes to its end, or to a place that is too far behind
for a block. -/
inductive Freeblocks (p : PageContent) (usable : Nat) : Nat → List Nat → Prop
  | done : Freeblocks p usable 0 []
  | behind {pc : Nat} (hpc : pc ≠ 0) (hlast : usable < pc + 4) (hin : pc + 4 ≤ p.buffer.length) :
      Freeblocks p usable pc []
  | next {pc : Nat} {blocks : List Nat} (hpc : pc ≠ 0) (hlast : pc + 4 ≤ usable) (hin : pc + 4 ≤ p.buffer.length)
      (rest : Freeblocks p usable (wordAt p.buffer pc) blocks) : Freeblocks p usable pc (pc :: blocks)

/-- Cells and freeblocks end in the usable space, and the list of freeblocks comes to an end. -/
structure Orderly (p : PageContent) (usable : Nat) : Prop where
  typed : p.typeByte ≠ none ∨ wordAt p.buffer (p.offset + 3) = 0
  area : wordAt p.buffer (p.offset + 5) ≤ usable
  cells : ∀ idx < wordAt p.buffer (p.offset + 3), ∀ c, readCell p usable idx = .ok c → c.start + c.length ≤ usable
  freeblocks : ∃ blocks, Freeblocks p usable (wordAt p.buffer (p.offset + 1)) blocks ∧
    ∀ pc ∈ blocks, pc + wordAt p.buffer (pc + 2) ≤ usable

variable {p : PageContent} {entry : IntegrityCheckPageEntry} {s : PageCheck}

theorem thresholds_ok (t : PageType) (h : 480 ≤ usable) : ∃ limits : Limits, limits.usableSize = usable ∧
      payloadOverflowThresholdMax t usable = .ok limits.max ∧
      payloadOverflowThresholdMin usable = .ok limits.min := by
  have hsc : ∀ factor, 32 ≤ factor →
      scaledThreshold usable factor = .ok ((usable - 12) * factor / 255 - 23) := by
    intro factor hfa
    have hmul := Nat.mul_le_mul (by omega : 468 ≤ usable - 12) hfa
    simp only [scaledThreshold,sub,if_neg (by omega : ¬usable < 12),bind,Except.bind]
    rw [if_neg (by omega)]
  have hsub : sub usable 35 = .ok (usable - 35) := by rw [sub,if_neg (by omega)]
  cases t with
  | indexInterior | indexLeaf =>
    exact ⟨⟨_,_,usable,by omega,by omega⟩,rfl,hsc 64 (by decide),hsc 32 (by decide)⟩
  | tableInterior | tableLeaf => exact ⟨⟨_,_,usable,by omega,by omega⟩,rfl,hsub,hsc 32 (by decide)⟩

def Within (usable : Nat) (s : PageCheck) : Prop :=
  ∀ r ∈ s.ranges, r.stop ≤ usable

theorem checkContents_ranges : (s.checkContents entry idx cell).ranges = s.ranges := by
  cases cell <;> simp [PageCheck.checkContents,PageCheck.push,PageCheck.checkRowid]

theorem checkCell_returns (hp : LegalPage p) (hus : 480 ≤ usable) (ho : Orderly p usable)
    (hidx : idx < wordAt p.buffer (p.offset + 3)) (hs : Within usable s) :
    Returns (checkCell p usable entry s idx) (Within usable) := by
  refine Returns.of_forall ?_ fun s' h => ?_
  · obtain ⟨t,ht⟩ := Option.ne_none_iff_exists'.mp (ho.typed.resolve_right (by omega))
    obtain ⟨limits,rfl,hmax,hmin⟩ := thresholds_ok t hus
    simp only [checkCell,pageType_eq hp,ht,hmax,hmin,bind,Except.bind]
    refine (cellGetRawRegion_returns hp limits).bind fun region _ => ?_
    refine (Returns.of_ok (header_word hp (by decide)) trivial).bind (P := fun _ => True) fun area _ => ?_
    refine (sub_returns (by omega)).bind fun limit _ => ?_
    exact (cellGet_returns hp limits).bind fun _ _ => trivial
  · obtain ⟨c,area,hc,rfl⟩ := checkCell_ok h
    intro r hr
    rw [checkContents_ranges] at hr
    rcases List.mem_cons.mp hr with rfl | hr
    · exact ho.cells idx hidx c hc
    · exact hs r (by simpa using hr)

theorem checkCells_returns (hp : LegalPage p) (hus : 480 ≤ usable) (ho : Orderly p usable)
    (hs : Within usable s) : Returns (checkCells p usable entry s) (Within usable) := by
  have hfo : ∀ idxs : List Nat, (∀ i ∈ idxs, i < wordAt p.buffer (p.offset + 3)) → ∀ s, Within usable s →
      Returns (idxs.foldlM (checkCell p usable entry) s) (Within usable) := by
    intro idxs
    induction idxs with
    | nil => exact fun _ s hs => hs
    | cons i idxs ih =>
      intro hid s hs
      obtain ⟨hi,hid⟩ := List.forall_mem_cons.mp hid
      exact (checkCell_returns hp hus ho hi hs).bind fun s hs => ih hid s hs
  rw [checkCells,cellCount,header_word hp (by decide)]
  exact hfo _ (by simp) s hs

namespace Freeblocks

theorem unique (h : Freeblocks p usable pc blocks) (h' : Freeblocks p usable pc blocks') : blocks = blocks' := by
  induction h generalizing blocks' with
  | done => cases h' <;> trivial
  | behind hpc hlast =>
    cases h' with
    | done => exact absurd rfl hpc
    | behind => rfl
    | next _ hnot => omega
  | next hpc hlast hin rest ih =>
    cases h' with
    | done => exact absurd rfl hpc
    | behind _ hnot => omega
    | next _ _ _ rest' => rw [ih rest']

theorem of_mem (h : Freeblocks p usable pc blocks) (hq : q ∈ blocks) :
    ∃ blocks', Freeblocks p usable q blocks' ∧ blocks'.length ≤ blocks.length := by
  induction h with
  | done | behind => cases hq
  | @next pc blocks hpc hlast hin rest ih =>
    rcases List.mem_cons.mp hq with rfl | hq
    · exact ⟨_,.next hpc hlast hin rest,Nat.le_refl _⟩
    · obtain ⟨blocks',h',hlen⟩ := ih hq
      exact ⟨blocks',h',hlen.trans (Nat.le_succ _)⟩

/-- A list that comes to an end does not come to a place twice. -/
theorem nodup (h : Freeblocks p usable pc blocks) : blocks.Nodup := by
  induction h with
  | done | behind => exact .nil
  | @next pc blocks hpc hlast hin rest ih =>
    refine List.nodup_cons.mpr ⟨fun hmem => ?_,ih⟩
    obtain ⟨blocks',h',hlen⟩ := rest.of_mem hmem
    have heq := congrArg List.length (h'.unique (.next hpc hlast hin rest))
    rw [List.length_cons] at heq
    omega

theorem place (h : Freeblocks p usable pc blocks) (hpc : pc < 65536) : ∀ q ∈ blocks, q ≠ 0 ∧ q < 65536 := by
  induction h with
  | done | behind => simp
  | next hne _ _ _ ih => exact List.forall_mem_cons.mpr ⟨⟨hne,hpc⟩,ih (UInt16.toNat_lt _)⟩

theorem length_lt (h : Freeblocks p usable pc blocks) (hpc : pc < 65536) : blocks.length < 65536 := by
  have hno : (0 :: blocks).Nodup := List.nodup_cons.mpr ⟨fun hz => (h.place hpc 0 hz).1 rfl,h.nodup⟩
  have hsub : 0 :: blocks ⊆ List.range 65536 := by
    refine List.cons_subset.mpr ⟨by simp,fun q hq => ?_⟩
    exact List.mem_range.mpr (h.place hpc q hq).2
  simpa using (hno.subperm hsub).length_le

end Freeblocks

theorem readFreeblock_eq (hin : pc + 4 ≤ p.buffer.length) :
    readFreeblock p pc = .ok (wordAt p.buffer pc,wordAt p.buffer (pc + 2)) := by
  simp only [readFreeblock,readU16NoOffset,readU16At_eq,bind,Except.bind]
  rw [if_pos (by omega),if_pos (by omega)]

theorem checkFreeblocks_within (hus : 4 ≤ usable) (hbl : Freeblocks p usable pc blocks)
    (hend : ∀ pc ∈ blocks, pc + wordAt p.buffer (pc + 2) ≤ usable) (hfu : blocks.length < fuel)
    (hs : Within usable s) :
    ∃ s', checkFreeblocks p usable entry.pageIdx fuel pc s = some (.ok s') ∧ Within usable s' := by
  induction hbl generalizing fuel s with
  | done => exact ⟨s,by unfold checkFreeblocks; rfl,hs⟩
  | behind hpc hlast hin =>
    obtain ⟨pc,rfl⟩ := Nat.exists_eq_succ_of_ne_zero hpc
    obtain ⟨fuel,rfl⟩ : ∃ n, fuel = n + 1 := ⟨fuel - 1,by omega⟩
    simp only [checkFreeblocks,readFreeblock_eq hin,sub,if_neg (by omega : ¬usable < 4)]
    exact ⟨_,if_pos (by omega),by simpa [Within] using hs⟩
  | next hpc hlast hin rest ih =>
    obtain ⟨pc,rfl⟩ := Nat.exists_eq_succ_of_ne_zero hpc
    obtain ⟨fuel,rfl⟩ : ∃ n, fuel = n + 1 := ⟨fuel - 1,by omega⟩
    obtain ⟨hfirst,hend⟩ := List.forall_mem_cons.mp hend
    simp only [checkFreeblocks,readFreeblock_eq hin,sub,if_neg (by omega : ¬usable < 4)]
    rw [if_neg (by omega)]
    exact ih hend (by simpa using hfu) (List.forall_mem_cons.mpr ⟨hfirst,hs⟩)

theorem analyzeRanges_end (hend : prevEnd ≤ usable) (h : ∀ r ∈ ranges, r.stop ≤ usable) :
    (analyzeRanges pageIdx area prevEnd fragmentation ranges).1 ≤ usable := by
  induction ranges generalizing prevEnd fragmentation with
  | nil => exact hend
  | cons r ranges ih =>
    obtain ⟨hr,h⟩ := List.forall_mem_cons.mp h
    rw [analyzeRanges]
    split
    · exact hend
    · exact ih hr h

theorem checkCoverage_returns (hp : LegalPage p) (ho : Orderly p pager.usable)
    (hs : Within pager.usable s) : Returns (checkCoverage pager p pageIdx s) fun _ => True := by
  have hoff := hp.offset_eq
  have hsi := hp.size_ge
  have hend : ∀ area, (analyzeRanges pageIdx area _ 0 (pager.heap.pop s.ranges)).1 ≤ pager.usable := fun area =>
    analyzeRanges_end ho.area fun r hr => hs r ((pager.heap.perm _).mem_iff.mp hr)
  have har : p.cellContentArea = .ok _ := header_word hp (by decide)
  obtain ⟨fragments,hfr⟩ : ∃ n, p.numFragFreeBytes = .ok n :=
    ⟨_,by rw [numFragFreeBytes,readU8,index_eq,if_pos (by omega)]; rfl⟩
  simp only [checkCoverage,har,hfr,bind,Except.bind]
  refine Returns.bind (P := fun _ => True) ?_ fun _ _ => trivial
  simp only [analyze,usizeSub,if_neg (not_and_of_not_left _ (Nat.not_lt.mpr (hend _)))]
  exact (sub_returns (hend _)).bind fun _ _ => trivial

/-- A leaf without cells, whose usable space from byte 496 on is one freeblock. -/
def freePage (next : List UInt8) : PageContent :=
  pageOf [13, 1, 240, 0, 0, 1, 240, 0] (next ++ [0, 16, 0, 0, 0, 0, 0, 0, 0, 0, 0, 0, 0, 0])

def onePage (p : PageContent) : Pager :=
  ⟨fun _ => .ok p, 512, true, stableHeap⟩

def rootEntry : IntegrityCheckPageEntry := ⟨3, 0, Int64.maxValue⟩

/-- A leaf without cells and with two freeblocks, the first of them behind the second. -/
def pointsBack : PageContent :=
  pageOf [13, 1, 248, 0, 0, 1, 240, 0] [0, 0, 0, 8, 0, 0, 0, 0, 1, 240, 0, 8, 0, 0, 0, 0]

end OxiSql.Integrity
