import OxiSql.Mvcc.Database

/-! The cursors that scan a table of the store, which nobody changes meanwhile. -/

namespace OxiSql.Mvcc
open List MvStore

def i64Max : Int := 2 ^ 63 - 1

namespace MvStore

/-- The keys of a table from one on, in order. The range ends before the largest row id there is. -/
def range (s : MvStore) (tableId : Nat) (start : Int) : List RowID :=
  (s.rows.keys.filter fun id => id.tableId = tableId ∧ start ≤ id.rowId ∧ id.rowId < i64Max).mergeSort
    fun a b => a.rowId ≤ b.rowId

def scanRowIdsForTable (s : MvStore) (tableId : Nat) : List RowID :=
  s.range tableId 0

def getRowIdRange (s : MvStore) (tableId : Nat) (start : Int) (maxItems : Nat) : List RowID :=
  (s.range tableId start).take maxItems

def getNextRowIdForTable (s : MvStore) (tableId : Nat) (start : Int) : Option RowID :=
  (s.range tableId start).head?

variable {s : MvStore} {id : RowID}

theorem mem_range : id ∈ s.range tableId start ↔
    id ∈ s.rows.keys ∧ id.tableId = tableId ∧ start ≤ id.rowId ∧ id.rowId < i64Max := by
  simp [range]

theorem range_ascending (s : MvStore) (tableId : Nat) (start : Int) :
    (s.range tableId start).Pairwise fun a b => a.rowId < b.rowId := by
  have hle : (s.range tableId start).Pairwise fun a b => a.rowId ≤ b.rowId := by
    have hsorted := @pairwise_mergeSort RowID (fun a b => a.rowId ≤ b.rowId)
      (fun a b c hab hbc => by simp at *; omega) (fun a b => by simp; omega)
    simpa [range] using hsorted _
  have hne : (s.range tableId start).Nodup := (mergeSort_perm _ _).nodup_iff.mpr (s.rows.keys_nodup.filter _)
  refine (hle.and hne).imp_of_mem fun {a b} ha hb hab => Int.lt_iff_le_and_ne.mpr ⟨hab.1,fun heq => hab.2 ?_⟩
  have hta := (mem_range.mp ha).2.1.trans (mem_range.mp hb).2.1.symm
  cases a
  simp_all

/-- Behind one of its rows a range is what follows it. -/
theorem range_after (h : s.range tableId start = pre ++ id :: post) :
    s.range tableId (id.rowId + 1) = post := by
  have has := s.range_ascending tableId start
  rw [h,pairwise_append,pairwise_cons] at has
  obtain ⟨-,⟨hpost,hsorted⟩,hpre⟩ := has
  have hstart := (mem_range.mp (h ▸ by simp : id ∈ s.range tableId start)).2.2.1
  have hnodup : ∀ {l : List RowID}, (l.Pairwise fun a b => a.rowId < b.rowId) → l.Nodup :=
    fun hl => hl.imp fun hab heq => by simp [heq] at hab
  have hperm : (s.range tableId (id.rowId + 1)).Perm post := by
    refine (perm_ext_iff_of_nodup (hnodup (range_ascending ..)) (hnodup hsorted)).mpr fun x => ?_
    have hx : x ∈ s.range tableId start ↔ x ∈ pre ∨ x = id ∨ x ∈ post := by rw [h,mem_append,mem_cons]
    rw [mem_range] at hx ⊢
    constructor
    · rintro ⟨hkey,hta,hge,hlt⟩
      rcases hx.mp ⟨hkey,hta,by omega,hlt⟩ with hx | rfl | hx
      · have := hpre x hx id (.head _)
        omega
      · omega
      · exact hx
    · intro hin
      obtain ⟨hkey,hta,-,hlt⟩ := hx.mpr (.inr (.inr hin))
      exact ⟨hkey,hta,hpost x hin,hlt⟩
  exact hperm.eq_of_pairwise (fun a b _ _ hab hba => absurd hab (by omega)) (range_ascending ..) hsorted

end MvStore

/-- What a cursor stands on, one after the other, until `forward` says that there is no more. -/
inductive Visits {σ : Type} (current : σ → Option RowID) (forward : σ → Bool × σ) : σ → List RowID → Prop
  | last {c : σ} : (forward c).1 = false → Visits current forward c (current c).toList
  | more {c : σ} {l : List RowID} : (forward c).1 = true → Visits current forward (forward c).2 l →
      Visits current forward c ((current c).toList ++ l)

/-- A cursor that stands on the first of the rows that are left, and goes on to the next. -/
theorem Visits.of_rest {σ : Type} {current : σ → Option RowID} {forward : σ → Bool × σ}
    (R : σ → List RowID → Prop) (hend : ∀ {c}, R c [] → current c = none ∧ (forward c).1 = false)
    (hrow : ∀ {c id l}, R c (id :: l) → current c = some id ∧ (forward c).1 = !l.isEmpty ∧
      (l ≠ [] → R (forward c).2 l)) {c : σ} (h : R c l) : Visits current forward c l := by
  induction l generalizing c with
  | nil =>
    obtain ⟨hnone,hfo⟩ := hend h
    have hlast : Visits current forward c (current c).toList := .last hfo
    rwa [hnone] at hlast
  | cons id l ih =>
    obtain ⟨hsome,hfo,hnext⟩ := hrow h
    cases l with
    | nil =>
      have hlast : Visits current forward c (current c).toList := .last hfo
      rwa [hsome] at hlast
    | cons id' l =>
      have hmore := Visits.more hfo (ih (hnext nofun))
      rwa [hsome] at hmore

variable (s : MvStore) (tableId : Nat)

structure ScanCursor where
  rowIds : List RowID
  index : Nat

namespace ScanCursor

def new : ScanCursor :=
  ⟨s.scanRowIdsForTable tableId, 0⟩

def currentRowId (c : ScanCursor) : Option RowID :=
  c.rowIds[c.index]?

def forward (c : ScanCursor) : Bool × ScanCursor :=
  (c.index + 1 < c.rowIds.length, { c with index := c.index + 1 })

theorem visits : Visits currentRowId forward (new s tableId) (s.range tableId 0) := by
  refine .of_rest (fun c l => ∃ pre, c = ⟨pre ++ l,pre.length⟩) ?_ ?_ ⟨[],rfl⟩
  · simp [currentRowId,forward]
  · rintro _ id l ⟨pre,rfl⟩
    refine ⟨by simp [currentRowId],?_,fun _ => ⟨pre ++ [id],by simp [forward]⟩⟩
    cases l <;> simp [forward]

end ScanCursor

structure LazyScanCursor where
  db : MvStore
  currentPos : Option RowID
  prevPos : Option RowID
  tableId : Nat

namespace LazyScanCursor

def new : LazyScanCursor :=
  ⟨s, s.getNextRowIdForTable tableId 0, none, tableId⟩

def forward (c : LazyScanCursor) : Bool × LazyScanCursor :=
  let c := { c with prevPos := c.currentPos }
  match c.prevPos with
  | some id =>
    let c := { c with currentPos := c.db.getNextRowIdForTable c.tableId (id.rowId + 1) }
    (c.currentPos.isSome, c)
  | none => (false, c)

theorem visits : Visits currentPos forward (new s tableId) (s.range tableId 0) := by
  refine .of_rest (fun c l => ∃ start prev, c = ⟨s,l.head?,prev,tableId⟩ ∧ s.range tableId start = l) ?_ ?_
    ⟨0,none,rfl,rfl⟩
  · simp [forward]
  · rintro _ id l ⟨start,prev,rfl,hl⟩
    have hafter : s.range tableId (id.rowId + 1) = l := range_after (hl.trans (nil_append _).symm)
    have hfo : forward ⟨s,some id,prev,tableId⟩ = (l.head?.isSome, ⟨s,l.head?,some id,tableId⟩) := by
      simp [forward,getNextRowIdForTable,hafter]
    refine ⟨rfl,?_,fun _ => ⟨id.rowId + 1,some id,congrArg Prod.snd hfo,hafter⟩⟩
    cases l <;> simp [hfo]

end LazyScanCursor

structure BucketScanCursor where
  db : MvStore
  bucket : List RowID
  bucketSize : Nat
  tableId : Nat
  index : Nat

namespace BucketScanCursor

/-- The limit of `with_capacity` on the size is left out. -/
def new (size : Nat) : BucketScanCursor :=
  ⟨s, s.getRowIdRange tableId 0 size, size, tableId, 0⟩

def currentRowId (c : BucketScanCursor) : Option RowID :=
  c.bucket[c.index]?

def nextBucket (c : BucketScanCursor) : Bool × BucketScanCursor :=
  match c.bucket.getLast? with
  | some last =>
    let bucket := c.db.getRowIdRange c.tableId (last.rowId + 1) c.bucketSize
    (!bucket.isEmpty, { c with bucket := bucket, index := 0 })
  | none => (false, { c with bucket := [] })

def forward (c : BucketScanCursor) : Bool × BucketScanCursor :=
  let c := { c with index := c.index + 1 }
  if c.index < c.bucket.length then (true, c) else c.nextBucket

theorem visits (hsize : 1 ≤ size) : Visits currentRowId forward (new s tableId size) (s.range tableId 0) := by
  refine .of_rest (fun c l => ∃ start pre, s.range tableId start = pre ++ l ∧ pre.length < size ∧
    (l = [] → pre = []) ∧ c = ⟨s,(pre ++ l).take size,size,tableId,pre.length⟩) ?_ ?_
    ⟨0,[],rfl,hsize,fun _ => rfl,rfl⟩
  · rintro _ ⟨start,pre,-,-,hpre,rfl⟩
    rw [hpre rfl]
    simp [currentRowId,forward,nextBucket]
  · rintro _ id l ⟨start,pre,hl,hlt,-,rfl⟩
    refine ⟨by simp [currentRowId,hlt],?_⟩
    by_cases hin : l ≠ [] ∧ pre.length + 1 < size
    · have hpos := length_pos_iff.mpr hin.1
      have hfo : forward ⟨s,(pre ++ id :: l).take size,size,tableId,pre.length⟩ =
          (true, ⟨s,(pre ++ id :: l).take size,size,tableId,pre.length + 1⟩) :=
        if_pos (by simp; omega)
      rw [hfo]
      exact ⟨by simp [hin.1],fun _ => ⟨start,pre ++ [id],by simp [hl],by simp [hin.2],
        fun h => absurd h hin.1,by simp⟩⟩
    · have hbu : (pre ++ id :: l).take size = pre ++ [id] := by
        by_cases hnil : l = []
        · rw [hnil,take_of_length_le (by simp; omega)]
        · have hlast : ¬pre.length + 1 < size := fun h => hin ⟨hnil,h⟩
          rw [append_cons,take_left' (by simp; omega)]
      have hafter := range_after hl
      have hfo : forward ⟨s,pre ++ [id],size,tableId,pre.length⟩ =
          (!(l.take size).isEmpty, ⟨s,l.take size,size,tableId,0⟩) := by
        simp [forward,nextBucket,getRowIdRange,hafter]
      rw [hbu,hfo]
      have hne : size ≠ 0 := by omega
      refine ⟨?_,fun _ => ⟨id.rowId + 1,[],hafter,hsize,fun _ => rfl,rfl⟩⟩
      cases l <;> simp [hne]

end BucketScanCursor

/-- Every row with a version that the transaction sees, once and in order. -/
structure Complete (tx : Transaction) (visited : List RowID) : Prop where
  ascending : visited.Pairwise fun a b => a.rowId < b.rowId
  visible : ∀ id, id.tableId = tableId → (∃ rv ∈ s.versions id, rv.isVisibleTo tx s.txs) → id ∈ visited

theorem mem_keys_of_version {s : MvStore} {id : RowID} (h : rv ∈ s.versions id) : id ∈ s.rows.keys := by
  rw [← AList.mem_keys,← AList.lookup_isSome]
  cases hro : s.rows.lookup id with
  | none => simp [versions,hro] at h
  | some versions => rfl

open ScanCursor in
/-- All three visit the same rows, and miss those before 0 and the largest row id there is. -/
theorem scans_complete_iff (tx : Transaction) {size : Nat} (hsize : 1 ≤ size) :
    ∃ visited, Visits currentRowId forward (new s tableId) visited ∧
      Visits LazyScanCursor.currentPos LazyScanCursor.forward (.new s tableId) visited ∧
      Visits BucketScanCursor.currentRowId BucketScanCursor.forward (.new s tableId size) visited ∧
      (Complete s tableId tx visited ↔ ∀ id : RowID, id.tableId = tableId →
        (∃ rv ∈ s.versions id, rv.isVisibleTo tx s.txs) → 0 ≤ id.rowId ∧ id.rowId < i64Max) := by
  refine ⟨s.range tableId 0,visits s tableId,LazyScanCursor.visits s tableId,
    BucketScanCursor.visits s tableId hsize,?_⟩
  constructor
  · exact fun h id hta hvi => (mem_range.mp (h.visible id hta hvi)).2.2
  · refine fun h => ⟨s.range_ascending ..,fun id hta hvi => ?_⟩
    obtain ⟨hlo,hhi⟩ := h id hta hvi
    obtain ⟨rv,hrv,-⟩ := hvi
    exact mem_range.mpr ⟨mem_keys_of_version hrv,hta,hlo,hhi⟩

/-- Rows of table 1, all committed at 0. -/
def committedRows (rowIds : List Int) : MvStore :=
  { rows := ((rowIds.map (RowID.mk 1)).map fun id =>
      (⟨id, [⟨.timestamp 0, none, ⟨id, []⟩⟩]⟩ : Sigma fun _ => List RowVersion)).toAList }

def edgeRows : MvStore :=
  committedRows [-1, 7, i64Max]

open ScanCursor in
theorem scans_complete_buckets : let s := committedRows [1,2,3]
    ∃ visited, Visits currentRowId forward (new s 1) visited ∧
      Visits LazyScanCursor.currentPos LazyScanCursor.forward (.new s 1) visited ∧
      Visits BucketScanCursor.currentRowId BucketScanCursor.forward (.new s 1 2) visited ∧
      Complete s 1 (.new 1 0) visited := by
  obtain ⟨visited,hscan,hlazy,hbucket,hiff⟩ :=
    scans_complete_iff (committedRows [1,2,3]) 1 (.new 1 0) (show 1 ≤ 2 by decide)
  refine ⟨visited,hscan,hlazy,hbucket,hiff.mpr fun id hta hvi => ?_⟩
  obtain ⟨rv,hrv,-⟩ := hvi
  have hids : ∀ id ∈ (committedRows [1,2,3]).rows.keys, 0 ≤ id.rowId ∧ id.rowId < i64Max := by decide +kernel
  exact hids id (mem_keys_of_version hrv)

/-- Of three rows that every transaction sees one is visited. -/
theorem edge_rows_missed : (∀ id ∈ [-1, 7, i64Max].map (RowID.mk 1),
      ∃ rv ∈ edgeRows.versions id, rv.isVisibleTo (.new 1 0) edgeRows.txs) ∧
    Visits ScanCursor.currentRowId ScanCursor.forward (.new edgeRows 1) [⟨1, 7⟩] ∧
    Visits LazyScanCursor.currentPos LazyScanCursor.forward (.new edgeRows 1) [⟨1, 7⟩] ∧
    Visits BucketScanCursor.currentRowId BucketScanCursor.forward (.new edgeRows 1 1) [⟨1, 7⟩] := by
  have hrange : edgeRows.range 1 0 = [⟨1,7⟩] := by decide +kernel
  rw [← hrange]
  exact ⟨by decide +kernel,ScanCursor.visits ..,LazyScanCursor.visits ..,BucketScanCursor.visits _ _ le_rfl⟩

end OxiSql.Mvcc
