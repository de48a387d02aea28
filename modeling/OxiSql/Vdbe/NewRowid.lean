import OxiSql.Btree.Backwards
import OxiSql.Btree.TableSeek
import OxiSql.Storage.Savepoints

namespace OxiSql.Vdbe
open Btree Lib Storage List

/-- A table as a cursor shows it: `seek_to_last` stands on its last rowid, and a seek for a rowid
says whether it is there. -/
structure RowTable where
  rowids : List Int
  ascending : rowids.Pairwise (· < ·)
  representable : ∀ rowid ∈ rowids, i64Min ≤ rowid ∧ rowid ≤ i64Max

namespace RowTable

def ofTree (hw : TableWellFormed pages h root) : RowTable where
  rowids := entries pages h root
  ascending := hw.sorted
  representable rowid hr := hw.range (.row rowid) ((mem_entries_iff hw.shape rowid).mp hr)

/-- A b-tree whose last leaf is not empty shows a cursor this table. -/
theorem ofTree_cursor (hw : TableWellFormed pages h root) (hh : h < btcursorMaxDepth)
    (hl : Cursor.lastLeaf pages h root ≠ []) :
    (∃ c, Ends (Cursor.moveToRightmost pages) (Cursor.new root).moveToRoot (.ok (true,c)) ∧
      c.current pages = (ofTree hw).rowids.getLast?) ∧
    ∀ rowid ≤ i64Max, ∃ fuel found c, (Cursor.new root).tablebtreeSeek pages rowid (.ge true) fuel =
      some (.ok (found,c)) ∧ (found = true ↔ rowid ∈ (ofTree hw).rowids) := by
  refine ⟨?_,fun rowid hr => ?_⟩
  · have hlen : ([] : List (Nat × Int)).length + h < btcursorMaxDepth := by simpa using hh
    rcases Cursor.moveToRightmost_subtree (c := .new root) hw.shape hlen with
      ⟨hempty,-⟩ | ⟨c,key,hen,-,hcur,hlast,-⟩
    · exact absurd hempty hl
    · exact ⟨c,hen,hcur.trans hlast.symm⟩
  · have hri : Cursor.SeeksRight pages h (.new root) rowid (.ge true) := by
      refine (Cursor.tablebtreeSeek_right_iff hw hr).mpr ⟨hh,fun n hn => ⟨fun d _ hse => ?_,nofun⟩⟩
      obtain rfl : n = rowid := by simpa [SeekOp.found] using hn.found
      exact (hse.1.trans_lt hse.2).false
    obtain ⟨fuel,found,c,hse,hiff,-⟩ := hri
    exact ⟨fuel,found,c,hse,by simpa [SeekOp.found,ofTree,Cursor.new] using hiff⟩

/-- The random probes, with those that are left. -/
def probe (t : RowTable) (sample : Nat → Int) (count : Nat) : Nat → Except LimboError Int
  | 0 => .error (.internalError "Failed to generate a new rowid")
  | left + 1 => if sample count ∈ t.rowids then t.probe sample (count + 1) left else .ok (sample count)

def getNewRowid (t : RowTable) (sample : Nat → Int) : Except LimboError Int :=
  let rowid :=
    match t.rowids.getLast? with
    | some rowid => if rowid + 1 ≤ i64Max then rowid + 1 else i64Max
    | none => 1
  if i64Max < rowid then t.probe sample 0 100 else .ok rowid

theorem le_last {t : RowTable} (hl : t.rowids.getLast? = some last) (hr : rowid ∈ t.rowids) : rowid ≤ last := by
  obtain ⟨before,heq⟩ := getLast?_eq_some_iff.mp hl
  have has := t.ascending
  rw [heq,pairwise_append] at has
  rw [heq,mem_append,mem_singleton] at hr
  rcases hr with hr | rfl
  · exact (has.2.2 rowid hr last (mem_singleton_self _)).le
  · exact le_rfl

theorem getNewRowid_max {t : RowTable} (hl : t.rowids.getLast? = some i64Max) (sample : Nat → Int) :
    t.getNewRowid sample = .ok i64Max := by
  have hlt : ¬i64Max + 1 ≤ i64Max := by omega
  simp [getNewRowid,hl]

/-- The largest rowid of all is the one that is not avoided: no probe is ever made. -/
theorem getNewRowid_fresh_iff (t : RowTable) :
    (∀ sample rowid, t.getNewRowid sample = .ok rowid → rowid ∉ t.rowids) ↔ i64Max ∉ t.rowids := by
  cases hl : t.rowids.getLast? with
  | none =>
    rw [getLast?_eq_none_iff.mp hl]
    simp
  | some last =>
    have hlast := mem_of_getLast? hl
    have hrange := (t.representable last hlast).2
    by_cases hlt : last + 1 ≤ i64Max
    · have hnew : ∀ sample, t.getNewRowid sample = .ok (last + 1) := fun sample => by
        rw [getNewRowid,hl]
        simp only [if_pos hlt,if_neg hlt.not_gt]
      have hfresh : ∀ rowid, last < rowid → rowid ∉ t.rowids := fun rowid hlt hm =>
        (le_last hl hm).not_gt hlt
      refine iff_of_true (fun sample rowid h => ?_) (hfresh _ hlt)
      rw [hnew,Except.ok.injEq] at h
      exact hfresh rowid (by omega)
    · obtain rfl : last = i64Max := by omega
      exact iff_of_false (fun h => h (fun _ => 1) i64Max (getNewRowid_max hl _) hlast) (not_not_intro hlast)

/-- All rowids but one are free, and the one is returned. -/
theorem largest_rowid_taken : ∃ t : RowTable, t.rowids = [i64Max] ∧
    ∀ sample, t.getNewRowid sample = .ok i64Max :=
  ⟨⟨[i64Max],by decide,by decide⟩,rfl,getNewRowid_max rfl⟩

end RowTable

end OxiSql.Vdbe
