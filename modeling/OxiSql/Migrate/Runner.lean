import Mathlib
import OxiSql.Lib.Runs

/-! Migrations: the files of a directory, the tracker table, and the runs and rollbacks that keep it. Every script
parses and succeeds. -/

namespace OxiSql.Migrate
open Lib List Function

abbrev Text := List Char

structure DirEntry where
  name : Text
  sql : Text
deriving DecidableEq

structure MigrationFile where
  version : Nat
  name : Text
  path : DirEntry
  downPath : Option DirEntry
deriving DecidableEq

/-- The text before and after the first `__`. -/
def splitSeparator : Text → Option (Text × Text)
  | '_' :: '_' :: rest => some ([], rest)
  | c :: rest => (splitSeparator rest).map fun (before, after) => (c :: before, after)
  | [] => none

/-- Fourteen digits never overflow a version. -/
def parseName (suffix name : Text) : Option (Nat × Text) :=
  if suffix.isSuffixOf name then
    (splitSeparator (name.take (name.length - suffix.length))).bind fun (digits, rest) =>
      if digits.length = 14 ∧ digits.all Char.isDigit ∧ rest ≠ [] then some (Nat.ofDigitChars 10 digits 0, rest)
      else none
  else none

def forwards (dir : List DirEntry) : List MigrationFile :=
  dir.filterMap fun entry =>
    if ".down.sql".toList.isSuffixOf entry.name then none
    else (parseName ".sql".toList entry.name).map fun (version, name) => ⟨version, name, entry, none⟩

def downs (dir : List DirEntry) : List (Nat × DirEntry) :=
  dir.filterMap fun entry => (parseName ".down.sql".toList entry.name).map fun (version, _) => (version, entry)

/-- The first file of a version takes the last down script of that version. -/
def pairDowns (downs : List (Nat × DirEntry)) : List Nat → List MigrationFile → List MigrationFile
  | _, [] => []
  | taken, mf :: rest =>
    { mf with downPath := if mf.version ∈ taken then none
        else (downs.reverse.find? (·.1 = mf.version)).map (·.2) } :: pairDowns downs (mf.version :: taken) rest

def scanMigrations (dir : List DirEntry) : List MigrationFile :=
  (pairDowns (downs dir) [] (forwards dir)).insertionSort (·.version ≤ ·.version)

inductive MigrationError where
  | checksumMismatch (version : Nat) (name : Text)
  | noDownMigration (version : Nat) (name : Text)
deriving DecidableEq

inductive Event where
  | up (mf : MigrationFile)
  | down (script : Nat × DirEntry)
deriving DecidableEq

/-- The rows of the tracker (version, name and checksum), and the scripts that were executed. -/
structure Db where
  rows : List (Nat × Text × Nat)
  log : List Event
deriving DecidableEq

variable (checksum : Text → Nat) (dir : List DirEntry)

def row (mf : MigrationFile) : Nat × Text × Nat :=
  (mf.version, mf.name, checksum mf.path.sql)

def Db.applied (db : Db) : List Nat :=
  db.rows.map (·.1)

def mismatch (db : Db) (mf : MigrationFile) : Bool :=
  (db.rows.find? (·.1 = mf.version)).any (·.2.2 ≠ checksum mf.path.sql)

def applyAll : List MigrationFile → Db → Db
  | [], db => db
  | mf :: rest, db => applyAll rest ⟨db.rows ++ [row checksum mf], db.log ++ [.up mf]⟩

def runWithConn (db : Db) : Except MigrationError Nat × Db :=
  match (scanMigrations dir).find? (mismatch checksum db) with
  | some mf => (.error (.checksumMismatch mf.version mf.name), db)
  | none =>
    let pending := (scanMigrations dir).filter (·.version ∉ db.applied)
    (.ok pending.length, applyAll checksum pending db)

def revertAll (files : List MigrationFile) : List Nat → Db → Option MigrationError × Db
  | [], db => (none, db)
  | version :: rest, db =>
    match files.reverse.find? (·.version = version) with
    | none => (some (.noDownMigration version "<orphaned>".toList), db)
    | some mf =>
      match mf.downPath with
      | none => (some (.noDownMigration version mf.name), db)
      | some script =>
        revertAll files rest ⟨db.rows.filter (·.1 ≠ version), db.log ++ [.down (version, script)]⟩

def rollbackWithConn (target : Nat) (db : Db) : Except MigrationError Nat × Db :=
  let versions := (db.applied.filter (target < ·)).insertionSort (· ≥ ·)
  match revertAll (scanMigrations dir) versions db with
  | (none, db') => (.ok versions.length, db')
  | (some e, db') => (.error e, db')

/-- A run, or a rollback to a version; what it returns is not needed for the next. -/
def step (db : Db) : Option Nat → Option Db
  | none => some (runWithConn checksum dir db).2
  | some target => some (rollbackWithConn dir target db).2

/-- The files that were executed and not reverted since, in the order in which they were. -/
def live : List Event → List MigrationFile :=
  List.foldl (fun files => fun
    | .up mf => files ++ [mf]
    | .down script => files.filter (·.version ≠ script.1)) []

@[simp] theorem live_up : live (events ++ [.up mf]) = live events ++ [mf] := by
  rw [live,foldl_append]
  rfl

@[simp] theorem live_down : live (events ++ [.down script]) = (live events).filter (·.version ≠ script.1) := by
  rw [live,foldl_append]
  rfl

/-- Every version has one file, and one down script if it can be rolled back. -/
structure Paired : Prop where
  single : ((forwards dir).map (·.version)).Nodup
  paired : (((downs dir).map (·.1)).filter (0 < ·)).Perm (((forwards dir).map (·.version)).filter (0 < ·))

theorem find?_eq_some_of_unique {α : Type} {l : List α} {p : α → Bool} {a : α} (ha : a ∈ l) (hp : p a)
    (hun : ∀ b ∈ l, p b → b = a) : l.find? p = some a := by
  cases hfi : l.find? p with
  | none => exact absurd hp (by simpa using find?_eq_none.mp hfi a ha)
  | some b => rw [hun b (mem_of_find?_eq_some hfi) (find?_some hfi)]

variable {checksum dir}

variable {files : List MigrationFile}

theorem pairDowns_eq (hno : (files.map (·.version)).Nodup) (hta : ∀ mf ∈ files, mf.version ∉ taken) :
    pairDowns scripts taken files = files.map fun mf =>
      { mf with downPath := (scripts.reverse.find? (·.1 = mf.version)).map (·.2) } := by
  induction files generalizing taken with
  | nil => rfl
  | cons mf files ih =>
    rw [map_cons,nodup_cons] at hno
    obtain ⟨hmf,hta⟩ := forall_mem_cons.mp hta
    rw [pairDowns,map_cons,if_neg hmf,ih hno.2]
    intro f hf hmem
    rcases mem_cons.mp hmem with heq | hmem
    · exact hno.1 (heq ▸ mem_map_of_mem hf)
    · exact hta f hf hmem

structure Scanned (dir : List DirEntry) (files : List MigrationFile) : Prop where
  sorted : files.Pairwise (·.version < ·.version)
  versions : (files.map (·.version)).Perm ((forwards dir).map (·.version))
  paths : (files.map (·.path)).Perm ((forwards dir).map (·.path))
  down : ∀ mf ∈ files, mf.downPath = ((downs dir).reverse.find? (·.1 = mf.version)).map (·.2)

theorem scanMigrations_perm (h : ((forwards dir).map (·.version)).Nodup) :
    (scanMigrations dir).Perm ((forwards dir).map fun mf =>
      { mf with downPath := ((downs dir).reverse.find? (·.1 = mf.version)).map (·.2) }) := by
  rw [scanMigrations,pairDowns_eq h (by simp)]
  exact perm_insertionSort ..

theorem scanMigrations_sorted (h : ((forwards dir).map (·.version)).Nodup) :
    (scanMigrations dir).Pairwise (·.version < ·.version) := by
  have hve := (scanMigrations_perm h).map (·.version)
  rw [map_map] at hve
  exact (List.pairwise_insertionSort (fun a b : MigrationFile => a.version ≤ b.version) _).imp₂
    (fun a b => Nat.lt_of_le_of_ne) (pairwise_map.mp (hve.nodup_iff.mpr h))

theorem scanned (h : ((forwards dir).map (·.version)).Nodup) : Scanned dir (scanMigrations dir) := by
  have hpe := scanMigrations_perm h
  refine ⟨scanMigrations_sorted h,?_,?_,fun mf hmf => ?_⟩
  · simpa [comp_def] using hpe.map (·.version)
  · simpa [comp_def] using hpe.map (·.path)
  · obtain ⟨f,-,rfl⟩ := mem_map.mp (hpe.mem_iff.mp hmf)
    rfl

def Tracks (checksum : Text → Nat) (files : List MigrationFile) (db : Db) : Prop :=
  db.rows = files.map (row checksum) ∧ live db.log = files

theorem applyAll_tracks (hdb : Tracks checksum files db) :
    Tracks checksum (files ++ post) (applyAll checksum post db) := by
  induction post generalizing files db with
  | nil => simpa [applyAll] using hdb
  | cons mf post ih =>
    have hnext : Tracks checksum (files ++ [mf]) ⟨db.rows ++ [row checksum mf],db.log ++ [.up mf]⟩ :=
      ⟨by simp [hdb.1],by rw [live_up,hdb.2]⟩
    simpa [applyAll] using ih hnext

theorem eq_of_version (hso : files.Pairwise (·.version < ·.version)) (hf : f ∈ files)
    (hg : g ∈ files) (h : f.version = g.version) : f = g :=
  inj_on_of_nodup_map (pairwise_map.mpr (hso.imp Nat.ne_of_lt)) hf hg h

theorem run_eq (hfi : scanMigrations dir = pre ++ post)
    (hso : (scanMigrations dir).Pairwise (·.version < ·.version)) (hdb : Tracks checksum pre db) :
    runWithConn checksum dir db = (.ok post.length,applyAll checksum post db) := by
  obtain ⟨-,-,hcr⟩ := pairwise_append.mp (hfi ▸ hso)
  have hap : db.applied = pre.map (·.version) := by simp [Db.applied,hdb.1,row]
  have hma : (scanMigrations dir).find? (mismatch checksum db) = none := by
    refine find?_eq_none.mpr fun mf hmf hmis => ?_
    obtain ⟨r,hr,hne⟩ := Option.any_eq_true _ _ |>.mp hmis
    obtain ⟨f,hf,rfl⟩ := mem_map.mp (hdb.1 ▸ mem_of_find?_eq_some hr)
    have hve : f.version = mf.version := of_decide_eq_true (find?_some hr :)
    obtain rfl := eq_of_version hso (hfi ▸ mem_append_left _ hf) hmf hve
    simp [row] at hne
  have hpe : (scanMigrations dir).filter (·.version ∉ db.applied) = post := by
    rw [hfi,hap,filter_append,filter_eq_nil_iff.mpr,filter_eq_self.mpr,nil_append]
    · intro mf hmf
      simp only [mem_map,decide_eq_true_eq,not_exists,not_and]
      exact fun f hf heq => (hcr f hf mf hmf).ne heq
    · exact fun mf hmf => by simpa using ⟨mf,hmf,rfl⟩
  simp only [runWithConn,hma,hpe]

theorem find?_version (hfi : files.Pairwise (·.version < ·.version)) (hmf : mf ∈ files) :
    files.reverse.find? (·.version = mf.version) = some mf :=
  find?_eq_some_of_unique (by simpa using hmf) (by simp) fun _ hg heq =>
    eq_of_version hfi (mem_reverse.mp hg) hmf (of_decide_eq_true heq)

theorem Tracks.revert (hso : (base ++ [mf]).Pairwise (·.version < ·.version))
    (hdb : Tracks checksum (base ++ [mf]) db) :
    Tracks checksum base ⟨db.rows.filter (·.1 ≠ mf.version), db.log ++ [.down (mf.version, script)]⟩ := by
  obtain ⟨-,-,hlast⟩ := pairwise_append.mp hso
  have hke : (base ++ [mf]).filter (·.version ≠ mf.version) = base := by
    rw [filter_append,filter_eq_self.mpr fun f hf => by simpa using (hlast f hf mf (by simp)).ne]
    simp
  constructor
  · rw [hdb.1,filter_map]
    exact congrArg _ hke
  · rw [live_down,hdb.2]
    exact hke

section

variable (hfi : files.Pairwise (·.version < ·.version)) (hsub : ∀ mf ∈ mid, mf ∈ files)
  (hso : (base ++ mid).Pairwise (·.version < ·.version)) (hdb : Tracks checksum (base ++ mid) db)
include hfi hsub hso hdb

/-- A version that cannot be reverted stops the rollback; those above it are reverted. -/
theorem revertAll_tracks :
    ∃ kept, kept <+: base ++ mid ∧ Tracks checksum kept (revertAll files (mid.reverse.map (·.version)) db).2 := by
  induction mid using List.reverseRecOn generalizing db with
  | nil => exact ⟨_,prefix_rfl,hdb⟩
  | append_singleton mid mf ih =>
    obtain ⟨hsub,hmf⟩ := forall_mem_append.mp hsub
    have hfin := find?_version hfi (hmf mf (mem_singleton_self _))
    rw [← append_assoc] at hso hdb ⊢
    rw [reverse_append,reverse_singleton,singleton_append,map_cons,revertAll]
    simp only [hfin]
    cases mf.downPath with
    | none => exact ⟨_,prefix_rfl,hdb⟩
    | some script =>
      obtain ⟨kept,hke,htr⟩ := ih hsub (pairwise_append.mp hso).1 (hdb.revert hso)
      exact ⟨kept,hke.trans (prefix_append ..),htr⟩

theorem revertAll_eq {script : Nat → DirEntry} (hdown : ∀ mf ∈ mid, mf.downPath = some (script mf.version)) :
    ∃ db', revertAll files (mid.reverse.map (·.version)) db = (none,db') ∧
      db'.log = db.log ++ mid.reverse.map fun mf => .down (mf.version,script mf.version) := by
  induction mid using List.reverseRecOn generalizing db with
  | nil => exact ⟨db,rfl,by simp⟩
  | append_singleton mid mf ih =>
    obtain ⟨hsub,hmf⟩ := forall_mem_append.mp hsub
    obtain ⟨hdown,hsc⟩ := forall_mem_append.mp hdown
    have hfin := find?_version hfi (hmf mf (mem_singleton_self _))
    rw [← append_assoc] at hso hdb
    obtain ⟨db',hrev,hlog⟩ := ih hsub (pairwise_append.mp hso).1
      (@Tracks.revert _ _ _ _ (script mf.version) hso hdb) hdown
    refine ⟨db',?_,by simp [hlog]⟩
    simpa [revertAll,hfin,hsc mf (by simp)] using hrev

end

theorem split_sorted (hso : files.Pairwise (·.version < ·.version)) :
    ∃ base mid, files = base ++ mid ∧ (∀ f ∈ base, f.version ≤ target) ∧ ∀ f ∈ mid, target < f.version := by
  induction files with
  | nil => exact ⟨[],[],rfl,by simp,by simp⟩
  | cons f files ih =>
    obtain ⟨hf,hso⟩ := pairwise_cons.mp hso
    by_cases hle : f.version ≤ target
    · obtain ⟨base,mid,rfl,hba,hmid⟩ := ih hso
      exact ⟨f :: base,mid,rfl,forall_mem_cons.mpr ⟨hle,hba⟩,hmid⟩
    · exact ⟨[],f :: files,rfl,by simp,forall_mem_cons.mpr ⟨by omega,fun g hg => by have := hf g hg; omega⟩⟩

/-- The versions to revert are those above the target, the highest first. -/
theorem rollback_versions (hso : (scanMigrations dir).Pairwise (·.version < ·.version))
    (hfi : scanMigrations dir = pre ++ post) (hdb : Tracks checksum pre db) (target : Nat) :
    ∃ base mid, pre = base ++ mid ∧ pre.Pairwise (·.version < ·.version) ∧ (∀ mf ∈ mid, mf ∈ scanMigrations dir) ∧
      (∀ f ∈ base, f.version ≤ target) ∧ (∀ f ∈ mid, target < f.version) ∧
      (db.applied.filter (target < ·)).insertionSort (· ≥ ·) = mid.reverse.map (·.version) := by
  have hso := (pairwise_append.mp (hfi ▸ hso)).1
  obtain ⟨base,mid,rfl,hbas,hmid⟩ := @split_sorted _ target hso
  refine ⟨base,mid,rfl,hso,fun mf hmf => by simp [hfi,hmf],hbas,hmid,?_⟩
  have hde : (mid.reverse.map (·.version)).Pairwise (· > ·) := by
    rw [pairwise_map,pairwise_reverse]
    exact (pairwise_append.mp hso).2.1
  have hap : db.applied = (base ++ mid).map (·.version) := by simp [Db.applied,hdb.1,row,comp_def]
  rw [hap,map_append,filter_append,filter_eq_nil_iff.mpr (by simpa using hbas),
    filter_eq_self.mpr (by simpa using hmid)]
  exact ((perm_insertionSort _ _).trans ((reverse_perm _).symm.map _)).eq_of_pairwise
    (fun a b _ _ hab hba => Nat.le_antisymm hba hab) (List.pairwise_insertionSort (· ≥ ·) _) (hde.imp Nat.le_of_lt)

theorem rollback_tracks (hso : (scanMigrations dir).Pairwise (·.version < ·.version))
    (hfi : scanMigrations dir = pre ++ post) (hdb : Tracks checksum pre db) :
    ∃ kept, kept <+: pre ∧ Tracks checksum kept (rollbackWithConn dir target db).2 := by
  obtain ⟨base,mid,rfl,hpre,hsub,-,-,hver⟩ := rollback_versions hso hfi hdb target
  obtain ⟨kept,hke,htr⟩ := revertAll_tracks hso hsub hpre hdb
  refine ⟨kept,hke,?_⟩
  rw [rollbackWithConn,hver]
  generalize revertAll (scanMigrations dir) (mid.reverse.map (·.version)) db = result at htr ⊢
  obtain ⟨_ | error,db'⟩ := result <;> exact htr

theorem rollback_eq (hdir : Paired dir) (hdb : Tracks checksum (scanMigrations dir) db) :
    ∃ n db', ∃ scripts : List (Nat × DirEntry), rollbackWithConn dir target db = (.ok n,db') ∧
      db'.log = db.log ++ scripts.map .down ∧
      scripts.Pairwise (·.1 > ·.1) ∧ ∀ d, d ∈ scripts ↔ d ∈ downs dir ∧ target < d.1 := by
  have hsc := scanned hdir.single
  obtain ⟨base,mid,hfi,hso,hsub,hbas,hmid,hver⟩ := rollback_versions hsc.sorted (append_nil _).symm hdb target
  have hun := hdir.paired.nodup_iff.mpr (hdir.single.filter _)
  rw [filter_map] at hun
  have hfo : ∀ d ∈ downs dir, 0 < d.1 → (downs dir).reverse.find? (·.1 = d.1) = some d := by
    intro d hd hpos
    refine find?_eq_some_of_unique (mem_reverse.mpr hd) (by simp) fun e he heq => ?_
    have hsa : e.1 = d.1 := of_decide_eq_true heq
    exact inj_on_of_nodup_map hun (by simpa [hsa,hpos] using he) (by simpa [hpos] using hd) hsa
  let script := fun v => (((downs dir).reverse.find? (·.1 = v)).map (·.2)).getD ⟨[],[]⟩
  have hdown : ∀ mf ∈ mid, (mf.version, script mf.version) ∈ downs dir ∧ mf.downPath = some (script mf.version) := by
    intro mf hmf
    have hpos : 0 < mf.version := Nat.lt_of_le_of_lt (Nat.zero_le target) (hmid mf hmf)
    have hpa := hdir.paired.mem_iff.mpr (mem_filter.mpr
      ⟨hsc.versions.mem_iff.mp (mem_map_of_mem (hsub mf hmf)),decide_eq_true hpos⟩)
    obtain ⟨d,hd,hve⟩ := mem_map.mp (mem_filter.mp hpa).1
    have hfin := hfo d hd (by rwa [hve])
    rw [hsc.down mf (hsub mf hmf),← hve]
    simpa [script,hfin] using hd
  rw [hfi] at hso hdb
  obtain ⟨db',hre,hlog⟩ := revertAll_eq hsc.sorted hsub hso hdb fun mf hmf => (hdown mf hmf).2
  refine ⟨mid.length,db',mid.reverse.map fun mf => (mf.version, script mf.version),?_,?_,?_,fun d => ⟨?_,?_⟩⟩
  · simp only [rollbackWithConn,hver,hre,length_map,length_reverse]
  · simp [hlog]
  · rw [pairwise_map,pairwise_reverse]
    exact (pairwise_append.mp hso).2.1
  · intro hd
    obtain ⟨mf,hmf,rfl⟩ := mem_map.mp hd
    have hmf := mem_reverse.mp hmf
    exact ⟨(hdown mf hmf).1,hmid mf hmf⟩
  · rintro ⟨hd,hta⟩
    have hpos : 0 < d.1 := by omega
    have hpa := hdir.paired.mem_iff.mp (mem_filter.mpr ⟨mem_map_of_mem hd,decide_eq_true hpos⟩)
    obtain ⟨mf,hmf,hve⟩ := mem_map.mp (hsc.versions.mem_iff.mpr (mem_filter.mp hpa).1)
    rw [hfi] at hmf
    refine mem_map.mpr ⟨mf,mem_reverse.mpr ((mem_append.mp hmf).resolve_left fun hbad => ?_),?_⟩
    · have := hbas mf hbad
      omega
    · rw [hve]
      simp [script,hfo d hd hpos]

/-- With a version that two files share, the tracker has two rows for it. A rollback needs the down scripts as
well. -/
theorem migrations_exact (hdir : ((forwards dir).map (·.version)).Nodup) (history : List (Option Nat))
    (hdb : Lib.run (step checksum dir) ⟨[], []⟩ history = some db) :
    ∃ n db', runWithConn checksum dir db = (.ok n, db') ∧ (live db'.log).Pairwise (·.version < ·.version) ∧
      ((live db'.log).map (·.path)).Perm ((forwards dir).map (·.path)) ∧
      db'.applied = (live db'.log).map (·.version) ∧ runWithConn checksum dir db' = (.ok 0, db') ∧
      (Paired dir → ∀ target, ∃ n db'', ∃ scripts : List (Nat × DirEntry),
        rollbackWithConn dir target db' = (.ok n, db'') ∧ db''.log = db'.log ++ scripts.map .down ∧
        scripts.Pairwise (·.1 > ·.1) ∧ ∀ d, d ∈ scripts ↔ d ∈ downs dir ∧ target < d.1) := by
  have hsc := scanned hdir
  have hinv : ∃ pre, pre <+: scanMigrations dir ∧ Tracks checksum pre db := by
    refine run_invariant_of_step (I := fun db => ∃ pre, pre <+: scanMigrations dir ∧ Tracks checksum pre db) ?_
      ⟨[], nil_prefix,rfl,rfl⟩ hdb
    rintro db (_ | target) db' ⟨pre,⟨post,hpre⟩,htr⟩ hst <;> cases hst
    · exact ⟨_,prefix_rfl,by rw [run_eq hpre.symm hsc.sorted htr,← hpre]; exact applyAll_tracks htr⟩
    · obtain ⟨kept,hke,htr⟩ := rollback_tracks hsc.sorted hpre.symm htr
      exact ⟨kept,hke.trans ⟨post,hpre⟩,htr⟩
  obtain ⟨pre,⟨post,hpre⟩,htr⟩ := hinv
  have htr' : Tracks checksum (scanMigrations dir) (applyAll checksum post db) := hpre ▸ applyAll_tracks htr
  refine ⟨_,_,run_eq hpre.symm hsc.sorted htr,?_⟩
  rw [htr'.2]
  refine ⟨hsc.sorted,hsc.paths,?_,run_eq (append_nil _).symm hsc.sorted htr',fun hpa target => rollback_eq hpa htr'⟩
  simp [Db.applied,htr'.1,row]

def reversible : List DirEntry :=
  [⟨"20260102000000__b.sql".toList, ['2']⟩, ⟨"20260101000000__a.down.sql".toList, []⟩,
    ⟨"20260101000000__a.sql".toList, ['1']⟩, ⟨"20260102000000__b.down.sql".toList, []⟩]

/-- After a run, a rollback of the second migration and another run. -/
theorem migrations_exact_pair : ∃ n db db',
    Lib.run (step List.length reversible) ⟨[], []⟩ [none, some 20260101000000] = some db ∧ db.rows.length = 1 ∧
    runWithConn List.length reversible db = (.ok n, db') ∧
    db'.applied = (live db'.log).map (·.version) ∧ runWithConn List.length reversible db' = (.ok 0, db') ∧
    ∃ n db'', ∃ scripts : List (Nat × DirEntry), rollbackWithConn reversible 0 db' = (.ok n, db'') ∧
      db''.log = db'.log ++ scripts.map .down ∧ ∀ d, d ∈ scripts ↔ d ∈ downs reversible ∧ 0 < d.1 := by
  have hdir : Paired reversible := ⟨by decide +kernel,by decide +kernel⟩
  obtain ⟨n,db',hrun,-,-,hap,hag,hro⟩ := @migrations_exact List.length _ _ hdir.single
    [none, some 20260101000000] rfl
  obtain ⟨m,db'',scripts,hok,hlog,-,hmem⟩ := hro hdir 0
  exact ⟨n,_,db',rfl,by decide +kernel,hrun,hap,hag,m,db'',scripts,hok,hlog,hmem⟩

def sharedVersion : List DirEntry :=
  [⟨"20260101000000__a.sql".toList, ['1']⟩, ⟨"20260101000000__b.sql".toList, []⟩]

/-- Both files are executed, the tracker has two rows, and the next run fails. -/
theorem sharedVersion_twice : (runWithConn List.length sharedVersion ⟨[], []⟩).1 = .ok 2 ∧
      (runWithConn List.length sharedVersion ⟨[], []⟩).2.applied = [20260101000000, 20260101000000] ∧
      (runWithConn List.length sharedVersion (runWithConn List.length sharedVersion ⟨[], []⟩).2).1 =
        .error (.checksumMismatch 20260101000000 ['b']) := by
  decide +kernel

end OxiSql.Migrate
