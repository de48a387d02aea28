import OxiSql.Migrate.Runner

namespace OxiSql.Migrate
open List

/-- The name of the down script with the version and the name of a forward script. -/
def downName (name : Text) : Text :=
  name.take (name.length - 4) ++ ".down.sql".toList

/-- No two forward scripts have one version, and no down script has the version of a forward script but not its
name. -/
structure Distinct (dir : List DirEntry) : Prop where
  single : ((forwards dir).map (·.version)).Nodup
  own : ∀ mf ∈ forwards dir, ∀ d ∈ downs dir, d.1 = mf.version → d.2.name = downName mf.path.name

theorem Distinct.perm (h : Distinct dir) (hp : dir.Perm dir') : Distinct dir' :=
  ⟨((hp.filterMap _).map _).nodup_iff.mp h.single,fun mf hmf d hd =>
    h.own mf ((hp.filterMap _).mem_iff.mpr hmf) d ((hp.filterMap _).mem_iff.mpr hd)⟩

theorem mem_forwards (h : mf ∈ forwards dir) : mf.path ∈ dir ∧ forwards [mf.path] = [mf] ∧
    parseName ".sql".toList mf.path.name = some (mf.version, mf.name) ∧ mf.downPath = none := by
  obtain ⟨entry,hmem,hen⟩ := mem_filterMap.mp h
  have hone : forwards [entry] = [mf] := by
    rw [forwards,filterMap_cons]
    simp only [hen,filterMap_nil]
  split at hen
  · cases hen
  · obtain ⟨_,hpa,rfl⟩ := Option.map_eq_some_iff.mp hen
    exact ⟨hmem,hone,hpa,rfl⟩

theorem mem_downs : (version, entry) ∈ downs dir ↔
    entry ∈ dir ∧ ∃ name, parseName ".down.sql".toList entry.name = some (version, name) := by
  simp only [downs,mem_filterMap,Option.map_eq_some_iff]
  constructor
  · rintro ⟨e,he,⟨v,name⟩,hpa,h⟩
    cases h
    exact ⟨he,name,hpa⟩
  · rintro ⟨he,name,hpa⟩
    exact ⟨entry,he,_,hpa,rfl⟩

theorem parseName_downName (h : parseName ".sql".toList name = some parsed) :
    parseName ".down.sql".toList (downName name) = some parsed := by
  unfold parseName at h ⊢
  split at h
  · simpa [downName] using h
  · cases h

theorem Distinct.downPath_iff (h : Distinct dir) (hn : (dir.map (·.name)).Nodup) (hmf : mf ∈ forwards dir) :
    ((downs dir).reverse.find? (·.1 = mf.version)).map (·.2) = some p ↔ p ∈ dir ∧ p.name = downName mf.path.name := by
  constructor
  · intro hp
    obtain ⟨_,hd,rfl⟩ := Option.map_eq_some_iff.mp hp
    have hmem := mem_reverse.mp (mem_of_find?_eq_some hd)
    exact ⟨(mem_downs.mp hmem).1,h.own mf hmf _ hmem (of_decide_eq_true (find?_some hd :))⟩
  · rintro ⟨hp,hna⟩
    have hmem : (mf.version, p) ∈ downs dir :=
      mem_downs.mpr ⟨hp,mf.name,hna ▸ parseName_downName (mem_forwards hmf).2.2.1⟩
    rw [find?_eq_some_of_unique (mem_reverse.mpr hmem) (by simp)]
    · rfl
    · rintro ⟨version,q⟩ hq heq
      obtain rfl : version = mf.version := of_decide_eq_true heq
      have hq := mem_reverse.mp hq
      rw [inj_on_of_nodup_map hn (mem_downs.mp hq).1 hp ((h.own mf hmf _ hq rfl).trans hna.symm)]

theorem pairDowns_path (scripts : List (Nat × DirEntry)) (taken : List Nat) (files : List MigrationFile) :
    (pairDowns scripts taken files).map (·.path) = files.map (·.path) := by
  induction files generalizing taken with
  | nil => rfl
  | cons mf files ih => rw [pairDowns,map_cons,map_cons,ih]

theorem scanMigrations_path (dir : List DirEntry) :
    ((scanMigrations dir).map (·.path)).Perm ((forwards dir).map (·.path)) :=
  ((perm_insertionSort ..).map _).trans (.of_eq (pairDowns_path ..))

/-- The sort is stable: of two scripts of one version the one listed first comes first. -/
theorem scanMigrations_tied (hf : f ∈ forwards dir) (hg : g ∈ forwards dir) (h : f.version = g.version) :
    [f.path,g.path] <+ (scanMigrations (f.path :: g.path :: rest)).map (·.path) := by
  have hfo : forwards (f.path :: g.path :: rest) = f :: g :: forwards rest := by
    rw [show f.path :: g.path :: rest = [f.path] ++ ([g.path] ++ rest) from rfl,forwards,filterMap_append,
      filterMap_append]
    exact congrArg₂ (· ++ ·) (mem_forwards hf).2.1 (congrArg (· ++ _) (mem_forwards hg).2.1)
  obtain ⟨down,down',files,hpa⟩ : ∃ down down' files, pairDowns (downs (f.path :: g.path :: rest)) []
      (f :: g :: forwards rest) = { f with downPath := down } :: { g with downPath := down' } :: files :=
    ⟨_,_,_,rfl⟩
  rw [scanMigrations,hfo,hpa]
  refine @Sublist.map _ _ MigrationFile.path [{ f with downPath := down },{ g with downPath := down' }] _ ?_
  exact pair_sublist_insertionSort h.le (((nil_sublist files).cons_cons _).cons_cons _)

theorem forwards_path (dir : List DirEntry) : (forwards dir).map (·.path) <+ dir := by
  induction dir with
  | nil => exact .slnil
  | cons entry dir ih =>
    rw [forwards,filterMap_cons]
    split
    · exact ih.cons _
    · rename_i mf hmf
      have hpa := (@mem_forwards [entry] mf (mem_filterMap.mpr ⟨entry,mem_singleton_self _,hmf⟩)).1
      rw [map_cons,mem_singleton.mp hpa]
      exact ih.cons_cons _

theorem not_sublist_swap {l : List α} (hno : l.Nodup) (hab : [a,b] <+ l) : ¬[b,a] <+ l := by
  induction l with
  | nil => cases hab
  | cons c l ih =>
    obtain ⟨hc,hno⟩ := nodup_cons.mp hno
    intro hba
    cases hab with
    | cons _ hab =>
      cases hba with
      | cons _ hba => exact ih hno hab hba
      | cons_cons => exact hc (hab.subset (by simp))
    | cons_cons _ hb =>
      cases hba with
      | cons _ hba => exact hc (hba.subset (by simp))
      | cons_cons => exact hc (hb.subset (by simp))

/-- What the scan should be: one list for every listing, sorted, with each forward script once and its own down
script. -/
def Listed (dir : List DirEntry) : Prop :=
  ∀ dir', dir.Perm dir' → scanMigrations dir' = scanMigrations dir ∧
    (scanMigrations dir').Pairwise (·.version ≤ ·.version) ∧
    ((scanMigrations dir').map fun mf => { mf with downPath := none }).Perm (forwards dir) ∧
    ∀ mf ∈ scanMigrations dir', ∀ p, mf.downPath = some p ↔ p ∈ dir ∧ p.name = downName mf.path.name

section

variable {dir : List DirEntry} (hn : (dir.map (·.name)).Nodup)
include hn

theorem Distinct.listed (h : Distinct dir) : Listed dir := by
  have hpe := scanMigrations_perm h.single
  have hso := scanMigrations_sorted h.single
  intro dir' hp
  have hsa : scanMigrations dir' = scanMigrations dir := by
    refine Perm.eq_of_pairwise (fun a b _ _ hab hba => absurd hab hba.asymm)
      (scanMigrations_sorted (h.perm hp).single) hso
      ((scanMigrations_perm (h.perm hp).single).trans (.trans ?_ hpe.symm))
    refine ((hp.filterMap _).map _).symm.trans (.of_eq (map_congr_left fun mf hmf => ?_))
    congr 1
    refine Option.ext fun p => ?_
    rw [(h.perm hp).downPath_iff ((hp.map _).nodup_iff.mp hn) ((hp.filterMap _).mem_iff.mp hmf),
      h.downPath_iff hn hmf,hp.mem_iff]
  rw [hsa]
  refine ⟨rfl,hso.imp Nat.le_of_lt,?_,fun mf hmf p => ?_⟩
  · have hma := hpe.map fun mf => { mf with downPath := none }
    rw [map_map] at hma
    refine hma.trans (.of_eq ((map_congr_left fun mf hmf => ?_).trans (map_id _)))
    rw [Function.comp,← (mem_forwards hmf).2.2.2,id]
  · obtain ⟨f,hf,rfl⟩ := mem_map.mp (hpe.mem_iff.mp hmf)
    exact h.downPath_iff hn hf

theorem Listed.single (h : Listed dir) : ((forwards dir).map (·.version)).Nodup := by
  have hpa := (forwards_path dir).nodup (.of_map _ hn)
  refine Nodup.map_on (fun f hf g hg heq => ?_) ?_
  · by_contra hne
    have hfg : f.path ≠ g.path := fun heq => hne (inj_on_of_nodup_map hpa hf hg heq)
    -- the two scripts listed first, in both orders
    have hmem := (mem_erase_of_ne hfg.symm).mpr (mem_forwards hg).1
    have hpe : dir.Perm (f.path :: g.path :: (dir.erase f.path).erase g.path) :=
      (perm_cons_erase (mem_forwards hf).1).trans ((perm_cons_erase hmem).cons _)
    have hfirst := @scanMigrations_tied dir f g ((dir.erase f.path).erase g.path) hf hg heq
    have hsecond := @scanMigrations_tied dir g f ((dir.erase f.path).erase g.path) hg hf heq.symm
    rw [(h _ hpe).1] at hfirst
    rw [(h _ (hpe.trans (.swap ..))).1] at hsecond
    exact not_sublist_swap ((scanMigrations_path dir).nodup_iff.mpr hpa) hfirst hsecond
  · exact .of_map _ hpa

/-- The down script listed last is the one taken. -/
theorem Listed.own (h : Listed dir) (hmf : mf ∈ forwards dir) (hd : (mf.version, entry) ∈ downs dir) :
    entry.name = downName mf.path.name := by
  obtain ⟨hen,name,hna⟩ := mem_downs.mp hd
  have hpe : dir.Perm (dir.erase entry ++ [entry]) :=
    (perm_cons_erase hen).trans (@perm_append_comm _ [entry] _)
  have hlast : ((downs (dir.erase entry ++ [entry])).reverse.find? (·.1 = mf.version)).map (·.2) = some entry := by
    have hone : downs [entry] = [(mf.version, entry)] := by
      rw [downs,filterMap_cons]
      simp only [hna,Option.map_some,filterMap_nil]
    rw [downs,filterMap_append,show filterMap _ [entry] = _ from hone,reverse_append,reverse_singleton,
      singleton_append,find?_cons_of_pos (by simp only [decide_true]),Option.map_some]
  have hscan := scanMigrations_perm (((hpe.filterMap _).map _).nodup_iff.mp (h.single hn))
  have hmem := hscan.mem_iff.mpr (mem_map_of_mem ((hpe.filterMap _).mem_iff.mp hmf))
  exact (((h _ hpe).2.2.2 _ hmem entry).mp hlast).2

end

/-- The scan is what it should be for the directories in which versions tell the scripts apart, and for no others. -/
theorem scanMigrations_listing {dir : List DirEntry} (hn : (dir.map (·.name)).Nodup) : Listed dir ↔ Distinct dir := by
  refine ⟨fun h => ⟨h.single hn,fun mf hmf d hd hve => ?_⟩,fun h => h.listed hn⟩
  obtain ⟨version,entry⟩ := d
  obtain rfl : version = mf.version := hve
  exact h.own hn hmf hd

theorem scanMigrations_listing_reversible : scanMigrations reversible.reverse = scanMigrations reversible :=
  (((scanMigrations_listing (by decide)).mpr ⟨by decide +kernel,by decide +kernel⟩) _ (reverse_perm _).symm).1

/-- The order of two scripts of one version is that of the listing, and a script has the down script of another. -/
theorem scanMigrations_sharedVersion : scanMigrations sharedVersion.reverse ≠ scanMigrations sharedVersion ∧
    (scanMigrations [⟨"20260101000000__a.sql".toList, []⟩, ⟨"20260101000000__b.down.sql".toList, ['2']⟩]).map
      (·.downPath) = [some ⟨"20260101000000__b.down.sql".toList, ['2']⟩] := by
  decide +kernel

structure MigrateOptions where
  dryRun : Bool
  targetVersion : Option Nat

variable (checksum : Text → Nat) (dir : List DirEntry) (opts : MigrateOptions) (db : Db)

def runEmbedded : Except MigrationError Nat × Db :=
  if opts.dryRun then (.ok 0, db)
  else
    match (scanMigrations dir).find? (mismatch checksum db) with
    | some mf => (.error (.checksumMismatch mf.version mf.name), db)
    | none =>
      let pending := (scanMigrations dir).filter fun mf =>
        mf.version ∉ db.applied && opts.targetVersion.all (mf.version ≤ ·)
      (.ok pending.length, applyAll checksum pending db)

theorem applyAll_filter_and (files : List MigrationFile) {p q : MigrationFile → Bool} :
    (files.filter fun mf => p mf && q mf).length = (files.filter p).length ∧
      applyAll checksum (files.filter fun mf => p mf && q mf) db = applyAll checksum (files.filter p) db ↔
        ∀ mf ∈ files, p mf → q mf := by
  have hfi : (files.filter fun mf => p mf && q mf) = (files.filter p).filter q := by
    simp [Bool.and_comm]
  rw [hfi]
  constructor
  · exact fun h mf hmf hp => length_filter_eq_length_iff.mp h.1 mf (mem_filter.mpr ⟨hmf,hp⟩)
  · intro h
    rw [filter_eq_self.mpr fun mf hmf => h mf (mem_filter.mp hmf).1 (mem_filter.mp hmf).2]
    exact ⟨rfl,rfl⟩

/-- `run_with_conn` does not look at the options. -/
theorem runEmbedded_eq_iff (checksum : Text → Nat) (dir : List DirEntry) (opts : MigrateOptions) (db : Db) :
    runEmbedded checksum dir opts db = runWithConn checksum dir db ↔
      if opts.dryRun then (∀ mf ∈ scanMigrations dir, ¬mismatch checksum db mf) ∧
        ∀ mf ∈ scanMigrations dir, mf.version ∈ db.applied
      else (∀ mf ∈ scanMigrations dir, ¬mismatch checksum db mf) → ∀ mf ∈ scanMigrations dir,
        mf.version ∉ db.applied → opts.targetVersion.all (mf.version ≤ ·) := by
  unfold runEmbedded runWithConn
  cases hmi : (scanMigrations dir).find? (mismatch checksum db) with
  | some mf =>
    have hbad : ¬∀ mf ∈ scanMigrations dir, ¬mismatch checksum db mf :=
      fun h => h mf (mem_of_find?_eq_some hmi) (find?_some hmi)
    split <;> simp only [hbad,false_and,false_imp_iff,Prod.mk.injEq,reduceCtorEq]
  | none =>
    have hno := find?_eq_none.mp hmi
    split
    · rw [and_iff_right hno]
      simpa [applyAll] using applyAll_filter_and checksum db (scanMigrations dir) (p := (·.version ∉ db.applied))
        (q := fun _ => false)
    · rw [forall_prop_of_true hno]
      simpa using applyAll_filter_and checksum db (scanMigrations dir) (p := (·.version ∉ db.applied))
        (q := fun mf => opts.targetVersion.all (mf.version ≤ ·))

theorem runEmbedded_ne : runEmbedded List.length reversible ⟨true, none⟩ ⟨[], []⟩ ≠
      runWithConn List.length reversible ⟨[], []⟩ ∧
    runEmbedded List.length reversible ⟨false, some 1⟩ ⟨[], []⟩ ≠ runWithConn List.length reversible ⟨[], []⟩ := by
  decide +kernel

end OxiSql.Migrate
