import OxiSql.Mvcc.Effects

namespace OxiSql.Mvcc
open Lib List Function RowVersion

/-- What a transaction has written so far; a row it has deleted is written as absent. -/
structure Running where
  beginTs : Nat
  writes : RowID → Option (Option Row)

structure Committed where
  beginTs : Nat
  commitTs : Nat
  writes : RowID → Option (Option Row)

def replay (log : List Committed) (id : RowID) : Option Row :=
  log.foldl (fun row c => (c.writes id).getD row) none

/-- The rows as the transactions that committed before a timestamp have left them. -/
def before (log : List Committed) (ts : Nat) (id : RowID) : Option Row :=
  replay (log.filter (·.commitTs < ts)) id

/-- A history as the transactions that run and those that have committed, in the order of their
commits. -/
structure Snapshots where
  running : TxID → Option Running
  log : List Committed

namespace Snapshots

def init : Snapshots :=
  ⟨fun _ => none, []⟩

def read (a : Snapshots) (r : Running) (id : RowID) : Option Row :=
  (r.writes id).getD (before a.log r.beginTs id)

def set (a : Snapshots) (tx : TxID) (r : Option Running) : Snapshots :=
  { a with running := fun tx' => if tx' = tx then r else a.running tx' }

def write (a : Snapshots) (tx : TxID) (id : RowID) (row : Option Row) : Snapshots :=
  a.set tx ((a.running tx).map fun r =>
    { r with writes := fun id' => if id' = id then some row else r.writes id' })

def commit (a : Snapshots) (tx : TxID) (ts : Nat) : Snapshots :=
  match a.running tx with
  | none => a
  | some r => { a.set tx none with log := a.log ++ [⟨r.beginTs, ts, r.writes⟩] }

/-- What a call with its answer says about the history. -/
def next (a : Snapshots) : Call × Reply → Snapshots
  | (.beginTx ts, .ok (.tx tx)) => a.set tx (some ⟨ts, fun _ => none⟩)
  | (.insert tx row, .ok .done) => a.write tx row.id (some row)
  | (.update tx row, .ok (.changed true)) => a.write tx row.id (some row)
  | (.upsert tx row, .ok .done) => a.write tx row.id (some row)
  | (.delete tx id, .ok (.changed true)) => a.write tx id none
  | (.commitTx tx ts _, .ok .done) => a.commit tx ts
  | (.rollbackTx tx, .ok .done) => a.set tx none
  | (.update tx _, .error (.error .writeWriteConflict)) => a.set tx none
  | (.upsert tx _, .error (.error .writeWriteConflict)) => a.set tx none
  | (.delete tx _, .error (.error .writeWriteConflict)) => a.set tx none
  | _ => a

def ofTranscript (transcript : List (Call × Reply)) : Snapshots :=
  transcript.foldl next init

end Snapshots

/-- Neither of two transactions that have written a row began before the other one had committed. -/
def Apart (c c' : Committed) : Prop :=
  ∀ id, c.writes id ≠ none → c'.writes id ≠ none → c.commitTs ≤ c'.beginTs ∨ c'.commitTs ≤ c.beginTs

/-- What a transaction sees, where the marks of all transactions that are over are gone. -/
def sees (tx : TxID) (beginTs : Nat) (v : RowVersion) : Bool :=
  (match v.beginMark with
    | .timestamp ts => ts ≤ beginTs
    | .txID tx' => tx' = tx && v.endMark.isNone) &&
  match v.endMark with
  | none => true
  | some (.timestamp ts) => beginTs < ts
  | some (.txID tx') => tx' ≠ tx

/-- Committed, and not ended by a transaction that has committed. -/
def RowVersion.isCurrent (v : RowVersion) : Bool :=
  match v.beginMark, v.endMark with
  | .timestamp _, none => true
  | .timestamp _, some (.txID _) => true
  | _, _ => false

/-- The transaction holds the row: all versions are its own, or have been ended by it or before it
began. -/
structure Held (tx : TxID) (beginTs : Nat) (v : RowVersion) : Prop where
  began : v.beginMark = .txID tx ∨ ∃ ts ≤ beginTs, v.beginMark = .timestamp ts
  ended : v.beginMark = .txID tx ∧ v.endMark = none ∨ v.endMark = some (.txID tx) ∨
    ∃ ts ≤ beginTs, v.endMark = some (.timestamp ts)

def RowVersion.MarkedBy (tx : TxID) (v : RowVersion) : Prop :=
  v.beginMark = .txID tx ∨ v.endMark = some (.txID tx)

theorem Held.eq_of_markedBy (h : Held tx ts v) (hm : v.MarkedBy tx') : tx' = tx := by
  rcases hm with hb | he
  · obtain hb' | ⟨b,-,hb'⟩ := h.began
    · cases hb.symm.trans hb'
      rfl
    · cases hb.symm.trans hb'
  · obtain ⟨-,he'⟩ | he' | ⟨e,-,he'⟩ := h.ended
    · cases he.symm.trans he'
    · cases he.symm.trans he'
      rfl
    · cases he.symm.trans he'

/-- The versions of one row. `view` has, for the transactions that run, when they began and what they
have written to the row. -/
structure RowOk (now : Nat) (log : List Committed) (id : RowID)
    (view : TxID → Option (Nat × Option (Option Row))) (l : List RowVersion) : Prop where
  marked : ∀ {v tx}, v ∈ l → v.MarkedBy tx → view tx ≠ none
  beganAt : ∀ {v ts}, v ∈ l → v.beginMark = .timestamp ts → ts < now
  endedAt : ∀ {v ts}, v ∈ l → v.endMark = some (.timestamp ts) →
    ts < now ∧ ∃ ts' ≤ ts, v.beginMark = .timestamp ts'
  seen : ∀ {tx ts w}, view tx = some (ts, w) →
    (l.filter (sees tx ts)).map row = (w.getD (before log ts id)).toList
  current : (l.filter isCurrent).map row = (replay log id).toList
  newest : ∀ {v w ts}, v ∈ l → v.isCurrent = true → v.beginMark = .timestamp ts → w ∈ l →
    (∀ ts', w.beginMark = .timestamp ts' → ts' ≤ ts) ∧
      ∀ ts', w.endMark = some (.timestamp ts') → ts' ≤ ts
  held : ∀ {tx ts w v}, view tx = some (ts, some w) → v ∈ l → Held tx ts v
  holds : ∀ {tx ts w}, view tx = some (ts, w) → (w ≠ none ↔ ∃ v ∈ l, v.MarkedBy tx)
  committed : ∀ {c}, c ∈ log → c.writes id ≠ none → ∃ v ∈ l,
    v.beginMark = .timestamp c.commitTs ∨ v.endMark = some (.timestamp c.commitTs)

namespace RowOk
variable {id : RowID} {view : TxID → Option (Nat × Option (Option Row))} {v : RowVersion}

theorem nil (now : Nat) (id : RowID) : RowOk now [] id (fun _ => none) [] where
  marked := nofun
  beganAt := nofun
  endedAt := nofun
  seen := nofun
  current := rfl
  newest := nofun
  held := nofun
  holds := nofun
  committed := nofun

theorem eq_toList_of_perm {α : Type} {m : List α} {o : Option α} (h : m.Perm o.toList) : m = o.toList := by
  cases o with
  | none => exact h.eq_nil
  | some a => exact perm_singleton.mp h

theorem update_cases (h : update view tx o tx' = some p) :
    tx' = tx ∧ o = some p ∨ tx' ≠ tx ∧ view tx' = some p := by
  by_cases heq : tx' = tx
  · subst heq
    rw [update_self] at h
    exact .inl ⟨rfl,h⟩
  · rw [update_of_ne heq] at h
    exact .inr ⟨heq,h⟩

theorem sees_begin (hse : sees tx ts v = true) :
    (∃ b ≤ ts, v.beginMark = .timestamp b) ∨ v.beginMark = .txID tx := by
  unfold sees at hse
  cases hb : v.beginMark with
  | timestamp b => exact .inl ⟨b,by simp_all,rfl⟩
  | txID tx' => exact .inr (by simp_all)

section

variable (h : RowOk now log id view l)
include h

/-- At most one version is visible, so their order does not matter. -/
theorem perm (hp : l'.Perm l) : RowOk now log id view l' where
  marked hv := h.marked (hp.mem_iff.mp hv)
  beganAt hv := h.beganAt (hp.mem_iff.mp hv)
  endedAt hv := h.endedAt (hp.mem_iff.mp hv)
  seen hvi := eq_toList_of_perm (h.seen hvi ▸ (hp.filter _).map _)
  current := eq_toList_of_perm (h.current ▸ (hp.filter _).map _)
  newest hv hc hb hw := h.newest (hp.mem_iff.mp hv) hc hb (hp.mem_iff.mp hw)
  held hvi hv := h.held hvi (hp.mem_iff.mp hv)
  holds hvi := by
    rw [h.holds hvi]
    exact exists_congr fun v => and_congr_left' hp.mem_iff.symm
  committed hc hw := by
    obtain ⟨v,hv,hm⟩ := h.committed hc hw
    exact ⟨v,hp.mem_iff.mpr hv,hm⟩

theorem wrote (hv : v ∈ l) (hm : v.MarkedBy tx) :
    ∃ ts w, view tx = some (ts,some w) := by
  obtain ⟨⟨ts,w⟩,hvi⟩ := Option.ne_none_iff_exists'.mp (h.marked hv hm)
  obtain ⟨w,rfl⟩ := Option.ne_none_iff_exists'.mp ((h.holds hvi).mpr ⟨v,hv,hm⟩)
  exact ⟨ts,w,hvi⟩

theorem one_writer (hv : v ∈ l) (hm : v.MarkedBy tx)
    (hm' : v.MarkedBy tx') : tx' = tx := by
  obtain ⟨ts,w,hvi⟩ := h.wrote hv hm
  exact (h.held hvi hv).eq_of_markedBy hm'

/-- A version begun by a transaction has not been ended by another one. -/
theorem end_of_begin (hv : v ∈ l) (hb : v.beginMark = .txID tx) :
    v.endMark = none ∨ v.endMark = some (.txID tx) := by
  obtain ⟨ts,w,hvi⟩ := h.wrote hv (.inl hb)
  obtain ⟨-,he⟩ | he | ⟨e,-,he⟩ := (h.held hvi hv).ended
  · exact .inl he
  · exact .inr he
  · obtain ⟨-,ts',-,hb'⟩ := h.endedAt hv he
    cases hb.symm.trans hb'

theorem insert (hvi : view tx = some (ts,w)) (row : Row)
    (hfr : ∀ v ∈ l, v.endMark = some (.txID tx) ∨ ∃ e ≤ ts, v.endMark = some (.timestamp e)) :
    RowOk now log id (update view tx (some (ts,some (some row)))) (⟨.txID tx,none,row⟩ :: l) := by
  have hun : l.filter (sees tx ts) = [] := by
    rw [filter_eq_nil_iff]
    intro v hv
    obtain he | ⟨e,hle,he⟩ := hfr v hv
    · simp [sees,he]
    · simp [sees,he,Nat.not_lt.mpr hle]
  -- Another transaction that has written the row would stand in the way.
  have hot : ∀ {tx' ts' w'}, tx' ≠ tx → view tx' ≠ some (ts', some w') := by
    intro tx' ts' w' hne hvi'
    obtain ⟨v,hv,hm⟩ := (h.holds hvi').mp nofun
    obtain he | ⟨e,-,he⟩ := hfr v hv
    · exact hne (h.one_writer hv (.inr he) hm)
    · obtain ⟨-,ts',-,hb'⟩ := h.endedAt hv he
      rcases hm with hb | he'
      · cases hb.symm.trans hb'
      · cases he.symm.trans he'
  have hfr' : ∀ v ∈ l, Held tx ts v := by
    intro v hv
    refine ⟨?_,.inr (hfr v hv)⟩
    obtain he | ⟨e,hle,he⟩ := hfr v hv
    · obtain ⟨w,rfl⟩ := Option.ne_none_iff_exists'.mp ((h.holds hvi).mpr ⟨v,hv,.inr he⟩)
      exact (h.held hvi hv).began
    · obtain ⟨-,ts',hle',hb⟩ := h.endedAt hv he
      exact .inr ⟨ts',Nat.le_trans hle' hle,hb⟩
  constructor
  case marked =>
    intro u tx' hu hm
    by_cases heq : tx' = tx
    · simp [heq]
    · rw [update_of_ne heq]
      obtain rfl | hu := mem_cons.mp hu
      · rcases hm with hb | he
        · exact absurd (TxTimestampOrID.txID.inj hb).symm heq
        · cases he
      · exact h.marked hu hm
  case beganAt =>
    intro u ts' hu hb
    obtain rfl | hu := mem_cons.mp hu
    · cases hb
    · exact h.beganAt hu hb
  case endedAt =>
    intro u ts' hu he
    obtain rfl | hu := mem_cons.mp hu
    · cases he
    · exact h.endedAt hu he
  case seen =>
    intro tx' ts' w' hvi'
    obtain ⟨rfl,⟨⟩⟩ | ⟨heq,hvi'⟩ := update_cases hvi'
    · rw [filter_cons_of_pos (by simp [sees]),hun]
      rfl
    · rw [filter_cons_of_neg (by simp [sees,Ne.symm heq])]
      exact h.seen hvi'
  case current =>
    exact h.current
  case newest =>
    intro u x ts' hu hc hb hx
    obtain rfl | hu := mem_cons.mp hu
    · cases hb
    · obtain rfl | hx := mem_cons.mp hx
      · exact ⟨nofun,nofun⟩
      · exact h.newest hu hc hb hx
  case held =>
    intro tx' ts' w' u hvi' hu
    obtain ⟨rfl,⟨⟩⟩ | ⟨heq,hvi'⟩ := update_cases hvi'
    · obtain rfl | hu := mem_cons.mp hu
      · exact ⟨.inl rfl,.inl ⟨rfl,rfl⟩⟩
      · exact hfr' u hu
    · exact absurd hvi' (hot heq)
  case holds =>
    intro tx' ts' w' hvi'
    obtain ⟨rfl,⟨⟩⟩ | ⟨heq,hvi'⟩ := update_cases hvi'
    · exact ⟨fun _ => ⟨_,mem_cons_self ..,.inl rfl⟩,fun _ => nofun⟩
    · rw [h.holds hvi']
      refine ⟨fun ⟨u,hu,hm⟩ => ⟨u,mem_cons_of_mem _ hu,hm⟩,fun ⟨u,hu,hm⟩ => ?_⟩
      obtain rfl | hu := mem_cons.mp hu
      · rcases hm with hb | he
        · exact absurd (TxTimestampOrID.txID.inj hb).symm heq
        · cases he
      · exact ⟨u,hu,hm⟩
  case committed =>
    intro c hc hw
    obtain ⟨u,hu,hm⟩ := h.committed hc hw
    exact ⟨u,mem_cons_of_mem _ hu,hm⟩

theorem beginTx (hnone : view tx = none) (hnow : now ≤ ts)
    (hlog : ∀ c ∈ log, c.commitTs < now) :
    RowOk (ts + 1) log id (update view tx (some (ts,none))) l := by
  have hun : ∀ v ∈ l, ¬v.MarkedBy tx := fun v hv hm => h.marked hv hm hnone
  -- All that has been committed is in its snapshot.
  have hbe : before log ts id = replay log id := by
    rw [before,filter_eq_self.mpr fun c hc => by simpa using Nat.lt_of_lt_of_le (hlog c hc) hnow]
  have hcu : ∀ v ∈ l, sees tx ts v = v.isCurrent := by
    intro v hv
    have hm := hun v hv
    cases hb : v.beginMark with
    | txID x =>
      have hx : x ≠ tx := fun heq => hm (.inl (heq ▸ hb))
      simp [sees,isCurrent,hb,hx]
    | timestamp b =>
      have hle : b ≤ ts := Nat.le_trans (Nat.le_of_lt (h.beganAt hv hb)) hnow
      cases he : v.endMark with
      | none => simp [sees,isCurrent,hb,he,hle]
      | some mark =>
        cases mark with
        | txID x =>
          have hx : x ≠ tx := fun heq => hm (.inr (heq ▸ he))
          simp [sees,isCurrent,hb,he,hle,hx]
        | timestamp e =>
          have hle' : e ≤ ts := Nat.le_trans (Nat.le_of_lt (h.endedAt hv he).1) hnow
          simp [sees,isCurrent,he,hle']
  exact {
    marked := fun {v tx'} hv hm => by
      by_cases heq : tx' = tx
      · simp [heq]
      · rw [update_of_ne heq]
        exact h.marked hv hm
    beganAt := fun hv hb => Nat.lt_succ_of_lt (Nat.lt_of_lt_of_le (h.beganAt hv hb) hnow)
    endedAt := fun hv he => by
      obtain ⟨hlt,hb⟩ := h.endedAt hv he
      exact ⟨Nat.lt_succ_of_lt (Nat.lt_of_lt_of_le hlt hnow),hb⟩
    seen := fun hvi => by
      obtain ⟨rfl,⟨⟩⟩ | ⟨-,hvi⟩ := update_cases hvi
      · rw [filter_congr hcu,h.current,Option.getD_none,hbe]
      · exact h.seen hvi
    current := h.current
    newest := h.newest
    held := fun hvi hv => by
      obtain ⟨rfl,⟨⟩⟩ | ⟨-,hvi⟩ := update_cases hvi
      exact h.held hvi hv
    holds := fun hvi => by
      obtain ⟨rfl,⟨⟩⟩ | ⟨-,hvi⟩ := update_cases hvi
      · exact ⟨fun hne => absurd rfl hne,fun ⟨v,hv,hm⟩ => absurd hm (hun v hv)⟩
      · exact h.holds hvi
    committed := h.committed }

/-- A transaction that has ended no version of another one is rolled back. -/
theorem rollbackTx (hcl : ∀ v ∈ l, v.endMark = some (.txID tx) → v.beginMark = .txID tx) :
    RowOk now log id (update view tx none) (l.filter fun v => v.beginMark ≠ .txID tx) := by
  have hmem : ∀ {v}, v ∈ l.filter (fun v => v.beginMark ≠ .txID tx) → v ∈ l ∧ v.beginMark ≠ .txID tx :=
    fun hv => ⟨mem_of_mem_filter hv,by simpa using of_mem_filter hv⟩
  have hke : ∀ {v}, v ∈ l → v.beginMark ≠ .txID tx → v ∈ l.filter fun v => v.beginMark ≠ .txID tx :=
    fun hv hb => mem_filter.mpr ⟨hv,by simpa using hb⟩
  exact {
    marked := fun {v tx'} hv hm => by
      obtain ⟨hv,hb⟩ := hmem hv
      have hne : tx' ≠ tx := by
        intro heq
        rcases heq ▸ hm with hb' | he
        · exact hb hb'
        · exact hb (hcl v hv he)
      rw [update_of_ne hne]
      exact h.marked hv hm
    beganAt := fun hv => h.beganAt (hmem hv).1
    endedAt := fun hv => h.endedAt (hmem hv).1
    seen := fun {tx' ts w} hvi => by
      obtain ⟨-,⟨⟩⟩ | ⟨hne,hvi⟩ := update_cases hvi
      rw [← h.seen hvi,filter_filter]
      congr 1
      refine filter_congr fun v hv => ?_
      cases hse : sees tx' ts v with
      | false => rfl
      | true =>
        obtain ⟨b,-,hb⟩ | hb := sees_begin hse
        · simp [hb]
        · simp [hb,hne]
    current := by
      rw [← h.current,filter_filter]
      congr 1
      refine filter_congr fun v hv => ?_
      cases hb : v.beginMark with
      | timestamp b => simp
      | txID x => simp [isCurrent,hb]
    newest := fun hv hc hb hw => h.newest (hmem hv).1 hc hb (hmem hw).1
    held := fun hvi hv => by
      obtain ⟨-,⟨⟩⟩ | ⟨-,hvi⟩ := update_cases hvi
      exact h.held hvi (hmem hv).1
    holds := fun {tx' ts w} hvi => by
      obtain ⟨-,⟨⟩⟩ | ⟨hne,hvi⟩ := update_cases hvi
      rw [h.holds hvi]
      refine ⟨fun ⟨v,hv,hm⟩ => ⟨v,hke hv fun hb => ?_,hm⟩,fun ⟨v,hv,hm⟩ => ⟨v,(hmem hv).1,hm⟩⟩
      exact hne (h.one_writer hv (.inl hb) hm)
    committed := fun hc hw => by
      obtain ⟨v,hv,hm⟩ := h.committed hc hw
      refine ⟨v,hke hv fun hb => ?_,hm⟩
      rcases hm with hb' | he
      · cases hb.symm.trans hb'
      · obtain ⟨-,b,-,hb'⟩ := h.endedAt hv he
        cases hb.symm.trans hb' }

end

theorem filter_tail_eq_nil {o : Option Row} (hv : p v = true)
    (h : ((v :: l).filter p).map row = o.toList) : l.filter p = [] := by
  rw [filter_cons_of_pos hv,map_cons] at h
  cases o with
  | none => cases h
  | some a =>
    rw [Option.toList_some,List.cons.injEq,map_eq_nil_iff] at h
    exact h.2

/-- All other versions than the one that the transaction sees have ended before it began, or it has
ended them itself. -/
theorem held_of_sees (h : RowOk now log id view (v :: l)) (hvi : view tx = some (ts,w))
    (hse : sees tx ts v = true) (hend : v.endMark = none) (hu : u ∈ l) : Held tx ts u := by
  have hmem : u ∈ v :: l := mem_cons_of_mem v hu
  cases w with
  | some w => exact h.held hvi hmem
  | none =>
    have hun : ¬∃ x ∈ v :: l, x.MarkedBy tx := fun hx => (h.holds hvi).mpr hx rfl
    obtain ⟨b,hle,hb⟩ | hb := sees_begin hse
    · have hcur : v.isCurrent = true := by simp [isCurrent,hb,hend]
      have hot : u.isCurrent = false := by
        have hnil := filter_tail_eq_nil hcur h.current
        simpa using filter_eq_nil_iff.mp hnil u hu
      obtain ⟨hbs,hes⟩ := h.newest (mem_cons_self ..) hcur hb hmem
      cases hub : u.beginMark with
      | txID x =>
        -- Its transaction would hold the row, with a version in it that has not ended.
        obtain ⟨tsx,wx,hx⟩ := h.wrote hmem (.inl hub)
        obtain ⟨hb',-⟩ | he | ⟨e,-,he⟩ := (h.held hx (mem_cons_self ..)).ended
        · cases hb.symm.trans hb'
        · cases hend.symm.trans he
        · cases hend.symm.trans he
      | timestamp b' =>
        cases hue : u.endMark with
        | none => simp [isCurrent,hub,hue] at hot
        | some mark =>
          cases mark with
          | txID x => simp [isCurrent,hub,hue] at hot
          | timestamp e =>
            exact ⟨.inr ⟨b',Nat.le_trans (hbs b' hub) hle,hub⟩,
              .inr (.inr ⟨e,Nat.le_trans (hes e hue) hle,hue⟩)⟩
    · exact absurd ⟨v,mem_cons_self ..,.inl hb⟩ hun

theorem endVersion (h : RowOk now log id view (v :: l)) (hvi : view tx = some (ts,w))
    (hse : sees tx ts v = true) (hend : v.endMark = none) :
    RowOk now log id (update view tx (some (ts,some none)))
      ({ v with endMark := some (.txID tx) } :: l) := by
  have hbe := sees_begin hse
  constructor
  case marked =>
    intro u tx' hu hm
    by_cases heq : tx' = tx
    · simp [heq]
    · rw [update_of_ne heq]
      obtain rfl | hu := mem_cons.mp hu
      · rcases hm with hb | he
        · exact h.marked (mem_cons_self ..) (.inl hb)
        · cases he
          exact absurd rfl heq
      · exact h.marked (mem_cons_of_mem v hu) hm
  case beganAt =>
    intro u ts' hu hb
    obtain rfl | hu := mem_cons.mp hu
    · exact h.beganAt (mem_cons_self ..) hb
    · exact h.beganAt (mem_cons_of_mem v hu) hb
  case endedAt =>
    intro u ts' hu he
    obtain rfl | hu := mem_cons.mp hu
    · cases he
    · exact h.endedAt (mem_cons_of_mem v hu) he
  case seen =>
    intro tx' ts' w' hvi'
    obtain ⟨rfl,⟨⟩⟩ | ⟨hne,hvi'⟩ := update_cases hvi'
    · rw [filter_cons_of_neg (by simp [sees]),filter_tail_eq_nil hse (h.seen hvi)]
      rfl
    · rw [← h.seen hvi',filter_cons,filter_cons]
      have hsa : sees tx' ts' { v with endMark := some (.txID tx) } = sees tx' ts' v := by
        obtain ⟨b,-,hb⟩ | hb := hbe
        · simp [sees,hb,hend,Ne.symm hne]
        · simp [sees,hb,Ne.symm hne]
      rw [hsa]
      split <;> rfl
  case current =>
    rw [← h.current,filter_cons,filter_cons]
    have hsa : isCurrent { v with endMark := some (.txID tx) } = v.isCurrent := by
      obtain ⟨b,-,hb⟩ | hb := hbe <;> simp [isCurrent,hb,hend]
    rw [hsa]
    split <;> rfl
  case newest =>
    intro u x ts' hu hc hb hx
    have hu' : ∃ u' ∈ v :: l, u'.isCurrent = true ∧ u'.beginMark = .timestamp ts' := by
      obtain rfl | hu := mem_cons.mp hu
      · have hb' : v.beginMark = .timestamp ts' := hb
        exact ⟨v,mem_cons_self ..,by simp [isCurrent,hb',hend],hb'⟩
      · exact ⟨u,mem_cons_of_mem v hu,hc,hb⟩
    obtain ⟨u',hmem,hc',hb'⟩ := hu'
    obtain rfl | hx := mem_cons.mp hx
    · exact ⟨(h.newest hmem hc' hb' (mem_cons_self ..)).1,nofun⟩
    · exact h.newest hmem hc' hb' (mem_cons_of_mem v hx)
  case held =>
    intro tx' ts' w' u hvi' hu
    obtain ⟨rfl,⟨⟩⟩ | ⟨hne,hvi'⟩ := update_cases hvi'
    · obtain rfl | hu := mem_cons.mp hu
      · exact ⟨hbe.symm,.inr (.inl rfl)⟩
      · exact h.held_of_sees hvi hse hend hu
    · -- The version that has not ended would be its own.
      obtain ⟨hb',-⟩ | he | ⟨e,-,he⟩ := (h.held hvi' (mem_cons_self ..)).ended
      · obtain ⟨b,-,hb⟩ | hb := hbe
        · cases hb.symm.trans hb'
        · cases hb.symm.trans hb'
          exact absurd rfl hne
      · cases hend.symm.trans he
      · cases hend.symm.trans he
  case holds =>
    intro tx' ts' w' hvi'
    obtain ⟨rfl,⟨⟩⟩ | ⟨hne,hvi'⟩ := update_cases hvi'
    · exact ⟨fun _ => ⟨_,mem_cons_self ..,.inr rfl⟩,fun _ => nofun⟩
    · rw [h.holds hvi',exists_mem_cons_iff,exists_mem_cons_iff]
      refine or_congr_left ⟨fun hm => .inl (hm.resolve_right (by simp [hend])),fun hm => .inl ?_⟩
      exact hm.resolve_right fun he => hne (TxTimestampOrID.txID.inj (Option.some.inj he)).symm
  case committed =>
    intro c hc hw
    obtain ⟨u,hu,hm⟩ := h.committed hc hw
    obtain rfl | hu := mem_cons.mp hu
    · exact ⟨_,mem_cons_self ..,.inl (hm.resolve_right (by simp [hend]))⟩
    · exact ⟨u,mem_cons_of_mem _ hu,hm⟩

section commit

variable {mark : TxTimestampOrID}

theorem commit_eq_txID : mark.commit tx c = .txID x ↔ mark = .txID x ∧ x ≠ tx := by
  unfold TxTimestampOrID.commit
  split
  · next heq => exact ⟨nofun,fun ⟨h,hne⟩ => absurd (TxTimestampOrID.txID.inj (h.symm.trans heq)) hne⟩
  · next hne => exact ⟨fun h => ⟨h,fun heq => hne (heq ▸ h)⟩,And.left⟩

theorem commit_eq_timestamp :
    mark.commit tx c = .timestamp b ↔ mark = .timestamp b ∨ mark = .txID tx ∧ b = c := by
  unfold TxTimestampOrID.commit
  split
  · next heq => simp [heq,eq_comm]
  · next hne => simp [hne]

theorem endMark_commit_eq :
    (v.commit tx c).endMark = some mark ↔ ∃ mark', v.endMark = some mark' ∧ mark'.commit tx c = mark :=
  Option.map_eq_some_iff

theorem markedBy_commit (hne : x ≠ tx) : (v.commit tx c).MarkedBy x ↔ v.MarkedBy x := by
  unfold RowVersion.MarkedBy
  simp [commit,commit_eq_txID,hne]

theorem not_markedBy_commit : ¬(v.commit tx c).MarkedBy tx := by
  unfold RowVersion.MarkedBy
  simp [commit,commit_eq_txID]

/-- A commit after a transaction began changes nothing of what it sees. -/
theorem sees_commit (hne : x ≠ tx) (hlt : ts < c) : sees x ts (v.commit tx c) = sees x ts v := by
  obtain ⟨b,e,row⟩ := v
  have hb : ∀ n : Bool, (match b.commit tx c with
      | .timestamp b => decide (b ≤ ts)
      | .txID y => decide (y = x) && n) =
      match b with
      | .timestamp b => decide (b ≤ ts)
      | .txID y => decide (y = x) && n := by
    cases b with
    | timestamp b => simp [TxTimestampOrID.commit]
    | txID y =>
      by_cases hy : y = tx
      · simp [TxTimestampOrID.commit,hy,Nat.not_le.mpr hlt,Ne.symm hne]
      · simp [TxTimestampOrID.commit,hy]
  have he : (match e.map (·.commit tx c) with
      | none => true
      | some (.timestamp e) => decide (ts < e)
      | some (.txID y) => decide (y ≠ x)) =
      match e with
      | none => true
      | some (.timestamp e) => decide (ts < e)
      | some (.txID y) => decide (y ≠ x) := by
    cases e with
    | none => rfl
    | some e =>
      cases e with
      | timestamp e => simp [TxTimestampOrID.commit]
      | txID y =>
        by_cases hy : y = tx
        · simp [TxTimestampOrID.commit,hy,hlt,Ne.symm hne]
        · simp [TxTimestampOrID.commit,hy]
  have hnone : (e.map (·.commit tx c)).isNone = e.isNone := by cases e <;> rfl
  unfold sees commit
  rw [hb,he,hnone]

/-- In a row that the transaction has written, what it sees is what its commit makes current. -/
theorem isCurrent_commit (h : Held tx ts v) : (v.commit tx c).isCurrent = sees tx ts v := by
  obtain ⟨hb,he⟩ | he | ⟨e,hle,he⟩ := h.ended
  · simp [isCurrent,commit,TxTimestampOrID.commit,sees,hb,he]
  · simp [isCurrent,commit,TxTimestampOrID.commit,sees,he]
  · simp [isCurrent,commit,TxTimestampOrID.commit,sees,he,Nat.not_lt.mpr hle]

theorem commit_of_not_markedBy (h : ¬v.MarkedBy tx) : v.commit tx c = v := by
  rw [← getD_rewrittenForCommit,rewrittenForCommit_eq_none.mpr (not_or.mp h),Option.getD_none]

theorem map_commit_of_unwritten (h : RowOk now log id view l) (hvi : view tx = some (ts,none)) :
    l.map (·.commit tx c) = l := by
  refine (map_congr_left fun v hv => ?_).trans (map_id l)
  exact commit_of_not_markedBy fun hm => (h.holds hvi).mpr ⟨v,hv,hm⟩ rfl

theorem replay_concat : replay (log ++ [entry]) id = (entry.writes id).getD (replay log id) := by
  simp [replay]

theorem before_concat (h : ts ≤ entry.commitTs) : before (log ++ [entry]) ts id = before log ts id := by
  rw [before,filter_append,filter_cons_of_neg (by simpa using h),filter_nil,append_nil,before]

theorem commitTx (h : RowOk now log id view l) (hvi : view tx = some (ts,w)) (hnow : now ≤ c)
    (hearly : ∀ {tx ts w}, view tx = some (ts,w) → ts < now) (entry : Committed)
    (hts : entry.commitTs = c) (hwr : entry.writes id = w) :
    RowOk (c + 1) (log ++ [entry]) id (update view tx none) (l.map (·.commit tx c)) := by
  constructor
  case marked =>
    intro u tx' hu hm
    obtain ⟨v,hv,rfl⟩ := mem_map.mp hu
    have hne : tx' ≠ tx := fun heq => not_markedBy_commit (heq ▸ hm)
    rw [update_of_ne hne]
    exact h.marked hv ((markedBy_commit hne).mp hm)
  case beganAt =>
    intro u b hu hb
    obtain ⟨v,hv,rfl⟩ := mem_map.mp hu
    obtain hb | ⟨-,rfl⟩ := commit_eq_timestamp.mp hb
    · exact Nat.lt_succ_of_lt (Nat.lt_of_lt_of_le (h.beganAt hv hb) hnow)
    · exact Nat.lt_succ_self _
  case endedAt =>
    intro u e hu he
    obtain ⟨v,hv,rfl⟩ := mem_map.mp hu
    obtain ⟨mark,hmark,he⟩ := endMark_commit_eq.mp he
    obtain rfl | ⟨rfl,rfl⟩ := commit_eq_timestamp.mp he
    · obtain ⟨hlt,b,hle,hb⟩ := h.endedAt hv hmark
      exact ⟨Nat.lt_succ_of_lt (Nat.lt_of_lt_of_le hlt hnow),b,hle,commit_eq_timestamp.mpr (.inl hb)⟩
    · refine ⟨Nat.lt_succ_self _,?_⟩
      cases hb : v.beginMark with
      | timestamp b =>
        exact ⟨b,Nat.le_trans (Nat.le_of_lt (h.beganAt hv hb)) hnow,commit_eq_timestamp.mpr (.inl hb)⟩
      | txID x =>
        obtain he' | he' := h.end_of_begin hv hb
        · cases hmark.symm.trans he'
        · cases hmark.symm.trans he'
          exact ⟨e,Nat.le_refl _,commit_eq_timestamp.mpr (.inr ⟨hb,rfl⟩)⟩
  case seen =>
    intro tx' ts' w' hvi'
    obtain ⟨-,⟨⟩⟩ | ⟨hne,hvi'⟩ := update_cases hvi'
    have hlt : ts' < c := Nat.lt_of_lt_of_le (hearly hvi') hnow
    rw [before_concat (hts ▸ Nat.le_of_lt hlt),← h.seen hvi',filter_map,map_map]
    congr 1
    exact filter_congr fun v _ => sees_commit hne hlt
  case current =>
    rw [replay_concat,hwr]
    cases w with
    | none => rw [h.map_commit_of_unwritten hvi,h.current,Option.getD_none]
    | some w =>
      have hse := h.seen hvi
      rw [Option.getD_some] at hse ⊢
      rw [← hse,filter_map,map_map]
      congr 1
      exact filter_congr fun v hv => isCurrent_commit (h.held hvi hv)
  case newest =>
    intro u x b hu hc hb hx
    cases w with
    | none =>
      rw [h.map_commit_of_unwritten hvi] at hu hx
      exact h.newest hu hc hb hx
    | some w =>
      -- The current version is the one that the transaction has left.
      obtain ⟨v,hv,rfl⟩ := mem_map.mp hu
      obtain ⟨y,hy,rfl⟩ := mem_map.mp hx
      have hb' : b = c := by
        obtain hb | ⟨-,rfl⟩ := commit_eq_timestamp.mp hb
        · rw [isCurrent_commit (h.held hvi hv)] at hc
          obtain ⟨hb',-⟩ | he | ⟨e,hle,he⟩ := (h.held hvi hv).ended
          · cases hb.symm.trans hb'
          · simp [sees,he] at hc
          · simp [sees,he,Nat.not_lt.mpr hle] at hc
        · rfl
      subst hb'
      refine ⟨fun b' hyb => ?_,fun e hye => ?_⟩
      · obtain hyb | ⟨-,rfl⟩ := commit_eq_timestamp.mp hyb
        · exact Nat.le_trans (Nat.le_of_lt (h.beganAt hy hyb)) hnow
        · exact Nat.le_refl _
      · obtain ⟨mark,hmark,hye⟩ := endMark_commit_eq.mp hye
        obtain rfl | ⟨-,rfl⟩ := commit_eq_timestamp.mp hye
        · exact Nat.le_trans (Nat.le_of_lt (h.endedAt hy hmark).1) hnow
        · exact Nat.le_refl _
  case held =>
    intro tx' ts' w' u hvi' hu
    obtain ⟨-,⟨⟩⟩ | ⟨hne,hvi'⟩ := update_cases hvi'
    obtain ⟨v,hv,rfl⟩ := mem_map.mp hu
    have hhe := h.held hvi' hv
    have hun : ¬v.MarkedBy tx := fun hm => hne (hhe.eq_of_markedBy hm).symm
    rwa [commit_of_not_markedBy hun]
  case holds =>
    intro tx' ts' w' hvi'
    obtain ⟨-,⟨⟩⟩ | ⟨hne,hvi'⟩ := update_cases hvi'
    rw [h.holds hvi']
    refine ⟨fun ⟨v,hv,hm⟩ => ⟨_,mem_map_of_mem hv,(markedBy_commit hne).mpr hm⟩,fun ⟨u,hu,hm⟩ => ?_⟩
    obtain ⟨v,hv,rfl⟩ := mem_map.mp hu
    exact ⟨v,hv,(markedBy_commit hne).mp hm⟩
  case committed =>
    intro e he hw
    obtain he | he := mem_append.mp he
    · obtain ⟨v,hv,hm⟩ := h.committed he hw
      refine ⟨_,mem_map_of_mem hv,hm.imp (fun hb => commit_eq_timestamp.mpr (.inl hb)) fun he => ?_⟩
      exact endMark_commit_eq.mpr ⟨_,he,commit_eq_timestamp.mpr (.inl rfl)⟩
    · obtain rfl := mem_singleton.mp he
      obtain ⟨v,hv,hm⟩ := (h.holds hvi).mp (hwr ▸ hw)
      refine ⟨_,mem_map_of_mem hv,hm.imp (fun hb => ?_) fun he => ?_⟩
      · exact commit_eq_timestamp.mpr (.inr ⟨hb,hts⟩)
      · exact endMark_commit_eq.mpr ⟨_,he,commit_eq_timestamp.mpr (.inr ⟨rfl,hts⟩)⟩

end commit

end RowOk

end OxiSql.Mvcc
