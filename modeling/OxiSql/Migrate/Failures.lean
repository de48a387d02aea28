import OxiSql.Migrate.Runner

namespace OxiSql.Migrate
open List

/-- What is sent: a statement about the whole tracker or its checksums, a statement of a script by its place in it,
and the row that is written for a script or taken away. -/
inductive Sent where
  | query
  | script (event : Event) (place : Nat)
  | track (event : Event)

/-- `fails` is the error of a statement that is sent after `sent` others. A backend that takes a batch as a whole has
one statement for it; something is sent for every batch. -/
structure Conn where
  parseError : Text → Option String
  statements : Text → List Text
  statements_ne_nil : ∀ sql, statements sql ≠ []
  fails : (sent : Nat) → Sent → Option String

inductive RunError where
  | migration (e : MigrationError)
  | parse (message : String)
  | execution (message : String)
  | lock (message : String)
deriving DecidableEq

/-- `log` has the statements of scripts that took effect. -/
structure Store where
  sent : Nat
  rows : List (Nat × Text × Nat)
  log : List (Event × Text)
deriving DecidableEq

abbrev Run := EStateM RunError Store

def Event.sql : Event → Text
  | .up mf => mf.path.sql
  | .down script => script.2.sql

namespace Conn

variable (c : Conn) (checksum : Text → Nat) (dir : List DirEntry)

def send (what : Sent) (label : String → String) (effect : Store → Store) : Run Unit := fun s =>
  match c.fails s.sent what with
  | some e => .error (.execution (label e)) { s with sent := s.sent + 1 }
  | none => .ok () (effect { s with sent := s.sent + 1 })

def executeBatch (event : Event) (label : String → String) : Nat → List Text → Run Unit
  | _, [] => pure ()
  | place, stmt :: rest => do
    c.send (.script event place) label fun s => { s with log := s.log ++ [(event, stmt)] }
    executeBatch event label (place + 1) rest

def validateSql (sql : Text) (name : String) (version : Nat) : Run Unit :=
  match c.parseError sql with
  | some e => throw (.parse s!"migration {version} ({name}): SQL parse error -- {e}")
  | none => pure ()

/-- The body of both loops: the script, and then its row. -/
def perform (event : Event) (version : Nat) (name : String) (label : String → String)
    (effect : List (Nat × Text × Nat) → List (Nat × Text × Nat)) : Run Unit := do
  c.validateSql event.sql name version
  c.executeBatch event label 0 (c.statements event.sql)
  c.send (.track event) id fun s => { s with rows := effect s.rows }

def applyFile (mf : MigrationFile) : Run Unit :=
  let name := String.ofList mf.name
  c.perform (.up mf) mf.version name (fun e => s!"migration {mf.version} ({name}): {e}") (· ++ [row checksum mf])

def revertVersion (files : List MigrationFile) (version : Nat) : Run Unit :=
  match files.reverse.find? (·.version = version) with
  | none => throw (.migration (.noDownMigration version "<orphaned>".toList))
  | some mf =>
    match mf.downPath with
    | none => throw (.migration (.noDownMigration version mf.name))
    | some script =>
      c.perform (.down (version, script)) version s!"{version}.down" (fun e => s!"rollback migration {version}: {e}")
        (·.filter (·.1 ≠ version))

def appliedVersions : Run (List Nat) := do
  c.send .query id id
  return (← get).rows.map (·.1)

def verifyChecksum (mf : MigrationFile) : Run Unit := do
  c.send .query id id
  if mismatch checksum ⟨(← get).rows, []⟩ mf then throw (.migration (.checksumMismatch mf.version mf.name))

def runWithConnInner : Run Nat := do
  c.send .query id id
  let files := scanMigrations dir
  let applied ← c.appliedVersions
  (files.filter (·.version ∈ applied)).forM (c.verifyChecksum checksum)
  let pending := files.filter (·.version ∉ applied)
  pending.forM (c.applyFile checksum)
  return pending.length

/-- With the errors of taking and of giving back the lock, if one was configured. -/
def runWithConn (lock : Option (Option String × Option String)) : Run Nat :=
  match lock with
  | none => c.runWithConnInner checksum dir
  | some (some e, _) => throw (.lock e)
  | some (none, release) => do
    let n ← c.runWithConnInner checksum dir
    match release with
    | some e => throw (.lock e)
    | none => return n

def rollbackWithConn (target : Nat) : Run Nat := do
  c.send .query id id
  let versions := ((← c.appliedVersions).filter (target < ·)).insertionSort (· ≥ ·)
  versions.forM (c.revertVersion (scanMigrations dir))
  return versions.length

end Conn

def after {α : Type} : EStateM.Result RunError Store α → Store
  | .ok _ s | .error _ s => s

def failed {α : Type} : EStateM.Result RunError Store α → Bool
  | .ok .. => false
  | .error .. => true

/-- What a script does to the tracker. -/
def Event.track (checksum : Text → Nat) : Event → List (Nat × Text × Nat) → List (Nat × Text × Nat)
  | .up mf, rows => rows ++ [row checksum mf]
  | .down script, rows => rows.filter (·.1 ≠ script.1)

def Conn.block (c : Conn) (event : Event) : List (Event × Text) :=
  (c.statements event.sql).map (event, ·)

/-- The statements that took effect are those of whole scripts, and the tracker has the rows of the scripts that are
applied and not reverted. -/
def Recorded (c : Conn) (checksum : Text → Nat) (s : Store) : Prop :=
  ∃ events : List Event, s.log = events.flatMap c.block ∧ s.rows = (live events).map (row checksum)

/-- Whether nothing is lost when the statement fails: a question, the first statement of a script, and a row that is
deleted already. -/
def Sent.mayFail (deleted : List Nat) : Sent → Bool
  | .query => true
  | .script _ place => place = 0
  | .track (.up _) => false
  | .track (.down (version, _)) => version ∈ deleted

def Sent.deleted (deleted : List Nat) : Sent → List Nat
  | .track (.up mf) => deleted.filter (· ≠ mf.version)
  | .track (.down (version, _)) => version :: deleted
  | _ => deleted

namespace Conn

variable (c : Conn) (checksum : Text → Nat) (dir : List DirEntry)

/-- Of the statements that a call is to send, the first that fails is one that may. -/
def Careful : List Nat → Nat → List Sent → Bool
  | _, _, [] => true
  | deleted, sent, what :: rest =>
    if (c.fails sent what).isSome then what.mayFail deleted else Careful (what.deleted deleted) (sent + 1) rest

/-- The statements for one script. -/
def toSend (event : Event) : List Sent :=
  (range (c.statements event.sql).length).map (.script event) ++ [.track event]

/-- Up to a script that is missing or does not parse. -/
def toSendAll : List (Option Event) → List Sent
  | some event :: rest => if c.parseError event.sql = none then c.toSend event ++ toSendAll rest else []
  | _ => []

/-- The checksums are asked for until one differs. -/
def checks (differs : MigrationFile → Bool) (rest : List Sent) : List MigrationFile → List Sent
  | [] => rest
  | mf :: files => .query :: if differs mf then [] else checks differs rest files

def runPlan (rows : List (Nat × Text × Nat)) : List Sent :=
  let files := scanMigrations dir
  let pending := files.filter (·.version ∉ rows.map (·.1))
  .query :: .query :: checks (mismatch checksum ⟨rows, []⟩) (c.toSendAll (pending.map fun mf => some (.up mf)))
    (files.filter (·.version ∈ rows.map (·.1)))

/-- Nothing is sent without the lock. -/
def lockedPlan (lock : Option (Option String × Option String)) (rows : List (Nat × Text × Nat)) : List Sent :=
  match lock with
  | some (some _, _) => []
  | _ => c.runPlan checksum dir rows

def downScript (files : List MigrationFile) (version : Nat) : Option Event :=
  ((files.reverse.find? (·.version = version)).bind (·.downPath)).map fun script => .down (version, script)

def rollbackPlan (target : Nat) (rows : List (Nat × Text × Nat)) : List Sent :=
  let versions := ((rows.map (·.1)).filter (target < ·)).insertionSort (· ≥ ·)
  .query :: .query :: c.toSendAll (versions.map (downScript (scanMigrations dir)))

def effect : Sent → Store → Store
  | .query, s => s
  | .script event place, s => { s with log := s.log ++ (c.block event)[place]?.toList }
  | .track event, s => { s with rows := event.track checksum s.rows }

/-- The statements sent one after the other, and whether none failed. -/
def play : List Sent → Store → Bool × Store
  | [], s => (true, s)
  | what :: rest, s =>
    if (c.fails s.sent what).isSome then (false, { s with sent := s.sent + 1 })
    else play rest (c.effect checksum what { s with sent := s.sent + 1 })

end Conn

variable {c : Conn} {checksum : Text → Nat}

theorem play_append : c.play checksum (before ++ rest) s =
    if (c.play checksum before s).1 then c.play checksum rest (c.play checksum before s).2
    else c.play checksum before s := by
  induction before generalizing s with
  | nil => rfl
  | cons what before ih =>
    rw [cons_append,Conn.play,Conn.play]
    split
    · rfl
    · exact ih

theorem play_cons : c.play checksum (what :: rest) s =
    if (c.play checksum [what] s).1 then c.play checksum rest (c.play checksum [what] s).2
    else c.play checksum [what] s :=
  @play_append c checksum [what] rest s

def outcome {α : Type} (result : EStateM.Result RunError Store α) : Bool × Store :=
  (!failed result, after result)

theorem outcome_bind {m : Run Unit} {k : Run α} : outcome ((m >>= fun _ => k) s) =
    if (outcome (m s)).1 then outcome (k (outcome (m s)).2) else outcome (m s) := by
  simp only [Bind.bind,EStateM.bind]
  cases m s <;> rfl

theorem outcome_send (hf : ∀ s, f s = c.effect checksum what s) :
    outcome (c.send what label f s) = c.play checksum [what] s := by
  rw [Conn.send,Conn.play]
  cases c.fails s.sent what with
  | some e => rfl
  | none => simp [hf,outcome,failed,after,Conn.play]

theorem outcome_executeBatch (hst : (c.statements event.sql).drop place = stmts) :
    outcome (c.executeBatch event label place stmts s) =
      c.play checksum ((range' place stmts.length).map (.script event)) s := by
  induction stmts generalizing place s with
  | nil => rfl
  | cons stmt stmts ih =>
    have hat : (c.statements event.sql)[place]? = some stmt := by
      rw [← head?_drop,hst,head?_cons]
    have hre : (c.statements event.sql).drop (place + 1) = stmts := by
      rw [← drop_drop,hst,drop_one,tail_cons]
    rw [Conn.executeBatch,outcome_bind,@outcome_send c checksum _ (.script event place) _ _ fun s => by
      simp [Conn.effect,Conn.block,hat],ih hre]
    exact play_cons.symm

theorem outcome_perform (event : Event)
    (hef : ∀ s, { s with rows := effect s.rows } = c.effect checksum (.track event) s) :
    outcome (c.perform event version name label effect s) =
      if c.parseError event.sql = none then c.play checksum (c.toSend event) s else (false,s) := by
  rw [Conn.perform,outcome_bind,outcome_bind,Conn.validateSql]
  cases c.parseError event.sql with
  | some e => rfl
  | none =>
    simp only [@outcome_executeBatch c checksum _ _ _ _ _ drop_zero,outcome_send hef]
    rw [Conn.toSend,play_append,range_eq_range']
    rfl

/-- A loop over scripts stops at the first that is missing or does not parse. -/
theorem outcome_forM {f : α → Run Unit} {script : α → Option Event}
    (hf : ∀ a s, outcome (f a s) = (script a).elim (false,s) fun event =>
      if c.parseError event.sql = none then c.play checksum (c.toSend event) s else (false,s))
    (l : List α) : (outcome (l.forM f s)).2 = (c.play checksum (c.toSendAll (l.map script)) s).2 := by
  induction l generalizing s with
  | nil => rfl
  | cons a l ih =>
    rw [show (a :: l).forM f = (f a >>= fun _ => l.forM f) from rfl,outcome_bind,hf,map_cons]
    cases script a with
    | none => rfl
    | some event =>
      rw [Conn.toSendAll]
      by_cases hpa : c.parseError event.sql = none
      · simp only [hpa,if_true,play_append,Option.elim]
        split
        · exact ih
        · rfl
      · simp [hpa,Conn.play]

theorem after_query (hk : ∀ s', s'.rows = s.rows → after (k s') = (c.play checksum rest s').2) :
    after ((c.send .query id id >>= fun _ => k) s) = (c.play checksum (.query :: rest) s).2 := by
  simp only [Bind.bind,EStateM.bind,Conn.send,Conn.play]
  cases c.fails s.sent .query with
  | some e => rfl
  | none => exact hk _ rfl

theorem after_verify (hk : ∀ s', s'.rows = s.rows → after (k s') = (c.play checksum rest s').2)
    (files : List MigrationFile) :
    after ((files.forM (c.verifyChecksum checksum) >>= fun _ => k) s) =
      (c.play checksum (Conn.checks (mismatch checksum ⟨s.rows,[]⟩) rest files) s).2 := by
  induction files generalizing s with
  | nil => exact hk s rfl
  | cons mf files ih =>
    simp only [List.forM,Conn.verifyChecksum,bind_assoc]
    refine after_query fun s' hs => ?_
    show after (((if mismatch checksum ⟨s'.rows,[]⟩ mf then
      throw (.migration (.checksumMismatch mf.version mf.name)) else pure ()) >>= fun _ =>
      files.forM (c.verifyChecksum checksum) >>= fun _ => k) s') = _
    rw [← hs]
    by_cases hmi : mismatch checksum ⟨s'.rows,[]⟩ mf
    · rw [if_pos hmi,if_pos hmi]
      rfl
    · rw [if_neg hmi,if_neg hmi]
      exact ih fun s'' hs'' => hk s'' (hs''.trans hs)

theorem after_loop {f : α → Run Unit} {script : α → Option Event}
    (hf : ∀ a s, outcome (f a s) = (script a).elim (false,s) fun event =>
      if c.parseError event.sql = none then c.play checksum (c.toSend event) s else (false,s))
    (l : List α) (n : Nat) :
    after ((l.forM f >>= fun _ => pure n) s) = (c.play checksum (c.toSendAll (l.map script)) s).2 := by
  rw [← outcome_forM hf l]
  simp only [Bind.bind,EStateM.bind]
  cases l.forM f s <;> rfl

theorem runWithConnInner_plays (dir : List DirEntry) :
    after (c.runWithConnInner checksum dir s) = (c.play checksum (c.runPlan checksum dir s.rows) s).2 := by
  refine after_query fun s' hs => ?_
  simp only [Conn.appliedVersions,bind_assoc]
  refine after_query fun s'' hs' => ?_
  rw [← hs,← hs']
  refine after_verify (fun t _ => after_loop (fun mf s => ?_) _ _) _
  exact outcome_perform _ fun _ => rfl

theorem rollbackWithConn_plays (dir : List DirEntry) :
    after (c.rollbackWithConn dir target s) = (c.play checksum (c.rollbackPlan dir target s.rows) s).2 := by
  refine after_query fun s' hs => ?_
  simp only [Conn.appliedVersions,bind_assoc]
  refine after_query fun s'' hs' => ?_
  rw [← hs,← hs']
  refine after_loop (fun version s => ?_) _ _
  rw [Conn.revertVersion,Conn.downScript]
  cases (scanMigrations dir).reverse.find? (·.version = version) with
  | none => rfl
  | some mf =>
    obtain ⟨_,_,_,_ | script⟩ := mf
    · rfl
    · exact outcome_perform (.down (version,script)) fun _ => rfl

theorem block_head (c : Conn) (event : Event) : ∃ stmt rest, c.block event = (event,stmt) :: rest := by
  obtain ⟨stmt,rest,hst⟩ := exists_cons_of_ne_nil (c.statements_ne_nil event.sql)
  exact ⟨stmt,rest.map (event,·),by rw [Conn.block,hst,map_cons]⟩

/-- The scripts can be read off the statements. -/
theorem blocks_split {events events' : List Event} (h : events'.flatMap c.block = events.flatMap c.block ++ rest) :
    ∃ more, events' = events ++ more ∧ more.flatMap c.block = rest := by
  induction events generalizing events' with
  | nil => exact ⟨events',rfl,h⟩
  | cons event events ih =>
    obtain ⟨stmt,tail,hev⟩ := block_head c event
    cases events' with
    | nil => simp [hev] at h
    | cons event' events' =>
      obtain ⟨stmt',tail',hev'⟩ := block_head c event'
      obtain rfl : event' = event := by
        rw [flatMap_cons,flatMap_cons,hev,hev'] at h
        exact congrArg Prod.fst (cons.inj h).1
      rw [flatMap_cons,flatMap_cons,append_assoc,append_cancel_left_eq] at h
      obtain ⟨more,rfl,hmore⟩ := ih h
      exact ⟨more,rfl,hmore⟩

/-- A beginning of a script that consists of whole scripts is all of it. -/
theorem blocks_take {more : List Event} (h : more.flatMap c.block = (c.block event).take k) (hk : k ≠ 0) :
    more = [event] ∧ (c.statements event.sql).length ≤ k := by
  obtain ⟨stmt,tail,hev⟩ := block_head c event
  cases more with
  | nil => simp [hev,hk] at h
  | cons event' more =>
    obtain ⟨stmt',tail',hev'⟩ := block_head c event'
    obtain rfl : event' = event := by
      obtain ⟨k,rfl⟩ := Nat.exists_eq_succ_of_ne_zero hk
      rw [flatMap_cons,hev,hev'] at h
      exact congrArg Prod.fst (cons.inj h).1
    have hlen := congrArg length h
    rw [flatMap_cons,length_append,length_take,Conn.block,length_map] at hlen
    have hnil : more.flatMap c.block = [] := length_eq_zero_iff.mp (by omega)
    cases more with
    | nil => exact ⟨rfl,by omega⟩
    | cons event'' more =>
      obtain ⟨_,_,hev''⟩ := block_head c event''
      simp [hev''] at hnil

theorem part_recorded_iff (hs : Recorded c checksum s) (hk : k < (c.statements event.sql).length) :
    Recorded c checksum ⟨sent,s.rows,s.log ++ (c.block event).take k⟩ ↔ k = 0 := by
  obtain ⟨events,hlog,hro⟩ := hs
  constructor
  · rintro ⟨events',hlog',-⟩
    obtain ⟨more,-,hmore⟩ := blocks_split (hlog'.symm.trans (congrArg (· ++ _) hlog))
    by_contra hne
    have := (blocks_take hmore hne).2
    omega
  · rintro rfl
    exact ⟨events,by simpa using hlog,hro⟩

theorem live_rows (events : List Event) (event : Event) : (live (events ++ [event])).map (row checksum) =
    event.track checksum ((live events).map (row checksum)) := by
  cases event with
  | up mf =>
    rw [live_up,map_append]
    rfl
  | down script =>
    rw [live_down,Event.track,filter_map]
    rfl

theorem whole_recorded_iff (hs : Recorded c checksum s) :
    Recorded c checksum ⟨sent,s.rows,s.log ++ c.block event⟩ ↔ event.track checksum s.rows = s.rows := by
  obtain ⟨events,hlog,hro⟩ := hs
  constructor
  · rintro ⟨events',hlog',hro'⟩
    obtain ⟨more,rfl,hmore⟩ := blocks_split (hlog'.symm.trans (congrArg (· ++ _) hlog))
    rw [← take_length (l := c.block event)] at hmore
    obtain ⟨rfl,-⟩ := blocks_take hmore (by simp [Conn.block,c.statements_ne_nil])
    rw [live_rows,← hro] at hro'
    exact hro'.symm
  · intro htr
    exact ⟨events ++ [event],by simp [hlog],by rw [live_rows,← hro,htr]⟩

theorem track_eq_iff (hdel : ∀ version ∈ deleted, version ∉ rows.map (·.1))
    (hev : ∀ script, event = .down script → script.1 ∈ rows.map (·.1) ∨ script.1 ∈ deleted) :
    event.track checksum rows = rows ↔ (Sent.track event).mayFail deleted := by
  cases event with
  | up mf => simp [Event.track,Sent.mayFail]
  | down script =>
    rw [Event.track,filter_eq_self,Sent.mayFail,decide_eq_true_iff]
    constructor
    · intro hno
      refine (hev script rfl).resolve_left fun hmem => ?_
      obtain ⟨r,hr,heq⟩ := mem_map.mp hmem
      exact of_decide_eq_true (hno r hr) heq
    · intro hmem r hr
      exact decide_eq_true fun heq => hdel _ hmem (heq ▸ mem_map_of_mem hr)

/-- From the `k`-th statement of a script on. -/
theorem script_recorded_iff (hs : Recorded c checksum s)
    (htr : event.track checksum s.rows = s.rows ↔ (Sent.track event).mayFail deleted)
    (hrest : ∀ sent, Recorded c checksum
        (c.play checksum rest ⟨sent,event.track checksum s.rows,s.log ++ c.block event⟩).2 ↔
      c.Careful ((Sent.track event).deleted deleted) sent rest)
    (hk : k + m = (c.statements event.sql).length) :
    Recorded c checksum (c.play checksum ((range' k m).map (.script event) ++ .track event :: rest)
        ⟨sent,s.rows,s.log ++ (c.block event).take k⟩).2 ↔
      c.Careful deleted sent ((range' k m).map (.script event) ++ .track event :: rest) := by
  induction m generalizing k sent with
  | zero =>
    rw [range'_zero,map_nil,nil_append,take_of_length_le (by simp [Conn.block]; omega),Conn.play,Conn.Careful]
    by_cases hfa : (c.fails sent (.track event)).isSome
    · simp only [hfa]
      exact (whole_recorded_iff hs).trans htr
    · rw [if_neg hfa,if_neg hfa]
      exact hrest (sent + 1)
  | succ m ih =>
    rw [range'_succ,map_cons,cons_append,Conn.play,Conn.Careful]
    by_cases hfa : (c.fails sent (.script event k)).isSome
    · simp only [hfa]
      exact (part_recorded_iff hs (by omega)).trans decide_eq_true_iff.symm
    · rw [if_neg hfa,if_neg hfa]
      have hta : (c.block event).take k ++ (c.block event)[k]?.toList = (c.block event).take (k + 1) :=
        take_add_one.symm
      have hre := @ih (k + 1) (sent + 1) (by omega)
      rw [← hta,← append_assoc] at hre
      exact hre

theorem track_deleted (hdel : ∀ version ∈ deleted, version ∉ rows.map (·.1)) :
    (∀ version ∈ (Sent.track event).deleted deleted, version ∉ (event.track checksum rows).map (·.1)) ∧
      ∀ version, version ∈ rows.map (·.1) ∨ version ∈ deleted →
        version ∈ (event.track checksum rows).map (·.1) ∨ version ∈ (Sent.track event).deleted deleted := by
  cases event with
  | up mf =>
    simp only [Event.track,Sent.deleted,map_append,map_singleton,mem_append,mem_singleton,mem_filter,
      decide_eq_true_iff]
    exact ⟨fun version h => not_or.mpr ⟨hdel version h.1,h.2⟩,fun version h => by tauto⟩
  | down script =>
    have hmem : ∀ version, version ∈ (rows.filter (·.1 ≠ script.1)).map (·.1) ↔
        version ∈ rows.map (·.1) ∧ version ≠ script.1 := by
      intro version
      simp only [mem_map,mem_filter,decide_eq_true_iff]
      constructor
      · rintro ⟨r,⟨hr,hne⟩,rfl⟩
        exact ⟨⟨r,hr,rfl⟩,hne⟩
      · rintro ⟨⟨r,hr,rfl⟩,hne⟩
        exact ⟨r,⟨hr,hne⟩,rfl⟩
    simp only [Event.track,Sent.deleted,hmem,mem_cons]
    refine ⟨fun version h hbad => ?_,fun version h => by tauto⟩
    rcases h with rfl | h
    · exact hbad.2 rfl
    · exact hdel version h hbad.1

theorem scripts_recorded_iff {events : List (Option Event)} (hs : Recorded c checksum s)
    (hdel : ∀ version ∈ deleted, version ∉ s.rows.map (·.1))
    (hev : ∀ version script, some (.down (version, script)) ∈ events →
      version ∈ s.rows.map (·.1) ∨ version ∈ deleted) :
    Recorded c checksum (c.play checksum (c.toSendAll events) s).2 ↔
      c.Careful deleted s.sent (c.toSendAll events) := by
  induction events generalizing s deleted with
  | nil => simpa [Conn.toSendAll,Conn.play,Conn.Careful] using hs
  | cons event events ih =>
    cases event with
    | none => simpa [Conn.toSendAll,Conn.play,Conn.Careful] using hs
    | some event =>
      rw [Conn.toSendAll]
      split
      · rw [Conn.toSend,range_eq_range']
        obtain ⟨events',hlog,hro⟩ := hs
        obtain ⟨hdel',hev'⟩ := @track_deleted checksum deleted event s.rows hdel
        have hnext := @script_recorded_iff c checksum s event deleted (c.toSendAll events) 0 _ s.sent ⟨events',hlog,hro⟩
          (track_eq_iff hdel fun script hsc => hev script.1 script.2 (by simp [hsc]))
          (fun sent => ih ⟨events' ++ [event],by simp [hlog],by rw [live_rows,← hro]⟩ hdel'
            fun version script hmem => hev' version (hev version script (mem_cons_of_mem _ hmem))) (Nat.zero_add _)
        simpa using hnext
      · simpa [Conn.play,Conn.Careful] using hs

theorem query_recorded_iff (hs : Recorded c checksum s)
    (hrest : ∀ n, Recorded c checksum (c.play checksum rest { s with sent := n }).2 ↔ c.Careful deleted n rest) :
    Recorded c checksum (c.play checksum (.query :: rest) s).2 ↔ c.Careful deleted s.sent (.query :: rest) := by
  rw [Conn.play,Conn.Careful]
  split
  · exact iff_of_true hs rfl
  · exact hrest (s.sent + 1)

theorem checks_recorded_iff (hs : Recorded c checksum s)
    (hrest : ∀ n, Recorded c checksum (c.play checksum rest { s with sent := n }).2 ↔ c.Careful deleted n rest)
    (files : List MigrationFile) (n : Nat) :
    Recorded c checksum (c.play checksum (Conn.checks differs rest files) { s with sent := n }).2 ↔
      c.Careful deleted n (Conn.checks differs rest files) := by
  induction files generalizing n with
  | nil => exact hrest n
  | cons mf files ih =>
    refine @query_recorded_iff c checksum { s with sent := n } _ deleted hs fun n => ?_
    split
    · exact iff_of_true hs rfl
    · exact ih n

/-- Whether they return an error or not, `run_with_conn` and `rollback_with_conn` leave the effects of what is recorded
exactly if the statement at which they stop is one that may fail. -/
theorem migrations_all_or_nothing {s : Store} (hs : Recorded c checksum s) (dir : List DirEntry)
    (lock : Option (Option String × Option String)) (target : Nat) :
    (Recorded c checksum (after (c.runWithConn checksum dir lock s)) ↔
      c.Careful [] s.sent (c.lockedPlan checksum dir lock s.rows)) ∧
    (Recorded c checksum (after (c.rollbackWithConn dir target s)) ↔
      c.Careful [] s.sent (c.rollbackPlan dir target s.rows)) := by
  have hrun : Recorded c checksum (after (c.runWithConnInner checksum dir s)) ↔
      c.Careful [] s.sent (c.runPlan checksum dir s.rows) := by
    rw [runWithConnInner_plays]
    refine query_recorded_iff hs fun n => @query_recorded_iff c checksum { s with sent := n } _ _ hs fun n => ?_
    refine checks_recorded_iff hs (fun n => ?_) _ n
    exact @scripts_recorded_iff c checksum { s with sent := n } [] _ hs (by simp) (by simp)
  constructor
  · rcases lock with _ | ⟨_ | e,release⟩
    · exact hrun
    · refine Iff.trans (iff_of_eq (congrArg _ ?_)) hrun
      simp only [Conn.runWithConn,Bind.bind,EStateM.bind]
      cases c.runWithConnInner checksum dir s <;> cases release <;> rfl
    · exact iff_of_true hs rfl
  · rw [@rollbackWithConn_plays c checksum]
    refine query_recorded_iff hs fun n => @query_recorded_iff c checksum { s with sent := n } _ _ hs fun n => ?_
    refine @scripts_recorded_iff c checksum { s with sent := n } [] _ hs (by simp) fun version script hmem => .inl ?_
    obtain ⟨version',hve,hsc⟩ := mem_map.mp hmem
    obtain ⟨script',-,hsc⟩ := Option.map_eq_some_iff.mp hsc
    cases hsc
    exact (mem_filter.mp ((mem_insertionSort _).mp hve)).1

/-- A backend that takes a script as `rest` statements after the first; those of `refused` fail. -/
def backend (rest : Nat) (refused : Sent → Bool) : Conn :=
  ⟨fun _ => none, replicate (rest + 1), by simp, fun _ what => if refused what then some "locked" else none⟩

def Sent.isTrack : Sent → Bool
  | .track _ => true
  | _ => false

def Sent.isPlace (n : Nat) : Sent → Bool
  | .script _ place => place = n
  | _ => false

def onePair : List DirEntry :=
  [⟨"20260101000000__a.sql".toList, ['1']⟩, ⟨"20260101000000__a.down.sql".toList, []⟩]

def firstRun (c : Conn) : EStateM.Result RunError Store Nat :=
  c.runWithConn List.length onePair none ⟨0, [], []⟩

/-- Of the script that `firstRun` applies. -/
def firstRollback (c : Conn) : EStateM.Result RunError Store Nat :=
  c.rollbackWithConn onePair 0 (after (firstRun (backend 0 fun _ => false)))

theorem migrations_all_or_nothing_refused : failed (firstRun (backend 1 (Sent.isPlace 0))) ∧
    Recorded (backend 1 (Sent.isPlace 0)) List.length (after (firstRun (backend 1 (Sent.isPlace 0)))) ∧
    ¬Recorded (backend 1 (Sent.isPlace 1)) List.length (after (firstRun (backend 1 (Sent.isPlace 1)))) := by
  have hnew : ∀ c, Recorded c List.length ⟨0,[],[]⟩ := fun c => ⟨[],rfl,rfl⟩
  refine ⟨by decide +kernel,((migrations_all_or_nothing (hnew _) onePair none 0).1).mpr (by decide +kernel),?_⟩
  rw [firstRun,(migrations_all_or_nothing (hnew _) onePair none 0).1]
  decide +kernel

/-- A script is applied and has no row, it is applied in part, it is reverted and keeps its row. -/
theorem failures_unrecorded :
    (failed (firstRun (backend 0 Sent.isTrack)) ∧ (after (firstRun (backend 0 Sent.isTrack))).log.length = 1 ∧
      (after (firstRun (backend 0 Sent.isTrack))).rows = []) ∧
    (failed (firstRun (backend 1 (Sent.isPlace 1))) ∧
      (after (firstRun (backend 1 (Sent.isPlace 1)))).log.length = 1) ∧
    failed (firstRollback (backend 0 Sent.isTrack)) ∧
      (after (firstRollback (backend 0 Sent.isTrack))).log.length = 2 ∧
      (after (firstRollback (backend 0 Sent.isTrack))).rows.length = 1 := by
  decide +kernel

end OxiSql.Migrate
