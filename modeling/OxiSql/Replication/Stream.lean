import Mathlib
import OxiSql.Lib.Runs

/-! A logical replication stream: the reader task, the keepalive task and the consumer share the
confirmed positions, the relation cache, a channel of events and the write half of the socket. -/

namespace OxiSql.Replication
open Lib List

/-- The positions that a standby status update carries. -/
structure Confirmed where
  written : Nat
  flushed : Nat
  applied : Nat
deriving DecidableEq

structure RelationBody (Columns : Type) where
  relId : Nat
  columns : Columns
deriving DecidableEq

/-- What a frame holds; `row` is an insert, an update or a delete. -/
inductive Event (Columns : Type) where
  | relation (body : RelationBody Columns)
  | row (relId : Nat)
  | other
  | keepAlive (replyRequested : Bool)
deriving DecidableEq

inductive Writer where
  | keepalive
  | reader
  | consumer
deriving DecidableEq

/-- Where the reader task is: before the next frame, before room in the channel, before it looks up
what to reply, or before the lock of the socket. -/
inductive Reader (Columns : Type) where
  | reading
  | sending (event : Event Columns)
  | replying
  | writing
deriving DecidableEq

namespace Reader
variable {Columns : Type}

/-- The event that the reader has decoded but not sent. -/
def pending : Reader Columns → List (Event Columns)
  | .sending event => [event]
  | _ => []

/-- A keepalive that asks for a reply is answered before the next frame is read. -/
def sent : Event Columns → Reader Columns
  | .keepAlive true => .replying
  | _ => .reading

def written : Reader Columns → Writer → Reader Columns
  | .writing, .reader => .reading
  | r, _ => r

@[simp] theorem pending_sent : (sent event).pending = [] := by
  unfold sent
  split <;> rfl

@[simp] theorem pending_written (r : Reader Columns) : (r.written w).pending = r.pending := by
  unfold written
  split <;> rfl

end Reader

structure Stream (Columns : Type) where
  wire : List (Event Columns)
  reader : Reader Columns
  relations : Nat → Option (RelationBody Columns)
  channel : List (Event Columns)
  received : List (Event Columns)
  confirmed : Confirmed
  /-- Updates that are made but not written yet. -/
  waiting : List (Writer × Confirmed)
  socket : List Confirmed

inductive Action where
  | read
  | send
  | reply
  | keepalive
  | standbyStatusUpdate (positions : Confirmed)
  | write (waiter : Nat)
  | receive
deriving DecidableEq

namespace Stream
variable {Columns : Type}

def new (start : Nat) (wire : List (Event Columns)) : Stream Columns :=
  ⟨wire, .reading, fun _ => none, [], [], ⟨start, start, start⟩, [], []⟩

def cache (relations : Nat → Option (RelationBody Columns)) : Event Columns → Nat → Option (RelationBody Columns)
  | .relation body => Function.update relations body.relId (some body)
  | _ => relations

/-- An update takes the positions when it is made and goes to the socket when it gets the lock. -/
def step (s : Stream Columns) : Action → Option (Stream Columns)
  | .read =>
    match s.reader, s.wire with
    | .reading, event :: wire =>
      some { s with wire, relations := cache s.relations event, reader := .sending event }
    | _, _ => none
  | .send =>
    match s.reader with
    | .sending event =>
      if s.channel.length < 256 then
        some { s with channel := s.channel ++ [event], reader := .sent event }
      else none
    | _ => none
  | .reply =>
    match s.reader with
    | .replying => some { s with waiting := s.waiting ++ [(.reader, s.confirmed)], reader := .writing }
    | _ => none
  | .keepalive =>
    if s.waiting.any (·.1 == .keepalive) then none
    else some { s with waiting := s.waiting ++ [(.keepalive, s.confirmed)] }
  | .standbyStatusUpdate positions =>
    some { s with confirmed := positions, waiting := s.waiting ++ [(.consumer, positions)] }
  | .write waiter => do
    let (writer, positions) ← s.waiting[waiter]?
    some { s with
      waiting := s.waiting.eraseIdx waiter
      socket := s.socket ++ [positions]
      reader := s.reader.written writer }
  | .receive =>
    match s.channel with
    | event :: channel => some { s with channel, received := s.received ++ [event] }
    | [] => none

/-- The body that `decode_tuple` reads a tuple with. -/
def lookupRelation (s : Stream Columns) (relId : Nat) : Option (RelationBody Columns) :=
  s.relations relId

def Forward (s : Stream Columns) : Action → Prop
  | .standbyStatusUpdate p =>
    s.confirmed.written ≤ p.written ∧ s.confirmed.flushed ≤ p.flushed ∧ s.confirmed.applied ≤ p.applied
  | _ => True

def InTurn (s : Stream Columns) : Action → Prop
  | .write waiter => ∀ x ∈ s.waiting[waiter]?, ∀ y ∈ s.waiting, x.2.flushed ≤ y.2.flushed
  | _ => True

instance (s : Stream Columns) (a : Action) : Decidable (s.Forward a ∧ s.InTurn a) := by
  cases a <;> unfold Forward InTurn <;> infer_instance

variable {s : Stream Columns}

/-- What an action that can be taken does. -/
inductive Step (s : Stream Columns) : Action → Stream Columns → Prop
  | read (hre : s.reader = .reading) (hwi : s.wire = event :: rest) :
    Step s .read { s with wire := rest, relations := cache s.relations event, reader := .sending event }
  | send (hre : s.reader = .sending event) (hch : s.channel.length < 256) :
    Step s .send { s with channel := s.channel ++ [event], reader := .sent event }
  | reply (hre : s.reader = .replying) :
    Step s .reply { s with waiting := s.waiting ++ [(.reader, s.confirmed)], reader := .writing }
  | keepalive : Step s .keepalive { s with waiting := s.waiting ++ [(.keepalive, s.confirmed)] }
  | standbyStatusUpdate : Step s (.standbyStatusUpdate p)
    { s with confirmed := p, waiting := s.waiting ++ [(.consumer, p)] }
  | write (hi : s.waiting[i]? = some (w, p)) : Step s (.write i) { s with
      waiting := s.waiting.eraseIdx i
      socket := s.socket ++ [p]
      reader := s.reader.written w }
  | receive (hch : s.channel = event :: rest) :
    Step s .receive { s with channel := rest, received := s.received ++ [event] }

theorem Step.of_step (h : s.step a = some s') : Step s a s' := by
  cases a with
  | standbyStatusUpdate p =>
    cases h
    exact .standbyStatusUpdate
  | write i =>
    obtain ⟨⟨w,p⟩,hi,h⟩ := Option.bind_eq_some_iff.mp h
    cases h
    exact .write hi
  | _ =>
    simp only [Stream.step] at h
    split at h <;> try split at h
    all_goals cases h
    all_goals first | exact .read ‹_› ‹_› | exact .send ‹_› ‹_› |
      exact .reply ‹_› | exact .keepalive | exact .receive ‹_›

theorem step_waiting (h : Step s a s') :
    (∃ w p, s'.waiting = s.waiting ++ [(w,p)] ∧ s'.socket = s.socket ∧ s'.confirmed = p ∧
      (a = .standbyStatusUpdate p ∨ p = s.confirmed)) ∨
    (∃ i w p, a = .write i ∧ s.waiting[i]? = some (w,p) ∧ s'.waiting = s.waiting.eraseIdx i ∧
      s'.socket = s.socket ++ [p] ∧ s'.confirmed = s.confirmed) ∨
    (s'.waiting = s.waiting ∧ s'.socket = s.socket ∧ s'.confirmed = s.confirmed) := by
  cases h with
  | standbyStatusUpdate => exact .inl ⟨_,_,rfl,rfl,rfl,.inl rfl⟩
  | write hi => exact .inr (.inl ⟨_,_,_,rfl,hi,rfl,rfl,rfl⟩)
  | keepalive | reply => exact .inl ⟨_,_,rfl,rfl,rfl,.inr rfl⟩
  | read | send | receive => exact .inr (.inr ⟨rfl,rfl,rfl⟩)

def Carries (known : Confirmed → Prop) (s : Stream Columns) : Prop :=
  known s.confirmed ∧ (∀ x ∈ s.waiting, known x.2) ∧ ∀ p ∈ s.socket, known p

theorem Carries.step (hs : s.Carries known) (ha : ∀ p, a = .standbyStatusUpdate p → known p)
    (h : Step s a s') : s'.Carries known := by
  obtain ⟨hco,hwa,hso⟩ := hs
  rcases step_waiting h with ⟨w,p,hw,hk,hc,hp⟩ | ⟨i,w,p,-,hi,hw,hk,hc⟩ | ⟨hw,hk,hc⟩
  · have hkn : known p := hp.elim (ha p) fun hp => hp ▸ hco
    refine ⟨hc ▸ hkn,?_,hk ▸ hso⟩
    rw [hw]
    exact forall_mem_append.mpr ⟨hwa,by simpa using hkn⟩
  · refine ⟨hc ▸ hco,fun x hx => hwa x (mem_of_mem_eraseIdx (hw ▸ hx)),?_⟩
    rw [hk]
    exact forall_mem_append.mpr ⟨hso,by simpa using hwa _ (mem_of_getElem? hi)⟩
  · exact ⟨hc ▸ hco,hw ▸ hwa,hk ▸ hso⟩

/-- The flushed positions on the socket go up, and no update on its way is behind them. -/
structure Ordered (s : Stream Columns) : Prop where
  sorted : s.socket.Pairwise (·.flushed ≤ ·.flushed)
  written : ∀ p ∈ s.socket, p.flushed ≤ s.confirmed.flushed
  ahead : ∀ p ∈ s.socket, ∀ x ∈ s.waiting, p.flushed ≤ x.2.flushed
  waiting : ∀ x ∈ s.waiting, x.2.flushed ≤ s.confirmed.flushed

theorem Ordered.step (hs : s.Ordered) (ha : s.Forward a ∧ s.InTurn a) (h : Step s a s') : s'.Ordered := by
  rcases step_waiting h with ⟨w,p,hw,hk,hc,hp⟩ | ⟨i,w,p,rfl,hi,hw,hk,hc⟩ | ⟨hw,hk,hc⟩
  · have hup : s.confirmed.flushed ≤ p.flushed := by
      rcases hp with rfl | rfl
      · exact ha.1.2.1
      · exact Nat.le_refl _
    constructor
    · rw [hk]
      exact hs.sorted
    · rw [hk,hc]
      exact fun q hq => Nat.le_trans (hs.written q hq) hup
    · rw [hk,hw]
      exact fun q hq => forall_mem_append.mpr ⟨hs.ahead q hq,by simpa using Nat.le_trans (hs.written q hq) hup⟩
    · rw [hw,hc]
      exact forall_mem_append.mpr ⟨fun x hx => Nat.le_trans (hs.waiting x hx) hup,by simp⟩
  · have hmem := mem_of_getElem? hi
    constructor
    · rw [hk]
      exact pairwise_append.mpr ⟨hs.sorted,by simp,fun q hq r hr => by
        rw [mem_singleton.mp hr]
        exact hs.ahead q hq _ hmem⟩
    · rw [hk,hc]
      exact forall_mem_append.mpr ⟨hs.written,by simpa using hs.waiting _ hmem⟩
    · rw [hk,hw]
      refine forall_mem_append.mpr ⟨fun q hq x hx => hs.ahead q hq x (mem_of_mem_eraseIdx hx),?_⟩
      simpa using fun x y hx => ha.2 _ hi (x, y) (mem_of_mem_eraseIdx hx)
    · rw [hw,hc]
      exact fun x hx => hs.waiting x (mem_of_mem_eraseIdx hx)
  · exact ⟨hk ▸ hs.sorted,by rw [hk,hc]; exact hs.written,by rw [hk,hw]; exact hs.ahead,by rw [hw,hc]; exact hs.waiting⟩

/-- What is written was passed by the consumer before, or is the start; and it goes up, as long as no
update overtakes one with a lower flushed position. -/
theorem acknowledgements (start : Nat) (wire : List (Event Columns)) (actions : List Action) (s : Stream Columns)
    (hrun : run step (new start wire) actions = some s) :
    (∀ p ∈ s.socket, p = ⟨start, start, start⟩ ∨ .standbyStatusUpdate p ∈ actions) ∧
      (Meets step (fun s a => s.Forward a ∧ s.InTurn a) (new start wire) actions →
        s.socket.Pairwise (·.flushed ≤ ·.flushed)) := by
  constructor
  · have hca := run_invariant (I := Carries fun p => p = ⟨start,start,start⟩ ∨ .standbyStatusUpdate p ∈ actions)
      (fun _ _ _ hs ha h => hs.step (fun _ hp => .inr (hp ▸ ha)) (.of_step h)) ⟨.inl rfl,by simp [new],by simp [new]⟩
      (meets_of_forall_mem (fun _ ha => ha) _) hrun
    exact hca.2.2
  · intro hme
    exact (run_invariant (fun _ _ _ hs ha h => Ordered.step hs ha (.of_step h))
      ⟨.nil,by simp [new],by simp [new],by simp [new]⟩ hme hrun).sorted

theorem acknowledgements_two :
    ∃ s : Stream Unit, run step (new 3 []) [.keepalive, .write 0, .standbyStatusUpdate ⟨5, 4, 4⟩, .write 0] = some s ∧
      s.socket.Pairwise (·.flushed ≤ ·.flushed) := by
  obtain ⟨s,hs,-⟩ := @exists_of_run_any (Stream Unit) _ step (fun _ => true) (new 3 [])
    [.keepalive,.write 0,.standbyStatusUpdate ⟨5,4,4⟩,.write 0] rfl
  exact ⟨s,hs,(acknowledgements 3 [] _ s hs).2 (by decide)⟩

/-- The keepalive task takes the positions, and writes them after those of a later call. -/
theorem acknowledgement_goes_back :
    Meets step Forward (new 0 [] : Stream Unit) [.keepalive, .standbyStatusUpdate ⟨5, 5, 5⟩, .write 1, .write 0] ∧
      ∃ s : Stream Unit, run step (new 0 []) [.keepalive, .standbyStatusUpdate ⟨5, 5, 5⟩, .write 1, .write 0] = some s ∧
        s.socket = [⟨5, 5, 5⟩, ⟨0, 0, 0⟩] := by
  refine ⟨by simp [Meets,Forward,step,new],?_⟩
  obtain ⟨s,hs,hso⟩ := @exists_of_run_any (Stream Unit) _ step (fun s => s.socket = [⟨5,5,5⟩,⟨0,0,0⟩])
    (new 0 []) [.keepalive,.standbyStatusUpdate ⟨5,5,5⟩,.write 1,.write 0] (by decide)
  exact ⟨s,hs,by simpa using hso⟩

def lastRelation (relId : Nat) (events : List (Event Columns)) : Option (RelationBody Columns) :=
  (events.filterMap fun
    | .relation body => if body.relId = relId then some body else none
    | _ => none).getLast?

def ahead (s : Stream Columns) : List (Event Columns) :=
  s.channel ++ s.reader.pending

theorem lastRelation_append :
    lastRelation relId (xs ++ ys) = (lastRelation relId ys).or (lastRelation relId xs) := by
  rw [lastRelation,filterMap_append,getLast?_append]
  rfl

theorem cache_lastRelation {relations : Nat → Option (RelationBody Columns)}
    (h : ∀ relId, relations relId = lastRelation relId events) :
    cache relations event relId = lastRelation relId (events ++ [event]) := by
  rw [lastRelation_append,← h]
  cases event with
  | relation body =>
    by_cases h : relId = body.relId
    · simp [cache,lastRelation,h]
    · simp [cache,lastRelation,Function.update_of_ne h,Ne.symm h]
  | _ => rfl

/-- Events are received in the order of the wire, and the cache has seen all that were decoded. -/
structure Delivers (wire : List (Event Columns)) (s : Stream Columns) : Prop where
  order : wire = s.received ++ s.ahead ++ s.wire
  cached : ∀ relId, s.relations relId = lastRelation relId (s.received ++ s.ahead)

/-- What a step moves: a frame is decoded, an event is received, or neither. -/
theorem step_events (h : Step s a s') :
    (∃ event, s.wire = event :: s'.wire ∧ s'.received = s.received ∧ s'.ahead = s.ahead ++ [event] ∧
      s'.relations = cache s.relations event) ∨
    (s'.received ++ s'.ahead = s.received ++ s.ahead ∧ s'.wire = s.wire ∧ s'.relations = s.relations) := by
  cases h with
  | read hre hwi => exact .inl ⟨_,hwi,rfl,by simp [ahead,hre,Reader.pending],rfl⟩
  | send hre => exact .inr ⟨by simp [ahead,hre,Reader.pending.eq_1],rfl,rfl⟩
  | reply hre => exact .inr ⟨by simp [ahead,hre,Reader.pending],rfl,rfl⟩
  | keepalive | standbyStatusUpdate => exact .inr ⟨rfl,rfl,rfl⟩
  | write => exact .inr ⟨by simp [ahead],rfl,rfl⟩
  | receive hch => exact .inr ⟨by simp [ahead,hch],rfl,rfl⟩

theorem Delivers.step {wire : List (Event Columns)} (hs : s.Delivers wire)
    (h : Step s a s') : s'.Delivers wire := by
  rcases step_events h with ⟨event,hwi,hrec,hah,hrel⟩ | ⟨hmo,hwi,hrel⟩
  · refine ⟨by rw [hs.order,hwi,hrec,hah]; simp,fun relId => ?_⟩
    rw [hrel,cache_lastRelation hs.cached,hrec,hah,append_assoc]
  · exact ⟨by rw [hs.order,hmo,hwi],fun relId => by rw [hrel,hmo,hs.cached]⟩

/-- The body read for a row is the one in force when the row was sent, exactly if the reader has not
decoded another one since. -/
theorem lookupRelation_iff (start : Nat) (wire : List (Event Columns)) (actions : List Action) (s : Stream Columns)
    (hrun : run step (new start wire) actions = some s) (before : List (Event Columns)) (relId : Nat)
    (hrow : s.received = before ++ [.row relId]) : (∃ rest, wire = before ++ .row relId :: rest) ∧
      (s.lookupRelation relId = lastRelation relId before ↔
        lastRelation relId s.ahead = none ∨ lastRelation relId s.ahead = lastRelation relId before) := by
  have hs := run_invariant_of_step (I := Delivers wire) (fun _ _ _ hs h => hs.step (.of_step h)) ⟨rfl,fun _ => rfl⟩ hrun
  have hlast : lastRelation relId s.received = lastRelation relId before := by
    rw [hrow,lastRelation_append]
    rfl
  refine ⟨⟨s.ahead ++ s.wire,by rw [hs.order,hrow]; simp⟩,?_⟩
  rw [lookupRelation,hs.cached,lastRelation_append,hlast]
  cases hah : lastRelation relId s.ahead with
  | none | some body => simp

theorem lookupRelation_in_step : ∃ s : Stream Nat, run step (new 0 [.relation ⟨7, 1⟩, .row 7, .relation ⟨7, 2⟩])
        [.read, .send, .read, .send, .receive, .receive] = some s ∧ s.lookupRelation 7 = some ⟨7, 1⟩ := by
  obtain ⟨s,hs,hch⟩ := @exists_of_run_any (Stream Nat) _ step
    (fun s => s.received = [.relation ⟨7,1⟩,.row 7] ∧ s.ahead = [])
    (new 0 [.relation ⟨7,1⟩,.row 7,.relation ⟨7,2⟩]) [.read,.send,.read,.send,.receive,.receive] (by decide)
  simp only [decide_eq_true_eq] at hch
  refine ⟨s,hs,?_⟩
  exact ((lookupRelation_iff 0 _ _ s hs [.relation ⟨7,1⟩] 7 hch.1).2.mpr (.inl (by rw [hch.2]; rfl))).trans rfl

/-- The reader decodes the next relation message while the row is still in the channel. -/
theorem lookupRelation_ahead : ∃ s : Stream Nat, run step (new 0 [.relation ⟨7, 1⟩, .row 7, .relation ⟨7, 2⟩])
        [.read, .send, .read, .send, .read, .receive, .receive] = some s ∧
      s.received = [.relation ⟨7, 1⟩, .row 7] ∧ s.lookupRelation 7 = some ⟨7, 2⟩ := by
  obtain ⟨s,hs,hch⟩ := @exists_of_run_any (Stream Nat) _ step
    (fun s => s.received = [.relation ⟨7,1⟩,.row 7] ∧ s.lookupRelation 7 = some ⟨7,2⟩)
    (new 0 [.relation ⟨7,1⟩,.row 7,.relation ⟨7,2⟩])
    [.read,.send,.read,.send,.read,.receive,.receive] (by decide)
  simp only [decide_eq_true_eq] at hch
  exact ⟨s,hs,hch⟩

/-- The keepalives that ask for a reply. -/
def requests (events : List (Event Columns)) : Nat :=
  events.countP fun | .keepAlive true => true | _ => false

/-- Those of the updates that are replies of the reader task. -/
def replies (updates : List (Writer × Confirmed)) : Nat :=
  updates.countP (·.1 == .reader)

/-- A step, with the number of replies that are written. -/
def stepCounting (s : Stream Columns × Nat) (a : Action) : Option (Stream Columns × Nat) :=
  (s.1.step a).map (·, match a with
    | .write waiter => s.2 + replies s.1.waiting[waiter]?.toList
    | _ => s.2)

/-- The replies that the reader has to make, and those it has made but not written. -/
def owed : Reader Columns → Nat × Nat
  | .replying => (1, 0)
  | .writing => (1, 1)
  | _ => (0, 0)

def Answered (s : Stream Columns × Nat) : Prop :=
  s.2 + (owed s.1.reader).1 = requests (s.1.received ++ s.1.channel) ∧ replies s.1.waiting = (owed s.1.reader).2

theorem replies_append : replies (xs ++ ys) = replies xs + replies ys :=
  countP_append

theorem replies_write (h : l[i]? = some x) : replies (l.eraseIdx i) + replies [x] = replies l := by
  obtain ⟨hi,rfl⟩ := List.getElem?_eq_some_iff.mp h
  rw [← replies_append]
  exact ((perm_append_singleton ..).trans (getElem_cons_eraseIdx_perm hi)).countP_eq _

theorem Answered.step (hs : Answered (s, n)) (h : stepCounting (s, n) a = some t) : Answered t := by
  obtain ⟨t,ht,rfl⟩ := Option.map_eq_some_iff.mp h
  obtain ⟨hn,hw⟩ := hs
  cases Step.of_step (s := s) ht with
  | read hre => exact ⟨by simpa [hre,owed] using hn,by simpa [hre,owed] using hw⟩
  | @send event hre =>
    simp only [hre] at hn hw
    constructor
    · rw [← append_assoc,requests,countP_append,← requests,← hn]
      rcases event with _ | _ | _ | _ | _ <;> rfl
    · rw [hw]
      rcases event with _ | _ | _ | _ | _ <;> rfl
  | reply hre => exact ⟨by simpa [hre,owed] using hn,by rw [replies_append,hw,hre]; rfl⟩
  | keepalive | standbyStatusUpdate => exact ⟨hn,by rw [replies_append,hw]; rfl⟩
  | @write i w p hi =>
    have hco := replies_write hi
    have h1 : replies [(w, p)] = if w = .reader then 1 else 0 := by cases w <;> rfl
    simp only [Answered,hi,Option.toList_some]
    cases hre : s.reader <;> cases w <;> simp [hre,h1,owed,Reader.written] at hn hw hco ⊢ <;> omega
  | receive hch => exact ⟨by simpa [hch] using hn,hw⟩

/-- Without a receive there is never room for the event. -/
theorem stuck (hrun : run stepCounting (s, n) as = some (s', n')) (has : .receive ∉ as)
    (hre : s.reader = .sending event) (hch : 256 ≤ s.channel.length) (hwa : replies s.waiting = 0) : n' = n := by
  induction as generalizing s n with
  | nil =>
    cases hrun
    rfl
  | cons a as ih =>
    obtain ⟨ha,hno⟩ := not_or.mp (mem_cons.not.mp has)
    simp only [run,stepCounting,Option.bind_eq_some_iff,Option.map_eq_some_iff] at hrun
    obtain ⟨-,⟨t,ht,rfl⟩,hrun⟩ := hrun
    cases Step.of_step (s := s) ht with
    | read hre' | reply hre' => cases hre.symm.trans hre'
    | send _ hlt => omega
    | receive => exact absurd rfl ha
    | keepalive | standbyStatusUpdate => exact ih hrun hno hre hch (by rw [replies_append,hwa]; rfl)
    | write hi =>
      obtain ⟨hw,hx⟩ := Nat.add_eq_zero_iff.mp ((replies_write hi).trans hwa)
      simp only [hi,Option.toList_some,hx] at hrun
      exact ih hrun hno (by rw [hre]; rfl) hch hw

/-- The keepalives received are answered unless the reader has sent the last of them and not written its reply;
and a reply needs no receive exactly if there is room for the event. -/
theorem keepalive_answered_iff (start : Nat) (wire : List (Event Columns)) (actions : List Action)
    (s : Stream Columns) (n : Nat) (hrun : run stepCounting (new start wire, 0) actions = some (s, n)) :
    (requests s.received ≤ n ↔ s.reader = .replying ∨ s.reader = .writing → 0 < requests s.channel) ∧
      (s.reader = .sending (.keepAlive true) → ((∃ more s', .receive ∉ more ∧
        run stepCounting (s, n) more = some (s', n + 1)) ↔ s.channel.length < 256)) := by
  have hs := run_invariant_of_step (I := Answered) (fun _ _ _ hs h => hs.step h) ⟨rfl,rfl⟩ hrun
  obtain ⟨hn,hw⟩ := hs
  rw [requests,countP_append,← requests,← requests] at hn
  constructor
  · cases hre : s.reader <;> simp [hre,owed] at hn ⊢ <;> omega
  · intro hre
    rw [hre] at hw
    constructor
    · rintro ⟨more,s',hmo,hrun⟩
      by_contra hch
      have := stuck hrun hmo hre (Nat.not_lt.mp hch) hw
      omega
    · intro hch
      refine ⟨[.send,.reply,.write s.waiting.length],?_⟩
      simp [run,stepCounting,step,hre,hch,Reader.sent,replies]

/-- The consumer has the keepalive before the reply is made. -/
theorem keepalive_before_reply : (run stepCounting ((new 0 [.keepAlive true] : Stream Unit), 0)
    [.read, .send, .receive]).any fun s => s.1.received = [.keepAlive true] ∧ s.1.socket = [] ∧ s.2 = 0 := by
  decide

theorem keepalive_answered_first : ∃ s n, run stepCounting ((new 0 [.keepAlive true] : Stream Unit), 0)
    [.read, .send, .reply, .write 0, .receive] = some (s, n) ∧ requests s.received ≤ n := by
  obtain ⟨⟨s,n⟩,hs,hre⟩ := @exists_of_run_any (Stream Unit × Nat) _ stepCounting (·.1.reader = .reading)
    (new 0 [.keepAlive true],0) [.read,.send,.reply,.write 0,.receive] (by decide)
  refine ⟨s,n,hs,(keepalive_answered_iff 0 _ _ s n hs).1.mpr ?_⟩
  have hre : s.reader = .reading := of_decide_eq_true hre
  simp [hre]

end Stream

end OxiSql.Replication
