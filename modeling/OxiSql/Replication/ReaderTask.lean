import OxiSql.Lib.Framing
import OxiSql.Replication.PgOutput

/-! The reader task of a replication connection: from the bytes of the socket to the items of the channel.
The relation cache and the replies to keepalives are the stream's. -/

namespace OxiSql.Replication.ReaderTask
open Lib PgOutput

inductive PgError where
  | truncated (what missing : String)
  | wrongTag (what : String) (found : UInt8)
  | trailing (what : String) (count : Nat)
  | emptyPayload
  | unexpectedPayload (found : UInt8)
  | pgoutput (e : ProtocolError)
  | malformedMessage
  | unexpectedMessage (name : String)
  | unexpectedResponse (found : UInt8)
  /-- `server_error_response` of the body. -/
  | server (body : List UInt8)
  | closed
deriving DecidableEq

structure CopyBothResponse where
  format : Int8
  columnFormats : List Int16
deriving DecidableEq

structure XLogData where
  walStart : UInt64
  walEnd : UInt64
  serverTime : Int64
  data : List UInt8
deriving DecidableEq

structure PrimaryKeepAlive where
  walEnd : UInt64
  serverTime : Int64
  replyRequested : Bool
deriving DecidableEq

inductive CopyBothMessage where
  | xlogData (xlog : XLogData)
  | keepAlive (ka : PrimaryKeepAlive)
deriving DecidableEq

inductive ReplicationEvent where
  | logical (walStart walEnd : UInt64) (message : LogicalReplicationMessage)
  | keepAlive (walEnd : UInt64) (replyRequested : Bool)
deriving DecidableEq

def field {α : Type} (what missing : String) (k : Nat) (ofNat : Nat → α) : Decoder PgError α := do
  return ofNat (← .word k fun _ => .truncated what missing)

def subMessageTag (what : String) (expected : Char) : Decoder PgError Unit := do
  let tag ← field what "sub-message tag byte" 1 UInt8.ofNat
  if tag = expected.toUInt8 then pure () else .fail (.wrongTag what tag)

def parseCopyBothResponse : Decoder PgError CopyBothResponse := do
  let format ← field "CopyBothResponse" "format byte" 1 Int8.ofNat
  let numColumns ← field "CopyBothResponse" "column count" 2 id
  let columnFormats ← (field "CopyBothResponse" "format code" 2 Int16.ofNat).many numColumns
  .finish (.trailing "CopyBothResponse")
  return ⟨format, columnFormats⟩

def parseXlogData : Decoder PgError XLogData := do
  subMessageTag "XLogData" 'w'
  let walStart ← field "XLogData" "wal_start" 8 UInt64.ofNat
  let walEnd ← field "XLogData" "wal_end" 8 UInt64.ofNat
  let serverTime ← field "XLogData" "server_time" 8 Int64.ofNat
  let data ← .rest
  return ⟨walStart, walEnd, serverTime, data⟩

def parsePrimaryKeepalive : Decoder PgError PrimaryKeepAlive := do
  subMessageTag "PrimaryKeepAlive" 'k'
  let walEnd ← field "PrimaryKeepAlive" "wal_end" 8 UInt64.ofNat
  let serverTime ← field "PrimaryKeepAlive" "server_time" 8 Int64.ofNat
  let replyRequested ← field "PrimaryKeepAlive" "reply_requested byte" 1 (· != 0)
  .finish (.trailing "PrimaryKeepAlive")
  return ⟨walEnd, serverTime, replyRequested⟩

def parseCopyBothMessage (payload : List UInt8) : Except PgError CopyBothMessage :=
  match payload with
  | [] => .error .emptyPayload
  | tag :: _ =>
    match Char.ofUInt8 tag with
    | 'w' => .xlogData <$> parseXlogData.decode payload
    | 'k' => .keepAlive <$> parsePrimaryKeepalive.decode payload
    | _ => .error (.unexpectedPayload tag)

def handleCopyData (payload : List UInt8) : Except PgError ReplicationEvent := do
  match ← parseCopyBothMessage payload with
  | .xlogData xlog =>
    let decoded ← (decoder.decode xlog.data).mapError .pgoutput
    return .logical xlog.walStart xlog.walEnd decoded
  | .keepAlive ka => return .keepAlive ka.walEnd ka.replyRequested

/-- What the server puts into a `CopyData` message. -/
inductive Frame where
  | xlogData (walStart walEnd : UInt64) (serverTime : Int64) (message : LogicalReplicationMessage)
  | keepAlive (walEnd : UInt64) (serverTime : Int64) (replyRequested : UInt8)
deriving DecidableEq

namespace Frame

def payload : Frame → List UInt8
  | xlogData walStart walEnd serverTime message =>
    tag 'w' ++ (u64 walStart ++ (u64 walEnd ++ (u64 serverTime.toUInt64 ++ encode message)))
  | keepAlive walEnd serverTime replyRequested =>
    tag 'k' ++ (u64 walEnd ++ (u64 serverTime.toUInt64 ++ [replyRequested]))

def event : Frame → ReplicationEvent
  | xlogData walStart walEnd _ message => .logical walStart walEnd message
  | keepAlive walEnd _ replyRequested => .keepAlive walEnd (replyRequested != 0)

def Encodable : Frame → Prop
  | xlogData _ _ _ message => PgOutput.Encodable message
  | keepAlive .. => True

end Frame

def CopyBothResponse.body (r : CopyBothResponse) : List UInt8 :=
  [r.format.toUInt8] ++
    (bytesBe 2 r.columnFormats.length ++ r.columnFormats.flatMap fun code => bytesBe 2 code.toUInt16.toNat)

/-- The first of the fields, given with their sizes, that the bytes do not hold. -/
def missing : List (String × Nat) → List UInt8 → Option String
  | [], _ => none
  | (name, size) :: fields, bytes => if bytes.length < size then some name else missing fields (bytes.drop size)

def xlogDataFields : List (String × Nat) :=
  [("wal_start", 8), ("wal_end", 8), ("server_time", 8)]

def keepAliveFields : List (String × Nat) :=
  [("wal_end", 8), ("server_time", 8), ("reply_requested byte", 1)]

/-- The payloads that are no frame, with what is wrong with each. -/
inductive Malformed : List UInt8 → PgError → Prop
  | empty : Malformed [] .emptyPayload
  | tag {found : UInt8} (hw : found ≠ 'w'.toUInt8) (hk : found ≠ 'k'.toUInt8) (rest : List UInt8) :
      Malformed (found :: rest) (.unexpectedPayload found)
  | xlogData {bytes : List UInt8} {name : String} (h : missing xlogDataFields bytes = some name) :
      Malformed (PgOutput.tag 'w' ++ bytes) (.truncated "XLogData" name)
  | message {bytes : List UInt8} {e : ProtocolError} (hlen : 24 ≤ bytes.length)
      (h : decodeMessage (bytes.drop 24) = .error (.error e)) : Malformed (PgOutput.tag 'w' ++ bytes) (.pgoutput e)
  | keepAlive {bytes : List UInt8} {name : String} (h : missing keepAliveFields bytes = some name) :
      Malformed (PgOutput.tag 'k' ++ bytes) (.truncated "PrimaryKeepAlive" name)
  | trailing {bytes : List UInt8} (h : 17 < bytes.length) :
      Malformed (PgOutput.tag 'k' ++ bytes) (.trailing "PrimaryKeepAlive" (bytes.length - 17))

theorem field_reads {α : Type} {ofNat : Nat → α} {a : α} (hn : n < 256 ^ k) (ha : ofNat n = a) :
    Reads (field what name k ofNat) (bytesBe k n) a :=
  ha ▸ (Reads.word hn _).last

theorem byte_reads {α : Type} {ofNat : Nat → α} {a : α} {x : UInt8} (ha : ofNat x.toNat = a) :
    Reads (field what name 1 ofNat) [x] a := by
  have hby : bytesBe 1 x.toNat = [x] := by simp [bytesBe,digitsBe]
  exact hby ▸ field_reads x.toNat_lt ha

theorem lsn_reads {x : UInt64} : Reads (field what name 8 UInt64.ofNat) (u64 x) x :=
  field_reads x.toNat_lt UInt64.ofNat_toNat

theorem time_reads {x : Int64} : Reads (field what name 8 Int64.ofNat) (u64 x.toUInt64) x :=
  field_reads x.toUInt64.toNat_lt ((congrArg UInt64.toInt64 UInt64.ofNat_toNat).trans x.toInt64_toUInt64)

theorem subMessageTag_reads (c : Char) : Reads (subMessageTag what c) (tag c) () := by
  have hta : Reads (if c.toUInt8 = c.toUInt8 then pure () else .fail (.wrongTag what c.toUInt8) : Decoder PgError Unit)
      [] () := by
    rw [if_pos rfl]
    exact .pure ()
  exact (byte_reads UInt8.ofNat_toNat).bind hta

theorem field_run {α β : Type} {ofNat : Nat → α} {f : α → Decoder PgError β} :
    (field what name k ofNat >>= f).run buf =
      if buf.length < k then .error (.error (.truncated what name))
      else (f (ofNat (ofBytesBe (buf.take k)))).run (buf.drop k) := by
  change (((if buf.length < k then .error (.error (PgError.truncated what name)) else takeBytes k buf) >>= _) >>= _) >>=
    _ = _
  by_cases hk : buf.length < k
  · rw [if_pos hk,if_pos hk]
    rfl
  · rw [if_neg hk,if_neg hk,takeBytes,if_pos (Nat.not_lt.mp hk)]
    rfl

theorem parseCopyBothResponse_body {r : CopyBothResponse} (h : r.columnFormats.length < 2 ^ 16) :
    parseCopyBothResponse.decode r.body = .ok r := by
  have hfo : Int8.ofNat r.format.toUInt8.toNat = r.format :=
    (congrArg UInt8.toInt8 UInt8.ofNat_toNat).trans r.format.toInt8_toUInt8
  have hco : Reads ((field "CopyBothResponse" "format code" 2 Int16.ofNat).many r.columnFormats.length)
      (r.columnFormats.flatMap fun code => bytesBe 2 code.toUInt16.toNat) r.columnFormats :=
    .many fun code _ => field_reads code.toUInt16.toNat_lt
      ((congrArg UInt16.toInt16 UInt16.ofNat_toNat).trans code.toInt16_toUInt16)
  apply Decoder.decode_ok (l := [])
  rw [parseCopyBothResponse,CopyBothResponse.body,(byte_reads hfo).run_bind,(field_reads h rfl).run_bind,
    ← List.append_nil (List.flatMap _ _)]
  exact hco.run_bind []

theorem handleCopyData_xlogData : handleCopyData (tag 'w' ++ bytes) =
    parseXlogData.decode (tag 'w' ++ bytes) >>= fun xlog =>
      ((decoder.decode xlog.data).mapError .pgoutput).map (.logical xlog.walStart xlog.walEnd) := by
  change (CopyBothMessage.xlogData <$> parseXlogData.decode _) >>= _ = _
  cases parseXlogData.decode (tag 'w' ++ bytes) with
  | error e => rfl
  | ok xlog =>
    cases decoder.decode xlog.data <;> rfl

theorem handleCopyData_keepAlive : handleCopyData (tag 'k' ++ bytes) =
    (parsePrimaryKeepalive.decode (tag 'k' ++ bytes)).map fun ka => .keepAlive ka.walEnd ka.replyRequested := by
  change (CopyBothMessage.keepAlive <$> parsePrimaryKeepalive.decode _) >>= _ = _
  cases parsePrimaryKeepalive.decode (tag 'k' ++ bytes) <;> rfl

theorem handleCopyData_payload {f : Frame} (h : f.Encodable) : handleCopyData f.payload = .ok f.event := by
  cases f with
  | xlogData walStart walEnd serverTime message =>
    have hxl : parseXlogData.decode (Frame.xlogData walStart walEnd serverTime message).payload =
        .ok ⟨walStart,walEnd,serverTime,encode message⟩ := by
      apply Decoder.decode_ok (l := [])
      rw [parseXlogData,Frame.payload,(subMessageTag_reads 'w').run_bind,(lsn_reads).run_bind,
        (lsn_reads).run_bind,(time_reads).run_bind]
      rfl
    have hme : decoder.decode (encode message) = .ok message :=
      Decoder.decode_ok (List.append_nil (encode message) ▸ (decoder_reads h).whole [])
    refine handleCopyData_xlogData.trans ((congrArg (· >>= _) hxl).trans ?_)
    change ((decoder.decode (encode message)).mapError PgError.pgoutput).map _ = _
    rw [hme]
    rfl
  | keepAlive walEnd serverTime replyRequested =>
    have hreply : (replyRequested.toNat != 0) = (replyRequested != 0) := by
      simp [bne,← UInt8.toNat_inj]
    have hka : parsePrimaryKeepalive.decode (Frame.keepAlive walEnd serverTime replyRequested).payload =
        .ok ⟨walEnd,serverTime,replyRequested != 0⟩ := by
      apply Decoder.decode_ok (l := [])
      rw [parsePrimaryKeepalive,Frame.payload,(subMessageTag_reads 'k').run_bind,(lsn_reads).run_bind,
        (time_reads).run_bind]
      exact (byte_reads hreply).run_bind []
    exact handleCopyData_keepAlive.trans (congrArg _ hka)

theorem parseXlogData_missing (h : missing xlogDataFields bytes = some name) :
    parseXlogData.decode (tag 'w' ++ bytes) = .error (.truncated "XLogData" name) := by
  apply Decoder.decode_error
  rw [parseXlogData,(subMessageTag_reads 'w').run_bind]
  simp only [field_run]
  simp only [missing,xlogDataFields] at h
  grind

theorem parseXlogData_data (hlen : 24 ≤ bytes.length) : ∃ walStart walEnd serverTime,
    parseXlogData.decode (tag 'w' ++ bytes) = .ok ⟨walStart,walEnd,serverTime,bytes.drop 24⟩ := by
  suffices ∃ walStart walEnd serverTime,
      parseXlogData.run (tag 'w' ++ bytes) = .ok (⟨walStart,walEnd,serverTime,bytes.drop 24⟩,[]) from
    this.imp fun _ h => h.imp fun _ h => h.imp fun _ h => Decoder.decode_ok h
  simp only [parseXlogData,(subMessageTag_reads 'w').run_bind,field_run,List.length_drop,List.drop_drop]
  rw [if_neg (by omega),if_neg (by omega),if_neg (by omega)]
  exact ⟨_,_,_,rfl⟩

theorem parsePrimaryKeepalive_missing (h : missing keepAliveFields bytes = some name) :
    parsePrimaryKeepalive.decode (tag 'k' ++ bytes) = .error (.truncated "PrimaryKeepAlive" name) := by
  apply Decoder.decode_error
  rw [parsePrimaryKeepalive,(subMessageTag_reads 'k').run_bind]
  simp only [field_run]
  simp only [missing,keepAliveFields] at h
  grind

theorem parsePrimaryKeepalive_trailing (h : 17 < bytes.length) :
    parsePrimaryKeepalive.decode (tag 'k' ++ bytes) = .error (.trailing "PrimaryKeepAlive" (bytes.length - 17)) := by
  apply Decoder.decode_error
  rw [parsePrimaryKeepalive,(subMessageTag_reads 'k').run_bind]
  simp only [field_run,List.length_drop,List.drop_drop]
  rw [if_neg (by omega),if_neg (by omega),if_neg (by omega)]
  have hne : bytes.drop 17 ≠ [] := by simpa using h
  change (if bytes.drop 17 = [] then _ else _) >>= _ = _
  rw [if_neg hne,List.length_drop]
  rfl

theorem handleCopyData_malformed (h : Malformed payload e) : handleCopyData payload = .error e := by
  cases h with
  | empty => rfl
  | @tag found hw hk rest =>
    have hch {c : Char} (hc : Char.ofUInt8 found = c) : found = c.toUInt8 := by
      rw [← hc]
      exact (UInt8.toUInt8_toUInt32 found).symm
    rw [handleCopyData,parseCopyBothMessage]
    split
    · next h => exact absurd (hch h) hw
    · next h => exact absurd (hch h) hk
    · rfl
  | xlogData h =>
    rw [handleCopyData_xlogData,parseXlogData_missing h]
    rfl
  | @message bytes e hlen h =>
    obtain ⟨walStart,walEnd,serverTime,hxl⟩ := parseXlogData_data hlen
    have hme : decoder.decode (bytes.drop 24) = .error e := by
      rw [decodeMessage] at h
      cases hrun : decoder.run (bytes.drop 24) with
      | ok r => simp [hrun,Except.map] at h
      | error _ =>
        rw [hrun] at h
        cases h
        exact Decoder.decode_error hrun
    rw [handleCopyData_xlogData,hxl]
    change ((decoder.decode (bytes.drop 24)).mapError PgError.pgoutput).map _ = _
    rw [hme]
    rfl
  | keepAlive h =>
    rw [handleCopyData_keepAlive,parsePrimaryKeepalive_missing h]
    rfl
  | trailing h =>
    rw [handleCopyData_keepAlive,parsePrimaryKeepalive_trailing h]
    rfl

inductive Message where
  | copyData (data : List UInt8)
  | copyDone
  | errorResponse (body : List UInt8)
  | other (name : String)
deriving DecidableEq

section
/-! `others` names the messages of the other tags; it has none for a tag it does not know or a body it refuses. -/
variable (others : UInt8 → List UInt8 → Option String)

def parseMessage (tag : UInt8) (body : List UInt8) : Option Message :=
  match Char.ofUInt8 tag with
  | 'd' => some (.copyData body)
  | 'c' => if body = [] then some .copyDone else none
  | 'E' => some (.errorResponse body)
  | _ => (others tag body).map .other

def readMessage (chunks : List (List UInt8)) (buf : List UInt8) :
    Except PgError (Message × List UInt8 × List (List UInt8)) :=
  match nextFrame (2 ^ 32) chunks buf with
  | (.more, _) => .error .closed
  | (.malformed, _) => .error .malformedMessage
  | (.frame tag body buf, chunks) =>
    match parseMessage others tag body with
    | some message => .ok (message, buf, chunks)
    | none => .error .malformedMessage

/-- The items that go to the channel; `fuel` bounds the messages that are read. -/
def runReaderTask : Nat → List (List UInt8) → List UInt8 → List (Except PgError ReplicationEvent)
  | 0, _, _ => []
  | fuel + 1, chunks, buf =>
    match readMessage others chunks buf with
    | .error .closed => []
    | .error e => [.error e]
    | .ok (.copyDone, _) => []
    | .ok (.errorResponse body, _) => [.error (.server body)]
    | .ok (.other name, _) => [.error (.unexpectedMessage name)]
    | .ok (.copyData payload, buf, chunks) =>
      match handleCopyData payload with
      | .error e => [.error e]
      | .ok event => .ok event :: runReaderTask fuel chunks buf

/-- The length of the header is signed. -/
def readStartReplicationResponse (chunks : List (List UInt8)) (buf : List UInt8) :
    Except PgError (CopyBothResponse × List UInt8 × List (List UInt8)) :=
  match nextFrame (2 ^ 31) chunks buf with
  | (.more, _) => .error .closed
  | (.malformed, _) => .error .malformedMessage
  | (.frame tag body buf, chunks) =>
    match Char.ofUInt8 tag with
    | 'W' => do return (← parseCopyBothResponse.decode body, buf, chunks)
    | 'E' => .error (.server body)
    | _ => .error (.unexpectedResponse tag)

/-- The reader task goes on with the bytes that the handshake has read and not used. -/
def startLogicalReplication (fuel : Nat) (chunks : List (List UInt8)) (buf : List UInt8) :
    Except PgError (List (Except PgError ReplicationEvent)) := do
  let (_, buf, chunks) ← readStartReplicationResponse chunks buf
  return runReaderTask others fuel chunks buf

/-- How the messages after the last good frame begin, and what the consumer gets of them. -/
inductive Ending : List UInt8 → List (Except PgError ReplicationEvent) → Prop
  | eof {bytes : List UInt8} (h : cut (2 ^ 32) bytes = .more) : Ending bytes []
  | copyDone (rest : List UInt8) : Ending (wire 'c'.toUInt8 [] ++ rest) []
  | errorResponse {body : List UInt8} (hlen : body.length + 4 < 2 ^ 32) (rest : List UInt8) :
      Ending (wire 'E'.toUInt8 body ++ rest) [.error (.server body)]
  | length {bytes : List UInt8} (h : cut (2 ^ 32) bytes = .malformed) : Ending bytes [.error .malformedMessage]
  | body {tag : UInt8} {body : List UInt8} (hlen : body.length + 4 < 2 ^ 32) (h : parseMessage others tag body = none)
      (rest : List UInt8) : Ending (wire tag body ++ rest) [.error .malformedMessage]
  | unexpected {tag : UInt8} {body : List UInt8} {name : String} (hlen : body.length + 4 < 2 ^ 32)
      (h : parseMessage others tag body = some (.other name)) (rest : List UInt8) :
      Ending (wire tag body ++ rest) [.error (.unexpectedMessage name)]
  | payload {payload : List UInt8} {e : PgError} (hlen : payload.length + 4 < 2 ^ 32)
      (h : Malformed payload e) (rest : List UInt8) :
      Ending (wire 'd'.toUInt8 payload ++ rest) [.error e]

variable {chunks : List (List UInt8)} {buf : List UInt8} (hchunks : [] ∉ chunks)
include hchunks

theorem readMessage_wire {tag : UInt8} (hlen : body.length + 4 < 2 ^ 32)
    (hby : buf ++ chunks.flatten = wire tag body ++ rest) :
    ∃ buf' chunks', buf' ++ chunks'.flatten = rest ∧ [] ∉ chunks' ∧ readMessage others chunks buf =
      match parseMessage others tag body with
      | some message => .ok (message,buf',chunks')
      | none => .error .malformedMessage := by
  obtain ⟨buf',chunks',hnext,hre,hchunks'⟩ := nextFrame_wire hchunks hlen le_rfl hby
  exact ⟨buf',chunks',hre,hchunks',by rw [readMessage,hnext]⟩

variable {others}

theorem runReaderTask_copyData (hlen : payload.length + 4 < 2 ^ 32)
    (hby : buf ++ chunks.flatten = wire 'd'.toUInt8 payload ++ rest) :
    ∃ buf' chunks', buf' ++ chunks'.flatten = rest ∧ [] ∉ chunks' ∧ runReaderTask others (fuel + 1) chunks buf =
      match handleCopyData payload with
      | .error e => [.error e]
      | .ok event => .ok event :: runReaderTask others fuel chunks' buf' := by
  obtain ⟨buf',chunks',hre,hchunks',hrea⟩ := readMessage_wire others hchunks hlen hby
  refine ⟨buf',chunks',hre,hchunks',?_⟩
  rw [runReaderTask,hrea]
  rfl

theorem runReaderTask_ending (hen : Ending others ending items) (hby : buf ++ chunks.flatten = ending) :
    runReaderTask others (fuel + 1) chunks buf = items := by
  cases hen with
  | eof h =>
    obtain ⟨chunks',hnext⟩ := nextFrame_none hchunks (hby ▸ h) (.inl rfl)
    rw [runReaderTask,readMessage,hnext]
  | copyDone rest =>
    obtain ⟨buf',chunks',-,-,hre⟩ := readMessage_wire others hchunks (by decide) hby
    rw [runReaderTask,hre]
    rfl
  | errorResponse hlen rest =>
    obtain ⟨buf',chunks',-,-,hre⟩ := readMessage_wire others hchunks hlen hby
    rw [runReaderTask,hre]
    rfl
  | length h =>
    obtain ⟨chunks',hnext⟩ := nextFrame_none hchunks (hby ▸ h) (.inr rfl)
    rw [runReaderTask,readMessage,hnext]
  | body hlen h rest | unexpected hlen h rest =>
    obtain ⟨buf',chunks',-,-,hre⟩ := readMessage_wire others hchunks hlen hby
    rw [runReaderTask,hre,h]
  | payload hlen h rest =>
    obtain ⟨buf',chunks',-,-,hrun⟩ := runReaderTask_copyData hchunks hlen hby
    rw [hrun,handleCopyData_malformed h]

/-- The induction is on the frames, for every split of what is left of the stream. -/
theorem runReaderTask_frames {frames : List Frame}
    (hfr : ∀ f ∈ frames, f.Encodable ∧ f.payload.length + 4 < 2 ^ 32) (hen : Ending others ending items)
    (hby : buf ++ chunks.flatten = (frames.flatMap fun f => wire 'd'.toUInt8 f.payload) ++ ending)
    (hfu : frames.length < fuel) :
    runReaderTask others fuel chunks buf = frames.map (fun f => .ok f.event) ++ items := by
  induction frames generalizing chunks buf fuel with
  | nil =>
    obtain ⟨fuel,rfl⟩ : ∃ n, fuel = n + 1 := ⟨fuel - 1,by simp at hfu; omega⟩
    exact runReaderTask_ending hchunks hen hby
  | cons f frames ih =>
    obtain ⟨⟨hf,hlen⟩,hfr⟩ := List.forall_mem_cons.mp hfr
    obtain ⟨fuel,rfl⟩ : ∃ n, fuel = n + 1 := ⟨fuel - 1,by omega⟩
    rw [List.flatMap_cons,List.append_assoc] at hby
    obtain ⟨buf',chunks',hre,hchunks',hrun⟩ := runReaderTask_copyData hchunks hlen hby
    rw [hrun,handleCopyData_payload hf]
    exact congrArg _ (ih hchunks' hfr hre (Nat.lt_of_succ_lt_succ hfu))

/-- Each frame gives one event, in order, however the bytes are split, and then the stream ends. -/
theorem startLogicalReplication_delivers {r : CopyBothResponse} {frames : List Frame} {ending : List UInt8}
    {fuel : Nat} {items : List (Except PgError ReplicationEvent)} (hresponse : r.columnFormats.length < 2 ^ 16)
    (hframes : ∀ f ∈ frames, f.Encodable ∧ f.payload.length + 4 < 2 ^ 32) (hending : Ending others ending items)
    (hbytes : buf ++ chunks.flatten =
      wire 'W'.toUInt8 r.body ++ ((frames.flatMap fun f => wire 'd'.toUInt8 f.payload) ++ ending))
    (hfuel : frames.length < fuel) :
    (∃ rest, readStartReplicationResponse chunks buf = .ok (r, rest)) ∧
      startLogicalReplication others fuel chunks buf = .ok (frames.map (fun f => .ok f.event) ++ items) := by
  have hlen : r.body.length + 4 < 2 ^ 31 := by
    simp [CopyBothResponse.body]
    omega
  obtain ⟨buf',chunks',hnext,hre,hchunks'⟩ := nextFrame_wire hchunks hlen (by decide) hbytes
  have hrea : readStartReplicationResponse chunks buf = .ok (r, buf', chunks') := by
    rw [readStartReplicationResponse,hnext]
    exact congrArg (· >>= fun r => pure (r, buf', chunks')) (parseCopyBothResponse_body hresponse)
  refine ⟨⟨_,hrea⟩,?_⟩
  rw [startLogicalReplication,hrea]
  exact congrArg Except.ok (runReaderTask_frames hchunks' hframes hending hre hfuel)

end

theorem startLogicalReplication_split :
    startLogicalReplication (fun _ _ => none) 3 [[7, 0, 0, 0, 100, 0, 0], [0, 22, 107] ++ bytesBe 8 1,
        bytesBe 8 0 ++ [1, 100, 0, 0, 0, 38, 119] ++ bytesBe 8 0 ++ bytesBe 8 1 ++ bytesBe 8 0 ++
          encode (.insert 1 [.null]), [100, 0, 0, 0, 7, 107, 0, 0]] [87, 0, 0, 0] =
      .ok [.ok (.keepAlive 1 true), .ok (.logical 0 1 (.insert 1 [.null])),
        .error (.truncated "PrimaryKeepAlive" "wal_end")] := by
  refine (@startLogicalReplication_delivers _ _ _ (by decide) ⟨0,[]⟩
    [.keepAlive 1 0 1,.xlogData 0 1 0 (.insert 1 [.null])] _ _ _ (by decide) ?_
    (@Ending.payload _ (tag 'k' ++ [0,0]) _ (by decide) (.keepAlive rfl) []) rfl (by decide)).2
  simp only [List.forall_mem_cons]
  exact ⟨⟨trivial,by decide⟩,⟨⟨by decide,by simp [TupleColumn.Fits]⟩,by decide⟩,by simp⟩

end OxiSql.Replication.ReaderTask
