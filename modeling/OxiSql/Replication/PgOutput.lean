import OxiSql.Lib.Decoders

namespace OxiSql.Replication.PgOutput
open Lib List UInt32

/-- What `PgError::Protocol` says. -/
inductive ProtocolError where
  | truncated (expected : Nat) (type : String) (remaining : Nat)
  | unterminatedString
  | invalidUtf8 (what : String)
  | negativeCount (what : String) (raw : Int)
  | unknownTag (tag : UInt8)
  | unknownIdentity (found : UInt8)
  | unknownMarker (expected : String) (found : UInt8)
  | unknownColumn (tag : UInt8)
deriving DecidableEq

inductive ReplicaIdentity where
  | default
  | nothing
  | full
  | index
deriving DecidableEq

structure ColumnSpec where
  key : Bool
  name : String
  typeOid : UInt32
  typeModifier : Int32
deriving DecidableEq

structure RelationBody where
  relId : UInt32
  namespaceName : String
  name : String
  replicaIdentity : ReplicaIdentity
  columns : List ColumnSpec
deriving DecidableEq

inductive TupleColumn where
  | null
  | unchangedToast
  | text (t : String)
  | binary (b : List UInt8)
deriving DecidableEq

abbrev TupleData := List TupleColumn

inductive LogicalReplicationMessage where
  | begin (finalLsn : UInt64) (commitTime : Int64) (xid : UInt32)
  | commit (flags : UInt8) (commitLsn endLsn : UInt64) (commitTime : Int64)
  | origin (commitLsn : UInt64) (name : String)
  | relation (body : RelationBody)
  | type (id : UInt32) (namespaceName name : String)
  | insert (relId : UInt32) (newTuple : TupleData)
  | update (relId : UInt32) (oldTuple : Option TupleData) (oldTupleIsFull : Bool) (newTuple : TupleData)
  | delete (relId : UInt32) (oldTuple : TupleData) (oldTupleIsFull : Bool)
  | truncate (cascade restartIdentity : Bool) (relIds : List UInt32)
  | message (transactional : Bool) (lsn : UInt64) (prefixText : String) (content : List UInt8)
deriving DecidableEq

abbrev Read := Decoder ProtocolError

def readWord {α : Type} (k : Nat) (type : String) (ofNat : Nat → α) : Read α := do
  return ofNat (← .word k (.truncated k type))

def readU8 : Read UInt8 := readWord 1 "u8" .ofNat

def readI16 : Read Int16 := readWord 2 "i16" .ofNat

def readI32 : Read Int32 := readWord 4 "i32" .ofNat

def readU32 : Read UInt32 := readWord 4 "u32" .ofNat

def readI64 : Read Int64 := readWord 8 "i64" .ofNat

def readU64 : Read UInt64 := readWord 8 "u64" .ofNat

def readSlice (len : Nat) : Read (List UInt8) :=
  .bytes len (.truncated len "bytes")

def fromUtf8 (what : String) (raw : List UInt8) : Read String :=
  match String.fromUTF8? ⟨raw.toArray⟩ with
  | some s => pure s
  | none => .fail (.invalidUtf8 what)

def readCstring : Read String where
  run buf :=
    match buf.findIdx? (· = 0) with
    | none => .error (.error .unterminatedString)
    | some n => do
      let (raw, _) ← takeBytes n buf
      let (_, rest) ← takeBytes (n + 1) buf
      (fromUtf8 "string" raw).run rest
  safe buf := by
    split
    · nofun
    next n hfind =>
      have hn := (findIdx?_eq_some_iff_getElem.mp hfind).1
      exact bind_safe (takeBytes_safe hn.le) fun _ _ => bind_safe (takeBytes_safe hn) fun _ _ => Decoder.safe _ _

def nonNegativeUsize (what : String) (raw : Int) : Read Nat :=
  if raw < 0 then .fail (.negativeCount what raw) else pure raw.toNat

def decodeColumn : Read TupleColumn := do
  let tag ← readU8
  match Char.ofUInt8 tag with
  | 'n' => return .null
  | 'u' => return .unchangedToast
  | 't' =>
    let rawLen ← readI32
    let len ← nonNegativeUsize "TupleData Text column length" rawLen.toInt
    let raw ← readSlice len
    let text ← fromUtf8 "Text column" raw
    return .text text
  | 'b' =>
    let rawLen ← readI32
    let len ← nonNegativeUsize "TupleData Binary column length" rawLen.toInt
    let raw ← readSlice len
    return .binary raw
  | _ => .fail (.unknownColumn tag)

def decodeTupleData : Read TupleData := do
  let rawNumCols ← readI16
  let numCols ← nonNegativeUsize "TupleData column count" rawNumCols.toInt
  let columns ← decodeColumn.many numCols
  return columns

def decodeBegin : Read LogicalReplicationMessage := do
  let finalLsn ← readU64
  let commitTime ← readI64
  let xid ← readU32
  return .begin finalLsn commitTime xid

def decodeCommit : Read LogicalReplicationMessage := do
  let flags ← readU8
  let commitLsn ← readU64
  let endLsn ← readU64
  let commitTime ← readI64
  return .commit flags commitLsn endLsn commitTime

def decodeOrigin : Read LogicalReplicationMessage := do
  let commitLsn ← readU64
  let name ← readCstring
  return .origin commitLsn name

def decodeColumnSpec : Read ColumnSpec := do
  let colFlags ← readU8
  let name ← readCstring
  let typeOid ← readU32
  let typeModifier ← readI32
  return ⟨colFlags &&& 1 != 0, name, typeOid, typeModifier⟩

def replicaIdentityOf (byte : UInt8) : Read ReplicaIdentity :=
  match Char.ofUInt8 byte with
  | 'd' => pure .default
  | 'n' => pure .nothing
  | 'f' => pure .full
  | 'i' => pure .index
  | _ => .fail (.unknownIdentity byte)

def decodeRelation : Read LogicalReplicationMessage := do
  let relId ← readU32
  let namespaceName ← readCstring
  let name ← readCstring
  let replicaIdentityByte ← readU8
  let replicaIdentity ← replicaIdentityOf replicaIdentityByte
  let rawNumCols ← readI16
  let numCols ← nonNegativeUsize "Relation column count" rawNumCols.toInt
  let columns ← decodeColumnSpec.many numCols
  return .relation ⟨relId, namespaceName, name, replicaIdentity, columns⟩

def decodeType : Read LogicalReplicationMessage := do
  let id ← readU32
  let namespaceName ← readCstring
  let name ← readCstring
  return .type id namespaceName name

def decodeInsert : Read LogicalReplicationMessage := do
  let relId ← readU32
  let marker ← readU8
  match Char.ofUInt8 marker with
  | 'N' =>
    let newTuple ← decodeTupleData
    return .insert relId newTuple
  | _ => .fail (.unknownMarker "Insert: expected 'N' tuple marker" marker)

def decodeUpdate : Read LogicalReplicationMessage := do
  let relId ← readU32
  let marker ← readU8
  match Char.ofUInt8 marker with
  | 'K' | 'O' =>
    let oldTuple ← decodeTupleData
    let newMarker ← readU8
    match Char.ofUInt8 newMarker with
    | 'N' =>
      let newTuple ← decodeTupleData
      return .update relId (some oldTuple) (Char.ofUInt8 marker == 'O') newTuple
    | _ => .fail (.unknownMarker "Update: expected 'N' new-tuple marker after old-row image" newMarker)
  | 'N' =>
    let newTuple ← decodeTupleData
    return .update relId none false newTuple
  | _ => .fail (.unknownMarker "Update: expected 'K', 'O', or 'N' marker" marker)

def oldTupleIsFullOf (marker : UInt8) : Read Bool :=
  match Char.ofUInt8 marker with
  | 'K' => pure false
  | 'O' => pure true
  | _ => .fail (.unknownMarker "Delete: expected 'K' or 'O' marker" marker)

def decodeDelete : Read LogicalReplicationMessage := do
  let relId ← readU32
  let marker ← readU8
  let oldTupleIsFull ← oldTupleIsFullOf marker
  let oldTuple ← decodeTupleData
  return .delete relId oldTuple oldTupleIsFull

def decodeTruncate : Read LogicalReplicationMessage := do
  let numRels ← readU32
  let optFlags ← readU8
  let relIds ← readU32.many numRels.toNat
  return .truncate (optFlags &&& 1 != 0) (optFlags &&& 2 != 0) relIds

def decodeLogicalMessage : Read LogicalReplicationMessage := do
  let rawFlags ← readU8
  let lsn ← readU64
  let prefixText ← readCstring
  let rawContentLen ← readU32
  let content ← readSlice rawContentLen.toNat
  return .message (rawFlags &&& 1 != 0) lsn prefixText content

def decoder : Read LogicalReplicationMessage := do
  let tag ← readU8
  match Char.ofUInt8 tag with
  | 'B' => decodeBegin
  | 'C' => decodeCommit
  | 'O' => decodeOrigin
  | 'R' => decodeRelation
  | 'Y' => decodeType
  | 'I' => decodeInsert
  | 'U' => decodeUpdate
  | 'D' => decodeDelete
  | 'T' => decodeTruncate
  | 'M' => decodeLogicalMessage
  | _ => .fail (.unknownTag tag)

/-- Bytes that are left over are not looked at. -/
def decodeMessage (payload : List UInt8) : Except (Stop ProtocolError) LogicalReplicationMessage :=
  (decoder.run payload).map (·.1)

def utf8 (s : String) : List UInt8 :=
  s.toUTF8.data.toList

def tag (c : Char) : List UInt8 :=
  [c.toUInt8]

def cstring (s : String) : List UInt8 :=
  utf8 s ++ [0]

def u32 (x : UInt32) : List UInt8 :=
  bytesBe 4 x.toNat

def u64 (x : UInt64) : List UInt8 :=
  bytesBe 8 x.toNat

def sized (bytes : List UInt8) : List UInt8 :=
  bytesBe 4 bytes.length ++ bytes

def column : TupleColumn → List UInt8
  | .null => tag 'n'
  | .unchangedToast => tag 'u'
  | .text t => tag 't' ++ sized (utf8 t)
  | .binary b => tag 'b' ++ sized b

def tupleData (columns : TupleData) : List UInt8 :=
  bytesBe 2 columns.length ++ columns.flatMap column

def columnSpec (c : ColumnSpec) : List UInt8 :=
  [if c.key then 1 else 0] ++ (cstring c.name ++ (u32 c.typeOid ++ u32 c.typeModifier.toUInt32))

def ReplicaIdentity.char : ReplicaIdentity → Char
  | .default => 'd'
  | .nothing => 'n'
  | .full => 'f'
  | .index => 'i'

def oldMarker (full : Bool) : Char :=
  if full then 'O' else 'K'

def encode : LogicalReplicationMessage → List UInt8
  | .begin finalLsn commitTime xid => tag 'B' ++ (u64 finalLsn ++ (u64 commitTime.toUInt64 ++ u32 xid))
  | .commit flags commitLsn endLsn commitTime =>
    tag 'C' ++ ([flags] ++ (u64 commitLsn ++ (u64 endLsn ++ u64 commitTime.toUInt64)))
  | .origin commitLsn name => tag 'O' ++ (u64 commitLsn ++ cstring name)
  | .relation body =>
    tag 'R' ++ (u32 body.relId ++ (cstring body.namespaceName ++ (cstring body.name ++
      (tag body.replicaIdentity.char ++ (bytesBe 2 body.columns.length ++ body.columns.flatMap columnSpec)))))
  | .type id namespaceName name => tag 'Y' ++ (u32 id ++ (cstring namespaceName ++ cstring name))
  | .insert relId newTuple => tag 'I' ++ (u32 relId ++ (tag 'N' ++ tupleData newTuple))
  | .update relId none _ newTuple => tag 'U' ++ (u32 relId ++ (tag 'N' ++ tupleData newTuple))
  | .update relId (some oldTuple) full newTuple =>
    tag 'U' ++ (u32 relId ++ (tag (oldMarker full) ++ (tupleData oldTuple ++ (tag 'N' ++ tupleData newTuple))))
  | .delete relId oldTuple full => tag 'D' ++ (u32 relId ++ (tag (oldMarker full) ++ tupleData oldTuple))
  | .truncate cascade restartIdentity relIds =>
    tag 'T' ++ (bytesBe 4 relIds.length ++
      ([(if cascade then 1 else 0) + if restartIdentity then 2 else 0] ++ relIds.flatMap u32))
  | .message transactional lsn prefixText content =>
    tag 'M' ++ ([if transactional then 1 else 0] ++ (u64 lsn ++ (cstring prefixText ++ sized content)))

/-! A length has four bytes, a number of columns two; both are signed. -/

def NulFree (s : String) : Prop :=
  ∀ b ∈ utf8 s, b ≠ 0

def TupleColumn.Fits : TupleColumn → Prop
  | .text t => (utf8 t).length < 2 ^ 31
  | .binary b => b.length < 2 ^ 31
  | _ => True

def Fits (columns : TupleData) : Prop :=
  columns.length ≤ 32767 ∧ ∀ c ∈ columns, c.Fits

def Encodable : LogicalReplicationMessage → Prop
  | .begin .. | .commit .. => True
  | .origin _ name => NulFree name
  | .relation body => NulFree body.namespaceName ∧ NulFree body.name ∧ body.columns.length ≤ 32767 ∧
      ∀ c ∈ body.columns, NulFree c.name
  | .type _ namespaceName name => NulFree namespaceName ∧ NulFree name
  | .insert _ newTuple => Fits newTuple
  | .update _ none full newTuple => full = false ∧ Fits newTuple
  | .update _ (some oldTuple) _ newTuple => Fits oldTuple ∧ Fits newTuple
  | .delete _ oldTuple _ => Fits oldTuple
  | .truncate _ _ relIds => relIds.length < 2 ^ 32
  | .message _ _ prefixText content => NulFree prefixText ∧ content.length < 2 ^ 32

variable {n : Nat}

theorem readWord_reads {α : Type} {ofNat : Nat → α} {a : α} (hn : n < 256 ^ k) (ha : ofNat n = a) :
    Reads (readWord k type ofNat) (bytesBe k n) a :=
  ha ▸ (Reads.word hn _).last

theorem readU8_reads : Reads readU8 [x] x := by
  have hby : bytesBe 1 x.toNat = [x] := by simp [bytesBe,digitsBe]
  exact hby ▸ readWord_reads x.toNat_lt UInt8.ofNat_toNat

theorem readU32_reads : Reads readU32 (u32 x) x :=
  readWord_reads x.toNat_lt UInt32.ofNat_toNat

theorem readU64_reads : Reads readU64 (u64 x) x :=
  readWord_reads x.toNat_lt UInt64.ofNat_toNat

theorem readI64_reads : Reads readI64 (u64 x.toUInt64) x :=
  readWord_reads x.toUInt64.toNat_lt ((congrArg UInt64.toInt64 UInt64.ofNat_toNat).trans x.toInt64_toUInt64)

theorem readI32_reads : Reads readI32 (u32 x.toUInt32) x :=
  readWord_reads x.toUInt32.toNat_lt ((congrArg UInt32.toInt32 UInt32.ofNat_toNat).trans x.toInt32_toUInt32)

theorem nonNegative_reads {raw : Int} (h : raw = n) : Reads (nonNegativeUsize what raw) [] n := by
  subst h
  exact .pure n

theorem fromUtf8_reads : Reads (fromUtf8 what (utf8 s)) [] s := by
  have hva : String.fromUTF8? s.toUTF8 = some s := dif_pos s.isValidUTF8
  unfold fromUtf8
  rw [show (⟨(utf8 s).toArray⟩ : ByteArray) = s.toUTF8 from rfl,hva]
  exact .pure s

theorem readCstring_reads (h : NulFree s) : Reads readCstring (cstring s) s where
  whole rest := by
    have hnone : (utf8 s).findIdx? (· = 0) = none := findIdx?_eq_none_iff.mpr fun b hb => decide_eq_false (h b hb)
    have hfi : (utf8 s ++ [0] ++ rest).findIdx? (· = 0) = some (utf8 s).length := by
      simp [hnone,findIdx?_cons]
    have hraw := takeBytes_append (ε := ProtocolError) (utf8 s) ([0] ++ rest)
    have hre := takeBytes_append (ε := ProtocolError) (utf8 s ++ [0]) rest
    rw [← append_assoc] at hraw
    rw [length_append,length_singleton] at hre
    simp only [readCstring,cstring,hfi,hraw,hre]
    exact (fromUtf8_reads).whole rest
  cut pre hpre hne := by
    have hsh : pre <+: utf8 s := (prefix_concat_iff.mp hpre).resolve_left hne
    have hfi : pre.findIdx? (· = 0) = none :=
      findIdx?_eq_none_iff.mpr fun b hb => decide_eq_false (h b (hsh.subset hb))
    exact ⟨.unterminatedString,by simp only [readCstring,hfi]⟩

theorem sized_reads {α : Type} {f : List UInt8 → Read α} {a : α} (hlen : bytes.length < 2 ^ 31)
    (hf : Reads (f bytes) [] a) : Reads (do
      let rawLen ← readI32
      let len ← nonNegativeUsize what rawLen.toInt
      let raw ← readSlice len
      f raw) (sized bytes) a := by
  have hraw : Reads (readSlice bytes.length >>= f) (bytes ++ []) a := (Reads.bytes bytes rfl _).bind hf
  rw [append_nil] at hraw
  exact (readWord_reads (by omega) rfl).bind ((nonNegative_reads (Int32.toInt_ofNat_of_lt hlen)).bind hraw)

theorem decodeColumn_reads (h : c.Fits) : Reads decodeColumn (column c) c := by
  cases c with
  | null | unchangedToast => exact (readU8_reads).bind (.pure _)
  | text t => exact (readU8_reads).bind (sized_reads h (fromUtf8_reads).last)
  | binary b => exact (readU8_reads).bind (sized_reads h (.pure _))

theorem count_reads {α : Type} {f : Nat → Read α} {a : α} (hn : n ≤ 32767)
    (hf : Reads (f n) bytes a) : Reads (do
      let rawNumCols ← readI16
      let numCols ← nonNegativeUsize what rawNumCols.toInt
      f numCols) (bytesBe 2 n ++ bytes) a :=
  (readWord_reads (by omega) rfl).bind ((nonNegative_reads (Int16.toInt_ofNat_of_lt (by omega))).bind hf)

theorem decodeTupleData_reads (h : Fits columns) : Reads decodeTupleData (tupleData columns) columns :=
  count_reads h.1 (.many fun c hc => decodeColumn_reads (h.2 c hc))

theorem decodeColumnSpec_reads (h : NulFree c.name) : Reads decodeColumnSpec (columnSpec c) c := by
  obtain ⟨key,name,typeOid,typeModifier⟩ := c
  have hkey : ((if key then 1 else 0 : UInt8) &&& 1 != 0) = key := by cases key <;> rfl
  have hsp : Reads decodeColumnSpec (columnSpec ⟨key,name,typeOid,typeModifier⟩)
      ⟨(if key then 1 else 0 : UInt8) &&& 1 != 0,name,typeOid,typeModifier⟩ :=
    (readU8_reads).bind ((readCstring_reads h).bind ((readU32_reads).bind (readI32_reads).last))
  rwa [hkey] at hsp

theorem decoder_reads (h : Encodable m) : Reads decoder (encode m) m := by
  cases m with
  | begin finalLsn commitTime xid =>
    exact (readU8_reads).bind ((readU64_reads).bind ((readI64_reads).bind (readU32_reads).last))
  | commit flags commitLsn endLsn commitTime =>
    exact (readU8_reads).bind ((readU8_reads).bind ((readU64_reads).bind
      ((readU64_reads).bind (readI64_reads).last)))
  | origin commitLsn name => exact (readU8_reads).bind ((readU64_reads).bind (readCstring_reads h).last)
  | relation body =>
    obtain ⟨relId,namespaceName,name,identity,columns⟩ := body
    have hco := Reads.many fun c hc => decodeColumnSpec_reads (h.2.2.2 c hc)
    cases identity <;> exact (readU8_reads).bind ((readU32_reads).bind ((readCstring_reads h.1).bind
      ((readCstring_reads h.2.1).bind ((readU8_reads).bind ((Reads.pure _).bind (count_reads h.2.2.1 hco.last))))))
  | type id namespaceName name =>
    exact (readU8_reads).bind ((readU32_reads).bind ((readCstring_reads h.1).bind (readCstring_reads h.2).last))
  | insert relId newTuple =>
    exact (readU8_reads).bind ((readU32_reads).bind ((readU8_reads).bind (decodeTupleData_reads h).last))
  | update relId oldTuple full newTuple =>
    cases oldTuple with
    | none =>
      obtain ⟨rfl,hnew⟩ := h
      exact (readU8_reads).bind ((readU32_reads).bind ((readU8_reads).bind (decodeTupleData_reads hnew).last))
    | some oldTuple =>
      cases full <;> exact (readU8_reads).bind ((readU32_reads).bind ((readU8_reads).bind
        ((decodeTupleData_reads h.1).bind ((readU8_reads).bind (decodeTupleData_reads h.2).last))))
  | delete relId oldTuple full =>
    cases full <;> exact (readU8_reads).bind ((readU32_reads).bind ((readU8_reads).bind
      ((Reads.pure _).bind (decodeTupleData_reads h).last)))
  | truncate cascade restartIdentity relIds =>
    have hlen : (ofNat relIds.length).toNat = relIds.length := toNat_ofNat_of_lt h
    have hids := Reads.many fun id (_ : id ∈ relIds) => readU32_reads
    rw [← hlen] at hids
    cases cascade <;> cases restartIdentity <;> exact (readU8_reads).bind ((readWord_reads h rfl).bind
      ((readU8_reads).bind hids.last))
  | message transactional lsn prefixText content =>
    have hlen : (ofNat content.length).toNat = content.length := toNat_ofNat_of_lt h.2
    have hcon : Reads (readSlice (ofNat content.length).toNat) content content := .bytes content hlen.symm _
    cases transactional <;> exact (readU8_reads).bind ((readU8_reads).bind ((readU64_reads).bind
      ((readCstring_reads h.1).bind ((readWord_reads h.2 rfl).bind hcon.last))))

/-- What is encoded is read back, no strict part of it is, and nothing panics. -/
theorem decodeMessage_encode : (∀ m, Encodable m → decodeMessage (encode m) = .ok m ∧
      ∀ pre, pre <+: encode m → pre ≠ encode m → ∃ e, decodeMessage pre = .error (.error e)) ∧
    ∀ payload, (∃ m, decodeMessage payload = .ok m) ∨ ∃ e, decodeMessage payload = .error (.error e) := by
  refine ⟨fun m hm => ⟨?_,fun pre hpre hne => ?_⟩,fun payload => ?_⟩
  · have hwh := (decoder_reads hm).whole []
    rw [append_nil] at hwh
    rw [decodeMessage,hwh]
    rfl
  · obtain ⟨e,he⟩ := (decoder_reads hm).cut pre hpre hne
    rw [decodeMessage,he]
    exact ⟨e,rfl⟩
  · unfold decodeMessage
    cases hrun : decoder.run payload with
    | ok r => exact .inl ⟨r.1,rfl⟩
    | error e =>
      cases e with
      | error e => exact .inr ⟨e,rfl⟩
      | panic => exact absurd hrun (decoder.safe payload)

theorem decodeMessage_update :
    decodeMessage (encode (.update 1 (some [.null, .binary [0]]) true [.unchangedToast, .null])) =
      .ok (.update 1 (some [.null, .binary [0]]) true [.unchangedToast, .null]) :=
  (decodeMessage_encode.1 (.update 1 (some [.null,.binary [0]]) true [.unchangedToast,.null])
    ⟨⟨by decide,by simp [TupleColumn.Fits]⟩,by decide,by simp [TupleColumn.Fits]⟩).1

end OxiSql.Replication.PgOutput
