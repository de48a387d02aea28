import OxiSql.Lib.Loop
import OxiSql.Ondisk.Varint

namespace OxiSql.Ondisk
open Lib

/-- A value as a record stores it: a float by its bits, a text by its bytes. -/
inductive Value where
  | null
  | integer (i : Int64)
  | float (bits : UInt64)
  | text (bytes : List UInt8)
  | blob (bytes : List UInt8)
deriving DecidableEq

inductive SerialTypeKind where
  | null
  | i8
  | i16
  | i24
  | i32
  | i48
  | i64
  | f64
  | constInt0
  | constInt1
  | text
  | blob
deriving DecidableEq

/-- The two codes that are kept for internal use are none. -/
structure SerialType where
  code : Nat
  valid : code ≠ 10 ∧ code ≠ 11

namespace SerialType

def kind (t : SerialType) : SerialTypeKind :=
  match t.code with
  | 0 => .null
  | 1 => .i8
  | 2 => .i16
  | 3 => .i24
  | 4 => .i32
  | 5 => .i48
  | 6 => .i64
  | 7 => .f64
  | 8 => .constInt0
  | 9 => .constInt1
  | n => if n % 2 = 0 then .blob else .text

def size (t : SerialType) : Nat :=
  match t.kind with
  | .null | .constInt0 | .constInt1 => 0
  | .i8 => 1
  | .i16 => 2
  | .i24 => 3
  | .i32 => 4
  | .i48 => 6
  | .i64 | .f64 => 8
  | .text => (t.code - 13) / 2
  | .blob => (t.code - 12) / 2

def ofBlob (size : Nat) : SerialType :=
  ⟨12 + size * 2, by omega⟩

def ofText (size : Nat) : SerialType :=
  ⟨13 + size * 2, by omega⟩

def ofInteger (i : Int) : SerialType :=
  if i = 0 then ⟨8, by decide⟩
  else if i = 1 then ⟨9, by decide⟩
  else if -128 ≤ i ∧ i ≤ 127 then ⟨1, by decide⟩
  else if -32768 ≤ i ∧ i ≤ 32767 then ⟨2, by decide⟩
  else if -8388608 ≤ i ∧ i ≤ 8388607 then ⟨3, by decide⟩
  else if -2147483648 ≤ i ∧ i ≤ 2147483647 then ⟨4, by decide⟩
  else if -140737488355328 ≤ i ∧ i ≤ 140737488355327 then ⟨5, by decide⟩
  else ⟨6, by decide⟩

/-- `From<&Value>`. -/
def ofValue : Value → SerialType
  | .null => ⟨0, by decide⟩
  | .integer i => ofInteger i.toInt
  | .float _ => ⟨7, by decide⟩
  | .text bytes => ofText bytes.length
  | .blob bytes => ofBlob bytes.length

def invalid (n : Nat) : Fault :=
  .corrupt s!"Invalid serial type: {n}"

/-- `TryFrom<u64>`. -/
def tryFrom (n : Nat) : Except Fault SerialType :=
  if h : n = 10 ∨ n = 11 then .error (invalid n) else .ok ⟨n, not_or.mp h⟩

end SerialType

/-- The bytes of an integer. The kinds left out are those of no integer. -/
def integerContent (i : Int) : List UInt8 :=
  match (SerialType.ofInteger i).kind with
  | .i8 => signedBytesBe 1 i
  | .i16 => signedBytesBe 2 i
  | .i24 => (signedBytesBe 4 i).drop 1
  | .i32 => signedBytesBe 4 i
  | .i48 => (signedBytesBe 8 i).drop 2
  | .i64 => signedBytesBe 8 i
  | _ => []

def content : Value → List UInt8
  | .null => []
  | .integer i => integerContent i.toInt
  | .float bits => bytesBe 8 bits.toNat
  | .text bytes | .blob bytes => bytes

def serial (v : Value) : List UInt8 :=
  writeVarint (SerialType.ofValue v).code

/-- One turn of the loop in `resolve_big_header_size`. -/
def resolveTurn (tentative varintLen : Nat) : Turn Nat Nat Fault :=
  if (writeVarint (tentative + varintLen)).length = varintLen then .done (tentative + varintLen)
  else .again (writeVarint (tentative + varintLen)).length

/-- `none` would be a loop that goes on. -/
def resolveBigHeaderSize (tentative : Nat) : Option Nat :=
  match loop (resolveTurn tentative) 10 (writeVarint tentative).length with
  | some (.ok size) => some size
  | _ => none

def headerSize (sizeHeader : Nat) : Option Nat :=
  if sizeHeader ≤ 126 then some (sizeHeader + 1) else resolveBigHeaderSize sizeHeader

/-- `Record::serialize`: the length of the header is put in before what was appended. -/
def serialize (buf : List UInt8) (values : List Value) : Option (List UInt8) :=
  let appended := values.flatMap serial ++ values.flatMap content
  (headerSize (values.flatMap serial).length).map fun size => buf ++ (writeVarint size ++ appended)

/-- An `AppendWriter` over a zeroed buffer of `capacity` bytes. -/
def appendAll (capacity : Nat) (slices : List (List UInt8)) : Except Fault (List UInt8) :=
  if capacity < slices.flatten.length then .error (.panic "range end index out of range")
  else .ok (slices.flatten ++ List.replicate (capacity - slices.flatten.length) 0)

/-- `ImmutableRecord::from_registers`. -/
def fromRegisters (registers : List Value) : Option (Except Fault (List UInt8)) :=
  let sizeHeader := (registers.map fun v => (serial v).length).sum
  let sizeValues := (registers.map fun v => (SerialType.ofValue v).size).sum
  (headerSize sizeHeader).map fun size =>
    appendAll (size + sizeValues) (writeVarint size :: (registers.map serial ++ registers.map content))

/-- `SmallVec<u64, 64>`: the heap is used once the 64 places are taken. -/
structure SmallVec where
  inPlace : List Nat
  extraData : Option (List Nat)
  spilled : inPlace.length < 64 → extraData = none

namespace SmallVec

def new : SmallVec :=
  ⟨[], none, fun _ => rfl⟩

def heap (vec : SmallVec) : List Nat :=
  vec.extraData.getD []

def len (vec : SmallVec) : Nat :=
  vec.inPlace.length + vec.heap.length

def push (vec : SmallVec) (value : Nat) : SmallVec :=
  if h : vec.len < 64 then
    ⟨vec.inPlace ++ [value], vec.extraData, fun _ => vec.spilled (by unfold len at h; omega)⟩
  else
    ⟨vec.inPlace, some (vec.heap ++ [value]), fun hlt => absurd hlt fun hlt => h (by
      simpa [len, heap, vec.spilled hlt] using hlt)⟩

def toList (vec : SmallVec) : List Nat :=
  vec.inPlace ++ vec.heap

@[simp] theorem toList_new : new.toList = [] := rfl

@[simp] theorem toList_push (vec : SmallVec) : (vec.push value).toList = vec.toList ++ [value] := by
  unfold push
  split
  · next h =>
    have hnone : vec.extraData = none := vec.spilled (by unfold len at h; omega)
    simp [toList,heap,hnone]
  · simp [toList,heap]

end SmallVec

def validateSerialType (value : Nat) : Except Fault Unit :=
  if value ≠ 10 ∧ value ≠ 11 then .ok () else .error (SerialType.invalid value)

def invalidHeaderSize : Fault :=
  .corrupt "Invalid record header size"

/-- The loop of `read_record` over the header. A varint takes a byte at least, so a header of no
more bytes than there is fuel is never cut short. -/
def readSerialTypes (payload : List UInt8) : Nat → Nat → Nat → SmallVec → Except Fault (SmallVec × Nat)
  | 0, _, pos, types => .ok (types, pos)
  | fuel + 1, headerSize, pos, types =>
    if headerSize = 0 then .ok (types, pos)
    else do
      let buf ← sliceFrom payload pos
      let (serialType, nr) ← readVarint buf
      validateSerialType serialType
      if headerSize < nr then .error invalidHeaderSize
      else readSerialTypes payload fuel (headerSize - nr) (pos + nr) (types.push serialType)

def readFixed (buf : List UInt8) (n : Nat) (message : String) : Except Fault (List UInt8) :=
  if buf.length < n then .error (.corrupt message) else .ok (buf.take n)

def signExtend (n : Nat) (bytes : List UInt8) : List UInt8 :=
  List.replicate n (if (bytes.headD 0).toNat ≤ 127 then 0 else 255) ++ bytes

def integerOf (bytes : List UInt8) : Value :=
  .integer (Int64.ofInt (ofSignedBytesBe bytes))

def readValue (buf : List UInt8) (t : SerialType) : Except Fault (Value × Nat) :=
  match t.kind with
  | .null => .ok (.null, 0)
  | .i8 => do
    let bytes ← readFixed buf 1 "Invalid UInt8 value"
    .ok (integerOf bytes, 1)
  | .i16 => do
    let bytes ← readFixed buf 2 "Invalid BEInt16 value"
    .ok (integerOf bytes, 2)
  | .i24 => do
    let bytes ← readFixed buf 3 "Invalid BEInt24 value"
    .ok (integerOf (signExtend 1 bytes), 3)
  | .i32 => do
    let bytes ← readFixed buf 4 "Invalid BEInt32 value"
    .ok (integerOf bytes, 4)
  | .i48 => do
    let bytes ← readFixed buf 6 "Invalid BEInt48 value"
    .ok (integerOf (signExtend 2 bytes), 6)
  | .i64 => do
    let bytes ← readFixed buf 8 "Invalid BEInt64 value"
    .ok (integerOf bytes, 8)
  | .f64 => do
    let bytes ← readFixed buf 8 "Invalid BEFloat64 value"
    .ok (.float (UInt64.ofNat (ofBytesBe bytes)), 8)
  | .constInt0 => .ok (.integer 0, 0)
  | .constInt1 => .ok (.integer 1, 0)
  | .blob => do
    let bytes ← readFixed buf t.size "Invalid Blob value"
    .ok (.blob bytes, t.size)
  | .text => do
    let len := buf.length
    let contentSize := t.size
    let bytes ← readFixed buf contentSize
      s!"Invalid String value, length {len} < expected length {contentSize}"
    .ok (.text bytes, contentSize)

def readValues (payload : List UInt8) : Nat → List Nat → Except Fault (List Value × Nat)
  | pos, [] => .ok ([], pos)
  | pos, code :: codes => do
    let buf ← sliceFrom payload pos
    let serialType ← SerialType.tryFrom code
    let (value, n) ← readValue buf serialType
    let (values, pos) ← readValues payload (pos + n) codes
    .ok (value :: values, pos)

def readBody (payload : List UInt8) (pos : Nat) (serialTypes : SmallVec) : Except Fault (List Value) := do
  let (values, pos) ← readValues payload pos serialTypes.inPlace
  match serialTypes.extraData with
  | none => .ok values
  | some extra =>
    let (more, _) ← readValues payload pos extra
    .ok (values ++ more)

def readRecord (payload : List UInt8) : Except Fault (List Value) := do
  let (headerSize, nr) ← readVarint payload
  if headerSize < nr then .error invalidHeaderSize
  else
    let (serialTypes, pos) ← readSerialTypes payload (headerSize - nr) (headerSize - nr) nr .new
    readBody payload pos serialTypes

end OxiSql.Ondisk
