import OxiSql.Ondisk.Record

namespace OxiSql.Ondisk
open Lib List SerialType

/-- The loop starts from too few bytes at most and only goes up, so it comes to a length whose
varint is as long as was reckoned. -/
theorem resolveTurn_ends (tentative varintLen fuel : Nat) (hfu : 9 - varintLen < fuel)
    (hle : varintLen ≤ (writeVarint (tentative + varintLen)).length) :
    ∃ size, loop (resolveTurn tentative) fuel varintLen = some (.ok size) ∧
      size = (writeVarint size).length + tentative := by
  induction fuel generalizing varintLen with
  | zero => omega
  | succ fuel ih =>
    by_cases heq : (writeVarint (tentative + varintLen)).length = varintLen
    · refine ⟨tentative + varintLen,?_,by omega⟩
      simp [loop,resolveTurn,heq]
    · have h9 := length_writeVarint_le (tentative + varintLen)
      have hmo := length_writeVarint_mono (Nat.add_le_add_left hle tentative)
      obtain ⟨size,hlo,hsi⟩ := ih _ (by omega) hmo
      refine ⟨size,?_,hsi⟩
      rw [loop,resolveTurn,if_neg heq]
      exact hlo

theorem headerSize_spec :
    ∃ size, headerSize sizeHeader = some size ∧ size = (writeVarint size).length + sizeHeader := by
  unfold headerSize
  split
  · have h1 : sizeHeader + 1 ≤ 0x7f := by omega
    simp [writeVarint,h1,Nat.add_comm]
  · obtain ⟨size,hlo,hsi⟩ := resolveTurn_ends sizeHeader (writeVarint sizeHeader).length 10
      (by omega) (length_writeVarint_mono (Nat.le_add_right ..))
    exact ⟨size,by simp [resolveBigHeaderSize,hlo],hsi⟩

theorem kind_ofText : (ofText n).kind = .text := by
  simp only [kind,ofText]
  split <;> first | omega | rw [if_neg (by omega)]

theorem kind_ofBlob : (ofBlob n).kind = .blob := by
  simp only [kind,ofBlob]
  split <;> first | omega | rw [if_pos (by omega)]

theorem size_ofText : (ofText n).size = n := by
  rw [size,kind_ofText]
  simp only [ofText]
  omega

theorem size_ofBlob : (ofBlob n).size = n := by
  rw [size,kind_ofBlob]
  simp only [ofBlob]
  omega

inductive Width (i : Int) : SerialTypeKind → Prop where
  | zero (h : i = 0) : Width i .constInt0
  | one (h : i = 1) : Width i .constInt1
  | i8 (h : -128 ≤ i ∧ i ≤ 127) : Width i .i8
  | i16 (h : -32768 ≤ i ∧ i ≤ 32767) : Width i .i16
  | i24 (h : -8388608 ≤ i ∧ i ≤ 8388607) : Width i .i24
  | i32 (h : -2147483648 ≤ i ∧ i ≤ 2147483647) : Width i .i32
  | i48 (h : -140737488355328 ≤ i ∧ i ≤ 140737488355327) : Width i .i48
  | i64 : Width i .i64

theorem width_ofInteger (i : Int) : Width i (ofInteger i).kind := by
  unfold ofInteger
  split
  · next h => exact .zero h
  split
  · next h => exact .one h
  split
  · next h => exact .i8 h
  split
  · next h => exact .i16 h
  split
  · next h => exact .i24 h
  split
  · next h => exact .i32 h
  split
  · next h => exact .i48 h
  · exact .i64

theorem length_integerContent : (integerContent i).length = (ofInteger i).size := by
  have hw := width_ofInteger i
  rw [integerContent,size]
  generalize (ofInteger i).kind = kind at hw
  cases hw <;> simp

theorem length_content (v : Value) : (content v).length = (ofValue v).size := by
  cases v with
  | null => rfl
  | integer i => exact length_integerContent
  | float bits => exact length_bytesBe 8 bits.toNat
  | text bytes => exact (size_ofText).symm
  | blob bytes => exact (size_ofBlob).symm

theorem readFixed_append (h : bytes.length = n) : readFixed (bytes ++ rest) n message = .ok bytes := by
  rw [readFixed,if_neg (by rw [length_append]; omega),take_left' h]

theorem ofSignedBytesBe_signExtend (h : bytes ≠ []) :
    ofSignedBytesBe (signExtend n bytes) = ofSignedBytesBe bytes := by
  obtain ⟨b,bytes,rfl⟩ := exists_cons_of_ne_nil h
  induction n with
  | zero => rfl
  | succ n ih =>
    rw [← ih]
    cases n with
    | zero => exact ofSignedBytesBe_sign b bytes
    | succ n =>
      -- the byte put in front repeats the sign of the one behind it
      have hsi : ∀ c : UInt8, c = (if b.toNat ≤ 127 then 0 else 255) →
          (if c.toNat ≤ 127 then 0 else 255 : UInt8) = c := by
        intro c hc
        split at hc <;> subst hc <;> rfl
      have hone := ofSignedBytesBe_sign (if b.toNat ≤ 127 then 0 else 255)
        (List.replicate n (if b.toNat ≤ 127 then 0 else 255) ++ b :: bytes)
      rw [hsi _ rfl] at hone
      simpa [signExtend,replicate_succ] using hone

theorem integerOf_eq (h : ofSignedBytesBe bytes = i.toInt) : integerOf bytes = .integer i := by
  rw [integerOf,h,Int64.ofInt_toInt]

theorem readFixed_integer {i : Int64} (hk : 0 < k) (hlo : -(256 ^ k : Nat) ≤ 2 * i.toInt)
    (hhi : 2 * i.toInt < (256 ^ k : Nat)) (n : Nat) (message : String) :
    (readFixed (signedBytesBe k i.toInt ++ rest) k message >>= fun bytes =>
      Except.ok (integerOf (signExtend n bytes),k)) = .ok (.integer i,k) := by
  have hne : signedBytesBe k i.toInt ≠ [] := by
    rw [← length_pos_iff,length_signedBytesBe]
    exact hk
  have hi : ofSignedBytesBe (signExtend n (signedBytesBe k i.toInt)) = i.toInt :=
    (ofSignedBytesBe_signExtend hne).trans (ofSignedBytesBe_signedBytesBe hlo hhi)
  rw [readFixed_append (length_signedBytesBe)]
  exact congrArg (fun v => Except.ok (v, k)) (integerOf_eq hi)

theorem readValue_integer : readValue (content (.integer i) ++ rest) (ofValue (.integer i)) =
      .ok (.integer i,(content (.integer i)).length) := by
  have hw := width_ofInteger i.toInt
  simp only [content,ofValue,integerContent]
  rw [readValue]
  generalize (ofInteger i.toInt).kind = kind at hw
  cases hw with
  | zero h =>
    have hi : i = 0 := Int64.toInt.inj h
    simp [hi]
  | one h =>
    have hi : i = 1 := Int64.toInt.inj h
    simp [hi]
  | i8 h | i16 h =>
    exact readFixed_integer (by decide) (by omega) (by omega) 0 _
  | i24 h =>
    simp only [drop_signedBytesBe 1 3,length_signedBytesBe]
    exact readFixed_integer (by decide) (by omega) (by omega) 1 _
  | i32 h =>
    exact readFixed_integer (by decide) (by omega) (by omega) 0 _
  | i48 h =>
    simp only [drop_signedBytesBe 2 6]
    exact readFixed_integer (by decide) (by omega) (by omega) 2 _
  | i64 =>
    have hlo := i.le_toInt
    have hhi := i.toInt_lt
    rw [length_signedBytesBe]
    exact readFixed_integer (by decide) (by omega) (by omega) 0 _

theorem readValue_content (v : Value) (rest : List UInt8) :
    readValue (content v ++ rest) (ofValue v) = .ok (v,(content v).length) := by
  cases v with
  | null => rfl
  | integer i => exact readValue_integer
  | float bits =>
    have hbi : UInt64.ofNat (ofBytesBe (bytesBe 8 bits.toNat)) = bits := by
      have hlt : bits.toNat < 256 ^ 8 := bits.toNat_lt
      rw [ofBytesBe_bytesBe,Nat.mod_eq_of_lt hlt,UInt64.ofNat_toNat]
    simp only [readValue,content,readFixed_append (length_bytesBe 8 bits.toNat),length_bytesBe]
    exact congrArg (fun b => Except.ok (Value.float b, 8)) hbi
  | text bytes =>
    simp only [readValue,ofValue,kind_ofText,size_ofText,content,
      readFixed_append (rfl : bytes.length = bytes.length)]
    rfl
  | blob bytes =>
    simp only [readValue,ofValue,kind_ofBlob,size_ofBlob,content,
      readFixed_append (rfl : bytes.length = bytes.length)]
    rfl

theorem validateSerialType_valid (t : SerialType) : validateSerialType t.code = .ok () :=
  if_pos t.valid

theorem tryFrom_code : tryFrom t.code = .ok t := by
  rw [tryFrom,dif_neg (not_or.mpr t.valid)]

variable {values : List Value}

theorem readSerialTypes_serials (hco : ∀ v ∈ values, (ofValue v).code < 2 ^ 64)
    (pre rest : List UInt8) (hfu : (values.flatMap serial).length ≤ fuel) (types : SmallVec) :
    ∃ vec, readSerialTypes (pre ++ (values.flatMap serial ++ rest)) fuel
        (values.flatMap serial).length pre.length types =
          .ok (vec,pre.length + (values.flatMap serial).length) ∧
      vec.toList = types.toList ++ values.map fun v => (ofValue v).code := by
  induction values generalizing pre fuel types with
  | nil =>
    refine ⟨types,?_,by simp⟩
    cases fuel <;> rfl
  | cons v values ih =>
    have hpos : 0 < (serial v).length := length_writeVarint_pos _
    rw [flatMap_cons,length_append] at hfu
    obtain ⟨fuel,rfl⟩ := Nat.exists_eq_add_one_of_ne_zero (by omega : fuel ≠ 0)
    obtain ⟨vec,hvec,hlist⟩ := ih (fun w hw => hco w (.tail _ hw)) (pre ++ serial v)
      (by omega : (values.flatMap serial).length ≤ fuel)
      (types.push (ofValue v).code)
    refine ⟨vec,?_,by rw [hlist]; simp⟩
    have hre : readVarint (serial v ++ values.flatMap serial ++ rest) =
        .ok ((ofValue v).code, (serial v).length) := by
      rw [append_assoc]
      exact readVarint_writeVarint (hco v (.head _)) _
    have hres : pre ++ (serial v ++ values.flatMap serial ++ rest) =
        pre ++ serial v ++ (values.flatMap serial ++ rest) := by
      simp
    have hlen : (serial v).length + (values.flatMap serial).length - (serial v).length =
        (values.flatMap serial).length := by omega
    rw [flatMap_cons,readSerialTypes,length_append,if_neg (by omega),sliceFrom_append]
    simp only [bind,Except.bind,hre,validateSerialType_valid]
    rw [if_neg (by omega),hlen,hres,← length_append,hvec,length_append,Nat.add_assoc]

theorem readValues_contents (values : List Value) (pre rest : List UInt8) :
    readValues (pre ++ (values.flatMap content ++ rest)) pre.length
        (values.map fun v => (ofValue v).code) =
      .ok (values,pre.length + (values.flatMap content).length) := by
  induction values generalizing pre with
  | nil => rfl
  | cons v values ih =>
    have hnext := ih (pre ++ content v)
    have hre := readValue_content v (values.flatMap content ++ rest)
    rw [append_assoc,length_append] at hnext
    rw [map_cons,flatMap_cons,readValues,sliceFrom_append,append_assoc]
    simp [bind,Except.bind,tryFrom_code,hre,hnext,Nat.add_assoc]

theorem readValues_append : readValues payload pos (codes ++ more) = (do
      let (values,pos) ← readValues payload pos codes
      let (rest,pos) ← readValues payload pos more
      .ok (values ++ rest,pos)) := by
  induction codes generalizing pos with
  | nil =>
    simp only [nil_append,readValues,bind,Except.bind]
    cases readValues payload pos more <;> rfl
  | cons code codes ih =>
    simp only [cons_append,readValues,bind,Except.bind]
    cases sliceFrom payload pos with
    | error e => rfl
    | ok buf =>
      cases tryFrom code with
      | error e => rfl
      | ok t =>
        simp only
        cases readValue buf t with
        | error e => rfl
        | ok r =>
          simp only [ih,bind,Except.bind]
          cases readValues payload (pos + r.2) codes with
          | error e => rfl
          | ok q =>
            simp only
            cases readValues payload q.2 more <;> rfl

/-- The two loops over the values are one over all serial types. -/
theorem readBody_eq : readBody payload pos types = (do
      let (values,_) ← readValues payload pos types.toList
      .ok values) := by
  rw [readBody,SmallVec.toList,readValues_append]
  cases readValues payload pos types.inPlace with
  | error e => rfl
  | ok r =>
    cases hx : types.extraData with
    | none => simp [SmallVec.heap,hx,readValues,bind,Except.bind]
    | some extra =>
      simp only [SmallVec.heap,hx,Option.getD_some,bind,Except.bind]
      cases readValues payload r.2 extra <;> rfl

/-- The bytes fit in a `Vec`, which has no more than `isize::MAX`. -/
def Fits (values : List Value) : Prop :=
  ∀ bytes ∈ serialize [] values, bytes.length < 2 ^ 63

theorem code_le (v : Value) : (ofValue v).code ≤ 13 + 2 * (content v).length := by
  cases v with
  | null => simp [ofValue]
  | integer i =>
    simp only [ofValue,ofInteger]
    split_ifs <;> simp only <;> omega
  | float bits =>
    simp only [ofValue]
    omega
  | text bytes =>
    simp only [ofValue,ofText,content]
    omega
  | blob bytes =>
    simp only [ofValue,ofBlob,content]
    omega

theorem length_le_flatMap {f : Value → List UInt8} (h : v ∈ values) :
    (f v).length ≤ (values.flatMap f).length :=
  (sublist_flatten_of_mem (mem_map_of_mem h)).length_le

theorem code_lt_of_fits {size : Nat} (hsi : 0 < (writeVarint size).length)
    (hfit : (writeVarint size ++ (values.flatMap serial ++ values.flatMap content)).length < 2 ^ 63)
    (hv : v ∈ values) : (ofValue v).code < 2 ^ 64 := by
  by_contra hco
  have hle := code_le v
  have hc : (content v).length ≤ (values.flatMap content).length := length_le_flatMap hv
  have hs : (serial v).length ≤ (values.flatMap serial).length := length_le_flatMap hv
  have h9 : (serial v).length = 9 := by
    simp [serial,writeVarint_nine (by omega : 2 ^ 56 ≤ (ofValue v).code)]
  simp only [length_append] at hfit
  omega

theorem sum_map_length (f : Value → List UInt8) :
    (values.map fun v => (f v).length).sum = (values.flatMap f).length := by
  rw [length_flatMap]

theorem writers_agree :
    ∃ size, size = (writeVarint size).length + (values.flatMap serial).length ∧ (∀ buf, serialize buf values =
        some (buf ++ (writeVarint size ++ (values.flatMap serial ++ values.flatMap content)))) ∧
      fromRegisters values =
        some (.ok (writeVarint size ++ (values.flatMap serial ++ values.flatMap content))) := by
  obtain ⟨size,hso,hsi⟩ := headerSize_spec
  refine ⟨size,hsi,fun buf => by rw [serialize,hso,Option.map_some],?_⟩
  have hsiz : (values.map fun v => (ofValue v).size).sum = (values.flatMap content).length := by
    simp only [← length_content]
    exact sum_map_length content
  have hfl : (writeVarint size :: (values.map serial ++ values.map content)).flatten =
      writeVarint size ++ (values.flatMap serial ++ values.flatMap content) := by
    simp [List.flatMap]
  have hlen : (writeVarint size ++ (values.flatMap serial ++ values.flatMap content)).length =
      size + (values.flatMap content).length := by
    simp only [length_append]
    omega
  simp only [fromRegisters,sum_map_length serial,hsiz,hso,Option.map_some,
    appendAll,hfl,hlen,Nat.lt_irrefl,if_false,Nat.sub_self,replicate_zero,
    append_nil]

theorem readRecord_written {size : Nat} (tail : List UInt8)
    (hsi : size = (writeVarint size).length + (values.flatMap serial).length)
    (hfit : (writeVarint size ++ (values.flatMap serial ++ values.flatMap content)).length < 2 ^ 63) :
    readRecord (writeVarint size ++ (values.flatMap serial ++ values.flatMap content) ++ tail) =
      .ok values := by
  have hpos := length_writeVarint_pos size
  have hsi64 : size < 2 ^ 64 := by
    simp only [length_append] at hfit
    omega
  have hvar := readVarint_writeVarint hsi64 ((values.flatMap serial ++ values.flatMap content) ++ tail)
  obtain ⟨vec,hty,hlist⟩ := readSerialTypes_serials
    (fun v hv => code_lt_of_fits hpos hfit hv) (writeVarint size) (values.flatMap content ++ tail)
    (le_refl (values.flatMap serial).length) .new
  have hva := readValues_contents values (writeVarint size ++ values.flatMap serial) tail
  rw [SmallVec.toList_new,nil_append] at hlist
  rw [length_append] at hva
  simp only [append_assoc] at hvar hty hva ⊢
  have hheader : size - (writeVarint size).length = (values.flatMap serial).length := by omega
  rw [readRecord,hvar]
  simp only [bind,Except.bind,hheader,hty,readBody_eq,hlist,hva]
  rw [if_neg (by omega)]

/-- Both writers write the same bytes, after whatever the buffer held, and the reader gives the
values back from them, whatever follows. -/
theorem record_round_trip {values : List Value} (hfit : Fits values) :
    ∃ bytes, (∀ buf, serialize buf values = some (buf ++ bytes)) ∧ fromRegisters values = some (.ok bytes) ∧
      ∀ tail, readRecord (bytes ++ tail) = .ok values := by
  obtain ⟨size,hsi,hser,hreg⟩ := writers_agree
  refine ⟨_,hser,hreg,fun tail => readRecord_written tail hsi ?_⟩
  exact hfit _ (by simpa using hser [])

theorem null_and_text_round_trip :
    Fits [.null, .integer (-8388609), .float 0x7ff8000000000001, .text [104, 105], .blob []] ∧ ∃ bytes,
        (∀ buf, serialize buf
            [.null, .integer (-8388609), .float 0x7ff8000000000001, .text [104, 105], .blob []] =
              some (buf ++ bytes)) ∧
        fromRegisters [.null, .integer (-8388609), .float 0x7ff8000000000001, .text [104, 105], .blob []] =
              some (.ok bytes) ∧
        ∀ tail, readRecord (bytes ++ tail) =
          .ok [.null, .integer (-8388609), .float 0x7ff8000000000001, .text [104, 105], .blob []] := by
  have hfit : Fits [.null,.integer (-8388609),.float 0x7ff8000000000001,.text [104,105],.blob []] := by
    unfold Fits
    decide +kernel
  exact ⟨hfit,record_round_trip hfit⟩

end OxiSql.Ondisk
