import OxiSql.Lib.BigEndian

namespace OxiSql.Postgres.Numeric
open Lib List

abbrev Text := List Char

inductive NumericError where
  | tooShort (bytes : Nat)
  | truncatedGroups
  | missing (what : String)
  | negativeCount (n : Int)
  | groupRange (group : Nat)
  | overflow
deriving DecidableEq

def signNan : Nat := 0xC000

def signNeg : Nat := 0x4000

def padded (group : Nat) : Text :=
  (Nat.toDigits 10 group).leftpad 4 '0'

/-- The next `n` groups; one that is missing counts as zero. -/
def wholeGroups : Nat → List Nat → Text
  | 0, _ => []
  | n + 1, groups => padded (groups.headD 0) ++ wholeGroups n groups.tail

/-- The first group is written without leading zeros. -/
def integerPart (intGroups : Nat) (groups : List Nat) : Text :=
  match intGroups with
  | 0 => ['0']
  | n + 1 => Nat.toDigits 10 (groups.headD 0) ++ wholeGroups n groups.tail

def fractionGroups : Nat → List Nat → Nat → Text
  | 0, _, _ => []
  | n + 1, groups, remainingScale =>
    (padded (groups.headD 0)).take (min remainingScale 4) ++ fractionGroups n groups.tail (remainingScale - 4)

def render (intGroups sign dscale : Nat) (groups : List Nat) : Text :=
  let fractionPart := fractionGroups ((dscale + 3) / 4) (groups.drop intGroups) dscale
  (if sign = signNeg then ['-'] else []) ++ integerPart intGroups groups ++
    if fractionPart = [] then [] else '.' :: fractionPart

def word (raw : List UInt8) (pos : Nat) : List UInt8 :=
  (raw.drop pos).take 2

def readGroups (short : NumericError) (check : Nat → Except NumericError Unit) :
    Nat → List UInt8 → Except NumericError (List Nat)
  | 0, _ => .ok []
  | n + 1, a :: b :: rest => do
    check (ofBytesBe [a, b])
    return ofBytesBe [a, b] :: (← readGroups short check n rest)
  | _ + 1, _ => .error short

/-- The weight is a 16 bit integer, and so is the number of groups before the point. -/
def decodePgNumeric (raw : List UInt8) : Except NumericError Text := do
  if raw.length < 8 then throw (.tooShort raw.length)
  if ofBytesBe (word raw 4) = signNan then return "NaN".toList
  let groups ← readGroups .truncatedGroups (fun _ => .ok ()) (ofBytesBe (word raw 0)) (raw.drop 8)
  let intGroups := ofSignedBytesBe (word raw 2) + 1
  if 2 ^ 15 ≤ intGroups then throw .overflow
  return render intGroups.toNat (ofBytesBe (word raw 4)) (ofBytesBe (word raw 6)) groups

def checkGroup (group : Nat) : Except NumericError Unit :=
  if 9999 < group then .error (.groupRange group) else .ok ()

def decodeBinaryNumeric (raw : List UInt8) : Except NumericError Text := do
  if raw.length < 2 then throw (.missing "NUMERIC ndigits")
  if raw.length < 4 then throw (.missing "NUMERIC weight")
  if raw.length < 6 then throw (.missing "NUMERIC sign")
  if raw.length < 8 then throw (.missing "NUMERIC dscale")
  if ofBytesBe (word raw 4) = signNan then return "NaN".toList
  let ndigits := ofSignedBytesBe (word raw 0)
  if ndigits < 0 then throw (.negativeCount ndigits)
  let groups ← readGroups (.missing "NUMERIC digit group") checkGroup ndigits.toNat (raw.drop 8)
  return render (ofSignedBytesBe (word raw 2) + 1).toNat (ofBytesBe (word raw 4)) (ofBytesBe (word raw 6)) groups

def parts : List Nat → Int → List ℚ
  | [], _ => []
  | d :: ds, w => d * 10000 ^ w :: parts ds (w - 1)

structure Value where
  groups : List Nat
  weight : Int
  negative : Bool
  dscale : Nat
deriving DecidableEq

namespace Value

def number (v : Value) : ℚ :=
  if v.negative then -(parts v.groups v.weight).sum else (parts v.groups v.weight).sum

def encode (v : Value) : List UInt8 :=
  bytesBe 2 v.groups.length ++ signedBytesBe 2 v.weight ++ bytesBe 2 (if v.negative then signNeg else 0) ++
    bytesBe 2 v.dscale ++ v.groups.flatMap (bytesBe 2)

/-- The fields are in range, and no digit lies beyond the scale. -/
structure WellFormed (v : Value) : Prop where
  count : v.groups.length < 2 ^ 16
  low : -2 ^ 15 ≤ v.weight
  high : v.weight < 2 ^ 15
  scale : v.dscale < 2 ^ 16
  range : ∀ d ∈ v.groups, d ≤ 9999
  fits : ∀ q ∈ parts v.groups v.weight, ∃ k : ℤ, q * 10 ^ v.dscale = k

end Value

def readUnsigned (text : Text) : Option (ℚ × Nat) :=
  match text.splitOn '.' with
  | [whole] => if whole ≠ [] ∧ whole.all Char.isDigit then some (Nat.ofDigitChars 10 whole 0, 0) else none
  | [whole, fraction] =>
    if whole ≠ [] ∧ fraction ≠ [] ∧ (whole ++ fraction).all Char.isDigit then
      some (Nat.ofDigitChars 10 (whole ++ fraction) 0 / 10 ^ fraction.length, fraction.length)
    else none
  | _ => none

/-- The number that a decimal text stands for, and how many digits follow its point. -/
def readDecimal : Text → Option (ℚ × Nat)
  | '-' :: text => (readUnsigned text).map fun (q, scale) => (-q, scale)
  | text => readUnsigned text

theorem readGroups_bytes {short : NumericError} {check : Nat → Except NumericError Unit} {groups : List Nat}
    (hra : ∀ d ∈ groups, d ≤ 9999) (hch : ∀ d ∈ groups, check d = .ok ()) :
    readGroups short check groups.length (groups.flatMap (bytesBe 2)) = .ok groups := by
  induction groups with
  | nil => rfl
  | cons d groups ih =>
    obtain ⟨hd,hra⟩ := forall_mem_cons.mp hra
    obtain ⟨hc,hch⟩ := forall_mem_cons.mp hch
    obtain ⟨a,b,hab⟩ := length_eq_two.mp (length_bytesBe 2 d)
    have hval : ofBytesBe [a,b] = d := by
      rw [← hab,ofBytesBe_bytesBe,Nat.mod_eq_of_lt (by omega)]
    rw [flatMap_cons,hab,length_cons]
    simp only [cons_append,nil_append,readGroups,hval,hc,ih hra hch]
    rfl

theorem word_eq {before bytes after : List UInt8} {pos : Nat} (hpos : before.length = pos) (hlen : bytes.length = 2) :
    word (before ++ (bytes ++ after)) pos = bytes := by
  rw [word,drop_left' hpos,take_left' hlen]

section Fields

variable {v : Value}

def Value.sign (v : Value) : Nat :=
  if v.negative then signNeg else 0

theorem decode_encode (hv : v.WellFormed) :
    decodePgNumeric v.encode = (if v.weight = 2 ^ 15 - 1 then .error .overflow
      else .ok (render (v.weight + 1).toNat v.sign v.dscale v.groups)) ∧
    decodeBinaryNumeric v.encode = if v.groups.length < 2 ^ 15 then
        .ok (render (v.weight + 1).toNat v.sign v.dscale v.groups)
      else .error (.negativeCount (v.groups.length - 2 ^ 16)) := by
  obtain ⟨hco,hlow,hhi,hsc,hra,-⟩ := hv
  have hsi : v.sign < 2 ^ 16 ∧ v.sign ≠ signNan := by
    unfold Value.sign
    split <;> decide
  have hlen : ¬ v.encode.length < 8 := by simp [Value.encode]; omega
  have hcou : word v.encode 0 = bytesBe 2 v.groups.length := by
    simpa [Value.encode] using @word_eq [] (bytesBe 2 v.groups.length) _ 0 rfl (by simp)
  have hwe : word v.encode 2 = signedBytesBe 2 v.weight := by
    simpa [Value.encode] using @word_eq (bytesBe 2 v.groups.length) (signedBytesBe 2 v.weight) _ 2 (by simp) (by simp)
  have hsig : word v.encode 4 = bytesBe 2 v.sign := by
    simpa [Value.encode,Value.sign] using @word_eq (bytesBe 2 v.groups.length ++ signedBytesBe 2 v.weight)
      (bytesBe 2 v.sign) _ 4 (by simp) (by simp)
  have hsca : word v.encode 6 = bytesBe 2 v.dscale := by
    simpa [Value.encode,Value.sign] using @word_eq (bytesBe 2 v.groups.length ++ signedBytesBe 2 v.weight ++
      bytesBe 2 v.sign) (bytesBe 2 v.dscale) _ 6 (by simp) (by simp)
  have hre : v.encode.drop 8 = v.groups.flatMap (bytesBe 2) := by
    rw [Value.encode,drop_left' (by simp)]
  have hcoun : ofSignedBytesBe (bytesBe 2 v.groups.length) =
      if v.groups.length < 2 ^ 15 then (v.groups.length : Int) else v.groups.length - 2 ^ 16 := by
    rw [ofSignedBytesBe,ofBytesBe_bytesBe,length_bytesBe,Nat.mod_eq_of_lt (by omega)]
    split <;> split <;> omega
  have hwei : ofSignedBytesBe (signedBytesBe 2 v.weight) = v.weight :=
    ofSignedBytesBe_signedBytesBe (by omega) (by omega)
  have hch : ∀ d ∈ v.groups, checkGroup d = .ok () := fun d hd => if_neg (by have := hra d hd; omega)
  have hpl := @readGroups_bytes .truncatedGroups (fun _ => .ok ()) _ hra fun _ _ => rfl
  have hche := @readGroups_bytes (.missing "NUMERIC digit group") checkGroup _ hra hch
  have hwo : ∀ n < 2 ^ 16, ofBytesBe (bytesBe 2 n) = n := fun n hn => by
    rw [ofBytesBe_bytesBe,Nat.mod_eq_of_lt (by omega)]
  constructor
  · simp only [decodePgNumeric,hlen,hsig,hcou,hwe,hsca,hre,hwei,
      hwo _ hsi.1,hsi.2,hwo _ hsc,hwo v.groups.length (by omega),hpl,if_false]
    split <;> split <;> first | rfl | omega
  · have hle : ¬ v.encode.length < 2 ∧ ¬ v.encode.length < 4 ∧ ¬ v.encode.length < 6 := by omega
    simp only [decodeBinaryNumeric,hle,hsig,hcou,hwe,hsca,hre,hwei,hwo _ hsi.1,hsi.2,hwo _ hsc,hcoun]
    by_cases hma : v.groups.length < 2 ^ 15
    · have hno : ¬ (v.groups.length : Int) < 0 := by omega
      simp only [hma,if_true,Int.toNat_natCast,hche]
      rfl
    · have hno : (v.groups.length : Int) - 2 ^ 16 < 0 := by omega
      simp only [hma,if_false,hno]
      rfl

end Fields

theorem padded_spec (hd : d ≤ 9999) : (padded d).length = 4 ∧ (∀ c ∈ padded d, c.isDigit) ∧
      ∀ init, Nat.ofDigitChars 10 (padded d) init = init * 10000 + d := by
  have hlen : (Nat.toDigits 10 d).length ≤ 4 := (Nat.length_toDigits_le_iff (by decide) (by decide)).mpr (by omega)
  refine ⟨by simp [padded]; omega,?_,?_⟩
  · intro c hc
    rw [padded,List.leftpad,mem_append] at hc
    rcases hc with hc | hc
    · rw [(mem_replicate.mp hc).2]
      decide
    · exact Nat.isDigit_of_mem_toDigits (by decide) (by decide) hc
  · intro init
    rw [Nat.ofDigitChars_eq_ofDigitChars_zero,padded,List.leftpad,Nat.ofDigitChars_append,
      Nat.ofDigitChars_replicate_zero,Nat.mul_zero,Nat.ofDigitChars_toDigits (by decide) (by decide)]
    rw [length_append,length_replicate,Nat.sub_add_cancel hlen]
    omega

theorem ofDigitChars_lt {l : List Char} (h : ∀ c ∈ l, c.isDigit) : Nat.ofDigitChars 10 l 0 < 10 ^ l.length := by
  induction l with
  | nil => decide
  | cons c l ih =>
    obtain ⟨hc,hl⟩ := forall_mem_cons.mp h
    have hre := ih hl
    have hdi : c.toNat - '0'.toNat ≤ 9 := by
      simp only [Char.isDigit,Bool.and_eq_true,decide_eq_true_eq] at hc
      have hhi : c.toNat ≤ 57 := hc.2
      have hze : '0'.toNat = 48 := rfl
      omega
    have hhe := Nat.mul_le_mul_left (10 ^ l.length) hdi
    rw [Nat.ofDigitChars_cons,Nat.ofDigitChars_eq_ofDigitChars_zero,length_cons,Nat.zero_add]
    omega

/-- Leading digits of a group, where the others are zeros. -/
theorem take_padded (hd : d ≤ 9999) (hdvd : 10 ^ (4 - t) ∣ d) (init : Nat) :
    Nat.ofDigitChars 10 ((padded d).take t) init * 10 ^ (4 - t) = init * 10000 + d := by
  obtain ⟨hlen,hdi,hval⟩ := padded_spec hd
  have hsp := hval init
  rw [← take_append_drop t (padded d),Nat.ofDigitChars_append,Nat.ofDigitChars_eq_ofDigitChars_zero,
    length_drop,hlen] at hsp
  have hlt := @ofDigitChars_lt ((padded d).drop t) fun c hc => hdi c (mem_of_mem_drop hc)
  rw [length_drop,hlen] at hlt
  have hba : 10 ^ (4 - t) ∣ init * 10000 + d :=
    Nat.dvd_add (Nat.dvd_mul_left_of_dvd (Nat.pow_dvd_pow 10 (Nat.sub_le 4 t)) init) hdvd
  rw [← hsp,Nat.dvd_add_right (Nat.dvd_mul_right _ _)] at hba
  have hze := Nat.eq_zero_of_dvd_of_lt hba hlt
  rw [hze,Nat.add_zero] at hsp
  rw [← hsp,Nat.mul_comm]

variable {groups : List Nat}

theorem parts_shift (w k : Int) : parts groups (w + k) = (parts groups w).map (· * 10000 ^ k) := by
  induction groups generalizing w with
  | nil => rfl
  | cons d groups ih =>
    rw [parts,parts,map_cons,← ih (w - 1),zpow_add₀ (by norm_num)]
    ring_nf

theorem sum_parts_shift : (parts groups (w + k)).sum = (parts groups w).sum * 10000 ^ k := by
  rw [parts_shift,sum_map_mul_right,map_id']

section

variable (hra : ∀ d ∈ groups, d ≤ 9999)
include hra

theorem wholeGroups_value (n : Nat) (init : Nat) :
    (Nat.ofDigitChars 10 (wholeGroups n groups) init : ℚ) =
      init * 10000 ^ n + (parts groups (n - 1)).sum - (parts (groups.drop n) (-1)).sum := by
  induction n generalizing groups init with
  | zero => simp [wholeGroups]
  | succ n ih =>
    cases groups with
    | nil =>
      have hpad := (padded_spec (d := 0) (by decide)).2.2 init
      simp only [wholeGroups,Nat.ofDigitChars_append,headD_nil,hpad,tail_nil,ih hra]
      simp [parts]
      ring
    | cons d groups =>
      obtain ⟨hd,hra⟩ := forall_mem_cons.mp hra
      have hpad := (padded_spec hd).2.2 init
      simp only [wholeGroups,Nat.ofDigitChars_append,headD_cons,hpad,tail_cons,ih hra]
      simp [parts]
      ring

theorem headD_le : groups.headD 0 ≤ 9999 := by
  cases groups with
  | nil => decide
  | cons d groups => exact hra d mem_cons_self

theorem integerPart_value : (Nat.ofDigitChars 10 (integerPart g groups) 0 : ℚ) =
      (parts groups (g - 1)).sum - (parts (groups.drop g) (-1)).sum := by
  have hwh := wholeGroups_value hra g 0
  rw [Nat.cast_zero,zero_mul,zero_add] at hwh
  rw [← hwh]
  cases g with
  | zero => rfl
  | succ n =>
    have hhe := headD_le hra
    rw [integerPart,wholeGroups,Nat.ofDigitChars_append,Nat.ofDigitChars_append,(padded_spec hhe).2.2 0,
      Nat.ofDigitChars_toDigits (by decide) (by decide),Nat.zero_add]

theorem sum_parts_beyond {w : Int} {r : Nat} (hw : (10000 : ℚ) ^ w * 10 ^ r ≤ 1 / 10000)
    (hfits : ∀ q ∈ parts groups w, ∃ k : ℤ, q * 10 ^ r = k) :
    (parts groups w).sum = 0 := by
  induction groups generalizing w with
  | nil => rfl
  | cons d groups ih =>
    obtain ⟨hd,hra⟩ := forall_mem_cons.mp hra
    obtain ⟨⟨k,hk⟩,hfits⟩ := forall_mem_cons.mp hfits
    have hnext : (10000 : ℚ) ^ (w - 1) * 10 ^ r ≤ 1 / 10000 := by
      rw [zpow_sub_one₀ (by norm_num)]
      linarith
    have hd' : (d : ℚ) ≤ 9999 := by exact_mod_cast hd
    have hsm : (k : ℚ) < 1 := by
      nlinarith
    have hno : (0 : ℚ) ≤ k := by
      rw [← hk]
      positivity
    have hze : k = 0 := by
      have h1 : k < 1 := by exact_mod_cast hsm
      have h2 : 0 ≤ k := by exact_mod_cast hno
      omega
    have hhe : (d : ℚ) * 10000 ^ w = 0 := by
      rw [hze] at hk
      exact (mul_eq_zero.mp hk).resolve_right (by positivity)
    rw [parts,sum_cons,hhe,ih hra hnext hfits,add_zero]

theorem fractionGroups_value (hle : r ≤ 4 * n) (hlt : 4 * n < r + 4)
    (hfits : ∀ q ∈ parts groups (-1), ∃ k : ℤ, q * 10 ^ r = k) :
    (Nat.ofDigitChars 10 (fractionGroups n groups r) init : ℚ) = (init + (parts groups (-1)).sum) * 10 ^ r := by
  induction n generalizing groups r init with
  | zero =>
    obtain rfl : r = 0 := by omega
    rw [sum_parts_beyond hra (by norm_num) hfits]
    simp [fractionGroups]
  | succ n ih =>
    -- a group that is missing is a zero
    obtain ⟨d,ds,hhe,hta,hsum,hd,hds,hdf,hdsf⟩ : ∃ d ds, groups.headD 0 = d ∧ groups.tail = ds ∧
        (parts groups (-1)).sum = d * 10000 ^ (-1 : Int) + (parts ds (-1 + -1)).sum ∧ d ≤ 9999 ∧
        (∀ d ∈ ds, d ≤ 9999) ∧ (∃ k : ℤ, (d : ℚ) * 10000 ^ (-1 : Int) * 10 ^ r = k) ∧
        ∀ q ∈ parts ds (-1 + -1), ∃ k : ℤ, q * 10 ^ r = k := by
      cases groups with
      | nil => exact ⟨0,[],rfl,rfl,by simp [parts],by decide,by simp,⟨0,by simp⟩,by simp [parts]⟩
      | cons d ds =>
        obtain ⟨hd,hds⟩ := forall_mem_cons.mp hra
        obtain ⟨hdf,hdsf⟩ := forall_mem_cons.mp hfits
        exact ⟨d,ds,rfl,rfl,by simp [parts],hd,hds,hdf,hdsf⟩
    rw [fractionGroups,hhe,hta,Nat.ofDigitChars_append,hsum]
    by_cases hr : 4 ≤ r
    · have hten : (10 : ℚ) ^ r = 10 ^ (r - 4) * 10000 := by
        rw [← Nat.sub_add_cancel hr,pow_add]
        norm_num
      have hfits' : ∀ q ∈ parts ds (-1), ∃ k : ℤ, q * 10 ^ (r - 4) = k := by
        intro q hq
        rw [parts_shift] at hdsf
        obtain ⟨k,hk⟩ := hdsf _ (mem_map_of_mem hq)
        exact ⟨k,by rw [← hk,hten]; norm_num; ring⟩
      have htak : (padded d).take (min r 4) = padded d :=
        take_of_length_le (by rw [(padded_spec hd).1]; omega)
      rw [htak,(padded_spec hd).2.2,ih hds (by omega) (by omega) hfits',sum_parts_shift,hten]
      norm_num
      ring
    · obtain rfl : n = 0 := by omega
      have hten : (10 : ℚ) ^ r * 10 ^ (4 - r) = 10000 := by
        rw [← pow_add,show r + (4 - r) = 4 by omega]
        norm_num
      have hdvd : 10 ^ (4 - r) ∣ d := by
        obtain ⟨k,hk⟩ := hdf
        have hd10 : (d : ℚ) = k * 10 ^ (4 - r) := by
          rw [← hk,mul_assoc,hten]
          ring
        have hint : (d : ℤ) = k * (10 ^ (4 - r) : Nat) := by exact_mod_cast hd10
        exact Int.natCast_dvd_natCast.mp ⟨k,by rw [hint,mul_comm]⟩
      have htak := take_padded hd hdvd init
      have hsm : (10 : ℚ) ^ r ≤ 10 ^ 4 := pow_le_pow_right₀ (by norm_num) (by omega)
      have hbe := @sum_parts_beyond ds hds (-1 + -1) r (by norm_num; linarith) hdsf
      have hrat : (Nat.ofDigitChars 10 ((padded d).take r) init : ℚ) * 10 ^ (4 - r) = init * 10000 + d := by
        exact_mod_cast htak
      rw [fractionGroups,hbe,show min r 4 = r by omega]
      have hpos : (10 : ℚ) ^ (4 - r) ≠ 0 := by positivity
      refine mul_right_cancel₀ hpos ?_
      rw [mul_assoc _ (10 ^ r),hten]
      norm_num
      linarith

theorem fractionGroups_digits (hle : r ≤ 4 * n) (hlt : 4 * n < r + 4) :
    (fractionGroups n groups r).length = r ∧ ∀ c ∈ fractionGroups n groups r, c.isDigit := by
  induction n generalizing groups r with
  | zero => exact ⟨by simp [fractionGroups]; omega,by simp [fractionGroups]⟩
  | succ n ih =>
    have hhe := headD_le hra
    obtain ⟨hlen,hdi⟩ := ih (r := r - 4) (fun d hd => hra d (mem_of_mem_tail hd)) (by omega) (by omega)
    obtain ⟨hpad,hch,-⟩ := padded_spec hhe
    refine ⟨?_,?_⟩
    · rw [fractionGroups,length_append,length_take]
      omega
    · rw [fractionGroups,forall_mem_append]
      exact ⟨fun c hc => hch c (mem_of_mem_take hc),hdi⟩

theorem integerPart_digits :
    integerPart g groups ≠ [] ∧ ∀ c ∈ integerPart g groups, c.isDigit := by
  have hwh : ∀ n groups, (∀ d ∈ groups, d ≤ 9999) → ∀ c ∈ wholeGroups n groups, c.isDigit := by
    intro n
    induction n with
    | zero => simp [wholeGroups]
    | succ n ih =>
      intro groups hra
      rw [wholeGroups,forall_mem_append]
      exact ⟨(padded_spec (headD_le hra)).2.1,ih _ fun d hd => hra d (mem_of_mem_tail hd)⟩
  cases g with
  | zero => simp [integerPart]
  | succ n =>
    refine ⟨by simp [integerPart],?_⟩
    rw [integerPart,forall_mem_append]
    exact ⟨fun c hc => Nat.isDigit_of_mem_toDigits (by decide) (by decide) hc,
      hwh n _ fun d hd => hra d (mem_of_mem_tail hd)⟩

end

theorem readUnsigned_digits {whole fraction : Text} (hne : whole ≠ []) (hwh : ∀ c ∈ whole, c.isDigit)
    (hfr : ∀ c ∈ fraction, c.isDigit) :
    readUnsigned (whole ++ if fraction = [] then [] else '.' :: fraction) =
      some ((Nat.ofDigitChars 10 (whole ++ fraction) 0 : ℚ) / 10 ^ fraction.length,fraction.length) := by
  have hpo : ∀ {t : Text}, (∀ c ∈ t, c.isDigit) → '.' ∉ t := fun ht hmem => absurd (ht _ hmem) (by decide)
  have hall : ∀ {t : Text}, (∀ c ∈ t, c.isDigit) → t.all Char.isDigit := fun ht => all_eq_true.mpr ht
  by_cases hf : fraction = []
  · have hsp := @splitOn_intercalate _ [whole] _ _ '.' (by simpa using hpo hwh) (by simp)
    rw [intercalate_singleton] at hsp
    subst hf
    rw [if_pos rfl,append_nil,readUnsigned,hsp]
    simp [hne,hall hwh]
  · have hsp := @splitOn_intercalate _ [whole,fraction] _ _ '.' (by simpa using ⟨hpo hwh,hpo hfr⟩) (by simp)
    rw [intercalate_cons_cons,intercalate_singleton,append_assoc] at hsp
    rw [if_neg hf,readUnsigned,show '.' :: fraction = ['.'] ++ fraction from rfl,hsp]
    exact if_pos ⟨hne,hf,hall (forall_mem_append.mpr ⟨hwh,hfr⟩)⟩

theorem readDecimal_render {v : Value} (hra : ∀ d ∈ v.groups, d ≤ 9999)
    (hfits : ∀ q ∈ parts (v.groups.drop (v.weight + 1).toNat) (-1), ∃ k : ℤ, q * 10 ^ v.dscale = k) :
    readDecimal (render (v.weight + 1).toNat v.sign v.dscale v.groups) =
      some ({ v with weight := (v.weight + 1).toNat - 1 }.number,v.dscale) := by
  generalize (v.weight + 1).toNat = g at *
  have hdr : ∀ d ∈ v.groups.drop g, d ≤ 9999 := fun d hd => hra d (mem_of_mem_drop hd)
  have hle : v.dscale ≤ 4 * ((v.dscale + 3) / 4) := by omega
  have hlt : 4 * ((v.dscale + 3) / 4) < v.dscale + 4 := by omega
  obtain ⟨hne,hwh⟩ := integerPart_digits hra
  obtain ⟨hlen,hfr⟩ := fractionGroups_digits hdr hle hlt
  have hva : (Nat.ofDigitChars 10 (integerPart g v.groups ++
      fractionGroups ((v.dscale + 3) / 4) (v.groups.drop g) v.dscale) 0 : ℚ) / 10 ^ v.dscale =
      (parts v.groups (g - 1)).sum := by
    rw [Nat.ofDigitChars_append,fractionGroups_value hdr hle hlt hfits,integerPart_value hra,
      sub_add_cancel,mul_div_cancel_right₀ _ (by positivity)]
  have hre := readUnsigned_digits hne hwh hfr
  rw [hlen,hva] at hre
  have hpl : ∀ text, readDecimal (integerPart g v.groups ++ text) = readUnsigned (integerPart g v.groups ++ text) := by
    intro text
    obtain ⟨c,rest,hco⟩ := exists_cons_of_ne_nil hne
    have hc : c ≠ '-' := fun he => absurd (hwh c (hco ▸ mem_cons_self)) (by rw [he]; decide)
    rw [hco,readDecimal]
    simpa using hc
  have hsi : v.sign = signNeg ↔ v.negative := by
    unfold Value.sign
    cases v.negative <;> decide
  simp only [render,hsi,Value.number]
  cases v.negative with
  | true => simpa [readDecimal] using hre
  | false => simpa [hpl] using hre

theorem sum_parts_eq_zero : (parts groups w).sum = 0 ↔ ∀ d ∈ groups, d = 0 := by
  have hno : ∀ groups w, 0 ≤ (parts groups w).sum := by
    intro groups
    induction groups with
    | nil => exact fun _ => le_refl 0
    | cons d groups ih => exact fun w => add_nonneg (by positivity) (ih (w - 1))
  induction groups generalizing w with
  | nil => simp [parts]
  | cons d groups ih =>
    have hpow : (10000 : ℚ) ^ w ≠ 0 := by positivity
    rw [parts,sum_cons,add_eq_zero_iff_of_nonneg (by positivity) (hno _ _),forall_mem_cons,
      mul_eq_zero,or_iff_left hpow,Nat.cast_eq_zero]
    exact and_congr_right fun _ => ih

theorem mem_parts_drop (h : q ∈ parts (groups.drop g) (w - g)) : q ∈ parts groups w := by
  induction g generalizing groups w with
  | zero => simpa using h
  | succ g ih =>
    cases groups with
    | nil => exact h
    | cons d groups =>
      have hw : w - (g + 1 : Nat) = w - 1 - g := by omega
      rw [hw] at h
      exact mem_cons_of_mem _ (ih h)

/-- The groups after the point are written from the first one on, also where zeros should stand before it; the
number of groups before the point overflows for the largest weight; and one decoder reads the count as signed. -/
theorem numeric_exact_iff {v : Value} (hv : v.WellFormed) :
    (∃ text, decodePgNumeric v.encode = .ok text ∧ decodeBinaryNumeric v.encode = .ok text ∧
        readDecimal text = some (v.number, v.dscale)) ↔
      v.groups.length < 2 ^ 15 ∧ v.weight ≠ 2 ^ 15 - 1 ∧ (-1 ≤ v.weight ∨ ∀ d ∈ v.groups, d = 0) := by
  obtain ⟨hpg,hbi⟩ := decode_encode hv
  by_cases hco : v.groups.length < 2 ^ 15
  swap
  · rw [if_neg hco] at hbi
    exact iff_of_false (by simp [hbi]) fun h => hco h.1
  rw [if_pos hco] at hbi
  by_cases hmax : v.weight = 2 ^ 15 - 1
  · simp [hpg,hmax]
  rw [if_neg hmax] at hpg
  simp only [hpg,hbi,Except.ok.injEq,exists_eq_left',ne_eq,hmax,hco]
  by_cases hw : -1 ≤ v.weight
  · have hg : ((v.weight + 1).toNat : Int) - 1 = v.weight := by omega
    have hfits : ∀ q ∈ parts (v.groups.drop (v.weight + 1).toNat) (-1), ∃ k : ℤ, q * 10 ^ v.dscale = k := by
      intro q hq
      exact hv.fits q (mem_parts_drop (g := (v.weight + 1).toNat)
        (by rwa [show v.weight - (v.weight + 1).toNat = -1 by omega]))
    rw [readDecimal_render hv.range hfits,hg]
    simp [hw]
  · -- zeros are missing before the first group: what is written is larger by this power
    obtain ⟨n,hn⟩ : ∃ n : Nat, v.weight + 1 = -((n + 1 : Nat) : Int) := ⟨(-v.weight - 2).toNat,by omega⟩
    have hg : (v.weight + 1).toNat = 0 := by omega
    have hwe : v.weight = -1 + -((n + 1 : Nat) : Int) := by omega
    have hfits : ∀ q ∈ parts (v.groups.drop (v.weight + 1).toNat) (-1), ∃ k : ℤ, q * 10 ^ v.dscale = k := by
      intro q hq
      rw [hg] at hq
      have hmem := mem_map_of_mem (f := (· * (10000 : ℚ) ^ (-((n + 1 : Nat) : Int)))) hq
      rw [← parts_shift,← hwe] at hmem
      obtain ⟨k,hk⟩ := hv.fits _ hmem
      refine ⟨k * 10000 ^ (n + 1),?_⟩
      rw [Int.cast_mul,← hk,zpow_neg,zpow_natCast]
      push_cast
      field_simp
    have hsum : (parts v.groups v.weight).sum = (parts v.groups (-1)).sum * (10000 ^ (n + 1))⁻¹ := by
      rw [hwe,sum_parts_shift,zpow_neg,zpow_natCast]
    have hone : ((10000 : ℚ) ^ (n + 1))⁻¹ ≠ 1 := by
      rw [ne_eq,inv_eq_one]
      exact (one_lt_pow₀ (by norm_num) (by omega)).ne'
    have hsa : ∀ q : ℚ, q = q * (10000 ^ (n + 1))⁻¹ ↔ q = 0 := fun q => by
      rw [eq_comm,mul_right_eq_self₀,or_iff_right hone]
    rw [readDecimal_render hv.range hfits,hg,or_iff_right hw,← sum_parts_eq_zero (w := -1),← hsa,← hsum]
    simp only [Value.number]
    cases v.negative <;> simp

theorem numeric_exact_cents : ∃ text, decodePgNumeric (Value.encode ⟨[1, 2345, 6700], 1, true, 2⟩) = .ok text ∧
      decodeBinaryNumeric (Value.encode ⟨[1, 2345, 6700], 1, true, 2⟩) = .ok text ∧
      readDecimal text = some (Value.number ⟨[1, 2345, 6700], 1, true, 2⟩, 2) :=
  (numeric_exact_iff ⟨by decide,by decide,by decide,by decide,by decide,by
    simp only [parts,forall_mem_cons]
    exact ⟨⟨1000000,by norm_num⟩,⟨234500,by norm_num⟩,⟨67,by norm_num⟩,by simp⟩⟩).mpr (by decide)

/-- One millionth is read as one hundredth. -/
theorem millionth_garbled : decodePgNumeric (Value.encode ⟨[100], -2, false, 6⟩) = .ok "0.010000".toList ∧
      decodeBinaryNumeric (Value.encode ⟨[100], -2, false, 6⟩) = .ok "0.010000".toList ∧
      Value.number ⟨[100], -2, false, 6⟩ = 1 / 1000000 := by
  refine ⟨by decide +kernel,by decide +kernel,?_⟩
  norm_num [Value.number,parts]

end OxiSql.Postgres.Numeric
