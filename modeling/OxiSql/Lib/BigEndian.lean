import Mathlib

namespace OxiSql.Lib
open List UInt8

/-- The `k` lowest digits of `n` to base `b`. -/
def digitsBe (b : Nat) : Nat → Nat → List Nat
  | 0, _ => []
  | k + 1, n => digitsBe b k (n / b) ++ [n % b]

def ofDigitsBe (b v : Nat) (digits : List Nat) : Nat :=
  digits.foldl (fun v d => v * b + d) v

@[simp] theorem length_digitsBe : (digitsBe b k n).length = k := by
  induction k generalizing n with
  | zero => rfl
  | succ k ih => simp [digitsBe,ih]

theorem digit_lt (hb : 0 < b) (h : d ∈ digitsBe b k n) : d < b := by
  induction k generalizing n with
  | zero => cases h
  | succ k ih =>
    rcases mem_append.mp h with h | h
    · exact ih h
    · rw [mem_singleton.mp h]
      exact Nat.mod_lt _ hb

theorem ofDigitsBe_append : ofDigitsBe b v (ds ++ es) = ofDigitsBe b (ofDigitsBe b v ds) es :=
  foldl_append ..

theorem ofDigitsBe_digitsBe : ofDigitsBe b v (digitsBe b k n) = v * b ^ k + n % b ^ k := by
  induction k generalizing n with
  | zero => simp [digitsBe,ofDigitsBe,Nat.mod_one]
  | succ k ih =>
    have hmod : n % b ^ (k + 1) = n % b + b * (n / b % b ^ k) := by
      rw [Nat.pow_succ',Nat.mod_mul]
    rw [digitsBe,ofDigitsBe_append,ih,hmod]
    simp only [ofDigitsBe,foldl_cons,foldl_nil]
    ring

theorem digitsBe_mod : digitsBe b k (n % b ^ k) = digitsBe b k n := by
  induction k generalizing n with
  | zero => rfl
  | succ k ih =>
    rw [digitsBe,digitsBe,Nat.pow_succ',Nat.mod_mul_right_div_self,ih,Nat.mod_mul_right_mod]

theorem digitsBe_split : digitsBe b (j + k) n = digitsBe b j (n / b ^ k) ++ digitsBe b k n := by
  induction k generalizing n with
  | zero => simp [digitsBe]
  | succ k ih =>
    rw [← Nat.add_assoc,digitsBe,ih,digitsBe,Nat.div_div_eq_div_mul,← Nat.pow_succ',append_assoc]

def bytesBe (k n : Nat) : List UInt8 :=
  (digitsBe 256 k n).map UInt8.ofNat

def ofBytesBe (bytes : List UInt8) : Nat :=
  ofDigitsBe 256 0 (bytes.map UInt8.toNat)

@[simp] theorem length_bytesBe (k n : Nat) : (bytesBe k n).length = k := by
  simp [bytesBe]

theorem map_toNat_ofNat {ds : List Nat} (h : ∀ d ∈ ds, d < 256) :
    (ds.map ofNat).map toNat = ds := by
  rw [map_map,map_congr_left,map_id]
  intro d hd
  simpa using Nat.mod_eq_of_lt (h d hd)

theorem ofBytesBe_bytesBe : ofBytesBe (bytesBe k n) = n % 256 ^ k := by
  have hds : ((digitsBe 256 k n).map ofNat).map toNat = digitsBe 256 k n :=
    map_toNat_ofNat fun d hd => digit_lt (by decide) hd
  rw [ofBytesBe,bytesBe,hds,ofDigitsBe_digitsBe,Nat.zero_mul,Nat.zero_add]

theorem bytesBe_mod : bytesBe k (n % 256 ^ k) = bytesBe k n := by
  rw [bytesBe,digitsBe_mod,bytesBe]

/-- Leaving out the first `j` bytes of a wider number. -/
theorem drop_bytesBe : (bytesBe (j + k) n).drop j = bytesBe k n := by
  rw [bytesBe,digitsBe_split,map_append,drop_left' (by simp)]
  rfl

theorem ofBytesBe_cons (b : UInt8) (bytes : List UInt8) :
    ofBytesBe (b :: bytes) = b.toNat * 256 ^ bytes.length + ofBytesBe bytes := by
  have hfo : ∀ (ds : List Nat) (v : Nat), ofDigitsBe 256 v ds = v * 256 ^ ds.length + ofDigitsBe 256 0 ds := by
    intro ds
    induction ds with
    | nil => simp [ofDigitsBe]
    | cons d ds ih =>
      intro v
      have hv := ih (v * 256 + d)
      have h0 := ih (0 * 256 + d)
      simp only [ofDigitsBe,foldl_cons,length_cons] at hv h0 ⊢
      rw [hv,h0]
      ring
  have hb := hfo (bytes.map toNat) b.toNat
  simpa [ofDigitsBe,ofBytesBe] using hb

theorem ofBytesBe_lt (bytes : List UInt8) : ofBytesBe bytes < 256 ^ bytes.length := by
  induction bytes with
  | nil => simp [ofBytesBe,ofDigitsBe]
  | cons b bytes ih =>
    have hb : b.toNat < 256 := b.toNat_lt
    rw [ofBytesBe_cons,length_cons,Nat.pow_succ']
    calc b.toNat * 256 ^ bytes.length + ofBytesBe bytes
        < b.toNat * 256 ^ bytes.length + 256 ^ bytes.length := by omega
      _ = (b.toNat + 1) * 256 ^ bytes.length := by ring
      _ ≤ 256 * 256 ^ bytes.length := Nat.mul_le_mul_right _ (by omega)

def signedBytesBe (k : Nat) (i : Int) : List UInt8 :=
  bytesBe k (i % (256 ^ k : Nat)).toNat

def ofSignedBytesBe (bytes : List UInt8) : Int :=
  if 2 * ofBytesBe bytes < 256 ^ bytes.length then ofBytesBe bytes
  else (ofBytesBe bytes : Int) - (256 ^ bytes.length : Nat)

@[simp] theorem length_signedBytesBe : (signedBytesBe k i).length = k := by
  simp [signedBytesBe]

theorem ofBytesBe_signedBytesBe (k : Nat) (i : Int) :
    (ofBytesBe (signedBytesBe k i) : Int) = i % (256 ^ k : Nat) := by
  have hpos : 0 < 256 ^ k := Nat.pow_pos (by decide)
  have hnn : 0 ≤ i % (256 ^ k : Nat) := Int.emod_nonneg _ (by omega)
  rw [signedBytesBe,ofBytesBe_bytesBe,Nat.mod_eq_of_lt (by omega),Int.toNat_of_nonneg hnn]

theorem ofSignedBytesBe_signedBytesBe {i : Int} (hlo : -(256 ^ k : Nat) ≤ 2 * i)
    (hhi : 2 * i < (256 ^ k : Nat)) : ofSignedBytesBe (signedBytesBe k i) = i := by
  have hval := ofBytesBe_signedBytesBe k i
  generalize hw : 256 ^ k = w at *
  have hmod : i % (w : Int) = if 0 ≤ i then i else i + w := by
    split
    · exact Int.emod_eq_of_lt (by omega) (by omega)
    · rw [← Int.add_emod_right,Int.emod_eq_of_lt (by omega) (by omega)]
  rw [ofSignedBytesBe,length_signedBytesBe]
  split at hmod <;> split <;> omega

theorem drop_signedBytesBe (j k : Nat) : (signedBytesBe (j + k) i).drop j = signedBytesBe k i := by
  have hjk : 0 < 256 ^ (j + k) := Nat.pow_pos (by decide)
  have hdvd : ((256 ^ k : Nat) : Int) ∣ (256 ^ (j + k) : Nat) :=
    Int.natCast_dvd_natCast.mpr (Nat.pow_dvd_pow 256 (Nat.le_add_left k j))
  have hmod : (i % (256 ^ (j + k) : Nat)).toNat % 256 ^ k = (i % (256 ^ k : Nat)).toNat := by
    apply Int.ofNat.inj
    have hnn : 0 ≤ i % (256 ^ (j + k) : Nat) := Int.emod_nonneg _ (by omega)
    have hnn' : 0 ≤ i % (256 ^ k : Nat) := Int.emod_nonneg _ (by omega)
    simp only [Int.ofNat_eq_natCast,Int.natCast_emod,Int.toNat_of_nonneg hnn,Int.toNat_of_nonneg hnn']
    exact Int.emod_emod_of_dvd i hdvd
  rw [signedBytesBe,drop_bytesBe,← bytesBe_mod,hmod,signedBytesBe]

theorem ofSignedBytesBe_sign (b : UInt8) (bytes : List UInt8) :
    ofSignedBytesBe ((if b.toNat ≤ 127 then 0 else 255) :: b :: bytes) = ofSignedBytesBe (b :: bytes) := by
  have hlt := ofBytesBe_lt bytes
  have hco := ofBytesBe_cons b bytes
  generalize hw : 256 ^ bytes.length = w at *
  have hw1 : 256 ^ (bytes.length + 1) = 256 * w := by rw [Nat.pow_succ',hw]
  have hw2 : 256 ^ (bytes.length + 1 + 1) = 256 * (256 * w) := by rw [Nat.pow_succ',hw1]
  simp only [ofSignedBytesBe,length_cons,ofBytesBe_cons _ (b :: bytes),hw1,hw2]
  by_cases h127 : b.toNat ≤ 127
  · have hle : b.toNat * w ≤ 127 * w := Nat.mul_le_mul_right _ h127
    simp only [if_pos h127,UInt8.toNat_zero,Nat.zero_mul,Nat.zero_add]
    rw [if_pos (by omega),if_pos (by omega)]
  · have hge : 128 * w ≤ b.toNat * w := Nat.mul_le_mul_right _ (by omega)
    have h255 : (255 : UInt8).toNat = 255 := rfl
    simp only [if_neg h127,h255]
    rw [if_neg (by omega),if_neg (by omega)]
    push_cast
    ring

end OxiSql.Lib
