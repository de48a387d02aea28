import OxiSql.Lib.BigEndian
import OxiSql.Ondisk.Bytes

namespace OxiSql.Ondisk
open Lib List UInt8

def invalidVarint : Fault :=
  .corrupt "Invalid varint"

/-- The loop of `read_varint`, with `left` of its eight turns to go. -/
def readVarintFrom : Nat → Nat → Nat → List UInt8 → Except Fault (Nat × Nat)
  | _, _, _, [] => .error invalidVarint
  | 0, v, i, c :: _ => .ok (v * 256 + c.toNat, i + 1)
  | left + 1, v, i, c :: buf =>
    if c.toNat < 128 then .ok (v * 128 + c.toNat % 128, i + 1)
    else readVarintFrom left (v * 128 + c.toNat % 128) (i + 1) buf

/-- A value of 64 bits, and how many bytes it takes. -/
def readVarint (buf : List UInt8) : Except Fault (Nat × Nat) :=
  readVarintFrom 8 0 0 buf

def flagged (group : Nat) : UInt8 :=
  UInt8.ofNat (group + 128)

/-- `encoded`, before the flag of its first byte is taken off: the lowest group first. -/
def lowGroups : Nat → Nat → List UInt8
  | 0, _ => []
  | fuel + 1, bytes => if bytes = 0 then [] else flagged (bytes % 128) :: lowGroups fuel (bytes / 128)

def writeVarint (value : Nat) : List UInt8 :=
  if value ≤ 0x7f then [UInt8.ofNat value]
  else if value ≤ 0x3fff then [flagged (value / 128 % 128), UInt8.ofNat (value % 128)]
  else if 0 < value / 2 ^ 56 then
    (digitsBe 128 8 (value / 256)).map flagged ++ [UInt8.ofNat value]
  else
    match lowGroups 10 value with
    | [] => []
    | e :: es => es.reverse ++ [UInt8.ofNat (e.toNat % 128)]

theorem toNat_flagged (h : group < 128) : (flagged group).toNat = group + 128 := by
  simp only [flagged,toNat_ofNat']
  omega

theorem readVarintFrom_flagged (left v i : Nat) (hds : ∀ d ∈ ds, d < 128) (buf : List UInt8) :
    readVarintFrom (ds.length + left) v i (ds.map flagged ++ buf) =
      readVarintFrom left (ofDigitsBe 128 v ds) (i + ds.length) buf := by
  induction ds generalizing v i with
  | nil => simp [ofDigitsBe]
  | cons d ds ih =>
    have hd : d < 128 := hds d (.head _)
    have hby := toNat_flagged hd
    have hlen : (d :: ds).length + left = (ds.length + left) + 1 := by
      rw [length_cons]
      omega
    have hva : v * 128 + (d + 128) % 128 = v * 128 + d := by omega
    rw [hlen,map_cons,cons_append,readVarintFrom,hby,if_neg (by omega),hva,
      ih _ _ fun e he => hds e (.tail _ he)]
    congr 1
    omega

theorem lowGroups_eq : lowGroups fuel n = ((digitsBe 128 (lowGroups fuel n).length n).map flagged).reverse := by
  induction fuel generalizing n with
  | zero => rfl
  | succ fuel ih =>
    by_cases hn : n = 0
    · simp [lowGroups,hn,digitsBe]
    · simp only [lowGroups,if_neg hn,length_cons,digitsBe,map_append,map_cons,
        map_nil,reverse_append,reverse_cons,reverse_nil,nil_append,
        cons_append]
      rw [← ih]

theorem length_lowGroups_le_iff (hj : j < fuel) : (lowGroups fuel n).length ≤ j ↔ n < 128 ^ j := by
  induction j generalizing fuel n with
  | zero =>
    obtain ⟨fuel,rfl⟩ := Nat.exists_eq_add_one_of_ne_zero (by omega : fuel ≠ 0)
    by_cases hn : n = 0
    · simp [lowGroups]
    · simp [lowGroups]
  | succ j ih =>
    obtain ⟨fuel,rfl⟩ := Nat.exists_eq_add_one_of_ne_zero (by omega : fuel ≠ 0)
    by_cases hn : n = 0
    · simp [lowGroups,hn]
    · simp only [lowGroups,if_neg hn,length_cons,Nat.add_le_add_iff_right]
      rw [ih (by omega),Nat.div_lt_iff_lt_mul (by decide),Nat.pow_succ]

theorem writeVarint_short (h : v < 2 ^ 56) : ∃ k ≤ 7, v / 128 < 128 ^ k ∧ (∀ j ≤ 7, k ≤ j ↔ v / 128 < 128 ^ j) ∧
      writeVarint v = (digitsBe 128 k (v / 128)).map flagged ++ [ofNat (v % 128)] := by
  have hk : ∀ j ≤ 7, (lowGroups 9 (v / 128)).length ≤ j ↔ v / 128 < 128 ^ j := fun j hj =>
    length_lowGroups_le_iff (by omega)
  have hk7 : (lowGroups 9 (v / 128)).length ≤ 7 := (hk 7 le_rfl).mpr (by omega)
  refine ⟨(lowGroups 9 (v / 128)).length,hk7,(hk _ hk7).mp le_rfl,hk,?_⟩
  by_cases h1 : v ≤ 0x7f
  · have hze : v / 128 = 0 := by omega
    have hmod : v % 128 = v := by omega
    simp [writeVarint,h1,hze,hmod,lowGroups,digitsBe]
  · by_cases h2 : v ≤ 0x3fff
    · have hne : v / 128 ≠ 0 := by omega
      have hnext : v / 128 / 128 = 0 := by omega
      simp [writeVarint,h1,h2,lowGroups,hne,hnext,digitsBe]
    · have hne : v ≠ 0 := by omega
      have hbig : ¬ 0 < v / 2 ^ 56 := by
        rw [Nat.div_eq_of_lt h]
        exact Nat.lt_irrefl 0
      have hlow : (flagged (v % 128)).toNat % 128 = v % 128 := by
        rw [toNat_flagged (Nat.mod_lt _ (by decide))]
        omega
      rw [writeVarint,if_neg h1,if_neg h2,if_neg hbig,lowGroups,if_neg hne]
      simp only [hlow]
      conv_lhs => rw [lowGroups_eq]
      rw [reverse_reverse]

theorem writeVarint_nine (h : 2 ^ 56 ≤ v) :
    writeVarint v = (digitsBe 128 8 (v / 256)).map flagged ++ [ofNat v] := by
  have hpos : 0 < v / 2 ^ 56 := Nat.div_pos h (by decide)
  rw [writeVarint,if_neg (by omega),if_neg (by omega),if_pos hpos]

theorem readVarint_writeVarint (hv : v < 2 ^ 64) (rest : List UInt8) :
    readVarint (writeVarint v ++ rest) = .ok (v,(writeVarint v).length) := by
  by_cases h : v < 2 ^ 56
  · obtain ⟨k,hk,hlt,-,hw⟩ := writeVarint_short h
    have hds : ∀ d ∈ digitsBe 128 k (v / 128), d < 128 := fun d hd => digit_lt (by decide) hd
    have hgr := readVarintFrom_flagged (8 - k) 0 0 hds ([ofNat (v % 128)] ++ rest)
    have hle : 8 - k = (7 - k) + 1 := by omega
    have hby : (ofNat (v % 128)).toNat = v % 128 := by
      simp only [toNat_ofNat']
      omega
    rw [length_digitsBe,Nat.add_sub_cancel' (by omega),ofDigitsBe_digitsBe,Nat.mod_eq_of_lt hlt,hle] at hgr
    rw [hw,readVarint,append_assoc,hgr]
    simp only [singleton_append,readVarintFrom,hby,length_append,length_map,length_digitsBe,length_singleton]
    rw [if_pos (by omega)]
    congr 2 <;> omega
  · rw [writeVarint_nine (by omega)]
    have hds : ∀ d ∈ digitsBe 128 8 (v / 256), d < 128 := fun d hd => digit_lt (by decide) hd
    have hgr := readVarintFrom_flagged 0 0 0 hds ([ofNat v] ++ rest)
    have hlt : v / 256 < 128 ^ 8 := by
      omega
    rw [length_digitsBe,ofDigitsBe_digitsBe] at hgr
    rw [readVarint,append_assoc,hgr]
    simp only [singleton_append,readVarintFrom,length_append,toNat_ofNat']
    congr 2
    omega

theorem length_writeVarint_le_iff (hj : 0 < j) (hj8 : j ≤ 8) : (writeVarint v).length ≤ j ↔ v < 128 ^ j := by
  have hmo : 128 ^ j ≤ 128 ^ 8 := Nat.pow_le_pow_right (by decide) hj8
  by_cases h : v < 2 ^ 56
  · obtain ⟨k,-,-,hk,hw⟩ := writeVarint_short h
    obtain ⟨i,rfl⟩ := Nat.exists_eq_add_one_of_ne_zero (Nat.ne_of_gt hj)
    rw [hw]
    simp only [length_append,length_map,length_digitsBe,length_singleton,Nat.add_le_add_iff_right]
    rw [hk i (by omega),Nat.div_lt_iff_lt_mul (by decide),Nat.pow_succ]
  · rw [writeVarint_nine (by omega)]
    simp only [length_append,length_map,length_digitsBe,length_singleton]
    omega

theorem length_writeVarint_pos (v : Nat) : 0 < (writeVarint v).length := by
  by_cases h : v < 2 ^ 56
  · obtain ⟨k,-,-,-,hw⟩ := writeVarint_short h
    simp [hw]
  · simp [writeVarint_nine (by omega : 2 ^ 56 ≤ v)]

theorem length_writeVarint_le (v : Nat) : (writeVarint v).length ≤ 9 := by
  by_cases h : v < 2 ^ 56
  · obtain ⟨k,hk,-,-,hw⟩ := writeVarint_short h
    rw [hw]
    simp only [length_append,length_map,length_digitsBe,length_singleton]
    omega
  · simp [writeVarint_nine (by omega : 2 ^ 56 ≤ v)]

theorem length_writeVarint_mono (h : v ≤ w) : (writeVarint v).length ≤ (writeVarint w).length := by
  by_cases h9 : (writeVarint w).length ≤ 8
  · have hw := (length_writeVarint_le_iff (length_writeVarint_pos w) h9).mp le_rfl
    exact (length_writeVarint_le_iff (length_writeVarint_pos w) h9).mpr (by omega)
  · have := length_writeVarint_le v
    omega

theorem readVarintFrom_length (h : readVarintFrom left v i buf = .ok (w,n)) :
    i < n ∧ n ≤ i + left + 1 ∧ n ≤ i + buf.length := by
  induction left generalizing v i buf with
  | zero =>
    cases buf with
    | nil => cases h
    | cons c buf =>
      cases h
      simp
  | succ left ih =>
    cases buf with
    | nil => cases h
    | cons c buf =>
      simp only [readVarintFrom] at h
      split at h
      · cases h
        simp only [length_cons]
        omega
      · have := ih h
        simp only [length_cons]
        omega

theorem readVarint_length (h : readVarint buf = .ok (w,n)) : 0 < n ∧ n ≤ 9 ∧ n ≤ buf.length := by
  have := readVarintFrom_length h
  omega

end OxiSql.Ondisk
