import Mathlib

namespace OxiSql.Lib
open List UInt8

def u32Be (x : UInt32) : List UInt8 :=
  [UInt8.ofNat (x.toNat / 2 ^ 24), UInt8.ofNat (x.toNat / 2 ^ 16), UInt8.ofNat (x.toNat / 2 ^ 8),
    UInt8.ofNat x.toNat]

def u32Le (x : UInt32) : List UInt8 :=
  [UInt8.ofNat x.toNat, UInt8.ofNat (x.toNat / 2 ^ 8), UInt8.ofNat (x.toNat / 2 ^ 16),
    UInt8.ofNat (x.toNat / 2 ^ 24)]

def beU32 (b₀ b₁ b₂ b₃ : UInt8) : UInt32 :=
  UInt32.ofNat (b₀.toNat * 2 ^ 24 + b₁.toNat * 2 ^ 16 + b₂.toNat * 2 ^ 8 + b₃.toNat)

def leU32 (b₀ b₁ b₂ b₃ : UInt8) : UInt32 :=
  beU32 b₃ b₂ b₁ b₀

def u16Be (x : UInt16) : List UInt8 :=
  [UInt8.ofNat (x.toNat / 2 ^ 8), UInt8.ofNat x.toNat]

def beU16 (b₀ b₁ : UInt8) : UInt16 :=
  UInt16.ofNat (b₀.toNat * 2 ^ 8 + b₁.toNat)

theorem beU16_bytes : beU16 (ofNat (x.toNat / 2 ^ 8)) (ofNat x.toNat) = x := by
  have hx : x.toNat < 2 ^ 16 := x.toNat_lt
  apply UInt16.toNat.inj
  simp only [beU16,UInt16.toNat_ofNat',toNat_ofNat']
  omega

@[simp] theorem length_u16Be : (u16Be x).length = 2 := by
  simp [u16Be]

variable (x : UInt32)

@[simp] theorem length_u32Be : (u32Be x).length = 4 := by
  simp [u32Be]

theorem beU32_bytes : beU32 (ofNat (x.toNat / 2 ^ 24)) (ofNat (x.toNat / 2 ^ 16))
      (ofNat (x.toNat / 2 ^ 8)) (ofNat x.toNat) = x := by
  have hx : x.toNat < 2 ^ 32 := x.toNat_lt
  apply UInt32.toNat.inj
  simp only [beU32,UInt32.toNat_ofNat',toNat_ofNat']
  omega

/-- Reading four bytes of a buffer as a big-endian word; missing bytes read as zero. -/
def readU32 (buf : List UInt8) (pos : Nat) : UInt32 :=
  beU32 (buf.getD pos 0) (buf.getD (pos + 1) 0) (buf.getD (pos + 2) 0) (buf.getD (pos + 3) 0)

theorem readU32_append_right (h : pre.length ≤ pos) :
    readU32 (pre ++ rest) pos = readU32 rest (pos - pre.length) := by
  simp only [readU32]
  rw [getD_append_right _ _ _ _ h,getD_append_right _ _ _ _ (by omega),
    getD_append_right _ _ _ _ (by omega),getD_append_right _ _ _ _ (by omega)]
  simp only [show pos + 1 - pre.length = pos - pre.length + 1 by omega,
    show pos + 2 - pre.length = pos - pre.length + 2 by omega,
    show pos + 3 - pre.length = pos - pre.length + 3 by omega]

theorem readU32_word (rest : List UInt8) : readU32 (u32Be x ++ rest) 0 = x := by
  simpa [readU32,u32Be] using beU32_bytes x

theorem readU32_words (ws : List UInt32) (rest : List UInt8) (i : Nat) (hi : i < ws.length) :
    readU32 (ws.flatMap u32Be ++ rest) (4 * i) = ws[i] := by
  induction ws generalizing i with
  | nil => cases hi
  | cons w ws ih =>
    rw [flatMap_cons,append_assoc]
    cases i with
    | zero => exact readU32_word w _
    | succ i =>
      rw [readU32_append_right (by simp),length_u32Be,Nat.mul_succ,Nat.add_sub_cancel]
      exact ih i (Nat.succ_lt_succ_iff.mp hi)

def writeU32 (buf : List UInt8) (pos : Nat) (x : UInt32) : List UInt8 :=
  (((buf.set pos (UInt8.ofNat (x.toNat / 2 ^ 24))).set (pos + 1)
    (UInt8.ofNat (x.toNat / 2 ^ 16))).set (pos + 2) (UInt8.ofNat (x.toNat / 2 ^ 8))).set (pos + 3)
    (UInt8.ofNat x.toNat)

@[simp] theorem length_writeU32 : (writeU32 buf pos x).length = buf.length := by
  simp [writeU32]

theorem readU32_writeU32 (h : pos + 4 ≤ buf.length) : readU32 (writeU32 buf pos x) pos = x := by
  have hle : pos < buf.length ∧ pos + 1 < buf.length ∧ pos + 2 < buf.length ∧ pos + 3 < buf.length := by omega
  simpa [readU32,writeU32,hle] using beU32_bytes x

theorem readU32_writeU32_apart (h : place + 4 ≤ pos ∨ pos + 4 ≤ place) :
    readU32 (writeU32 buf pos x) place = readU32 buf place := by
  have hget : ∀ i, i < pos ∨ pos + 4 ≤ i → (writeU32 buf pos x).getD i 0 = buf.getD i 0 := by
    intro i hi
    have hne : pos ≠ i ∧ pos + 1 ≠ i ∧ pos + 2 ≠ i ∧ pos + 3 ≠ i := by omega
    simp [writeU32,hne]
  simp only [readU32]
  rw [hget place (by omega),hget (place + 1) (by omega),hget (place + 2) (by omega),
    hget (place + 3) (by omega)]

end OxiSql.Lib
