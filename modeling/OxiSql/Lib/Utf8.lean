import Mathlib

namespace OxiSql.Lib
open List

def utf8 (cs : List Char) : List UInt8 :=
  cs.flatMap String.utf8EncodeChar

/-- `b as char`. -/
def byteChar (b : UInt8) : Char :=
  Char.ofNat b.toNat

/-- Each byte of a text as a character of its own. -/
def latin (cs : List Char) : List Char :=
  (utf8 cs).map byteChar

def isAscii (c : Char) : Bool :=
  c.toNat < 128

@[simp] theorem latin_nil : latin [] = [] := rfl

theorem latin_cons : latin (c :: cs) = latin [c] ++ latin cs := by
  simp [latin,utf8]

@[simp] theorem latin_append : latin (cs ++ ds) = latin cs ++ latin ds := by
  simp [latin,utf8]

theorem latin_ascii (h : isAscii c) : latin (c :: cs) = c :: latin cs := by
  have hc : c.toNat < 128 := by simpa [isAscii] using h
  have hle : c.val.toNat ≤ 127 := Nat.le_of_lt_succ hc
  have hby : byteChar (UInt8.ofNat c.val.toNat) = c := by
    have hmod : (UInt8.ofNat c.val.toNat).toNat = c.toNat := by
      change c.val.toNat % 256 = c.val.toNat
      omega
    rw [byteChar,hmod,Char.ofNat_toNat]
  have hone : latin [c] = [c] := by
    rw [latin,utf8,flatMap_singleton,String.utf8EncodeChar,if_pos hle,map_singleton,hby]
  rw [latin_cons,hone,singleton_append]

theorem isAscii_byteChar : isAscii (byteChar b) = decide (b.toNat < 128) := by
  have hb := b.toNat_lt
  have hva : b.toNat.isValidChar := .inl (by omega)
  have hnat : (byteChar b).toNat = b.toNat := by
    rw [byteChar,Char.ofNat,dif_pos hva]
    simp [Char.ofNatAux]
  rw [isAscii,hnat]

theorem utf8EncodeChar_of_not_ascii (h : ¬ isAscii c) :
    1 < (String.utf8EncodeChar c).length ∧ ∀ b ∈ String.utf8EncodeChar c, 128 ≤ b.toNat := by
  have hc : ¬ c.val.toNat ≤ 127 := by
    have : ¬ c.toNat < 128 := by simpa [isAscii] using h
    change ¬ c.toNat ≤ 127
    omega
  simp only [String.utf8EncodeChar,if_neg hc]
  split
  · refine ⟨by simp,fun b hb => ?_⟩
    simp only [mem_cons,not_mem_nil,or_false] at hb
    rcases hb with rfl | rfl <;> simp only [UInt8.toNat_ofNat'] <;> omega
  · split
    · refine ⟨by simp,fun b hb => ?_⟩
      simp only [mem_cons,not_mem_nil,or_false] at hb
      rcases hb with rfl | rfl | rfl <;> simp only [UInt8.toNat_ofNat'] <;> omega
    · refine ⟨by simp,fun b hb => ?_⟩
      simp only [mem_cons,not_mem_nil,or_false] at hb
      rcases hb with rfl | rfl | rfl | rfl <;> simp only [UInt8.toNat_ofNat'] <;> omega

theorem latin_not_ascii (h : ¬ isAscii c) : 1 < (latin [c]).length ∧ ∀ d ∈ latin [c], ¬ isAscii d := by
  obtain ⟨hlen,hby⟩ := utf8EncodeChar_of_not_ascii h
  rw [latin,utf8,flatMap_singleton]
  refine ⟨by simpa using hlen,fun d hd => ?_⟩
  obtain ⟨b,hb,rfl⟩ := mem_map.mp hd
  have := hby b hb
  rw [isAscii_byteChar]
  simp
  omega

theorem latin_not_ascii_head (h : ¬ isAscii c) (cs : List Char) :
    ∃ e es, latin (c :: cs) = e :: es ∧ ¬ isAscii e := by
  obtain ⟨hlen,hnot⟩ := latin_not_ascii h
  rw [latin_cons]
  cases hds : latin [c] with
  | nil => simp [hds] at hlen
  | cons e es => exact ⟨e,es ++ latin cs,rfl,hnot e (by simp [hds])⟩

theorem length_le_latin (cs : List Char) : cs.length ≤ (latin cs).length := by
  induction cs with
  | nil => exact Nat.le_refl _
  | cons c cs ih =>
    by_cases hc : isAscii c
    · rw [latin_ascii hc]
      exact Nat.succ_le_succ ih
    · have hlen := (latin_not_ascii hc).1
      rw [latin_cons,length_append,length_cons]
      omega

theorem length_latin_iff : (latin cs).length = cs.length ↔ ∀ c ∈ cs, isAscii c := by
  induction cs with
  | nil => simp
  | cons c cs ih =>
    by_cases hc : isAscii c
    · rw [latin_ascii hc,length_cons,length_cons,Nat.succ_inj,ih]
      simp [hc]
    · have hlen := (latin_not_ascii hc).1
      have hle := length_le_latin cs
      rw [latin_cons,length_append,length_cons]
      constructor
      · omega
      · intro h
        exact absurd (h c (by simp)) hc

theorem latin_of_ascii (h : ∀ c ∈ cs, isAscii c) : latin cs = cs := by
  induction cs with
  | nil => rfl
  | cons c cs ih => rw [latin_ascii (h c (by simp)),ih fun d hd => h d (by simp [hd])]

end OxiSql.Lib
