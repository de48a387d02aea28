import Mathlib

namespace OxiSql.Lib
open List

/-- A file as a positioned byte store. Bytes past the end read as zero, so a
write past the end leaves a hole of zeros. -/
structure ByteFile where
  size : Nat
  byte : Nat → UInt8
  zero_beyond : ∀ i, size ≤ i → byte i = 0

namespace ByteFile

def empty : ByteFile where
  size := 0
  byte := fun _ => 0
  zero_beyond := fun _ _ => rfl

def pread (f : ByteFile) (pos len : Nat) : List UInt8 :=
  (List.range len).map fun i => f.byte (pos + i)

def pwrite (f : ByteFile) (pos : Nat) (buf : List UInt8) : ByteFile where
  size := max f.size (pos + buf.length)
  byte := fun i => if pos ≤ i ∧ i < pos + buf.length then buf.getD (i - pos) 0 else f.byte i
  zero_beyond := by
    intro i hi
    have hsize : f.size ≤ i := le_trans (le_max_left _ _) hi
    have hpos : pos + buf.length ≤ i := le_trans (le_max_right _ _) hi
    rw [if_neg (by omega)]
    exact f.zero_beyond i hsize

variable (f : ByteFile)

@[simp] theorem length_pread : (f.pread pos len).length = len := by
  simp [pread]

@[simp] theorem size_pwrite : (f.pwrite pos buf).size = max f.size (pos + buf.length) := rfl

theorem byte_pwrite : (f.pwrite pos buf).byte i =
      if pos ≤ i ∧ i < pos + buf.length then buf.getD (i - pos) 0 else f.byte i := rfl

variable {f : ByteFile}

theorem byte_pwrite_outside (h : i < pos ∨ pos + buf.length ≤ i) : (f.pwrite pos buf).byte i = f.byte i := by
  rw [byte_pwrite,if_neg (by omega)]

/-- Two files that agree on a range are read alike there. -/
theorem pread_congr {g : ByteFile} (h : ∀ i, pos ≤ i → i < pos + len → f.byte i = g.byte i) :
    f.pread pos len = g.pread pos len := by
  apply map_congr_left
  intro i hi
  have hlt : i < len := mem_range.mp hi
  exact h _ (by omega) (by omega)

theorem take_drop_pread (h : off + n ≤ len) : ((f.pread pos len).drop off).take n = f.pread (pos + off) n := by
  apply ext_getElem
  · simp only [length_pread,length_take,length_drop]
    omega
  · simp [pread,Nat.add_assoc]

theorem pread_append : f.pread pos (a + b) = f.pread pos a ++ f.pread (pos + a) b := by
  simp only [pread,range_add,map_append,map_map]
  congr 1
  exact map_congr_left fun i _ => by simp [Nat.add_assoc]

theorem pread_pwrite_within (h : off + len ≤ buf.length) :
    (f.pwrite pos buf).pread (pos + off) len = (buf.drop off).take len := by
  apply ext_getElem
  · simp only [length_pread,length_take,length_drop]
    omega
  · intro i h1 h2
    have hi : i < len := by simpa using h1
    have hb : off + i < buf.length := by omega
    simp only [pread,getElem_map,getElem_range,byte_pwrite,getElem_take,getElem_drop]
    rw [if_pos (by omega),Nat.add_assoc,Nat.add_sub_cancel_left,getD_eq_getElem _ _ hb]

theorem pread_pwrite_self (h : buf.length = len) : (f.pwrite pos buf).pread pos len = buf := by
  have hwi : (f.pwrite pos buf).pread (pos + 0) len = (buf.drop 0).take len :=
    pread_pwrite_within (Nat.le_of_eq ((Nat.zero_add len).trans h.symm))
  rwa [drop_zero,← h,take_length,h] at hwi

theorem pread_pwrite_disjoint (h : rpos + len ≤ pos ∨ pos + buf.length ≤ rpos) :
    (f.pwrite pos buf).pread rpos len = f.pread rpos len := by
  apply pread_congr
  intro i hlo hhi
  exact byte_pwrite_outside (by omega)

end ByteFile

end OxiSql.Lib
