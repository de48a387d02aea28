import OxiSql.Lib.Words

namespace OxiSql.Ondisk
open Lib List UInt8

/-! Reading bytes as the source does: with checks that return an error, and with accesses and
subtractions that panic. -/

inductive Fault where
  | corrupt (message : String)
  | cacheFull
  | panic (message : String)
deriving DecidableEq

/-- `buf[i]`. -/
def index (buf : List UInt8) (i : Nat) : Except Fault UInt8 :=
  match buf[i]? with
  | some b => .ok b
  | none => .error (.panic "index out of bounds")

/-- `&buf[pos..]`. -/
def sliceFrom (buf : List UInt8) (pos : Nat) : Except Fault (List UInt8) :=
  if buf.length < pos then .error (.panic "range start index out of range")
  else .ok (buf.drop pos)

/-- `&buf[pos..pos + len]`. -/
def slice (buf : List UInt8) (pos len : Nat) : Except Fault (List UInt8) :=
  if buf.length < pos + len then .error (.panic "range end index out of range")
  else .ok ((buf.drop pos).take len)

/-- `a - b` of unsigned numbers. -/
def sub (a b : Nat) : Except Fault Nat :=
  if a < b then .error (.panic "attempt to subtract with overflow") else .ok (a - b)

/-- `assert!`. -/
def require (condition : Bool) (message : String) : Except Fault Unit :=
  if condition then .ok () else .error (.panic message)

def readU16At (buf : List UInt8) (pos : Nat) : Except Fault Nat := do
  let b₀ ← index buf pos
  let b₁ ← index buf (pos + 1)
  .ok (beU16 b₀ b₁).toNat

def readU32At (buf : List UInt8) (pos : Nat) : Except Fault UInt32 := do
  let b₀ ← index buf pos
  let b₁ ← index buf (pos + 1)
  let b₂ ← index buf (pos + 2)
  let b₃ ← index buf (pos + 3)
  .ok (beU32 b₀ b₁ b₂ b₃)

theorem sliceFrom_append (pre rest : List UInt8) : sliceFrom (pre ++ rest) pre.length = .ok rest := by
  rw [sliceFrom,if_neg (by rw [length_append]; omega),drop_left]

theorem index_append (pre : List UInt8) (b : UInt8) (rest : List UInt8) :
    index (pre ++ b :: rest) pre.length = .ok b := by
  simp [index]

theorem readU32At_append (pre : List UInt8) (x : UInt32) (rest : List UInt8) :
    readU32At (pre ++ (u32Be x ++ rest)) pre.length = .ok x := by
  have h0 := index_append pre (ofNat (x.toNat / 2 ^ 24))
  have h1 := index_append (pre ++ [ofNat (x.toNat / 2 ^ 24)]) (ofNat (x.toNat / 2 ^ 16))
  have h2 := index_append (pre ++ [ofNat (x.toNat / 2 ^ 24),ofNat (x.toNat / 2 ^ 16)])
  have h3 := index_append (pre ++ [ofNat (x.toNat / 2 ^ 24),ofNat (x.toNat / 2 ^ 16),
    ofNat (x.toNat / 2 ^ 8)]) (ofNat x.toNat)
  simp only [append_assoc,cons_append,nil_append,length_append,length_cons,length_nil] at h0 h1 h2 h3
  simp only [readU32At,u32Be,cons_append,h0,h1,h2,h3,bind,Except.bind,beU32_bytes]

section
variable {α β : Type} {Q : β → Prop}

/-- A value with `P`, or the error for corrupt data. -/
def Returns (x : Except Fault α) (P : α → Prop) : Prop :=
  match x with
  | .ok a => P a
  | .error (.corrupt _) => True
  | .error _ => False

theorem Returns.bind (hx : Returns x P) (hf : ∀ a, P a → Returns (f a) Q) : Returns (x >>= f) Q := by
  cases x with
  | ok a => exact hf a hx
  | error e =>
    cases e with
    | corrupt message => trivial
    | cacheFull | panic message => exact hx.elim

theorem index_ok (h : i < buf.length) : ∃ b, index buf i = .ok b ∧ buf[i]? = some b := by
  refine ⟨buf[i],?_,getElem?_eq_getElem h⟩
  rw [index,getElem?_eq_getElem h]

theorem sliceFrom_returns (h : pos ≤ buf.length) :
    Returns (sliceFrom buf pos) fun s => s.length = buf.length - pos := by
  rw [sliceFrom,if_neg (by omega)]
  exact length_drop

theorem slice_returns (h : pos + len ≤ buf.length) : Returns (slice buf pos len) fun s => s.length = len := by
  rw [slice,if_neg (by omega)]
  simp only [Returns,length_take,length_drop]
  omega

theorem sub_returns (h : b ≤ a) : Returns (sub a b) fun d => d = a - b := by
  rw [sub,if_neg (by omega)]
  rfl

theorem readU16At_returns (h : pos + 2 ≤ buf.length) : Returns (readU16At buf pos) fun n => n < 65536 := by
  obtain ⟨b0,h0,-⟩ := index_ok (by omega : pos < buf.length)
  obtain ⟨b1,h1,-⟩ := index_ok (by omega : pos + 1 < buf.length)
  simp only [readU16At,h0,h1]
  exact (beU16 b0 b1).toNat_lt

theorem readU32At_returns (h : pos + 4 ≤ buf.length) : Returns (readU32At buf pos) fun _ => True := by
  obtain ⟨b0,h0,-⟩ := index_ok (by omega : pos < buf.length)
  obtain ⟨b1,h1,-⟩ := index_ok (by omega : pos + 1 < buf.length)
  obtain ⟨b2,h2,-⟩ := index_ok (by omega : pos + 2 < buf.length)
  obtain ⟨b3,h3,-⟩ := index_ok (by omega : pos + 3 < buf.length)
  simp only [readU32At,h0,h1,h2,h3]
  trivial

end

end OxiSql.Ondisk
