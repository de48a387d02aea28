import OxiSql.Lib.BigEndian

namespace OxiSql.Lib
open List

inductive Stop (ε : Type) where
  | error (e : ε)
  | panic
deriving DecidableEq

/-- Taking bytes that are not there panics. -/
def takeBytes {ε : Type} (n : Nat) (buf : List UInt8) : Except (Stop ε) (List UInt8 × List UInt8) :=
  if n ≤ buf.length then .ok (buf.take n, buf.drop n) else .error .panic

/-- A decoder gives a value and the bytes it leaves; it never panics. -/
structure Decoder (ε α : Type) where
  run : List UInt8 → Except (Stop ε) (α × List UInt8)
  safe : ∀ buf, run buf ≠ .error .panic

variable {ε α β : Type}

theorem bind_safe {γ : Type} {x : Except (Stop ε) γ} {f : γ → Except (Stop ε) β} (hx : x ≠ .error .panic)
    (hf : ∀ c, x = .ok c → f c ≠ .error .panic) : (x >>= f) ≠ .error .panic := by
  cases x with
  | error e => exact fun h => hx (by cases h; rfl)
  | ok c => exact hf c rfl

theorem takeBytes_safe (h : n ≤ buf.length) : (takeBytes n buf : Except (Stop ε) _) ≠ .error .panic := by
  simp [takeBytes,h]

theorem takeBytes_append (pre rest : List UInt8) :
    (takeBytes pre.length (pre ++ rest) : Except (Stop ε) _) = .ok (pre,rest) := by
  simp [takeBytes]

instance : Monad (Decoder ε) where
  pure a := ⟨fun buf => .ok (a, buf), nofun⟩
  bind p f := ⟨fun buf => p.run buf >>= fun (a, rest) => (f a).run rest,
    fun buf => bind_safe (p.safe buf) fun c _ => (f c.1).safe c.2⟩

def Decoder.fail (e : ε) : Decoder ε α :=
  ⟨fun _ => .error (.error e), nofun⟩

def Decoder.many (p : Decoder ε α) : Nat → Decoder ε (List α)
  | 0 => pure []
  | n + 1 => do
    let a ← p
    let as ← p.many n
    return a :: as

/-- `short` is the error if fewer bytes are left. -/
def Decoder.bytes (n : Nat) (short : Nat → ε) : Decoder ε (List UInt8) where
  run buf := if buf.length < n then .error (.error (short buf.length)) else takeBytes n buf
  safe buf := by
    split
    · nofun
    · exact takeBytes_safe (by omega)

def Decoder.word (k : Nat) (short : Nat → ε) : Decoder ε Nat := do
  let bytes ← .bytes k short
  return ofBytesBe bytes

def Decoder.rest : Decoder ε (List UInt8) :=
  ⟨fun buf => .ok (buf, []), nofun⟩

def Decoder.finish (trailing : Nat → ε) : Decoder ε Unit where
  run buf := if buf = [] then .ok ((), []) else .error (.error (trailing buf.length))
  safe buf := by split <;> nofun

def Decoder.decode (p : Decoder ε α) (buf : List UInt8) : Except ε α :=
  match h : p.run buf with
  | .ok (a, _) => .ok a
  | .error (.error e) => .error e
  | .error .panic => absurd h (p.safe buf)

theorem Decoder.decode_ok {p : Decoder ε α} (h : p.run buf = .ok (a,l)) : p.decode buf = .ok a := by
  unfold decode
  split <;> simp_all

theorem Decoder.decode_error {p : Decoder ε α} (h : p.run buf = .error (.error e)) : p.decode buf = .error e := by
  unfold decode
  split <;> simp_all

/-- From these bytes the value is read, whatever follows; from fewer of them nothing. -/
structure Reads (p : Decoder ε α) (bytes : List UInt8) (a : α) : Prop where
  whole : ∀ rest, p.run (bytes ++ rest) = .ok (a, rest)
  cut : ∀ pre, pre <+: bytes → pre ≠ bytes → ∃ e, p.run pre = .error (.error e)

namespace Reads
variable {p : Decoder ε α} {b : β}

theorem pure (a : α) : Reads (Pure.pure a : Decoder ε α) [] a where
  whole _ := rfl
  cut _ hpre hne := absurd (prefix_nil.mp hpre) hne

theorem run_bind {f : α → Decoder ε β} (hp : Reads p bytes a) (rest : List UInt8) :
    (p >>= f).run (bytes ++ rest) = (f a).run rest := by
  change (p.run (bytes ++ rest) >>= fun (a, rest) => (f a).run rest) = _
  rw [hp.whole]
  rfl

theorem bind (hp : Reads p e1 a) (hf : Reads (f a) e2 b) : Reads (p >>= f) (e1 ++ e2) b where
  whole rest := by
    rw [append_assoc,hp.run_bind]
    exact hf.whole rest
  cut pre hpre hne := by
    change ∃ e, (p.run pre >>= fun (a, rest) => (f a).run rest) = _
    by_cases hlo : e1 <+: pre
    · obtain ⟨pre',rfl⟩ := hlo
      rw [hp.whole]
      exact hf.cut pre' ((prefix_append_right_inj e1).mp hpre) fun heq => hne (by rw [heq])
    · have hsh := (List.prefix_or_prefix_of_prefix hpre (prefix_append e1 e2)).resolve_right hlo
      obtain ⟨e,he⟩ := hp.cut pre hsh fun heq => hlo (heq ▸ prefix_rfl)
      rw [he]
      exact ⟨e,rfl⟩

theorem last {g : α → β} (hp : Reads p e1 a) : Reads (p >>= fun a => Pure.pure (g a)) e1 (g a) := by
  have hpu : Reads (Pure.pure (g a) : Decoder ε β) [] (g a) := .pure _
  simpa using hp.bind (f := fun a => Pure.pure (g a)) hpu

theorem many (h : ∀ a ∈ as, Reads p (encode a) a) : Reads (p.many as.length) (as.flatMap encode) as := by
  induction as with
  | nil => exact .pure []
  | cons a as ih =>
    obtain ⟨ha,has⟩ := forall_mem_cons.mp h
    exact ha.bind (ih has).last

theorem bytes (bs : List UInt8) (hn : bs.length = n) (short : Nat → ε) : Reads (.bytes n short) bs bs where
  whole rest := by simp [Decoder.bytes,takeBytes_append,← hn]
  cut pre hpre hne := by
    have hlt : pre.length < n := hn ▸ (hpre.length_le.lt_of_ne fun h => hne (hpre.eq_of_length h))
    exact ⟨short pre.length,if_pos hlt⟩

theorem word (hn : n < 256 ^ k) (short : Nat → ε) : Reads (.word k short) (bytesBe k n) n := by
  have hby := (bytes (bytesBe k n) (length_bytesBe k n) short).last (g := ofBytesBe)
  rwa [ofBytesBe_bytesBe,Nat.mod_eq_of_lt hn] at hby

end Reads

end OxiSql.Lib
