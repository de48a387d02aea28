import Mathlib

namespace OxiSql.Wal

-- The numerals of the runs with two connections all use this proof.
instance neZeroTwo : NeZero 2 :=
  ⟨two_ne_zero⟩

/-- `NO_LOCK`, `SHARED_LOCK` and `WRITE_LOCK`. -/
inductive LockState where
  | noLock
  | sharedLock
  | writeLock
deriving DecidableEq

def readmarkNotUsed : Nat := 0xffffffff

/-- A mark is kept in 32 bits, a frame number in 64. -/
def asU32 (n : Nat) : Nat :=
  n % 2 ^ 32

theorem asU32_of_lt (h : n < 2 ^ 32) : asU32 n = n :=
  Nat.mod_eq_of_lt h

theorem asU32_le (n : Nat) : asU32 n ≤ n :=
  Nat.mod_le n _

structure LimboRwLock where
  lock : LockState
  nreads : Nat
  value : Nat
deriving DecidableEq

namespace LimboRwLock

def new : LimboRwLock :=
  ⟨.noLock, 0, readmarkNotUsed⟩

/-- `LimboRwLock::read`, taken as one atomic action: the retry after a lost
race has nothing to do. -/
def read (l : LimboRwLock) : Bool × LimboRwLock :=
  match l.lock with
  | .noLock => (true, { l with lock := .sharedLock, nreads := l.nreads + 1 })
  | .sharedLock => (true, { l with nreads := l.nreads + 1 })
  | .writeLock => (false, l)

def write (l : LimboRwLock) : Bool × LimboRwLock :=
  match l.lock with
  | .noLock => (true, { l with lock := .writeLock })
  | .sharedLock => (false, l)
  | .writeLock => (false, l)

def unlock (l : LimboRwLock) : LimboRwLock :=
  match l.lock with
  | .noLock => l
  | .sharedLock =>
    if l.nreads = 1 then { l with lock := .noLock, nreads := l.nreads - 1 }
    else { l with nreads := l.nreads - 1 }
  | .writeLock => { l with lock := .noLock }

/-- Locking a slot exclusively only to overwrite its mark. -/
def setValue (l : LimboRwLock) (v : Nat) : LimboRwLock :=
  unlock { l.write.2 with value := v }

variable {l : LimboRwLock}

theorem write_ok : l.write.1 = true ↔ l.lock = .noLock := by
  cases h : l.lock <;> simp [write,h]

theorem setValue_of_free (h : l.lock = .noLock) : l.setValue v = { l with value := v } := by
  simp_all [setValue,write,unlock]

/-- A slot of the read-lock table: the lock says how many readers share it. -/
structure Shared (l : LimboRwLock) : Prop where
  free : l.lock = .noLock → l.nreads = 0
  held : l.lock = .sharedLock → 0 < l.nreads
  never_exclusive : l.lock ≠ .writeLock

theorem Shared.new : Shared new :=
  ⟨fun _ => rfl,nofun,nofun⟩

variable (h : l.Shared)
include h

theorem Shared.lock_of_pos (hn : 0 < l.nreads) : l.lock = .sharedLock := by
  cases hl : l.lock with
  | noLock =>
    have := h.free hl
    omega
  | sharedLock => rfl
  | writeLock => exact absurd hl h.never_exclusive

theorem Shared.read_eq : l.read = (true,{ l with lock := .sharedLock, nreads := l.nreads + 1 }) := by
  cases hl : l.lock with
  | noLock | sharedLock => simp [read,hl]
  | writeLock => exact absurd hl h.never_exclusive

theorem Shared.value (v : Nat) : Shared { l with value := v } :=
  ⟨h.free,h.held,h.never_exclusive⟩

/-- Unlocking a shared slot gives back one reader and keeps the mark. -/
theorem Shared.unlock_spec (hn : 0 < l.nreads) :
    l.unlock.Shared ∧ l.unlock.nreads = l.nreads - 1 ∧ l.unlock.value = l.value := by
  have hl := h.lock_of_pos hn
  by_cases h1 : l.nreads = 1
  · have he : l.unlock = { l with lock := .noLock, nreads := 0 } := by simp [unlock,hl,h1]
    rw [he]
    exact ⟨⟨fun _ => rfl,nofun,nofun⟩,by simp [h1],rfl⟩
  · have he : l.unlock = { l with nreads := l.nreads - 1 } := by simp [unlock,hl,h1]
    rw [he]
    refine ⟨⟨fun hf => absurd (hl.symm.trans hf) nofun,fun _ => ?_,h.never_exclusive⟩,rfl,rfl⟩
    simp only
    omega

end LimboRwLock

abbrev Slot := Fin 5

abbrev ReadLocks := Slot → LimboRwLock

end OxiSql.Wal
