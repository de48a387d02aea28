import OxiSql.Lib.Thinned
import OxiSql.Wal.File

namespace OxiSql.Storage
open Lib Wal List

inductive LimboError where
  | schemaChanged
  | readOnly
  | txError (message : String)
  | parseError (message : String)
  | internalError (message : String)
  | corrupt (message : String)
  | constraint (message : String)
  | cacheFull
deriving DecidableEq

structure SavepointFrame where
  name : String
  walMaxFrame : Nat
  walChecksum : Checksum
  isTransactionOwner : Bool
deriving DecidableEq

/-- `str::eq_ignore_ascii_case`: only ASCII letters are folded. -/
def eqIgnoreAsciiCase (a b : String) : Bool :=
  a.toList.map Char.toLower == b.toList.map Char.toLower

def findSavepoint (savepoints : List SavepointFrame) (name : String) : Option Nat :=
  rposition (fun sp => eqIgnoreAsciiCase sp.name name) savepoints

def noSuchSavepoint (name : String) : LimboError :=
  .parseError s!"no such savepoint: {name}"

/-- `release_savepoint`: whether the released savepoint owned the transaction, and the
savepoints left. -/
def releaseSavepoint (savepoints : List SavepointFrame) (name : String) :
    Except LimboError (Bool × List SavepointFrame) :=
  match findSavepoint savepoints name with
  | none => .error (noSuchSavepoint name)
  | some idx =>
    match savepoints[idx]? with
    | none => .error (noSuchSavepoint name)
    | some sp => .ok (sp.isTransactionOwner, savepoints.take idx)

/-- The savepoint `rollback_to_savepoint` goes back to, and the savepoints left. -/
def savepointTarget (savepoints : List SavepointFrame) (name : String) :
    Except LimboError (SavepointFrame × List SavepointFrame) :=
  match findSavepoint savepoints name with
  | none => .error (noSuchSavepoint name)
  | some idx =>
    match savepoints[idx]? with
    | none => .error (noSuchSavepoint name)
    | some sp => .ok (sp, savepoints.take (idx + 1))

theorem rposition_spec (h : rposition p l = some i) :
    (∃ x, l[i]? = some x ∧ p x = true) ∧ ∀ j x, i < j → l[j]? = some x → p x = false := by
  induction l generalizing i with
  | nil => cases h
  | cons y ys ih =>
    simp only [rposition] at h
    cases hr : rposition p ys with
    | some k =>
      simp only [hr,Option.some.injEq] at h
      subst h
      obtain ⟨⟨x,hx,hp⟩,haf⟩ := ih hr
      refine ⟨⟨x,by simpa using hx,hp⟩,?_⟩
      intro j x hj hx
      cases j with
      | zero => omega
      | succ j => exact haf j x (by omega) (by simpa using hx)
    | none =>
      simp only [hr] at h
      split at h
      · rename_i hp
        cases h
        refine ⟨⟨y,rfl,hp⟩,?_⟩
        intro j x hj hx
        cases j with
        | zero => omega
        | succ j =>
          have hmem : x ∈ ys := mem_of_getElem? (by simpa using hx)
          simpa using any_eq_false.mp (rposition_eq_none.mp hr) x hmem
      · cases h

theorem dropWhile_reverse_of_rposition (h : rposition p l = some i) (hx : l[i]? = some x) :
    l.reverse.dropWhile (fun y => !p y) = x :: (l.take i).reverse := by
  obtain ⟨⟨y,hy,hp⟩,haf⟩ := rposition_spec h
  obtain rfl : y = x := Option.some.inj (hy.symm.trans hx)
  obtain ⟨hlt,hget⟩ := List.getElem?_eq_some_iff.mp hy
  have hsp : l = l.take i ++ y :: l.drop (i + 1) := by
    rw [← hget,getElem_cons_drop,take_append_drop]
  have hyo : ∀ z ∈ (l.drop (i + 1)).reverse, (!p z) = true := by
    intro z hz
    obtain ⟨j,hj⟩ := mem_iff_getElem?.mp (mem_reverse.mp hz)
    rw [getElem?_drop] at hj
    simp [haf _ z (by omega) hj]
  have hrev : l.reverse = (l.drop (i + 1)).reverse ++ y :: (l.take i).reverse := by
    conv => lhs; rw [hsp]
    simp
  rw [hrev,dropWhile_append_of_pos hyo,dropWhile_cons_of_neg (by simp [hp])]

theorem dropWhile_reverse_of_rposition_none
    (h : rposition p l = none) : l.reverse.dropWhile (fun y => !p y) = [] := by
  rw [dropWhile_eq_nil_iff]
  intro x hx
  simpa using any_eq_false.mp (rposition_eq_none.mp h) x (mem_reverse.mp hx)

def reaching (savepoints : List SavepointFrame) (name : String) : List SavepointFrame :=
  savepoints.reverse.dropWhile fun sp => !eqIgnoreAsciiCase sp.name name

theorem savepoint_cases (savepoints : List SavepointFrame) (name : String) : (reaching savepoints name = [] ∧
      savepointTarget savepoints name = .error (noSuchSavepoint name) ∧
      releaseSavepoint savepoints name = .error (noSuchSavepoint name)) ∨
    ∃ idx sp, savepoints[idx]? = some sp ∧ reaching savepoints name = sp :: (savepoints.take idx).reverse ∧
      savepointTarget savepoints name = .ok (sp,savepoints.take (idx + 1)) ∧
      releaseSavepoint savepoints name = .ok (sp.isTransactionOwner,savepoints.take idx) := by
  cases hf : findSavepoint savepoints name with
  | none =>
    exact .inl ⟨dropWhile_reverse_of_rposition_none hf,by simp [savepointTarget,hf],
      by simp [releaseSavepoint,hf]⟩
  | some idx =>
    obtain ⟨⟨sp,hsp,-⟩,-⟩ := rposition_spec hf
    exact .inr ⟨idx,sp,hsp,dropWhile_reverse_of_rposition hf hsp,
      by simp [savepointTarget,hf,hsp],by simp [releaseSavepoint,hf,hsp]⟩

end OxiSql.Storage
