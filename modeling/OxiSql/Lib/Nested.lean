namespace OxiSql.Lib
open List

/-- A value, the value it started from and the restore points set since, innermost first. -/
structure Nested (μ σ : Type) where
  base : σ
  current : σ
  points : List (μ × σ)

namespace Nested
variable {μ σ : Type}

def start (x : σ) : Nested μ σ :=
  ⟨x, x, []⟩

def set (N : Nested μ σ) (x : σ) : Nested μ σ :=
  { N with current := x }

def mark (N : Nested μ σ) (m : μ) : Nested μ σ :=
  { N with points := (m, N.current) :: N.points }

def reaching (N : Nested μ σ) (p : μ → Bool) : List (μ × σ) :=
  N.points.dropWhile fun point => !p point.1

/-- Back to the innermost point that passes. It stays, younger points are gone. -/
def rewind (N : Nested μ σ) (p : μ → Bool) : Nested μ σ :=
  match N.reaching p with
  | [] => N
  | point :: older => { N with current := point.2, points := point :: older }

/-- Forgets the innermost point that passes and all younger ones. -/
def release (N : Nested μ σ) (p : μ → Bool) : Nested μ σ :=
  match N.reaching p with
  | [] => N
  | _ :: older => { N with points := older }

def find (N : Nested μ σ) (p : μ → Bool) : Option μ :=
  (N.reaching p).head?.map Prod.fst

def reset (N : Nested μ σ) : Nested μ σ :=
  { N with current := N.base, points := [] }

variable (N : Nested μ σ)

@[simp] theorem base_set : (N.set x).base = N.base := rfl

@[simp] theorem base_mark : (N.mark m).base = N.base := rfl

@[simp] theorem base_reset : N.reset.base = N.base := rfl

@[simp] theorem base_rewind : (N.rewind p).base = N.base := by
  unfold rewind
  split <;> rfl

@[simp] theorem base_release : (N.release p).base = N.base := by
  unfold release
  split <;> rfl

structure All (p : σ → Prop) (N : Nested μ σ) : Prop where
  base : p N.base
  current : p N.current
  points : ∀ point ∈ N.points, p point.2

section All
variable {p : σ → Prop} {N : Nested μ σ}

theorem All.start (h : p x) : (Nested.start x : Nested μ σ).All p :=
  ⟨h,h,nofun⟩

variable (h : N.All p)
include h

theorem All.set (hx : p x) : (N.set x).All p :=
  ⟨h.base,hx,h.points⟩

theorem All.mark (m : μ) : (N.mark m).All p := by
  refine ⟨h.base,h.current,?_⟩
  intro point hm
  rcases mem_cons.mp hm with rfl | hm
  · exact h.current
  · exact h.points point hm

theorem All.reset : N.reset.All p :=
  ⟨h.base,h.base,nofun⟩

theorem All.of_mem_reaching : ∀ point ∈ N.reaching q, p point.2 :=
  fun point hm => h.points point ((dropWhile_suffix _).subset hm)

theorem All.rewind : (N.rewind q).All p := by
  have hm := h.of_mem_reaching (q := q)
  unfold Nested.rewind
  split
  · exact h
  · rename_i point older he
    rw [he] at hm
    exact ⟨h.base,hm point (mem_cons_self ..),hm⟩

theorem All.release : (N.release q).All p := by
  have hm := h.of_mem_reaching (q := q)
  unfold Nested.release
  split
  · exact h
  · rename_i point older he
    rw [he] at hm
    exact ⟨h.base,h.current,fun point hp => hm point (mem_cons_of_mem _ hp)⟩

end All

end Nested

end OxiSql.Lib
