import Mathlib

namespace OxiSql.Lib
open List
variable {α : Type} {cmp : α → α → Ordering} {p : α → Prop}

/-- On the keys in play a comparison is a total preorder. -/
structure Consistent (cmp : α → α → Ordering) (p : α → Prop) : Prop where
  swap : ∀ a b, (cmp a b).swap = cmp b a
  trans : ∀ a b c, p a → p b → p c → cmp a b ≠ .gt → cmp b c ≠ .gt → cmp a c ≠ .gt

namespace Consistent

variable (h : Consistent cmp p)
include h

theorem refl (a : α) : cmp a a = .eq := by
  have hs := h.swap a a
  cases hc : cmp a a <;> rw [hc] at hs <;> trivial

theorem eq_comm : cmp a b = .eq ↔ cmp b a = .eq := by
  rw [← h.swap a b]
  cases cmp a b <;> decide

theorem gt_iff : cmp a b = .gt ↔ cmp b a = .lt := by
  rw [← h.swap a b]
  cases cmp a b <;> decide

theorem lt_iff : cmp a b = .lt ↔ cmp b a = .gt :=
  h.gt_iff.symm

/-- Keys that compare equal compare alike with a third. -/
theorem congr (ha : p a) (hb : p b) (hc : p c) (hab : cmp a b = .eq) : cmp a c = cmp b c := by
  have hba := h.eq_comm.mp hab
  have hle : cmp a c ≠ .gt ↔ cmp b c ≠ .gt :=
    ⟨h.trans b a c hb ha hc (by simp [hba]),h.trans a b c ha hb hc (by simp [hab])⟩
  have hge : cmp c a ≠ .gt ↔ cmp c b ≠ .gt :=
    ⟨fun hca => h.trans c a b hc ha hb hca (by simp [hab]),
      fun hcb => h.trans c b a hc hb ha hcb (by simp [hba])⟩
  rw [← h.swap a c,← h.swap b c] at hge
  revert hle hge
  cases cmp a c <;> cases cmp b c <;> simp

theorem congr_right (ha : p a) (hb : p b) (hc : p c) (hab : cmp a b = .eq) : cmp c a = cmp c b := by
  rw [← h.swap a c,← h.swap b c,h.congr ha hb hc hab]

theorem lt_trans (ha : p a) (hb : p b) (hc : p c) (hab : cmp a b = .lt)
    (hbc : cmp b c = .lt) : cmp a c = .lt := by
  have hle := h.trans a b c ha hb hc (by simp [hab]) (by simp [hbc])
  cases hac : cmp a c with
  | lt => rfl
  | eq =>
    rw [h.congr ha hc hb hac,h.lt_iff.mp hbc] at hab
    cases hab
  | gt => exact absurd hac hle

theorem reverse : Consistent (fun a b => (cmp a b).swap) p where
  swap a b := by rw [h.swap a b]
  trans a b c ha hb hc hab hbc := by
    rw [h.swap a b] at hab
    rw [h.swap b c] at hbc
    rw [h.swap a c]
    exact h.trans c b a hc hb ha hbc hab

theorem comap {β : Type} (f : β → α) : Consistent (fun a b => cmp (f a) (f b)) fun a => p (f a) :=
  ⟨fun a b => h.swap (f a) (f b),fun a b c => h.trans (f a) (f b) (f c)⟩

/-- The first comparison, then the second where it leaves the keys equal. -/
theorem lex (h' : Consistent cmp' p) : Consistent (fun a b => (cmp a b).then (cmp' a b)) p where
  swap a b := by rw [Ordering.swap_then,h.swap,h'.swap]
  trans a b c ha hb hc hab hbc := by
    have hle : ∀ {x y}, (cmp x y).then (cmp' x y) ≠ .gt → cmp x y = .lt ∨ cmp x y = .eq ∧ cmp' x y ≠ .gt := by
      intro x y
      cases cmp x y <;> simp
    rcases hle hab with hab | ⟨hab,hab'⟩
    · have hac : cmp a c = .lt := by
        rcases hle hbc with hbc | ⟨hbc,-⟩
        · exact h.lt_trans ha hb hc hab hbc
        · rw [← h.congr_right hb hc ha hbc,hab]
      simp [hac]
    · rw [h.congr ha hb hc hab]
      rcases hle hbc with hbc | ⟨hbc,hbc'⟩
      · simp [hbc]
      · rw [hbc]
        exact h'.trans a b c ha hb hc hab' hbc'

theorem mono (hq : ∀ a, q a → p a) : Consistent cmp q :=
  ⟨h.swap,fun a b c ha hb hc => h.trans a b c (hq a ha) (hq b hb) (hq c hc)⟩

end Consistent

end OxiSql.Lib
