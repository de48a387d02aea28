import Mathlib

namespace OxiSql.Lib

variable {α β ε : Type} {f : α → Except ε β} {x : Except ε α}

theorem bind_ok (h : (x >>= f) = .ok b) : ∃ a, x = .ok a ∧ f a = .ok b := by
  cases x with
  | error e => cases h
  | ok a => exact ⟨a,rfl,h⟩

theorem map_ok {f : α → β} (h : f <$> x = .ok b) : ∃ a, x = .ok a ∧ f a = b := by
  cases x with
  | error e => cases h
  | ok a => exact ⟨a,rfl,Except.ok.inj h⟩

theorem mapM_ok (h : l.mapM f = .ok l') : List.Forall₂ (fun a b => f a = .ok b) l l' := by
  induction l generalizing l' with
  | nil =>
    cases h
    exact .nil
  | cons a l ih =>
    rw [List.mapM_cons] at h
    obtain ⟨b,hb,h⟩ := bind_ok h
    obtain ⟨bs,hbs,h⟩ := bind_ok h
    cases h
    exact .cons hb (ih hbs)

section
variable {α β : Type} {R : α → β → Prop} {l : List α} {l' : List β}

variable (h : List.Forall₂ R l l')
include h

theorem forall₂_left (ha : a ∈ l) : ∃ b ∈ l', R a b := by
  induction h with
  | nil => cases ha
  | cons hab _ ih =>
    rcases List.mem_cons.mp ha with rfl | ha
    · exact ⟨_,.head _,hab⟩
    · obtain ⟨b,hb,hr⟩ := ih ha
      exact ⟨b,.tail _ hb,hr⟩

variable {b : β}

theorem forall₂_right (hb : b ∈ l') : ∃ a ∈ l, R a b :=
  forall₂_left h.flip hb

theorem forall₂_getElem? {k : Nat} (hb : l'[k]? = some b) : ∃ a, l[k]? = some a ∧ R a b := by
  induction h generalizing k with
  | nil => cases hb
  | cons hab _ ih =>
    cases k with
    | zero =>
      cases hb
      exact ⟨_,rfl,hab⟩
    | succ k => exact ih hb

end

end OxiSql.Lib
