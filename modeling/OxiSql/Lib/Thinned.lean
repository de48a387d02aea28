import Mathlib

namespace OxiSql.Lib
open List
variable {α : Type} {p : α → Bool} {l l' : List α}

def rposition (p : α → Bool) : List α → Option Nat
  | [] => none
  | a :: l =>
    match rposition p l with
    | some i => some (i + 1)
    | none => if p a then some 0 else none

def insertAfterLast (p : α → Bool) (x : α) (l : List α) : List α :=
  l.insertIdx (((rposition p l).map (· + 1)).getD 0) x

def modifyLast (p : α → Bool) (f : α → α) : List α → List α
  | [] => []
  | a :: l => if l.any p then a :: modifyLast p f l else if p a then f a :: l else a :: l

theorem rposition_eq_none : rposition p l = none ↔ l.any p = false := by
  induction l with
  | nil => simp [rposition]
  | cons a l ih =>
    rw [rposition]
    cases hl : rposition p l with
    | none =>
      rw [hl] at ih
      cases ha : p a <;> simp [ha,ih.mp rfl]
    | some i =>
      rw [hl] at ih
      have hany : l.any p = true := by simpa using ih
      simp [hany]

theorem insertAfterLast_cons : insertAfterLast p x (a :: l) =
      if l.any p then a :: insertAfterLast p x l else if p a then a :: x :: l else x :: a :: l := by
  unfold insertAfterLast
  rw [rposition]
  cases hl : rposition p l with
  | none =>
    rw [rposition_eq_none.mp hl]
    cases p a <;> simp
  | some i =>
    have hany : l.any p = true := by
      by_contra h
      rw [rposition_eq_none.mpr (by simpa using h)] at hl
      cases hl
    simp [hany]

theorem insertAfterLast_perm (p : α → Bool) (x : α) (l : List α) : (insertAfterLast p x l).Perm (x :: l) := by
  refine perm_insertIdx x l ?_
  induction l with
  | nil => simp [rposition]
  | cons a l ih =>
    rw [rposition]
    cases hl : rposition p l with
    | none => cases p a <;> simp
    | some i =>
      rw [hl] at ih
      simpa using ih

theorem insertAfterLast_eq_append (hl : l.Pairwise fun a b => p b → p a) :
    insertAfterLast p x l = l.filter p ++ x :: l.filter (!p ·) := by
  induction l with
  | nil => rfl
  | cons a l ih =>
    rw [pairwise_cons] at hl
    rw [insertAfterLast_cons]
    cases hany : l.any p with
    | true =>
      obtain ⟨b,hb,hpb⟩ := any_eq_true.mp hany
      simp [hl.1 b hb hpb,ih hl.2]
    | false =>
      have hnone : ∀ b ∈ l, p b = false := by simpa using hany
      have hp : l.filter p = [] := by simpa using hnone
      have hn : l.filter (!p ·) = l := by simpa using hnone
      cases ha : p a <;> simp [ha,hp,hn]

theorem findRev?_cons :
    (a :: l).findRev? p = if l.any p then l.findRev? p else if p a then some a else none := by
  have hnone : l.findRev? p = none ↔ l.any p = false := by
    simp
  rw [List.findRev?]
  cases hl : l.findRev? p with
  | none => simp [hnone.mp hl]
  | some b =>
    have hany : l.any p = true := by
      by_contra h
      rw [hnone.mpr (by simpa using h)] at hl
      cases hl
    simp [hany]

variable {g : α → α}

theorem modifyLast_eq_self (h : l.any p = false) : modifyLast p g l = l := by
  cases l with
  | nil => rfl
  | cons a l =>
    rw [any_cons,Bool.or_eq_false_iff] at h
    simp [modifyLast,h.1,h.2]

theorem mem_modifyLast (h : b ∈ modifyLast p g l) : b ∈ l ∨ ∃ a ∈ l, g a = b := by
  induction l with
  | nil => cases h
  | cons a l ih =>
    rw [modifyLast] at h
    split at h
    · obtain rfl | h := mem_cons.mp h
      · exact .inl (mem_cons_self ..)
      · obtain h | ⟨c,hc,rfl⟩ := ih h
        · exact .inl (mem_cons_of_mem a h)
        · exact .inr ⟨c,mem_cons_of_mem a hc,rfl⟩
    · split at h
      · obtain rfl | h := mem_cons.mp h
        · exact .inr ⟨a,mem_cons_self ..,rfl⟩
        · exact .inl (mem_cons_of_mem a h)
      · exact .inl h

theorem pairwise_modifyLast {β : Type} (key : α → β) (r : β → β → Prop)
    (hg : ∀ a, key (g a) = key a) (h : l.Pairwise fun a b => r (key a) (key b)) :
    (modifyLast p g l).Pairwise fun a b => r (key a) (key b) := by
  have hmap : (modifyLast p g l).map key = l.map key := by
    clear h
    induction l with
    | nil => rfl
    | cons a l ih =>
      rw [modifyLast]
      split
      · rw [map_cons,map_cons,ih]
      · split
        · rw [map_cons,map_cons,hg]
        · rfl
  rw [← pairwise_map] at h ⊢
  rwa [hmap]

theorem exists_perm_modifyLast (h : l.findRev? p = some a) :
    ∃ l0, l.Perm (a :: l0) ∧ (modifyLast p g l).Perm (g a :: l0) := by
  induction l with
  | nil => cases h
  | cons b l ih =>
    rw [findRev?_cons] at h
    rw [modifyLast]
    split at h
    · next hany =>
      obtain ⟨l0,hl,hg⟩ := ih h
      rw [if_pos hany]
      exact ⟨b :: l0,(hl.cons b).trans (.swap ..),(hg.cons b).trans (.swap ..)⟩
    · next hany =>
      split at h
      · next hb =>
        cases h
        rw [if_neg hany,if_pos hb]
        exact ⟨l,.refl _,.refl _⟩
      · cases h

section
variable {q : α → Bool}

variable (h : ∀ a ∈ l, p a = q a)
include h

theorem any_congr : l.any p = l.any q := by
  rw [Bool.eq_iff_iff,any_eq_true,any_eq_true]
  exact exists_congr fun a => and_congr_right fun ha => by rw [h a ha]

theorem findRev?_congr : l.findRev? p = l.findRev? q := by
  rw [findRev?_eq_find?_reverse,findRev?_eq_find?_reverse,← head?_filter,
    ← head?_filter,filter_congr fun a ha => h a (mem_reverse.mp ha)]

theorem modifyLast_congr : modifyLast p g l = modifyLast q g l := by
  induction l with
  | nil => rfl
  | cons a l ih =>
    have hta := fun b hb => h b (mem_cons_of_mem a hb)
    rw [modifyLast,modifyLast,ih hta,h a (mem_cons_self ..),any_congr hta]

theorem insertAfterLast_congr : insertAfterLast p x l = insertAfterLast q x l := by
  induction l with
  | nil => rfl
  | cons a l ih =>
    have hta := fun b hb => h b (mem_cons_of_mem a hb)
    rw [insertAfterLast_cons,insertAfterLast_cons,ih hta,h a (mem_cons_self ..),any_congr hta]

end

/-- The second list is the first without some of its hidden elements. -/
inductive Thinned (hidden : α → Prop) : List α → List α → Prop where
  | nil : Thinned hidden [] []
  | keep {l l' : List α} (a : α) : Thinned hidden l l' → Thinned hidden (a :: l) (a :: l')
  | skip {l l' : List α} {a : α} : hidden a → Thinned hidden l l' → Thinned hidden (a :: l) l'

namespace Thinned
variable {hidden : α → Prop}

theorem of_filter {keep : α → Bool} (h : ∀ a ∈ l, keep a = false → hidden a) :
    Thinned hidden l (l.filter keep) := by
  induction l with
  | nil => exact .nil
  | cons a l ih =>
    have ih := ih fun b hb => h b (mem_cons_of_mem a hb)
    cases ha : keep a with
    | true => simpa [ha] using ih.keep a
    | false => simpa [ha] using ih.skip (h a (mem_cons_self ..) ha)

section

variable (h : Thinned hidden l l')
include h

theorem sublist : l'.Sublist l := by
  induction h with
  | nil => exact .slnil
  | keep a _ ih => exact ih.cons_cons a
  | skip _ _ ih => exact ih.cons _

theorem mem_or (ha : a ∈ l) : a ∈ l' ∨ hidden a := by
  induction h with
  | nil => cases ha
  | keep b _ ih =>
    obtain rfl | ha := mem_cons.mp ha
    · exact .inl (mem_cons_self ..)
    · exact (ih ha).imp_left (mem_cons_of_mem b)
  | skip hb _ ih =>
    obtain rfl | ha := mem_cons.mp ha
    · exact .inr hb
    · exact ih ha

theorem append (hm : Thinned hidden m m') : Thinned hidden (l ++ m) (l' ++ m') := by
  induction h with
  | nil => exact hm
  | keep a _ ih => exact ih.keep a
  | skip ha _ ih => exact ih.skip ha

end

variable (h : Thinned hidden l l')
include h

theorem map (hg : ∀ a ∈ l, hidden a → hidden' (g a)) : Thinned hidden' (l.map g) (l'.map g) := by
  induction h with
  | nil => exact .nil
  | keep a _ ih => exact (ih fun b hb => hg b (mem_cons_of_mem a hb)).keep (g a)
  | skip ha _ ih =>
    exact (ih fun b hb => hg b (mem_cons_of_mem _ hb)).skip (hg _ (mem_cons_self ..) ha)

theorem filter (q : α → Bool) : Thinned hidden (l.filter q) (l'.filter q) := by
  induction h with
  | nil => exact .nil
  | keep a _ ih =>
    cases ha : q a with
    | true => simpa [ha] using ih.keep a
    | false => simpa [ha] using ih
  | @skip _ _ a hh _ ih =>
    cases ha : q a with
    | true => simpa [ha] using ih.skip hh
    | false => simpa [ha] using ih

section

variable (hp : ∀ a ∈ l, hidden a → p a = false)
include hp

/-- What no hidden element satisfies is looked for in either list. -/
theorem filter_eq : l.filter p = l'.filter p := by
  induction h with
  | nil => rfl
  | keep a _ ih =>
    rw [filter_cons,filter_cons,ih fun b hb => hp b (mem_cons_of_mem a hb)]
  | skip ha _ ih =>
    rw [filter_cons_of_neg (by simp [hp _ (mem_cons_self ..) ha]),ih fun b hb => hp b (mem_cons_of_mem _ hb)]

theorem any_eq : l.any p = l'.any p := by
  induction h with
  | nil => rfl
  | keep a _ ih => rw [any_cons,any_cons,ih fun b hb => hp b (mem_cons_of_mem a hb)]
  | skip ha _ ih =>
    rw [any_cons,hp _ (mem_cons_self ..) ha,Bool.false_or,ih fun b hb => hp b (mem_cons_of_mem _ hb)]

theorem findRev?_eq : l.findRev? p = l'.findRev? p := by
  rw [findRev?_eq_find?_reverse,findRev?_eq_find?_reverse,← head?_filter,
    ← head?_filter,filter_reverse,filter_reverse,h.filter_eq hp]

theorem modifyLast : Thinned hidden (modifyLast p g l) (modifyLast p g l') := by
  induction h with
  | nil => exact .nil
  | keep a h ih =>
    have hta := fun b hb => hp b (mem_cons_of_mem a hb)
    rw [Lib.modifyLast,Lib.modifyLast,← h.any_eq hta]
    split
    · exact (ih hta).keep a
    · split
      · exact h.keep (g a)
      · exact h.keep a
  | @skip l l' a ha h ih =>
    have hta := fun b hb => hp b (mem_cons_of_mem a hb)
    have ih := ih hta
    rw [Lib.modifyLast,if_neg (by simp [hp a (mem_cons_self ..) ha] : ¬p a = true)]
    split
    · exact ih.skip ha
    · next hany =>
      rw [modifyLast_eq_self (by rw [← h.any_eq hta]; simpa using hany)]
      exact h.skip ha

end

theorem insertAfterLast (hl : l.Pairwise fun a b => p b → p a) :
    Thinned hidden (insertAfterLast p x l) (insertAfterLast p x l') := by
  rw [insertAfterLast_eq_append hl,insertAfterLast_eq_append (hl.sublist h.sublist)]
  exact (h.filter p).append ((h.filter _).keep x)

theorem insertAfterLast_hidden (hx : hidden x) : Thinned hidden (Lib.insertAfterLast p x l) l' := by
  induction h with
  | nil => exact .skip hx .nil
  | keep a h ih =>
    rw [insertAfterLast_cons]
    split
    · exact ih.keep a
    · split
      · exact (h.skip hx).keep a
      · exact (h.keep a).skip hx
  | skip ha h ih =>
    rw [insertAfterLast_cons]
    split
    · exact ih.skip ha
    · split
      · exact (h.skip hx).skip ha
      · exact (h.skip ha).skip hx

theorem modifyLast_hidden (hl' : ∀ b ∈ l', ¬hidden b) (hg : ∀ a, l.findRev? p = some a → hidden a ∧ hidden (g a)) :
    Thinned hidden (Lib.modifyLast p g l) l' := by
  induction h with
  | nil => exact .nil
  | keep a h ih =>
    rw [Lib.modifyLast]
    split
    · next hany =>
      refine (ih (fun b hb => hl' b (mem_cons_of_mem a hb)) fun b hb => hg b ?_).keep a
      rwa [findRev?_cons,if_pos hany]
    · next hany =>
      split
      · next ha =>
        have hfi := hg a (by rw [findRev?_cons,if_neg hany,if_pos ha])
        exact absurd hfi.1 (hl' a (mem_cons_self ..))
      · exact h.keep a
  | @skip _ _ a ha h ih =>
    rw [Lib.modifyLast]
    split
    · next hany =>
      refine (ih hl' fun b hb => hg b ?_).skip ha
      rwa [findRev?_cons,if_pos hany]
    · next hany =>
      split
      · next hp => exact h.skip (hg a (by rw [findRev?_cons,if_neg hany,if_pos hp])).2
      · exact h.skip ha

end Thinned

end OxiSql.Lib
