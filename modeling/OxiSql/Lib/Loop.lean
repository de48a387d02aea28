import Mathlib

namespace OxiSql.Lib

inductive Turn (σ ρ ε : Type) where
  | again (s : σ)
  | done (r : ρ)
  | fail (e : ε)

section
variable {σ ρ ε : Type}

def loop (body : σ → Turn σ ρ ε) : Nat → σ → Option (Except ε ρ)
  | 0, _ => none
  | fuel + 1, s =>
    match body s with
    | .again s' => loop body fuel s'
    | .done r => some (.ok r)
    | .fail e => some (.error e)

def Ends (body : σ → Turn σ ρ ε) (s : σ) (r : Except ε ρ) : Prop :=
  ∃ fuel, loop body fuel s = some r

abbrev Turns (body : σ → Turn σ ρ ε) : σ → σ → Prop :=
  Relation.ReflTransGen fun s s' => body s = .again s'

theorem Turns.one (h : body s = .again s') : Turns body s s' :=
  .single h

theorem Ends.done (h : body s = .done x) : Ends body s (.ok x) :=
  ⟨1,by simp [loop,h]⟩

theorem Ends.fail (h : body s = .fail e) : Ends body s (.error e) :=
  ⟨1,by simp [loop,h]⟩

theorem Ends.again (h : body s = .again s') (he : Ends body s' r) : Ends body s r := by
  obtain ⟨fuel,hr⟩ := he
  exact ⟨fuel + 1,by simpa [loop,h] using hr⟩

/-- Turns before a loop that ends do not change its result. -/
theorem Ends.of_turns (ht : Turns body s s') (he : Ends body s' r) : Ends body s r := by
  induction ht using Relation.ReflTransGen.head_induction_on with
  | refl => exact he
  | head h _ ih => exact ih.again h

/-- A loop that ends does so from every state it comes through. -/
theorem Ends.after_turns (ht : Turns body s s') (he : Ends body s r) : Ends body s' r := by
  induction ht with
  | refl => exact he
  | tail _ h ih =>
    obtain ⟨fuel,hr⟩ := ih
    cases fuel with
    | zero => cases hr
    | succ fuel => exact ⟨fuel,by simpa [loop,h] using hr⟩

theorem loop_mono (h : loop body n s = some r) (hle : n ≤ m) : loop body m s = some r := by
  induction n generalizing s m with
  | zero => cases h
  | succ n ih =>
    obtain ⟨m,rfl⟩ : ∃ k, m = k + 1 := ⟨m - 1,by omega⟩
    simp only [loop] at h ⊢
    split at h
    · exact ih h (by omega)
    · exact h
    · exact h

theorem Ends.unique (h : Ends body s r) (h' : Ends body s r') : r = r' := by
  obtain ⟨n,hn⟩ := h
  obtain ⟨m,hm⟩ := h'
  have hn' := loop_mono hn (Nat.le_max_left n m)
  have hm' := loop_mono hm (Nat.le_max_right n m)
  exact Option.some.inj (hn'.symm.trans hm')

end

end OxiSql.Lib
