import OxiSql.Lib.BigEndian

namespace OxiSql.Lib
open List

/-- The length counts its own four bytes, and not the tag. -/
def wire (tag : UInt8) (body : List UInt8) : List UInt8 :=
  tag :: (bytesBe 4 (body.length + 4) ++ body)

inductive Cut where
  | more
  | malformed
  | frame (tag : UInt8) (body rest : List UInt8)
deriving DecidableEq

/-- `limit` bounds the lengths that are taken. -/
def cut (limit : Nat) : List UInt8 → Cut
  | tag :: b₀ :: b₁ :: b₂ :: b₃ :: rest =>
    let len := ofBytesBe [b₀, b₁, b₂, b₃]
    if len < 4 ∨ limit ≤ len then .malformed
    else if rest.length < len - 4 then .more
    else .frame tag (rest.take (len - 4)) (rest.drop (len - 4))
  | _ => .more

/-- Reads on until a message is whole. A read of no bytes is the end of the stream. -/
def nextFrame (limit : Nat) : List (List UInt8) → List UInt8 → Cut × List (List UInt8)
  | [], buf => (cut limit buf, [])
  | chunk :: chunks, buf =>
    match cut limit buf with
    | .more => if chunk = [] then (.more, chunks) else nextFrame limit chunks (buf ++ chunk)
    | done => (done, chunk :: chunks)

def Cut.followedBy (more : List UInt8) : Cut → Cut
  | .frame tag body rest => .frame tag body (rest ++ more)
  | c => c

theorem cut_wire (hlen : body.length + 4 < limit) (hli : limit ≤ 2 ^ 32) :
    cut limit (wire tag body ++ rest) = .frame tag body rest := by
  have hva : ofBytesBe (bytesBe 4 (body.length + 4)) = body.length + 4 :=
    (ofBytesBe_bytesBe).trans (Nat.mod_eq_of_lt (by omega))
  simp only [bytesBe,digitsBe,nil_append,cons_append,map_cons,map_nil] at hva
  simp [wire,cut,bytesBe,digitsBe,hva,hlen]

/-- What is cut off stays so when more bytes come. -/
theorem cut_append (hbuf : cut limit buf ≠ .more) (more : List UInt8) :
    cut limit (buf ++ more) = (cut limit buf).followedBy more := by
  revert hbuf
  fun_cases cut limit buf
  case case1 hlen => exact fun _ => if_pos hlen
  case case2 => exact fun h => absurd rfl h
  case case3 tag b0 b1 b2 b3 rest len hlen hre =>
    intro _
    have hle : len - 4 ≤ rest.length := Nat.not_lt.mp hre
    have hwh : ¬(rest ++ more).length < len - 4 := by rw [length_append]; omega
    refine (if_neg hlen).trans ((if_neg hwh).trans ?_)
    rw [Cut.followedBy,← take_append_of_le_length hle,← drop_append_of_le_length hle]
    rfl
  case case4 => exact fun h => absurd rfl h

/-- Where the reads cut the stream does not matter. -/
theorem nextFrame_eq (hchunks : [] ∉ chunks) :
    (nextFrame limit chunks buf).1.followedBy (nextFrame limit chunks buf).2.flatten =
        cut limit (buf ++ chunks.flatten) ∧ [] ∉ (nextFrame limit chunks buf).2 := by
  fun_induction nextFrame limit chunks buf with
  | case1 buf =>
    rw [flatten_nil,append_nil]
    exact ⟨by cases cut limit buf <;> simp [Cut.followedBy],hchunks⟩
  | case2 buf chunks hmo => exact absurd mem_cons_self hchunks
  | case3 chunk chunks buf hmo hch ih =>
    have hnext := ih fun h => hchunks (mem_cons_of_mem _ h)
    rwa [append_assoc] at hnext
  | case4 chunk chunks buf hdo => exact ⟨(cut_append hdo _).symm,hchunks⟩

section
variable {chunks : List (List UInt8)} (hchunks : [] ∉ chunks)
include hchunks

theorem nextFrame_wire (hlen : body.length + 4 < limit) (hli : limit ≤ 2 ^ 32)
    (hby : buf ++ chunks.flatten = wire tag body ++ rest) :
    ∃ buf' chunks', nextFrame limit chunks buf = (.frame tag body buf',chunks') ∧
      buf' ++ chunks'.flatten = rest ∧ [] ∉ chunks' := by
  obtain ⟨hcut,hchunks'⟩ := nextFrame_eq hchunks
  rw [hby,cut_wire hlen hli] at hcut
  generalize nextFrame limit chunks buf = next at hcut hchunks' ⊢
  rcases next with ⟨_ | _ | ⟨tag,body,buf'⟩,chunks'⟩ <;> cases hcut
  exact ⟨buf',chunks',rfl,rfl,hchunks'⟩

theorem nextFrame_none (hcut : cut limit (buf ++ chunks.flatten) = c)
    (hc : c = .more ∨ c = .malformed) : ∃ chunks', nextFrame limit chunks buf = (c,chunks') := by
  have hnext := (nextFrame_eq hchunks).1.trans hcut
  generalize nextFrame limit chunks buf = next at hnext ⊢
  rcases next with ⟨_ | _ | _,chunks'⟩ <;> rcases hc with rfl | rfl <;> cases hnext <;> exact ⟨chunks',rfl⟩

end

end OxiSql.Lib
