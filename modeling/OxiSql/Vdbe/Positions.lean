import OxiSql.Types.Value
import OxiSql.Lib.Utf8

/-! The functions of texts that take or give positions. Arithmetic is checked, as in a debug build. -/

namespace OxiSql.Vdbe
open List OxiSql.Types Lib

def byteLength (s : List Char) : Nat :=
  (s.map Char.utf8Size).sum

/-- The text before the byte `n` and the text from it on, if a character starts there. -/
def splitAtByte : List Char → Nat → Option (List Char × List Char)
  | [], n => if n = 0 then some ([], []) else none
  | c :: s, n =>
    if n = 0 then some ([], c :: s)
    else if c.utf8Size ≤ n then (splitAtByte s (n - c.utf8Size)).map fun (t, u) => (c :: t, u)
    else none

/-- `&s[start..stop]`. -/
def slice (s : List Char) (start stop : Nat) : Except String (List Char) :=
  match (splitAtByte s stop).bind fun (t, _) => splitAtByte t start with
  | some (_, t) => .ok t
  | none => .error "byte index is not a char boundary"

def FitsI64 (n : Int) : Prop :=
  -2 ^ 63 ≤ n ∧ n < 2 ^ 63

instance (n : Int) : Decidable (FitsI64 n) :=
  inferInstanceAs (Decidable (_ ∧ _))

def i64 (n : Int) (operation : String) : Except String Int :=
  if FitsI64 n then .ok n else .error s!"attempt to {operation} with overflow"

/-- Where `pattern` first starts in `s`, if it occurs. -/
def position {α : Type} [DecidableEq α] (pattern s : List α) : Option Nat :=
  s.tails.findIdx? (pattern.isPrefixOf ·)

section
-- `to_string` of what is no text
variable (display : Value → List Char)

def toText : Value → List Char
  | .text s => s.toList
  | v => display v

def execLength : Value → Value
  | .blob blob => .integer blob.length
  | .null => .null
  | v => .integer (toText display v).length

def firstPosition (strLen start : Int) : Except String Int := do
  if start < 0 then
    let distance ← i64 (-start) "negate"
    return max (-2 ^ 63) (strLen - distance)
  return start - 1

def lastPosition (strLen first : Int) : Option Value → Except String Int
  | some (.integer length) => i64 (first + length) "add"
  | _ => .ok strLen

def execSubstring (strValue startValue : Value) (lengthValue : Option Value) : Except String Value :=
  match strValue, startValue with
  | .text s, .integer start => do
    let strLen : Int := byteLength s.toList
    let first ← firstPosition strLen start
    let last ← lastPosition strLen first lengthValue
    -- the smaller of the two is the start
    let t ← slice s.toList (max 0 (min (min first last) strLen)).toNat (max 0 (min (max first last) strLen)).toNat
    return .text (.ofList t)
  | _, _ => .ok .null

/-- `find` counts bytes, and `windows` does not take an empty window. -/
def execInstr (value pattern : Value) : Except String Value :=
  match value, pattern with
  | .null, _ | _, .null => .ok .null
  | .blob reg, .blob pattern =>
    if pattern = [] then .error "window size must be non-zero"
    else .ok (.integer ((position pattern reg).elim 0 (· + 1)))
  | value, pattern =>
    let reg := toText display value
    .ok (.integer ((position (toText display pattern) reg).elim 0 fun i => byteLength (reg.take i) + 1))

end

def startIndex (length : Nat) (start : Int) : Int :=
  if start < 0 then length + start else start - 1

/-- What `substr` is to select: from position `start` on, or from that many before the end, `length`
elements on or back, as far as there are any. -/
def substr {α : Type} (s : List α) (start : Int) : Option Int → List α
  | none => s.drop (startIndex s.length start).toNat
  | some length =>
    let first := startIndex s.length start
    (s.take (max first (first + length)).toNat).drop (min first (first + length)).toNat

/-- The two ends of the part, clipped, in elements of a sequence of that length. -/
def bounds (length : Nat) (start : Int) (len : Option Int) : Nat × Nat :=
  let first := startIndex length start
  let last := len.elim (length : Int) (first + ·)
  ((max 0 (min (min first last) length)).toNat, (max 0 (min (max first last) length)).toNat)

/-- Both ends are at one place counted in characters and in bytes; or the part is empty, and in bytes its place is
between two characters. -/
def Placed (s : List Char) (start : Int) (len : Option Int) : Prop :=
  let (i, j) := bounds s.length start len
  let (a, b) := bounds (byteLength s) start len
  byteLength (s.take i) = a ∧ byteLength (s.take j) = b ∨ i = j ∧ a = b ∧ ∃ k, byteLength (s.take k) = a

/-- The first position and the sum with the length are computed without overflow. -/
def NoOverflow (s : List Char) (start : Int) (len : Option Int) : Prop :=
  -2 ^ 63 < start ∧ ∀ n ∈ len, FitsI64 (startIndex (byteLength s) start + n)

theorem bounds_le (length : Nat) (start : Int) (len : Option Int) :
    (bounds length start len).1 ≤ (bounds length start len).2 ∧ (bounds length start len).2 ≤ length := by
  simp only [bounds]
  omega

/-- Clipping the bounds of a part changes nothing. -/
theorem drop_take_clip {α : Type} (s : List α) (start stop : Int) :
    (s.take (max 0 (min stop s.length)).toNat).drop (max 0 (min start s.length)).toNat =
      (s.take stop.toNat).drop start.toNat := by
  have hta : s.take (max 0 (min stop s.length)).toNat = s.take stop.toNat := take_eq_take_iff.mpr (by omega)
  rw [hta]
  by_cases hle : start ≤ s.length
  · rw [min_eq_left hle,(by omega : (max 0 start).toNat = start.toNat)]
  · rw [drop_eq_nil_of_le (by simp; omega),drop_eq_nil_of_le (by simp; omega)]

theorem substr_eq {α : Type} (s : List α) (start : Int) (len : Option Int) :
    substr s start len = (s.take (bounds s.length start len).2).drop (bounds s.length start len).1 := by
  rw [bounds,drop_take_clip]
  cases len with
  | none =>
    rw [substr,Option.elim_none,take_of_length_le (by omega)]
    by_cases hle : startIndex s.length start ≤ s.length
    · rw [min_eq_left hle]
    · rw [drop_eq_nil_of_le (by omega),drop_eq_nil_of_le (by omega)]
  | some n => rfl

theorem byteLength_cons : byteLength (c :: s) = c.utf8Size + byteLength s := rfl

theorem byteLength_append : byteLength (s ++ t) = byteLength s + byteLength t := by
  simp [byteLength]

theorem splitAtByte_eq_some : splitAtByte s n = some (t,u) ↔ t ++ u = s ∧ byteLength t = n := by
  induction s generalizing n t with
  | nil =>
    rw [splitAtByte,append_eq_nil_iff]
    constructor
    · intro h
      split at h
      · cases h
        exact ⟨⟨rfl,rfl⟩,by simp_all [byteLength]⟩
      · cases h
    · rintro ⟨⟨rfl,rfl⟩,rfl⟩
      rfl
  | cons c s ih =>
    have hpos := c.utf8Size_pos
    rw [splitAtByte]
    cases t with
    | nil =>
      constructor
      · intro h
        split at h
        · cases h
          exact ⟨rfl,by simp_all [byteLength]⟩
        · split at h <;> simp at h
      · rintro ⟨rfl,rfl⟩
        rfl
    | cons d t =>
      rw [cons_append,cons.injEq,byteLength_cons]
      constructor
      · intro h
        split at h
        · simp at h
        · split at h
          · obtain ⟨⟨t',u'⟩,hsp,heq⟩ := Option.map_eq_some_iff.mp h
            cases heq
            obtain ⟨hs,hn⟩ := ih.mp hsp
            exact ⟨⟨rfl,hs⟩,by omega⟩
          · cases h
      · rintro ⟨⟨rfl,hs⟩,hn⟩
        rw [if_neg (by omega),if_pos (by omega),ih.mpr ⟨hs,by omega⟩]
        rfl

theorem slice_eq_ok : slice s a b = .ok t ↔
    ∃ before rest, s = before ++ t ++ rest ∧ byteLength before = a ∧ byteLength (before ++ t) = b := by
  have hsp : slice s a b = .ok t ↔
      ∃ u rest before, splitAtByte s b = some (u,rest) ∧ splitAtByte u a = some (before,t) := by
    rw [slice]
    cases hb : splitAtByte s b with
    | none => simp
    | some pair =>
      obtain ⟨u,rest⟩ := pair
      cases ha : splitAtByte u a with
      | none => simp [ha]
      | some pair => simp [ha,Prod.ext_iff]
  rw [hsp]
  simp only [splitAtByte_eq_some]
  constructor
  · rintro ⟨u,rest,before,⟨hs,hb⟩,rfl,ha⟩
    exact ⟨before,rest,hs.symm,ha,hb⟩
  · rintro ⟨before,rest,hs,ha,hb⟩
    exact ⟨before ++ t,rest,before,⟨hs.symm,hb⟩,rfl,ha⟩

theorem firstPosition_eq (hst : -2 ^ 63 < start) (length : Nat) :
    firstPosition length start = .ok (startIndex length start) := by
  unfold firstPosition startIndex
  split
  · have hneg : i64 (-start) "negate" = .ok (-start) := if_pos ⟨by omega,by omega⟩
    rw [hneg]
    exact congrArg Except.ok (by omega : max (-2 ^ 63) (length - -start) = length + start)
  · rfl

theorem execSubstring_eq {s : String} (h : NoOverflow s.toList start len) :
    execSubstring (.text s) (.integer start) (len.map .integer) =
      (slice s.toList (bounds (byteLength s.toList) start len).1 (bounds (byteLength s.toList) start len).2).map
        fun t => .text (.ofList t) := by
  simp only [execSubstring,firstPosition_eq h.1]
  have hlast : lastPosition (byteLength s.toList) (startIndex (byteLength s.toList) start) (len.map .integer) =
      .ok (len.elim (byteLength s.toList : Int) (startIndex (byteLength s.toList) start + ·)) := by
    cases len with
    | none => rfl
    | some n => exact if_pos (h.2 n rfl)
  simp only [bind,Except.bind,hlast]
  rw [bounds]
  cases slice _ _ _ <;> rfl

theorem execSubstring_overflow {s : String} (h : ¬NoOverflow s.toList start len) :
    execSubstring (.text s) (.integer start) (len.map .integer) ≠ .ok v := by
  by_cases hst : -2 ^ 63 < start
  · have hno : ¬∀ n ∈ len, FitsI64 (startIndex (byteLength s.toList) start + n) := fun hall => h ⟨hst,hall⟩
    obtain ⟨n,hn,hfit⟩ : ∃ n ∈ len, ¬FitsI64 (startIndex (byteLength s.toList) start + n) := by simpa using hno
    have hlast : lastPosition (byteLength s.toList) (startIndex (byteLength s.toList) start) (some (.integer n)) =
      .error "attempt to add with overflow" := if_neg hfit
    cases hn
    simp only [execSubstring,firstPosition_eq hst,Option.map_some,bind,Except.bind,hlast]
    simp
  · have hneg : i64 (-start) "negate" = .error "attempt to negate with overflow" :=
      if_neg fun hfit => hst (by have := hfit.2; omega)
    simp only [execSubstring,firstPosition,(by omega : start < 0),hneg,bind,Except.bind]
    simp

/-- Texts whose characters have the same sizes are cut at the same places. -/
def SameSizes (s s' : List Char) : Prop :=
  s'.map Char.utf8Size = s.map Char.utf8Size

theorem SameSizes.length (h : SameSizes s s') : s'.length = s.length := by
  simpa using congrArg List.length h

theorem SameSizes.byteLength (h : SameSizes s s') : byteLength s' = byteLength s :=
  congrArg sum h

theorem SameSizes.take (h : SameSizes s s') (k : Nat) : SameSizes (s.take k) (s'.take k) := by
  rw [SameSizes,map_take,map_take,h]

/-- Every character has another of its size. -/
theorem exists_sameSize (c d : Char) : ∃ c', c'.utf8Size = c.utf8Size ∧ c' ≠ d := by
  have hpos := c.utf8Size_pos
  have hle := c.utf8Size_le_four
  have hpair : ∀ x y : Char, x.utf8Size = y.utf8Size → x ≠ y → c.utf8Size = x.utf8Size →
      ∃ c', c'.utf8Size = c.utf8Size ∧ c' ≠ d := by
    intro x y hsize hne hc
    by_cases hx : x = d
    · exact ⟨y,by omega,fun hy => hne (hx.trans hy.symm)⟩
    · exact ⟨x,hc.symm,hx⟩
  obtain h | h | h | h : c.utf8Size = 1 ∨ c.utf8Size = 2 ∨ c.utf8Size = 3 ∨ c.utf8Size = 4 := by omega
  · exact hpair 'a' 'b' rfl (by decide) h
  · exact hpair 'é' 'è' rfl (by decide) h
  · exact hpair '€' '₭' rfl (by decide) h
  · exact hpair '😀' '😁' rfl (by decide) h

theorem execSubstring_eq_ok {s : List Char} (h : NoOverflow s start len) :
    execSubstring (.text (.ofList s)) (.integer start) (len.map .integer) = .ok (.text (.ofList t)) ↔
      slice s (bounds (byteLength s) start len).1 (bounds (byteLength s) start len).2 = .ok t := by
  have heq := @execSubstring_eq start len (.ofList s) (by rwa [String.toList_ofList])
  rw [String.toList_ofList] at heq
  rw [heq]
  cases slice s _ _ with
  | error e => simp [Except.map]
  | ok t' => simp [Except.map,String.ofList_inj]

theorem take_append_part {α : Type} (s : List α) (h : i ≤ j) : s.take i ++ (s.take j).drop i = s.take j := by
  conv_rhs => rw [← take_append_drop i (s.take j),take_take,min_eq_left h]

theorem NoOverflow.sameSizes (h : NoOverflow s start len) (hsi : SameSizes s s') : NoOverflow s' start len := by
  rwa [NoOverflow,hsi.byteLength]

/-- The places in bytes and in characters agree, unless nothing is selected. -/
theorem placed_of_right (hov : NoOverflow s start len)
    (h : ∀ s', SameSizes s s' → execSubstring (.text (.ofList s')) (.integer start) (len.map .integer) =
      .ok (.text (.ofList (substr s' start len)))) : Placed s start len := by
  obtain ⟨hle,hlen⟩ := bounds_le s.length start len
  obtain ⟨before,rest,hs,ha,hb⟩ := slice_eq_ok.mp ((execSubstring_eq_ok hov).mp (h s rfl))
  simp only [Placed]
  rw [substr_eq] at hs hb
  generalize hij : bounds s.length start len = ij at *
  obtain ⟨i,j⟩ := ij
  generalize hpart : (s.take j).drop i = part at *
  have hpl : part.length = j - i := by
    rw [← hpart,length_drop,length_take,min_eq_left hlen]
  cases part with
  | nil =>
    refine .inr ⟨?_,?_,before.length,?_⟩
    · simp only [length_nil] at hpl
      omega
    · rw [← ha,← hb,append_nil]
    · rw [← ha]
      exact congrArg byteLength (by rw [hs,append_nil,take_left])
  | cons c part =>
    have hlt : i < j := by
      simp only [length_cons] at hpl
      omega
    have hbe : before.length = i := by
      by_contra hne
      -- another character at the place where the code begins
      obtain ⟨c',hsize,hc'⟩ := exists_sameSize c (s.getD i 'a')
      have hsi : SameSizes s (before ++ c' :: part ++ rest) := by
        rw [SameSizes]
        conv_rhs => rw [hs]
        simp [hsize]
      have hsl := (execSubstring_eq_ok (hov.sameSizes hsi)).mp (h _ hsi)
      have hend : byteLength (before ++ c' :: part) = (bounds (byteLength s) start len).2 := by
        rw [← hb,byteLength_append,byteLength_append,byteLength_cons,byteLength_cons,hsize]
      have hcut := slice_eq_ok.mpr ⟨before,rest,rfl,ha,hend⟩
      rw [hsi.byteLength,hcut,substr_eq,hsi.length,hij] at hsl
      have hhead := congrArg head? (Except.ok.inj hsl)
      rw [head?_cons,head?_drop,getElem?_take_of_lt hlt,append_assoc] at hhead
      have hsame : (before ++ (c' :: part ++ rest))[i]? = s[i]? := by
        rw [hs,append_assoc]
        rcases Nat.lt_or_ge i before.length with hlo | hhi
        · rw [getElem?_append_left hlo,getElem?_append_left hlo]
        · obtain ⟨n,hn⟩ : ∃ n, i - before.length = n + 1 := ⟨i - before.length - 1,by omega⟩
          rw [getElem?_append_right hhi,getElem?_append_right hhi,hn]
          rfl
      rw [hsame] at hhead
      exact hc' (by rw [getD_eq_getElem?_getD,← hhead,Option.getD_some])
    have htake : before = s.take i := by
      rw [← hbe,hs,append_assoc,take_left]
    refine .inl ⟨by rw [← ha,htake],?_⟩
    rw [← hb,htake,← hpart,take_append_part s hle]

/-- The text `substr` is to select, for a text and for every other that has its sizes. -/
theorem execSubstring_right_iff (s : List Char) (start : Int) (len : Option Int) :
    (∀ s', SameSizes s s' → execSubstring (.text (.ofList s')) (.integer start) (len.map .integer) =
        .ok (.text (.ofList (substr s' start len)))) ↔ NoOverflow s start len ∧ Placed s start len := by
  constructor
  · intro h
    have hov : NoOverflow s start len := by
      by_contra hov
      exact execSubstring_overflow (s := .ofList s) (by rwa [String.toList_ofList]) (h s rfl)
    exact ⟨hov,placed_of_right hov h⟩
  · rintro ⟨hov,hpl⟩ s' hsi
    obtain ⟨hle,hlen⟩ := bounds_le s.length start len
    rw [execSubstring_eq_ok (hov.sameSizes hsi),substr_eq,hsi.byteLength,hsi.length,slice_eq_ok]
    simp only [Placed] at hpl
    generalize bounds s.length start len = ij at *
    obtain ⟨i,j⟩ := ij
    simp only at hle hlen hpl ⊢
    rcases hpl with ⟨ha,hb⟩ | ⟨rfl,hab,k,hk⟩
    · refine ⟨s'.take i,s'.drop j,?_,?_,?_⟩
      · rw [take_append_part s' hle,take_append_drop]
      · rw [(hsi.take i).byteLength,ha]
      · rw [take_append_part s' hle,(hsi.take j).byteLength,hb]
    · have hnil : (s'.take i).drop i = [] := drop_eq_nil_of_le (length_take_le ..)
      refine ⟨s'.take k,s'.drop k,?_,?_,?_⟩
      · rw [hnil,append_nil,take_append_drop]
      · rw [(hsi.take k).byteLength,hk]
      · rw [hnil,append_nil,(hsi.take k).byteLength,hk,hab]

theorem position_eq_none {α : Type} [DecidableEq α] {p s : List α} : position p s = none ↔ ¬p <:+: s := by
  simp only [position,findIdx?_eq_none_iff,mem_tails,infix_iff_prefix_suffix,not_exists,not_and']
  refine forall₂_congr fun t _ => ?_
  rw [← Bool.not_eq_true, isPrefixOf_iff_prefix]

theorem position_eq_some {α : Type} [DecidableEq α] {p s : List α} (h : position p s = some i) :
    i ≤ s.length ∧ p <+: s.drop i ∧ ∀ j < i, ¬p <+: s.drop j := by
  obtain ⟨hi,hp,hno⟩ := findIdx?_eq_some_iff_getElem.mp h
  simp only [getElem_tails, isPrefixOf_iff_prefix] at hp hno
  rw [length_tails] at hi
  exact ⟨Nat.le_of_lt_succ hi,hp,hno⟩

/-- What `instr` is to return: 0 if the pattern does not occur, and otherwise the least position at which `substr`
has it. -/
def IsInstr {α : Type} (p s : List α) (result : Except String Value) : Prop :=
  ∃ k : Int, result = .ok (.integer k) ∧ (k = 0 ↔ ¬p <:+: s) ∧
    (k ≠ 0 → IsLeast {k | 1 ≤ k ∧ substr s k (some p.length) = p} k)

theorem substr_eq_iff {α : Type} {p s : List α} (k : Nat) :
    substr s (k + 1) (some p.length) = p ↔ p <+: s.drop k := by
  have hst : startIndex s.length (k + 1) = k := by
    rw [startIndex]
    omega
  rw [substr,hst,(by omega : (max (k : Int) (k + p.length)).toNat = k + p.length),
    (by omega : (min (k : Int) (k + p.length)).toNat = k),drop_take,Nat.add_sub_cancel_left,prefix_iff_eq_take,
    eq_comm]

/-- One more than the place of the first occurrence. -/
theorem isInstr_iff {α : Type} [DecidableEq α] {p s : List α} {k : Int} :
    IsInstr p s (.ok (.integer k)) ↔ k = (position p s).elim 0 fun i => (i : Int) + 1 := by
  cases hpo : position p s with
  | none =>
    have hno := position_eq_none.mp hpo
    constructor
    · rintro ⟨_,heq,hze,-⟩
      cases heq
      exact hze.mpr hno
    · rintro rfl
      exact ⟨0,rfl,iff_of_true rfl hno,fun h => absurd rfl h⟩
  | some i =>
    obtain ⟨hi,hpre,hmin⟩ := position_eq_some hpo
    have hin : p <:+: s := hpre.isInfix.trans (drop_suffix i _).isInfix
    have hleast : IsLeast {k : Int | 1 ≤ k ∧ substr s k (some p.length) = p} (i + 1) := by
      refine ⟨⟨by omega,(substr_eq_iff i).mpr hpre⟩,?_⟩
      rintro k ⟨hk,heq⟩
      by_contra hlt
      obtain ⟨j,rfl⟩ : ∃ j : Nat, k = j + 1 := ⟨(k - 1).toNat,by omega⟩
      exact hmin j (by omega) ((substr_eq_iff j).mp heq)
    rw [Option.elim_some]
    constructor
    · rintro ⟨_,heq,hze,hle⟩
      cases heq
      exact (hle fun h0 => hze.mp h0 hin).unique hleast
    · rintro rfl
      exact ⟨_,rfl,iff_of_false (by omega) (not_not_intro hin),fun _ => hleast⟩

theorem byteLength_eq_length_iff {s : List Char} : byteLength s = s.length ↔ ∀ c ∈ s, isAscii c := by
  have hle : ∀ s : List Char, s.length ≤ byteLength s := by
    intro s
    induction s with
    | nil => exact le_rfl
    | cons c s ih =>
      have := c.utf8Size_pos
      rw [byteLength_cons,length_cons]
      omega
  induction s with
  | nil => exact iff_of_true rfl (by simp)
  | cons c s ih =>
    have hpos := c.utf8Size_pos
    have hs := hle s
    have hone : c.utf8Size = 1 ↔ isAscii c := by
      rw [Char.utf8Size_eq_one_iff,isAscii,decide_eq_true_iff]
      exact Nat.lt_succ_iff.symm
    have hall : (∀ d ∈ c :: s, isAscii d) ↔ c.utf8Size = 1 ∧ byteLength s = s.length :=
      forall_mem_cons.trans (and_congr hone.symm ih.symm)
    rw [hall,byteLength_cons,length_cons]
    omega

/-- `substr` and `instr` count bytes, `length` counts characters. `substr` is right for a text, and for every text whose
characters have the same sizes, where the places agree; `instr` where all before the first occurrence is ASCII. A blob
has no part, and no place for an empty pattern. -/
theorem positions_agree (display : Value → List Char) (s p : List Char) (start : Int) (len : Option Int)
    (blob pattern : List UInt8) :
    ((∀ s', SameSizes s s' → execSubstring (.text (.ofList s')) (.integer start) (len.map .integer) =
        .ok (.text (.ofList (substr s' start len)))) ↔ NoOverflow s start len ∧ Placed s start len) ∧
    (IsInstr p s (execInstr display (.text (.ofList s)) (.text (.ofList p))) ↔
      ∀ i, position p s = some i → ∀ c ∈ s.take i, isAscii c) ∧
    execLength display (.text (.ofList p)) = .integer p.length ∧
    execSubstring (.blob blob) (.integer start) (len.map .integer) ≠ .ok (.blob (substr blob start len)) ∧
    (IsInstr pattern blob (execInstr display (.blob blob) (.blob pattern)) ↔ pattern ≠ []) := by
  refine ⟨execSubstring_right_iff s start len,?_,?_,by simp [execSubstring],?_⟩
  · simp only [execInstr,toText,String.toList_ofList]
    rw [isInstr_iff]
    cases hpo : position p s with
    | none => simp
    | some i =>
      have hle := (position_eq_some hpo).1
      have hta : (s.take i).length = i := by rw [length_take,min_eq_left hle]
      simp only [Option.elim_some,Option.some.injEq,forall_eq',← byteLength_eq_length_iff]
      omega
  · simp [execLength,toText]
  · rw [execInstr]
    split
    · next h => exact iff_of_false (by rintro ⟨k,hk,-⟩; cases hk) (not_not_intro h)
    · next h =>
      rw [isInstr_iff]
      refine iff_of_true ?_ h
      cases position pattern blob <;> simp

/-- A character of two bytes cannot be cut in half, a position after it is one too high, and blobs have
no parts and no empty window. -/
theorem characters_are_not_bytes :
    execSubstring (.text "é") (.integer 1) (some (.integer 1)) = .error "byte index is not a char boundary" ∧
    execInstr (fun _ => []) (.text "éa") (.text "a") = .ok (.integer 3) ∧
    execSubstring (.text "a") (.integer 2) (some (.integer (2 ^ 63 - 1))) =
      .error "attempt to add with overflow" ∧
    execSubstring (.blob [1]) (.integer 1) none = .ok .null ∧
    execInstr (fun _ => []) (.blob [1]) (.blob []) = .error "window size must be non-zero" :=
  ⟨rfl,rfl,rfl,rfl,rfl⟩

end OxiSql.Vdbe
