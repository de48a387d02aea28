import OxiSql.Lib.BigEndian

namespace OxiSql.Postgres.Interval
open Lib List

abbrev Text := List Char

inductive IntervalError where
  | tooShort (bytes : Nat)
  | missing (what : String)
deriving DecidableEq

def digits (width n : Nat) : Text :=
  (Nat.toDigits 10 n).leftpad width '0'

/-- A number with leading zeros, where the sign counts for the width. -/
def padded (width : Nat) (n : Int) : Text :=
  if n < 0 then '-' :: digits (width - 1) n.natAbs else digits width n.natAbs

def unit (letter : Char) (n : Int) : List Text :=
  if n ≠ 0 then [padded 0 n ++ [letter]] else []

/-- Hours, minutes, seconds and microseconds; the last have no sign. -/
def fields (micros : Int) : Int × Int × Int × Nat :=
  let remMicros := micros.tmod 3600000000
  let remMicros2 := remMicros.tmod 60000000
  (micros.tdiv 3600000000, remMicros.tdiv 60000000, remMicros2.tdiv 1000000, (remMicros2.tmod 1000000).natAbs)

def time : Int × Int × Int × Nat → Text
  | (hours, minutes, secs, fracMicros) =>
    padded 2 hours ++ ':' :: (padded 2 minutes ++ ':' :: (padded 2 secs ++
      if 0 < fracMicros then '.' :: digits 6 fracMicros else []))

def units (days months : Int) : List Text :=
  unit 'Y' (months.tdiv 12) ++ unit 'M' (months.tmod 12) ++ unit 'D' days

def render (micros days months : Int) : Text :=
  let parts := units days months ++ if fields micros ≠ (0, 0, 0, 0) then [time (fields micros)] else []
  if parts = [] then "00:00:00".toList else [' '].intercalate parts

/-- What both decoders make of the first 16 bytes. -/
def renderBytes (raw : List UInt8) : Text :=
  render (ofSignedBytesBe (raw.take 8)) (ofSignedBytesBe ((raw.drop 8).take 4))
    (ofSignedBytesBe ((raw.drop 12).take 4))

def decodePgInterval (raw : List UInt8) : Except IntervalError Text :=
  if raw.length < 16 then .error (.tooShort raw.length) else .ok (renderBytes raw)

def decodeBinaryInterval (raw : List UInt8) : Except IntervalError Text :=
  if raw.length < 8 then .error (.missing "INTERVAL microseconds")
  else if raw.length < 12 then .error (.missing "INTERVAL days")
  else if raw.length < 16 then .error (.missing "INTERVAL months")
  else .ok (renderBytes raw)

structure PgInterval where
  micros : Int64
  days : Int32
  months : Int32
deriving DecidableEq

def PgInterval.encode (x : PgInterval) : List UInt8 :=
  signedBytesBe 8 x.micros.toInt ++ (signedBytesBe 4 x.days.toInt ++ signedBytesBe 4 x.months.toInt)

theorem isDigit_of_mem (h : c ∈ digits width n) : c.isDigit := by
  rw [digits,List.leftpad,mem_append] at h
  rcases h with h | h
  · rw [(mem_replicate.mp h).2]
    decide
  · exact Nat.isDigit_of_mem_toDigits (by decide) (by decide) h

theorem digits_inj (h : digits width n = digits width k) : n = k := by
  have hof : ∀ n, Nat.ofDigitChars 10 (digits width n) 0 = n := by
    intro n
    rw [digits,List.leftpad,Nat.ofDigitChars_append,Nat.ofDigitChars_replicate_zero,Nat.mul_zero,
      Nat.ofDigitChars_toDigits (by decide) (by decide)]
  rw [← hof n,h,hof]

theorem not_mem_digits (h : c.isDigit = false) : c ∉ digits width n :=
  fun hc => by simp [isDigit_of_mem hc] at h

theorem not_mem_padded (hd : c.isDigit = false) (hs : c ≠ '-') : c ∉ padded width n := by
  unfold padded
  split
  · exact not_mem_cons_of_ne_of_not_mem hs (not_mem_digits hd)
  · exact not_mem_digits hd

theorem padded_inj (h : padded width n = padded width k) : n = k := by
  unfold padded at h
  split at h <;> split at h
  · have := digits_inj (cons_inj_right '-' |>.mp h)
    omega
  · exact absurd (isDigit_of_mem (h ▸ mem_cons_self)) (by decide)
  · exact absurd (isDigit_of_mem (h ▸ mem_cons_self)) (by decide)
  · have := digits_inj h
    omega

theorem unit_inj (h : unit c n = unit c k) : n = k := by
  unfold unit at h
  split at h <;> split at h
  · exact padded_inj (append_cancel_right (singleton_inj.mp h))
  · cases h
  · cases h
  · omega

theorem append_cons_inj {c : Char} (h : l ++ c :: r = l' ++ c :: r') (hl : c ∉ l) (hl' : c ∉ l') : l = l' ∧ r = r' := by
  have hlen : l.length = l'.length := by
    simpa [idxOf_append_of_notMem hl,idxOf_append_of_notMem hl'] using congrArg (idxOf c) h
  obtain ⟨hle,hri⟩ := append_inj h hlen
  exact ⟨hle,(cons.inj hri).2⟩

theorem time_inj (h : time f = time g) : f = g := by
  obtain ⟨h1,m1,s1,f1⟩ := f
  obtain ⟨h2,m2,s2,f2⟩ := g
  have hno : ∀ {c n}, c = ':' ∨ c = '.' → c ∉ padded 2 n := by
    rintro _ n (rfl | rfl) <;> exact not_mem_padded rfl (by decide)
  obtain ⟨hho,h⟩ := append_cons_inj h (hno (by simp)) (hno (by simp))
  obtain ⟨hmi,h⟩ := append_cons_inj h (hno (by simp)) (hno (by simp))
  rw [padded_inj hho,padded_inj hmi]
  split at h <;> split at h
  · obtain ⟨hse,hfr⟩ := append_cons_inj h (hno (by simp)) (hno (by simp))
    rw [padded_inj hse,digits_inj hfr]
  · rw [append_nil] at h
    exact absurd (h ▸ by simp) (hno (c := '.') (n := s2) (by simp))
  · rw [append_nil] at h
    exact absurd (h ▸ by simp) (hno (c := '.') (n := s1) (by simp))
  · rw [append_nil,append_nil] at h
    rw [padded_inj h,show f1 = f2 by omega]

theorem fields_natCast (n : Nat) : fields n = (↑(n / 3600000000), ↑(n % 3600000000 / 60000000),
    ↑(n % 3600000000 % 60000000 / 1000000), n % 3600000000 % 60000000 % 1000000) :=
  rfl

theorem fields_neg : fields (-n) = (-(fields n).1, -(fields n).2.1, -(fields n).2.2.1, (fields n).2.2.2) := by
  simp [fields,Int.neg_tdiv,Int.neg_tmod]

theorem fields_eq_iff : fields m = fields n ↔ m = n ∨ m = -n ∧ n.natAbs < 1000000 := by
  obtain ⟨a,rfl | rfl⟩ := Int.eq_nat_or_neg m <;> obtain ⟨b,rfl | rfl⟩ := Int.eq_nat_or_neg n <;>
    simp only [fields_neg,fields_natCast,Prod.mk.injEq] <;> omega

/-- A character that is in no number and no time. -/
def Apart (c : Char) : Prop :=
  c.isDigit = false ∧ c ∉ ['-', ':', '.']

theorem Apart.not_mem_time (h : Apart c) : c ∉ time f := by
  obtain ⟨hd,hc⟩ := h
  simp only [mem_cons,not_mem_nil,or_false,not_or] at hc
  unfold time
  split
  split <;> simp [not_mem_padded hd hc.1,hc,not_mem_digits hd]

theorem Apart.filter_unit (h : Apart c) : (unit l n).filter (c ∈ ·) = if c = l then unit l n else [] := by
  have hno : c ∉ padded 0 n := not_mem_padded h.1 fun hc => h.2 (by simp [hc])
  unfold unit
  split <;> by_cases hcl : c = l <;> simp [hcl,hno]

/-- The time, which is left out if it is zero and something else is not. -/
def Last (m : Int) (last : List Text) : Prop :=
  last = [time (fields m)] ∨ last = [] ∧ fields m = (0, 0, 0, 0)

/-- Pieces are found again by their letters. -/
theorem Last.filter (h : Last m last) (hc : Apart c) : (units d k ++ last).filter (c ∈ ·) =
    (if c = 'Y' then unit 'Y' (k.tdiv 12) else []) ++ (if c = 'M' then unit 'M' (k.tmod 12) else []) ++
      if c = 'D' then unit 'D' d else [] := by
  have hla : last.filter (c ∈ ·) = [] := by
    rcases h with rfl | ⟨rfl,-⟩
    · simpa using hc.not_mem_time
    · rfl
  simp only [units,filter_append,hc.filter_unit,hla,append_nil]

theorem render_pieces (m d k : Int) :
    ∃ last, Last m last ∧ units d k ++ last ≠ [] ∧ render m d k = [' '].intercalate (units d k ++ last) := by
  unfold render
  by_cases hf : fields m = (0, 0, 0, 0)
  · simp only [hf,ne_eq,not_true_eq_false,if_false,append_nil]
    split
    · rename_i h
      rw [h]
      exact ⟨[time (fields m)],.inl rfl,by simp,by rw [hf]; rfl⟩
    · rename_i h
      exact ⟨[],.inr ⟨rfl,hf⟩,by simpa using h,by simp⟩
  · exact ⟨_,.inl rfl,by simp,by simp [hf]⟩

theorem render_inj (h : render m d k = render m' d' k') : k = k' ∧ d = d' ∧ fields m = fields m' := by
  obtain ⟨last,hla,hne,hre⟩ := render_pieces m d k
  obtain ⟨last',hla',hne',hre'⟩ := render_pieces m' d' k'
  have hap : Apart ' ' ∧ Apart 'Y' ∧ Apart 'M' ∧ Apart 'D' := by unfold Apart; decide
  have hno : ∀ {m d k last}, Last m last → ∀ p ∈ units d k ++ last, ' ' ∉ p := fun hla p hp => by
    simpa using filter_eq_nil_iff.mp (hla.filter hap.1) p hp
  have hpi := congrArg (splitOn ' ') (hre.symm.trans (h.trans hre'))
  rw [splitOn_intercalate _ (hno hla) hne,splitOn_intercalate _ (hno hla') hne'] at hpi
  have hfi := fun c (hc : Apart c) =>
    (hla.filter hc).symm.trans ((congrArg (List.filter (c ∈ ·)) hpi).trans (hla'.filter hc))
  have hda : d = d' := unit_inj (by simpa using hfi 'D' hap.2.2.2)
  have hye : k.tdiv 12 = k'.tdiv 12 := unit_inj (by simpa using hfi 'Y' hap.2.1)
  have hrm : k.tmod 12 = k'.tmod 12 := unit_inj (by simpa using hfi 'M' hap.2.2.1)
  have hmo : k = k' := by rw [← Int.tdiv_mul_add_tmod k 12,hye,hrm,Int.tdiv_mul_add_tmod]
  subst hda hmo
  refine ⟨rfl,rfl,?_⟩
  rcases hla with rfl | ⟨rfl,hf⟩ <;> rcases hla' with rfl | ⟨rfl,hf'⟩
  · exact time_inj (singleton_inj.mp (append_cancel_left hpi))
  · cases append_cancel_left hpi
  · cases append_cancel_left hpi
  · rw [hf,hf']

theorem decode_encode (x : PgInterval) :
    decodePgInterval x.encode = .ok (render x.micros.toInt x.days.toInt x.months.toInt) ∧
      decodeBinaryInterval x.encode = decodePgInterval x.encode := by
  have hmi : ofSignedBytesBe (signedBytesBe 8 x.micros.toInt) = x.micros.toInt :=
    ofSignedBytesBe_signedBytesBe (by have := x.micros.le_toInt; omega) (by have := x.micros.toInt_lt; omega)
  have h32 : ∀ n : Int32, ofSignedBytesBe (signedBytesBe 4 n.toInt) = n.toInt := fun n =>
    ofSignedBytesBe_signedBytesBe (by have := n.le_toInt; omega) (by have := n.toInt_lt; omega)
  constructor
  · simp [decodePgInterval,renderBytes,PgInterval.encode,drop_append,drop_eq_nil_of_le,take_of_length_le,hmi,h32]
  · simp [decodePgInterval,decodeBinaryInterval,PgInterval.encode]

/-- The text loses the sign of a time of less than a second, and nothing else. -/
theorem decoded_eq_iff (x y : PgInterval) :
    (decodePgInterval x.encode = decodePgInterval y.encode ↔ x.months = y.months ∧ x.days = y.days ∧
      (x.micros = y.micros ∨ x.micros.toInt = -y.micros.toInt ∧ y.micros.toInt.natAbs < 1000000)) ∧
    decodeBinaryInterval x.encode = decodePgInterval x.encode := by
  refine ⟨?_,(decode_encode x).2⟩
  rw [(decode_encode x).1,(decode_encode y).1,Except.ok.injEq,
    ← Int64.toInt_inj,← Int32.toInt_inj,← Int32.toInt_inj,← fields_eq_iff]
  constructor
  · exact render_inj
  · rintro ⟨hk,hd,hf⟩
    simp only [render,hk,hd,hf]

/-- Half a second, forward and back. -/
theorem halfSecond_unsigned : decodePgInterval (PgInterval.encode ⟨500000, 0, 0⟩) =
      .ok "00:00:00.500000".toList ∧
    decodePgInterval (PgInterval.encode ⟨-500000, 0, 0⟩) = .ok "00:00:00.500000".toList := by
  decide +kernel

end OxiSql.Postgres.Interval
