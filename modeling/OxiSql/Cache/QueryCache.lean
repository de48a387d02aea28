import OxiSql.Lib.Quoting

namespace OxiSql.Cache
open Lib List

abbrev Text := List Char

def isAsciiWhitespace (c : Char) : Bool :=
  c = ' ' || c = '\t' || c = '\n' || c = '\r' || c = '\x0c'

/-- The loop of `normalise_query`. -/
def normaliseFrom : Bool → Text → Text
  | _, [] => []
  | prevWasSpace, c :: cs =>
    if isAsciiWhitespace c then
      if prevWasSpace then normaliseFrom true cs else ' ' :: normaliseFrom true cs
    else c.toUpper :: normaliseFrom false cs

def dropBlank (out : Text) : Text :=
  if out.getLast? = some ' ' then out.dropLast else out

def normaliseQuery (sql : Text) : Text :=
  dropBlank (normaliseFrom true sql)

/-- The map that the cache is. What it has no room for, and what is too old, it forgets at any time. -/
abbrev SqlQueryCache (R : Type) : Type := Text → Option R

namespace SqlQueryCache

variable {R E : Type} (cache : SqlQueryCache R)

def new : SqlQueryCache R := fun _ => none

def get (sql : Text) : Option R := cache (normaliseQuery sql)

def put (sql : Text) (result : R) : SqlQueryCache R := Function.update cache (normaliseQuery sql) (some result)

def forget (key : Text) : SqlQueryCache R := Function.update cache key none

def invalidate (sql : Text) : SqlQueryCache R := cache.forget (normaliseQuery sql)

/-- `run`, and `run_with_ttl`, which differs in when the result is forgotten. -/
def run (executor : Text → Except E R) (sql : Text) : Except E R × SqlQueryCache R :=
  match cache.get sql with
  | some cached => (.ok cached, cache)
  | none =>
    match executor sql with
    | .error e => (.error e, cache)
    | .ok result => (.ok result, cache.put sql result)

inductive Call where
  | run (sql : Text)
  | invalidate (sql : Text)
  | clear
  | forget (key : Text)

def step (executor : Text → Except E R) : Call → SqlQueryCache R
  | .run sql => (cache.run executor sql).2
  | .invalidate sql => cache.invalidate sql
  | .clear => new
  | .forget key => cache.forget key

end SqlQueryCache

/-- Where in a text the scanner is. It is at `opening` and `closing` for the second character of the marks of a
comment, and knows how much of the delimiter is to come at `dollar` and `ending`. -/
inductive Mode where
  | code
  | line
  | opening
  | block
  | closing
  | quoted (close : Char)
  | dollar (left : Nat) (delim : Text)
  | ending (left : Nat)
deriving DecidableEq

variable (d : Dialect)

def openQuotes (c : Char) (rest : Text) : Mode :=
  if c = '\'' ∨ c = '"' then .quoted c
  else
    match d.closing c, d.delimiter c rest with
    | some close, _ => .quoted close
    | none, some delim => .dollar (delim.length - 1) delim
    | none, none => .code

def Mode.next : Mode → Char → Text → Mode
  | .code, c, rest =>
    if c = '-' ∧ rest.head? = some '-' then .line
    else if c = '/' ∧ rest.head? = some '*' then .opening
    else openQuotes d c rest
  | .line, c, _ => if c = '\n' then .code else .line
  | .opening, _, _ => .block
  | .block, c, rest => if c = '*' ∧ rest.head? = some '/' then .closing else .block
  | .closing, _, _ => .code
  | .quoted close, c, _ => if c = close then .code else .quoted close
  | .dollar (left + 1) delim, _, _ => .dollar left delim
  | .dollar 0 delim, c, rest => if delim <+: c :: rest then .ending (delim.length - 1) else .dollar 0 delim
  | .ending left, _, _ => if left ≤ 1 then .code else .ending (left - 1)

inductive Lexeme where
  | gap
  | char (c : Char)
  | exact (c : Char)
deriving DecidableEq

def Mode.lexeme : Mode → Char → Text → Lexeme
  | .code, c, rest =>
    match Mode.code.next d c rest with
    | .code => if isAsciiWhitespace c then .gap else .char c.toUpper
    | .quoted _ | .dollar .. => .exact c
    | _ => .gap
  | .quoted _, c, _ | .dollar .., c, _ | .ending _, c, _ => .exact c
  | _, _, _ => .gap

def scan : Mode → Text → List Lexeme
  | _, [] => []
  | m, c :: cs => m.lexeme d c cs :: scan (m.next d c cs) cs

/-- One gap between what it is between. -/
def squeeze : (started pending : Bool) → List Lexeme → List Lexeme
  | _, _, [] => []
  | started, _, .gap :: ls => squeeze started true ls
  | started, pending, l :: ls => (if started && pending then [.gap, l] else [l]) ++ squeeze true false ls

/-- What a text says: quoted characters as they are, others in either case, and gaps for blanks and comments. -/
def meaning (sql : Text) : List Lexeme :=
  squeeze false false (scan d .code sql)

def Mode.isPlain : Mode → Bool
  | .code | .opening | .block | .closing => true
  | _ => false

/-- The scanner comes to no quotes and no comment to the end of a line. -/
def plainFrom : Mode → Text → Bool
  | _, [] => true
  | m, c :: cs => (m.next d c cs).isPlain && plainFrom (m.next d c cs) cs

def Plain (sql : Text) : Prop :=
  plainFrom d .code sql = true

variable {d}

/-- What `normaliseFrom` gives without a blank at the end. -/
def trimmed : Bool → Text → Text
  | _, [] => []
  | prevWasSpace, c :: cs =>
    if isAsciiWhitespace c then
      if prevWasSpace ∨ trimmed true cs = [] then trimmed true cs else ' ' :: trimmed true cs
    else c.toUpper :: trimmed false cs

theorem toUpper_cases (c : Char) : c.toUpper = c ∨
    65 ≤ c.toUpper.toNat ∧ c.toUpper.toNat ≤ 90 ∧ 97 ≤ c.toNat ∧ c.toNat ≤ 122 := by
  unfold Char.toUpper
  split
  case isTrue h =>
    have hlow : 97 ≤ c.val.toNat := h.1
    have hhi : c.val.toNat ≤ 122 := h.2
    have hsh : ('A'.val - 'a'.val).toNat = 4294967264 := rfl
    simp only [Char.toNat,UInt32.toNat_add]
    omega
  case isFalse => exact .inl rfl

theorem toUpper_eq_iff {c x : Char} (hx : x.toNat < 65 ∨ 90 < x.toNat ∧ x.toNat < 97) : c.toUpper = x ↔ c = x := by
  rcases toUpper_cases c with h | ⟨hlow,hhi,hc⟩
  · rw [h]
  · exact iff_of_false (fun h => by rw [h] at hlow hhi; omega) (fun h => by rw [h] at hc; omega)

theorem isAsciiWhitespace_toUpper : isAsciiWhitespace c.toUpper = isAsciiWhitespace c := by
  simp [isAsciiWhitespace,toUpper_eq_iff]

theorem normaliseFrom_head (s : Text) : (normaliseFrom true s).head? ≠ some ' ' := by
  induction s with
  | nil => simp [normaliseFrom]
  | cons c cs ih =>
    by_cases hc : isAsciiWhitespace c
    · simpa [normaliseFrom,hc] using ih
    · rw [normaliseFrom,if_neg hc,head?_cons]
      intro h
      rw [Option.some_inj,toUpper_eq_iff (by decide)] at h
      exact hc (h ▸ rfl)

theorem dropBlank_cons {l : Text} (hl : l ≠ []) : dropBlank (c :: l) = c :: dropBlank l := by
  simp only [dropBlank,getLast?_cons_of_ne_nil hl,dropLast_cons_of_ne_nil hl]
  split <;> rfl

theorem dropBlank_normaliseFrom (p : Bool) : dropBlank (normaliseFrom p s) = trimmed p s := by
  induction s generalizing p with
  | nil => rfl
  | cons c cs ih =>
    by_cases hc : isAsciiWhitespace c
    · cases p with
      | true => simpa [normaliseFrom,trimmed,hc] using ih true
      | false =>
        simp only [normaliseFrom,trimmed,hc,if_true,Bool.false_eq_true,if_false,← ih true]
        have hhe := normaliseFrom_head cs
        match h : normaliseFrom true cs with
        | [] => rfl
        | [d] =>
          rw [h,head?_cons] at hhe
          simp [dropBlank,hhe]
        | d :: e :: l => rw [dropBlank_cons (by simp),if_neg (by simp [dropBlank_cons])]
    · rw [normaliseFrom,trimmed,if_neg hc,if_neg hc,← ih false]
      cases h : normaliseFrom false cs with
      | nil =>
        have hne : c.toUpper ≠ ' ' := fun h => hc ((toUpper_eq_iff (by decide)).mp h ▸ rfl)
        simp [dropBlank,hne]
      | cons d l => rw [dropBlank_cons (by simp)]

theorem squeeze_pending (h : st = false ∨ pd = true) : squeeze st pd ls = squeeze st true ls := by
  rcases h with rfl | rfl
  · cases ls with
    | nil => rfl
    | cons l ls => cases l <;> rfl
  · rfl

theorem head?_trimmed (hx : x.toNat < 65) (hbl : isAsciiWhitespace x = false) :
    (trimmed false cs).head? = some x ↔ cs.head? = some x := by
  cases cs with
  | nil => rfl
  | cons c cs =>
    by_cases hc : isAsciiWhitespace c
    · have hne : c ≠ x := fun h => by rw [h,hbl] at hc; cases hc
      have hsp : ' ' ≠ x := fun h => by subst h; cases hbl
      by_cases hnil : trimmed true cs = [] <;> simp [trimmed,hc,hnil,hne,hsp]
    · simp [trimmed,hc,toUpper_eq_iff (.inl hx)]

theorem isDigit_toUpper (c : Char) : c.toUpper.isDigit = c.isDigit := by
  rcases toUpper_cases c with h | ⟨hlow,hhi,hc⟩
  · rw [h]
  · have hno : ∀ e : Char, 58 ≤ e.toNat → e.isDigit = false := by
      intro e he
      have hgt : ¬ e.val ≤ 57 := fun hle => absurd (UInt32.le_iff_toNat_le.mp hle) (Nat.not_le.mpr he)
      simp [Char.isDigit,hgt]
    rw [hno _ (by omega),hno _ (by omega)]

theorem isTagChar_toUpper (c : Char) : isTagChar c.toUpper = isTagChar c := by
  rcases toUpper_cases c with h | ⟨hlow,hhi,hclow,hchi⟩
  · rw [h]
  · have hup : c.toUpper.isUpper = true := by
      simp only [Char.isUpper,decide_eq_true_eq]
      exact ⟨UInt32.le_iff_toNat_le.mpr hlow,UInt32.le_iff_toNat_le.mpr hhi⟩
    have hlo : c.isLower = true := by
      simp only [Char.isLower,Bool.and_eq_true,decide_eq_true_eq]
      exact ⟨UInt32.le_iff_toNat_le.mpr hclow,UInt32.le_iff_toNat_le.mpr hchi⟩
    simp [isTagChar,Char.isAlphanum,Char.isAlpha,hlo]

theorem not_isTagChar_of_blank (h : isAsciiWhitespace c) : isTagChar c = false := by
  simp only [isAsciiWhitespace,Bool.or_eq_true,decide_eq_true_eq] at h
  rcases h with (((rfl | rfl) | rfl) | rfl) | rfl <;> decide

theorem tag_trimmed (cs : Text) :
    (trimmed false cs).takeWhile isTagChar = (cs.takeWhile isTagChar).map Char.toUpper ∧
      (((trimmed false cs).dropWhile isTagChar).head? = some '$' ↔ (cs.dropWhile isTagChar).head? = some '$') := by
  induction cs with
  | nil => exact ⟨rfl,Iff.rfl⟩
  | cons c cs ih =>
    by_cases hta : isTagChar c = true
    · have hbl : ¬ isAsciiWhitespace c := fun h => by simp [not_isTagChar_of_blank h] at hta
      simpa [trimmed,hbl,hta,isTagChar_toUpper] using ih
    · have hhead : ∀ e ∈ (trimmed false (c :: cs)).head?, isTagChar e = false := by
        by_cases hbl : isAsciiWhitespace c
        · by_cases hnil : trimmed true cs = [] <;> simp [trimmed,hbl,hnil]
          decide
        · simpa [trimmed,hbl,isTagChar_toUpper] using hta
      have hdo := @head?_trimmed '$' (c :: cs) (by decide) (by decide)
      cases htr : trimmed false (c :: cs) with
      | nil =>
        rw [htr] at hdo
        simpa [hta] using hdo
      | cons e es =>
        rw [htr] at hhead hdo
        simpa [hhead e rfl,hta] using hdo

theorem dollarTag_trimmed (cs : Text) : (dollarTag (trimmed false cs)).isSome = (dollarTag cs).isSome := by
  obtain ⟨htag,hdo⟩ := tag_trimmed cs
  have hdi : (((cs.takeWhile isTagChar).map Char.toUpper).head?.any Char.isDigit) =
      ((cs.takeWhile isTagChar).head?.any Char.isDigit) := by
    cases cs.takeWhile isTagChar with
    | nil => rfl
    | cons e es => exact isDigit_toUpper e
  simp only [dollarTag,htag,hdo,hdi]
  split <;> rfl

theorem openQuotes_code : openQuotes d c cs = .code ↔
    c ≠ '\'' ∧ c ≠ '"' ∧ d.closing c = none ∧ (c = '$' → d.dollars = true → (dollarTag cs).isSome = false) := by
  unfold openQuotes
  split
  · next hq => exact iff_of_false nofun fun h => hq.elim h.1 h.2.1
  · next hq =>
    obtain ⟨hsi,hdo⟩ := not_or.mp hq
    cases hcl : d.closing c with
    | some close => simp
    | none =>
      by_cases hd : c = '$' ∧ d.dollars
      · cases hta : dollarTag cs <;> simp [Dialect.delimiter,hd,hta]
      · simp only [Dialect.delimiter,if_neg hd,true_iff]
        exact ⟨hsi,hdo,trivial,fun hc hdol => absurd ⟨hc,hdol⟩ hd⟩

/-- Capitals and fewer blanks open no quotes. -/
theorem openQuotes_trimmed (h : openQuotes d c cs = .code) : openQuotes d c.toUpper (trimmed false cs) = .code := by
  rw [openQuotes_code] at h ⊢
  rw [dollarTag_trimmed]
  have hup : ∀ x ∈ ['\'','"','$','`','['], c.toUpper = x ↔ c = x := fun x hx => toUpper_eq_iff (by revert x; simp)
  simpa [Dialect.closing,hup] using h

theorem openQuotes_plain (h : (openQuotes d c cs).isPlain) : openQuotes d c cs = .code := by
  unfold openQuotes at h ⊢
  split
  · next hq =>
    rw [if_pos hq] at h
    cases h
  · next hq =>
    rw [if_neg hq] at h
    split at h
    · cases h
    · cases h
    · rfl

theorem next_blank {m : Mode} (hm : m = .code ∨ m = .block) (hc : isAsciiWhitespace c) :
    m.next d c cs = m ∧ m.lexeme d c cs = .gap := by
  simp only [isAsciiWhitespace,Bool.or_eq_true,decide_eq_true_eq] at hc
  rcases hm with rfl | rfl <;> rcases hc with (((rfl | rfl) | rfl) | rfl) | rfl <;>
    simp [Mode.next,Mode.lexeme,openQuotes,Dialect.closing,Dialect.delimiter,isAsciiWhitespace]

/-- Outside quotes a text in capitals with fewer blanks is scanned as the text. -/
theorem next_trimmed {m : Mode} (hm : m.isPlain) (hpl : (m.next d c cs).isPlain) :
    m.next d c.toUpper (trimmed false cs) = m.next d c cs ∧
      m.lexeme d c.toUpper (trimmed false cs) = m.lexeme d c cs := by
  have hma : ∀ x ∈ ['-','*','/'], (trimmed false cs).head? = some x ↔ cs.head? = some x :=
    fun x hx => head?_trimmed (by revert x; simp) (by revert x; simp [isAsciiWhitespace])
  have hup : ∀ x ∈ ['-','*','/'], c.toUpper = x ↔ c = x := fun x hx => toUpper_eq_iff (.inl (by revert x; simp))
  cases m with
  | line | quoted | dollar | ending => cases hm
  | opening | closing => exact ⟨rfl,rfl⟩
  | block => simp [Mode.next,Mode.lexeme,hup,hma]
  | code =>
    have hnext : Mode.code.next d c.toUpper (trimmed false cs) = Mode.code.next d c cs := by
      simp only [Mode.next,hup '-' (by simp),hup '/' (by simp),hma '-' (by simp),hma '*' (by simp)] at hpl ⊢
      split_ifs with hli hbl <;> try rfl
      rw [if_neg hli,if_neg hbl] at hpl
      have hco := openQuotes_plain hpl
      rw [hco,openQuotes_trimmed hco]
    refine ⟨hnext,?_⟩
    simp only [Mode.lexeme,hnext,Char.toUpper_toUpper_eq_toUpper,isAsciiWhitespace_toUpper]
    cases hmo : Mode.code.next d c cs with
    | quoted | dollar =>
      rw [hmo] at hpl
      cases hpl
    | _ => rfl

theorem next_plain {m : Mode} (hm : m.isPlain) (hpl : (m.next d c cs).isPlain) :
    (m.next d c cs = .opening ∨ m.next d c cs = .closing → cs.head?.any fun c => !isAsciiWhitespace c) ∧
      (m.next d c cs ≠ .code → m.lexeme d c cs = .gap) := by
  cases m with
  | line | quoted | dollar | ending => cases hm
  | opening | closing => simp [Mode.next,Mode.lexeme]
  | block =>
    simp only [Mode.lexeme,Mode.next]
    split_ifs <;> simp_all [isAsciiWhitespace]
  | code =>
    have hnext : Mode.code.next d c cs = .opening ∧ cs.head? = some '*' ∨ Mode.code.next d c cs = .code := by
      simp only [Mode.next] at hpl ⊢
      split_ifs at hpl ⊢ with hli hbl
      · cases hpl
      · exact .inl ⟨rfl,hbl.2⟩
      · exact .inr (openQuotes_plain hpl)
    rcases hnext with ⟨hop,hhe⟩ | hco
    · simp [Mode.lexeme,hop,hhe,isAsciiWhitespace]
    · simp [hco]

theorem squeeze_trimmed (hs : plainFrom d m s = true) (hm : m.isPlain)
    (hmark : m = .opening ∨ m = .closing → s.head?.any fun c => !isAsciiWhitespace c)
    (hco : m ≠ .code → pd = true) (hp : p = true → st = false ∨ pd = true) :
    squeeze st pd (scan d m (trimmed p s)) = squeeze st pd (scan d m s) := by
  induction s generalizing m p st pd with
  | nil => rfl
  | cons c cs ih =>
    obtain ⟨hpl,hs⟩ := Bool.and_eq_true_iff.mp hs
    by_cases hbl : isAsciiWhitespace c
    · have hm' : m = .code ∨ m = .block := by
        cases m <;> simp_all [Mode.isPlain]
      rw [(next_blank hm' hbl).1] at hs
      have hre : squeeze st true (scan d m (trimmed true cs)) = squeeze st true (scan d m cs) :=
        ih hs hm (by rcases hm' with rfl | rfl <;> simp) (fun _ => rfl) fun _ => .inr rfl
      rw [scan,(next_blank hm' hbl).1,(next_blank hm' hbl).2,squeeze,← hre,trimmed,if_pos hbl]
      split
      case isTrue h =>
        rcases h with h | h
        · exact squeeze_pending (hp h)
        · rw [h]
          rfl
      case isFalse h => rw [scan,(next_blank hm' rfl).1,(next_blank hm' rfl).2,squeeze]
    · obtain ⟨hmark,hgap⟩ := next_plain hm hpl
      have hup := next_trimmed hm hpl
      have hre : ∀ st pd, (m.next d c cs ≠ .code → pd = true) →
          squeeze st pd (scan d (m.next d c cs) (trimmed false cs)) =
            squeeze st pd (scan d (m.next d c cs) cs) := fun st pd h =>
        ih hs hpl hmark h nofun
      rw [trimmed,if_neg hbl,scan,scan,hup.1,hup.2]
      cases hl : m.lexeme d c cs with
      | gap => exact hre st true fun _ => rfl
      | char e | exact e =>
        rw [squeeze,squeeze,hre true false fun h => by simp [hgap h] at hl]
        all_goals nofun

theorem meaning_normaliseQuery (h : Plain d sql) : meaning d (normaliseQuery sql) = meaning d sql := by
  rw [normaliseQuery,dropBlank_normaliseFrom]
  exact squeeze_trimmed h rfl (by simp) (by simp) (by simp)

namespace SqlQueryCache

variable {R E : Type} {executor : Text → Except E R} {cache : SqlQueryCache R}

/-- What is kept are answers to texts that `p` holds of. -/
def Genuine (executor : Text → Except E R) (p : Text → Prop) (cache : SqlQueryCache R) : Prop :=
  ∀ key result, cache key = some result → ∃ sql, p sql ∧ normaliseQuery sql = key ∧ executor sql = .ok result

theorem Genuine.forget (h : cache.Genuine executor p) (key : Text) : (cache.forget key).Genuine executor p := by
  intro key' result hkey
  by_cases heq : key' = key
  · simp [SqlQueryCache.forget,heq] at hkey
  · exact h key' result (by simpa [SqlQueryCache.forget,heq] using hkey)

theorem Genuine.run (h : cache.Genuine executor p) (hsql : p sql) :
    (cache.run executor sql).2.Genuine executor p := by
  rw [SqlQueryCache.run]
  split
  · exact h
  · split
    · exact h
    · next result hre =>
      intro key result' hkey
      by_cases heq : key = normaliseQuery sql
      · subst heq
        simp only [put,Function.update_self,Option.some_inj] at hkey
        exact ⟨sql,hsql,rfl,hkey ▸ hre⟩
      · exact h key result' (by simpa [put,heq] using hkey)

def Call.Of (p : Text → Prop) : Call → Prop
  | .run sql => p sql
  | _ => True

def answer (sql : Text) : Except Unit (List Lexeme) := .ok (meaning ⟨true, true, true⟩ sql)

end SqlQueryCache

end OxiSql.Cache
