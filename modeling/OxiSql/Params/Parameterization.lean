import OxiSql.Params.Templates

namespace OxiSql.Templates
open Lib Params List

def TurnOf (s s' : Scan) : Prop :=
  ∃ c cs, s.rest = c :: cs ∧ s' = turn s c cs

abbrev Runs : Scan → Scan → Prop :=
  Relation.ReflTransGen TurnOf

variable {s : Scan}

theorem scanLoop_of_runs (h : Runs s s') (hend : s'.rest = []) (hfu : s.rest.length ≤ fuel) :
    scanLoop fuel s = s' := by
  induction h using Relation.ReflTransGen.head_induction_on generalizing fuel with
  | refl => cases fuel <;> simp [scanLoop,hend]
  | @head t _ htu _ ih =>
    obtain ⟨c,cs,hre,rfl⟩ := htu
    cases fuel with
    | zero => simp [hre] at hfu
    | succ fuel =>
      have hlen := cut_length t.before.getLast? (templateOf t.out) c cs
      rw [hre,length_cons] at hfu
      rw [scanLoop,hre]
      refine ih ?_
      simp only [turn,Scan.take]
      omega

/-- From `s` the loop goes through `text` to `rest`, and writes `mask` into the template. -/
def Scans (s : Scan) (text mask rest : List Char) : Prop :=
  ∃ s', Runs s s' ∧ s'.before = s.before ++ text ∧ s'.rest = rest ∧
    templateOf s'.out = templateOf s.out ++ mask

theorem templateOf_append : templateOf (out ++ out') = templateOf out ++ templateOf out' :=
  map_append

section

variable (hre : s.rest = c :: cs)
include hre

theorem Scans.turn (hcut : cut s.before.getLast? (templateOf s.out) c cs = (p,rest)) :
    Scans s p.text (templateOf p.slots) rest := by
  refine ⟨Templates.turn s c cs,.single ⟨c,cs,hre,rfl⟩,?_,?_,?_⟩ <;>
    simp [Templates.turn,hcut,Scan.take,templateOf_append]

theorem Scans.pass (hte : ∀ d ∈ text, isAscii d)
    (hcut : cut s.before.getLast? (templateOf s.out) c cs = passPiece text rest) :
    Scans s text text rest := by
  have h := Scans.turn hre hcut
  have hsl : templateOf (Piece.slots ⟨text,none⟩) = text := by
    simp [Piece.slots,latin_of_ascii hte,templateOf,Function.comp_def]
  rwa [hsl] at h

theorem Scans.literal {literal : List Char}
    (hcut : cut s.before.getLast? (templateOf s.out) c cs = (⟨text,some literal⟩,rest)) :
    Scans s text ['?'] rest :=
  Scans.turn hre hcut

end

theorem Scans.trans (h : Scans s text mask rest) (h' : ∀ s', s'.before = s.before ++ text → s'.rest = rest →
      templateOf s'.out = templateOf s.out ++ mask → Scans s' text' mask' rest') :
    Scans s (text ++ text') (mask ++ mask') rest' := by
  obtain ⟨s1,hru1,hbe1,hre1,hout1⟩ := h
  obtain ⟨s2,hru2,hbe2,hre2,hout2⟩ := h' s1 hbe1 hre1 hout1
  refine ⟨s2,hru1.trans hru2,?_,hre2,?_⟩
  · rw [hbe2,hbe1,append_assoc]
  · rw [hout2,hout1,append_assoc]

theorem isWordPart_of_ident (h : isIdentContinue c) : isWordPart c := by
  simp only [isIdentContinue,Char.isAlphanum,Bool.or_eq_true] at h
  rcases h with (h | h) | h <;> simp [isWordPart,isWordStart,h]

theorem ident_of_isWordPart (h : isWordPart c) (has : isAscii c) : isIdentContinue c := by
  simp only [isWordPart,isWordStart,has,Bool.not_true,Bool.or_false,Bool.or_eq_true] at h
  rcases h with (h | h) | h <;> simp [isIdentContinue,Char.isAlphanum,h]

theorem ident_of_toUpper (h : isIdentContinue c.toUpper) : isIdentContinue c := by
  by_cases hlo : 'a'.val ≤ c.val ∧ c.val ≤ 'z'.val
  · have : c.isLower := by simpa [Char.isLower] using hlo
    simp [isIdentContinue,Char.isAlphanum,Char.isAlpha,this]
  · rwa [Char.toUpper,dif_neg hlo] at h

theorem keywordAt_word {prev : Option Char} (hpr : prev.any isIdentContinue = false)
    (hwo : ∀ c ∈ word, isIdentContinue c)
    (hre : ∀ r, rest.head? = some r → isIdentContinue r = false)
    (hkey : ∀ k ∈ keyword, isIdentContinue k) :
    keywordAt prev (word ++ rest) keyword = true ↔ word.map Char.toUpper = keyword := by
  simp only [keywordAt,hpr,Bool.and_eq_true,beq_iff_eq,Bool.not_eq_eq_eq_not,Bool.not_true,and_true]
  constructor
  · rintro ⟨hta,hend⟩
    have hlen : keyword.length = word.length := by
      rcases Nat.lt_trichotomy keyword.length word.length with hlt | heq | hgt
      · -- the word goes on after the keyword
        rw [drop_append_of_le_length (by omega)] at hend
        obtain ⟨d,ds,hd⟩ := exists_cons_of_ne_nil
          (ne_nil_of_length_pos (l := word.drop keyword.length) (by simp; omega))
        have hmem : d ∈ word := mem_of_mem_drop (hd ▸ mem_cons_self)
        rw [hd] at hend
        simp [hwo d hmem] at hend
      · exact heq
      · -- the keyword goes on after the word
        cases rest with
        | nil =>
          have := congrArg List.length hta
          simp at this
          omega
        | cons r rest =>
          have hmem : r ∈ (word ++ r :: rest).take keyword.length := by
            rw [take_append]
            obtain ⟨k,hk⟩ : ∃ k, keyword.length - word.length = k + 1 :=
              ⟨keyword.length - word.length - 1,by omega⟩
            simp [hk]
          have hid := hkey r.toUpper (hta ▸ mem_map_of_mem hmem)
          have := hre r rfl
          simp [ident_of_toUpper hid] at this
    rw [hlen,take_left'] at hta
    · exact hta
    · rfl
  · rintro rfl
    simp only [length_map,take_left,drop_left,true_and]
    exact (Option.any_eq_false _ _).mpr hre

theorem keywordAt_inside {prev : Option Char} (hpr : prev.any isIdentContinue = true)
    (cs keyword : List Char) : keywordAt prev cs keyword = false := by
  simp [keywordAt,hpr]

theorem cut_letter {prev : Option Char} (template : List Char) (hc : isIdentContinue c) (hdi : ¬ c.isDigit)
    (hkey : ∀ keyword ∈ [nullText,trueText,falseText], keywordAt prev (c :: cs) keyword = false) :
    cut prev template c cs = passPiece [c] cs := by
  simp [cut,ne_of_isIdentContinue hc,hkey,hdi]

theorem scans_word_rest (hre : s.rest = word ++ rest)
    (hwo : ∀ c ∈ word, isIdentContinue c ∧ isAscii c ∧ ¬ c.isDigit)
    (hpr : s.before.getLast?.any isIdentContinue = true) : Scans s word word rest := by
  induction word generalizing s with
  | nil => exact ⟨s,.refl,by simp,hre,by simp⟩
  | cons c word ih =>
    obtain ⟨hid,has,hdi⟩ := hwo c (by simp)
    have hcut := cut_letter (templateOf s.out) hid hdi
      fun keyword _ => keywordAt_inside hpr (c :: (word ++ rest)) keyword
    have hone : Scans s [c] [c] (word ++ rest) := Scans.pass hre (by simpa using has) hcut
    refine hone.trans fun s' hbe hre' _ => ih hre' (fun d hd => hwo d (by simp [hd])) ?_
    rw [hbe]
    simpa using hid

/-- The first keyword that is found decides. -/
theorem cut_keyword {prev : Option Char} (template : List Char) (hc : isIdentContinue c)
    (hmem : keyword ∈ [nullText,trueText,falseText])
    (hkey : ∀ k ∈ [nullText,trueText,falseText], keywordAt prev (c :: cs) k = true ↔ k = keyword) :
    cut prev template c cs = keywordPiece keyword (c :: cs) := by
  obtain ⟨hmi,hsl,hqu,hdq,-⟩ := ne_of_isIdentContinue hc
  have hnu := hkey nullText (by decide)
  have htr := hkey trueText (by decide)
  have hfa := hkey falseText (by decide)
  simp only [cut,hmi,hsl,hqu,hdq,hnu,htr,hfa]
  simp only [mem_cons,not_mem_nil,or_false] at hmem
  rcases hmem with rfl | rfl | rfl <;> rfl

/-- The loop goes through a word, which is replaced if it is a literal. -/
theorem scans_word (hre : s.rest = c :: word ++ rest)
    (hwo : ∀ d ∈ c :: word, isIdentContinue d ∧ isAscii d ∧ ¬ d.isDigit)
    (hend : ∀ r, rest.head? = some r → isIdentContinue r = false)
    (hpr : s.before.getLast?.any isIdentContinue = false) :
    Scans s (c :: word) (Token.masked ⟨.word,c :: word⟩) rest := by
  have hkey : ∀ k ∈ [nullText,trueText,falseText],
      keywordAt s.before.getLast? (c :: (word ++ rest)) k = true ↔ k = (c :: word).map Char.toUpper := by
    intro k hk
    have hall : [nullText,trueText,falseText].all (List.all · isIdentContinue) = true := by decide
    have hid : ∀ d ∈ k, isIdentContinue d := all_eq_true.mp (all_eq_true.mp hall k hk)
    exact (keywordAt_word hpr (fun d hd => (hwo d hd).1) hend hid).trans eq_comm
  by_cases hlit : Token.isLiteral ⟨.word,c :: word⟩
  · have hmem : (c :: word).map Char.toUpper ∈ [nullText,trueText,falseText] := by
      simpa [Token.isLiteral] using hlit
    have hcut := cut_keyword (templateOf s.out) (hwo c (by simp)).1 hmem hkey
    rw [keywordPiece,length_map,← cons_append,take_left,drop_left] at hcut
    rw [Token.masked,if_pos hlit]
    exact Scans.literal hre hcut
  · have hnone : ∀ k ∈ [nullText,trueText,falseText],
        keywordAt s.before.getLast? (c :: (word ++ rest)) k = false := by
      intro k hk
      by_contra hfo
      have hup := (hkey k hk).mp (by simpa using hfo)
      exact hlit (by simpa [Token.isLiteral,hup] using hk)
    have hcut := cut_letter (templateOf s.out) (hwo c (by simp)).1 (hwo c (by simp)).2.2 hnone
    rw [Token.masked,if_neg hlit]
    have hone : Scans s [c] [c] (word ++ rest) :=
      Scans.pass hre (by simpa using (hwo c (by simp)).2.1) hcut
    refine hone.trans fun s' hbe hre' _ =>
      scans_word_rest hre' (fun d hd => hwo d (by simp [hd])) ?_
    rw [hbe]
    simpa using (hwo c (by simp)).1

theorem cut_other {prev : Option Char} (hid : ¬ isIdentContinue c) (hli : ¬ (c = '-' ∧ next cs '-'))
    (hbl : ¬ (c = '/' ∧ next cs '*')) (hst : c ≠ '\'') (hqu : c ≠ '"')
    (hmi : ¬ (c = '-' ∧ cs.head?.any Char.isDigit ∧ inValueContext template)) :
    cut prev template c cs = passPiece [c] cs := by
  have hkey : ∀ k ks, isIdentContinue k → keywordAt prev (c :: cs) (k :: ks) = false := by
    intro k ks hk
    refine keywordAt_of_ne (fun h => hid (ident_of_toUpper ?_))
    rwa [h]
  have hdi : ¬ c.isDigit := by
    intro hd
    exact hid (by simp [isIdentContinue,Char.isAlphanum,hd])
  simp [cut,if_neg hli,if_neg hbl,if_neg hst,if_neg hqu,if_neg hmi,if_neg hdi,nullText,
    trueText,falseText,hkey 'N' _ (by decide),hkey 'T' _ (by decide),hkey 'F' _ (by decide)]

theorem quotedBody_split : quotedBody cs = if (bodyUpTo '"' cs).2.head? = some '"' then
        ((bodyUpTo '"' cs).1 ++ '"' :: (quotedBody (bodyUpTo '"' cs).2.tail).1,
          (quotedBody (bodyUpTo '"' cs).2.tail).2)
      else bodyUpTo '"' cs := by
  fun_induction quotedBody cs with
  | case1 | case2 => rfl
  | case3 ds ih => simp [bodyUpTo]
  | case4 d ds hd => simp [bodyUpTo,hd]
  | case5 c cs hc ih =>
    rw [ih]
    simp only [bodyUpTo]
    split <;> rfl

theorem scans_quoted (hn : cs.length ≤ n) (hre : s.rest = '"' :: cs)
    (has : ∀ c ∈ (quotedBody cs).1, isAscii c) :
    Scans s ('"' :: (quotedBody cs).1) ('"' :: (quotedBody cs).1) (quotedBody cs).2 := by
  have hcut : cut s.before.getLast? (templateOf s.out) '"' cs =
      passPiece ('"' :: (bodyUpTo '"' cs).1) (bodyUpTo '"' cs).2 := by
    simp [cut]
  have hap := bodyUpTo_append '"' cs
  induction n generalizing s cs with
  | zero =>
    obtain rfl := length_eq_zero_iff.mp (Nat.le_zero.mp hn)
    have hqu : isAscii '"' := by decide
    exact Scans.pass hre (List.forall_mem_cons.mpr ⟨hqu,has⟩) hcut
  | succ n ih =>
    rw [quotedBody_split] at has ⊢
    split at has
    · next hdo =>
      obtain ⟨ds,hds⟩ := List.head?_eq_some_iff.mp hdo
      rw [hds] at has hcut hap ⊢
      simp only [List.tail_cons] at has ⊢
      have hfirst : Scans s ('"' :: (bodyUpTo '"' cs).1) ('"' :: (bodyUpTo '"' cs).1) ('"' :: ds) := by
        refine Scans.pass hre (fun c hc => ?_) hcut
        rcases mem_cons.mp hc with rfl | hc
        · decide
        · exact has c (by simp [hc])
      refine hfirst.trans fun s' _ hre' _ => ih ?_ hre' (fun c hc => has c (by simp [hc])) ?_ ?_
      · have := congrArg List.length hap
        simp at this
        omega
      · simp [cut]
      · exact bodyUpTo_append '"' ds
    · next hsi =>
      rw [if_neg hsi]
      refine Scans.pass hre (fun c hc => ?_) hcut
      rcases List.mem_cons.mp hc with rfl | hc
      · decide
      · exact has c hc

theorem exponent_cases (cs : List Char) :
    exponent cs = ([],cs) ∨ ∃ c ds, cs = c :: ds ∧ (c = 'e' ∨ c = 'E') := by
  cases cs with
  | nil => exact .inl rfl
  | cons c cs =>
    by_cases hc : c = 'e' ∨ c = 'E'
    · exact .inr ⟨c,cs,rfl,hc⟩
    · left
      rw [exponent,if_neg hc]

theorem nextToken_word (hid : isIdentContinue c) (hdi : ¬ c.isDigit) : (nextToken c cs).1.kind = .word := by
  have hst : isWordStart c := by
    have := isWordPart_of_ident hid
    simpa [isWordPart,hdi] using this
  simp [nextToken,ne_of_isIdentContinue hid,hdi,hst]

theorem numberText_eq
    (h : ∀ t ∈ (lex (numberText cs).2).head?, t.kind ≠ .word) : numberText cs = consumeNumber cs := by
  simp only [numberText] at h ⊢
  split at h
  · next hdi => rw [if_pos hdi]; rfl
  · rcases exponent_cases (fraction (cs.dropWhile Char.isDigit)).2 with hnone | ⟨e,ds,hcs,he⟩
    · simp [consumeNumber,hnone]
    · simp only [hcs,lex_cons,head?_cons,Option.mem_def,Option.some.injEq,forall_eq'] at h
      refine absurd (nextToken_word ?_ ?_) h <;> rcases he with rfl | rfl <;> decide

theorem Closed.blockBody (h : Closed rest cs body) : blockBody cs = (body,rest) := by
  induction h with
  | stop => simp [Templates.blockBody]
  | @more c cs body hop h ih =>
    cases cs with
    | nil => cases h
    | cons d cs =>
      have hnot : ¬ (c = '*' ∧ d = '/') := fun hcd => hop ⟨hcd.1,by simp [Params.next,hcd.2]⟩
      rw [Templates.blockBody,if_neg hnot,ih]

def Boundary (s : Scan) : Prop :=
  ∀ p, s.before.getLast? = some p → isIdentContinue p →
    ∀ r, s.rest.head? = some r → isIdentContinue r = false

theorem Boundary.prev (h : Boundary s) (hre : s.rest = c :: cs)
    (hc : isIdentContinue c) : s.before.getLast?.any isIdentContinue = false := by
  cases hlast : s.before.getLast? with
  | none => rfl
  | some p =>
    by_contra hp
    have := h p hlast (by simpa using hp) c (by rw [hre]; rfl)
    rw [hc] at this
    cases this

theorem not_ident {p : Prop} (hnu : ¬ (c.isDigit ∨ p)) (hwo : ¬ isWordStart c) : ¬ isIdentContinue c := by
  intro h
  have := isWordPart_of_ident h
  simp only [isWordPart,Bool.or_eq_true] at this
  exact this.elim hwo fun hd => hnu (.inl hd)

theorem isPair_second (h : isPair c d) :
    isAscii c ∧ ¬ isIdentContinue c ∧ c ≠ '-' ∧ c ≠ '/' ∧ isAscii d ∧ ¬ isIdentContinue d ∧
      d ≠ '-' ∧ d ≠ '/' ∧ d ≠ '\'' ∧ d ≠ '"' := by
  simp only [isPair,List.contains_cons,List.contains_nil,Bool.or_false,Bool.or_eq_true,
    beq_iff_eq,Prod.mk.injEq] at h
  rcases h with h | h | h | h | h | h <;> (rw [h.1,h.2]; decide)

theorem scans_token (hre : s.rest = c :: cs)
    (hreg : RegularToken (templateOf s.out) (nextToken c cs).1 (lex (nextToken c cs).2)) (hb : Boundary s) :
    Scans s (nextToken c cs).1.text (nextToken c cs).1.masked (nextToken c cs).2 := by
  revert hreg
  fun_cases nextToken c cs with
  | case1 h =>
    intro has
    exact Scans.pass hre has (by simp [cut,if_pos h])
  | case2 hli h body rest hcl =>
    intro has
    refine Scans.pass hre has ?_
    simp [cut,if_neg hli,if_pos h,(closed_of_closedComment hcl).blockBody]
  | case3 => exact fun hreg => hreg.elim
  | case4 hli hbl h =>
    intro _
    exact Scans.literal hre (by simp only [cut,if_neg hli,if_neg hbl,if_pos h]; rfl)
  | case5 hli hbl hst h =>
    intro has
    subst h
    exact scans_quoted (le_refl _) hre fun d hd => has d (by simp [hd])
  | case6 hli hbl hst hqu h =>
    rintro ⟨hhe,hnext⟩
    have hdig : c.isDigit := by
      have := nextToken_head c cs
      simp only [nextToken,if_neg hli,if_neg hbl,if_neg hst,if_neg hqu,if_pos h] at this
      simpa [this] using hhe
    rw [numberText_eq hnext]
    exact Scans.literal hre (cut_digit hdig)
  | case7 hli hbl hst hqu hnu hwo =>
    intro hreg
    have hpa : ∀ d ∈ c :: cs.takeWhile isWordPart, isWordPart d := by
      intro d hd
      rcases List.mem_cons.mp hd with rfl | hd
      · simp [isWordPart,hwo]
      · exact List.mem_takeWhile_imp hd
    have hid : ∀ d ∈ c :: cs.takeWhile isWordPart, isIdentContinue d :=
      fun d hd => ident_of_isWordPart (hpa d hd) (hreg d hd).1
    refine scans_word (by simpa using hre) (fun d hd => ⟨hid d hd,hreg d hd⟩) ?_
      (hb.prev hre (hid c (by simp)))
    intro r hr
    by_contra hc
    have := isWordPart_of_ident (by simpa using hc)
    rw [head_dropWhile hr] at this
    cases this
  | case8 => exact fun hreg => hreg.elim
  | case9 hli hbl hst hqu hnu hwo hmark hbla =>
    intro has
    have hid := not_ident hnu hwo
    refine Scans.pass hre has (cut_other hid hli hbl hst hqu ?_)
    rintro ⟨rfl,-⟩
    exact absurd hbla (by decide)
  | case10 hli hbl hst hqu hnu hwo hmark hbla =>
    have hid := not_ident hnu hwo
    fun_cases symbolToken c cs with
    | case1 =>
      rintro ⟨has,-⟩
      exact Scans.pass hre has (cut_other hid hli hbl hst hqu (by simp))
    | case2 d ds hpai =>
      rintro ⟨has,-⟩
      obtain ⟨hca,hci,hcm,hcs,hda,hdi,hdm,hds,hdq,hdd⟩ := isPair_second hpai
      have hfirst : Scans s [c] [c] (d :: ds) :=
        Scans.pass hre (by simpa using hca) (cut_other hid hli hbl hst hqu fun h => hcm h.1)
      refine hfirst.trans fun s' _ hre' _ => ?_
      exact Scans.pass hre' (by simpa using hda)
        (cut_other hdi (fun h => hdm h.1) (fun h => hds h.1) hdq hdd fun h => hdm h.1)
    | case3 d ds hpai =>
      rintro ⟨has,hmi⟩
      refine Scans.pass hre has (cut_other hid hli hbl hst hqu ?_)
      rintro ⟨rfl,hd,hva⟩
      refine hmi rfl ⟨(nextToken d ds).1,by simp [lex_cons],?_⟩ hva
      rw [nextToken_head]
      exact hd

theorem stringBody_last (h : (stringBody cs).2 ≠ []) : (stringBody cs).1.getLast? = some '\'' := by
  fun_induction stringBody cs with
  | case1 | case2 => exact absurd rfl h
  | case3 ds body rest hrec ih =>
    rw [hrec] at ih
    simp [List.getLast?_cons,ih h]
  | case4 => rfl
  | case5 c cs hc body rest hrec ih =>
    rw [hrec] at ih
    simp [List.getLast?_cons,ih h]

theorem quotedBody_last (h : (quotedBody cs).2 ≠ []) : (quotedBody cs).1.getLast? = some '"' := by
  fun_induction quotedBody cs with
  | case1 | case2 => exact absurd rfl h
  | case3 ds ih => simp [getLast?_cons,ih h]
  | case4 => rfl
  | case5 c cs hc ih => simp [getLast?_cons,ih h]

theorem Closed.getLast? (h : Closed rest cs body) : body.getLast? = some '/' := by
  induction h with
  | stop => rfl
  | more _ _ ih => simp [getLast?_cons,ih]

theorem numberText_rest (h : (numberText cs).2.head? = some r) : ¬ r.isDigit := by
  have hfr : ∀ ds : List Char, (∀ e, ds.head? = some e → ¬ e.isDigit) →
      ∀ e, (fraction ds).2.head? = some e → ¬ e.isDigit := by
    intro ds hds e he
    cases ds with
    | nil => simp [fraction] at he
    | cons d ds =>
      rw [fraction] at he
      split at he
      · simp [head_dropWhile he]
      · exact hds e he
  have hdr : ∀ ds : List Char, ∀ e, (ds.dropWhile Char.isDigit).head? = some e → ¬ e.isDigit :=
    fun ds e he => by simp [head_dropWhile he]
  simp only [numberText] at h
  split at h
  · rcases exponent_cases (fraction (cs.dropWhile Char.isDigit)).2 with hnone | ⟨e,ds,hcs,he⟩
    · rw [hnone] at h
      exact hfr _ (hdr cs) r h
    · rw [hcs,exponent,if_pos he] at h
      exact hdr _ r h
  · exact hfr _ (hdr cs) r h

theorem boundary_token (hreg : RegularToken before (nextToken c cs).1 (lex (nextToken c cs).2))
    (hp : (nextToken c cs).1.text.getLast? = some p) (hid : isIdentContinue p)
    (hr : (nextToken c cs).2.head? = some r) : isIdentContinue r = false := by
  have hne {l : List Char} (h : l.head? = some r) : l ≠ [] := by
    rintro rfl
    cases h
  revert hreg hp hr
  fun_cases nextToken c cs with
  | case1 =>
    intro _ _ hr
    obtain rfl : r = '\n' := by simpa using head_dropWhile hr
    decide
  | case2 _ _ body rest hcl =>
    intro _ hp _
    obtain rfl : '/' = p := by simpa [getLast?_cons,(closed_of_closedComment hcl).getLast?] using hp
    exact absurd hid (by decide)
  | case3 => exact fun hreg => hreg.elim
  | case4 =>
    intro _ hp hr
    obtain rfl : '\'' = p := by simpa [getLast?_cons,stringBody_last (hne hr)] using hp
    exact absurd hid (by decide)
  | case5 =>
    intro _ hp hr
    obtain rfl : '"' = p := by simpa [List.getLast?_cons,quotedBody_last (hne hr)] using hp
    exact absurd hid (by decide)
  | case6 =>
    rintro ⟨-,hnext⟩ _ hr
    by_contra hi
    obtain ⟨rs,hrs⟩ := List.head?_eq_some_iff.mp hr
    refine hnext (nextToken r rs).1 ?_ (nextToken_word (by simpa using hi) (numberText_rest hr))
    rw [hrs]
    rfl
  | case7 =>
    intro _ _ hr
    by_contra hi
    have := isWordPart_of_ident (by simpa using hi)
    rw [head_dropWhile hr] at this
    cases this
  | case8 => exact fun hreg => hreg.elim
  | case9 hli hbl hst hqu hnu hwo =>
    intro _ hp _
    obtain rfl : c = p := by simpa using hp
    exact absurd hid (not_ident hnu hwo)
  | case10 hli hbl hst hqu hnu hwo =>
    have hc := not_ident hnu hwo
    fun_cases symbolToken c cs with
    | case1 =>
      intro _ hp _
      obtain rfl : c = p := by simpa using hp
      exact absurd hid hc
    | case2 d ds hpa =>
      intro _ hp _
      obtain rfl : d = p := by simpa using hp
      exact absurd hid (isPair_second hpa).2.2.2.2.2.1
    | case3 d ds hpa =>
      intro _ hp _
      obtain rfl : c = p := by simpa using hp
      exact absurd hid hc

theorem scans_tokens (hn : s.rest.length ≤ n) (hreg : RegularTokens (templateOf s.out) (lex s.rest))
    (hb : Boundary s) : Scans s s.rest (maskedText (lex s.rest)) [] := by
  induction n generalizing s with
  | zero =>
    have hnil := List.length_eq_zero_iff.mp (Nat.le_zero.mp hn)
    rw [hnil]
    exact ⟨s,.refl,by simp,hnil,by simp [maskedText]⟩
  | succ n ih =>
    cases hre : s.rest with
    | nil => exact ⟨s,.refl,by simp,hre,by simp [maskedText]⟩
    | cons c cs =>
      rw [hre,lex_cons] at hreg
      obtain ⟨hto,htok⟩ := hreg
      have hlen := nextToken_length c cs
      have hone := scans_token hre hto hb
      rw [lex_cons,← nextToken_append c cs]
      refine hone.trans fun s' hbe hre' hout => ?_
      rw [← hre']
      rw [hre,List.length_cons] at hn
      refine ih (by rw [hre']; omega) (by rwa [hout,hre']) ?_
      intro p hp hid r hr
      rw [hbe,List.getLast?_append_of_ne_nil _ (nextToken_ne_nil c cs)] at hp
      rw [hre'] at hr
      exact boundary_token hto hp hid hr

theorem template_of_regular (h : Regular sql) :
    (parameterize sql).template = String.ofList (maskedText (lex sql.toList)) := by
  obtain ⟨s',hru,-,hre,hout⟩ :=
    scans_tokens (s := ⟨[],sql.toList,[],[]⟩) (le_refl _) h (by simp [Boundary])
  have hsc : scan sql.toList = s' := scanLoop_of_runs hru hre (le_refl _)
  simp only [parameterize,hsc,hout]
  rfl

theorem shapes_of_template (h : Regular sql) (h' : Regular sql')
    (heq : (parameterize sql).template = (parameterize sql').template) :
    shapes sql = shapes sql' := by
  rw [template_of_regular h,template_of_regular h'] at heq
  have hte := String.ofList_injective heq
  have hma := congrArg lex hte
  rw [lex_maskedText (le_refl _) h,lex_maskedText (le_refl _) h'] at hma
  exact shapes_of_marks h.no_placeholder h'.no_placeholder hma

/-- The literals put back into the template give the text exactly where it is exact; and regular texts
with one template have the same tokens up to their literals. -/
theorem parameterize_faithful (sql sql' : String) : (Reproduces sql ↔ Exact sql) ∧ (Regular sql → Regular sql' →
        (parameterize sql).template = (parameterize sql').template → shapes sql = shapes sql') :=
  ⟨reproduces_iff,shapes_of_template⟩

theorem lex_assignment (h : c ∈ ['5','7']) :
    lex ['a','=',c] = [⟨.word,['a']⟩,⟨.symbol,['=']⟩,⟨.number,[c]⟩] := by
  simp only [List.mem_cons,List.not_mem_nil,or_false] at h
  rcases h with rfl | rfl <;> decide

theorem regular_assignment (h : c ∈ ['5','7']) : Regular (String.ofList ['a','=',c]) := by
  rw [Regular,String.toList_ofList,lex_assignment h]
  revert c
  simp [RegularTokens,RegularToken,isAscii]

/-- `a=5` and `a=7` have one template, and the same tokens. -/
theorem parameterize_faithful_assignments : Exact (String.ofList ['a', '=', '5']) ∧
      shapes (String.ofList ['a', '=', '5']) = shapes (String.ofList ['a', '=', '7']) := by
  obtain ⟨hex,hsh⟩ :=
    parameterize_faithful (String.ofList ['a','=','5']) (String.ofList ['a','=','7'])
  refine ⟨hex.mp ?_,hsh (regular_assignment (by simp)) (regular_assignment (by simp))
    (by decide +kernel)⟩
  unfold Reproduces
  decide +kernel

/-- `null` comes back as `NULL`, and the tables `t1` and `t2` share a template. -/
theorem parameterize_conflates : ¬ Reproduces "a = null" ∧
      (parameterize "SELECT a FROM t1").template = (parameterize "SELECT a FROM t2").template ∧
      shapes "SELECT a FROM t1" ≠ shapes "SELECT a FROM t2" := by
  unfold Reproduces
  decide +kernel

end OxiSql.Templates
