import OxiSql.Params.SqlTokens

namespace OxiSql.Templates
open Lib Params List Token

/-- A masked text `T` in the place of the text `rest`. -/
structure Follows (rest T : List Char) : Prop where
  nil : rest = [] → T = []
  head : ∀ h, T.head? = some h → ¬ h.isDigit ∧ (h = '?' ∨ rest.head? = some h)
  newline : rest.head? = some '\n' → T.head? = some '\n'

variable {p : Char → Bool}

theorem Follows.head_not (h : Follows rest T) (hmark : p '?' = false)
    (hre : ∀ r, rest.head? = some r → p r = false) : ∀ r, T.head? = some r → p r = false := by
  intro r hr
  rcases (h.head r hr).2 with rfl | hsa
  · exact hmark
  · exact hre r hsa

theorem takeWhile_stop (cs : List Char) (hT : ∀ r, T.head? = some r → p r = false) :
    (cs.takeWhile p ++ T).takeWhile p = cs.takeWhile p ∧ (cs.takeWhile p ++ T).dropWhile p = T := by
  have hte : ∀ c ∈ cs.takeWhile p, p c = true := fun _ hc => mem_takeWhile_imp hc
  rw [takeWhile_append_of_pos hte,dropWhile_append_of_pos hte]
  cases T with
  | nil => simp
  | cons r T => simp [hT r rfl]

variable {cs : List Char}

theorem head_dropWhile (h : (cs.dropWhile p).head? = some r) : p r = false := by
  have := head?_dropWhile_not p cs
  rw [h] at this
  simpa using this

theorem Closed.closedComment_stop (h : Closed rest cs body) (T : List Char) :
    closedComment (body ++ T) = some (body,T) := by
  induction h with
  | stop => rfl
  | more hop h ih =>
    rw [cons_append,closedComment,if_neg,ih]
    · rfl
    · cases h with
      | stop => exact fun hcl => by simp [Params.next] at hcl
      | more => exact hop

theorem quotedBody_stop (hnil : (quotedBody cs).2 = [] → T = [])
    (hT : T.head? ≠ some '"') : quotedBody ((quotedBody cs).1 ++ T) = ((quotedBody cs).1,T) := by
  fun_induction quotedBody cs with
  | case1 | case2 => rw [hnil rfl]; rfl
  | case3 ds ih =>
    have := ih hnil
    simp [quotedBody,this]
  | case4 d ds hd =>
    cases T with
    | nil => rfl
    | cons r T =>
      have hr : r ≠ '"' := fun h => hT (by rw [h]; rfl)
      simp [quotedBody,hr]
  | case5 c cs hc ih =>
    rw [quotedBody.eq_def]
    simp [hc,ih hnil]

theorem quotedBody_rest : (quotedBody cs).2.head? ≠ some '"' := by
  fun_induction quotedBody cs <;> simp_all

theorem nextToken_digit (h : c.isDigit) : (nextToken c cs).1.kind = .number := by
  have hid : isIdentContinue c := by simp [isIdentContinue,Char.isAlphanum,h]
  simp [nextToken,ne_of_isIdentContinue hid,h]

theorem symbolToken_stop (hT : Follows (symbolToken c cs).2 T) :
    symbolToken c ((symbolToken c cs).1.text.tail ++ T) = ((symbolToken c cs).1,T) := by
  fun_cases symbolToken c cs with
  | case1 =>
    rw [hT.nil rfl]
    rfl
  | case2 d ds hpa => simp [symbolToken,hpa]
  | case3 d ds hpa =>
    cases T with
    | nil => rfl
    | cons r T =>
      rw [symbolToken,if_neg hpa] at hT
      have hr : isPair c r = false :=
        hT.head_not (by simp [isPair]) (fun e he => by cases he; simpa using hpa) r rfl
      simp [symbolToken,hr]

theorem nextToken_symbol (hli : ¬ (c = '-' ∧ next cs '-'))
    (hbl : ¬ (c = '/' ∧ next cs '*')) (hst : c ≠ '\'') (hqu : c ≠ '"')
    (hnu : ¬ (c.isDigit ∨ (c = '.' ∧ cs.head?.any Char.isDigit))) (hwo : ¬ isWordStart c)
    (hmark : ¬ (c = '?' ∨ (c = '$' ∧ cs.head?.any Char.isDigit))) (hbla : ¬ isBlank c) :
    nextToken c cs = symbolToken c cs := by
  rw [nextToken,if_neg hli,if_neg hbl,if_neg hst,if_neg hqu,if_neg hnu,if_neg hwo,if_neg hmark,if_neg hbla]

theorem symbolToken_head
    (hT : Follows (symbolToken c cs).2 T) (hpa : ∀ d, isPair c d = false) (hmark : p '?' = false)
    (hcs : ∀ r, cs.head? = some r → p r = false) :
    ∀ r, ((symbolToken c cs).1.text.tail ++ T).head? = some r → p r = false := by
  revert hT
  fun_cases symbolToken c cs with
  | case1 => exact fun hT => hT.head_not hmark hcs
  | case2 d ds h => exact fun _ => absurd h (by simp [hpa])
  | case3 d ds h => exact fun hT => hT.head_not hmark hcs

variable {ts : List Token}

theorem nextToken_stop (hreg : RegularToken before (nextToken c cs).1 ts) (hT : Follows (nextToken c cs).2 T)
    (hlit : (nextToken c cs).1.isLiteral = false) :
    nextToken c ((nextToken c cs).1.text.tail ++ T) = ((nextToken c cs).1,T) := by
  revert hreg hT hlit
  fun_cases nextToken c cs with
  | case1 h =>
    intro _ hT _
    obtain ⟨rfl,hnext⟩ := h
    obtain ⟨ds,rfl⟩ := next_iff.mp hnext
    have hda : decide ('-' ≠ '\n') = true := by decide
    have hend : ∀ r, T.head? = some r → decide (r ≠ '\n') = false := by
      intro r hr
      cases hre : (ds.dropWhile (· ≠ '\n')).head? with
      | none =>
        rw [hT.nil (List.head?_eq_none_iff.mp hre)] at hr
        cases hr
      | some e =>
        have he : decide (e ≠ '\n') = false := head_dropWhile hre
        obtain rfl : e = '\n' := by simpa using he
        rw [hT.newline hre] at hr
        cases hr
        decide
    have hst := takeWhile_stop ds hend
    rw [nextToken,if_pos (by simp [Params.next])]
    simp only [List.tail_cons,List.cons_append,List.takeWhile_cons,List.dropWhile_cons,hda,if_true]
    rw [hst.1,hst.2]
  | case2 hli h body rest hcl =>
    obtain ⟨rfl,hnext⟩ := h
    have hcl' := (closed_of_closedComment hcl).closedComment_stop T
    rw [nextToken,if_neg (by simp),if_pos (by simp [Params.next])]
    simp [hcl']
  | case3 => exact fun hreg => hreg.elim
  | case4 => exact fun _ _ hlit => by simp [isLiteral] at hlit
  | case5 hli hbl hstr hqu =>
    intro _ hT _
    have hhe : T.head? ≠ some '"' := by
      intro hh
      rcases (hT.head _ hh).2 with h | h
      · simp at h
      · exact quotedBody_rest h
    subst hqu
    simp [nextToken,quotedBody_stop hT.nil hhe]
  | case6 => exact fun _ _ hlit => by simp [isLiteral] at hlit
  | case7 hli hbl hstr hqu hnu hwo =>
    intro _ hT _
    have hend := hT.head_not (p := isWordPart) (by decide) fun r hr => head_dropWhile hr
    have hst := takeWhile_stop cs hend
    have hne : ∀ d : Char, ¬ isWordStart d → c ≠ d := fun d hd he => hd (he ▸ hwo)
    have hdi : ¬ c.isDigit := fun hd => hnu (.inl hd)
    simp [nextToken,hne '-' (by decide),hne '/' (by decide),hstr,hqu,hdi,hne '.' (by decide),hwo,hst.1,hst.2]
  | case8 => exact fun hreg => hreg.elim
  | case9 hli hbl hstr hqu hnu hwo hmark hbla =>
    have hne : ∀ d : Char, ¬ isBlank d → c ≠ d := fun d hd he => hd (he ▸ hbla)
    have hdi : ¬ c.isDigit := fun hd => hnu (.inl hd)
    simp [nextToken,hne '-' (by decide),hne '/' (by decide),hne '.' (by decide),
      hne '?' (by decide),hne '$' (by decide),hstr,hqu,hdi,hwo,hbla]
  | case10 hli hbl hstr hqu hnu hwo hmark hbla =>
    intro _ hT _
    have hdi : ¬ c.isDigit := fun hd => hnu (.inl hd)
    -- a minus, a slash, a dot or a dollar is followed by what followed it in the text, or by a mark
    have haf : ∀ (d : Char) (p : Char → Bool), (∀ e, isPair d e = false) → p '?' = false →
        (c = d → cs.head?.any p = false) →
        ¬ (c = d ∧ ((symbolToken c cs).1.text.tail ++ T).head?.any p) := by
      rintro d p hpa hmark hcs ⟨rfl,hp⟩
      have hhe := symbolToken_head hT hpa hmark fun r hr => by simpa [hr] using hcs rfl
      rw [(Option.any_eq_false _ _).mpr hhe] at hp
      cases hp
    have hnext : ∀ ds d, Params.next ds d = ds.head?.any (· == d) := by
      intro ds d
      cases ds with
      | nil => simp [Params.next]
      | cons e ds => by_cases he : e = d <;> simp [Params.next,he]
    rw [nextToken_symbol ?_ ?_ hstr hqu ?_ hwo ?_ hbla,symbolToken_stop hT]
    · rw [hnext]
      exact haf '-' _ (by simp [isPair]) (by decide) fun h => by simpa [h,hnext] using hli
    · rw [hnext]
      exact haf '/' _ (by simp [isPair]) (by decide) fun h => by simpa [h,hnext] using hbl
    · rintro (hd | hdot)
      · exact hdi hd
      · exact haf '.' _ (by simp [isPair]) (by decide) (fun h => by simpa [h] using hnu) hdot
    · rintro (hq | hdo)
      · exact hmark (.inl hq)
      · exact haf '$' _ (by simp [isPair]) (by decide) (fun h => by simpa [h] using hmark) hdo

/-- A literal in a masked text is read as a placeholder. -/
def Token.mark (t : Token) : Token :=
  if t.isLiteral then ⟨.placeholder, ['?']⟩ else t

def maskedText (ts : List Token) : List Char :=
  ts.flatMap masked

theorem masked_ne_nil : (nextToken c cs).1.masked ≠ [] := by
  unfold masked
  split
  · simp
  · exact nextToken_ne_nil c cs

theorem masked_head : ((nextToken c cs).1.masked ++ T).head? =
      some (if (nextToken c cs).1.isLiteral then '?' else c) := by
  rw [head?_append_of_ne_nil _ (masked_ne_nil)]
  unfold masked
  split
  · rfl
  · exact nextToken_head c cs

theorem follows_maskedText (cs : List Char) : Follows cs (maskedText (lex cs)) := by
  cases cs with
  | nil => exact ⟨fun _ => rfl,by simp [maskedText],by simp⟩
  | cons c cs =>
    rw [lex_cons,maskedText,flatMap_cons]
    refine ⟨by simp,fun h hh => ?_,fun hne => ?_⟩
    · rw [masked_head] at hh
      obtain rfl := Option.some.inj hh
      split
      · exact ⟨by decide,.inl rfl⟩
      · next hlit =>
        refine ⟨fun hdi => hlit ?_,.inr rfl⟩
        simp [isLiteral,nextToken_digit hdi]
    · obtain rfl : c = '\n' := by simpa using hne
      rfl

theorem nextToken_mark (h : ∀ r, T.head? = some r → ¬ r.isDigit) :
    nextToken '?' T = (⟨.placeholder,['?']⟩,T) := by
  cases T with
  | nil => decide
  | cons r T => simp [nextToken,isWordStart,h r rfl,show isAscii '?' by decide]

theorem lex_maskedText (hn : cs.length ≤ n) (h : RegularTokens before (lex cs)) :
    lex (maskedText (lex cs)) = (lex cs).map mark := by
  induction n generalizing before cs with
  | zero =>
    obtain rfl := length_eq_zero_iff.mp (Nat.le_zero.mp hn)
    rfl
  | succ n ih =>
    cases cs with
    | nil => rfl
    | cons c cs =>
      have hlen := nextToken_length c cs
      rw [lex_cons] at h
      obtain ⟨hto,hre⟩ := h
      have hfo := follows_maskedText (nextToken c cs).2
      have hrec := ih (by simp only [length_cons] at hn; omega) hre
      rw [lex_cons,maskedText,flatMap_cons,map_cons,← hrec]
      by_cases hlit : (nextToken c cs).1.isLiteral = true
      · have hmark := nextToken_mark fun r hr => (hfo.head r hr).1
        rw [masked,mark,if_pos hlit,if_pos hlit,singleton_append,lex_cons,← maskedText,hmark]
      · have hst := nextToken_stop hto hfo (by simpa using hlit)
        have hte : (nextToken c cs).1.text = c :: (nextToken c cs).1.text.tail := by
          have hhe := nextToken_head c cs
          cases hte : (nextToken c cs).1.text with
          | nil => rw [hte] at hhe; cases hhe
          | cons d ds =>
            rw [hte] at hhe
            cases hhe
            rfl
        rw [masked,mark,if_neg hlit,if_neg hlit,hte,cons_append,lex_cons,← maskedText,hst]

/-- Equal marks are of equal shapes, as a regular text has no placeholders of its own. -/
theorem shape_of_mark {t t' : Token} (ht : t.kind ≠ .placeholder) (ht' : t'.kind ≠ .placeholder)
    (h : t.mark = t'.mark) : t.shape = t'.shape ∧ (t.kind = .blank ↔ t'.kind = .blank) := by
  unfold mark at h
  unfold shape
  split at h <;> split at h
  · next hlit hlit' =>
    refine ⟨by rw [if_pos hlit,if_pos hlit'],?_⟩
    constructor
    · intro hbl
      simp [isLiteral,hbl] at hlit
    · intro hbl
      simp [isLiteral,hbl] at hlit'
  · exact absurd (by rw [← h]) ht'
  · exact absurd (by rw [h]) ht
  · subst h
    exact ⟨rfl,Iff.rfl⟩

theorem RegularTokens.no_placeholder (h : RegularTokens before ts) : ∀ t ∈ ts, t.kind ≠ .placeholder := by
  induction ts generalizing before with
  | nil => simp
  | cons t ts ih =>
    obtain ⟨hto,hre⟩ := h
    intro t' ht'
    rcases mem_cons.mp ht' with rfl | ht'
    · intro hki
      simp [RegularToken,hki] at hto
    · exact ih hre t' ht'

theorem shapes_of_marks {ts' : List Token} (hts : ∀ t ∈ ts, t.kind ≠ .placeholder)
    (hts' : ∀ t ∈ ts', t.kind ≠ .placeholder) (h : ts.map mark = ts'.map mark) :
    (ts.filter fun t => t.kind ≠ .blank).map shape = (ts'.filter fun t => t.kind ≠ .blank).map shape := by
  induction ts generalizing ts' with
  | nil =>
    obtain rfl := map_eq_nil_iff.mp h.symm
    rfl
  | cons t ts ih =>
    cases ts' with
    | nil => cases h
    | cons t' ts' =>
      simp only [map_cons,List.cons.injEq] at h
      have hrec := ih (fun u hu => hts u (by simp [hu])) (fun u hu => hts' u (by simp [hu])) h.2
      obtain ⟨hsh,hbl⟩ := shape_of_mark (hts t (by simp)) (hts' t' (by simp)) h.1
      by_cases hb : t.kind = .blank
      · simpa [hb,hbl.mp hb] using hrec
      · have hb' : t'.kind ≠ .blank := fun h' => hb (hbl.mpr h')
        simpa [hb,hb',hsh] using hrec

end OxiSql.Templates
