import OxiSql.Params.Placeholders

namespace OxiSql.Params
open Lib List Piece

def TurnOf (s s' : Scan) : Prop :=
  ∃ ch rest, s.rest = ch :: rest ∧ s' = turn s ch rest

abbrev Runs : Scan → Scan → Prop :=
  Relation.ReflTransGen TurnOf

theorem turn_runs (h : Runs (turn ⟨state,ch :: rest,out,names⟩ ch rest) s) :
    Runs ⟨state,ch :: rest,out,names⟩ s :=
  .head ⟨ch,rest,rfl,rfl⟩ h

theorem advanceIdentifier_length (cs : List Char) : (advanceIdentifier cs).2.length ≤ cs.length := by
  have h := congrArg List.length (advanceIdentifier_append cs)
  rw [length_append] at h
  omega

theorem turn_length (s : Scan) (ch : Char) (rest : List Char) : (turn s ch rest).rest.length ≤ rest.length := by
  have hid := advanceIdentifier_length rest
  have hdr := (dropWhile_sublist (l := rest) Char.isDigit).length_le
  unfold turn
  split
  · repeat' split
    all_goals simp [Scan.emit]
  · exact Nat.le_refl _
  · exact Nat.le_refl _
  · split <;> simp [Scan.emit]
  · unfold normalTurn
    repeat' split
    all_goals simp_all [Scan.emit,Scan.placeholder]

theorem scanLoop_of_runs (h : Runs s s') (hend : s'.rest = []) (hfu : s.rest.length ≤ fuel) :
    scanLoop fuel s = s' := by
  induction h using Relation.ReflTransGen.head_induction_on generalizing fuel with
  | refl => cases fuel <;> simp [scanLoop,hend]
  | @head t _ htu _ ih =>
    obtain ⟨ch,rest,hre,rfl⟩ := htu
    cases fuel with
    | zero => simp [hre] at hfu
    | succ fuel =>
      have hlen := turn_length t ch rest
      rw [hre,length_cons] at hfu
      rw [scanLoop,hre]
      exact ih (by omega)

/-- From a state inside a quote or a comment the scanner copies the body; unless the text is then at
its end, it is outside again. -/
structure Copies (state : ScanState) (cs body rest out : List Char) (names : List String) : Prop where
  runs : ∃ after, Runs ⟨state, cs, out, names⟩ ⟨after, rest, out ++ body, names⟩ ∧
    (after = .normal ∨ rest = [])

theorem Copies.nil (state : ScanState) (out : List Char) (names : List String) :
    Copies state [] [] [] out names :=
  ⟨state,by rw [append_nil],.inr rfl⟩

theorem Copies.close (h : turn ⟨state,c :: cs,out,names⟩ c cs = ⟨.normal,rest,out ++ body,names⟩) :
    Copies state (c :: cs) body rest out names :=
  ⟨.normal,turn_runs (h ▸ .refl),.inl rfl⟩

theorem Copies.more (text : List Char)
    (h : turn ⟨state,c :: cs,out,names⟩ c cs = ⟨state,cs',out ++ text,names⟩)
    (hre : Copies state cs' body rest (out ++ text) names) :
    Copies state (c :: cs) (text ++ body) rest out names := by
  obtain ⟨after,hru,haf⟩ := hre.runs
  refine ⟨after,turn_runs (h ▸ ?_),haf⟩
  rwa [append_assoc] at hru

theorem copies_string (cs out : List Char) :
    Copies .inSingleQuote cs (stringBody cs).1 (stringBody cs).2 out names := by
  fun_induction stringBody cs generalizing out with
  | case1 => exact .nil _ _ _
  | case2 => exact .close (by simp [turn,next,Scan.emit])
  | case3 ds body rest hrec ih =>
    rw [hrec] at ih
    exact .more ['\'','\''] (by simp [turn,next,Scan.emit]) (ih _)
  | case4 d ds hd => exact .close (by simp [turn,next,hd,Scan.emit])
  | case5 c cs hc body rest hrec ih =>
    rw [hrec] at ih
    exact .more [c] (by simp [turn,hc,Scan.emit]) (ih _)

theorem copies_upTo (state : ScanState) (hturn : ∀ c cs out, turn ⟨state,c :: cs,out,names⟩ c cs =
      ⟨if c = close then .normal else state,cs,out ++ [c],names⟩) (cs out : List Char) :
    Copies state cs (bodyUpTo close cs).1 (bodyUpTo close cs).2 out names := by
  induction cs generalizing out with
  | nil => exact .nil _ _ _
  | cons c cs ih =>
    by_cases hc : c = close
    · rw [bodyUpTo,if_pos hc]
      exact .close (by rw [hturn,if_pos hc])
    · rw [bodyUpTo,if_neg hc]
      exact .more [c] (by rw [hturn,if_neg hc]) (ih _)

theorem copies_blockComment (cs out : List Char) :
    Copies .inBlockComment cs (commentBody cs).1 (commentBody cs).2 out names := by
  induction cs generalizing out with
  | nil => exact .nil _ _ _
  | cons c cs ih =>
    by_cases hc : c = '*' ∧ next cs '/'
    · rw [commentBody]
      exact .close (by simp [turn,if_pos hc,Scan.emit])
    · rw [commentBody,if_neg hc]
      exact .more [c] (by simp [turn,if_neg hc,Scan.emit]) (ih _)

def writePiece (names : List String) : Piece → List Char × List String
  | .text cs => (cs, names)
  | .placeholder _ name =>
    (positional (assignIndex names (String.ofList name)).1, (assignIndex names (String.ofList name)).2)

def writePieces : List String → List Piece → List Char × List String
  | names, [] => ([], names)
  | names, p :: ps =>
    ((writePiece names p).1 ++ (writePieces (writePiece names p).2 ps).1,
      (writePieces (writePiece names p).2 ps).2)

/-- From outside quotes and comments the scanner writes a piece. -/
structure Writes (cs : List Char) (piece : Piece) (rest out : List Char) (names : List String) : Prop where
  runs : ∃ after, Runs ⟨.normal, cs, out, names⟩
      ⟨after, rest, out ++ (writePiece names piece).1, (writePiece names piece).2⟩ ∧
    (after = .normal ∨ rest = [])

theorem Writes.one (h : normalTurn ⟨.normal,c :: cs,out,names⟩ c cs =
      ⟨.normal,rest,out ++ (writePiece names piece).1,(writePiece names piece).2⟩) :
    Writes (c :: cs) piece rest out names :=
  ⟨.normal,turn_runs (h ▸ .refl),.inl rfl⟩

theorem Writes.enter (text : List Char)
    (h : normalTurn ⟨.normal,c :: cs,out,names⟩ c cs = ⟨state,cs',out ++ text,names⟩)
    (hbo : Copies state cs' body rest (out ++ text) names) :
    Writes (c :: cs) (.text (text ++ body)) rest out names := by
  obtain ⟨after,hru,haf⟩ := hbo.runs
  refine ⟨after,turn_runs ?_,haf⟩
  change Runs (normalTurn _ c cs) _
  rw [h]
  rwa [List.append_assoc] at hru

theorem writes_sign (hc : c = ':' ∧ ¬ next cs ':' ∨ c = '$' ∧ ¬ cs.head?.any Char.isDigit ∨ c = '@') :
    Writes (c :: cs) (signPiece c cs).1 (signPiece c cs).2 out names := by
  refine .one ?_
  rcases hc with ⟨rfl,hnext⟩ | ⟨rfl,hdi⟩ | rfl
  · cases hid : advanceIdentifier cs with
    | mk name after =>
      cases name with
      | nil => simp [normalTurn,signPiece,hid,hnext,Scan.emit,writePiece]
      | cons d ds => simp [normalTurn,signPiece,hid,hnext,Scan.placeholder,writePiece]
  · cases cs with
    | nil => simp [normalTurn,signPiece,advanceIdentifier,Scan.emit,writePiece]
    | cons d ds =>
      have hdi' : ¬ d.isDigit := by simpa using hdi
      by_cases hd : isIdentStart d
      · simp [normalTurn,signPiece,advanceIdentifier,hd,Scan.placeholder,writePiece]
      · simp [normalTurn,signPiece,advanceIdentifier,hd,hdi',Scan.emit,writePiece]
  · cases hid : advanceIdentifier cs with
    | mk name after =>
      cases name with
      | nil => simp [normalTurn,signPiece,hid,Scan.emit,writePiece]
      | cons d ds => simp [normalTurn,signPiece,hid,Scan.placeholder,writePiece]

theorem not_isIdentStart_of_isDigit (h : d.isDigit) : ¬ isIdentStart d := by
  simp only [Char.isDigit] at h
  simp only [isIdentStart,Char.isAlpha,Char.isUpper,Char.isLower,
    Bool.or_eq_true,Bool.and_eq_true,decide_eq_true_eq,beq_iff_eq] at h ⊢
  rintro ((h' | h') | rfl)
  · have : (65 : Nat) ≤ d.val.toNat := h'.1
    have : d.val.toNat ≤ 57 := h.2
    omega
  · have : (97 : Nat) ≤ d.val.toNat := h'.1
    have : d.val.toNat ≤ 57 := h.2
    omega
  · exact absurd h.2 (by decide)

theorem writes_piece : Writes (c :: cs) (nextPiece c cs).1 (nextPiece c cs).2 out names := by
  unfold nextPiece
  split
  next hc => exact .enter [c] (by simp [normalTurn,hc,Scan.emit]) (copies_string cs _)
  next hqu =>
  split
  next hc => exact .enter [c] (by simp [normalTurn,hc,Scan.emit]) (copies_upTo .inDoubleQuote (fun _ _ _ => rfl) cs _)
  next hdo =>
  split
  next hc =>
    exact .enter ['-','-'] (by simp [normalTurn,hc,Scan.emit]) (copies_upTo .inLineComment (fun _ _ _ => rfl) _ _)
  next hli =>
  split
  next hc =>
    exact .enter ['/','*'] (by simp [normalTurn,hc,Scan.emit]) (copies_blockComment _ _)
  next hbl =>
  split
  next hc => exact .one (by simp [normalTurn,hc,Scan.emit,writePiece])
  next hca =>
  split
  next hc =>
    obtain ⟨rfl,hdi⟩ := hc
    cases cs with
    | nil => simp at hdi
    | cons d ds =>
      have hd : d.isDigit := by simpa using hdi
      exact .one (by simp [normalTurn,hd,not_isIdentStart_of_isDigit hd,Scan.emit,writePiece])
  next hdi =>
  split
  next hc =>
    refine writes_sign ?_
    rcases hc with rfl | rfl | rfl
    · exact .inl ⟨rfl,fun h => hca ⟨rfl,h⟩⟩
    · exact .inr (.inl ⟨rfl,fun h => hdi ⟨rfl,h⟩⟩)
    · exact .inr (.inr rfl)
  next hsi =>
    obtain ⟨hco,hdol,hat⟩ : c ≠ ':' ∧ c ≠ '$' ∧ c ≠ '@' := by simpa using hsi
    exact .one (by simp [normalTurn,hqu,hdo,hli,hbl,hco,hdol,hat,Scan.emit,writePiece])

theorem runs_pieces (cs out : List Char) (names : List String) : ∃ after, Runs ⟨.normal,cs,out,names⟩
      ⟨after,[],out ++ (writePieces names (pieces cs)).1,(writePieces names (pieces cs)).2⟩ := by
  fun_induction pieces cs generalizing out names with
  | case1 => exact ⟨.normal,by rw [writePieces,List.append_nil]⟩
  | case2 c cs ih =>
    obtain ⟨after,hru,haf⟩ := (writes_piece).runs
    rcases haf with rfl | hre
    · obtain ⟨after,hru'⟩ := ih (out ++ (writePiece names (nextPiece c cs).1).1)
        (writePiece names (nextPiece c cs).1).2
      refine ⟨after,hru.trans ?_⟩
      rwa [List.append_assoc] at hru'
    · refine ⟨after,?_⟩
      rw [hre] at hru ⊢
      simpa [writePieces,pieces] using hru

theorem scanLoop_eq : ∃ after, scanLoop cs.length ⟨.normal,cs,[],[]⟩ =
      ⟨after,[],(writePieces [] (pieces cs)).1,(writePieces [] (pieces cs)).2⟩ := by
  obtain ⟨after,hru⟩ := runs_pieces cs [] []
  exact ⟨after,scanLoop_of_runs hru rfl (Nat.le_refl _)⟩

theorem next_latin (hc : isAscii c) : next (latin cs) c = next cs c := by
  cases cs with
  | nil => rfl
  | cons d ds =>
    by_cases hd : isAscii d
    · rw [latin_ascii hd]
      rfl
    · obtain ⟨e,es,hes,he⟩ := latin_not_ascii_head hd ds
      have hec : e ≠ c := fun h => he (h ▸ hc)
      have hdc : d ≠ c := fun h => hd (h ▸ hc)
      simp [hes,next,hec,hdc]

theorem tail_latin (hc : isAscii c) (h : next cs c) : (latin cs).tail = latin cs.tail := by
  obtain ⟨ds,rfl⟩ := next_iff.mp h
  rw [latin_ascii hc]
  rfl

theorem takeWhile_latin (hp : ∀ c, p c → isAscii c) :
    (latin cs).takeWhile p = cs.takeWhile p ∧ (latin cs).dropWhile p = latin (cs.dropWhile p) := by
  induction cs with
  | nil => exact ⟨rfl,rfl⟩
  | cons c cs ih =>
    by_cases hc : isAscii c
    · rw [latin_ascii hc]
      cases hpc : p c with
      | true => simp [hpc,ih.1,ih.2]
      | false => simp [hpc,latin_ascii hc]
    · have hpc : ¬ p c := fun h => hc (hp c h)
      obtain ⟨e,es,hes,he⟩ := latin_not_ascii_head hc cs
      have hpe : ¬ p e := fun h => he (hp e h)
      rw [List.takeWhile_cons_of_neg hpc,List.dropWhile_cons_of_neg hpc,hes]
      simp [hpe]

theorem isAscii_of_isIdentContinue (c : Char) (h : isIdentContinue c) : isAscii c := by
  simp only [isIdentContinue,Char.isAlphanum,Char.isAlpha,Char.isUpper,Char.isLower,Char.isDigit,
    Bool.or_eq_true,Bool.and_eq_true,decide_eq_true_eq,beq_iff_eq] at h
  simp only [isAscii,decide_eq_true_eq]
  change c.val.toNat < 128
  rcases h with ((h | h) | h) | rfl
  · have : c.val.toNat ≤ 90 := h.2
    omega
  · have : c.val.toNat ≤ 122 := h.2
    omega
  · have : c.val.toNat ≤ 57 := h.2
    omega
  · decide

theorem isIdentContinue_of_isIdentStart (h : isIdentStart c) : isIdentContinue c := by
  simp only [isIdentStart,isIdentContinue,Char.isAlphanum,Bool.or_eq_true] at h ⊢
  tauto

theorem isIdentContinue_of_isDigit (h : c.isDigit) : isIdentContinue c := by
  simp [isIdentContinue,Char.isAlphanum,h]

theorem advanceIdentifier_latin :
    advanceIdentifier (latin cs) = ((advanceIdentifier cs).1,latin (advanceIdentifier cs).2) := by
  cases cs with
  | nil => rfl
  | cons c cs =>
    obtain ⟨hta,hdr⟩ := takeWhile_latin isAscii_of_isIdentContinue
    by_cases hc : isAscii c
    · rw [latin_ascii hc,advanceIdentifier,advanceIdentifier]
      split
      · rw [hta,hdr]
      · rw [latin_ascii hc]
    · have hst : ¬ isIdentStart c := fun h =>
        hc (isAscii_of_isIdentContinue c (isIdentContinue_of_isIdentStart h))
      obtain ⟨e,es,hes,he⟩ := latin_not_ascii_head hc cs
      have hst' : ¬ isIdentStart e := fun h =>
        he (isAscii_of_isIdentContinue e (isIdentContinue_of_isIdentStart h))
      rw [advanceIdentifier,if_neg hst,hes,advanceIdentifier,if_neg hst']

def latinPair (p : List Char × List Char) : List Char × List Char :=
  (latin p.1, latin p.2)

/-- A scan that goes on over what is not ASCII goes on over its bytes. -/
theorem scan_latin (f : List Char → List Char × List Char)
    (hf : ∀ e es, ¬ isAscii e → f (e :: es) = (e :: (f es).1,(f es).2)) (hc : ¬ isAscii c)
    (ih : f (latin cs) = latinPair (f cs)) : f (latin (c :: cs)) = latinPair (f (c :: cs)) := by
  have hskip : ∀ es ds, (∀ e ∈ es, ¬ isAscii e) → f (es ++ ds) = (es ++ (f ds).1, (f ds).2) := by
    intro es ds hes
    induction es with
    | nil => rfl
    | cons e es ih =>
      rw [List.cons_append,hf e _ (hes e (by simp)),ih fun e' he' => hes e' (by simp [he'])]
      rfl
  rw [latin_cons,hskip _ _ (latin_not_ascii hc).2,ih,hf c cs hc]
  exact Prod.ext (latin_cons).symm rfl

theorem bodyUpTo_latin (hcl : isAscii close) : bodyUpTo close (latin cs) = latinPair (bodyUpTo close cs) := by
  induction cs with
  | nil => rfl
  | cons c cs ih =>
    by_cases hc : isAscii c
    · rw [latin_ascii hc,bodyUpTo,bodyUpTo]
      split
      · simp [latinPair,latin_ascii hc]
      · simp [ih,latinPair,latin_ascii hc]
    · exact scan_latin _ (fun e _ he => if_neg fun h : e = close => he (h ▸ hcl)) hc ih

theorem commentBody_latin : commentBody (latin cs) = latinPair (commentBody cs) := by
  induction cs with
  | nil => rfl
  | cons c cs ih =>
    by_cases hc : isAscii c
    · rw [latin_ascii hc,commentBody,commentBody,next_latin (by decide)]
      split
      · next h => rw [tail_latin (by decide) h.2]; rfl
      · simp [ih,latinPair,latin_ascii hc]
    · exact scan_latin _ (fun e _ he => if_neg fun h : e = '*' ∧ _ => he (h.1 ▸ rfl)) hc ih

theorem stringBody_cons (hc : c ≠ '\'') :
    stringBody (c :: cs) = (c :: (stringBody cs).1,(stringBody cs).2) := by
  cases cs <;> simp [stringBody,hc]

theorem stringBody_latin : stringBody (latin cs) = latinPair (stringBody cs) := by
  have hqu : isAscii '\'' := rfl
  fun_induction stringBody cs with
  | case1 | case2 => rfl
  | case3 ds body rest hrec ih =>
    rw [hrec] at ih
    simp [stringBody,ih,latinPair,latin_ascii hqu]
  | case4 d ds hd =>
    -- the quote that closes the string is followed by a character that is no quote
    have hnext : next (latin (d :: ds)) '\'' = false := by
      rw [next_latin hqu]
      simp [next,hd]
    cases hl : latin (d :: ds) with
    | nil => simp [stringBody,latinPair,latin_ascii hqu,hl]
    | cons e es =>
      have he : e ≠ '\'' := by simpa [hl,next] using hnext
      simp [stringBody,he,latinPair,latin_ascii hqu,hl]
  | case5 c cs hc body rest hrec ih =>
    rw [hrec] at ih
    by_cases ha : isAscii c
    · rw [latin_ascii ha,stringBody_cons hc,ih]
      simp [latinPair,latin_ascii ha]
    · have := scan_latin stringBody (fun e _ he => stringBody_cons (fun h => he (by rw [h]; rfl))) ha (hrec ▸ ih)
      rwa [stringBody_cons hc,hrec] at this

def Piece.latin : Piece → Piece
  | .text cs => .text (Lib.latin cs)
  | .placeholder sign name => .placeholder sign name

theorem signPiece_latin (hsi : isAscii sign) :
    signPiece sign (latin cs) = ((signPiece sign cs).1.latin,latin (signPiece sign cs).2) := by
  unfold signPiece
  rw [advanceIdentifier_latin]
  cases hid : advanceIdentifier cs with
  | mk name rest =>
    cases name with
    | nil => simp [Piece.latin,latin_ascii hsi]
    | cons d ds => rfl

theorem head_isDigit_latin (cs : List Char) :
    (latin cs).head?.any Char.isDigit = cs.head?.any Char.isDigit := by
  cases cs with
  | nil => rfl
  | cons c cs =>
    by_cases hc : isAscii c
    · rw [latin_ascii hc]
      rfl
    · have hdi : ∀ d : Char, ¬ isAscii d → d.isDigit = false := fun d hd => by
        rw [Bool.eq_false_iff]
        exact fun h => hd (isAscii_of_isIdentContinue d (isIdentContinue_of_isDigit h))
      obtain ⟨e,es,hes,he⟩ := latin_not_ascii_head hc cs
      simp [hes,hdi e he,hdi c hc]

theorem nextPiece_latin (hc : isAscii c) :
    nextPiece c (latin cs) = ((nextPiece c cs).1.latin,latin (nextPiece c cs).2) := by
  obtain ⟨hta,hdr⟩ := takeWhile_latin
    (fun d hd => isAscii_of_isIdentContinue d (isIdentContinue_of_isDigit hd))
  have hdi : latin (cs.takeWhile Char.isDigit) = cs.takeWhile Char.isDigit :=
    latin_of_ascii fun d hd =>
      isAscii_of_isIdentContinue d (isIdentContinue_of_isDigit (List.mem_takeWhile_imp hd))
  unfold nextPiece
  simp only [next_latin (show isAscii '-' from rfl),next_latin (show isAscii '*' from rfl),
    next_latin (show isAscii ':' from rfl),head_isDigit_latin]
  split
  · rw [stringBody_latin]
    simp [Piece.latin,latinPair,latin_ascii hc]
  · split
    · rw [bodyUpTo_latin rfl]
      simp [Piece.latin,latinPair,latin_ascii hc]
    · split
      · next h =>
        rw [tail_latin rfl h.2,bodyUpTo_latin rfl]
        simp [Piece.latin,latinPair,latin_ascii (show isAscii '-' from rfl)]
      · split
        · next h =>
          rw [tail_latin rfl h.2,commentBody_latin]
          simp [Piece.latin,latinPair,latin_ascii (show isAscii '/' from rfl),
            latin_ascii (show isAscii '*' from rfl)]
        · split
          · next h =>
            rw [tail_latin rfl h.2]
            rfl
          · split
            · rw [hta,hdr]
              simp [Piece.latin,latin_ascii (show isAscii '$' from rfl),hdi]
            · split
              · exact signPiece_latin hc
              · simp [Piece.latin,latin_ascii hc]

theorem nextPiece_not_ascii (hc : ¬ isAscii c) : nextPiece c cs = (.text [c],cs) := by
  have hne : ∀ d, isAscii d → c ≠ d := fun d hd h => hc (h ▸ hd)
  simp [nextPiece,hne '\'' rfl,hne '"' rfl,hne '-' rfl,hne '/' rfl,hne ':' rfl,hne '$' rfl,hne '@' rfl]

theorem writePieces_texts : writePieces names (es.map (fun e => .text [e]) ++ ps) =
      (es ++ (writePieces names ps).1,(writePieces names ps).2) := by
  induction es with
  | nil => rfl
  | cons e es ih => simp [writePieces,writePiece,ih]

theorem pieces_texts (hes : ∀ e ∈ es, ∀ cs, nextPiece e cs = (.text [e],cs)) :
    pieces (es ++ cs) = es.map (fun e => .text [e]) ++ pieces cs := by
  induction es with
  | nil => rfl
  | cons e es ih =>
    rw [cons_append,pieces,hes e (by simp),ih fun e' he' => hes e' (by simp [he'])]
    rfl

theorem writePieces_latin :
    writePieces names (pieces (latin cs)) = writePieces names ((pieces cs).map Piece.latin) := by
  fun_induction pieces cs generalizing names with
  | case1 => rw [latin_nil,pieces]; rfl
  | case2 c cs ih =>
    by_cases hc : isAscii c
    · rw [latin_ascii hc,pieces,nextPiece_latin hc,map_cons,writePieces,writePieces,ih]
    · rw [nextPiece_not_ascii hc] at ih
      rw [nextPiece_not_ascii hc,latin_cons,
        pieces_texts fun e he _ => nextPiece_not_ascii ((latin_not_ascii hc).2 e he),writePieces_texts,ih]
      rfl

def copied (ps : List Piece) : List Char :=
  ps.flatMap fun
    | .text cs => cs
    | .placeholder .. => []

variable (names : List String) (ps : List Piece)

theorem writePieces_length : (writePieces names (ps.map Piece.latin)).1.length + (copied ps).length =
      (writePieces names ps).1.length + (latin (copied ps)).length := by
  induction ps generalizing names with
  | nil => rfl
  | cons p ps ih =>
    cases p with
    | text cs =>
      have := ih names
      simp only [map_cons,Piece.latin,writePieces,writePiece,copied,flatMap_cons,
        latin_append,length_append] at this ⊢
      omega
    | placeholder sign name =>
      have := ih (writePiece names (.placeholder sign name)).2
      simp only [map_cons,Piece.latin,writePieces,copied,flatMap_cons,nil_append,length_append] at this ⊢
      omega

theorem map_latin_of_ascii {ps : List Piece} (h : ∀ c ∈ copied ps, isAscii c) : ps.map Piece.latin = ps := by
  induction ps with
  | nil => rfl
  | cons p ps ih =>
    rw [map_cons,ih fun c hc => h c (by simp [copied] at hc ⊢; exact .inr hc)]
    cases p with
    | text cs => rw [Piece.latin,latin_of_ascii fun c hc => h c (by simp [copied,hc])]
    | placeholder => rfl

theorem writePieces_eq_iff :
    writePieces names (ps.map Piece.latin) = writePieces names ps ↔ ∀ c ∈ copied ps, isAscii c := by
  constructor
  · intro h
    have hlen := writePieces_length names ps
    rw [h] at hlen
    exact (length_latin_iff).mp (by omega)
  · intro h
    rw [map_latin_of_ascii h]

theorem advanceIdentifier_ascii (h : c ∈ (advanceIdentifier cs).1) : isAscii c := by
  refine isAscii_of_isIdentContinue c ?_
  cases cs with
  | nil => cases h
  | cons d ds =>
    rw [advanceIdentifier] at h
    split at h
    · next hd =>
      rcases mem_cons.mp h with rfl | h
      · exact isIdentContinue_of_isIdentStart hd
      · exact mem_takeWhile_imp h
    · cases h

theorem signPiece_ascii (hsi : isAscii sign) (h : (signPiece sign cs).1 = .placeholder sign' name) :
    ∀ c ∈ sign' :: name, isAscii c := by
  unfold signPiece at h
  split at h
  · cases h
  · next hid =>
    cases h
    intro c hc
    rcases mem_cons.mp hc with rfl | hc
    · exact hsi
    · have hmem : c ∈ (advanceIdentifier cs).1 := by rwa [hid]
      exact advanceIdentifier_ascii hmem

theorem nextPiece_ascii (h : (nextPiece c cs).1 = .placeholder sign name) : ∀ d ∈ sign :: name, isAscii d := by
  unfold nextPiece at h
  repeat' split at h
  all_goals try cases h
  next hsi =>
    refine signPiece_ascii ?_ h
    rcases hsi with rfl | rfl | rfl <;> rfl

theorem pieces_ascii (h : .placeholder sign name ∈ pieces cs) : ∀ c ∈ sign :: name, isAscii c := by
  fun_induction pieces cs with
  | case1 => cases h
  | case2 c cs ih =>
    rcases mem_cons.mp h with h | h
    · exact nextPiece_ascii h.symm
    · exact ih h

theorem copied_ascii_iff : (∀ c ∈ copied (pieces cs), isAscii c) ↔ ∀ c ∈ cs, isAscii c := by
  have hso := pieces_source cs
  constructor
  · intro h c hc
    rw [← hso] at hc
    obtain ⟨p,hp,hc⟩ := mem_flatMap.mp hc
    cases p with
    | text ds => exact h c (mem_flatMap.mpr ⟨_,hp,hc⟩)
    | placeholder sign name => exact pieces_ascii hp c hc
  · intro h c hc
    obtain ⟨p,hp,hc⟩ := mem_flatMap.mp hc
    refine h c ?_
    rw [← hso]
    cases p with
    | text ds => exact mem_flatMap.mpr ⟨_,hp,hc⟩
    | placeholder sign name => cases hc

theorem assignIndex_eq : assignIndex names name =
      ((if name ∈ names then names else names ++ [name]).idxOf name + 1,
        if name ∈ names then names else names ++ [name]) := by
  unfold assignIndex
  split
  · rfl
  · next h => rw [idxOf_append_of_notMem h]; simp

def addName (names : List String) (name : String) : List String :=
  if name ∈ names then names else names ++ [name]

theorem mem_addName : name ∈ addName names name := by
  unfold addName
  split <;> simp_all

theorem foldl_addName (names ns : List String) :
    ns.foldl addName names = names ++ (ns.filter (· ∉ names)).eraseDups := by
  induction ns generalizing names with
  | nil => simp
  | cons n ns ih =>
    rw [foldl_cons,ih,addName]
    split
    · next h => simp [h]
    · next h =>
      have hfi : ns.filter (· ∉ names ++ [n]) = (ns.filter (· ∉ names)).filter (fun b => !b == n) := by
        rw [filter_filter]
        refine filter_congr fun b _ => ?_
        by_cases hb : b = n <;> simp [hb]
      rw [hfi,filter_cons_of_pos (by simpa using h),eraseDups_cons,append_assoc]
      rfl

theorem names_prefix (names ns : List String) : names <+: ns.foldl addName names := by
  rw [foldl_addName]
  exact prefix_append _ _

theorem writePieces_eq : writePieces names ps =
      (ps.flatMap (rewritten ((ps.filterMap name?).foldl addName names)),
        (ps.filterMap name?).foldl addName names) := by
  induction ps generalizing names with
  | nil => rfl
  | cons p ps ih =>
    cases p with
    | text cs =>
      rw [writePieces,ih]
      rfl
    | placeholder sign name =>
      have hna : (writePiece names (.placeholder sign name)).2 = addName names (String.ofList name) := by
        rw [writePiece,assignIndex_eq]
        rfl
      have hidx : (writePiece names (.placeholder sign name)).1 =
          positional ((addName names (String.ofList name)).idxOf (String.ofList name) + 1) := by
        rw [writePiece,assignIndex_eq]
        rfl
      have hke : ∀ ns : List String,
          (ns.foldl addName (addName names (String.ofList name))).idxOf (String.ofList name) =
          (addName names (String.ofList name)).idxOf (String.ofList name) := by
        intro ns
        obtain ⟨more,hmo⟩ := names_prefix (addName names (String.ofList name)) ns
        rw [← hmo,idxOf_append_of_mem (mem_addName _)]
      rw [writePieces,ih,hna,hidx]
      simp [name?,rewritten,hke]

theorem nextPiece_digit (h : c.isDigit) : nextPiece c cs = (.text [c],cs) := by
  have hne : ∀ d : Char, d.isDigit = false → c ≠ d := fun d hd heq => by simp [heq,hd] at h
  simp [nextPiece,hne '\'' rfl,hne '"' rfl,hne '-' rfl,hne '/' rfl,hne ':' rfl,hne '$' rfl,hne '@' rfl]

/-- The scanner copies a quiet character and goes on behind it. -/
theorem writePieces_quiet (h : quiet c cs = true) : writePieces names (pieces (c :: cs)) =
      (c :: (writePieces names (pieces cs)).1,(writePieces names (pieces cs)).2) := by
  simp only [quiet,Bool.and_eq_true,decide_eq_true_eq,Bool.not_eq_true',Bool.and_eq_false_imp,Bool.or_eq_true] at h
  obtain ⟨⟨⟨⟨⟨hqu,hdo⟩,hli⟩,hbl⟩,hca⟩,hsi⟩ := h
  by_cases hdi : c = '$' ∧ cs.head?.any Char.isDigit
  · obtain ⟨rfl,hdi⟩ := hdi
    have hpi : nextPiece '$' cs = (.text ('$' :: cs.takeWhile Char.isDigit),cs.dropWhile Char.isDigit) := by
      simp [nextPiece,hdi]
    have htexts := @pieces_texts (cs.takeWhile Char.isDigit) (cs.dropWhile Char.isDigit)
      fun e he _ => nextPiece_digit (mem_takeWhile_imp he)
    rw [takeWhile_append_dropWhile] at htexts
    rw [pieces,hpi,htexts,writePieces_texts]
    rfl
  · have hsign : c = ':' ∨ c = '$' ∨ c = '@' → signPiece c cs = (.text [c],cs) := by
      intro hc
      have hst := hsi (or_assoc.mpr hc)
      cases cs with
      | nil => rfl
      | cons e es => simp [signPiece,advanceIdentifier,show isIdentStart e = false from hst]
    have hpi : nextPiece c cs = (.text [c],cs) := by
      have hli : ¬(c = '-' ∧ next cs '-') := fun h => by simp [hli h.1] at h
      have hbl : ¬(c = '/' ∧ next cs '*') := fun h => by simp [hbl h.1] at h
      have hca : ¬(c = ':' ∧ next cs ':') := fun h => by simp [hca h.1] at h
      rw [nextPiece,if_neg hqu,if_neg hdo,if_neg hli,if_neg hbl,if_neg hca,if_neg hdi]
      split
      · next hc => exact hsign hc
      · rfl
    rw [pieces,hpi]
    rfl

theorem writePieces_inert (h : inert part rest = true) : writePieces names (pieces (part ++ rest)) =
      (part ++ (writePieces names (pieces rest)).1,(writePieces names (pieces rest)).2) := by
  fun_induction inert part rest with
  | case1 => rfl
  | case2 part rest ih =>
    have hpi : pieces (':' :: ':' :: part ++ rest) = .text [':',':'] :: pieces (part ++ rest) := by
      rw [cons_append,pieces]
      simp [nextPiece,next]
    rw [hpi,writePieces,writePiece,ih h]
    rfl
  | case3 c part rest _ ih =>
    obtain ⟨hqu,hpa⟩ := Bool.and_eq_true_iff.mp h
    rw [cons_append,writePieces_quiet _ hqu,ih hpa]
    rfl

theorem writePieces_piecesIn (h : ∀ p ∈ quotedParts d cs, inert p.1 p.2 = true) :
    writePieces names (piecesIn d cs) = writePieces names (pieces cs) := by
  fun_induction piecesIn d cs generalizing names with
  | case1 => rw [pieces]
  | case2 c cs ih =>
    rw [quotedParts,forall_mem_append] at h
    rw [writePieces,ih _ h.2]
    cases hqu : quotedPart d c cs with
    | none =>
      have hnext : nextPieceIn d c cs = nextPiece c cs := by simp [nextPieceIn,hqu]
      rw [hnext,pieces,writePieces]
    | some p =>
      obtain ⟨body,rest⟩ := p
      have hnext : nextPieceIn d c cs = (.text (c :: body),rest) := by simp [nextPieceIn,hqu]
      have hin : inert (c :: body) rest = true := h.1 (c :: body,rest) (by simp [hqu])
      rw [hnext,← quotedPart_append hqu,← cons_append,writePieces_inert _ hin]
      rfl

end OxiSql.Params
