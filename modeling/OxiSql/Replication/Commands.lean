import OxiSql.Lib.Scanners

namespace OxiSql.Replication.Commands
open Lib List

abbrev Text := List Char

/-- What `PgError::Replication` says; a message about a slot name quotes it. -/
inductive CommandError where
  | emptySlotName
  | slotNameLength (name : Text) (bytes : Nat)
  | slotNameCharacter (name : Text)
  | noPublication
  | emptyPublication
deriving DecidableEq

def maxSlotNameLen : Nat := 63

def isSlotChar (c : Char) : Bool :=
  c.isLower || c.isDigit || c == '_'

def validateSlotName (name : Text) : Except CommandError Unit :=
  if name = [] then .error .emptySlotName
  else if maxSlotNameLen < (name.map Char.utf8Size).sum then
    .error (.slotNameLength name (name.map Char.utf8Size).sum)
  else if ¬ name.all isSlotChar then .error (.slotNameCharacter name)
  else .ok ()

def doubleQuote : Char → Text
  | '"' => ['"', '"']
  | c => [c]

def quotePublicationName (name : Text) : Text :=
  ['"'] ++ name.flatMap doubleQuote ++ ['"']

structure StartReplicationOptions where
  protoVersion : Nat
  publicationNames : List Text
  streaming : Bool
  binary : Bool
  messages : Bool
deriving DecidableEq

def numeral (base n : Nat) : Text :=
  (Nat.toDigits base n).map Char.toUpper

def lsnText (lsn : Nat) : Text :=
  numeral 16 (lsn / 2 ^ 32 % 2 ^ 32) ++ ['/'] ++ numeral 16 (lsn % 2 ^ 32)

def flag (on : Bool) (name : Text) : Text :=
  if on then [',', ' '] ++ name ++ " 'on'".toList else []

def flags (options : StartReplicationOptions) : Text :=
  flag options.streaming "streaming".toList ++ flag options.binary "binary".toList ++
    flag options.messages "messages".toList

def publicationList (names : List Text) : Text :=
  [',', ' '].intercalate (names.map quotePublicationName)

def commandHead (slotName : Text) (startLsn : Nat) (options : StartReplicationOptions) : Text :=
  "START_REPLICATION SLOT ".toList ++ quotePublicationName slotName ++ " LOGICAL ".toList ++ lsnText startLsn ++
    " (proto_version '".toList ++ numeral 10 options.protoVersion ++ "', publication_names '".toList

def buildStartReplication (slotName : Text) (startLsn : Nat) (options : StartReplicationOptions) :
    Except CommandError Text := do
  validateSlotName slotName
  if options.publicationNames = [] then throw .noPublication
  if [] ∈ options.publicationNames then throw .emptyPublication
  return commandHead slotName startLsn options ++ publicationList options.publicationNames ++ ['\''] ++
    flags options ++ [')']

inductive Quotation where
  | identifier
  | text
deriving DecidableEq

def Quotation.mark : Quotation → Char
  | .identifier => '"'
  | .text => '\''

inductive Token where
  | word (t : Text)
  | quoted (q : Quotation) (t : Text)
  | sym (c : Char)
deriving DecidableEq

/-- `closing` has seen a mark that ends the quotation, or is the first of two that stand for one. -/
inductive Mode where
  | plain
  | word (t : Text)
  | quoted (q : Quotation) (t : Text)
  | closing (q : Quotation) (t : Text)
deriving DecidableEq

def isSpace (c : Char) : Bool :=
  [' ', '\t', '\n', '\r', '\x0b', '\x0c'].contains c

def isSym (c : Char) : Bool :=
  ['(', ')', ','].contains c

def isWordChar (c : Char) : Bool :=
  !(isSpace c || isSym c || c == '"' || c == '\'')

def enter (c : Char) : List Token × Mode :=
  if isSpace c then ([], .plain)
  else if isSym c then ([.sym c], .plain)
  else if c = '"' then ([], .quoted .identifier [])
  else if c = '\'' then ([], .quoted .text [])
  else ([], .word [c])

def lexStep : Mode → Char → List Token × Mode
  | .plain, c => enter c
  | .word t, c => if isWordChar c then ([], .word (t ++ [c])) else (.word t :: (enter c).1, (enter c).2)
  | .quoted q t, c => if c = q.mark then ([], .closing q t) else ([], .quoted q (t ++ [c]))
  | .closing q t, c =>
    if c = q.mark then ([], .quoted q (t ++ [c])) else (.quoted q t :: (enter c).1, (enter c).2)

def lexEnd : Mode → Option (List Token)
  | .plain => some []
  | .word t => some [.word t]
  | .quoted _ _ => none
  | .closing q t => some [.quoted q t]

def lex (text : Text) : Option (List Token) :=
  (lexEnd (scan lexStep .plain text).2).map ((scan lexStep .plain text).1 ++ ·)

/-! The value of `publication_names` is split by `SplitIdentifierString`. -/

inductive Split where
  | start
  | bare (t : Text)
  | quoted (t : Text)
  | closing (t : Text)
  | between
  | failed
deriving DecidableEq

def splitStep : Split → Char → List Text × Split
  | .start, c =>
    if isSpace c then ([], .start) else if c = '"' then ([], .quoted [])
    else if c = ',' then ([], .failed) else ([], .bare [c.toLower])
  | .bare t, c =>
    if isSpace c then ([t], .between) else if c = ',' then ([t], .start) else ([], .bare (t ++ [c.toLower]))
  | .quoted t, c => if c = '"' then ([], .closing t) else ([], .quoted (t ++ [c]))
  | .closing t, c =>
    if c = '"' then ([], .quoted (t ++ [c])) else if isSpace c then ([t], .between)
    else if c = ',' then ([t], .start) else ([], .failed)
  | .between, c => if isSpace c then ([], .between) else if c = ',' then ([], .start) else ([], .failed)
  | .failed, _ => ([], .failed)

def splitEnd : Split → Option (List Text)
  | .bare t => some [t]
  | .closing t => some [t]
  | .between => some []
  | _ => none

/-- The server cuts a name to 63 bytes after this. -/
def splitIdentifierString (value : Text) : Option (List Text) :=
  if value.all isSpace then some []
  else (splitEnd (scan splitStep .start value).2).map ((scan splitStep .start value).1 ++ ·)

def optionTokens (options : List (Text × Text)) : List Token :=
  [Token.sym ','].intercalate (options.map fun (name, value) => [.word name, .quoted .text value])

def enabled (options : StartReplicationOptions) : List (Text × Text) :=
  [(options.streaming, "streaming".toList), (options.binary, "binary".toList),
    (options.messages, "messages".toList)].filterMap fun (on, name) => if on then some (name, ['o', 'n']) else none

def headTokens (slotName : Text) (startLsn : Nat) : List Token :=
  [.word "START_REPLICATION".toList, .word "SLOT".toList, .quoted .identifier slotName, .word "LOGICAL".toList,
    .word (lsnText startLsn), .sym '(']

def Subscribes (slotName : Text) (startLsn : Nat) (options : StartReplicationOptions) (command : Text) : Prop :=
  ∃ value, splitIdentifierString value = some options.publicationNames ∧
    lex command = some (headTokens slotName startLsn ++
      optionTokens ([("proto_version".toList, numeral 10 options.protoVersion), ("publication_names".toList, value)] ++
        enabled options) ++ [.sym ')'])

theorem mem_toDigits (h : c ∈ Nat.toDigits base n) : ∃ d, c = Nat.digitChar d := by
  have hco : ∀ (fuel n : Nat) (cs : List Char), c ∈ Nat.toDigitsCore base fuel n cs →
      c ∈ cs ∨ ∃ d, c = Nat.digitChar d := by
    intro fuel
    induction fuel with
    | zero => exact fun n cs h => .inl h
    | succ fuel ih =>
      intro n cs h
      simp only [Nat.toDigitsCore] at h
      split at h
      · grind
      · grind
  simpa using hco _ _ _ h

theorem isWordChar_digitChar : isWordChar (Nat.digitChar d).toUpper := by
  by_cases h : d < 16
  · revert d
    decide
  · have hst : Nat.digitChar d = '*' := by
      unfold Nat.digitChar
      repeat rw [if_neg (by omega)]
    rw [hst]
    decide

theorem isWordChar_numeral : ∀ c ∈ numeral base n, isWordChar c := by
  intro c hc
  obtain ⟨e,he,rfl⟩ := List.mem_map.mp hc
  obtain ⟨d,rfl⟩ := mem_toDigits he
  exact isWordChar_digitChar

theorem isWordChar_lsnText : ∀ c ∈ lsnText lsn, isWordChar c := by
  simp only [lsnText,List.forall_mem_append]
  exact ⟨⟨isWordChar_numeral,List.forall_mem_singleton.mpr rfl⟩,isWordChar_numeral⟩

variable {t : Text}

theorem scan_quoted (h : q.mark ∉ t) (acc : Text) :
    scan lexStep (.quoted q acc) t = ([],.quoted q (acc ++ t)) :=
  scan_collect (fun _ c hc => if_neg fun (he : c = q.mark) => h (he ▸ hc)) acc

theorem enter_wordChar (h : isWordChar c) : enter c = ([],.word [c]) := by
  simp only [isWordChar,Bool.not_eq_true',Bool.or_eq_false_iff,beq_eq_false_iff_ne] at h
  simp [enter,h]

theorem scan_word (hne : t ≠ []) (h : ∀ c ∈ t, isWordChar c) : scan lexStep .plain t = ([],.word t) := by
  cases t with
  | nil => exact absurd rfl hne
  | cons c t =>
    obtain ⟨hc,ht⟩ := List.forall_mem_cons.mp h
    have hre : scan lexStep (.word [c]) t = ([], .word ([c] ++ t)) :=
      scan_collect (fun _ d hd => if_pos (ht d hd)) [c]
    simp only [scan,lexStep,enter_wordChar hc,hre]
    rfl

theorem doubleQuote_of_ne (h : c ≠ '"') : doubleQuote c = [c] := by
  unfold doubleQuote
  split <;> simp_all

theorem flatMap_doubleQuote (h : '"' ∉ t) : t.flatMap doubleQuote = t := by
  induction t with
  | nil => rfl
  | cons c t ih =>
    rw [List.mem_cons,not_or] at h
    rw [List.flatMap_cons,doubleQuote_of_ne (Ne.symm h.1),ih h.2,List.singleton_append]

theorem scan_quotePublicationName (h : '"' ∉ name) :
    scan lexStep .plain (quotePublicationName name) = ([],.closing .identifier name) := by
  rw [quotePublicationName,flatMap_doubleQuote h]
  have hop : scan lexStep .plain ['"'] = ([], .quoted .identifier []) := rfl
  have hcl : scan lexStep (.quoted .identifier name) ['"'] = ([], .closing .identifier name) := rfl
  exact scan_seq (scan_seq hop (scan_quoted h [])) hcl

theorem scan_split_quoted (name acc : Text) :
    scan splitStep (.quoted acc) (name.flatMap doubleQuote) = ([],.quoted (acc ++ name)) := by
  induction name generalizing acc with
  | nil => simp [scan]
  | cons c name ih =>
    have hch : scan splitStep (.quoted acc) (doubleQuote c) = ([], .quoted (acc ++ [c])) := by
      by_cases hc : c = '"'
      · subst hc
        rfl
      · simp [doubleQuote_of_ne hc,scan,splitStep,hc]
    simpa using scan_seq hch (ih (acc ++ [c]))

theorem scan_split_quotePublicationName :
    scan splitStep .start (quotePublicationName name) = ([],.closing name) := by
  have hop : scan splitStep .start ['"'] = ([], .quoted []) := rfl
  have hcl : scan splitStep (.quoted name) ['"'] = ([], .closing name) := rfl
  exact scan_seq (scan_seq hop (scan_split_quoted name [])) hcl

theorem publicationList_cons (name next : Text) : publicationList (name :: next :: names) =
    quotePublicationName name ++ [',',' '] ++ publicationList (next :: names) := by
  simp [publicationList]

theorem scan_publicationList (hne : names ≠ []) :
    ∃ last, scan splitStep .start (publicationList names) = (names.dropLast,.closing last) ∧
      names.dropLast ++ [last] = names := by
  induction names with
  | nil => exact absurd rfl hne
  | cons name names ih =>
    cases names with
    | nil => exact ⟨name,by simpa [publicationList] using scan_split_quotePublicationName,rfl⟩
    | cons next names =>
      obtain ⟨last,hsc,hlast⟩ := ih (by simp)
      have hco : scan splitStep (.closing name) [',',' '] = ([name], .start) := rfl
      refine ⟨last,?_,by simpa using hlast⟩
      rw [publicationList_cons]
      exact scan_seq (scan_seq (scan_split_quotePublicationName) hco) hsc

theorem splitIdentifierString_publicationList (hne : names ≠ []) :
    splitIdentifierString (publicationList names) = some names := by
  obtain ⟨last,hsc,hlast⟩ := scan_publicationList hne
  have hsp : ¬ (publicationList names).all isSpace := by
    intro hall
    have hqu : '"' ∈ publicationList names := by
      obtain ⟨name,names,rfl⟩ := exists_cons_of_ne_nil hne
      cases names <;> simp [publicationList,quotePublicationName]
    exact absurd (all_eq_true.mp hall _ hqu) (by decide)
  rw [splitIdentifierString,if_neg hsp,hsc]
  simp [splitEnd,hlast]

def marks (t : Text) : Nat :=
  t.count '\''

@[simp] theorem marks_nil : marks [] = 0 := rfl

@[simp] theorem marks_append : marks (s ++ t) = marks s + marks t :=
  count_append

theorem marks_eq_zero : marks t = 0 ↔ '\'' ∉ t :=
  count_eq_zero

theorem sum_marks_singleton : (t.map fun c => marks [c]).sum = marks t := by
  induction t with
  | nil => rfl
  | cons c t ih => rw [map_cons,sum_cons,ih,← marks_append,singleton_append]

theorem marks_quotePublicationName : marks (quotePublicationName name) = marks name := by
  have hdo : ∀ c, marks (doubleQuote c) = marks [c] := by
    intro c
    by_cases hc : c = '"'
    · subst hc
      rfl
    · rw [doubleQuote_of_ne hc]
  have hfl : marks (name.flatMap doubleQuote) = marks name := by
    induction name with
    | nil => rfl
    | cons c name ih => rw [List.flatMap_cons,marks_append,hdo,ih,← marks_append,List.singleton_append]
  have hqu : marks ['"'] = 0 := rfl
  rw [quotePublicationName,marks_append,marks_append,hfl,hqu,Nat.zero_add,Nat.add_zero]

theorem marks_publicationList : marks (publicationList names) = (names.map marks).sum := by
  induction names with
  | nil => rfl
  | cons name names ih =>
    cases names with
    | nil => simp [publicationList,marks_quotePublicationName]
    | cons next names =>
      rw [publicationList_cons,marks_append,marks_append,marks_quotePublicationName,ih]
      rfl

def Token.marks : Token → Nat
  | .word t => Commands.marks t
  | .quoted .identifier t => Commands.marks t
  | .quoted .text t => 2 * Commands.marks t + 2
  | .sym c => Commands.marks [c]

def Mode.marks : Mode → Nat
  | .plain => 0
  | .word t => Commands.marks t
  | .quoted .identifier t => Commands.marks t
  | .closing .identifier t => Commands.marks t
  | .quoted .text t => 2 * Commands.marks t + 1
  | .closing .text t => 2 * Commands.marks t + 2

theorem enter_marks (c : Char) : ((enter c).1.map Token.marks).sum + (enter c).2.marks ≤ marks [c] := by
  unfold enter
  split
  · simp [Mode.marks]
  split
  · simp [Mode.marks,Token.marks]
  split
  · simp [Mode.marks]
  split
  · simp_all [Mode.marks,marks]
  · simp [Mode.marks]

theorem flush_marks : ((k :: (enter c).1).map Token.marks).sum + (enter c).2.marks ≤ k.marks + marks [c] := by
  have hen := enter_marks c
  rw [map_cons,sum_cons]
  omega

theorem lexStep_marks (m : Mode) (c : Char) :
    ((lexStep m c).1.map Token.marks).sum + (lexStep m c).2.marks ≤ m.marks + marks [c] := by
  fun_cases lexStep m c
  case case1 => simpa [Mode.marks] using enter_marks c
  case case2 => simp [Mode.marks]
  case case3 t _ => exact flush_marks
  case case7 q t _ => cases q <;> exact flush_marks
  case case4 q t => cases q <;> simp [Mode.marks,marks,Quotation.mark]
  case case5 q t h =>
    cases q
    · simp [Mode.marks]
    · simp_all [Mode.marks,marks,Quotation.mark]
  case case6 q t =>
    cases q
    · simp [Mode.marks]
    · simp [Mode.marks,marks,Quotation.mark]
      omega

theorem lexEnd_marks (h : lexEnd m = some out) : (out.map Token.marks).sum ≤ m.marks := by
  revert h
  fun_cases lexEnd m
  case case4 q t => cases q <;> simp +contextual [Mode.marks,Token.marks,eq_comm]
  all_goals simp +contextual [Mode.marks,Token.marks,eq_comm]

def Split.marks : Split → Nat
  | .bare t | .quoted t | .closing t => Commands.marks t
  | _ => 0

theorem toLower_eq_mark : c.toLower = '\'' ↔ c = '\'' := by
  unfold Char.toLower
  split
  case isTrue h =>
    have hlow : 65 ≤ c.val.toNat := h.1
    have hhi : c.val.toNat ≤ 90 := h.2
    have hsh : ('a'.val - 'A'.val).toNat = 32 := rfl
    have hmark : '\''.val.toNat = 39 := rfl
    simp only [Char.ext_iff,← UInt32.toNat_inj,UInt32.toNat_add]
    omega
  case isFalse => rfl

theorem marks_toLower (c : Char) : marks [c.toLower] = marks [c] := by
  simp [marks,count_singleton,toLower_eq_mark]

theorem splitStep_marks (s : Split) (c : Char) :
    ((splitStep s c).1.map marks).sum + (splitStep s c).2.marks ≤ s.marks + marks [c] := by
  have hlo := marks_toLower c
  fun_cases splitStep s c <;> simp [Split.marks,hlo]

theorem splitEnd_marks (h : splitEnd s = some out) : (out.map marks).sum ≤ s.marks := by
  cases s <;> simp only [splitEnd,Option.some.injEq,reduceCtorEq] at h <;> subst h <;> simp [Split.marks]

theorem marks_of_split (h : splitIdentifierString value = some names) :
    (names.map marks).sum ≤ marks value := by
  rw [splitIdentifierString] at h
  split at h
  · cases h
    simp
  · obtain ⟨out,hend,hna⟩ := Option.map_eq_some_iff.mp h
    have hst : Split.start.marks = 0 := rfl
    have hsc := scan_weight_le splitStep_marks .start value
    have hout := splitEnd_marks hend
    rw [sum_marks_singleton] at hsc
    rw [← hna,map_append,sum_append]
    omega

section Commands

variable {slotName : Text} {startLsn : Nat} {options : StartReplicationOptions}

theorem scan_commandHead (startLsn : Nat) (options : StartReplicationOptions) (hsl : slotName.all isSlotChar) :
    scan lexStep .plain (commandHead slotName startLsn options) =
      (headTokens slotName startLsn ++ [.word "proto_version".toList,.quoted .text (numeral 10 options.protoVersion),
        .sym ',',.word "publication_names".toList],.quoted .text []) := by
  have hqu : '"' ∉ slotName := by
    intro hmem
    have hch : isSlotChar '"' = true := all_eq_true.mp hsl _ hmem
    exact absurd hch (by decide)
  have hve : '\'' ∉ numeral 10 options.protoVersion :=
    fun hmem => absurd (isWordChar_numeral _ hmem) (by decide)
  have hlsn : lsnText startLsn ≠ [] := by simp [lsnText]
  have hst : scan lexStep .plain "START_REPLICATION SLOT ".toList =
      ([.word "START_REPLICATION".toList,.word "SLOT".toList], .plain) := by decide
  have hlo : scan lexStep (.closing .identifier slotName) " LOGICAL ".toList =
      ([.quoted .identifier slotName,.word "LOGICAL".toList], .plain) := rfl
  have hop : scan lexStep (.word (lsnText startLsn)) " (proto_version '".toList =
      ([.word (lsnText startLsn),.sym '(',.word "proto_version".toList], .quoted .text []) := rfl
  have hna : scan lexStep (.quoted .text (numeral 10 options.protoVersion)) "', publication_names '".toList =
      ([.quoted .text (numeral 10 options.protoVersion),.sym ',',.word "publication_names".toList],
        .quoted .text []) := rfl
  have hslo := scan_seq hst (scan_quotePublicationName hqu)
  have hpo := scan_seq (scan_seq hslo hlo) (scan_word hlsn (isWordChar_lsnText))
  have hver := scan_seq (scan_seq hpo hop) (scan_quoted hve [])
  exact (scan_seq hver hna).trans rfl

def flagTokens (options : StartReplicationOptions) : List Token :=
  (enabled options).flatMap fun (name, value) => [.sym ',', .word name, .quoted .text value]

theorem optionTokens_eq :
    optionTokens ([("proto_version".toList,numeral 10 options.protoVersion),("publication_names".toList,value)] ++
        enabled options) =
      [.word "proto_version".toList,.quoted .text (numeral 10 options.protoVersion),.sym ',',
        .word "publication_names".toList,.quoted .text value] ++ flagTokens options := by
  obtain ⟨_,_,_ | _,_ | _,_ | _⟩ := options <;> rfl

set_option maxRecDepth 2000 in
theorem scan_commandTail (options : StartReplicationOptions) :
    scan lexStep (.quoted .text value) (['\''] ++ flags options ++ [')']) =
      (.quoted .text value :: flagTokens options ++ [.sym ')'],.plain) := by
  obtain ⟨_,_,_ | _,_ | _,_ | _⟩ := options <;> rfl

theorem marks_commandTail (options : StartReplicationOptions) :
    marks (['\''] ++ flags options ++ [')']) + 1 = 2 + ((flagTokens options).map Token.marks).sum := by
  obtain ⟨_,_,_ | _,_ | _,_ | _⟩ := options <;> rfl

theorem buildStartReplication_ok (h : buildStartReplication slotName startLsn options = .ok command) :
    slotName.all isSlotChar ∧ options.publicationNames ≠ [] ∧
      command = commandHead slotName startLsn options ++ (publicationList options.publicationNames ++
        (['\''] ++ flags options ++ [')'])) := by
  simp only [buildStartReplication,validateSlotName] at h
  split at h
  · cases h
  split at h
  · cases h
  split at h
  · cases h
  rename_i hsl
  split at h
  · cases h
  rename_i hne
  split at h
  · cases h
  · cases h
    exact ⟨by simpa using hsl,hne,by simp only [append_assoc]⟩

/-- The single quotes of a publication name are not doubled, and end the value. -/
theorem subscribes_iff (h : buildStartReplication slotName startLsn options = .ok command) :
    Subscribes slotName startLsn options command ↔ ∀ name ∈ options.publicationNames, '\'' ∉ name := by
  obtain ⟨hsl,hne,rfl⟩ := buildStartReplication_ok h
  have hhe := scan_commandHead startLsn options hsl
  constructor
  · rintro ⟨value,hsp,hlex⟩
    rw [lex,scan_append,hhe,optionTokens_eq] at hlex
    dsimp only at hlex
    obtain ⟨out,hend,hout⟩ := Option.map_eq_some_iff.mp hlex
    -- each quote in the value costs two in the text, and the value holds the quotes of all names
    have hsc := scan_weight_le lexStep_marks (.quoted .text []) (publicationList options.publicationNames ++
      (['\''] ++ flags options ++ [')']))
    have hna := marks_of_split hsp
    have hta := marks_commandTail options
    have hre := lexEnd_marks hend
    have hwe := congrArg (fun ts => (ts.map Token.marks).sum) hout
    have hhel : (Mode.quoted .text []).marks = 1 := rfl
    have hva : Token.marks (.quoted .text value) = 2 * marks value + 2 := rfl
    simp only [map_append,sum_append,map_cons,sum_cons] at hwe
    rw [sum_marks_singleton,marks_append,marks_publicationList] at hsc
    have hze : (options.publicationNames.map marks).sum = 0 := by omega
    intro name hnam
    rw [← marks_eq_zero]
    exact List.sum_eq_zero_iff_forall_eq_nat.mp hze _ (mem_map_of_mem hnam)
  · intro hma
    have hlist : '\'' ∉ publicationList options.publicationNames := by
      rw [← marks_eq_zero,marks_publicationList]
      refine List.sum_eq_zero_iff_forall_eq_nat.mpr fun n hn => ?_
      obtain ⟨name,hnam,rfl⟩ := mem_map.mp hn
      exact marks_eq_zero.mpr (hma name hnam)
    refine ⟨publicationList options.publicationNames,splitIdentifierString_publicationList hne,?_⟩
    have hsc := scan_seq hhe (scan_seq (scan_quoted hlist []) (scan_commandTail options))
    rw [lex,hsc,optionTokens_eq]
    simp [lexEnd]

end Commands

def twoPublications : StartReplicationOptions :=
  ⟨2, ["a\"b".toList, "C".toList], true, false, false⟩

theorem subscribes_two : ∃ command, buildStartReplication ['s'] 4096 twoPublications = .ok command ∧
    Subscribes ['s'] 4096 twoPublications command :=
  ⟨_,rfl,(subscribes_iff rfl).mpr (by decide)⟩

/-- A publication name that sets an option which was not asked for. -/
def injected : StartReplicationOptions :=
  ⟨1, ["p\"', messages 'on', origin '".toList], false, false, false⟩

theorem injected_options : ∃ command, buildStartReplication ['s'] 0 injected = .ok command ∧
    lex command = some (headTokens ['s'] 0 ++ optionTokens [("proto_version".toList, ['1']),
      ("publication_names".toList, "\"p\"\"".toList), ("messages".toList, ['o', 'n']),
      ("origin".toList, ['"'])] ++ [.sym ')']) :=
  ⟨_, rfl, by decide +kernel⟩

end OxiSql.Replication.Commands
