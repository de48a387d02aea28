import Mathlib

namespace OxiSql.Postgres.Copy
open List Function

abbrev Text := List Char

def escapeChar : Char → Text
  | '\\' => ['\\', '\\']
  | '\t' => ['\\', 't']
  | '\n' => ['\\', 'n']
  | '\r' => ['\\', 'r']
  | c => [c]

def escapeCopyValue (value : Text) : Text :=
  value.flatMap escapeChar

/-- An escape that is not known stays, with its backslash; so does the marker of `NULL`. -/
def unescapeCopyValue : Text → Text
  | '\\' :: '\\' :: rest => '\\' :: unescapeCopyValue rest
  | '\\' :: 't' :: rest => '\t' :: unescapeCopyValue rest
  | '\\' :: 'n' :: rest => '\n' :: unescapeCopyValue rest
  | '\\' :: 'r' :: rest => '\r' :: unescapeCopyValue rest
  | '\\' :: c :: rest => '\\' :: c :: unescapeCopyValue rest
  | c :: rest => c :: unescapeCopyValue rest
  | [] => []

def fields (cells : List Text) : Text :=
  ['\t'].intercalate cells

def lines (rows : List Text) : Text :=
  rows.flatMap (· ++ ['\n'])

def copyInText (columns : Nat) (rows : List (List Text)) : Except String Text :=
  if columns = 0 then .error "column list must not be empty for COPY IN"
  else
    match rows.find? (·.length ≠ columns) with
    | some row => .error s!"row has {row.length} fields but {columns} columns were specified"
    | none => .ok (lines (rows.map fun row => fields (row.map escapeCopyValue)))

def copyOutText (columns : Nat) (text : Text) : Except String (List (List Text)) :=
  if columns = 0 then .error "column list must not be empty for COPY OUT"
  else
    .ok <| ((text.splitOn '\n').filter (· ≠ [])).map fun line => (line.splitOn '\t').map unescapeCopyValue

/-- Octal and hexadecimal escapes are left out: they are never sent. -/
def serverUnescape : Text → Text
  | '\\' :: 'b' :: rest => '\x08' :: serverUnescape rest
  | '\\' :: 'f' :: rest => '\x0c' :: serverUnescape rest
  | '\\' :: 'n' :: rest => '\n' :: serverUnescape rest
  | '\\' :: 'r' :: rest => '\r' :: serverUnescape rest
  | '\\' :: 't' :: rest => '\t' :: serverUnescape rest
  | '\\' :: 'v' :: rest => '\x0b' :: serverUnescape rest
  | '\\' :: c :: rest => c :: serverUnescape rest
  | c :: rest => c :: serverUnescape rest
  | [] => []

def null : Text :=
  ['\\', 'N']

/-- The rows that a text stands for; `none` is `NULL`. A line of its own ends the data. -/
def serverStore (text : Text) : List (List (Option Text)) :=
  ((text.splitOn '\n').dropLast.takeWhile (· ≠ ['\\', '.'])).map fun line =>
    (line.splitOn '\t').map fun cell => if cell = null then none else some (serverUnescape cell)

def serverEscapeChar : Char → Text
  | '\x08' => ['\\', 'b']
  | '\x0c' => ['\\', 'f']
  | '\x0b' => ['\\', 'v']
  | c => escapeChar c

def serverEscape (value : Text) : Text :=
  value.flatMap serverEscapeChar

def serverCell : Option Text → Text
  | none => null
  | some value => serverEscape value

def serverEmit (rows : List (List (Option Text))) : Text :=
  lines (rows.map fun row => fields (row.map serverCell))

theorem splitOn_fields (hne : cells ≠ []) (h : ∀ c ∈ cells, '\t' ∉ c) : (fields cells).splitOn '\t' = cells :=
  splitOn_intercalate '\t' h hne

theorem splitOn_lines (h : ∀ r ∈ rows, '\n' ∉ r) : (lines rows).splitOn '\n' = rows ++ [[]] := by
  have hli : lines rows = ['\n'].intercalate (rows ++ [[]]) := by
    clear h
    induction rows with
    | nil => rfl
    | cons r rows ih =>
      rw [cons_append,intercalate_cons_of_ne_nil (by simp),← ih]
      simp [lines]
  rw [hli]
  exact splitOn_intercalate '\n' (forall_mem_append.mpr ⟨h,by simp⟩) (by simp)

theorem not_mem_fields (h : ∀ c ∈ cells, '\n' ∉ c) : '\n' ∉ fields cells := by
  induction cells with
  | nil => simp [fields]
  | cons c cells ih =>
    obtain ⟨hc,hcells⟩ := forall_mem_cons.mp h
    cases cells with
    | nil => simpa [fields] using hc
    | cons d cells =>
      have hre : '\n' ∉ ['\t'].intercalate (d :: cells) := ih hcells
      rw [fields]
      simp [hc,hre]

variable (value : Text)

theorem not_mem_escape : '\t' ∉ escapeCopyValue value ∧ '\n' ∉ escapeCopyValue value := by
  have h : ∀ c, '\t' ∉ escapeChar c ∧ '\n' ∉ escapeChar c := by
    intro c
    fun_cases escapeChar c <;> simp_all [eq_comm]
  simp [escapeCopyValue,h]

theorem not_mem_serverEscape : '\t' ∉ serverEscape value ∧ '\n' ∉ serverEscape value := by
  have h : ∀ c, '\t' ∉ serverEscapeChar c ∧ '\n' ∉ serverEscapeChar c := by
    intro c
    fun_cases serverEscapeChar c
    case case4 => fun_cases escapeChar c <;> simp_all [eq_comm]
    all_goals simp
  simp [serverEscape,h]

theorem serverUnescape_cons (h : c ≠ '\\') : serverUnescape (c :: rest) = c :: serverUnescape rest := by
  rw [serverUnescape.eq_def]
  split <;> simp_all

theorem serverUnescape_escape : serverUnescape (escapeCopyValue value) = value := by
  induction value with
  | nil => rfl
  | cons c value ih =>
    rw [escapeCopyValue,flatMap_cons,← escapeCopyValue]
    fun_cases escapeChar c
    case case5 h _ _ _ => rw [singleton_append,serverUnescape_cons h,ih]
    all_goals simp [serverUnescape,ih]

theorem escape_ne_special : escapeCopyValue value ≠ null ∧ escapeCopyValue value ≠ ['\\','.'] := by
  cases value with
  | nil => simp [escapeCopyValue,null]
  | cons c value =>
    rw [escapeCopyValue,flatMap_cons]
    fun_cases escapeChar c <;> simp_all [null]

/-- A marker of `NULL` is escaped like any other text, and stored as that text. -/
theorem serverStore_sent (hn : n ≠ 0) (h : ∀ row ∈ rows, row.length = n) :
    ∃ sent, copyInText n rows = .ok sent ∧ serverStore sent = rows.map (·.map some) := by
  have hfi : rows.find? (·.length ≠ n) = none := by simpa using h
  have hsp : ∀ row ∈ rows, (fields (row.map escapeCopyValue)).splitOn '\t' = row.map escapeCopyValue := by
    intro row hrow
    have hlen := h row hrow
    refine splitOn_fields ?_ (by simp [not_mem_escape])
    rintro hnil
    simp only [map_eq_nil_iff] at hnil
    exact hn (by rw [← hlen,hnil,length_nil])
  refine ⟨lines (rows.map fun row => fields (row.map escapeCopyValue)),by simp only [copyInText,if_neg hn,hfi],?_⟩
  rw [serverStore,splitOn_lines,dropLast_concat,takeWhile_eq_self_iff.mpr,map_map]
  · refine map_congr_left fun row hrow => ?_
    simp [hsp row hrow,escape_ne_special,serverUnescape_escape]
  · intro line hli
    obtain ⟨row,hrow,rfl⟩ := mem_map.mp hli
    -- a line that ends the data would be a row of one cell, which no escaping gives
    have hne : fields (row.map escapeCopyValue) ≠ ['\\','.'] := by
      intro hma
      have hcells := hsp row hrow
      rw [hma] at hcells
      have hmem : ['\\','.'] ∈ row.map escapeCopyValue := hcells ▸ by decide
      obtain ⟨cell,-,hcell⟩ := mem_map.mp hmem
      exact (escape_ne_special cell).2 hcell
    simpa using hne
  · intro line hli
    obtain ⟨row,hrow,rfl⟩ := mem_map.mp hli
    exact not_mem_fields (by simp [not_mem_escape])

/-- The escapes that only the server makes are left as they are. -/
def garbleChar : Char → Text
  | '\x08' => ['\\', 'b']
  | '\x0c' => ['\\', 'f']
  | '\x0b' => ['\\', 'v']
  | c => [c]

theorem unescape_cons (h : c ≠ '\\') : unescapeCopyValue (c :: rest) = c :: unescapeCopyValue rest := by
  rw [unescapeCopyValue.eq_def]
  split <;> simp_all

theorem unescape_serverEscape (value : Text) : unescapeCopyValue (serverEscape value) = value.flatMap garbleChar := by
  induction value with
  | nil => rfl
  | cons c value ih =>
    rw [serverEscape,flatMap_cons,← serverEscape,flatMap_cons]
    fun_cases serverEscapeChar c
    case case4 h1 h2 h3 =>
      have hg : garbleChar c = [c] := by simp [garbleChar]
      fun_cases escapeChar c
      case case5 h _ _ _ => rw [singleton_append,unescape_cons h,ih,hg,singleton_append]
      all_goals simp [unescapeCopyValue,ih,garbleChar]
    all_goals simp [unescapeCopyValue,ih,garbleChar]

theorem garble_eq_self_iff :
    value.flatMap garbleChar = value ↔ '\x08' ∉ value ∧ '\x0c' ∉ value ∧ '\x0b' ∉ value := by
  induction value with
  | nil => simp
  | cons c value ih =>
    rw [flatMap_cons]
    fun_cases garbleChar c
    case case4 h1 h2 h3 =>
      have hc : '\x08' ≠ c ∧ '\x0c' ≠ c ∧ '\x0b' ≠ c := ⟨fun e => h1 e.symm,fun e => h2 e.symm,fun e => h3 e.symm⟩
      simp [ih,hc]
    all_goals simp

theorem serverEscape_eq_nil {value : Text} (h : serverEscape value = []) : value = [] := by
  cases value with
  | nil => rfl
  | cons c value =>
    rw [serverEscape,flatMap_cons] at h
    revert h
    fun_cases serverEscapeChar c
    case case4 => fun_cases escapeChar c <;> simp
    all_goals simp

theorem map_eq_self_iff {α : Type} {f : α → α} {l : List α} : l.map f = l ↔ ∀ a ∈ l, f a = a := by
  simpa using map_inj_left (f := f) (g := id) (l := l)

section Tables

variable {n : Nat} {rows : List (List Text)}

theorem copyOutText_emitted (hn : n ≠ 0) (h : ∀ row ∈ rows, row.length = n) :
    copyOutText n (serverEmit (rows.map (·.map some))) =
      .ok ((rows.filter (· ≠ [[]])).map (·.map (·.flatMap garbleChar))) := by
  have hne : ∀ row ∈ rows, row.map serverEscape ≠ [] := by
    intro row hrow hnil
    have hlen := h row hrow
    simp_all
  have hsp : ∀ row ∈ rows, (fields (row.map serverEscape)).splitOn '\t' = row.map serverEscape :=
    fun row hrow => splitOn_fields (hne row hrow) (by simp [not_mem_serverEscape])
  have hempty : ∀ row ∈ rows, fields (row.map serverEscape) = [] ↔ row = [[]] := by
    intro row hrow
    refine ⟨fun hnil => ?_,fun he => by subst he; rfl⟩
    have hcells := hsp row hrow
    rw [hnil] at hcells
    obtain ⟨cell,rfl,hcell⟩ := map_eq_singleton_iff.mp hcells.symm
    rw [serverEscape_eq_nil hcell]
  have hem : serverEmit (rows.map (·.map some)) = lines (rows.map fun row => fields (row.map serverEscape)) := by
    simp [serverEmit,serverCell,comp_def]
  have hli : ∀ line ∈ rows.map fun row => fields (row.map serverEscape), '\n' ∉ line := by
    intro line hlin
    obtain ⟨row,-,rfl⟩ := mem_map.mp hlin
    exact not_mem_fields (by simp [not_mem_serverEscape])
  rw [copyOutText,if_neg hn,hem,splitOn_lines hli,filter_append,filter_map,
    filter_congr (q := (· ≠ [[]])) (by simpa using hempty)]
  simp only [filter_cons,ne_eq,not_true_eq_false,decide_false,Bool.false_eq_true,if_false,filter_nil,
    append_nil,map_map]
  refine congrArg Except.ok (map_congr_left fun row hrow => ?_)
  simp only [comp_apply,hsp row (mem_filter.mp hrow).1,map_map]
  exact map_congr_left fun cell _ => unescape_serverEscape cell

theorem garbled_rows_iff : (rows.filter (· ≠ [[]])).map (·.map (·.flatMap garbleChar)) = rows ↔
      ∀ row ∈ rows, row ≠ [[]] ∧ ∀ cell ∈ row, cell.flatMap garbleChar = cell := by
  constructor
  · intro h
    have hlen : (rows.filter (· ≠ [[]])).length = rows.length := by simpa using congrArg List.length h
    have hall := length_filter_eq_length_iff.mp hlen
    rw [filter_eq_self.mpr hall,map_eq_self_iff] at h
    exact fun row hrow => ⟨by simpa using hall row hrow,map_eq_self_iff.mp (h row hrow)⟩
  · intro h
    rw [filter_eq_self.mpr (by simpa using fun row hrow => (h row hrow).1),map_eq_self_iff]
    exact fun row hrow => map_eq_self_iff.mpr (h row hrow).2

def stored (cell : Text) : Option Text :=
  if cell = null then none else some cell

/-- Three things are lost: a marker of `NULL` arrives as text, the escapes for a backspace, a form feed and a
vertical tab are not undone, and the line of an empty cell in a table of one column is skipped. -/
theorem copy_round_trip_iff (hn : n ≠ 0) (h : ∀ row ∈ rows, row.length = n) :
    (∃ sent, copyInText n rows = .ok sent ∧ serverStore sent = rows.map (·.map stored) ∧
        copyOutText n (serverEmit (serverStore sent)) = .ok rows) ↔
      (∀ row ∈ rows, ∀ cell ∈ row, cell ≠ null ∧ '\x08' ∉ cell ∧ '\x0c' ∉ cell ∧ '\x0b' ∉ cell) ∧
        (n = 1 → ∀ row ∈ rows, [] ∉ row) := by
  obtain ⟨sent,hse,hst⟩ := serverStore_sent hn h
  have hsto : rows.map (·.map some) = rows.map (·.map stored) ↔ ∀ row ∈ rows, ∀ cell ∈ row, cell ≠ null := by
    simp only [map_inj_left,stored]
    refine forall₂_congr fun row _ => forall₂_congr fun cell _ => ?_
    split <;> simp_all
  have hsi : (∀ row ∈ rows, row ≠ [[]]) ↔ (n = 1 → ∀ row ∈ rows, [] ∉ row) := by
    constructor
    · rintro hne rfl row hrow
      obtain ⟨cell,rfl⟩ := length_eq_one_iff.mp (h row hrow)
      rw [mem_singleton]
      rintro rfl
      exact hne _ hrow rfl
    · rintro hempty row hrow rfl
      exact hempty (h _ hrow).symm _ hrow (by simp)
  simp only [hse,Except.ok.injEq,exists_eq_left',hst,copyOutText_emitted hn h,garbled_rows_iff,garble_eq_self_iff]
  grind

theorem copy_round_trip_pair :
    (∃ sent, copyInText 2 [[['a', '\t'], []]] = .ok sent ∧ serverStore sent = [[some ['a', '\t'], some []]] ∧
        copyOutText 2 (serverEmit (serverStore sent)) = .ok [[['a', '\t'], []]]) :=
  (@copy_round_trip_iff 2 [[['a','\t'],[]]] (by decide) (by decide)).mpr (by decide)

end Tables

theorem empty_cell_lost : ∃ sent, copyInText 1 [[[]]] = .ok sent ∧ serverStore sent = [[some []]] ∧
      copyOutText 1 (serverEmit (serverStore sent)) = .ok [] :=
  ⟨['\n'],by decide⟩

end OxiSql.Postgres.Copy
