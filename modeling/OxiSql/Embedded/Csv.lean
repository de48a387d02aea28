import Mathlib

namespace OxiSql.Embedded.Csv
open List

abbrev Text := List Char

inductive ParseState
  | fieldStart
  | unquoted
  | quoted
  /-- After a quote in a quoted field: the end of it, or the first of two. -/
  | quoteEscape

structure Parsing where
  rows : List (List Text)
  currentRow : List Text
  currentField : Text
  state : ParseState

namespace Parsing

def pushField (p : Parsing) : Parsing :=
  ⟨p.rows, p.currentRow ++ [p.currentField], [], .fieldStart⟩

def pushRow (p : Parsing) : Parsing :=
  ⟨p.rows ++ [p.currentRow ++ [p.currentField]], [], [], .fieldStart⟩

def push (p : Parsing) (ch : Char) (state : ParseState) : Parsing :=
  { p with currentField := p.currentField ++ [ch], state }

def step (p : Parsing) (ch : Char) : Parsing :=
  match p.state, ch with
  | .fieldStart, '"' => { p with state := .quoted }
  | .fieldStart, ',' => { p with currentRow := p.currentRow ++ [[]] }
  | .quoted, '"' => { p with state := .quoteEscape }
  | .quoted, _ => p.push ch .quoted
  | .quoteEscape, '"' => p.push '"' .quoted
  | _, ',' => p.pushField
  | _, '\r' => p.pushRow
  | _, '\n' => p.pushRow
  | _, _ => p.push ch .unquoted

/-- A line feed right after the carriage return that ended a row is consumed with it. -/
def run (p : Parsing) : Text → Parsing
  | [] => p
  | ch :: rest =>
    match p.state, ch, rest with
    | .quoted, _, rest => run (p.step ch) rest
    | _, '\r', '\n' :: rest => run (p.step ch) rest
    | _, _, rest => run (p.step ch) rest

end Parsing

def parseCsv (input : Text) : Except String (List (List Text)) :=
  match Parsing.run ⟨[], [], [], .fieldStart⟩ input with
  | ⟨_, _, _, .quoted⟩ => .error "CSV parse error: unterminated quoted field at end of input"
  | ⟨rows, currentRow, currentField, _⟩ =>
    .ok (if currentField = [] ∧ currentRow = [] then rows else rows ++ [currentRow ++ [currentField]])

inductive Value
  | null
  | bool (b : Bool)
  | i64 (n : Int64)
  | f64 (f : Float)
  | text (s : Text)
  | blob (b : List UInt8)
  | timestamp (ts : Int64)
  | date (d : Int32)
  | time (t : Int64)
  | uuid (u : BitVec 128)
  | json (s : Text)
  | decimal (d : Text)
  | array (values : List Value)
  | typedArray (values : List Value)

def hex (width n : Nat) : Text :=
  (Nat.toDigits 16 n).leftpad width '0'

section
-- `to_string` of a double
variable (showF64 : Float → Text)

def valueToCsvField : Value → Text
  | .null => []
  | .bool b => (toString b).toList
  | .i64 n | .timestamp n | .time n => (toString n).toList
  | .f64 f => showF64 f
  | .text s | .json s | .decimal s => s
  | .blob b => b.flatMap fun byte => hex 2 byte.toNat
  | .date d => (toString d).toList
  | .uuid u => ['-'].intercalate [hex 8 (u.toNat / 2 ^ 96), hex 4 (u.toNat / 2 ^ 80 % 2 ^ 16),
      hex 4 (u.toNat / 2 ^ 64 % 2 ^ 16), hex 4 (u.toNat / 2 ^ 48 % 2 ^ 16), hex 12 (u.toNat % 2 ^ 48)]
  | .array values | .typedArray values =>
    '[' :: [',', ' '].intercalate (values.map valueToCsvField) ++ [']']

def doubled (s : Text) : Text :=
  s.flatMap fun c => if c = '"' then ['"', '"'] else [c]

def quoteCsvField (s : Text) : Text :=
  if ',' ∈ s ∨ '"' ∈ s ∨ '\n' ∈ s ∨ '\r' ∈ s ∨ s.head? = some ' ' ∨ s.getLast? = some ' ' then
    '"' :: doubled s ++ ['"']
  else s

def line (fields : List Text) : Text :=
  [','].intercalate (fields.map quoteCsvField) ++ ['\r', '\n']

def buildCsvOutput (headers : List Text) (rows : List (List Value)) : Text :=
  line headers ++ rows.flatMap fun row => line (row.map (valueToCsvField showF64))

end

namespace Parsing

theorem run_unquoted (hs : ∀ c ∈ s, c ≠ ',' ∧ c ≠ '\n' ∧ c ≠ '\r') :
    run ⟨done,row,field,.unquoted⟩ (s ++ rest) = run ⟨done,row,field ++ s,.unquoted⟩ rest := by
  induction s generalizing field with
  | nil => simp
  | cons c s ih =>
    obtain ⟨hcomma,hlf,hcr⟩ := hs c mem_cons_self
    have hst : run ⟨done,row,field,.unquoted⟩ (c :: (s ++ rest)) =
        run ⟨done,row,field ++ [c],.unquoted⟩ (s ++ rest) := by
      simp [run,step,push,hcr]
    rw [cons_append,hst,ih fun d hd => hs d (mem_cons_of_mem c hd),append_assoc,singleton_append]

theorem run_quoted (s rest : Text) :
    run ⟨done,row,field,.quoted⟩ (doubled s ++ rest) = run ⟨done,row,field ++ s,.quoted⟩ rest := by
  induction s generalizing field with
  | nil => simp [doubled]
  | cons c s ih =>
    have hst : run ⟨done,row,field,.quoted⟩ (doubled (c :: s) ++ rest) =
        run ⟨done,row,field ++ [c],.quoted⟩ (doubled s ++ rest) := by
      by_cases hc : c = '"'
      · simp [doubled,hc,run,step,push]
      · simp [doubled,hc,run,step,push]
    rw [hst,ih,append_assoc,singleton_append]

/-- A written field is read as it was, and the reader is where a delimiter ends it. -/
theorem run_field (s : Text) : ∃ state, state ≠ .quoted ∧ (state = .fieldStart → s = []) ∧ ∀ rest,
    run ⟨done,row,[],.fieldStart⟩ (quoteCsvField s ++ rest) = run ⟨done,row,s,state⟩ rest := by
  unfold quoteCsvField
  split
  · refine ⟨.quoteEscape,nofun,nofun,fun rest => ?_⟩
    have hq := @run_quoted done row [] s ('"' :: rest)
    rw [nil_append] at hq
    simpa [run,step] using hq
  · rename_i hplain
    simp only [not_or] at hplain
    obtain ⟨hcomma,hquote,hlf,hcr,-⟩ := hplain
    cases s with
    | nil => exact ⟨.fieldStart,nofun,fun _ => rfl,fun _ => rfl⟩
    | cons c s =>
      simp only [mem_cons,not_or,eq_comm] at hcomma hquote hlf hcr
      refine ⟨.unquoted,nofun,nofun,fun rest => ?_⟩
      have hst : run ⟨done,row,[],.fieldStart⟩ (c :: (s ++ rest)) =
          run ⟨done,row,[c],.unquoted⟩ (s ++ rest) := by
        simp [run,step,push,hcomma.1,hquote.1,hlf.1,hcr.1]
      rw [cons_append,hst,run_unquoted]
      · rfl
      · intro d hd
        exact ⟨fun h => hcomma.2 (h ▸ hd),fun h => hlf.2 (h ▸ hd),fun h => hcr.2 (h ▸ hd)⟩

theorem run_line (hne : fields ≠ []) : run ⟨done,row,[],.fieldStart⟩ (line fields ++ rest) =
      run ⟨done ++ [row ++ fields],[],[],.fieldStart⟩ rest := by
  induction fields generalizing row with
  | nil => exact absurd rfl hne
  | cons s fields ih =>
    obtain ⟨state,hq,hfi,hrun⟩ := @run_field done row s
    cases fields with
    | nil =>
      have heq : line [s] ++ rest = quoteCsvField s ++ '\r' :: '\n' :: rest := by
        simp [line,intercalate]
      rw [heq,hrun]
      cases state with
      | quoted => exact absurd rfl hq
      | _ => rfl
    | cons t fields =>
      have heq : line (s :: t :: fields) ++ rest = quoteCsvField s ++ ',' :: (line (t :: fields) ++ rest) := by
        simp [line,intercalate]
      have hcomma : run ⟨done,row,s,state⟩ (',' :: (line (t :: fields) ++ rest)) =
          run ⟨done,row ++ [s],[],.fieldStart⟩ (line (t :: fields) ++ rest) := by
        cases state with
        | quoted => exact absurd rfl hq
        | fieldStart => rw [hfi rfl]; rfl
        | _ => rfl
      rw [heq,hrun,hcomma,ih (cons_ne_nil t fields),append_assoc,singleton_append]

theorem run_lines (hne : ∀ fields ∈ lines, fields ≠ []) :
    run ⟨done,[],[],.fieldStart⟩ (lines.flatMap line) = ⟨done ++ lines,[],[],.fieldStart⟩ := by
  induction lines generalizing done with
  | nil => simp [run]
  | cons fields lines ih =>
    rw [flatMap_cons,run_line (hne fields mem_cons_self),ih fun f hf => hne f (mem_cons_of_mem fields hf)]
    simp

end Parsing

theorem parseCsv_buildCsvOutput (showF64 : Float → Text) {headers : List Text} (hne : headers ≠ [])
    {rows : List (List Text)} (hw : ∀ row ∈ rows, row.length = headers.length) :
    parseCsv (buildCsvOutput showF64 headers (rows.map (·.map .text))) = .ok (headers :: rows) := by
  have hall : ∀ fields ∈ headers :: rows, fields ≠ [] := by
    intro fields hf
    rcases mem_cons.mp hf with rfl | hf
    · exact hne
    · exact ne_nil_of_length_pos (hw fields hf ▸ length_pos_iff.mpr hne)
  have hout : buildCsvOutput showF64 headers (rows.map (·.map .text)) = (headers :: rows).flatMap line := by
    simp [buildCsvOutput,flatMap_map,Function.comp_def,valueToCsvField]
  rw [parseCsv,hout,Parsing.run_lines hall]
  rfl

theorem delimiters_in_fields : parseCsv (buildCsvOutput (fun _ => []) [['a', ','], []]
    ([[['"'], ['\r', '\n']]].map (·.map .text))) = .ok [[['a', ','], []], [['"'], ['\r', '\n']]] :=
  parseCsv_buildCsvOutput _ (cons_ne_nil _ _) (by simp)

end OxiSql.Embedded.Csv
