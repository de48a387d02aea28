import OxiSql.Translate.InsertColumns

namespace OxiSql.Translate.Trigger
open Lib Storage OxiSql.Types Function

inductive RowImageKind where
  | old
  | new
deriving DecidableEq

namespace RowImageKind

def fromQualifier (name : String) : Option RowImageKind :=
  if name.toLower = "old" then some .old
  else if name.toLower = "new" then some .new
  else none

def asStr : RowImageKind → String
  | .old => "OLD"
  | .new => "NEW"

end RowImageKind

/-- Column `i` of the row is in register `colsStartReg + i`. -/
structure RowImage where
  rowidReg : Nat
  colsStartReg : Nat

/-- What reading and checking a column needs beside its name. `literal` is what a record that is
too short for the column is read as, if the DEFAULT is a literal. -/
structure ColumnType where
  tyStr : String
  real : Bool
  notnull : Bool
  literal : Option Value
  real_tyStr : real = true → tyStr ∉ ["INTEGER", "INT", "BLOB", "TEXT", "ANY"]

/-- A table whose INTEGER PRIMARY KEY, if it has one, is its only key column. -/
structure Table extends BTreeTable where
  isStrict : Bool
  type : Nat → ColumnType
  alias_only : ∀ a ∈ columns, a.isRowidAlias = true → a.primaryKey = true ∧
    ∀ c ∈ columns, c.primaryKey = true → c.isRowidAlias = true

structure TriggerRowBindings where
  table : Table
  old : Option RowImage
  new : Option RowImage

inductive TriggerTime where
  | before
  | after
deriving DecidableEq

/-- Any form of an expression or a statement with parts is a `compound`. -/
inductive Expr where
  | qualified (qualifier column : String)
  | doublyQualified (db qualifier column : String)
  | register (reg : Nat)
  | leaf (text : String)
  | compound (parts : List Expr)

section Rewrite
variable (normalizeIdent : String → String)

namespace TriggerRowBindings

def image (b : TriggerRowBindings) : RowImageKind → Option RowImage
  | .old => b.old
  | .new => b.new

/-- A column of the table comes before the names of the rowid. -/
def resolve (b : TriggerRowBindings) (kind : RowImageKind) (column : String) : Except LimboError Nat :=
  match b.image kind with
  | none => .error (.parseError s!"no such column: {kind.asStr}.{column}")
  | some image =>
    match b.table.columns.findIdx? fun c => c.name == normalizeIdent column with
    | some pos => .ok (image.colsStartReg + pos)
    | none =>
      if normalizeIdent column ∈ ["rowid", "oid", "_rowid_"] then .ok image.rowidReg
      else .error (.parseError s!"no such column: {kind.asStr}.{column}")

end TriggerRowBindings

mutual

def rewriteExpr (b : TriggerRowBindings) : Expr → Except LimboError Expr
  | .qualified qualifier column =>
    match RowImageKind.fromQualifier qualifier with
    | some kind => return .register (← b.resolve normalizeIdent kind column)
    | none => .ok (.qualified qualifier column)
  | .doublyQualified db qualifier column =>
    if (RowImageKind.fromQualifier qualifier).isSome then
      .error (.parseError s!"misuse of aliased row reference {db}.{qualifier}.{column}")
    else .ok (.doublyQualified db qualifier column)
  | .register reg => .ok (.register reg)
  | .leaf text => .ok (.leaf text)
  | .compound parts => return .compound (← rewriteParts b parts)

def rewriteParts (b : TriggerRowBindings) : List Expr → Except LimboError (List Expr)
  | [] => .ok []
  | e :: es => do
    let e ← rewriteExpr b e
    let es ← rewriteParts b es
    return e :: es

end

end Rewrite

/-- `Insn::Column` as `emit_column` makes it: the record as it is stored. -/
def Table.readColumn (t : Table) (row : InsertedRow) (i : Nat) : Value :=
  match row.record[i]? with
  | some v => v
  | none => (t.type i).literal.getD .null

/-- `Insn::RealAffinity`, emitted after the `Column` of a REAL column. -/
def ColumnType.affinity (ty : ColumnType) : Value → Value
  | .integer i => if ty.real then .float (F64.ofInt i) else .integer i
  | v => v

/-- What a SELECT gives for a column. -/
def Table.select (t : Table) (row : InsertedRow) (column : Column) (i : Nat) : Value :=
  if column.isRowidAlias then .integer row.rowid
  else (t.type i).affinity (t.readColumn row i)

/-- The types STRICT knows, and the values that are of them. -/
def fits (tyStr : String) : Value → Bool
  | .null => tyStr = "ANY"
  | .integer _ => tyStr ∈ ["INTEGER", "INT", "ANY"]
  | .float _ => tyStr ∈ ["REAL", "ANY"]
  | .text _ => tyStr ∈ ["TEXT", "ANY"]
  | .blob _ => tyStr ∈ ["BLOB", "ANY"]

def valueType : Value → String
  | .null => "NULL"
  | .integer _ => "INT"
  | .float _ => "REAL"
  | .text _ => "TEXT"
  | .blob _ => "BLOB"

section Check
variable (applyAffinityChar : String → Value → Value)

/-- `op_type_check` on a column. -/
def Table.checkColumn (t : Table) (column : Column) (i : Nat) (v : Value) : Except LimboError Value :=
  if !column.isRowidAlias && column.primaryKey && v = .null then
    .error (.constraint s!"NOT NULL constraint failed: {t.name}.{column.name} (19)")
  else if column.isRowidAlias && v = .null then .ok v
  else
    let v := applyAffinityChar (t.type i).tyStr v
    if fits (t.type i).tyStr v then .ok v
    else .error (.constraint
      s!"cannot store {valueType v} value in {(t.type i).tyStr} column {t.name}.{column.name} (19)")

end Check

/-- An expression is what it evaluates to at the row the table cursor is on. -/
inductive Insn where
  | rowId (dest : Nat)
  | column (i dest : Nat)
  | indexColumn (pos dest : Nat)
  | expr (value : InsertedRow → Value) (dest : Nat)
  | null (dest : Nat)
  | mustBeInt (reg : Nat)
  | haltIfNull (reg : Nat) (description : String)
  | typeCheck (start : Nat)

/-- The code of a row up to its BEFORE triggers and from there to its AFTER triggers. What is
written are `keyReg` and the registers from `start` on. The code between them that reads indexes or
the table uses registers of its own, and so does that of the triggers. -/
structure RowCode where
  toBefore : List Insn
  toAfter : List Insn
  old : Option RowImage
  new : Option RowImage
  keyReg : Nat
  start : Nat

/-- `emit_delete_insns`, whose first free register is `key`. -/
def emitDeleteInsns (t : Table) (key : Nat) : RowCode where
  toBefore := .rowId key :: (List.range t.columns.length).map fun i => .column i (key + 1 + i)
  toAfter := []
  old := some ⟨key, key + 1⟩
  new := none
  keyReg := key
  start := key + 1

def typeChecks (t : Table) (start : Nat) : List Insn :=
  if t.isStrict then [.typeCheck start] else []

/-- The registers of an INSERT are those of its column mapping. -/
def emitInsert (t : Table) (rowidReg : Nat) : RowCode where
  toBefore := []
  toAfter := typeChecks t (rowidReg + 1)
  old := none
  new := some ⟨rowidReg, rowidReg + 1⟩
  keyReg := rowidReg
  start := rowidReg + 1

/-- `index` has the columns of the index whose cursor drives the scan. -/
structure UpdatePlan where
  setClauses : List (Nat × (InsertedRow → Value))
  index : Option (List String)

def UpdatePlan.set (plan : UpdatePlan) (i : Nat) : Option (InsertedRow → Value) :=
  (plan.setClauses.find? fun clause => clause.1 == i).map Prod.snd

def UpdatePlan.hasUserProvidedRowid (plan : UpdatePlan) (t : Table) : Bool :=
  match t.columns.findIdx? Column.isRowidAlias with
  | some a => (plan.set a).isSome
  | none => false

/-- The register of a rowid that the statement sets comes after those of the new row. -/
def rowidSetReg (t : Table) (beg : Nat) : Nat :=
  beg + t.columns.length + 1

def emitUpdateColumn (t : Table) (plan : UpdatePlan) (beg : Nat) (column : Column) (i : Nat) : List Insn :=
  match plan.set i with
  | some value =>
    if plan.hasUserProvidedRowid t && (column.primaryKey || column.isRowidAlias) then
      [.expr value (rowidSetReg t beg), .mustBeInt (rowidSetReg t beg), .null (beg + 1 + i)]
    else
      .expr value (beg + 1 + i) ::
        (if (t.type i).notnull then [.haltIfNull (beg + 1 + i) s!"{t.name}.{column.name}"] else [])
  | none =>
    if column.isRowidAlias then [.null (beg + 1 + i)]
    else
      match plan.index.bind fun columns => columns.idxOf? column.name with
      | some pos => [.indexColumn pos (beg + 1 + i)]
      | none => [.column i (beg + 1 + i)]

/-- `emit_update_insns`, whose first free register is `beg`. -/
def emitUpdateInsns (t : Table) (plan : UpdatePlan) (beg : Nat) : RowCode :=
  let key := if plan.hasUserProvidedRowid t then rowidSetReg t beg else beg
  let oldStart := rowidSetReg t beg + if plan.hasUserProvidedRowid t then 1 else 0
  { toBefore := .rowId beg ::
      (List.range t.columns.length).map (fun i => .column i (oldStart + i)) ++
      t.columns.zipIdx.flatMap fun (column, i) => emitUpdateColumn t plan beg column i
    toAfter := typeChecks t (beg + 1)
    old := some ⟨beg, oldStart⟩
    new := some ⟨key, beg + 1⟩
    keyReg := key
    start := beg + 1 }

section Run
variable (mustBeInt : Value → Option Int) (applyAffinityChar : String → Value → Value)

abbrev Registers := Nat → Value

def checkColumns (t : Table) (start : Nat) : List (Column × Nat) → Registers → Except LimboError Registers
  | [], r => .ok r
  | (column, i) :: columns, r => do
    let v ← t.checkColumn applyAffinityChar column i (r (start + i))
    checkColumns t start columns (update r (start + i) v)

/-- `row` and `entry` are under the cursors of the table and of the index. -/
def Insn.exec (t : Table) (row : InsertedRow) (entry : Record) (r : Registers) :
    Insn → Except LimboError Registers
  | .rowId dest => .ok (update r dest (.integer row.rowid))
  | .column i dest => .ok (update r dest (t.readColumn row i))
  | .indexColumn pos dest => .ok (update r dest (entry[pos]?.getD .null))
  | .expr value dest => .ok (update r dest (value row))
  | .null dest => .ok (update r dest .null)
  | .mustBeInt reg =>
    match mustBeInt (r reg) with
    | some i => .ok (update r reg (.integer i))
    | none =>
      .error (.parseError "MustBeInt: the value in register cannot be cast to integer")
  | .haltIfNull reg description =>
    if r reg = .null then
      .error (.constraint s!"NOT NULL constraint failed: {description} (19)")
    else .ok r
  | .typeCheck start => checkColumns applyAffinityChar t start t.columns.zipIdx r

def execAll (t : Table) (row : InsertedRow) (entry : Record) :
    List Insn → Registers → Except LimboError Registers
  | [], r => .ok r
  | insn :: code, r => do
    let r ← insn.exec mustBeInt applyAffinityChar t row entry r
    execAll t row entry code r

structure Firing where
  time : TriggerTime
  bindings : TriggerRowBindings
  regs : Registers

/-- A row that gets as far as being written. -/
def RowCode.run (t : Table) (row : InsertedRow) (entry : Record) (code : RowCode) (r : Registers) :
    Except LimboError (List Firing × Registers) := do
  let r₁ ← execAll mustBeInt applyAffinityChar t row entry code.toBefore r
  let r₂ ← execAll mustBeInt applyAffinityChar t row entry code.toAfter r₁
  return ([⟨.before, ⟨t, code.old, code.new⟩, r₁⟩, ⟨.after, ⟨t, code.old, code.new⟩, r₂⟩], r₂)

/-- A row that is written: `offered` is what the column mapping of an INSERT gives. -/
inductive Write where
  | insert (offered : InsertedRow)
  | update (plan : UpdatePlan) (row : InsertedRow) (entry : Record)
  | delete (row : InsertedRow)

def offeredRegs (rowidReg : Nat) (offered : InsertedRow) : Registers := fun n =>
  if n = rowidReg then .integer offered.rowid
  else offered.record[n - (rowidReg + 1)]?.getD .null

namespace Write

/-- The triggers a write fires, and the registers it ends with. `free` is the first register its
code may use, and `r` what is in the registers before. -/
def run (t : Table) (free : Nat) (r : Registers) : Write → Except LimboError (List Firing × Registers)
  | .insert offered =>
    (emitInsert t free).run mustBeInt applyAffinityChar t offered [] (offeredRegs free offered)
  | .update plan row entry =>
    (emitUpdateInsns t plan free).run mustBeInt applyAffinityChar t row entry r
  | .delete row => (emitDeleteInsns t free).run mustBeInt applyAffinityChar t row [] r

def code (t : Table) (free : Nat) : Write → RowCode
  | .insert _ => emitInsert t free
  | .update plan _ _ => emitUpdateInsns t plan free
  | .delete _ => emitDeleteInsns t free

def before : Write → Option InsertedRow
  | .insert _ => none
  | .update _ row _ | .delete row => some row

/-- The row after the write, from the registers it ends with: `MakeRecord` and `Insert`. -/
def after (t : Table) (free : Nat) (w : Write) (r : Registers) : Option InsertedRow :=
  match w with
  | .delete _ => none
  | _ =>
    match r (w.code t free).keyReg with
    | .integer rowid =>
      some ⟨rowid, (List.range t.columns.length).map fun i => r ((w.code t free).start + i)⟩
    | _ => none

end Write

end Run

end OxiSql.Translate.Trigger
