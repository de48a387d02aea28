namespace OxiSql.Translate

inductive ResolveType where
  | rollback
  | abort
  | fail
  | ignore
  | replace
deriving DecidableEq

/-- The action of the statement if it names one, else the constraint's own. -/
def effective (statement : Option ResolveType) (constraint : ResolveType) : ResolveType :=
  statement.getD constraint

/-- What an ON CONFLICT clause says to do, its SET list and WHERE aside. -/
inductive UpsertDo where
  | nothing
  | update
deriving DecidableEq

/-- Actions that revert the rows a statement has written so far. -/
def ResolveType.reverts : ResolveType → Bool
  | .abort | .rollback => true
  | .fail | .ignore | .replace => false

def stmtSavepoint : String := "_stmt"

/-- `needs_stmt_savepoint` of `translate_insert`, outside of triggers. -/
def insertNeedsSavepoint (onConflict : Option ResolveType) (insertingMultipleRows : Bool) : Bool :=
  (effective onConflict .abort).reverts && insertingMultipleRows

/-- `needs_stmt_savepoint` of `emit_program_for_update`, outside of triggers. -/
def updateNeedsSavepoint (orConflict : Option ResolveType) : Bool :=
  (effective orConflict .abort).reverts

/-- How the code of an INSERT goes on when a rowid or a unique index already has the key. -/
inductive Handling where
  /-- `Goto next_record_label` -/
  | skipRow
  /-- the code that removes or rewrites the old row follows -/
  | goOn
  /-- `Halt` -/
  | stop
deriving DecidableEq

def insertHandling (onConflict : Option ResolveType) (own : ResolveType) : Option UpsertDo → Handling
  | some .nothing => .skipRow
  | some .update => .goOn
  | none =>
    match effective onConflict own with
    | .ignore => .skipRow
    | .replace => .goOn
    | .abort | .fail | .rollback => .stop

end OxiSql.Translate
