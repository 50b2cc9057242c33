import DrStore.Base.Programs
import DrStore.Leases.Authority
import DrStore.Leases.RowEncoding

/-! # The persistent stores (lease/_sqlite.py, lease/_postgres.py)

Both stores run a transition inside one SQL transaction: read the row of the key, decode it,
run the transition at the database's time, and write the new row back only if it differs, with
an insert for an absent row and a conditional update, which matches all eight old columns, for
a present one. The programs below issue the statements of the source in its order; `answer` is
an engine that serves one transaction at a time. -/
namespace DrStore.Leases.SqlStores
open DrStore.Base.Calendar DrStore.Base.Fallible DrStore.Base.Programs
open DrStore.Leases.Models DrStore.Leases.Authority DrStore.Leases.RowEncoding

/-! ## Statements -/

inductive Stmt where
  | begin
  /-- `SELECT … WHERE semantic_key = ?`; PostgreSQL's is `FOR UPDATE`. -/
  | selectRow (key : String)
  | selectNow
  | insertRow (key : String) (row : RawRow)
  /-- `INSERT … ON CONFLICT (semantic_key) DO NOTHING RETURNING 1`. -/
  | insertIfAbsent (key : String) (row : RawRow)
  | updateRow (key : String) (row expected : RawRow)
  | commit
  | rollback

/-- What a statement gives back: a row, a time, whether a row was inserted, a row count. Writes
may be refused by a constraint. -/
abbrev StmtReply : Stmt → Type
  | .selectRow _ => Option RawRow
  | .selectNow => Option SqlValue
  | .insertRow _ _ => Except LeaseError Unit
  | .insertIfAbsent _ _ => Except LeaseError Bool
  | .updateRow _ _ _ => Except LeaseError Nat
  | .begin | .commit | .rollback => Unit

abbrev SqlProg := Prog Stmt StmtReply LeaseError

variable {α : Type}

namespace Sql

def begin : SqlProg Unit := .exec .begin .pure
def commit : SqlProg Unit := .exec .commit .pure
def selectNow : SqlProg (Option SqlValue) := .exec .selectNow .pure
def selectRow (key : String) : SqlProg (Option RawRow) := .exec (.selectRow key) .pure
def insertRow (values : String × RawRow) : SqlProg Unit :=
  .exec (.insertRow values.1 values.2) Prog.ofExcept
def insertIfAbsent (values : String × RawRow) : SqlProg Bool :=
  .exec (.insertIfAbsent values.1 values.2) Prog.ofExcept
def updateRow (key : String) (row expected : RawRow) : SqlProg Nat :=
  .exec (.updateRow key row expected) Prog.ofExcept

end Sql

/-- The authority time in the reply to a time query; `store` names the database in errors. -/
def readNow (codec : Codec) (store : String) : Option SqlValue → Except LeaseError Datetime
  | none => .error (.corruption (store ++ " did not return authority time"))
  | some value => do
    let text ← requirePersistedText value (store ++ " authority time")
    let reading ← fromisoformat codec text
    requireUtc reading (store ++ " authority time")

theorem readNow_isoformat (codec : Codec) (store : String) (now : Datetime) :
    readNow codec store (some (.text now.isoformat)) = .ok now := by
  rw [readNow, requirePersistedText, ok_bind, fromisoformat_isoformat, ok_bind]
  rfl

/-! ## SQLite -/

namespace SQLiteStore

def databaseNow (codec : Codec) : SqlProg Datetime := do
  let raw ← Sql.selectNow
  Prog.ofExcept (readNow codec "SQLite" raw)

def writeRow (codec : Codec) (key : String) (original updated : Option LeaseRow) : SqlProg Unit :=
  if rowEq updated original then pure ()
  else match original, updated with
  | none, none => .fail (.corruption "transition removed an absent row")
  | none, some row => Sql.insertRow (rowInsertValues codec row)
  | some _, none => .fail (.corruption "authority rows cannot be deleted")
  | some old, some row => do
    let rowcount ← Sql.updateRow key (rowUpdateValues codec row) (rowMatchValues codec old)
    if rowcount ≠ 1 then .fail (.corruption "conditional SQLite authority update lost")
    else pure ()

def body (codec : Codec) (key : String) (tr : Transition α) : SqlProg α := do
  Sql.begin
  let now ← databaseNow codec
  let raw ← Sql.selectRow key
  let original ← Prog.ofExcept (decodeRow codec key raw)
  let (updated, result) ← Prog.ofExcept (tr original now)
  writeRow codec key original updated
  Sql.commit
  return result

/-- `_SQLiteStore.transaction`. -/
def transaction (codec : Codec) (key : String) (tr : Transition α) : SqlProg α :=
  (body codec key tr).settle fun
    | .ok result => .pure result
    | .error e => Prog.closing .rollback (.error e)

end SQLiteStore

/-! ## PostgreSQL -/

namespace PostgreSQLStore

def databaseNow (codec : Codec) : SqlProg Datetime := do
  let raw ← Sql.selectNow
  Prog.ofExcept (readNow codec "PostgreSQL" raw)

/-- The conditional update that ends a transaction on a present row. -/
def updateRow (codec : Codec) (key : String) (original : LeaseRow) (updated : Option LeaseRow)
    (result : α) : SqlProg α :=
  match updated with
  | none => .fail (.corruption "authority rows cannot be deleted")
  | some row => do
    let rowcount ← Sql.updateRow key (rowUpdateValues codec row) (rowMatchValues codec original)
    if rowcount ≠ 1 then .fail (.corruption "conditional PostgreSQL authority update lost")
    else return result

/-- After a lost insert: read the winner's row and run the transition again on it. -/
def retry (codec : Codec) (key : String) (tr : Transition α) : SqlProg α := do
  let raw ← Sql.selectRow key
  let original ← Prog.ofExcept (decodeRow codec key raw)
  match original with
  | none => .fail (.corruption "conflicting PostgreSQL row disappeared")
  | some original => do
    let now ← databaseNow codec
    let (updated, result) ← Prog.ofExcept (tr (some original) now)
    if rowEq updated (some original) then return result
    else updateRow codec key original updated result

def body (codec : Codec) (key : String) (tr : Transition α) : SqlProg α := do
  let raw ← Sql.selectRow key
  let original ← Prog.ofExcept (decodeRow codec key raw)
  let now ← databaseNow codec
  let (updated, result) ← Prog.ofExcept (tr original now)
  if rowEq updated original then return result
  else match original with
  | some original => updateRow codec key original updated result
  | none => match updated with
    | none => .fail (.corruption "transition removed an absent row")
    | some row => do
      let inserted ← Sql.insertIfAbsent (rowInsertValues codec row)
      if inserted then return result else retry codec key tr

/-- `_PostgreSQLStore.transaction`: the connection commits on return and rolls back on raise. -/
def transaction (codec : Codec) (key : String) (tr : Transition α) : SqlProg α := do
  Sql.begin
  (body codec key tr).settle fun
    | .ok result => Prog.closing .commit (.ok result)
    | .error e => Prog.closing .rollback (.error e)

end PostgreSQLStore

/-! ## One transaction at a time -/

abbrev Table := String → Option RawRow

def Table.set (table : Table) (key : String) (row : RawRow) : Table :=
  fun k => if k = key then some row else table k

/-- The table's constraints: storage classes, enumeration values, a positive 64-bit fence, and
either an expiry or a terminal record. -/
def checkRow (row : RawRow) : Bool :=
  match row with
  | ⟨.text _, .text policy, .text state, .text _, .text _, .integer fence, expiresAt,
      terminalJson⟩ =>
    ["idempotent", "durable_workflow", "no_redrive"].contains policy &&
      ["leased", "succeeded", "failed", "recovery_required"].contains state &&
      decide (0 < fence ∧ fence ≤ maxFence) &&
      match expiresAt, terminalJson with
      | .text _, .null => state == "leased"
      | .null, .text _ => state != "leased"
      | _, _ => false
  | _ => false

def checkError : LeaseError := .database "CHECK constraint failed"

/-- The table, and the one to go back to while a transaction is open. -/
structure Db where
  table : Table
  saved : Option Table

def answer (now : Datetime) (db : Db) : (stmt : Stmt) → StmtReply stmt × Db
  | .begin => ((), ⟨db.table, some db.table⟩)
  | .commit => ((), ⟨db.table, none⟩)
  | .rollback => ((), ⟨db.saved.getD db.table, none⟩)
  | .selectRow key => (db.table key, db)
  | .selectNow => (some (.text now.isoformat), db)
  | .insertRow key row =>
    if checkRow row = false then (.error checkError, db)
    else match db.table key with
    | some _ => (.error (.database "UNIQUE constraint failed"), db)
    | none => (.ok (), ⟨db.table.set key row, db.saved⟩)
  | .insertIfAbsent key row =>
    if checkRow row = false then (.error checkError, db)
    else match db.table key with
    | some _ => (.ok false, db)
    | none => (.ok true, ⟨db.table.set key row, db.saved⟩)
  | .updateRow key row expected =>
    if db.table key ≠ some expected then (.ok 0, db)
    else if checkRow row = false then (.error checkError, db)
    else (.ok 1, ⟨db.table.set key row, db.saved⟩)

end DrStore.Leases.SqlStores
