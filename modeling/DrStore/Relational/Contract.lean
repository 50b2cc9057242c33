import DrStore.Base.Exclusive
import DrStore.Base.PyText
import DrStore.Base.Collections
import DrStore.Leases.RowEncoding

/-! # Pinned table contracts (relational/_helpers.py, sqlite.py, postgres.py)

What the catalog of a database says of a table is compared with what the code pins: the columns
in order, then the table definition up to white space (SQLite), or the PRIMARY KEY and CHECK
constraints in any order (PostgreSQL). A metadata row names the component and its version. Any
query may raise. The catalog queries themselves and `connect_sqlite` are left out. -/
namespace DrStore.Relational.Contract
open DrStore.Base.Collections DrStore.Base.Exclusive DrStore.Base.Programs DrStore.Base.PyText
open DrStore.Leases.RowEncoding

/-! ## Contracts and mismatches -/

/-- Name, type, `NOT NULL`, position in the primary key. -/
structure SqliteColumn where
  name : String
  columnType : String
  notNull : Bool
  primaryKey : Int
deriving DecidableEq

structure PostgresColumn where
  name : String
  columnType : String
  notNull : Bool
  ordinalPosition : Int
  collationSchema : Option String
  collationName : Option String
  collationProvider : Option String
  collationIsDeterministic : Option Bool
  collationEncoding : Option Int
deriving DecidableEq

structure PostgresConstraint where
  table : String
  constraintType : String
  columns : List String
  expression : Option String
  deferrable : Bool
  deferred : Bool
  validated : Bool
  noInherit : Bool
deriving DecidableEq

/-- A value of a constraint row as the driver returns it; of a sequence, an item that is no
string is `none`. `text` is what `str` makes of the others. -/
inductive Cell where
  | null
  | str (s : String)
  | bool (b : Bool)
  | seq (items : List (Option String)) (text : String)
  | other (text : String)
deriving DecidableEq

/-- What a mismatch reports as expected and as found. -/
inductive Detail where
  | sqliteColumns (columns : List SqliteColumn)
  | postgresColumns (columns : List PostgresColumn)
  | definition (sql : Option String)
  | text (text : String)
  | number (n : Nat)
  | tables (names : List String)
  | inventories (allowed : List (List String))
  | version (component : String) (version : Int)
  | row (row : Option (List SqlValue))
  | rows (rows : List (List SqlValue))
  | cells (cells : List Cell)
deriving DecidableEq

structure RelationalContractMismatchError where
  table : String
  aspect : String
  expected : Detail
  actual : Detail
deriving DecidableEq

/-- A mismatch, or whatever the database raised. -/
inductive Failure where
  | mismatch (e : RelationalContractMismatchError)
  | raised
deriving DecidableEq

/-- A body over queries that may raise. -/
abbrev Body (Query : Type) (Reply : Query → Type) (α : Type) :=
  Prog Query (fun q => Option (Reply q)) Failure α

/-! ## Helpers -/

def normalizedSql (value : String) : String := String.ofList (joinWords (words value.toList))

/-- `str.replace(old, new, 1)`. -/
def replaceFirst (old new : List Char) : List Char → List Char
  | [] => if old = [] then new else []
  | c :: cs =>
    if old.isPrefixOf (c :: cs) then new ++ (c :: cs).drop old.length
    else c :: replaceFirst old new cs

theorem replaceFirst_self {old : List Char} (new cs : List Char) (hold : old ≠ []) :
    replaceFirst old new (old ++ cs) = new ++ cs := by
  cases old with
  | nil => exact absurd rfl hold
  | cons c old =>
    have hprefix : (c :: old).isPrefixOf (c :: (old ++ cs)) = true := by
      rw [List.isPrefixOf_iff_prefix]
      exact List.prefix_append (c :: old) cs
    rw [List.cons_append, replaceFirst, if_pos hprefix, ← List.cons_append, List.drop_left]

def isExactComponentVersionRow : Option (List SqlValue) → String → Int → Bool
  | some [.text component', .integer version'], component, version =>
    component' == component && version' == version
  | _, _, _ => false

theorem isExactComponentVersionRow_iff {row : Option (List SqlValue)} {component : String}
    {version : Int} : isExactComponentVersionRow row component version = true ↔
      row = some [.text component, .integer version] := by
  unfold isExactComponentVersionRow
  split
  · simp
  · rename_i hne
    refine iff_of_false (by simp) ?_
    rintro rfl
    exact hne _ _ rfl

section Metadata

variable {Query : Type} {Reply : Query → Type}

/-- Insert the version of a component that has none, else check it. -/
def createComponentMetadata (select : Body Query Reply (Option (List SqlValue)))
    (insert : Body Query Reply Unit) (metadataTable component : String) (version : Int) :
    Body Query Reply Unit := do
  let row ← select
  if row = none then insert
  else if isExactComponentVersionRow row component version then return ()
  else .fail (.mismatch ⟨metadataTable, "schema version", .version component version, .row row⟩)

def verifyComponentMetadata (select : Body Query Reply (Option (List SqlValue)))
    (metadataTable component : String) (version : Int) : Body Query Reply Unit := do
  let row ← select
  if isExactComponentVersionRow row component version then return ()
  else .fail (.mismatch ⟨metadataTable, "schema metadata", .version component version, .row row⟩)

end Metadata

/-! ## SQLite -/

/-- A row of `PRAGMA table_info`, less its `cid` and default. -/
structure TableInfo where
  name : String
  columnType : String
  notNull : Int
  primaryKey : Int

inductive SqliteQuery where
  | ownedTables (names : List String)
  | execute (sql : String)
  | selectVersion (metadataTable component : String)
  | insertVersion (metadataTable component : String) (version : Int)
  | tableInfo (table : String)
  | tableSql (table : String)

/-- `fetchall`, `fetchone`, or nothing. -/
abbrev SqliteReply : SqliteQuery → Type
  | .ownedTables _ => List (List SqlValue)
  | .execute _ => Unit
  | .selectVersion _ _ => Option (List SqlValue)
  | .insertVersion _ _ _ => Unit
  | .tableInfo _ => List TableInfo
  | .tableSql _ => Option SqlValue

abbrev SqliteBody (α : Type) := Body SqliteQuery SqliteReply α

namespace Sqlite

def query (q : SqliteQuery) : SqliteBody (SqliteReply q) := ask .raised q

def sqliteTableColumns (info : List TableInfo) : List SqliteColumn :=
  info.map fun row => ⟨row.name, row.columnType, row.notNull != 0, row.primaryKey⟩

/-- The text of the definition, normalized; nothing if there is no text. -/
def actualSql : Option SqlValue → Option String
  | some (.text sql) => some (normalizedSql sql)
  | _ => none

def expectedSql (createSql : String) : String :=
  String.ofList (replaceFirst "CREATE TABLE IF NOT EXISTS".toList "CREATE TABLE".toList
    (normalizedSql createSql).toList)

/-- What SQLite keeps of a statement is what the check expects of it. -/
theorem actualSql_created (text : String) :
    actualSql (some (.text ("CREATE TABLE " ++ text))) =
      some (expectedSql ("\nCREATE TABLE IF NOT EXISTS " ++ text ++ "\n")) := by
  have hcreate : words ("\nCREATE TABLE IF NOT EXISTS " ++ text ++ "\n").toList =
      ["CREATE".toList, "TABLE".toList, "IF".toList, "NOT".toList, "EXISTS".toList] ++
        words text.toList := by
    rw [String.toList_append, String.toList_append, words]
    show wordsFrom [] (_ ++ ['\n']) = _
    rw [wordsFrom_concat_space _ _ (by decide)]
    rfl
  have hstored : words ("CREATE TABLE " ++ text).toList =
      ["CREATE".toList, "TABLE".toList] ++ words text.toList := by
    rw [String.toList_append]
    rfl
  have hjoin : ∀ ws, ∃ cs,
      joinWords (["CREATE".toList, "TABLE".toList, "IF".toList, "NOT".toList, "EXISTS".toList] ++ ws) =
        "CREATE TABLE IF NOT EXISTS".toList ++ cs ∧
      joinWords (["CREATE".toList, "TABLE".toList] ++ ws) = "CREATE TABLE".toList ++ cs := by
    intro ws
    cases ws with
    | nil => exact ⟨[], rfl, rfl⟩
    | cons w ws => exact ⟨' ' :: joinWords (w :: ws), rfl, rfl⟩
  obtain ⟨cs, hfull, hshort⟩ := hjoin (words text.toList)
  have htext : (String.ofList ("CREATE TABLE IF NOT EXISTS".toList ++ cs)).toList =
      "CREATE TABLE IF NOT EXISTS".toList ++ cs := String.toList_ofList
  rw [actualSql, normalizedSql, hstored, hshort, expectedSql, normalizedSql, hcreate, hfull, htext,
    replaceFirst_self _ _ (by decide)]

def verifySqliteTable (table createSql : String) (columns : List SqliteColumn) : SqliteBody Unit := do
  let actualColumns := sqliteTableColumns (← query (.tableInfo table))
  if actualColumns ≠ columns then
    .fail (.mismatch ⟨table, "columns", .sqliteColumns columns, .sqliteColumns actualColumns⟩)
  else
    let rawSql ← query (.tableSql table)
    if actualSql rawSql ≠ some (expectedSql createSql) then
      .fail (.mismatch ⟨table, "table definition", .definition (expectedSql createSql),
        .definition (actualSql rawSql)⟩)
    else return ()

def tableName? : List SqlValue → Option String
  | [.text name] => some name
  | _ => none

def sqliteOwnedTables (names : List String) : SqliteBody (List String) := do
  let rows ← query (.ownedTables names)
  match rows.mapM tableName? with
  | some owned => return owned
  | none => .fail (.mismatch ⟨"<catalog>", "owned table inventory", .text "text table names",
      .rows rows⟩)

def createMetadata (metadataTable component : String) (version : Int) : SqliteBody Unit :=
  createComponentMetadata (query (.selectVersion metadataTable component))
    (query (.insertVersion metadataTable component version)) metadataTable component version

def verifyMetadata (metadataTable component : String) (version : Int) : SqliteBody Unit :=
  verifyComponentMetadata (query (.selectVersion metadataTable component)) metadataTable component
    version

end Sqlite

/-! ## PostgreSQL -/

/-- A row of the columns query. -/
structure ColumnRow where
  name : String
  dataType : String
  isNullable : String
  ordinalPosition : Int
  collationSchema : Option String
  collationName : Option String
  collationProvider : Option String
  collationIsDeterministic : Option Bool
  collationEncoding : Option Int

inductive PostgresQuery where
  | serverEncoding
  | selectTables (names : List String)
  | execute (sql : String)
  | selectVersion (metadataTable component : String)
  | insertVersion (metadataTable component : String) (version : Int)
  | columns (table : String)
  | constraints (table : String)

abbrev PostgresReply : PostgresQuery → Type
  | .serverEncoding => Option (List SqlValue)
  | .selectTables _ => List String
  | .execute _ => Unit
  | .selectVersion _ _ => Option (List SqlValue)
  | .insertVersion _ _ _ => Unit
  | .columns _ => List ColumnRow
  | .constraints _ => List (List Cell)

abbrev PostgresBody (α : Type) := Body PostgresQuery PostgresReply α

namespace Postgres

def query (q : PostgresQuery) : PostgresBody (PostgresReply q) := ask .raised q

def postgresTableColumns (rows : List ColumnRow) : List PostgresColumn :=
  rows.map fun row => ⟨row.name, row.dataType, row.isNullable == "NO", row.ordinalPosition,
    row.collationSchema, row.collationName, row.collationProvider, row.collationIsDeterministic,
    row.collationEncoding⟩

def boolText (b : Bool) : String := if b then "True" else "False"

/-- `str(...)`. -/
def cellText : Cell → String
  | .null => "None"
  | .str s => s
  | .bool b => boolText b
  | .seq _ text => text
  | .other text => text

def columnNames? : Cell → Option (List String)
  | .seq items _ => items.mapM id
  | _ => none

def flag? : Cell → Option Bool
  | .bool b => some b
  | _ => none

def expression? : Cell → Option String
  | .null => none
  | cell => some (cellText cell)

/-- One constraint row: eight values, a sequence of names, four booleans. -/
def parseConstraint : List Cell → Except RelationalContractMismatchError PostgresConstraint
  | row@([tableName, constraintType, columns, expression, deferrable, deferred, validated,
      noInherit]) =>
    match columnNames? columns with
    | none => .error ⟨cellText tableName, "constrained columns",
        .text "a sequence of column names", .cells [columns]⟩
    | some names =>
      match flag? deferrable, flag? deferred, flag? validated, flag? noInherit with
      | some b₁, some b₂, some b₃, some b₄ =>
        .ok ⟨cellText tableName, cellText constraintType, names, expression? expression,
          b₁, b₂, b₃, b₄⟩
      | _, _, _, _ => .error ⟨cellText tableName, "constraint flags", .text "four booleans",
          .cells (row.drop 4)⟩
  | row => .error ⟨"<catalog>", "constraint row shape", .number 8, .cells row⟩

def parsePostgresConstraints : List (List Cell) →
    Except RelationalContractMismatchError (List PostgresConstraint)
  | [] => return []
  | row :: rows => do
    let constraint ← parseConstraint row
    let constraints ← parsePostgresConstraints rows
    return constraint :: constraints

/-- `"; ".join(...)`, `", ".join(...)`. -/
def join (separator : String) : List String → String
  | [] => ""
  | [text] => text
  | text :: texts => text ++ separator ++ join separator texts

def describePostgresConstraint (c : PostgresConstraint) : String :=
  let names := join ", " c.columns
  let definition := if c.constraintType = "p" then "PRIMARY KEY (" ++ names ++ ")"
    else "CHECK (" ++ c.expression.getD "None" ++ ") on columns (" ++ names ++ ")"
  c.table ++ " " ++ definition ++ " [deferrable=" ++ boolText c.deferrable ++ ", deferred=" ++
    boolText c.deferred ++ ", validated=" ++ boolText c.validated ++ ", no_inherit=" ++
    boolText c.noInherit ++ "]"

def describeAll (constraints : List PostgresConstraint) : String :=
  join "; " (constraints.map describePostgresConstraint)

/-- What is missing, then what is unexpected, each only if there is some. -/
def differences (missing remaining : List PostgresConstraint) : List String :=
  (if missing = [] then [] else ["missing " ++ describeAll missing]) ++
    if remaining = [] then [] else ["unexpected " ++ describeAll remaining]

/-- The only table concerned, if there is one. -/
def affectedTable (constraints : List PostgresConstraint) : String :=
  match (constraints.map PostgresConstraint.table).eraseDups with
  | [table] => table
  | _ => "<constraint catalog>"

def compareConstraints (constraints actual : List PostgresConstraint) :
    Except RelationalContractMismatchError Unit :=
  let (missing, remaining) := takeEach constraints actual
  if missing = [] ∧ remaining = [] then .ok ()
  else .error ⟨affectedTable (missing ++ remaining), "PRIMARY KEY and CHECK constraints",
    .text (describeAll constraints), .text (join "; " (differences missing remaining))⟩

def verifyPostgresTable (table : String) (columns : List PostgresColumn)
    (constraints : List PostgresConstraint) : PostgresBody Unit := do
  let actualColumns := postgresTableColumns (← query (.columns table))
  if actualColumns ≠ columns then
    .fail (.mismatch ⟨table, "columns", .postgresColumns columns, .postgresColumns actualColumns⟩)
  else
    let rows ← query (.constraints table)
    Prog.ofExcept (((parsePostgresConstraints rows).bind (compareConstraints constraints)).mapError
      .mismatch)

def createMetadata (metadataTable component : String) (version : Int) : PostgresBody Unit :=
  createComponentMetadata (query (.selectVersion metadataTable component))
    (query (.insertVersion metadataTable component version)) metadataTable component version

def verifyMetadata (metadataTable component : String) (version : Int) : PostgresBody Unit :=
  verifyComponentMetadata (query (.selectVersion metadataTable component)) metadataTable component
    version

end Postgres

/-! ## Catalogs -/

/-- A table of a SQLite database: what `table_info` and `sqlite_master` say of it, and its rows. -/
structure SqliteTable where
  info : List TableInfo
  sql : SqlValue
  rows : List (List SqlValue)

abbrev SqliteCatalog := String → Option SqliteTable

structure PostgresTable where
  columns : List ColumnRow
  constraints : List (List Cell)
  rows : List (List SqlValue)

structure PostgresCatalog where
  encoding : Option (List SqlValue)
  tables : String → Option PostgresTable

/-- The row of a component. -/
def versionRow (rows : List (List SqlValue)) (component : String) : Option (List SqlValue) :=
  rows.find? fun row => row.head? == some (.text component)

theorem versionRow_self (component : String) (version : Int) :
    versionRow [[.text component, .integer version]] component =
      some [.text component, .integer version] := by
  simp [versionRow]

/-- The queries on a catalog; `create` says what a `CREATE TABLE IF NOT EXISTS` makes. -/
def SqliteQuery.Does (create : String → Option (String × SqliteTable)) (c : SqliteCatalog) :
    (q : SqliteQuery) → SqliteReply q → SqliteCatalog → Prop
  | .ownedTables names, rows, c' => c' = c ∧
    ∀ row, row ∈ rows ↔ ∃ name ∈ names, (c name).isSome = true ∧ row = [.text name]
  | .execute sql, _, c' => ∃ name table, create sql = some (name, table) ∧
    c' = if (c name).isSome = true then c else Function.update c name (some table)
  | .selectVersion metadataTable component, row, c' => c' = c ∧ ∃ table,
    c metadataTable = some table ∧ row = versionRow table.rows component
  | .insertVersion metadataTable component version, _, c' => ∃ table,
    c metadataTable = some table ∧ c' = Function.update c metadataTable
      (some { table with rows := table.rows ++ [[.text component, .integer version]] })
  | .tableInfo name, info, c' => c' = c ∧ info = ((c name).map SqliteTable.info).getD []
  | .tableSql name, sql, c' => c' = c ∧ sql = (c name).map SqliteTable.sql

/-- A PostgreSQL `CREATE TABLE` raises when the table is there. -/
def PostgresQuery.Does (create : String → Option (String × PostgresTable)) (c : PostgresCatalog) :
    (q : PostgresQuery) → PostgresReply q → PostgresCatalog → Prop
  | .serverEncoding, row, c' => c' = c ∧ row = c.encoding
  | .selectTables names, found, c' => c' = c ∧
    ∀ name, name ∈ found ↔ name ∈ names ∧ (c.tables name).isSome = true
  | .execute sql, _, c' => ∃ name table, create sql = some (name, table) ∧ c.tables name = none ∧
    c' = { c with tables := Function.update c.tables name (some table) }
  | .selectVersion metadataTable component, row, c' => c' = c ∧ ∃ table,
    c.tables metadataTable = some table ∧ row = versionRow table.rows component
  | .insertVersion metadataTable component version, _, c' => ∃ table,
    c.tables metadataTable = some table ∧ c' = { c with
      tables := Function.update c.tables metadataTable
        (some { table with rows := table.rows ++ [[.text component, .integer version]] }) }
  | .columns name, rows, c' => c' = c ∧
    rows = ((c.tables name).map PostgresTable.columns).getD []
  | .constraints name, rows, c' => c' = c ∧
    rows = ((c.tables name).map PostgresTable.constraints).getD []

/-! ## What the checks accept -/

/-- A body that only checks: it raises what the database raised, returns where `P` holds, and
reports a mismatch where it does not. -/
def Decides {C Query : Type} {Reply : Query → Type} (does : C → (q : Query) → Reply q → C → Prop)
    (body : Body Query Reply Unit) (P : Prop) (c : C) : Prop :=
  body.ensures (mayRaise does) (fun out c' => c' = c ∧ (out = .error .raised ∨
    (out = .ok () ∧ P) ∨ ((∃ e, out = .error (.mismatch e)) ∧ ¬ P))) c

theorem Decides.congr {C Query : Type} {Reply : Query → Type}
    {does : C → (q : Query) → Reply q → C → Prop} {body : Body Query Reply Unit} {P P' : Prop}
    {c : C} (h : Decides does body P c) (hP : P ↔ P') : Decides does body P' c :=
  propext hP ▸ h

/-- One check after another. -/
theorem Decides.and {C Query : Type} {Reply : Query → Type}
    {does : C → (q : Query) → Reply q → C → Prop} {body body' : Body Query Reply Unit} {P P' : Prop}
    {c : C} (h : Decides does body P c) (h' : P → Decides does body' P' c) :
    Decides does (do body; body') (P ∧ P') c := by
  refine Prog.ensures_bind _ h ?_ ?_
  · rintro _ _ ⟨rfl, heq | ⟨_, hp⟩ | ⟨⟨_, heq⟩, _⟩⟩
    · cases heq
    · refine Prog.ensures_mono (h' hp) ?_
      rintro out _ ⟨rfl, hout | ⟨hout, hp'⟩ | ⟨hout, hp'⟩⟩
      · exact ⟨rfl, .inl hout⟩
      · exact ⟨rfl, .inr (.inl ⟨hout, hp, hp'⟩)⟩
      · exact ⟨rfl, .inr (.inr ⟨hout, fun hboth => hp' hboth.2⟩)⟩
    · cases heq
  · rintro e _ ⟨rfl, heq | ⟨heq, _⟩ | ⟨⟨e', heq⟩, hp⟩⟩
    · cases heq
      exact ⟨rfl, .inl rfl⟩
    · cases heq
    · cases heq
      exact ⟨rfl, .inr (.inr ⟨⟨e', rfl⟩, fun hboth => hp hboth.1⟩)⟩

/-- A check that can pass. -/
def Accepts {C Query : Type} {Reply : Query → Type} (does : C → (q : Query) → Reply q → C → Prop)
    (body : Body Query Reply Unit) (c : C) : Prop :=
  body.allows (mayRaise does) (fun out c' => out = .ok () ∧ c' = c) c

theorem Accepts.and {C Query : Type} {Reply : Query → Type}
    {does : C → (q : Query) → Reply q → C → Prop} {body body' : Body Query Reply Unit} {c : C}
    (h : Accepts does body c) (h' : Accepts does body' c) : Accepts does (do body; body') c := by
  refine Prog.allows_after (fun _ c' => c' = c) (Prog.allows_mono h ?_) ?_
  · rintro _ _ ⟨rfl, rfl⟩
    exact ⟨(), rfl, rfl⟩
  · rintro _ _ rfl
    exact h'

theorem accepts_metadata {C Query : Type} {Reply : Query → Type}
    {does : C → (q : Query) → Reply q → C → Prop} {select : Body Query Reply (Option (List SqlValue))}
    {metadataTable component : String} {version : Int} {c : C}
    (hselect : select.allows (mayRaise does) (fun out c' => ∃ row, out = .ok row ∧
      row = some [.text component, .integer version] ∧ c' = c) c) :
    Accepts does (verifyComponentMetadata select metadataTable component version) c := by
  refine Prog.allows_after _ hselect ?_
  rintro row _ ⟨hrow, rfl⟩
  rw [if_pos (isExactComponentVersionRow_iff.mpr hrow)]
  exact ⟨rfl, rfl⟩

theorem decides_metadata {C Query : Type} {Reply : Query → Type}
    {does : C → (q : Query) → Reply q → C → Prop} {select : Body Query Reply (Option (List SqlValue))}
    {metadataTable component : String} {version : Int} {c : C} {row : Option (List SqlValue)}
    (hselect : select.ensures (mayRaise does) (fun out c' => c' = c ∧
      (out = .error .raised ∨ out = .ok row)) c) :
    Decides does (verifyComponentMetadata select metadataTable component version)
      (row = some [.text component, .integer version]) c := by
  refine Prog.ensures_bind _ hselect ?_ ?_
  · rintro row' _ ⟨rfl, heq | heq⟩
    · cases heq
    · cases heq
      rw [← isExactComponentVersionRow_iff]
      by_cases hrow : isExactComponentVersionRow row component version = true
      · rw [if_pos hrow]
        exact ⟨rfl, .inr (.inl ⟨rfl, hrow⟩)⟩
      · rw [if_neg hrow]
        exact ⟨rfl, .inr (.inr ⟨⟨_, rfl⟩, hrow⟩)⟩
  · rintro e _ ⟨rfl, heq | heq⟩
    · cases heq
      exact ⟨rfl, .inl rfl⟩
    · cases heq

namespace Sqlite

/-- The columns of the contract, and its definition up to white space. -/
def Conforms (c : SqliteCatalog) (name createSql : String) (columns : List SqliteColumn) : Prop :=
  sqliteTableColumns (((c name).map SqliteTable.info).getD []) = columns ∧
    actualSql ((c name).map SqliteTable.sql) = some (expectedSql createSql)

/-- **`verify_sqlite_table` accepts the tables that conform, and no other.** -/
theorem verifySqliteTable_decides (create : String → Option (String × SqliteTable)) (c : SqliteCatalog)
    (name createSql : String) (columns : List SqliteColumn) :
    Decides (SqliteQuery.Does create) (verifySqliteTable name createSql columns)
      (Conforms c name createSql columns) c := by
  refine ensures_ask ⟨rfl, .inl rfl⟩ ?_
  rintro info c ⟨rfl, rfl⟩
  simp only []
  split
  · rename_i hcolumns
    exact ⟨rfl, .inr (.inr ⟨⟨_, rfl⟩, fun h => hcolumns h.1⟩)⟩
  · rename_i hcolumns
    refine ensures_ask ⟨rfl, .inl rfl⟩ ?_
    rintro sql c ⟨rfl, rfl⟩
    split
    · rename_i hsql
      exact ⟨rfl, .inr (.inr ⟨⟨_, rfl⟩, fun h => hsql h.2⟩)⟩
    · rename_i hsql
      exact ⟨rfl, .inr (.inl ⟨rfl, not_not.mp hcolumns, not_not.mp hsql⟩)⟩

theorem verifySqliteTable_accepts {create : String → Option (String × SqliteTable)} {c : SqliteCatalog}
    {name createSql : String} {columns : List SqliteColumn} (h : Conforms c name createSql columns) :
    Accepts (SqliteQuery.Does create) (verifySqliteTable name createSql columns) c := by
  refine allows_ask _ ⟨rfl, rfl⟩ ?_
  rw [if_neg (not_not.mpr h.1)]
  refine allows_ask _ ⟨rfl, rfl⟩ ?_
  rw [if_neg (not_not.mpr h.2)]
  exact ⟨rfl, rfl⟩

end Sqlite

namespace Postgres

theorem compareConstraints_ok_iff {constraints actual : List PostgresConstraint} :
    compareConstraints constraints actual = .ok () ↔ constraints.Perm actual := by
  rw [← takeEach_nil, compareConstraints]
  split
  rename_i missing remaining heq
  rw [heq]
  split
  · rename_i h
    exact iff_of_true rfl h
  · rename_i h
    exact iff_of_false (by simp) h

/-- **A mismatch of constraints names what is missing and what is unexpected**, each as often as
it is. -/
theorem compareConstraints_error {constraints actual : List PostgresConstraint}
    {e : RelationalContractMismatchError} (h : compareConstraints constraints actual = .error e) :
    ∃ missing remaining, (missing ≠ [] ∨ remaining ≠ []) ∧
      (∀ x, missing.count x = constraints.count x - actual.count x) ∧
      (∀ x, remaining.count x = actual.count x - constraints.count x) ∧
      e = ⟨affectedTable (missing ++ remaining), "PRIMARY KEY and CHECK constraints",
        .text (describeAll constraints), .text (join "; " (differences missing remaining))⟩ := by
  unfold compareConstraints at h
  have hcount := count_takeEach constraints actual
  revert h hcount
  split
  rename_i missing remaining heq
  intro h hcount
  rw [heq] at hcount
  split at h
  · cases h
  · rename_i hne
    cases h
    refine ⟨missing, remaining, ?_, fun x => (hcount x).1, fun x => (hcount x).2, rfl⟩
    by_contra hnone
    rw [not_or, not_not, not_not] at hnone
    exact hne hnone

/-- The columns of the contract in order, and its constraints in any order. -/
def Conforms (c : PostgresCatalog) (name : String) (columns : List PostgresColumn)
    (constraints : List PostgresConstraint) : Prop :=
  postgresTableColumns (((c.tables name).map PostgresTable.columns).getD []) = columns ∧
    ∃ actual, parsePostgresConstraints (((c.tables name).map PostgresTable.constraints).getD []) =
      .ok actual ∧ constraints.Perm actual

theorem verifyPostgresTable_cases (create : String → Option (String × PostgresTable))
    (c : PostgresCatalog) (name : String) (columns : List PostgresColumn)
    (constraints : List PostgresConstraint) :
    (verifyPostgresTable name columns constraints).ensures (mayRaise (PostgresQuery.Does create))
      (fun out c' => c' = c ∧ (out = .error .raised ∨
        (out = .ok () ∧ Conforms c name columns constraints) ∨
        ∃ e, out = .error (.mismatch e) ∧ ¬ Conforms c name columns constraints ∧
          ∀ actual, postgresTableColumns (((c.tables name).map PostgresTable.columns).getD []) =
              columns →
            parsePostgresConstraints (((c.tables name).map PostgresTable.constraints).getD []) =
              .ok actual → compareConstraints constraints actual = .error e)) c := by
  refine ensures_ask ⟨rfl, .inl rfl⟩ ?_
  rintro rows c ⟨rfl, rfl⟩
  simp only []
  split
  · rename_i hcolumns
    exact ⟨rfl, .inr (.inr ⟨_, rfl, fun h => hcolumns h.1, fun _ h => absurd h hcolumns⟩)⟩
  · rename_i hcolumns
    refine ensures_ask ⟨rfl, .inl rfl⟩ ?_
    rintro rows c ⟨rfl, rfl⟩
    show Prog.ensures _ (Prog.ofExcept (((parsePostgresConstraints (((c.tables name).map
      PostgresTable.constraints).getD [])).bind (compareConstraints constraints)).mapError _)) _ _
    cases hparse : parsePostgresConstraints (((c.tables name).map PostgresTable.constraints).getD
      []) with
    | error e =>
      refine ⟨rfl, .inr (.inr ⟨e, rfl, ?_, fun _ _ h => by cases h⟩)⟩
      rintro ⟨_, actual, hactual, _⟩
      rw [hparse] at hactual
      cases hactual
    | ok actual =>
      show Prog.ensures _ (Prog.ofExcept ((compareConstraints constraints actual).mapError _)) _ _
      cases hcompare : compareConstraints constraints actual with
      | error e =>
        refine ⟨rfl, .inr (.inr ⟨e, rfl, ?_, ?_⟩)⟩
        · rintro ⟨_, actual', hactual, hperm⟩
          rw [hparse] at hactual
          cases hactual
          rw [compareConstraints_ok_iff.mpr hperm] at hcompare
          cases hcompare
        · intro _ _ h
          cases h
          exact hcompare
      | ok _ =>
        exact ⟨rfl, .inr (.inl ⟨rfl, not_not.mp hcolumns, actual, hparse,
          compareConstraints_ok_iff.mp hcompare⟩)⟩

theorem verifyPostgresTable_accepts {create : String → Option (String × PostgresTable)}
    {c : PostgresCatalog} {name : String} {columns : List PostgresColumn}
    {constraints : List PostgresConstraint} (h : Conforms c name columns constraints) :
    Accepts (PostgresQuery.Does create) (verifyPostgresTable name columns constraints) c := by
  obtain ⟨hcolumns, actual, hparse, hperm⟩ := h
  refine allows_ask _ ⟨rfl, rfl⟩ ?_
  rw [if_neg (not_not.mpr hcolumns)]
  refine allows_ask _ ⟨rfl, rfl⟩ ?_
  rw [hparse, Except.bind, compareConstraints_ok_iff.mpr hperm]
  exact ⟨rfl, rfl⟩

theorem verifyPostgresTable_decides (create : String → Option (String × PostgresTable))
    (c : PostgresCatalog) (name : String) (columns : List PostgresColumn)
    (constraints : List PostgresConstraint) :
    Decides (PostgresQuery.Does create) (verifyPostgresTable name columns constraints)
      (Conforms c name columns constraints) c := by
  refine Prog.ensures_mono (verifyPostgresTable_cases create c name columns constraints) ?_
  rintro out _ ⟨rfl, hraised | hok | ⟨e, he, hnot, _⟩⟩
  · exact ⟨rfl, .inl hraised⟩
  · exact ⟨rfl, .inr (.inl hok)⟩
  · exact ⟨rfl, .inr (.inr ⟨⟨e, he⟩, hnot⟩)⟩

/-- **`verify_postgres_table` is exact.** Whatever the catalog holds, unless the database raises:
the check changes nothing; it passes just when the columns are those of the contract, in order,
and the constraints are those of the contract, in any order and each as often; and when only the
constraints differ, the error names those that are missing and those that are unexpected, each as
often as it is. -/
theorem verifyPostgresTable_exact (create : String → Option (String × PostgresTable))
    (c : PostgresCatalog) (name : String) (columns : List PostgresColumn)
    (constraints : List PostgresConstraint) :
    (verifyPostgresTable name columns constraints).ensures (mayRaise (PostgresQuery.Does create))
      (fun out c' => c' = c ∧ (out = .error .raised ∨
        (out = .ok () ∧ Conforms c name columns constraints) ∨
        ∃ e, out = .error (.mismatch e) ∧ ¬ Conforms c name columns constraints ∧
          ∀ actual, postgresTableColumns (((c.tables name).map PostgresTable.columns).getD []) =
              columns →
            parsePostgresConstraints (((c.tables name).map PostgresTable.constraints).getD []) =
              .ok actual →
            ∃ missing remaining, (missing ≠ [] ∨ remaining ≠ []) ∧
              (∀ x, missing.count x = constraints.count x - actual.count x) ∧
              (∀ x, remaining.count x = actual.count x - constraints.count x) ∧
              e = ⟨affectedTable (missing ++ remaining), "PRIMARY KEY and CHECK constraints",
                .text (describeAll constraints),
                .text (join "; " (differences missing remaining))⟩)) c := by
  refine Prog.ensures_mono (verifyPostgresTable_cases create c name columns constraints) ?_
  rintro out _ ⟨rfl, hraised | hok | ⟨e, he, hnot, hcompare⟩⟩
  · exact ⟨rfl, .inl hraised⟩
  · exact ⟨rfl, .inr (.inl hok)⟩
  · refine ⟨rfl, .inr (.inr ⟨e, he, hnot, ?_⟩)⟩
    intro actual hcolumns hparse
    exact compareConstraints_error (hcompare actual hcolumns hparse)

end Postgres

end DrStore.Relational.Contract
