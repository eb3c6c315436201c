import Mathlib.Data.List.Basic

/-!
# The `mysqlfs` file table (`storage`)

The methods run in `ExceptT FsErr (StateM Table)`: a failing statement keeps what the ones before
it wrote, as the database does outside a transaction. `newFile` takes a `fuel` that bounds its
recursion through `createParent`. Paths go through `filepath.Clean`, `Base`, `Dir` and `Join`.
-/

namespace MergeCore.Mysqlfs

/-! ## Paths -/

/-- The `/`-separated elements of a path, empty ones included. -/
def splitSlash : List Char → List String
  | [] => [""]
  | c :: cs =>
    if c = '/' then "" :: splitSlash cs
    else match splitSlash cs with
      | e :: es => ⟨c :: e.data⟩ :: es
      | [] => [⟨[c]⟩]

/-- The elements `Clean` keeps: no empty or `.` element, and `..` cancels the one before it. -/
def cleanElems (rooted : Bool) : List String → List String → List String
  | acc, [] => acc.reverse
  | acc, e :: es =>
    if e = "" ∨ e = "." then cleanElems rooted acc es
    else if e = ".." then
      match acc with
      | a :: acc' =>
        if a = ".." then cleanElems rooted (e :: acc) es else cleanElems rooted acc' es
      | [] => if rooted then cleanElems rooted [] es else cleanElems rooted [e] es
    else cleanElems rooted (e :: acc) es

/-- `filepath.Clean`. -/
def clean (path : String) : String :=
  let rooted := path.data.head? = some '/'
  let elems := cleanElems rooted [] (splitSlash path.data)
  if rooted then "/" ++ "/".intercalate elems
  else if elems = [] then "." else "/".intercalate elems

/-- `filepath.Base`: the last element, after trailing slashes. -/
def base (path : String) : String :=
  if path = "" then "."
  else
    let cs := path.data.reverse.dropWhile (· = '/')
    if cs = [] then "/" else ⟨(cs.takeWhile (· ≠ '/')).reverse⟩

/-- `filepath.Dir`: everything up to the last slash, cleaned. -/
def dir (path : String) : String := clean ⟨(path.data.reverse.dropWhile (· ≠ '/')).reverse⟩

/-- `filepath.Join` of two elements: the non-empty ones, joined and cleaned. -/
def join (a b : String) : String :=
  match [a, b].filter (· ≠ "") with
  | [] => ""
  | es => clean ("/".intercalate es)

/-! ## Modes -/

/-- `os.ModeDir`, `os.ModePerm`, `FileMode.IsDir` and `FileMode.Perm`. -/
def modeDir : UInt32 := 0x80000000

def modePerm : UInt32 := 0o777

def isDir (mode : UInt32) : Bool := mode &&& modeDir ≠ 0

def perm (mode : UInt32) : UInt32 := mode &&& modePerm

/-! ## The table -/

/-- A row, `FileDB`; `content` holds the file's bytes. -/
structure FileDB where
  id : Nat
  parentID : Option Nat
  name : String
  path : String
  content : List UInt8
  flag : Int
  mode : UInt32
deriving Repr, DecidableEq

/-- The rows in insertion order, and the next `AUTO_INCREMENT` id. -/
structure Table where
  rows : List FileDB
  autoIncrement : Nat
deriving Repr, DecidableEq

def Table.empty : Table := ⟨[], 1⟩

inductive FsErr
  /-- `fmt.Errorf("file already exists %q", path)`. -/
  | fileExists (path : String)
  /-- `os.ErrNotExist`. -/
  | notExist
  /-- `fmt.Errorf("dir: %s contains files", path)`. -/
  | dirContainsFiles (path : String)
  /-- The database refuses a second row with the same path (`UNIQUE (path)`). -/
  | duplicatePath (path : String)
  /-- A run-time panic: a `MustExec` that fails, a slice index out of range, a nil pointer. -/
  | panic
  /-- The recursion of `NewFile` or `OpenFile` went deeper than its fuel. -/
  | outOfFuel
  /-- `fmt.Errorf("cannot open directory: %s", filename)`. -/
  | cannotOpenDir (path : String)
  /-- `os.ErrClosed`. -/
  | closed
  /-- `io.EOF`. -/
  | eof
  /-- `errors.New("read not supported")`. -/
  | readNotSupported
  /-- `errors.New("write not supported")`. -/
  | writeNotSupported
  /-- A seek to a negative offset: the error of the reference filesystem, never of the code. -/
  | negativeOffset
deriving Repr, DecidableEq

abbrev DB := ExceptT FsErr (StateM Table)

def DB.exec {α : Type} (x : DB α) (t : Table) : Except FsErr α × Table := x.run.run t

section
variable {α β : Type} (t : Table)

@[simp] theorem exec_pure (a : α) : (pure a : DB α).exec t = (.ok a, t) := rfl

@[simp] theorem exec_bind (x : DB α) (f : α → DB β) : (x >>= f).exec t =
    match x.exec t with
    | (.ok a, t') => (f a).exec t'
    | (.error e, t') => (.error e, t') := by
  unfold DB.exec
  simp only [ExceptT.run_bind, StateT.run_bind]
  rcases x.run.run t with ⟨_ | a, t'⟩ <;> rfl

@[simp] theorem exec_tryCatch (x : DB α) (h : FsErr → DB α) : (tryCatch x h : DB α).exec t =
    match x.exec t with
    | (.ok a, t') => (.ok a, t')
    | (.error e, t') => (h e).exec t' := by
  simp only [DB.exec, tryCatch, tryCatchThe, MonadExceptOf.tryCatch, ExceptT.tryCatch, ExceptT.mk,
    StateT.run_bind, ExceptT.run]
  rcases StateT.run x t with ⟨_ | a, t'⟩ <;> rfl

@[simp] theorem exec_get : (get : DB Table).exec t = (.ok t, t) := rfl

@[simp] theorem exec_set (t' : Table) : (set t' : DB PUnit).exec t = (.ok (), t') := rfl

@[simp] theorem exec_modify (g : Table → Table) : (modify g : DB PUnit).exec t = (.ok (), g t) :=
  rfl

@[simp] theorem exec_throw (e : FsErr) : (throw e : DB α).exec t = (.error e, t) := rfl

end

/-- `INSERT INTO ... (name, path, mode, flag, content)` with empty content: the new row's id. -/
def insertRow (name path : String) (mode : UInt32) (flag : Int) : DB Nat := do
  let t ← get
  if t.rows.any (·.path = path) then throw (.duplicatePath path)
  set (⟨t.rows ++ [⟨t.autoIncrement, none, name, path, [], flag, mode⟩], t.autoIncrement + 1⟩ :
    Table)
  return t.autoIncrement

/-- `UPDATE ... WHERE id = ?`, the new values given by `g`. -/
def updateRow (id : Nat) (g : FileDB → FileDB) : DB Unit := do
  let t ← get
  let rows := t.rows.map fun r => if r.id = id then g r else r
  match rows.find? (fun r => r.id = id) with
  | some r =>
    if t.rows.any (fun q => q.id ≠ id ∧ q.path = r.path) then throw (.duplicatePath r.path)
    set ({ t with rows := rows } : Table)
  | none => pure ()

def deleteRow (id : Nat) : DB Unit :=
  modify fun t => { t with rows := t.rows.filter (·.id ≠ id) }

/-- `MustBegin`, ..., `Commit`: all of `x` or nothing, and a failing statement panics. -/
def transaction (x : DB Unit) : DB Unit := do
  let t ← get
  match x.exec t with
  | (.ok (), t') => set t'
  | (.error _, _) => throw .panic

/-! ## The methods -/

def getFile (path : String) : DB (Option FileDB) := do
  let path := clean path
  return (← get).rows.find? (·.path = path)

/-- `storage.GetFileID`: `0` when there is no such row. -/
def getFileID (path : String) : DB Nat := do
  return ((← getFile path).map (·.id)).getD 0

def childrenByFileID (id : Nat) : DB (List FileDB) := do
  return (← get).rows.filter (·.parentID = some id)

def childrenIdsByFileID (id : Nat) : DB (List Nat) := do
  return (← childrenByFileID id).map (·.id)

/-- The row of the path's directory, made by `newFile` when missing; none at the root. -/
def createParent (newFile : String → UInt32 → Int → DB (Option FileDB)) (path : String)
    (mode : UInt32) : DB (Option FileDB) := do
  let base := clean (dir path)
  if base = "/" then return none
  match ← newFile base (perm mode ||| modeDir) 0 with
  | some parent => return some parent
  | none => getFile base

def createParentAddToFile (newFile : String → UInt32 → Int → DB (Option FileDB))
    (path : String) (mode : UInt32) (f : FileDB) : DB FileDB := do
  match ← createParent newFile path mode with
  | none => return f
  | some parent =>
    updateRow f.id fun r => { r with parentID := some parent.id }
    return { f with parentID := some parent.id }

/-- A directory that exists is none, a file that exists an error. -/
def newFile : Nat → String → UInt32 → Int → DB (Option FileDB)
  | 0, _, _, _ => throw .outOfFuel
  | fuel + 1, path, mode, flag => do
    let path := clean path
    match ← getFile path with
    | some f => if isDir f.mode then return none else throw (.fileExists path)
    | none =>
      let id ← insertRow (base path) path mode flag
      let f ← createParentAddToFile (newFile fuel) path mode
        ⟨id, none, base path, path, [], flag, mode⟩
      return some f

def removeFile (path : String) : DB Unit := do
  let path := clean path
  let some f ← getFile path | throw .notExist
  let childrenIds ← childrenIdsByFileID f.id
  if isDir f.mode ∧ childrenIds.length ≠ 0 then throw (.dirContainsFiles path)
  deleteRow f.id

/-- `UPDATE ... SET content = ? WHERE id = ?`: the path stays, so `UNIQUE (path)` holds. -/
def updateFileContent (id : Nat) (content : List UInt8) : DB Unit :=
  modify fun t => { t with rows := t.rows.map fun r => if r.id = id then { r with content } else r }

/-- A directory moves with its direct children's paths, in one transaction. A file replaces what
is at the target; when the target's directory is made first, the update's error goes to a
shadowed `err` and is dropped. -/
def renameFile (fuel : Nat) (src dst : String) : DB Unit := do
  let src := clean src
  let dst := clean dst
  let some f ← getFile src | throw .notExist
  let newName := base dst
  if isDir f.mode then
    let children ← childrenByFileID f.id
    transaction do
      updateRow f.id fun r => { r with name := newName, path := dst }
      children.forM fun c => updateRow c.id fun r => { r with path := join dst c.name }
  else
    tryCatch (removeFile dst) fun _ => pure ()
    let newParentID ← getFileID (dir dst)
    if newParentID ≠ 0 then
      updateRow f.id fun r => { r with name := newName, path := dst, parentID := some newParentID }
    else
      let newParent ← createParent (newFile fuel) dst 0o644
      tryCatch (updateRow f.id fun r =>
        { r with name := newName, path := dst, parentID := newParent.map (·.id) }) fun _ => pure ()

end MergeCore.Mysqlfs
