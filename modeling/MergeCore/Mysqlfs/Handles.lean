import MergeCore.Mysqlfs.Storage
import Mathlib.Data.Int.Bitwise

/-!
# File handles of `Mysqlfs`

A shallow embedding of `Mysqlfs.OpenFile`, `Create` and `Open`, and of the methods of `File`:
`Duplicate`, `ReadAt`, `Read`, `WriteAt`, `Write`, `Seek`, `Close` and `Truncate`. A handle holds
its own copy of the file's bytes and an `int64` position, here an `Int`. `Read` copies the stored
bytes into the handle before it reads; `Write` stores the handle's whole copy; `Truncate` changes
the copy only.

The caller holds handles as pointers: a `Session` is the table with the handles, a call names
its handle by index, and `FS` is `DB` over the session, so a call that fails keeps what it
changed before the failure (`Read` has refreshed the copy when `ReadAt` refuses a closed
handle). The flag tests `isCreate`, ..., `isReadOnly` are not in the source.
-/

namespace MergeCore.Mysqlfs

/-! ## Flags and modes -/

/-- `os.O_RDONLY`. -/
def oRDONLY : Int := 0
/-- `os.O_WRONLY`. -/
def oWRONLY : Int := 1
/-- `os.O_RDWR`. -/
def oRDWR : Int := 2
/-- `os.O_CREATE`. -/
def oCREATE : Int := 0x40
/-- `os.O_TRUNC`. -/
def oTRUNC : Int := 0x200
/-- `os.O_APPEND`. -/
def oAPPEND : Int := 0x400

/-- `flag & bit != 0`. -/
def hasFlag (flag bit : Int) : Bool := Int.land flag bit != 0

/-- Modelled from the spec: `isCreate`, missing from the source: `O_CREATE` is set. -/
def isCreate (flag : Int) : Bool := hasFlag flag oCREATE
/-- Modelled from the spec: `isAppend`, missing from the source: `O_APPEND` is set. -/
def isAppend (flag : Int) : Bool := hasFlag flag oAPPEND
/-- Modelled from the spec: `isTruncate`, missing from the source: `O_TRUNC` is set. -/
def isTruncate (flag : Int) : Bool := hasFlag flag oTRUNC
/-- Modelled from the spec: `isReadAndWrite`, missing from the source: `O_RDWR` is set. -/
def isReadAndWrite (flag : Int) : Bool := hasFlag flag oRDWR
/-- Modelled from the spec: `isWriteOnly`, missing from the source: `O_WRONLY` is set. -/
def isWriteOnly (flag : Int) : Bool := hasFlag flag oWRONLY
/-- Modelled from the spec: `isReadOnly`, missing from the source: the flag is `O_RDONLY`. -/
def isReadOnly (flag : Int) : Bool := flag == oRDONLY

/-- `os.ModeSymlink`. -/
def modeSymlink : UInt32 := 0x8000000

/-- `isSymlink`. -/
def isSymlink (mode : UInt32) : Bool := mode &&& modeSymlink ≠ 0

/-! ## Handles -/

/-- `File`: a handle, with its own copy of the bytes. -/
structure File where
  id : Nat
  parentID : Nat
  fileName : String
  path : String
  content : List UInt8
  position : Int
  flag : Int
  mode : UInt32
  isClosed : Bool
deriving Repr, DecidableEq

/-- `fileDBtoFile`: a handle on a row, at position 0; no parent is 0. -/
def fileDBtoFile (f : FileDB) : File :=
  ⟨f.id, f.parentID.getD 0, f.name, f.path, f.content, 0, f.flag, f.mode, false⟩

/-- `File.Duplicate`: `O_APPEND` moves the new handle to the end of the bytes, then `O_TRUNC`
empties its copy. -/
def File.duplicate (f : File) (mode : UInt32) (flag : Int) : File :=
  let new : File := { f with mode, flag, isClosed := false }
  let new := if isAppend flag then { new with position := new.content.length } else new
  if isTruncate flag then { new with content := [] } else new

section
variable (f : File) (mode : UInt32) (flag : Int)

@[simp] theorem duplicate_id : (f.duplicate mode flag).id = f.id := by
  unfold File.duplicate; split_ifs <;> rfl

@[simp] theorem duplicate_path : (f.duplicate mode flag).path = f.path := by
  unfold File.duplicate; split_ifs <;> rfl

@[simp] theorem duplicate_flag : (f.duplicate mode flag).flag = flag := by
  unfold File.duplicate; split_ifs <;> rfl

@[simp] theorem duplicate_isClosed : (f.duplicate mode flag).isClosed = false := by
  unfold File.duplicate; split_ifs <;> rfl

@[simp] theorem duplicate_position :
    (f.duplicate mode flag).position =
      if isAppend flag then (f.content.length : Int) else f.position := by
  unfold File.duplicate; split_ifs <;> rfl

@[simp] theorem duplicate_content :
    (f.duplicate mode flag).content = if isTruncate flag then [] else f.content := by
  unfold File.duplicate; split_ifs <;> rfl

end

/-- `File.ReadAt`: the bytes from `off`, at most `len`, with the error returned beside them
(`io.EOF` when there are fewer). A negative offset panics at the slice `f.Content[off:off+l]`. -/
def File.readAt (f : File) (len : Nat) (off : Int) : Except FsErr (List UInt8 × Option FsErr) :=
  if f.isClosed then .ok ([], some .closed)
  else if !isReadAndWrite f.flag && !isReadOnly f.flag then .ok ([], some .readNotSupported)
  else if f.content.length ≤ off then .ok ([], some .eof)
  else if off < 0 then .error .panic
  else
    let btr := (f.content.drop off.toNat).take len
    .ok (btr, if btr.length < len then some .eof else none)

/-- The body of `File.WriteAt`: zero-fill up to `off`, then `append(f.Content[:off], p...)`,
and take back `f.Content[:prev]` when that is shorter: `append` wrote in place, so the old bytes
after `off + len(p)` are still there. -/
def writeBytes (content : List UInt8) (off : Nat) (p : List UInt8) : List UInt8 :=
  let c := content ++ List.replicate (off - content.length) 0
  c.take off ++ p ++ c.drop (off + p.length)

/-- `File.WriteAt`: write `p` at the position; a negative position panics at the slice. -/
def File.writeAt (f : File) (p : List UInt8) : Option File :=
  if f.position < 0 then none else some { f with content := writeBytes f.content f.position.toNat p }

/-! ## Opening -/

/-- `string(f.Content)`, read one byte a character. -/
def bytesToString (b : List UInt8) : String := ⟨b.map fun u => Char.ofNat u.toNat⟩

/-- `isAbs`: `filepath.IsAbs` or a leading separator. -/
def isAbs (path : String) : Bool := path.startsWith "/"

/-- `Mysqlfs.resolveLink`: the target of a symbolic link, joined to the link's directory when
relative; none for a row that is not a link. -/
def resolveLink (fullpath : String) (f : FileDB) : Option String :=
  if isSymlink f.mode then
    let target := bytesToString f.content
    some (if isAbs target then target else join (dir fullpath) target)
  else none

/-- The end of `OpenFile`: a directory is refused, a file gets a new handle. -/
def openRow (filename : String) (f : FileDB) (flag : Int) (perm : UInt32) : DB File :=
  if isDir f.mode then throw (.cannotOpenDir filename)
  else pure ((fileDBtoFile f).duplicate perm flag)

/-- `Mysqlfs.OpenFile`, following at most `fuel` symbolic links. A missing file is made with
`NewFile` when the flag has `O_CREATE`. -/
def openFile : Nat → String → Int → UInt32 → DB File
  | 0, _, _, _ => throw .outOfFuel
  | fuel + 1, filename, flag, perm => do
    match ← getFile filename with
    | none =>
      if !isCreate flag then throw .notExist
      match ← newFile (filename.length + 2) filename perm flag with
      | some f => openRow filename f flag perm
      | none => throw .panic
    | some f =>
      match resolveLink filename f with
      | some target => openFile fuel target flag perm
      | none => openRow filename f flag perm

/-- `Mysqlfs.Create`: `O_RDWR|O_CREATE|O_TRUNC`, mode `0666`. -/
def create (fuel : Nat) (filename : String) : DB File :=
  openFile fuel filename (Int.lor (Int.lor oRDWR oCREATE) oTRUNC) 0o666

/-- `Mysqlfs.Open`: `O_RDONLY`. -/
def «open» (fuel : Nat) (filename : String) : DB File := openFile fuel filename oRDONLY 0

/-! ## Sessions -/

/-- The table and the handles the caller holds. -/
structure Session (H : Type) where
  table : Table
  handles : List H

/-- A call on a session: an error keeps what the statements before it changed. -/
abbrev FS (H : Type) := ExceptT FsErr (StateM (Session H))

section
variable {H α β : Type} (s : Session H)

/-- Run a call on a session: its result, and the session it leaves. -/
def FS.exec (x : FS H α) : Except FsErr α × Session H := x.run.run s

/-- A storage method on the session's table. -/
def db (x : DB α) : FS H α := ExceptT.mk fun s =>
  ((x.exec s.table).1, { s with table := (x.exec s.table).2 })

/-- The handle at `fd`; an index with no handle is a nil pointer. -/
def handle (fd : Nat) : FS H H := do
  match (← get).handles[fd]? with
  | some f => pure f
  | none => throw .panic

/-- Change the handle at `fd` in place. -/
def setHandle (fd : Nat) (f : H) : FS H Unit :=
  modify fun s => { s with handles := s.handles.set fd f }

@[simp] theorem FS.exec_pure (a : α) : (pure a : FS H α).exec s = (.ok a, s) := rfl

@[simp] theorem FS.exec_bind (x : FS H α) (f : α → FS H β) : (x >>= f).exec s =
    match x.exec s with
    | (.ok a, s') => (f a).exec s'
    | (.error e, s') => (.error e, s') := by
  unfold FS.exec
  simp only [ExceptT.run_bind, StateT.run_bind]
  rcases x.run.run s with ⟨_ | a, s'⟩ <;> rfl

@[simp] theorem FS.exec_map (x : FS H α) (f : α → β) : (f <$> x).exec s =
    match x.exec s with
    | (.ok a, s') => (.ok (f a), s')
    | (.error e, s') => (.error e, s') := by
  rw [← bind_pure_comp, FS.exec_bind]
  rcases x.exec s with ⟨_ | a, s'⟩ <;> rfl

@[simp] theorem FS.exec_get : (get : FS H (Session H)).exec s = (.ok s, s) := rfl

@[simp] theorem FS.exec_set (s' : Session H) : (set s' : FS H PUnit).exec s = (.ok (), s') := rfl

@[simp] theorem FS.exec_throw (e : FsErr) : (throw e : FS H α).exec s = (.error e, s) := rfl

@[simp] theorem db_exec (x : DB α) :
    (db x : FS H α).exec s = ((x.exec s.table).1, { s with table := (x.exec s.table).2 }) := rfl

@[simp] theorem handle_exec (fd : Nat) : (handle fd : FS H H).exec s =
    match s.handles[fd]? with
    | some f => (.ok f, s)
    | none => (.error .panic, s) := by
  simp only [handle, FS.exec_bind, FS.exec_get]
  rcases s.handles[fd]? with _ | f <;> rfl

@[simp] theorem setHandle_exec (fd : Nat) (f : H) :
    (setHandle fd f).exec s = (.ok (), { s with handles := s.handles.set fd f }) := rfl

end

/-- `File.Read`: copy the bytes stored at the handle's path into the handle, `ReadAt` at the
position and move it; `io.EOF` beside some bytes is dropped. A path with no row is a nil
pointer. -/
def read (fd len : Nat) : FS File (List UInt8) := do
  let f ← handle fd
  let some f1 ← db (getFile f.path) | throw .panic
  let f := { f with content := f1.content }
  setHandle fd f
  match f.readAt len f.position with
  | .error e => throw e
  | .ok (bs, err) =>
    setHandle fd { f with position := f.position + bs.length }
    match err with
    | some e => if e = .eof ∧ bs ≠ [] then pure bs else throw e
    | none => pure bs

/-- `File.Write`: `WriteAt` at the position, move it, and store the handle's whole copy. -/
def write (fd : Nat) (p : List UInt8) : FS File Nat := do
  let f ← handle fd
  if f.isClosed then throw .closed
  if !isReadAndWrite f.flag && !isWriteOnly f.flag then throw .writeNotSupported
  match f.writeAt p with
  | none => throw .panic
  | some f =>
    setHandle fd { f with position := f.position + p.length }
    db (updateFileContent f.id f.content)
    pure p.length

/-- The switch of `File.Seek`: `whence` is `io.SeekCurrent` (1), `SeekStart` (0) or `SeekEnd` (2),
from the end `size`; another `whence` keeps the position. -/
def seekPosition (position size offset whence : Int) : Int :=
  if whence = 1 then position + offset
  else if whence = 0 then offset
  else if whence = 2 then size + offset
  else position

/-- `File.Seek`: the end is the end of the handle's copy, and a negative position is kept. -/
def seek (fd : Nat) (offset whence : Int) : FS File Int := do
  let f ← handle fd
  if f.isClosed then throw .closed
  let position := seekPosition f.position f.content.length offset whence
  setHandle fd { f with position }
  pure position

/-- `File.Close`. -/
def close (fd : Nat) : FS File Unit := do
  let f ← handle fd
  if f.isClosed then throw .closed
  setHandle fd { f with isClosed := true }

/-- `File.Truncate`: resize the handle's copy, zero-filled, closed or not; nothing is stored. A
negative size panics at the slice. -/
def truncate (fd : Nat) (size : Int) : FS File Unit := do
  let f ← handle fd
  if size < f.content.length then
    if size < 0 then throw .panic
    setHandle fd { f with content := f.content.take size.toNat }
  else setHandle fd { f with content := f.content ++ List.replicate (size.toNat - f.content.length) 0 }

/-! ## Runs of calls -/

/-- One call of the caller. -/
inductive FileCall
  | openFile (filename : String) (flag : Int) (perm : UInt32)
  | read (fd len : Nat)
  | write (fd : Nat) (p : List UInt8)
  | seek (fd : Nat) (offset whence : Int)
  | truncate (fd : Nat) (size : Int)
  | close (fd : Nat)
deriving Repr, DecidableEq

/-- What a call returns. -/
inductive Reply
  | fd (fd : Nat)
  | bytes (b : List UInt8)
  | count (n : Nat)
  | position (p : Int)
  | done
deriving Repr, DecidableEq

/-- Results compare by value. -/
instance decEqExcept {ε α : Type} [DecidableEq ε] [DecidableEq α] : DecidableEq (Except ε α)
  | .ok a, .ok b => decidable_of_iff (a = b) ⟨congrArg _, fun h => by injection h⟩
  | .error a, .error b => decidable_of_iff (a = b) ⟨congrArg _, fun h => by injection h⟩
  | .ok _, .error _ => isFalse fun h => by cases h
  | .error _, .ok _ => isFalse fun h => by cases h

/-- `Mysqlfs.Create` as a call. -/
def FileCall.create (filename : String) : FileCall :=
  .openFile filename (Int.lor (Int.lor oRDWR oCREATE) oTRUNC) 0o666

/-- `Mysqlfs.Open` as a call. -/
def FileCall.«open» (filename : String) : FileCall := .openFile filename oRDONLY 0

/-- `OpenFile` keeps the new handle for the caller, following at most one symbolic link a row. -/
def FileCall.run : FileCall → FS File Reply
  | .openFile filename flag perm => do
    let f ← db (Mysqlfs.openFile ((← get).table.rows.length + 1) filename flag perm)
    let s ← get
    set { s with handles := s.handles ++ [f] }
    pure (.fd s.handles.length)
  | .read fd len => .bytes <$> Mysqlfs.read fd len
  | .write fd p => .count <$> Mysqlfs.write fd p
  | .seek fd offset whence => .position <$> Mysqlfs.seek fd offset whence
  | .truncate fd size => (fun _ => .done) <$> Mysqlfs.truncate fd size
  | .close fd => (fun _ => .done) <$> Mysqlfs.close fd

/-- The empty table `newStorage` creates, and no handles. -/
def Session.empty {H : Type} : Session H := ⟨Table.empty, []⟩

/-- The calls one after another by `step`, each made whatever the ones before it returned. -/
def runSession {H : Type} (step : FileCall → FS H Reply) :
    List FileCall → Session H → List (Except FsErr Reply) × Session H
  | [], s => ([], s)
  | c :: cs, s =>
    let r := (step c).exec s
    let rs := runSession step cs r.2
    (r.1 :: rs.1, rs.2)

end MergeCore.Mysqlfs
