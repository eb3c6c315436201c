import MergeCore.Mysqlfs.Handles

/-!
# Handles against one shared file

The reference filesystem of the handles' contract: every handle of a file reads and writes its
one stored copy. `O_TRUNC` empties the file when it is opened, `Write` replaces bytes
`[o, o + len p)` and zero-fills a gap, `Truncate` resizes the file at once, and a seek before
the start is an error. Elsewhere the reference does what the code does: it finds the bytes a
`Read` or a seek from the end sees at the handle's path, and writes those of the handle's id.

* `runSession_refines`: a run of the code gives the reference's replies and table as long as
  each `Write`, and each seek from the end, goes through a handle whose copy is what is
  stored, no `O_TRUNC` open finds stored bytes, no seek goes before the start, and no
  `Truncate` is made.
* `fileHandles_diverge`: four runs from the empty table in which a `Read` of the code returns
  other bytes than the reference's, or a seek that the reference refuses makes the next write
  panic.
-/

namespace MergeCore.Mysqlfs

/-! ## The reference -/

/-- A handle of the reference: a position in the shared file, no bytes of its own. -/
structure RefHandle where
  id : Nat
  path : String
  position : Int
  flag : Int
  isClosed : Bool
deriving Repr, DecidableEq

/-- What the reference keeps of a handle of the code. -/
def File.toRef (f : File) : RefHandle := ⟨f.id, f.path, f.position, f.flag, f.isClosed⟩

/-- Bytes `[o, o + len p)` replaced by `p`, a gap before `o` zero-filled. -/
def spliceBytes (c : List UInt8) (o : Nat) (p : List UInt8) : List UInt8 :=
  c.take o ++ List.replicate (o - c.length) 0 ++ p ++ c.drop (o + p.length)

/-- The bytes cut or zero-filled to `n`. -/
def resizeBytes (c : List UInt8) (n : Nat) : List UInt8 :=
  c.take n ++ List.replicate (n - c.length) 0

/-- The bytes stored at a path, where `GetFile` finds them. -/
def storedAt (t : Table) (path : String) : Option (List UInt8) :=
  (t.rows.find? (·.path = clean path)).map (·.content)

/-- Change the stored bytes of the file `id`. -/
def setContent (id : Nat) (g : List UInt8 → List UInt8) : DB Unit :=
  modify fun t =>
    { t with rows := t.rows.map fun r => if r.id = id then { r with content := g r.content } else r }

/-- `OpenFile` of the reference: the code's lookup and creation, then `O_TRUNC` empties the
file, and the handle starts where the code's does, at the end for `O_APPEND` unless the file
was just emptied. -/
def refOpenFile (fuel : Nat) (filename : String) (flag : Int) (perm : UInt32) :
    FS RefHandle RefHandle := do
  let f ← db (openFile fuel filename flag perm)
  if isTruncate flag then db (setContent f.id fun _ => [])
  pure ⟨f.id, f.path, if isTruncate flag then 0 else f.position, f.flag, false⟩

/-- `Read` of the reference: the shared bytes from the position. -/
def refRead (fd len : Nat) : FS RefHandle (List UInt8) := do
  let h ← handle fd
  let some c := storedAt (← get).table h.path | throw .panic
  if h.isClosed then throw .closed
  if !isReadAndWrite h.flag && !isReadOnly h.flag then throw .readNotSupported
  if c.length ≤ h.position then throw .eof
  let bs := (c.drop h.position.toNat).take len
  setHandle fd { h with position := h.position + bs.length }
  pure bs

/-- `Write` of the reference: `p` replaces bytes `[o, o + len p)` of the shared file. -/
def refWrite (fd : Nat) (p : List UInt8) : FS RefHandle Nat := do
  let h ← handle fd
  if h.isClosed then throw .closed
  if !isReadAndWrite h.flag && !isWriteOnly h.flag then throw .writeNotSupported
  setHandle fd { h with position := h.position + p.length }
  db (setContent h.id fun c => spliceBytes c h.position.toNat p)
  pure p.length

/-- `Seek` of the reference: the end is the shared file's, and a negative position is refused. -/
def refSeek (fd : Nat) (offset whence : Int) : FS RefHandle Int := do
  let h ← handle fd
  if h.isClosed then throw .closed
  let size := ((storedAt (← get).table h.path).getD []).length
  let position := seekPosition h.position size offset whence
  if position < 0 then throw .negativeOffset
  setHandle fd { h with position }
  pure position

/-- `Truncate` of the reference: the shared file is resized at once. -/
def refTruncate (fd : Nat) (size : Int) : FS RefHandle Unit := do
  let h ← handle fd
  if size < 0 then throw .panic
  db (setContent h.id fun c => resizeBytes c size.toNat)

/-- `Close` of the reference. -/
def refClose (fd : Nat) : FS RefHandle Unit := do
  let h ← handle fd
  if h.isClosed then throw .closed
  setHandle fd { h with isClosed := true }

/-- A call on the reference. -/
def FileCall.refRun : FileCall → FS RefHandle Reply
  | .openFile filename flag perm => do
    let h ← refOpenFile ((← get).table.rows.length + 1) filename flag perm
    let s ← get
    set { s with handles := s.handles ++ [h] }
    pure (.fd s.handles.length)
  | .read fd len => .bytes <$> refRead fd len
  | .write fd p => .count <$> refWrite fd p
  | .seek fd offset whence => .position <$> refSeek fd offset whence
  | .truncate fd size => (fun _ => .done) <$> refTruncate fd size
  | .close fd => (fun _ => .done) <$> refClose fd

/-! ## What `OpenFile` returns -/

@[simp] theorem getFile_exec (path : String) (t : Table) :
    (getFile path).exec t = (.ok (t.rows.find? (·.path = clean path)), t) := rfl

theorem createParentAddToFile_content {nf : String → UInt32 → Int → DB (Option FileDB)}
    {path : String} {mode : UInt32} {f g : FileDB} {t t' : Table}
    (h : (createParentAddToFile nf path mode f).exec t = (.ok g, t')) : g.content = f.content := by
  simp only [createParentAddToFile, exec_bind] at h
  rcases hc : (createParent nf path mode).exec t with ⟨_ | _ | parent, t1⟩ <;>
    simp only [hc] at h
  · cases h
  · simp at h; rw [← h.1]
  · simp only [← bind_pure_comp, exec_bind, exec_pure] at h
    split at h <;> cases h
    rfl

/-- A row `NewFile` makes has no bytes. -/
theorem newFile_content {fuel : Nat} {path : String} {mode : UInt32} {flag : Int} {t t' : Table}
    {g : FileDB} (h : (newFile fuel path mode flag).exec t = (.ok (some g), t')) :
    g.content = [] := by
  cases fuel with
  | zero => cases h
  | succ fuel =>
    simp only [newFile, exec_bind, getFile_exec] at h
    split at h
    · split at h <;> cases h
    · rw [exec_bind] at h
      split at h
      · simp only [exec_bind] at h
        split at h
        · simp only [exec_pure, Prod.mk.injEq, Except.ok.injEq, Option.some.injEq] at h
          rw [← h.1, createParentAddToFile_content ‹_›]
        · cases h
      · cases h

theorem openRow_ok {filename : String} {g : FileDB} {flag : Int} {perm : UInt32} {t t' : Table}
    {f : File} (h : (openRow filename g flag perm).exec t = (.ok f, t')) :
    t' = t ∧ f = (fileDBtoFile g).duplicate perm flag := by
  unfold openRow at h
  split at h <;> cases h
  exact ⟨rfl, rfl⟩

/-- The handle `OpenFile` returns is a duplicate of a row that it leaves stored, or of a new
row without bytes. -/
theorem openFile_spec : ∀ {fuel : Nat} {filename : String} {flag : Int} {perm : UInt32}
    {t t' : Table} {f : File}, (openFile fuel filename flag perm).exec t = (.ok f, t') →
    ∃ g : FileDB, (g ∈ t'.rows ∨ g.content = []) ∧ f = (fileDBtoFile g).duplicate perm flag
  | 0, _, _, _, _, _, _, h => by cases h
  | fuel + 1, filename, flag, perm, t, t', f, h => by
    simp only [openFile, exec_bind, getFile_exec] at h
    split at h
    · by_cases hc : isCreate flag
      · simp only [hc, Bool.not_true, Bool.false_eq_true, if_false, pure_bind] at h
        rw [exec_bind] at h
        split at h
        · split at h
          · obtain ⟨-, rfl⟩ := openRow_ok h
            exact ⟨_, .inr (newFile_content ‹_›), rfl⟩
          · cases h
        · cases h
      · simp [hc] at h
    · rename_i row hrow
      split at h
      · exact openFile_spec h
      · obtain ⟨rfl, rfl⟩ := openRow_ok h
        exact ⟨row, .inl (List.mem_of_find?_eq_some hrow), rfl⟩

/-! ## Refinement -/

/-- The code's write is the reference's splice. -/
theorem writeBytes_eq_spliceBytes (c : List UInt8) (o : Nat) (p : List UInt8) :
    writeBytes c o p = spliceBytes c o p := by
  simp only [writeBytes, spliceBytes]
  by_cases h : o ≤ c.length
  · simp [Nat.sub_eq_zero_of_le h]
  · have hl : (c ++ List.replicate (o - c.length) 0).length = o := by simp; omega
    rw [List.take_of_length_le hl.le, List.drop_eq_nil_of_le (by omega),
      List.take_of_length_le (by omega), List.drop_eq_nil_of_le (by omega)]

theorem set_of_getElem? {α : Type} {l : List α} {i : Nat} {a : α} (h : l[i]? = some a) :
    l.set i a = l :=
  List.ext_getElem? fun j => by
    rw [List.getElem?_set]
    split_ifs <;> simp_all [List.getElem?_eq_none]

/-- The reference's view of the code's session: the table, and the handles without their
bytes. -/
def Session.toRef (s : Session File) : Session RefHandle := ⟨s.table, s.handles.map File.toRef⟩

theorem toRef_getElem? (s : Session File) (fd : Nat) :
    s.toRef.handles[fd]? = s.handles[fd]?.map File.toRef := by
  simp [Session.toRef]

/-- No handle is before the start of its file. -/
def Positioned (s : Session File) : Prop := ∀ f ∈ s.handles, 0 ≤ f.position

instance (s : Session File) : Decidable (Positioned s) :=
  inferInstanceAs (Decidable (∀ f ∈ s.handles, _))

theorem Positioned.set {s : Session File} (hp : Positioned s) (fd : Nat) {f : File}
    (hf : 0 ≤ f.position) : Positioned { s with handles := s.handles.set fd f } := fun g hg =>
  (List.mem_or_eq_of_mem_set hg).elim (hp g) (fun h => h ▸ hf)

theorem Positioned.append {s : Session File} (hp : Positioned s) (t : Table) {f : File}
    (hf : 0 ≤ f.position) : Positioned ⟨t, s.handles ++ [f]⟩ := fun g hg =>
  (List.mem_append.1 hg).elim (hp g) fun h => (List.mem_singleton.1 h) ▸ hf

/-- From `s`, the reference's `y` does what the code's `x` does, and no handle ends before the
start. -/
def Refines {α : Type} (x : FS File α) (y : FS RefHandle α) (s : Session File) : Prop :=
  y.exec s.toRef = ((x.exec s).1, (x.exec s).2.toRef) ∧ Positioned (x.exec s).2

theorem Refines.map {α β : Type} {x : FS File α} {y : FS RefHandle α} {s : Session File}
    (h : Refines x y s) (g : α → β) : Refines (g <$> x) (g <$> y) s := by
  obtain ⟨h1, h2⟩ := h
  unfold Refines
  rw [FS.exec_map, FS.exec_map, h1]
  revert h2
  rcases x.exec s with ⟨_ | a, s'⟩ <;> exact fun h2 => ⟨rfl, h2⟩

/-- The handle's copy is what is stored for its id. -/
def Fresh (t : Table) (f : File) : Prop := ∀ r ∈ t.rows, r.id = f.id → r.content = f.content

instance (t : Table) (f : File) : Decidable (Fresh t f) :=
  inferInstanceAs (Decidable (∀ r ∈ t.rows, _))

/-- The code's open leaves the opened file's stored bytes empty. -/
def OpensEmpty : Except FsErr File × Table → Prop
  | (.ok f, t) => ∀ r ∈ t.rows, r.id = f.id → r.content = []
  | (.error _, _) => True

instance : (x : Except FsErr File × Table) → Decidable (OpensEmpty x)
  | (.ok _, t) => inferInstanceAs (Decidable (∀ r ∈ t.rows, _))
  | (.error _, _) => inferInstanceAs (Decidable True)

/-- What a call needs, in the state where it is made, for the code to do what the reference
does: an `O_TRUNC` open finds no bytes stored, a write's handle has the stored bytes, a seek
moves where the reference's does and not before the start, and there is no `Truncate`. -/
def FileCall.Safe (s : Session File) : FileCall → Prop
  | .openFile filename flag perm => isTruncate flag = true →
    OpensEmpty ((Mysqlfs.openFile (s.table.rows.length + 1) filename flag perm).exec s.table)
  | .read _ _ | .close _ => True
  | .write fd _ => ∀ f ∈ s.handles[fd]?, Fresh s.table f
  | .seek fd offset whence => ∀ f ∈ s.handles[fd]?, f.isClosed = false →
    0 ≤ seekPosition f.position f.content.length offset whence ∧
      seekPosition f.position f.content.length offset whence =
        seekPosition f.position ((storedAt s.table f.path).getD []).length offset whence
  | .truncate _ _ => False

instance (s : Session File) : (c : FileCall) → Decidable (c.Safe s)
  | .openFile .. => inferInstanceAs (Decidable (_ → _))
  | .read .. | .close _ => inferInstanceAs (Decidable True)
  | .write .. => inferInstanceAs (Decidable (∀ f ∈ _, _))
  | .seek .. => inferInstanceAs (Decidable (∀ f ∈ _, _))
  | .truncate .. => inferInstanceAs (Decidable False)

/-- Every call of the run is safe where it is made. -/
def SafeRun : List FileCall → Session File → Prop
  | [], _ => True
  | c :: cs, s => c.Safe s ∧ SafeRun cs (c.run.exec s).2

instance decSafeRun : (cs : List FileCall) → (s : Session File) → Decidable (SafeRun cs s)
  | [], _ => inferInstanceAs (Decidable True)
  | c :: cs, s => @instDecidableAnd _ _ _ (decSafeRun cs (c.run.exec s).2)

section calls
variable (s : Session File) (hp : Positioned s)
include hp

/-- A call on a handle that is not open fails in both, changing nothing. -/
theorem refines_handle_none {α : Type} {fd : Nat} (hf : s.handles[fd]? = none)
    (k : File → FS File α) (k' : RefHandle → FS RefHandle α) :
    Refines (handle fd >>= k) (handle fd >>= k') s := by
  simp only [Refines, FS.exec_bind, handle_exec, hf, toRef_getElem?, Option.map_none']
  exact ⟨trivial, hp⟩

theorem read_refines (fd len : Nat) : Refines (read fd len) (refRead fd len) s := by
  cases hf : s.handles[fd]? with
  | none => exact refines_handle_none s hp hf _ _
  | some f =>
    have hpos : 0 ≤ f.position := hp f (List.getElem?_mem hf)
    simp only [Refines, read, refRead, FS.exec_bind, handle_exec, hf, toRef_getElem?,
      Option.map_some', FS.exec_get, db_exec, getFile_exec]
    cases hrow : s.table.rows.find? (·.path = clean f.path) with
    | none => simp [storedAt, Session.toRef, File.toRef, hrow, hp]
    | some row =>
      have hst : storedAt s.toRef.table f.toRef.path = some row.content := by
        simp [storedAt, Session.toRef, File.toRef, hrow]
      simp only [hst]
      have hkeep : ∀ c, f.toRef.isClosed = c → (s.handles.map File.toRef).set fd
          ⟨f.id, f.path, f.position, f.flag, c⟩ = s.handles.map File.toRef := fun c hc =>
        set_of_getElem? (by simp [hf, ← hc, File.toRef])
      by_cases hcl : f.isClosed
      · simp [hcl, File.toRef, File.readAt, Session.toRef, List.map_set]
        exact ⟨(hkeep true hcl).symm, hp.set fd hpos⟩
      by_cases hrd : isReadAndWrite f.flag = false ∧ isReadOnly f.flag = false
      · simp [hcl, hrd, File.toRef, File.readAt, Session.toRef, List.map_set]
        exact ⟨(hkeep false (by simpa using hcl)).symm, hp.set fd hpos⟩
      by_cases heof : (row.content.length : Int) ≤ f.position
      · simp [hcl, hrd, heof, File.toRef, File.readAt, Session.toRef, List.map_set]
        exact ⟨(hkeep false (by simpa using hcl)).symm, hp.set fd hpos⟩
      have hneg : ¬ f.position < 0 := by omega
      have hbytes : ¬len = 0 ∧ f.position.toNat < row.content.length ∨
          ¬len ⊓ (row.content.length - f.position.toNat) < len := by omega
      by_cases hlt : len ⊓ (row.content.length - f.position.toNat) < len <;>
        simp [hcl, hrd, heof, hneg, hlt, hbytes.resolve_right, File.toRef, File.readAt,
          Session.toRef, List.map_set] <;>
        exact hp.set fd (by dsimp only; omega)

theorem write_refines (fd : Nat) (p : List UInt8)
    (hfresh : ∀ f ∈ s.handles[fd]?, Fresh s.table f) :
    Refines (write fd p) (refWrite fd p) s := by
  cases hf : s.handles[fd]? with
  | none => exact refines_handle_none s hp hf _ _
  | some f =>
    have hpos : 0 ≤ f.position := hp f (List.getElem?_mem hf)
    have hneg : ¬ f.position < 0 := by omega
    by_cases hcl : f.isClosed
    · simp [Refines, write, refWrite, hf, toRef_getElem?, hcl, File.toRef, hp]
    by_cases hwr : isReadAndWrite f.flag = false ∧ isWriteOnly f.flag = false
    · simp [Refines, write, refWrite, hf, toRef_getElem?, hcl, hwr, File.toRef, hp]
    simp [Refines, write, refWrite, hf, toRef_getElem?, hcl, hwr, File.toRef, File.writeAt, hneg,
      setContent, updateFileContent, Session.toRef, List.map_set, writeBytes_eq_spliceBytes]
    refine ⟨fun r hr => ?_, hp.set fd (by dsimp only; omega)⟩
    split_ifs with h
    · rw [hfresh f hf r hr h]
    · rfl

theorem seek_refines (fd : Nat) (offset whence : Int)
    (hseek : ∀ f ∈ s.handles[fd]?, f.isClosed = false →
      0 ≤ seekPosition f.position f.content.length offset whence ∧
        seekPosition f.position f.content.length offset whence =
          seekPosition f.position ((storedAt s.table f.path).getD []).length offset whence) :
    Refines (seek fd offset whence) (refSeek fd offset whence) s := by
  cases hf : s.handles[fd]? with
  | none => exact refines_handle_none s hp hf _ _
  | some f =>
    by_cases hcl : f.isClosed
    · simp [Refines, seek, refSeek, hf, toRef_getElem?, hcl, File.toRef, hp]
    obtain ⟨h0, heq⟩ := hseek f hf (by simpa using hcl)
    have hneg : ¬ seekPosition f.position f.content.length offset whence < 0 := by omega
    simp [Refines, seek, refSeek, hf, toRef_getElem?, hcl, File.toRef, Session.toRef, List.map_set,
      ← heq, hneg]
    exact hp.set fd h0

theorem close_refines (fd : Nat) : Refines (close fd) (refClose fd) s := by
  cases hf : s.handles[fd]? with
  | none => exact refines_handle_none s hp hf _ _
  | some f =>
    have hpos : 0 ≤ f.position := hp f (List.getElem?_mem hf)
    by_cases hcl : f.isClosed <;>
      simp [Refines, close, refClose, hf, toRef_getElem?, hcl, File.toRef, Session.toRef,
        List.map_set, hp]
    exact hp.set fd hpos

theorem openFile_refines (filename : String) (flag : Int) (perm : UInt32)
    (hopen : isTruncate flag = true →
      OpensEmpty ((openFile (s.table.rows.length + 1) filename flag perm).exec s.table)) :
    Refines (FileCall.openFile filename flag perm).run (FileCall.openFile filename flag perm).refRun
      s := by
  rcases hx : (openFile (s.table.rows.length + 1) filename flag perm).exec s.table with
    ⟨_ | f, t'⟩
  · simp [Refines, FileCall.run, FileCall.refRun, refOpenFile, Session.toRef, hx]
    exact fun g hg => hp g hg
  obtain ⟨g, hg, rfl⟩ := openFile_spec hx
  have hpos : 0 ≤ ((fileDBtoFile g).duplicate perm flag).position := by
    simp only [duplicate_position]; split_ifs <;> simp only [fileDBtoFile] <;> omega
  by_cases htr : isTruncate flag
  · have hempty : ∀ r ∈ t'.rows, r.id = g.id → r.content = [] := by
      simpa [hx, OpensEmpty, fileDBtoFile] using hopen htr
    have hg0 : g.content = [] := hg.elim (fun hm => hempty g hm rfl) id
    have hrows : t'.rows.map (fun r => if r.id = g.id then { r with content := [] } else r) =
        t'.rows := by
      refine (List.map_congr_left fun r hr => ?_).trans (List.map_id _)
      split_ifs with h
      · exact congrArg (fun c => { r with content := c }) (hempty r hr h).symm
      · rfl
    simp [Refines, FileCall.run, FileCall.refRun, refOpenFile, Session.toRef, hx, htr, setContent,
      fileDBtoFile, File.toRef, hg0, hrows]
    exact hp.append t' (by simp [hg0])
  · simp [Refines, FileCall.run, FileCall.refRun, refOpenFile, Session.toRef, hx, htr,
      fileDBtoFile, File.toRef]
    exact hp.append t' hpos

/-- One call: the reference does what the code does. -/
theorem FileCall.run_refines : ∀ c : FileCall, c.Safe s → Refines c.run c.refRun s
  | .openFile .., h => openFile_refines s hp _ _ _ h
  | .read fd len, _ => (read_refines s hp fd len).map _
  | .write fd p, h => (write_refines s hp fd p h).map _
  | .seek fd offset whence, h => (seek_refines s hp fd offset whence h).map _
  | .close fd, _ => (close_refines s hp fd).map _

end calls

/-- A run of safe calls from a state without a handle before the start: the reference's run
from its view gives the same replies, and its view of the code's last state. So the stored
bytes and every byte a `Read` returns are the reference's. -/
theorem runSession_refines : ∀ (cs : List FileCall) (s : Session File), Positioned s →
    SafeRun cs s →
    runSession FileCall.refRun cs s.toRef =
      ((runSession FileCall.run cs s).1, (runSession FileCall.run cs s).2.toRef)
  | [], _, _, _ => rfl
  | c :: cs, s, hp, ⟨hc, hcs⟩ => by
    obtain ⟨h1, h2⟩ := FileCall.run_refines s hp c hc
    simp only [runSession, h1, runSession_refines cs _ h2 hcs]

/-- `Create`, a write of `hi`, and a read through a second handle. -/
def readBackRun : List FileCall :=
  [.create "/f", .write 0 [104, 105], .«open» "/f", .read 1 8, .close 0]

example : runSession FileCall.refRun readBackRun (Session.empty : Session File).toRef =
    ((runSession FileCall.run readBackRun .empty).1,
      (runSession FileCall.run readBackRun .empty).2.toRef) :=
  runSession_refines readBackRun .empty (by decide) (by decide)

/-! ## Four runs -/

/-- `Create` over a file that holds `hi`, closed without a write; then a read of the file. -/
def createOverRun : List FileCall :=
  [.create "/f", .write 0 [104, 105], .close 0, .create "/f", .close 1, .«open» "/f", .read 2 8]

/-- `Truncate(0)` of a file that holds `hi`; then a read of the file. -/
def truncateRun : List FileCall :=
  [.create "/f", .write 0 [104, 105], .truncate 0 0, .close 0, .«open» "/f", .read 1 8]

/-- Two handles: the first writes `ab`, then the second, opened before, writes `c`. -/
def staleWriteRun : List FileCall :=
  [.create "/f", .openFile "/f" oRDWR 0, .write 0 [97, 98], .write 1 [99], .«open» "/f", .read 2 8]

/-- A seek to `-1` from the start, then a write. -/
def negativeSeekRun : List FileCall := [.create "/f", .seek 0 (-1) 0, .write 0 [97]]

/-- The code against the reference on the four runs: the last read returns `hi` where the
reference's file is empty, twice; `c` where the reference's holds `cb`; and the code moves to
`-1`, where the reference refuses, and then panics on the write. -/
theorem fileHandles_diverge :
    (runSession FileCall.run createOverRun .empty).1.getLast? = some (.ok (.bytes [104, 105])) ∧
      (runSession FileCall.refRun createOverRun .empty).1.getLast? = some (.error .eof) ∧
      (runSession FileCall.run truncateRun .empty).1.getLast? = some (.ok (.bytes [104, 105])) ∧
      (runSession FileCall.refRun truncateRun .empty).1.getLast? = some (.error .eof) ∧
      (runSession FileCall.run staleWriteRun .empty).1.getLast? = some (.ok (.bytes [99])) ∧
      (runSession FileCall.refRun staleWriteRun .empty).1.getLast? = some (.ok (.bytes [99, 98])) ∧
      (runSession FileCall.run negativeSeekRun .empty).1 =
        [.ok (.fd 0), .ok (.position (-1)), .error .panic] ∧
      (runSession FileCall.refRun negativeSeekRun .empty).1 =
        [.ok (.fd 0), .error .negativeOffset, .ok (.count 1)] := by
  decide

end MergeCore.Mysqlfs
