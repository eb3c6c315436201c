import MergeCore.Mysqlfs.Storage
import Mathlib.Data.List.Nodup

/-!
# Parent links of the file table

`ParentLinks`: each row's name is its path's base, and its `parentID` is `NULL` exactly at the
root and otherwise the directory row at its path's directory. `RemoveFile` keeps it
(`removeFile_parentLinks`); three sequences of calls from the empty table break it
(`parentLinks_broken`).
-/

namespace MergeCore.Mysqlfs

/-! ## The invariant -/

def RowLinked (t : Table) (r : FileDB) : Prop :=
  r.name = base r.path ∧ (r.parentID = none ↔ dir r.path = "/") ∧
    ∀ p ∈ r.parentID, ∃ q ∈ t.rows, q.id = p ∧ q.path = dir r.path ∧ isDir q.mode = true

instance (t : Table) (r : FileDB) : Decidable (RowLinked t r) :=
  inferInstanceAs (Decidable (_ ∧ _ ∧ _))

def ParentLinks (t : Table) : Prop := ∀ r ∈ t.rows, RowLinked t r

instance (t : Table) : Decidable (ParentLinks t) := inferInstanceAs (Decidable (∀ r ∈ t.rows, _))

/-- Under linked rows, a row whose directory is not the root has a stored directory there. -/
theorem ParentLinks.dir_row {t : Table} (hl : ParentLinks t) {r : FileDB} (hr : r ∈ t.rows)
    (hroot : dir r.path ≠ "/") : ∃ q ∈ t.rows, q.path = dir r.path ∧ isDir q.mode = true := by
  obtain ⟨-, hnone, hpar⟩ := hl r hr
  rcases hx : r.parentID with _ | x
  · exact absurd (hnone.1 hx) hroot
  · obtain ⟨q, hq, -, hqp, hqd⟩ := hpar x hx
    exact ⟨q, hq, hqp, hqd⟩

/-- Row ids are unique, as `AUTO_INCREMENT` makes them. -/
def Table.IdsUnique (t : Table) : Prop := (t.rows.map (·.id)).Nodup

/-! ## `RemoveFile` keeps the links -/

/-- What `RemoveFile` does: the row at the path goes, unless it is a directory with children. -/
theorem removeFile_exec (t : Table) (path : String) : (removeFile path).exec t =
    match t.rows.find? (·.path = clean (clean path)) with
    | none => (.error .notExist, t)
    | some f =>
      if isDir f.mode ∧ ∃ x ∈ t.rows, x.parentID = some f.id then
        (.error (.dirContainsFiles (clean path)), t)
      else (.ok (), { t with rows := t.rows.filter (·.id ≠ f.id) }) := by
  cases h : t.rows.find? (·.path = clean (clean path)) with
  | none => simp [removeFile, getFile, h]
  | some f =>
    by_cases hc : isDir f.mode ∧ ∃ x ∈ t.rows, x.parentID = some f.id <;>
      simp [removeFile, getFile, childrenIdsByFileID, childrenByFileID, deleteRow, h, hc]

/-- A row `RemoveFile` deletes is a file, which no row names as parent, or an empty directory. -/
theorem removeFile_parentLinks {t : Table} (hu : t.IdsUnique) (h : ParentLinks t)
    (path : String) : ParentLinks ((removeFile path).exec t).2 := by
  rw [removeFile_exec]
  split
  · exact h
  rename_i f hf
  split
  · exact h
  rename_i hc
  intro r hr
  simp only [List.mem_filter, decide_eq_true_eq] at hr
  obtain ⟨hname, hroot, hpar⟩ := h r hr.1
  refine ⟨hname, hroot, fun p hp => ?_⟩
  obtain ⟨q, hq, rfl, hqpath, hqdir⟩ := hpar p hp
  refine ⟨q, List.mem_filter.2 ⟨hq, ?_⟩, rfl, hqpath, hqdir⟩
  simp only [decide_eq_true_eq, ne_eq]
  intro hqf
  by_cases hd : isDir f.mode
  · exact hc ⟨hd, r, hr.1, by rw [← hqf]; exact hp⟩
  · have : q = f := List.inj_on_of_nodup_map hu hq (List.mem_of_find?_eq_some hf) hqf
    exact hd (this ▸ hqdir)

/-! ## Sequences of calls -/

inductive FsCall
  | newFile (path : String) (mode : UInt32) (flag : Int)
  | renameFile (src dst : String)
  | removeFile (path : String)

/-- The call, its result dropped; `NewFile` recurses at most the path's length deep. -/
def FsCall.call : FsCall → DB Unit
  | .newFile path mode flag => do let _ ← Mysqlfs.newFile (path.length + 2) path mode flag
  | .renameFile src dst => Mysqlfs.renameFile (dst.length + 2) src dst
  | .removeFile path => Mysqlfs.removeFile path

/-- The table after the calls, each made whatever the one before returned. -/
def runCalls (cs : List FsCall) (t : Table) : Table := cs.foldl (fun t c => (c.call.exec t).2) t

/-- Three runs from the empty table, linked until their last call: `NewFile("/a/b")` over the file
`/a` leaves its row unlinked; renaming `/d` to `/x` leaves `/d/e/f` under `/x/e`; moving `/a/d`
to `/b/d` keeps `/a` as its parent. -/
theorem parentLinks_broken :
    ParentLinks Table.empty ∧
      ParentLinks (runCalls [.newFile "/a" 0o644 0] Table.empty) ∧
      ((FsCall.newFile "/a/b" 0o644 0).call.exec
        (runCalls [.newFile "/a" 0o644 0] Table.empty)).1 = .error (.fileExists "/a") ∧
      ¬ ParentLinks (runCalls [.newFile "/a" 0o644 0, .newFile "/a/b" 0o644 0] Table.empty) ∧
      ParentLinks (runCalls [.newFile "/d/e/f" 0o644 0] Table.empty) ∧
      ¬ ParentLinks (runCalls [.newFile "/d/e/f" 0o644 0, .renameFile "/d" "/x"] Table.empty) ∧
      ParentLinks (runCalls [.newFile "/a/d/f" 0o644 0, .newFile "/b/g" 0o644 0] Table.empty) ∧
      ¬ ParentLinks (runCalls [.newFile "/a/d/f" 0o644 0, .newFile "/b/g" 0o644 0,
        .renameFile "/a/d" "/b/d"] Table.empty) :=
  ⟨by decide, by decide, rfl, by decide, by decide, by decide, by decide, by decide⟩

end MergeCore.Mysqlfs
