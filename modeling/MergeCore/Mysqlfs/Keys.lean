import MergeCore.Mysqlfs.ParentLinks
import MergeCore.Mysqlfs.Reference

/-!
# The keys of the file table

`newStorage` declares the table with `id BIGINT AUTO_INCREMENT NOT NULL PRIMARY KEY` and
`UNIQUE (path)`. `Table.Keyed` is what the two give the rows: distinct ids, each below the
counter, and distinct paths. Every statement the methods send keeps it, whether it succeeds or
fails: an insert takes the counter's id and is refused over a path in use
(`keepsKeys_insertRow`), an update keeps the ids and is refused over another row's path
(`keepsKeys_updateRow`), a delete only drops rows. So every storage method keeps it
(`keepsKeys_newFile`, `keepsKeys_removeFile`, `keepsKeys_renameFile`, `keepsKeys_openFile`), and
so does every call of a client on its handles (`keepsKeysFS_run`), and every run of them from a
keyed table (`keyed_runCalls`, `keyed_runSession`).
-/

namespace MergeCore.Mysqlfs

/-! ## The invariant -/

/-- The keys `newStorage` declares: the `AUTO_INCREMENT` primary key, distinct and below the
counter, and `UNIQUE (path)`. -/
structure Table.Keyed (t : Table) : Prop where
  id_lt : ∀ r ∈ t.rows, r.id < t.autoIncrement
  ids : (t.rows.map (·.id)).Nodup
  paths : (t.rows.map (·.path)).Nodup

theorem keyed_empty : Table.empty.Keyed := ⟨by simp [Table.empty], .nil, .nil⟩

/-- `x` keeps the keys, whether it returns or fails. -/
def KeepsKeys {α : Type} (x : DB α) : Prop := ∀ t : Table, t.Keyed → (x.exec t).2.Keyed

section rules
variable {α β : Type} {x : DB α}

theorem KeepsKeys.of_exec (h : ∀ t, (x.exec t).2 = t) : KeepsKeys x := fun t ht => by
  rwa [h t]

theorem keepsKeys_pure (a : α) : KeepsKeys (pure a : DB α) := .of_exec fun _ => rfl

theorem keepsKeys_throw (e : FsErr) : KeepsKeys (throw e : DB α) := .of_exec fun _ => rfl

theorem KeepsKeys.bind {f : α → DB β} (hx : KeepsKeys x) (hf : ∀ a, KeepsKeys (f a)) :
    KeepsKeys (x >>= f) := fun t ht => by
  have h := hx t ht
  rw [exec_bind]
  generalize x.exec t = o at h ⊢
  rcases o with ⟨_ | a, t'⟩
  · exact h
  · exact hf a t' h

theorem KeepsKeys.tryCatch {h : FsErr → DB α} (hx : KeepsKeys x) (hh : ∀ e, KeepsKeys (h e)) :
    KeepsKeys (tryCatch x h) := fun t ht => by
  have h' := hx t ht
  rw [exec_tryCatch]
  generalize x.exec t = o at h' ⊢
  rcases o with ⟨_ | a, t'⟩
  · exact hh _ t' h'
  · exact h'

theorem KeepsKeys.forM {l : List β} {f : β → DB PUnit} (hf : ∀ b, KeepsKeys (f b)) :
    KeepsKeys (l.forM f) := by
  induction l with
  | nil => exact keepsKeys_pure _
  | cons b l ih => exact (hf b).bind fun _ => ih

theorem keepsKeys_getFile (path : String) : KeepsKeys (getFile path) := .of_exec fun _ => rfl

theorem keepsKeys_getFileID (path : String) : KeepsKeys (getFileID path) :=
  .of_exec fun _ => rfl

theorem keepsKeys_childrenByFileID (id : Nat) : KeepsKeys (childrenByFileID id) :=
  .of_exec fun _ => rfl

end rules

/-! ## The statements -/

theorem keepsKeys_insertRow (name path : String) (mode : UInt32) (flag : Int) :
    KeepsKeys (insertRow name path mode flag) := fun t ht => by
  by_cases hp : t.rows.any (·.path = path)
  · simpa only [insertRow, exec_bind, exec_get, hp, if_true] using ht
  simp only [insertRow, exec_bind, exec_get, hp]
  change Table.Keyed ⟨t.rows ++ [_], t.autoIncrement + 1⟩
  simp only [List.any_eq_true, decide_eq_true_eq, not_exists, not_and] at hp
  refine ⟨fun r hr => ?_, ?_, ?_⟩
  · rcases List.mem_append.1 hr with hr | hr
    · exact Nat.lt_succ_of_lt (ht.id_lt r hr)
    · simp only [List.mem_singleton] at hr; subst hr; exact Nat.lt_succ_self _
  · simp only [List.map_append, List.map_cons, List.map_nil]
    exact ht.ids.append (List.nodup_singleton _) fun i hi hj => by
      obtain ⟨r, hr, rfl⟩ := List.mem_map.1 hi
      simp only [List.mem_singleton] at hj
      exact absurd (ht.id_lt r hr) (by omega)
  · simp only [List.map_append, List.map_cons, List.map_nil]
    exact ht.paths.append (List.nodup_singleton _) fun p hi hj => by
      obtain ⟨r, hr, rfl⟩ := List.mem_map.1 hi
      simp only [List.mem_singleton] at hj
      exact hp r hr hj

/-- An update that keeps the ids keeps the keys: the one row with the id is the only row whose
path can change, and the database refuses a path another row has. -/
theorem keepsKeys_updateRow (id : Nat) (g : FileDB → FileDB) (hg : ∀ r, (g r).id = r.id) :
    KeepsKeys (updateRow id g) := fun t ht => by
  have hid : ∀ r : FileDB, (if r.id = id then g r else r).id = r.id := fun r => by
    split <;> simp [hg]
  simp only [updateRow, exec_bind, exec_get]
  split
  · rename_i r hr
    split
    · exact ht
    rename_i hno
    change Table.Keyed ⟨t.rows.map _, t.autoIncrement⟩
    simp only [List.any_eq_true, decide_eq_true_eq, not_exists, not_and, ne_eq] at hno
    obtain ⟨r0, hr0, hr0r⟩ := List.mem_map.1 (List.mem_of_find?_eq_some hr)
    have hr0id : r0.id = id := by rw [← hid r0, hr0r]; simpa using List.find?_some hr
    have hrg : r = g r0 := by rw [← hr0r, if_pos hr0id]
    refine ⟨fun q hq => ?_, ?_, ?_⟩
    · obtain ⟨q', hq', rfl⟩ := List.mem_map.1 hq
      rw [hid]; exact ht.id_lt q' hq'
    · simpa [List.map_map, Function.comp_def, hid] using ht.ids
    · simp only [List.map_map]
      refine (List.Nodup.of_map _ ht.ids).map_on fun a ha b hb hab => ?_
      simp only [Function.comp_apply] at hab
      by_cases ha' : a.id = id <;> by_cases hb' : b.id = id
      · exact List.inj_on_of_nodup_map ht.ids ha hb (ha'.trans hb'.symm)
      · rw [if_pos ha', if_neg hb'] at hab
        have : a = r0 := List.inj_on_of_nodup_map ht.ids ha hr0 (ha'.trans hr0id.symm)
        subst this
        exact absurd (hab.symm.trans (by rw [hrg])) (hno b hb hb')
      · rw [if_neg ha', if_pos hb'] at hab
        have : b = r0 := List.inj_on_of_nodup_map ht.ids hb hr0 (hb'.trans hr0id.symm)
        subst this
        exact absurd (hab.trans (by rw [hrg])) (hno a ha ha')
      · rw [if_neg ha', if_neg hb'] at hab
        exact List.inj_on_of_nodup_map ht.paths ha hb hab
  · exact ht

theorem keepsKeys_deleteRow (id : Nat) : KeepsKeys (deleteRow id) := fun _ ht =>
  ⟨fun r hr => ht.id_lt r (List.mem_filter.1 hr).1,
    ht.ids.sublist ((List.filter_sublist _).map _),
    ht.paths.sublist ((List.filter_sublist _).map _)⟩

theorem keepsKeys_updateFileContent (id : Nat) (content : List UInt8) :
    KeepsKeys (updateFileContent id content) := fun t ht => by
  have hid : ∀ r : FileDB, (if r.id = id then { r with content } else r).id = r.id :=
    fun r => by split <;> rfl
  have hpath : ∀ r : FileDB, (if r.id = id then { r with content } else r).path = r.path :=
    fun r => by split <;> rfl
  refine ⟨fun r hr => ?_, ?_, ?_⟩
  · obtain ⟨r', hr', rfl⟩ := List.mem_map.1 hr
    rw [hid]; exact ht.id_lt r' hr'
  · simpa [updateFileContent, List.map_map, Function.comp_def, hid] using ht.ids
  · simpa [updateFileContent, List.map_map, Function.comp_def, hpath] using ht.paths

theorem keepsKeys_transaction {x : DB Unit} (hx : KeepsKeys x) : KeepsKeys (transaction x) :=
  fun t ht => by
  have h := hx t ht
  simp only [transaction, exec_bind, exec_get]
  generalize x.exec t = o at h ⊢
  rcases o with ⟨_ | ⟨⟩, t'⟩
  · exact ht
  · exact h

/-! ## The methods -/

section methods
variable {nf : String → UInt32 → Int → DB (Option FileDB)}
  (hnf : ∀ p m fl, KeepsKeys (nf p m fl))
include hnf

theorem keepsKeys_createParent (path : String) (mode : UInt32) :
    KeepsKeys (createParent nf path mode) := by
  unfold createParent
  dsimp only
  split
  · exact keepsKeys_pure _
  · refine (hnf _ _ _).bind fun o => ?_
    cases o with
    | some p => exact keepsKeys_pure _
    | none => exact keepsKeys_getFile _

theorem keepsKeys_createParentAddToFile (path : String) (mode : UInt32) (f : FileDB) :
    KeepsKeys (createParentAddToFile nf path mode f) := by
  unfold createParentAddToFile
  refine (keepsKeys_createParent hnf path mode).bind fun o => ?_
  cases o with
  | none => exact keepsKeys_pure _
  | some p => exact (keepsKeys_updateRow f.id (fun r => { r with parentID := some p.id })
      fun _ => rfl).bind fun _ => keepsKeys_pure _

end methods

theorem keepsKeys_newFile : ∀ (fuel : Nat) (path : String) (mode : UInt32) (flag : Int),
    KeepsKeys (newFile fuel path mode flag)
  | 0, _, _, _ => keepsKeys_throw _
  | fuel + 1, path, mode, flag => by
    unfold newFile
    refine (keepsKeys_getFile _).bind fun o => ?_
    cases o with
    | some f => dsimp only; split <;> [exact keepsKeys_pure _; exact keepsKeys_throw _]
    | none =>
      exact (keepsKeys_insertRow _ _ _ _).bind fun _ =>
        (keepsKeys_createParentAddToFile (keepsKeys_newFile fuel) _ _ _).bind fun _ =>
          keepsKeys_pure _

theorem keepsKeys_removeFile (path : String) : KeepsKeys (removeFile path) := fun t ht => by
  rw [removeFile_exec]
  split
  · exact ht
  split
  · exact ht
  · exact keepsKeys_deleteRow _ t ht

theorem keepsKeys_renameFile (fuel : Nat) (src dst : String) :
    KeepsKeys (renameFile fuel src dst) := by
  unfold renameFile
  refine (keepsKeys_getFile _).bind fun o => ?_
  rcases o with _ | f
  · exact keepsKeys_throw _
  dsimp only
  split
  · refine (keepsKeys_childrenByFileID _).bind fun cs => keepsKeys_transaction <|
      (keepsKeys_updateRow _ _ ?_).bind fun _ => .forM fun c => keepsKeys_updateRow _ _ ?_ <;>
    exact fun _ => rfl
  · refine (KeepsKeys.tryCatch (keepsKeys_removeFile _) fun _ => keepsKeys_pure _).bind fun _ =>
      (keepsKeys_getFileID _).bind fun pid => ?_
    split
    · exact keepsKeys_updateRow _ _ fun _ => rfl
    · refine (keepsKeys_createParent (keepsKeys_newFile fuel) _ _).bind fun _ =>
        .tryCatch (keepsKeys_updateRow _ _ ?_) fun _ => keepsKeys_pure _
      exact fun _ => rfl

theorem keepsKeys_openRow (filename : String) (f : FileDB) (flag : Int) (perm : UInt32) :
    KeepsKeys (openRow filename f flag perm) := by
  unfold openRow; split <;> [exact keepsKeys_throw _; exact keepsKeys_pure _]

theorem keepsKeys_openFile : ∀ (fuel : Nat) (filename : String) (flag : Int) (perm : UInt32),
    KeepsKeys (openFile fuel filename flag perm)
  | 0, _, _, _ => keepsKeys_throw _
  | fuel + 1, filename, flag, perm => by
    unfold openFile
    refine (keepsKeys_getFile _).bind fun o => ?_
    rcases o with _ | f
    · dsimp only
      split
      · exact keepsKeys_throw _
      · refine (keepsKeys_pure _).bind fun _ => (keepsKeys_newFile _ _ _ _).bind fun o => ?_
        rcases o with _ | g
        · exact keepsKeys_throw _
        · exact keepsKeys_openRow _ _ _ _
    · dsimp only
      split
      · exact keepsKeys_openFile fuel _ _ _
      · exact keepsKeys_openRow _ _ _ _

theorem keepsKeys_call (c : FsCall) : KeepsKeys c.call := by
  cases c with
  | newFile path mode flag => exact (keepsKeys_newFile _ _ _ _).bind fun _ => keepsKeys_pure _
  | renameFile src dst => exact keepsKeys_renameFile _ _ _
  | removeFile path => exact keepsKeys_removeFile _

/-! ## Handles -/

/-- `x` keeps the keys of the session's table, whether it returns or fails. -/
def KeepsKeysFS {H α : Type} (x : FS H α) : Prop :=
  ∀ s : Session H, s.table.Keyed → (x.exec s).2.table.Keyed

section handles
variable {H α β : Type} {x : FS H α}

theorem KeepsKeysFS.of_table (h : ∀ s, (x.exec s).2.table = s.table) : KeepsKeysFS x :=
  fun s hs => by rwa [h s]

theorem keepsKeysFS_pure (a : α) : KeepsKeysFS (pure a : FS H α) := .of_table fun _ => rfl

theorem keepsKeysFS_throw (e : FsErr) : KeepsKeysFS (throw e : FS H α) := .of_table fun _ => rfl

theorem KeepsKeysFS.bind {f : α → FS H β} (hx : KeepsKeysFS x) (hf : ∀ a, KeepsKeysFS (f a)) :
    KeepsKeysFS (x >>= f) := fun s hs => by
  have h := hx s hs
  rw [FS.exec_bind]
  generalize x.exec s = o at h ⊢
  rcases o with ⟨_ | a, s'⟩
  · exact h
  · exact hf a s' h

theorem KeepsKeysFS.map (f : α → β) (hx : KeepsKeysFS x) : KeepsKeysFS (f <$> x) := by
  rw [← bind_pure_comp]; exact hx.bind fun _ => keepsKeysFS_pure _

theorem keepsKeysFS_db {x : DB α} (hx : KeepsKeys x) : KeepsKeysFS (db x : FS H α) :=
  fun s hs => hx s.table hs

theorem keepsKeysFS_handle (fd : Nat) : KeepsKeysFS (handle fd : FS H H) :=
  .of_table fun s => by rw [handle_exec]; split <;> rfl

theorem keepsKeysFS_setHandle (fd : Nat) (f : H) : KeepsKeysFS (setHandle fd f) :=
  .of_table fun _ => rfl

/-- A guard `if c then throw e` before `f`. -/
theorem KeepsKeysFS.guard {c : Prop} [Decidable c] {e : FsErr} {f : PUnit → FS H α}
    (hf : KeepsKeysFS (f ())) : KeepsKeysFS (if c then throw e >>= f else pure () >>= f) := by
  split
  · exact .of_table fun _ => rfl
  · exact hf

end handles

theorem keepsKeysFS_read (fd len : Nat) : KeepsKeysFS (read fd len) := by
  unfold read
  refine (keepsKeysFS_handle fd).bind fun f => (keepsKeysFS_db (keepsKeys_getFile _)).bind
    fun o => ?_
  rcases o with _ | f1
  · exact keepsKeysFS_throw _
  refine (keepsKeysFS_setHandle _ _).bind fun _ => ?_
  split
  · exact keepsKeysFS_throw _
  refine (keepsKeysFS_setHandle _ _).bind fun _ => ?_
  split
  · split <;> [exact keepsKeysFS_pure _; exact keepsKeysFS_throw _]
  · exact keepsKeysFS_pure _

theorem keepsKeysFS_write (fd : Nat) (p : List UInt8) : KeepsKeysFS (write fd p) := by
  unfold write
  refine (keepsKeysFS_handle fd).bind fun f => ?_
  dsimp only
  refine .guard (.guard ?_)
  split
  · exact keepsKeysFS_throw _
  · exact (keepsKeysFS_setHandle _ _).bind fun _ =>
      (keepsKeysFS_db (keepsKeys_updateFileContent _ _)).bind fun _ => keepsKeysFS_pure _

theorem keepsKeysFS_seek (fd : Nat) (offset whence : Int) :
    KeepsKeysFS (seek fd offset whence) := by
  unfold seek
  refine (keepsKeysFS_handle fd).bind fun f => ?_
  dsimp only
  exact .guard ((keepsKeysFS_setHandle _ _).bind fun _ => keepsKeysFS_pure _)

theorem keepsKeysFS_close (fd : Nat) : KeepsKeysFS (close fd) := by
  unfold close
  refine (keepsKeysFS_handle fd).bind fun f => ?_
  dsimp only
  exact .guard (keepsKeysFS_setHandle _ _)

theorem keepsKeysFS_truncate (fd : Nat) (size : Int) : KeepsKeysFS (truncate fd size) := by
  unfold truncate
  refine (keepsKeysFS_handle fd).bind fun f => ?_
  dsimp only
  split
  · exact .guard (keepsKeysFS_setHandle _ _)
  · exact keepsKeysFS_setHandle _ _

theorem keepsKeysFS_run (c : FileCall) : KeepsKeysFS c.run := by
  cases c with
  | openFile filename flag perm =>
    intro s hs
    have h := keepsKeys_openFile (s.table.rows.length + 1) filename flag perm s.table hs
    simp only [FileCall.run, FS.exec_bind, FS.exec_get, db_exec]
    generalize (openFile _ _ _ _).exec s.table = o at h ⊢
    rcases o with ⟨_ | f, t'⟩ <;> exact h
  | read fd len => exact (keepsKeysFS_read fd len).map _
  | write fd p => exact (keepsKeysFS_write fd p).map _
  | seek fd offset whence => exact (keepsKeysFS_seek fd offset whence).map _
  | truncate fd size => exact (keepsKeysFS_truncate fd size).map _
  | close fd => exact (keepsKeysFS_close fd).map _

/-! ## Runs -/

theorem keyed_runCalls {t : Table} (ht : t.Keyed) (cs : List FsCall) : (runCalls cs t).Keyed := by
  induction cs generalizing t with
  | nil => exact ht
  | cons c cs ih => exact ih (keepsKeys_call c t ht)

theorem keyed_runSession : ∀ (cs : List FileCall) {s : Session File}, s.table.Keyed →
    (runSession FileCall.run cs s).2.table.Keyed
  | [], _, hs => hs
  | c :: cs, s, hs => keyed_runSession cs (keepsKeysFS_run c s hs)

end MergeCore.Mysqlfs
