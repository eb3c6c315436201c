import MergeCore.Mysqlfs.Keys
import MergeCore.Worktree.CleanPaths

/-!
# The filesystem methods around `OpenFile`

`Mysqlfs` answers the rest of `billy.Filesystem` from the same table: `Stat` and `Lstat`
(a row's name, mode and size, `Stat` through symbolic links), `Readlink` and `Symlink` (a link
is a row with `os.ModeSymlink` whose bytes are the target; `Symlink` writes it with go-billy's
`util.WriteFile`, that is `OpenFile`, `Write` and `Close` on one handle), `MkdirAll` (`NewFile`
of a directory) and `ReadDir` (the children the `parentID` links name).

* `clean_clean`: `filepath.Clean` is idempotent, so the paths the methods clean again are the
  paths they stored.
* `newFile_spec`, `openFile_keeps`: `NewFile` keeps every row and stores the row it returns;
  the handle `OpenFile` returns is on a new row or on a stored row that is no link.
* `writeFile_exec`, `symlink_exec`: what `util.WriteFile` and `Symlink` leave.
-/

namespace MergeCore.Mysqlfs

/-! ## `Clean` is idempotent -/

/-- What `Clean` has kept after some elements, reversed: parts that are not empty or `.` and have
no `/`, the others before every `..` (in this reversed list: after), and no `..` when rooted. -/
def KeptRev (rooted : Bool) (acc : List String) : Prop :=
  (∀ e ∈ acc, e ≠ "" ∧ e ≠ "." ∧ '/' ∉ e.data) ∧
    ∃ rest k, acc = rest ++ List.replicate k ".." ∧ (∀ e ∈ rest, e ≠ "..") ∧
      (rooted → k = 0)

theorem keptRev_nil (r : Bool) : KeptRev r [] :=
  ⟨fun _ h => absurd h (List.not_mem_nil _), [], 0, rfl, fun _ h => absurd h (List.not_mem_nil _),
    fun _ => rfl⟩

/-- A `..` on a non-empty kept list: pushed over a `..`, or cancelling the part before it. -/
theorem keptRev_dotdot {r : Bool} {a : String} {acc : List String} (h : KeptRev r (a :: acc)) :
    (a = ".." → KeptRev r (".." :: a :: acc)) ∧ (a ≠ ".." → KeptRev r acc) := by
  obtain ⟨hk, rest, k, hacc, hrest, hr⟩ := h
  rcases rest with _ | ⟨b, rest⟩
  · obtain ⟨k, rfl⟩ : ∃ j, k = j + 1 := ⟨k - 1, by cases k <;> simp_all⟩
    simp only [List.nil_append, List.replicate_succ, List.cons.injEq] at hacc
    obtain ⟨rfl, rfl⟩ := hacc
    refine ⟨fun _ => ⟨?_, [], k + 2, rfl, fun _ h => absurd h (List.not_mem_nil _), ?_⟩,
      fun h => absurd rfl h⟩
    · exact List.forall_mem_cons.2 ⟨hk _ (List.mem_cons_self _ _), hk⟩
    · intro h; exact absurd (hr h) (Nat.succ_ne_zero k)
  · simp only [List.cons_append, List.cons.injEq] at hacc
    obtain ⟨rfl, rfl⟩ := hacc
    refine ⟨fun h => absurd h (hrest _ (List.mem_cons_self _ _)), fun _ => ⟨fun e he =>
      hk e (List.mem_cons_of_mem _ he), rest, k, rfl, fun e he => hrest e
        (List.mem_cons_of_mem _ he), hr⟩⟩

/-- `cleanElems` keeps its accumulator kept. -/
theorem kept_cleanElems (r : Bool) : ∀ (l acc : List String), (∀ e ∈ l, '/' ∉ e.data) →
    KeptRev r acc → KeptRev r (cleanElems r acc l).reverse
  | [], acc, _, h => by simpa [cleanElems] using h
  | e :: es, acc, hl, h => by
    have hes : ∀ x ∈ es, '/' ∉ x.data := fun x hx => hl x (List.mem_cons_of_mem e hx)
    unfold cleanElems
    by_cases h1 : e = "" ∨ e = "."
    · rw [if_pos h1]; exact kept_cleanElems r es acc hes h
    rw [if_neg h1]
    by_cases h2 : e = ".."
    · rw [if_pos h2]; subst h2
      rcases acc with _ | ⟨a, acc⟩
      · cases r
        · refine kept_cleanElems false es [".."] hes ⟨?_, [], 1, rfl,
            fun _ h => absurd h (List.not_mem_nil _), fun h => absurd h (by decide)⟩
          simp
        · exact kept_cleanElems true es [] hes (keptRev_nil true)
      · dsimp only
        by_cases ha : a = ".."
        · rw [if_pos ha]; exact kept_cleanElems r es _ hes ((keptRev_dotdot h).1 ha)
        · rw [if_neg ha]; exact kept_cleanElems r es acc hes ((keptRev_dotdot h).2 ha)
    · rw [if_neg h2]
      obtain ⟨hk, rest, k, rfl, hrest, hr⟩ := h
      push_neg at h1
      refine kept_cleanElems r es _ hes ⟨?_, e :: rest, k, rfl, ?_, hr⟩
      · exact List.forall_mem_cons.2 ⟨⟨h1.1, h1.2, hl e (List.mem_cons_self _ _)⟩, hk⟩
      · exact List.forall_mem_cons.2 ⟨h2, hrest⟩

/-- `..` elements are pushed over `..` elements, in a path that is not rooted. -/
theorem cleanElems_dots (l : List String) : ∀ j k : Nat,
    cleanElems false (List.replicate j "..") (List.replicate k ".." ++ l) =
      cleanElems false (List.replicate (j + k) "..") l
  | j, 0 => rfl
  | j, k + 1 => by
    have step : cleanElems false (List.replicate j "..") (".." :: (List.replicate k ".." ++ l)) =
        cleanElems false (List.replicate (j + 1) "..") (List.replicate k ".." ++ l) := by
      cases j <;> rfl
    rw [List.replicate_succ, List.cons_append, step, cleanElems_dots l (j + 1) k]
    congr 2; omega

/-- `Clean` gives back what it kept. -/
theorem cleanElems_kept {r : Bool} {es : List String} (h : KeptRev r es.reverse) :
    cleanElems r [] es = es := by
  obtain ⟨hk, rest, k, hacc, hrest, hr⟩ := h
  have hes : es = List.replicate k ".." ++ rest.reverse := by
    simpa using congrArg List.reverse hacc
  have hclean : ∀ p ∈ rest.reverse, p ≠ "" ∧ p ≠ "." ∧ p ≠ ".." := fun p hp => by
    have hp' : p ∈ es.reverse := by
      rw [hacc]; exact List.mem_append_left _ (List.mem_reverse.1 hp)
    exact ⟨(hk p hp').1, (hk p hp').2.1, hrest p (List.mem_reverse.1 hp)⟩
  cases r with
  | true => rw [hes, hr rfl]; simpa using cleanElems_of_clean true _ [] hclean
  | false =>
    rw [hes]
    refine (cleanElems_dots _ 0 k).trans ?_
    rw [Nat.zero_add, cleanElems_of_clean false _ _ hclean, List.reverse_replicate]

theorem clean_rooted {es : List String} (h : KeptRev true es.reverse) :
    clean ("/" ++ pathOf es) = "/" ++ pathOf es := by
  rcases es with _ | ⟨e, l⟩
  · rfl
  · have hc : cleanElems true [] (splitSlash ("/" ++ pathOf (e :: l)).data) = e :: l := by
      show cleanElems true [] (splitSlash ('/' :: (pathOf (e :: l)).data)) = e :: l
      rw [splitSlash, if_pos rfl, splitSlash_pathOf (List.cons_ne_nil _ _) fun p hp =>
        (h.1 p (List.mem_reverse.2 hp)).2.2]
      unfold cleanElems
      rw [if_pos (Or.inl rfl)]
      exact cleanElems_kept h
    have hr : ("/" ++ pathOf (e :: l)).data.head? = some '/' := rfl
    unfold clean
    simp only [hr, decide_True, if_true, hc]
    rfl

theorem clean_unrooted {es : List String} (hne : es ≠ []) (h : KeptRev false es.reverse) :
    clean (pathOf es) = pathOf es := by
  obtain ⟨e, l, rfl⟩ := List.exists_cons_of_ne_nil hne
  obtain ⟨he0, -, hes⟩ := h.1 e (List.mem_reverse.2 (List.mem_cons_self _ _))
  have hroot : (pathOf (e :: l)).data.head? ≠ some '/' := by
    obtain ⟨r, hr⟩ := data_pathOf_cons e l
    obtain ⟨c, cs, hc⟩ := List.exists_cons_of_ne_nil (fun h => he0 (String.ext h))
    rw [hr, hc]
    intro h
    simp only [List.cons_append, List.head?_cons, Option.some.injEq] at h
    exact hes (hc ▸ h ▸ List.mem_cons_self _ _)
  rw [clean, if_neg hroot, splitSlash_pathOf (List.cons_ne_nil _ _) fun p hp =>
    (h.1 p (List.mem_reverse.2 hp)).2.2]
  simp only [hroot, decide_False, cleanElems_kept h]
  simp [pathOf]

/-- **`filepath.Clean` is idempotent.** -/
theorem clean_clean (path : String) : clean (clean path) = clean path := by
  have hk := fun r => kept_cleanElems r (splitSlash path.data) []
    (fun _ => noSlash_of_mem_splitSlash) (keptRev_nil r)
  by_cases hr : path.data.head? = some '/'
  · have e : clean path = "/" ++ pathOf (cleanElems true [] (splitSlash path.data)) := by
      simp only [clean, hr, decide_True, if_true]; rfl
    rw [e]; exact clean_rooted (hk true)
  · by_cases he : cleanElems false [] (splitSlash path.data) = []
    · have e : clean path = "." := by simp [clean, hr, he]
      rw [e]; rfl
    · have e : clean path = pathOf (cleanElems false [] (splitSlash path.data)) := by
        simp only [clean, hr, decide_False, he, if_false]; rfl
      rw [e]; exact clean_unrooted he (hk false)

theorem clean_dir (path : String) : clean (dir path) = dir path := clean_clean _

/-! ## The methods -/

/-- `FileInfo` as `File.Stat` fills it: the name, the mode and the size of the bytes. -/
structure FileInfo where
  fileName : String
  fileMode : UInt32
  fileSize : Nat
deriving Repr, DecidableEq

/-- `File.Stat` of a row. -/
def FileDB.stat (f : FileDB) : FileInfo := ⟨f.name, f.mode, f.content.length⟩

/-- `Mysqlfs.Stat`, following at most `fuel` symbolic links: the row's information, or its
target's, under the base name of the path asked for. -/
def stat : Nat → String → DB FileInfo
  | 0, _ => throw .outOfFuel
  | fuel + 1, filename => do
    let some f ← getFile filename | throw .notExist
    let fi ← match resolveLink filename f with
      | some target => stat fuel target
      | none => pure f.stat
    return { fi with fileName := base filename }

/-- `Mysqlfs.Lstat`: the row itself, link or not, under its own name. -/
def lstat (filename : String) : DB FileInfo := do
  let some f ← getFile filename | throw .notExist
  return f.stat

/-- The errors of `Symlink` and `Readlink`: the storage's, `os.ErrExist`, and the
`*os.PathError` of `Readlink` (`Op` `readlink`, the link, `not a symlink`). -/
inductive LinkErr
  | fs (e : FsErr)
  | exist
  | notSymlink (path : String)
deriving Repr, DecidableEq

/-- The methods with these errors. -/
abbrev LinkDB := ExceptT LinkErr (StateM Table)

/-- Run such a method on a table: its result, and the table it leaves. -/
def LinkDB.exec {α : Type} (x : LinkDB α) (t : Table) : Except LinkErr α × Table := x.run.run t

/-- A storage method called by one of them: its error is the storage's. -/
def liftDB {α : Type} (x : DB α) : LinkDB α := ExceptT.mk fun t =>
  ((x.exec t).1.mapError .fs, (x.exec t).2)

section
variable {α β : Type} (t : Table)

@[simp] theorem LinkDB.exec_pure (a : α) : (pure a : LinkDB α).exec t = (.ok a, t) := rfl

@[simp] theorem LinkDB.exec_bind (x : LinkDB α) (f : α → LinkDB β) : (x >>= f).exec t =
    match x.exec t with
    | (.ok a, t') => (f a).exec t'
    | (.error e, t') => (.error e, t') := by
  unfold LinkDB.exec
  simp only [ExceptT.run_bind, StateT.run_bind]
  rcases x.run.run t with ⟨_ | a, t'⟩ <;> rfl

@[simp] theorem LinkDB.exec_get : (get : LinkDB Table).exec t = (.ok t, t) := rfl

@[simp] theorem LinkDB.exec_throw (e : LinkErr) : (throw e : LinkDB α).exec t = (.error e, t) :=
  rfl

@[simp] theorem liftDB_exec (x : DB α) :
    (liftDB x).exec t = ((x.exec t).1.mapError .fs, (x.exec t).2) := rfl

end

/-- `Mysqlfs.Readlink`: the bytes of a link's row, read one a character. -/
def readlink (link : String) : LinkDB String := do
  let some f ← liftDB (getFile link) | throw (.fs .notExist)
  if !isSymlink f.mode then throw (.notSymlink link)
  return bytesToString f.content

/-- `[]byte(s)`: a string's bytes, one a character, as `bytesToString` reads them back. -/
def stringToBytes (s : String) : List UInt8 := s.data.map fun c => c.toNat.toUInt8

/-- The first error among the results of some calls. -/
def firstError {α : Type} : List (Except FsErr α) → Option FsErr
  | [] => none
  | .error e :: _ => some e
  | .ok _ :: rs => firstError rs

/-- `util.WriteFile` of go-billy, as the calls it makes on the one handle `OpenFile` gives it:
`OpenFile` with `O_WRONLY|O_CREATE|O_TRUNC`, `Write`, and `Close`, also after a failed `Write`;
the first error. Without a handle the two later calls change nothing, so a failed `OpenFile`
gives its own error. `Write` returns `len(p)` whenever it succeeds, so the branch of
`io.ErrShortWrite` never runs. -/
def writeFile (filename : String) (data : List UInt8) (perm : UInt32) : DB Unit := do
  let (rs, s) := runSession FileCall.run
    [.openFile filename (Int.lor (Int.lor oWRONLY oCREATE) oTRUNC) perm, .write 0 data, .close 0]
    ⟨← get, []⟩
  set s.table
  match firstError rs with
  | some e => throw e
  | none => pure ()

/-- `Mysqlfs.Symlink`: `ErrExist` when `Stat` finds the link, the error of `Stat` when it is not
`ErrNotExist`, else `util.WriteFile` of the target's bytes at the link with mode
`0777|os.ModeSymlink`. `Stat` follows at most one link a row, as `OpenFile` does for a call. -/
def symlink (target link : String) : LinkDB Unit := do
  let fuel := (← get).rows.length + 1
  match ← liftDB (tryCatch (Except.ok <$> stat fuel link : DB (Except FsErr FileInfo))
      fun e => pure (.error e)) with
  | .ok _ => throw .exist
  | .error .notExist => liftDB (writeFile link (stringToBytes target) (0o777 ||| modeSymlink))
  | .error e => throw (.fs e)

/-- `Mysqlfs.MkdirAll`: `NewFile` of the path with `perm|os.ModeDir` and no flag, which makes the
missing directories above it; the recursion gets the fuel of the path's length. -/
def mkdirAll (path : String) (perm : UInt32) : DB Unit := do
  let _ ← newFile (path.length + 2) path (perm ||| modeDir) 0

/-- `storage.Children`: at the root, the rows without a parent; else the children of the row at
the path, none when there is no such row. -/
def children (path : String) : DB (List FileDB) := do
  let path := clean path
  if path = "" ∨ path = "/" then return (← get).rows.filter (·.parentID = none)
  match (← get).rows.find? (·.path = path) with
  | none => return []
  | some f => childrenByFileID f.id

/-- `Mysqlfs.ReadDir`, following at most `fuel` symbolic links: the information of each child,
in the order of the rows. The path need not be a directory, nor exist. -/
def readDir : Nat → String → DB (List FileInfo)
  | 0, _ => throw .outOfFuel
  | fuel + 1, path => do
    match (← getFile path).bind (resolveLink path) with
    | some target => readDir fuel target
    | none => return (← children path).map FileDB.stat

/-! ## What `NewFile` and `OpenFile` keep -/

theorem insertRow_exec (name path : String) (mode : UInt32) (flag : Int) (t : Table) :
    (insertRow name path mode flag).exec t =
      if t.rows.any (·.path = path) then (.error (.duplicatePath path), t)
      else (.ok t.autoIncrement, ⟨t.rows ++ [⟨t.autoIncrement, none, name, path, [], flag, mode⟩],
        t.autoIncrement + 1⟩) := by
  simp only [insertRow, exec_bind, exec_get]
  split <;> rfl

/-- An update that keeps ids fails and changes nothing, or maps the rows with the id. -/
theorem updateRow_exec (id : Nat) {g : FileDB → FileDB} (hg : ∀ r, (g r).id = r.id)
    (t : Table) :
    (updateRow id g).exec t =
      (.ok (), { t with rows := t.rows.map fun r => if r.id = id then g r else r }) ∨
      ∃ e, (updateRow id g).exec t = (.error e, t) := by
  simp only [updateRow, exec_bind, exec_get]
  split
  · split
    · exact .inr ⟨_, rfl⟩
    · exact .inl rfl
  · rename_i hn
    have hid : t.rows.map (fun r => if r.id = id then g r else r) = t.rows := by
      conv_rhs => rw [← List.map_id t.rows]
      refine List.map_congr_left fun r hr => if_neg fun h => ?_
      have hne := List.find?_eq_none.1 hn _ (List.mem_map_of_mem _ hr)
      rw [if_pos h, hg] at hne
      exact hne (by simp [h])
    exact .inl (by rw [hid]; rfl)

section parent
variable {nf : String → UInt32 → Int → DB (Option FileDB)}
  (hnf : ∀ p m fl t, Table.Keyed t → ∀ r ∈ t.rows, r ∈ ((nf p m fl).exec t).2.rows)
include hnf

theorem createParent_keeps (path : String) (mode : UInt32) {t : Table} (ht : t.Keyed) :
    ∀ r ∈ t.rows, r ∈ ((createParent nf path mode).exec t).2.rows := by
  intro r hr
  unfold createParent
  dsimp only
  split
  · exact hr
  · rw [exec_bind, exec_pure]
    dsimp only
    rw [exec_bind]
    have h := hnf (clean (dir path)) (perm mode ||| modeDir) 0 t ht r hr
    generalize (nf _ _ _).exec t = o at h ⊢
    rcases o with ⟨_ | _ | p, t'⟩ <;> exact h

/-- `CreateParentAddToFile` keeps the rows of other ids, and the row it returns is the file's,
stored when the file's was. -/
theorem createParentAddToFile_keeps (path : String) (mode : UInt32) (f : FileDB) {t : Table}
    (ht : t.Keyed) :
    (∀ r ∈ t.rows, r.id ≠ f.id →
      r ∈ ((createParentAddToFile nf path mode f).exec t).2.rows) ∧
      ∀ g, ((createParentAddToFile nf path mode f).exec t).1 = .ok g → f ∈ t.rows →
        g ∈ ((createParentAddToFile nf path mode f).exec t).2.rows ∧ g.path = f.path ∧
          g.mode = f.mode := by
  have h1 := createParent_keeps hnf path mode ht
  unfold createParentAddToFile
  rw [exec_bind]
  generalize (createParent nf path mode).exec t = o at h1 ⊢
  rcases o with ⟨_ | _ | p, t1⟩
  · exact ⟨fun r hr _ => h1 r hr, fun g h => by cases h⟩
  · exact ⟨fun r hr _ => h1 r hr, fun g h hf => by cases h; exact ⟨h1 f hf, rfl, rfl⟩⟩
  · dsimp only
    rw [exec_bind]
    rcases updateRow_exec f.id (g := fun r => { r with parentID := some p.id })
      (fun _ => rfl) t1 with h2 | ⟨e, h2⟩ <;> rw [h2]
    · refine ⟨fun r hr hne => List.mem_map.2 ⟨r, h1 r hr, if_neg hne⟩, fun g h hf => ?_⟩
      cases h
      exact ⟨List.mem_map.2 ⟨f, h1 f hf, if_pos rfl⟩, rfl, rfl⟩
    · exact ⟨fun r hr _ => h1 r hr, fun g h => by cases h⟩

end parent

/-- **`NewFile` keeps every row**, and a row it returns is stored, at the cleaned path, with the
mode asked for. -/
theorem newFile_spec : ∀ (fuel : Nat) (path : String) (mode : UInt32) (flag : Int) {t : Table},
    t.Keyed → (∀ r ∈ t.rows, r ∈ ((newFile fuel path mode flag).exec t).2.rows) ∧
      ∀ f, ((newFile fuel path mode flag).exec t).1 = .ok (some f) →
        f ∈ ((newFile fuel path mode flag).exec t).2.rows ∧ f.path = clean path ∧
          f.mode = mode
  | 0, _, _, _, _, _ => ⟨fun _ h => h, fun _ h => by cases h⟩
  | fuel + 1, path, mode, flag, t, ht => by
    simp only [newFile, exec_bind, getFile_exec]
    split
    · split <;> exact ⟨fun _ h => h, fun _ h => by cases h⟩
    rw [exec_bind, insertRow_exec]
    by_cases hany : (t.rows.any fun x => decide (x.path = clean path)) = true
    · rw [if_pos hany]; exact ⟨fun _ h => h, fun _ h => by cases h⟩
    rw [if_neg hany]
    have ht1 : Table.Keyed ⟨t.rows ++ [⟨t.autoIncrement, none, base (clean path), clean path,
        [], flag, mode⟩], t.autoIncrement + 1⟩ := by
      have := keepsKeys_insertRow (base (clean path)) (clean path) mode flag t ht
      rwa [insertRow_exec, if_neg hany] at this
    obtain ⟨hk, hg⟩ :=
      createParentAddToFile_keeps (fun p m fl _ ht => (newFile_spec fuel p m fl ht).1) (clean path)
        mode ⟨t.autoIncrement, none, base (clean path), clean path, [], flag, mode⟩ ht1
    dsimp only
    rw [exec_bind]
    generalize (createParentAddToFile _ _ _ _).exec _ = o at hk hg ⊢
    have hold : ∀ r ∈ t.rows, r ∈ o.2.rows := fun r hr =>
      hk r (List.mem_append_left _ hr) (Nat.ne_of_lt (ht.id_lt r hr))
    rcases o with ⟨_ | g, t2⟩
    · exact ⟨hold, fun _ h => by cases h⟩
    · refine ⟨hold, fun f h => ?_⟩
      cases h
      exact hg _ rfl (List.mem_append_right _ (List.mem_singleton_self _))

/-- **`OpenFile` keeps every row**, and its handle is on a stored row that is no link, or on a
row of an id no row had. -/
theorem openFile_keeps : ∀ (fuel : Nat) (filename : String) (flag : Int) (perm : UInt32)
    {t : Table}, t.Keyed →
      (∀ r ∈ t.rows, r ∈ ((openFile fuel filename flag perm).exec t).2.rows) ∧
      ∀ h, ((openFile fuel filename flag perm).exec t).1 = .ok h →
        (∃ r ∈ t.rows, r.id = h.id ∧ isSymlink r.mode = false) ∨
          ∀ r ∈ t.rows, r.id ≠ h.id
  | 0, _, _, _, _, _ => ⟨fun _ h => h, fun _ h => by cases h⟩
  | fuel + 1, filename, flag, perm, t, ht => by
    simp only [openFile, exec_bind, getFile_exec]
    split
    · rename_i hf
      split
      · exact ⟨fun _ h => h, fun _ h => by cases h⟩
      rw [exec_bind, exec_pure]
      dsimp only
      rw [exec_bind]
      obtain ⟨hk, hs⟩ := newFile_spec (filename.length + 2) filename perm flag ht
      have hkeyed := keepsKeys_newFile (filename.length + 2) filename perm flag t ht
      generalize (newFile _ _ _ _).exec t = o at hk hs hkeyed ⊢
      rcases o with ⟨e | _ | g, t1⟩
      · exact ⟨hk, fun _ h => by cases h⟩
      · exact ⟨hk, fun _ h => by cases h⟩
      dsimp only
      obtain ⟨hg, hgp, -⟩ := hs g rfl
      unfold openRow
      split
      · exact ⟨hk, fun _ h => by cases h⟩
      refine ⟨hk, fun h hh => .inr fun r hr hid => ?_⟩
      cases hh
      have hrg : r = g :=
        List.inj_on_of_nodup_map hkeyed.ids (hk r hr) hg (by simpa [fileDBtoFile] using hid)
      subst hrg
      exact absurd (List.find?_eq_none.1 hf r hr) (by simp [hgp, clean_clean])
    · rename_i f hf
      split
      · exact openFile_keeps fuel _ flag perm ht
      rename_i hl
      unfold openRow
      split
      · exact ⟨fun _ h => h, fun _ h => by cases h⟩
      refine ⟨fun _ h => h, fun h hh => .inl ⟨f, List.mem_of_find?_eq_some hf, ?_, ?_⟩⟩
      · cases hh; simp [fileDBtoFile]
      · unfold resolveLink at hl
        split at hl
        · cases hl
        · rename_i hs; simpa using hs

/-- `Stat` only reads. -/
theorem stat_table : ∀ (fuel : Nat) (filename : String) (t : Table),
    ((stat fuel filename).exec t).2 = t
  | 0, _, _ => rfl
  | fuel + 1, filename, t => by
    simp only [stat, exec_bind, getFile_exec]
    split
    · split
      · rename_i target _
        rw [exec_bind]
        have := stat_table fuel target t
        generalize (stat fuel _).exec t = o at this ⊢
        rcases o with ⟨_ | _, t'⟩ <;> exact this
      · rfl
    · rfl

/-- The flag of `util.WriteFile`: write only, create, truncate. -/
theorem writeFile_flag :
    isReadAndWrite (Int.lor (Int.lor oWRONLY oCREATE) oTRUNC) = false ∧
      isWriteOnly (Int.lor (Int.lor oWRONLY oCREATE) oTRUNC) = true ∧
      isCreate (Int.lor (Int.lor oWRONLY oCREATE) oTRUNC) = true ∧
      isAppend (Int.lor (Int.lor oWRONLY oCREATE) oTRUNC) = false ∧
      isTruncate (Int.lor (Int.lor oWRONLY oCREATE) oTRUNC) = true := by
  decide

/-- **What `util.WriteFile` leaves**: the table `OpenFile` leaves, with the bytes stored in the
row of the handle it opened; or the error of `OpenFile`. -/
theorem writeFile_exec (filename : String) (data : List UInt8) (perm : UInt32) (t : Table) :
    (writeFile filename data perm).exec t =
      match (openFile (t.rows.length + 1) filename (Int.lor (Int.lor oWRONLY oCREATE) oTRUNC)
        perm).exec t with
      | (.ok h, t1) => (.ok (), { t1 with rows := t1.rows.map fun r =>
          if r.id = h.id then { r with content := data } else r })
      | (.error e, t1) => (.error e, t1) := by
  obtain ⟨hrw, hwo, -, hap, htr⟩ := writeFile_flag
  rcases ho : (openFile (t.rows.length + 1) filename (Int.lor (Int.lor oWRONLY oCREATE) oTRUNC)
    perm).exec t with ⟨_ | h, t1⟩
  · simp [writeFile, runSession, FileCall.run, ho, firstError, write, close]
  · obtain ⟨g, -, rfl⟩ := openFile_spec ho
    simp [writeFile, runSession, FileCall.run, ho, firstError, write, close, File.writeAt,
      writeBytes, hrw, hwo, hap, htr, fileDBtoFile, updateFileContent]

/-! ## Lookups on a keyed table -/

/-- On rows whose keys are distinct, the first row with a key is the row with it. -/
theorem find?_key {β : Type} [DecidableEq β] {l : List FileDB} {key : FileDB → β}
    (hl : (l.map key).Nodup) {x : FileDB} (hx : x ∈ l) {k : β} (hk : key x = k) :
    l.find? (fun r => decide (key r = k)) = some x := by
  obtain ⟨y, hy⟩ := Option.isSome_iff_exists.1
    (List.find?_isSome (p := fun r => decide (key r = k)).2 ⟨x, hx, by simpa using hk⟩)
  have hyk : key y = k := by simpa using List.find?_some (p := fun r => decide (key r = k)) hy
  rw [hy, List.inj_on_of_nodup_map hl (List.mem_of_find?_eq_some hy) hx (hyk.trans hk.symm)]

theorem getFile_keyed {t : Table} (ht : t.Keyed) {r : FileDB} (hr : r ∈ t.rows) {path : String}
    (hp : r.path = clean path) : (getFile path).exec t = (.ok (some r), t) := by
  rw [getFile_exec, find?_key ht.paths hr hp]

theorem getFile_none {t : Table} {path : String} (hnew : ∀ r ∈ t.rows, r.path ≠ clean path) :
    (getFile path).exec t = (.ok none, t) := by
  rw [getFile_exec, List.find?_eq_none.2 fun r hr => by simpa using hnew r hr]

theorem isDir_or_modeDir (m : UInt32) : isDir (m ||| modeDir) = true := by
  have h : ((m ||| modeDir) &&& modeDir).toNat.testBit 31 = true := by
    rw [UInt32.and_toNat, Nat.testBit_and, show (m ||| modeDir).toNat = m.toNat ||| modeDir.toNat
      from BitVec.toNat_or .., Nat.testBit_or]
    simp [show modeDir.toNat.testBit 31 = true by decide]
  simp only [isDir, ne_eq, decide_eq_true_eq]
  intro h0
  rw [h0] at h
  exact absurd h (by decide)

/-- A string of bytes reads back from its bytes. -/
theorem bytesToString_stringToBytes {s : String} (hs : ∀ c ∈ s.data, c.toNat < 256) :
    bytesToString (stringToBytes s) = s := by
  apply String.ext
  simp only [bytesToString, stringToBytes, List.map_map]
  conv_rhs => rw [← List.map_id s.data]
  refine List.map_congr_left fun c hc => ?_
  simp [Nat.toUInt8, UInt8.toNat, UInt8.ofNat, Fin.ofNat, Nat.mod_eq_of_lt (hs c hc)]

/-! ## When the methods succeed -/

/-- An update of a row whose new path no other row has succeeds. -/
theorem updateRow_unique {id : Nat} {g : FileDB → FileDB} (hg : ∀ r, (g r).id = r.id)
    {t : Table} (hu : (t.rows.map (·.id)).Nodup) {r0 : FileDB} (hr0 : r0 ∈ t.rows)
    (hid : r0.id = id) (hp : ∀ q ∈ t.rows, q.id ≠ id → q.path ≠ (g r0).path) :
    (updateRow id g).exec t =
      (.ok (), { t with rows := t.rows.map fun r => if r.id = id then g r else r }) := by
  have hmap : ((t.rows.map fun r => if r.id = id then g r else r).map (·.id)).Nodup := by
    have : ∀ r : FileDB, (if r.id = id then g r else r).id = r.id := fun r => by
      split <;> simp [hg]
    simpa [List.map_map, Function.comp_def, this] using hu
  have hfind := find?_key hmap (List.mem_map.2 ⟨r0, hr0, rfl⟩)
    (show (if r0.id = id then g r0 else r0).id = id by rw [if_pos hid, hg, hid])
  simp only [updateRow, exec_bind, exec_get, hfind, if_pos hid]
  split
  · rename_i hany
    simp only [List.any_eq_true, decide_eq_true_eq] at hany
    obtain ⟨q, hq, hqid, hqp⟩ := hany
    exact absurd hqp (hp q hq hqid)
  · rfl

/-- `NewFile` answers none only for a directory stored at the path, and then changes nothing. -/
theorem newFile_none {fuel : Nat} {path : String} {mode : UInt32} {flag : Int} {t t' : Table}
    (h : (newFile fuel path mode flag).exec t = (.ok none, t')) :
    t' = t ∧ ∃ r ∈ t.rows, r.path = clean path ∧ isDir r.mode = true := by
  cases fuel with
  | zero => cases h
  | succ fuel =>
    simp only [newFile, exec_bind, getFile_exec] at h
    split at h
    · rename_i f hf
      split at h
      · cases h
        refine ⟨rfl, f, List.mem_of_find?_eq_some hf, ?_, ‹_›⟩
        simpa [clean_clean] using List.find?_some hf
      · cases h
    · rw [exec_bind] at h
      generalize (insertRow _ _ _ _).exec t = o at h
      rcases o with ⟨_ | id, t1⟩
      · cases h
      · dsimp only at h
        rw [exec_bind] at h
        generalize (createParentAddToFile _ _ _ _).exec t1 = o at h
        rcases o with ⟨_ | g, t2⟩ <;> cases h

/-- `NewFile` of a stored directory's path changes nothing. -/
theorem newFile_dir {t : Table} (ht : t.Keyed) {r : FileDB} (hr : r ∈ t.rows) {path : String}
    (hp : r.path = clean path) (hd : isDir r.mode = true) (fuel : Nat) (mode : UInt32)
    (flag : Int) : (newFile (fuel + 1) path mode flag).exec t = (.ok none, t) := by
  rw [newFile, exec_bind, getFile_keyed ht hr (by rw [hp, clean_clean])]
  simp [hd]

/-- Inserting a row at a free path keeps the keys. -/
theorem keyed_insert {t : Table} (ht : t.Keyed) {p name : String} {mode : UInt32} {flag : Int}
    (hnew : ∀ r ∈ t.rows, r.path ≠ p) :
    Table.Keyed ⟨t.rows ++ [⟨t.autoIncrement, none, name, p, [], flag, mode⟩],
      t.autoIncrement + 1⟩ := by
  have := keepsKeys_insertRow name p mode flag t ht
  rwa [insertRow_exec, if_neg (by simpa using hnew)] at this

/-- `NewFile` of a path without a row inserts the row, then links it to its directory's. -/
theorem newFile_insert {t : Table} {path : String} (n : Nat) (mode : UInt32) (flag : Int)
    (hnew : ∀ r ∈ t.rows, r.path ≠ clean path) :
    (newFile (n + 1) path mode flag).exec t =
      match (createParentAddToFile (newFile n) (clean path) mode
          ⟨t.autoIncrement, none, base (clean path), clean path, [], flag, mode⟩).exec
          ⟨t.rows ++ [⟨t.autoIncrement, none, base (clean path), clean path, [], flag, mode⟩],
            t.autoIncrement + 1⟩ with
      | (.ok f, t') => (.ok (some f), t')
      | (.error e, t') => (.error e, t') := by
  rw [newFile, exec_bind, getFile_none (by simpa only [clean_clean] using hnew)]
  dsimp only
  rw [exec_bind, insertRow_exec, if_neg (by simpa using hnew)]
  dsimp only
  rw [exec_bind]
  rcases (createParentAddToFile _ _ _ _).exec _ with ⟨_ | _, _⟩ <;> rfl

/-- Linking a stored row to a parent keeps its path, so on a keyed table it succeeds. -/
theorem linkRow_exec {u : Table} (hu : u.Keyed) {f : FileDB} (hf : f ∈ u.rows) (q : Nat) :
    (updateRow f.id fun r => { r with parentID := some q }).exec u =
      (.ok (), { u with rows := u.rows.map fun r =>
        if r.id = f.id then { r with parentID := some q } else r }) :=
  updateRow_unique (g := fun r => { r with parentID := some q }) (fun _ => rfl) hu.ids hf rfl
    fun _ hr hid hp => hid (congrArg FileDB.id (List.inj_on_of_nodup_map hu.paths hr hf hp))

/-- Whether `NewFile` of the cleaned path `p` can make the directories above it, within `n`
levels: its directory is the root or a stored directory, or it has no row, is shorter than `p`,
and can be made in turn. -/
def parentsReady (t : Table) : Nat → String → Bool
  | 0, _ => false
  | n + 1, p => dir p = "/" || t.rows.any (fun q => q.path = dir p && isDir q.mode) ||
      ((dir p).length < p.length && !t.rows.any (·.path = dir p) && parentsReady t n (dir p))

/-- Rows at paths no shorter than `p` keep `parentsReady` of `p`: it looks for missing rows only
at shorter paths. -/
theorem parentsReady_append {rows : List FileDB} {a : Nat} :
    ∀ {n : Nat} {t : Table} {p : String}, (∀ r ∈ rows, p.length ≤ r.path.length) →
      parentsReady t n p = true → parentsReady ⟨t.rows ++ rows, a⟩ n p = true
  | 0, _, _, _, h => h
  | n + 1, t, p, hl, h => by
    simp only [parentsReady, Bool.or_eq_true, Bool.and_eq_true, decide_eq_true_eq,
      Bool.not_eq_true', List.any_append, Bool.or_eq_false_iff] at h ⊢
    rcases h with h | ⟨⟨hlt, hno⟩, hrec⟩
    · exact .inl (h.imp_right .inl)
    refine .inr ⟨⟨hlt, hno, List.any_eq_false.2 fun r hr hp => ?_⟩,
      parentsReady_append (fun r hr => (Nat.le_of_lt hlt).trans (hl r hr)) hrec⟩
    have := hl r hr
    rw [of_decide_eq_true hp] at this
    omega

theorem parentsReady_of_dir {t : Table} {p : String} (n : Nat)
    (h : dir p = "/" ∨ ∃ q ∈ t.rows, q.path = dir p ∧ isDir q.mode = true) :
    parentsReady t (n + 1) p = true := by
  rcases h with h | ⟨q, hq, hqp, hqd⟩
  · simp [parentsReady, h]
  · simp only [parentsReady, Bool.or_eq_true, List.any_eq_true]
    exact .inl (.inr ⟨q, hq, by simp [hqp, hqd]⟩)

/-- **`NewFile` of a path without a row succeeds when the directories above it can be made**:
it inserts the row, makes the missing directory above it by `NewFile` again, and links the row
to that directory's. -/
theorem newFile_ready : ∀ (n : Nat) {t : Table} {path : String} (mode : UInt32) (flag : Int),
    t.Keyed → (∀ r ∈ t.rows, r.path ≠ clean path) → parentsReady t n (clean path) = true →
      ∃ f t', (newFile (n + 1) path mode flag).exec t = (.ok (some f), t')
  | 0, _, _, _, _, _, _, h => absurd h Bool.false_ne_true
  | n + 1, t, path, mode, flag, ht, hnew, hready => by
    set f0 : FileDB := ⟨t.autoIncrement, none, base (clean path), clean path, [], flag, mode⟩
    have ht1 : Table.Keyed ⟨t.rows ++ [f0], t.autoIncrement + 1⟩ := keyed_insert ht hnew
    have hf0 : f0 ∈ t.rows ++ [f0] := List.mem_append_right _ (List.mem_singleton_self _)
    rw [newFile_insert (n + 1) mode flag hnew]
    unfold createParentAddToFile createParent
    rw [clean_dir]
    by_cases hroot : dir (clean path) = "/"
    · simp only [hroot, if_true, exec_bind, exec_pure]
      exact ⟨_, _, rfl⟩
    simp only [parentsReady, hroot, decide_False, Bool.false_or, Bool.or_eq_true, List.any_eq_true,
      Bool.and_eq_true, decide_eq_true_eq, Bool.not_eq_true', List.any_eq_false] at hready
    simp only [if_neg hroot, exec_bind]
    rcases hready with ⟨q, hq, hqp, hqd⟩ | ⟨⟨hlt, hno⟩, hrec⟩
    · -- the directory is stored: `NewFile` of it answers none, and `GetFile` finds it
      have hq1 := getFile_keyed ht1 (List.mem_append_left _ hq) (by rw [hqp, clean_dir])
      simp only [exec_pure, newFile_dir ht1 (List.mem_append_left _ hq) (by rw [hqp, clean_dir])
        hqd, hq1, Option.map_some', exec_bind, linkRow_exec ht1 hf0]
      exact ⟨_, _, rfl⟩
    · -- the directory has no row: it is made first, one level down
      have hno1 : ∀ r ∈ t.rows ++ [f0], r.path ≠ clean (dir (clean path)) := fun r hr h => by
        rw [clean_dir] at h
        rcases List.mem_append.1 hr with hr | hr
        · exact hno r hr (by simpa using h)
        · rw [List.mem_singleton.1 hr] at h
          exact absurd (congrArg String.length h) (Nat.ne_of_gt hlt)
      obtain ⟨g, t2, hg⟩ := newFile_ready n (perm mode ||| modeDir) 0 ht1 hno1
        (by rw [clean_dir]; exact parentsReady_append (by simpa using hlt.le) hrec)
      have ht2 := keepsKeys_newFile (n + 1) (dir (clean path)) (perm mode ||| modeDir) 0 _ ht1
      have hf2 := (newFile_spec (n + 1) (dir (clean path)) (perm mode ||| modeDir) 0 ht1).1 f0 hf0
      rw [hg] at ht2 hf2
      simp only [exec_pure, hg, exec_bind, linkRow_exec ht2 hf2]
      exact ⟨_, _, rfl⟩

/-- `NewFile` of a path without a row, at the root or in a stored directory, succeeds. -/
theorem newFile_fresh {t : Table} (ht : t.Keyed) {path : String} (mode : UInt32) (flag : Int)
    (k : Nat) (hnew : ∀ r ∈ t.rows, r.path ≠ clean path)
    (hdir : dir (clean path) = "/" ∨
      ∃ q ∈ t.rows, q.path = dir (clean path) ∧ isDir q.mode = true) :
    ∃ f t', (newFile (k + 2) path mode flag).exec t = (.ok (some f), t') :=
  newFile_ready (k + 1) mode flag ht hnew (parentsReady_of_dir k hdir)

/-- `OpenFile` of a path without a row is `NewFile`'s row, opened. -/
theorem openFile_fresh (fuel : Nat) {filename : String} {flag : Int} (perm : UInt32) {t : Table}
    (hnew : ∀ r ∈ t.rows, r.path ≠ clean filename) (hc : isCreate flag = true) :
    (openFile (fuel + 1) filename flag perm).exec t =
      match (newFile (filename.length + 2) filename perm flag).exec t with
      | (.ok (some f), t1) => (openRow filename f flag perm).exec t1
      | (.ok none, t1) => (.error .panic, t1)
      | (.error e, t1) => (.error e, t1) := by
  rw [openFile, exec_bind, getFile_none hnew]
  simp only [hc, Bool.not_true, Bool.false_eq_true, if_false, exec_bind, exec_pure]
  rcases (newFile (filename.length + 2) filename perm flag).exec t with ⟨_ | _ | f, t1⟩ <;> rfl

/-- `Stat` of a row that is no link is the row's information, under the path's base name. -/
theorem stat_row {t : Table} (ht : t.Keyed) {r : FileDB} (hr : r ∈ t.rows) {path : String}
    (hp : r.path = clean path) (hs : isSymlink r.mode = false) (fuel : Nat) :
    (stat (fuel + 1) path).exec t = (.ok { r.stat with fileName := base path }, t) := by
  have hl : resolveLink path r = none := by simp [resolveLink, hs]
  simp [stat, getFile_keyed ht hr hp, hl]

/-- **What `Symlink` does**, by what `Stat` of the link answers. -/
theorem symlink_exec (target link : String) (t : Table) :
    (symlink target link).exec t =
      match ((stat (t.rows.length + 1) link).exec t).1 with
      | .ok _ => (.error .exist, t)
      | .error .notExist =>
        (((writeFile link (stringToBytes target) (0o777 ||| modeSymlink)).exec t).1.mapError .fs,
          ((writeFile link (stringToBytes target) (0o777 ||| modeSymlink)).exec t).2)
      | .error e => (.error (.fs e), t) := by
  have hs := stat_table (t.rows.length + 1) link t
  simp only [symlink, LinkDB.exec_bind, LinkDB.exec_get, liftDB_exec, exec_tryCatch,
    ← bind_pure_comp, exec_bind, exec_pure]
  generalize (stat (t.rows.length + 1) link).exec t = o at hs ⊢
  rcases o with ⟨e | fi, t'⟩ <;> subst hs
  · cases e <;> rfl
  · rfl

/-- `util.WriteFile` never writes into a link's row: its handle is on a new row, or on a row
that is no link. -/
theorem writeFile_keeps_link {t : Table} (ht : t.Keyed) {r : FileDB} (hr : r ∈ t.rows)
    (hs : isSymlink r.mode = true) (filename : String) (data : List UInt8) (perm : UInt32) :
    r ∈ ((writeFile filename data perm).exec t).2.rows := by
  rw [writeFile_exec]
  obtain ⟨hk, hh⟩ := openFile_keeps (t.rows.length + 1) filename
    (Int.lor (Int.lor oWRONLY oCREATE) oTRUNC) perm ht
  generalize (openFile _ _ _ _).exec t = o at hk hh ⊢
  rcases o with ⟨e | h, t1⟩
  · exact hk r hr
  refine List.mem_map.2 ⟨r, hk r hr, if_neg fun hid => ?_⟩
  rcases hh h rfl with ⟨r', hr', hid', hs'⟩ | hne
  · have : r = r' := List.inj_on_of_nodup_map ht.ids hr hr' (hid.trans hid'.symm)
    subst this
    rw [hs] at hs'
    cases hs'
  · exact hne r hr hid

/-! ## Links, directories and listings -/

/-- `Readlink` of a link's row: its bytes. -/
theorem readlink_row {t : Table} (ht : t.Keyed) {r : FileDB} (hr : r ∈ t.rows) {link : String}
    (hp : r.path = clean link) (hs : isSymlink r.mode = true) :
    (readlink link).exec t = (.ok (bytesToString r.content), t) := by
  simp only [readlink, LinkDB.exec_bind, liftDB_exec, getFile_keyed ht hr hp]
  simp [Except.mapError, hs]

/-- A link at `/l` to the missing `/m`. -/
def danglingRow : FileDB := ⟨1, none, "l", "/l", stringToBytes "/m", 0, 0o777 ||| modeSymlink⟩

/-- The table of that one link. -/
def danglingLink : Table := ⟨[danglingRow], 2⟩

theorem mkdirAll_exec (path : String) (perm : UInt32) (t : Table) :
    (mkdirAll path perm).exec t =
      (((newFile (path.length + 2) path (perm ||| modeDir) 0).exec t).1.map fun _ => (),
        ((newFile (path.length + 2) path (perm ||| modeDir) 0).exec t).2) := by
  simp only [mkdirAll, exec_bind, exec_pure]
  rcases (newFile (path.length + 2) path (perm ||| modeDir) 0).exec t with ⟨_ | _, t'⟩ <;> rfl

/-- **`MkdirAll` is idempotent.** After it succeeds a directory is stored at the cleaned path, and
`MkdirAll` of the path again, with any permissions, succeeds and changes nothing. -/
theorem mkdirAll_twice {t t' : Table} (ht : t.Keyed) {path : String} {perm : UInt32}
    (h : (mkdirAll path perm).exec t = (.ok (), t')) (perm' : UInt32) :
    (∃ r ∈ t'.rows, r.path = clean path ∧ isDir r.mode = true) ∧
      (mkdirAll path perm').exec t' = (.ok (), t') := by
  obtain ⟨-, hs⟩ := newFile_spec (path.length + 2) path (perm ||| modeDir) 0 ht
  have hkeyed := keepsKeys_newFile (path.length + 2) path (perm ||| modeDir) 0 t ht
  have hnone := @newFile_none (path.length + 2) path (perm ||| modeDir) 0 t
  rw [mkdirAll_exec] at h
  generalize (newFile (path.length + 2) path (perm ||| modeDir) 0).exec t = o at h hs hkeyed hnone
  have hdir : ∃ r ∈ t'.rows, r.path = clean path ∧ isDir r.mode = true := by
    rcases o with ⟨e | _ | f, t1⟩ <;> cases h
    · obtain ⟨rfl, r, hr, hrp, hrd⟩ := hnone rfl
      exact ⟨r, hr, hrp, hrd⟩
    · obtain ⟨hf, hfp, hfm⟩ := hs f rfl
      exact ⟨f, hf, hfp, hfm ▸ isDir_or_modeDir perm⟩
  have ht' : t'.Keyed := by rcases o with ⟨e | _, t1⟩ <;> cases h; exact hkeyed
  obtain ⟨r, hr, hrp, hrd⟩ := hdir
  refine ⟨⟨r, hr, hrp, hrd⟩, ?_⟩
  rw [mkdirAll_exec, show path.length + 2 = path.length + 1 + 1 from rfl,
    newFile_dir ht' hr hrp hrd]
  rfl

/-- The table `MkdirAll("/a/b")` leaves on the empty one: `/a/b` under `/a`. -/
def abTable : Table := ((mkdirAll "/a/b" 0o755).exec Table.empty).2

theorem emptyTable_mkdirAll_twice :
    (mkdirAll "/a/b" 0o755).exec Table.empty = (.ok (), abTable) ∧
      (∃ r ∈ abTable.rows, r.path = clean "/a/b" ∧ isDir r.mode = true) ∧
      (mkdirAll "/a/b" 0o700).exec abTable = (.ok (), abTable) :=
  have h : (mkdirAll "/a/b" 0o755).exec Table.empty = (.ok (), abTable) := rfl
  ⟨h, mkdirAll_twice keyed_empty h 0o700⟩

theorem clean_ne_empty (path : String) : clean path ≠ "" := by
  have hk := fun r => kept_cleanElems r (splitSlash path.data) []
    (fun _ => noSlash_of_mem_splitSlash) (keptRev_nil r)
  unfold clean
  dsimp only
  split_ifs with hr he
  · intro h
    have := congrArg String.length h
    rw [String.length_append] at this
    have h1 : "/".length = 1 := rfl
    have h0 : "".length = 0 := rfl
    omega
  · decide
  · have h0 : decide (path.data.head? = some '/') = false := by simpa using hr
    rw [h0] at he ⊢
    obtain ⟨e, l, hel⟩ := List.exists_cons_of_ne_nil he
    have he0 := ((hk false).1 e (by rw [hel]; simp)).1
    rw [hel]
    exact pathOf_ne_empty l he0

/-- On linked rows of a keyed table, the rows a directory's id names as parent are the rows whose
path's directory is its path. -/
theorem parentID_iff {t : Table} (ht : t.Keyed) (hl : ParentLinks t) {q r : FileDB}
    (hq : q ∈ t.rows) (hr : r ∈ t.rows) (hroot : q.path ≠ "/") :
    r.parentID = some q.id ↔ dir r.path = q.path := by
  obtain ⟨-, hnone, hpar⟩ := hl r hr
  constructor
  · intro h
    obtain ⟨q', hq', hid, hqp, -⟩ := hpar q.id h
    rw [← hqp, List.inj_on_of_nodup_map ht.ids hq' hq hid]
  · intro h
    rcases hx : r.parentID with _ | x
    · exact absurd (h ▸ hnone.1 hx) (Ne.symm hroot ∘ Eq.symm)
    · obtain ⟨q', hq', rfl, hqp, -⟩ := hpar x hx
      rw [List.inj_on_of_nodup_map ht.paths hq' hq (hqp.trans h)]

/-- `storage.Children` on linked rows: the rows whose path's directory is the path. -/
theorem children_parentLinks {t : Table} (ht : t.Keyed) (hl : ParentLinks t) (path : String) :
    (children path).exec t = (.ok (t.rows.filter fun r => dir r.path = clean path), t) := by
  unfold children
  dsimp only
  by_cases hroot : clean path = "/"
  · rw [if_pos (Or.inr hroot)]
    simp only [exec_bind, exec_get, exec_pure, hroot]
    congr 2
    exact List.filter_congr fun r hr => by simpa using (hl r hr).2.1
  rw [if_neg (by simp [hroot, clean_ne_empty])]
  simp only [exec_bind, exec_get, exec_pure]
  split
  · rename_i hn
    congr 2
    refine (List.filter_eq_nil_iff.2 fun r hr h => ?_).symm
    have hd : dir r.path = clean path := by simpa using h
    obtain ⟨q, hq, hqp, -⟩ := hl.dir_row hr (hd ▸ hroot)
    exact absurd (hqp.trans hd) (by simpa using List.find?_eq_none.1 hn q hq)
  · rename_i q hq
    have hqp : q.path = clean path := by simpa using List.find?_some hq
    simp only [childrenByFileID, exec_bind, exec_get, exec_pure]
    congr 2
    exact List.filter_congr fun r hr => by
      simpa [hqp] using parentID_iff ht hl (List.mem_of_find?_eq_some hq) hr (hqp ▸ hroot)

end MergeCore.Mysqlfs
