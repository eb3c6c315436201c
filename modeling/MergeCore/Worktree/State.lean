import MergeCore.Walker.Model
import MergeCore.Diff3.Model

/-!
# The repository a merge runs on

The state that `Worktree`'s merge methods read and write: the object store (commits and their
trees), the references (`HEAD`, branches, `MERGE_HEAD`, `ORIG_HEAD`, `MERGE_MSG`), and the
worktree's own part (index, files, the blob cache `blobs`, and the draws of `rand.Int()`).

A blob is named by its contents, so a blob hash is the blob and `plumbing.ZeroHash` is `none`.
A tree is flattened to the list of its files' paths and blobs.

A computation is an `Op`: it reads an environment, updates a state, returns a result or an
error, and reports the writes it made as a list of `Event`s. The state a computation reached
stays when it fails, as in Go, where every write is made in place before an error is returned.
Events are only appended (`Op.bind`), so the order of a run's writes is the order of its
events. The merge's own functions run in `MW` (they read the object store and update the
worktree's part); the methods that move references run in `MR` over the whole `Repo`, and
`liftWork` runs an `MW` computation there, leaving objects and references alone.

The collaborators that are not in the sources (the index's `Add`, `Remove`,
`addConflictFile` and `resetIndex`, `merkletrie.DiffTree`, the filesystem, `Reset` and
`isFastForward`) are written from their documented behaviour, in the section that names
them.
-/

namespace MergeCore

/-! ## Data -/

/-- `index.Stage`. -/
inductive Stage
  | merged
  | ancestorMode
  | ourMode
  | theirMode
deriving Repr, DecidableEq

/-- An index entry: `Name`, `Hash` (the blob) and `Stage`. -/
structure Entry where
  name : String
  hash : String
  stage : Stage
deriving Repr, DecidableEq

/-- A tree, flattened: each file's path and blob. -/
abbrev Tree := List (String × String)

/-- The references a merge names. -/
inductive RefName
  | head
  | branch (name : String)
  | mergeHead
  | origHead
deriving Repr, DecidableEq

/-- `HEAD`: a symbolic reference to a branch, or a hash (detached). -/
inductive HeadRef
  | symbolic (branch : String)
  | hash (h : Nat)
deriving Repr, DecidableEq

/-- `blobInfo`. -/
structure BlobInfo where
  path : String
  stage : Stage
  blob : String
deriving Repr, DecidableEq

/-- The object store: commits, and the tree of each commit by its hash. -/
structure Objects where
  commits : List Commit
  trees : List (Nat × Tree)
deriving Repr, DecidableEq

/-- The references and `MERGE_MSG`. -/
structure Refs where
  head : HeadRef
  branches : List (String × Nat)
  mergeHead : Option Nat
  origHead : Option Nat
  mergeMsg : Option String
deriving Repr, DecidableEq

/-- The filesystem methods whose calls can fail. -/
inductive FsMethod
  | create
  | write
  | close
  | rename
  | remove
deriving Repr, DecidableEq

/-- The worktree's part: the index, the files, the blob cache `w.blobs` (`nil` is `none`), the
next value of `rand.Int()`, and the filesystem's failures: every call of a method on a path
listed in `faults` returns an error. -/
structure Work where
  index : List Entry
  files : List (String × String)
  blobs : Option (List (String × List BlobInfo))
  seed : Nat
  faults : List (FsMethod × String)
deriving Repr, DecidableEq

/-- The repository. -/
structure Repo where
  objects : Objects
  refs : Refs
  work : Work
deriving Repr, DecidableEq

/-- The errors the modelled code returns. `panic` is a Go panic, `outOfFuel` a walk or a
recursion that used up its fuel, `fsError` a failed filesystem call and `errTooLong` the
scanner's `bufio.ErrTooLong`. -/
inductive Err
  | mergeInProgress
  | mergeCommitNeeded (msg : String)
  | mergeWithConflicts (msg : String)
  | hasUncommittedFiles
  | hasUnmergedFiles
  | referenceNotFound
  | objectNotFound
  | fileNotFound
  | notExist
  | noCommonParent
  | fewParents (n : Nat)
  | panic
  | outOfFuel
  | fsError
  | errTooLong
deriving Repr, DecidableEq

/-- One write: what `Run.events` records. -/
inductive Event
  | setReference (name : RefName)
  | removeReference (name : RefName)
  | setIndex
  | writeFile (path : String)
  | removeFile (path : String)
  | cacheBlob (path : String) (st : Stage)
  | setMergeMsg
  | removeMergeMsg
deriving Repr, DecidableEq

/-- Set the value of a key, in place, or at the end. -/
def assocSet {κ ν : Type} [DecidableEq κ] : List (κ × ν) → κ → ν → List (κ × ν)
  | [], k, v => [(k, v)]
  | (k', v') :: l, k, v => if k' = k then (k, v) :: l else (k', v') :: assocSet l k v

/-- Remove a key. -/
def assocErase {κ ν : Type} [DecidableEq κ] (l : List (κ × ν)) (k : κ) : List (κ × ν) :=
  l.filter fun p => p.1 ≠ k

@[simp] theorem lookup_assocSet_self {κ ν : Type} [DecidableEq κ] (l : List (κ × ν)) (k : κ)
    (v : ν) : (assocSet l k v).lookup k = some v := by
  induction l with
  | nil => simp [assocSet]
  | cons p l ih =>
    obtain ⟨k', v'⟩ := p
    by_cases h : k' = k
    · simp [assocSet, h]
    · have hk : (k == k') = false := by simpa using Ne.symm h
      simp [assocSet, h, List.lookup_cons, ih, hk]

theorem lookup_assocSet {κ ν : Type} [DecidableEq κ] (l : List (κ × ν)) (k k' : κ) (v : ν) :
    (assocSet l k v).lookup k' = if k' = k then some v else l.lookup k' := by
  split
  · subst k'; exact lookup_assocSet_self l k v
  · have hk : (k' == k) = false := by simpa
    induction l with
    | nil => simp [assocSet, List.lookup_cons, hk]
    | cons p l ih =>
      obtain ⟨k'', v'⟩ := p
      by_cases h : k'' = k
      · subst k''; simp [assocSet, List.lookup_cons, hk]
      · simp only [assocSet, h, if_false, List.lookup_cons, ih]

/-! ## Computations -/

/-- What a computation gives: its value or its error, the state it leaves, and its writes in
order. -/
inductive Run (σ α : Type) where
  | ok (a : α) (s : σ) (es : List Event)
  | error (e : Err) (s : σ) (es : List Event)

/-- Results compare, so that a run on a given repository can be evaluated. -/
instance decEqExcept {ε α : Type} [DecidableEq ε] [DecidableEq α] : DecidableEq (Except ε α)
  | .ok a, .ok b => decidable_of_iff (a = b) ⟨congrArg _, Except.ok.inj⟩
  | .error a, .error b => decidable_of_iff (a = b) ⟨congrArg _, Except.error.inj⟩
  | .ok _, .error _ => isFalse nofun
  | .error _, .ok _ => isFalse nofun

namespace Run

variable {σ α : Type}

/-- The value or the error. -/
def result : Run σ α → Except Err α
  | ok a _ _ => .ok a
  | error e _ _ => .error e

/-- The state left. -/
def state : Run σ α → σ
  | ok _ s _ => s
  | error _ s _ => s

/-- The writes made. -/
def events : Run σ α → List Event
  | ok _ _ es => es
  | error _ _ es => es

/-- The same run with the writes `es` made before. -/
def after (es : List Event) : Run σ α → Run σ α
  | ok a s es' => ok a s (es ++ es')
  | error e s es' => error e s (es ++ es')

variable {a : α} {e : Err} {s : σ} {es : List Event}

@[simp] theorem result_ok : (ok a s es).result = .ok a := rfl
@[simp] theorem result_error : (error e s es : Run σ α).result = .error e := rfl
@[simp] theorem state_ok : (ok a s es).state = s := rfl
@[simp] theorem state_error : (error e s es : Run σ α).state = s := rfl
@[simp] theorem events_ok : (ok a s es).events = es := rfl
@[simp] theorem events_error : (error e s es : Run σ α).events = es := rfl

@[simp] theorem after_ok (es' : List Event) : (ok a s es).after es' = ok a s (es' ++ es) := rfl
@[simp] theorem after_error (es' : List Event) :
    (error e s es : Run σ α).after es' = error e s (es' ++ es) := rfl

@[simp] theorem state_after (o : Run σ α) : (o.after es).state = o.state := by cases o <;> rfl
@[simp] theorem events_after (o : Run σ α) : (o.after es).events = es ++ o.events := by
  cases o <;> rfl
@[simp] theorem result_after (o : Run σ α) : (o.after es).result = o.result := by cases o <;> rfl
@[simp] theorem after_nil (o : Run σ α) : o.after [] = o := by cases o <;> rfl

end Run

/-- A computation reading `ρ` and updating `σ`. -/
def Op (ρ σ α : Type) : Type := ρ → σ → Run σ α

namespace Op

variable {ρ σ α β : Type}

/-- Return `a`, changing nothing. -/
def pure (a : α) : Op ρ σ α := fun _ s => .ok a s []

/-- Run `x`, then `f` on its result; an error stops the run in the state it reached. -/
def bind (x : Op ρ σ α) (f : α → Op ρ σ β) : Op ρ σ β := fun r s =>
  match x r s with
  | .ok a s' es => (f a r s').after es
  | .error e s' es => .error e s' es

instance : Monad (Op ρ σ) where
  pure := pure
  bind := bind

/-- Return the error `e`. -/
def fail (e : Err) : Op ρ σ α := fun _ s => .error e s []

/-- Run `x`; on an error, run the handler from the state `x` reached. -/
def tryCatch (x : Op ρ σ α) (h : Err → Op ρ σ α) : Op ρ σ α := fun r s =>
  match x r s with
  | .ok a s' es => .ok a s' es
  | .error e s' es => (h e r s').after es

instance : MonadExceptOf Err (Op ρ σ) where
  throw := fail
  tryCatch := tryCatch

/-- `if c { return e }`. -/
def throwIf (c : Bool) (e : Err) : Op ρ σ Unit := if c then fail e else pure ()

/-- Run `x` and drop its error, as the code does with a call whose error it does not read. -/
def ignore (x : Op ρ σ α) : Op ρ σ Unit := fun r s =>
  let o := x r s
  .ok () o.state o.events

/-- Replace the state by `f` of it, recording `es`. -/
def update (f : σ → σ) (es : List Event) : Op ρ σ Unit := fun _ s => .ok () (f s) es

variable {r : ρ} {s : σ}

@[simp] theorem pure_apply (a : α) : (Pure.pure a : Op ρ σ α) r s = .ok a s [] := rfl

@[simp] theorem bind_apply (x : Op ρ σ α) (f : α → Op ρ σ β) :
    (x >>= f) r s = match x r s with
      | .ok a s' es => (f a r s').after es
      | .error e s' es => .error e s' es := rfl

@[simp] theorem map_apply (f : α → β) (x : Op ρ σ α) :
    (f <$> x) r s = match x r s with
      | .ok a s' es => .ok (f a) s' es
      | .error e s' es => .error e s' es := by
  show (bind x fun a => pure (f a)) r s = _
  unfold bind
  cases x r s <;> simp [pure]

@[simp] theorem throw_apply (e : Err) : (throw e : Op ρ σ α) r s = .error e s [] := rfl

@[simp] theorem tryCatch_apply (x : Op ρ σ α) (h : Err → Op ρ σ α) :
    (MonadExcept.tryCatch x h : Op ρ σ α) r s = match x r s with
      | .ok a s' es => .ok a s' es
      | .error e s' es => (h e r s').after es := rfl

@[simp] theorem ignore_apply (x : Op ρ σ α) : ignore x r s = .ok () (x r s).state (x r s).events :=
  rfl

@[simp] theorem throwIf_apply (c : Bool) (e : Err) :
    (throwIf c e : Op ρ σ Unit) r s = if c then .error e s [] else .ok () s [] := by
  unfold throwIf; split <;> rfl

@[simp] theorem update_apply (f : σ → σ) (es : List Event) : update f es r s = .ok () (f s) es :=
  rfl

theorem bind_of_ok {x : Op ρ σ α} {f : α → Op ρ σ β} {a : α} {s' : σ} {es : List Event}
    (h : x r s = .ok a s' es) : (x >>= f) r s = (f a r s').after es := by
  simp [h]

end Op

/-- The merge's own computations: they read the object store and update the worktree's part. -/
abbrev MW := Op Objects Work

/-- The worktree's methods, over the whole repository. -/
abbrev MR := Op Unit Repo

/-- Run a merge computation on the repository: objects and references stay. -/
def liftWork {α : Type} (x : MW α) : MR α := fun _ r =>
  match x r.objects r.work with
  | .ok a w es => .ok a { r with work := w } es
  | .error e w es => .error e { r with work := w } es

section
variable {α : Type} (x : MW α) (r : Repo)

theorem liftWork_apply : liftWork x () r = match x r.objects r.work with
    | .ok a w es => .ok a { r with work := w } es
    | .error e w es => .error e { r with work := w } es := rfl

@[simp] theorem state_liftWork :
    (liftWork x () r).state = { r with work := (x r.objects r.work).state } := by
  unfold liftWork; split <;> simp_all

@[simp] theorem events_liftWork : (liftWork x () r).events = (x r.objects r.work).events := by
  unfold liftWork; split <;> simp_all

@[simp] theorem result_liftWork : (liftWork x () r).result = (x r.objects r.work).result := by
  unfold liftWork; split <;> simp_all

end

/-! ## The object store -/

/-- Modelled from the spec: `object.GetCommit`. -/
def getCommitObject (h : Nat) : MW Commit := fun objs w =>
  match getCommit objs.commits h with
  | some c => .ok c w []
  | none => .error .objectNotFound w []

/-- Modelled from the spec: `Commit.Tree`. -/
def commitTree (c : Commit) : MW Tree := fun objs w =>
  match objs.trees.lookup c.hash with
  | some t => .ok t w []
  | none => .error .objectNotFound w []

/-- Modelled from the spec: `Commit.File`: the blob at `path` of the commit's tree. -/
def commitFile (c : Commit) (path : String) : MW String := do
  let t ← commitTree c
  match t.lookup path with
  | some b => pure b
  | none => throw .fileNotFound

/-- Modelled from the spec: `BlobObject`: the blob of a hash; the zero hash names none. -/
def blobObject : Option String → MW String
  | some b => pure b
  | none => throw .objectNotFound

/-- The error a stopped walk returns. -/
def WalkErr.toErr : WalkErr → Err
  | .objectNotFound => .objectNotFound
  | .outOfFuel => .outOfFuel

/-- `getCommonParents` over the object store, within `fuel` iterations: a parent missing from
the store is `getParents`' `ErrObjectNotFound`. -/
def commonParents (fuel : Nat) (oldC newC : Commit) : MW (List Commit) := fun objs w =>
  match getCommonParentsRun objs.commits oldC newC fuel with
  | .ok ps => .ok ps w []
  | .error e => .error e.toErr w []

/-! ## The index and the filesystem

`Storer.Index`/`SetIndex`, the worktree's `Add` and `Remove`, `addConflictFile`, `resetIndex`
and the `billy` filesystem, from their documented behaviour: each write of the index is one
`setIndex` event and each file written, renamed onto or created is one `writeFile` event. A
filesystem call fails, before it changes anything, exactly when the worktree's `faults` list
its method and path, so a path that refuses one write refuses every later one. -/

/-- Modelled from the spec: `Storer.Index`. -/
def index : MW (List Entry) := fun _ w => .ok w.index w []

/-- Modelled from the spec: `Storer.SetIndex`. -/
def setIndex (idx : List Entry) : MW Unit :=
  Op.update (fun w => { w with index := idx }) [.setIndex]

/-- The index without the entries of `path`. -/
def dropPath (idx : List Entry) (path : String) : List Entry := idx.filter (·.name ≠ path)

/-- Modelled from the spec: `resetIndex`: the index of a tree, every file at stage `Merged`. -/
def resetIndex (t : Tree) : MW Unit := setIndex (t.map fun p => ⟨p.1, p.2, .merged⟩)

/-- Modelled from the spec: `Filesystem.Open`, read to the end. -/
def fsOpen (name : String) : MW String := fun _ w =>
  match w.files.lookup name with
  | some c => .ok c w []
  | none => .error .notExist w []

/-- Modelled from the spec: a call of `m` on `name` fails when the failures list it, and changes
nothing. -/
def fsFault (m : FsMethod) (name : String) : MW Unit := fun _ w =>
  if (m, name) ∈ w.faults then .error .fsError w [] else .ok () w []

/-- Modelled from the spec: `Filesystem.Create`: an empty file. -/
def fsCreate (name : String) : MW Unit := do
  fsFault .create name
  Op.update (fun w => { w with files := assocSet w.files name "" }) [.writeFile name]

/-- Modelled from the spec: `File.Write` at the end of a file. -/
def fsWrite (name s : String) : MW Unit := do
  fsFault .write name
  let c ← fsOpen name
  Op.update (fun w => { w with files := assocSet w.files name (c ++ s) }) [.writeFile name]

/-- Modelled from the spec: `File.Close`. -/
def fsClose (name : String) : MW Unit := fsFault .close name

/-- Modelled from the spec: `Filesystem.Rename`. -/
def fsRename (src dst : String) : MW Unit := do
  fsFault .rename src
  let c ← fsOpen src
  Op.update (fun w => { w with files := assocSet (assocErase w.files src) dst c })
    [.removeFile src, .writeFile dst]

/-- Modelled from the spec: `Filesystem.Remove`. -/
def fsRemove (name : String) : MW Unit := do
  fsFault .remove name
  let _ ← fsOpen name
  Op.update (fun w => { w with files := assocErase w.files name }) [.removeFile name]

/-- `rand.Int()`. -/
def randInt : MW Nat := fun _ w => .ok w.seed { w with seed := w.seed + 1 } []

/-- The name of a temporary file, `fmt.Sprintf("temp_%d", rand.Int())`. -/
def tempName : MW String := do
  let n ← randInt
  pure ("temp_" ++ toString n)

/-- Modelled from the spec: `Worktree.Add`: stage the file's contents at `Merged`, in place of the
path's entries. -/
def add (path : String) : MW Unit := do
  let c ← fsOpen path
  let idx ← index
  setIndex (dropPath idx path ++ [⟨path, c, .merged⟩])

/-- Modelled from the spec: `Worktree.Remove`: drop the path from the index and the filesystem. -/
def remove (path : String) : MW Unit := do
  let idx ← index
  setIndex (dropPath idx path)
  Op.update (fun w => { w with files := assocErase w.files path }) [.removeFile path]

/-- Modelled from the spec: `addConflictFile`: the path's entries become one per stage that has a
blob. -/
def addConflictFile (path : String) (base ours theirs : Option String) : MW Unit := do
  let idx ← index
  let stage (st : Stage) : Option String → List Entry
    | some h => [⟨path, h, st⟩]
    | none => []
  setIndex (dropPath idx path ++ stage .ancestorMode base ++ stage .ourMode ours ++
    stage .theirMode theirs)

/-- Modelled from the spec: The tree of an index as `mindex.NewRootNode` reads it: the first entry
of each path. -/
def indexTree : List Entry → Tree
  | [] => []
  | e :: idx => (e.name, e.hash) :: (indexTree idx).filter (·.1 ≠ e.name)

/-! ## Tree differences -/

/-- `merkletrie.Action`. -/
inductive Action
  | insert
  | delete
  | modify
deriving Repr, DecidableEq

/-- A `merkletrie.Change`: its action and its path. -/
structure Change where
  action : Action
  path : String
deriving Repr, DecidableEq

/-- Modelled from the spec: `merkletrie.DiffTree` with `diffTreeIsEquals`: the deleted and modified
files of `src`, in its order, then the files only `dst` has. -/
def diffTree (src dst : Tree) : List Change :=
  src.filterMap (fun p => match dst.lookup p.1 with
    | none => some ⟨.delete, p.1⟩
    | some h => if h = p.2 then none else some ⟨.modify, p.1⟩) ++
  dst.filterMap fun p => if (src.lookup p.1).isSome then none else some ⟨.insert, p.1⟩

/-! ## References -/

/-- Modelled from the spec: `Storer.Reference(HEAD)`, not resolved. -/
def headReference : MR HeadRef := fun _ r => .ok r.refs.head r []

/-- The commit `HEAD` resolves to, if any. -/
def Refs.headHash (refs : Refs) : Option Nat :=
  match refs.head with
  | .symbolic b => refs.branches.lookup b
  | .hash h => some h

/-- Modelled from the spec: `Repository.Head`. -/
def head : MR Nat := fun _ r =>
  match r.refs.headHash with
  | some h => .ok h r []
  | none => .error .referenceNotFound r []

/-- Modelled from the spec: `Storer.Reference` of a branch. -/
def reference (branch : String) : MR Nat := fun _ r =>
  match r.refs.branches.lookup branch with
  | some h => .ok h r []
  | none => .error .referenceNotFound r []

/-- Modelled from the spec: `Repository.MergeHead`: `nil` when there is none. -/
def mergeHead : MR (Option Nat) := fun _ r => .ok r.refs.mergeHead r []

/-- Modelled from the spec: `Repository.OrigHead`. -/
def origHead : MR Nat := fun _ r =>
  match r.refs.origHead with
  | some h => .ok h r []
  | none => .error .referenceNotFound r []

/-- What `HEAD` resolves to depends only on `HEAD` and the branches. -/
theorem Refs.headHash_congr {refs refs' : Refs} (h1 : refs'.head = refs.head)
    (h2 : refs'.branches = refs.branches) : refs'.headHash = refs.headHash := by
  unfold Refs.headHash; rw [h1, h2]

/-- The references after `SetReference(name, h)`. -/
def Refs.set (refs : Refs) : RefName → Nat → Refs
  | .head, h => { refs with head := .hash h }
  | .branch b, h => { refs with branches := assocSet refs.branches b h }
  | .mergeHead, h => { refs with mergeHead := some h }
  | .origHead, h => { refs with origHead := some h }

/-- The references after `RemoveReference(name)`. -/
def Refs.remove (refs : Refs) : RefName → Refs
  | .head => refs
  | .branch b => { refs with branches := assocErase refs.branches b }
  | .mergeHead => { refs with mergeHead := none }
  | .origHead => { refs with origHead := none }

/-- The reference a new commit of `HEAD` is written to: its branch, or `HEAD` itself when
detached. -/
def HeadRef.target : HeadRef → RefName
  | .symbolic b => .branch b
  | .hash _ => .head

@[simp] theorem Refs.set_target_mergeHead (refs : Refs) (hr : HeadRef) (c : Nat) :
    (refs.set hr.target c).mergeHead = refs.mergeHead := by
  cases hr <;> rfl

@[simp] theorem Refs.set_target_origHead (refs : Refs) (hr : HeadRef) (c : Nat) :
    (refs.set hr.target c).origHead = refs.origHead := by
  cases hr <;> rfl

/-- Writing a commit to `HEAD`'s target makes `HEAD` resolve to it. -/
theorem Refs.headHash_set_target (refs : Refs) (c : Nat) :
    (refs.set refs.head.target c).headHash = some c := by
  unfold Refs.headHash
  cases h : refs.head <;> simp [Refs.set, HeadRef.target, h]

/-- Modelled from the spec: `Storer.SetReference`. -/
def setReference (name : RefName) (h : Nat) : MR Unit :=
  Op.update (fun r => { r with refs := r.refs.set name h }) [.setReference name]

/-- Modelled from the spec: `Storer.RemoveReference`. -/
def removeReference (name : RefName) : MR Unit :=
  Op.update (fun r => { r with refs := r.refs.remove name }) [.removeReference name]

/-- Modelled from the spec: `Storer.SetMergeMsg`. -/
def setMergeMsg (msg : String) : MR Unit :=
  Op.update (fun r => { r with refs := { r.refs with mergeMsg := some msg } }) [.setMergeMsg]

/-- Modelled from the spec: `Storer.RemoveMergeMsg`. -/
def removeMergeMsg : MR Unit :=
  Op.update (fun r => { r with refs := { r.refs with mergeMsg := none } }) [.removeMergeMsg]

/-! ## `Reset` and `isFastForward` -/

/-- Modelled from the spec: `Worktree.Reset` in `HardReset` mode: `HEAD` (or its branch) to the
commit, and the index and the files to its tree. -/
def reset (commit : Nat) : MR Unit := do
  let t ← liftWork (do commitTree (← getCommitObject commit))
  setReference (← headReference).target commit
  liftWork (resetIndex t)
  Op.update (fun r => { r with work := { r.work with files := t } }) (t.map (.writeFile ·.1))

/-- The hashes reached from `front` within `fuel` generations, `target` among them. -/
def reachesWithin (store : List Commit) : Nat → List Nat → Nat → Bool
  | 0, _, _ => false
  | fuel + 1, front, target =>
    front.contains target ||
      reachesWithin store fuel
        (front.flatMap fun h => ((getCommit store h).map (·.parentHashes)).getD [])
        target

/-- Modelled from the spec: `isFastForward(s, old, new)`: `old` is `new` or one of its ancestors. -/
def isFastForward (old new : Nat) : MR Bool := fun _ r =>
  .ok (reachesWithin r.objects.commits (r.objects.commits.length + 1) [new] old) r []

end MergeCore
