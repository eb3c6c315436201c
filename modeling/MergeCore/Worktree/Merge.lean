import MergeCore.Worktree.State

/-!
# `Merge`, `AbortMerge` and `Commit`

A shallow embedding of `worktree_merge.go` and of `Commit` with its helpers from
`worktree_commit.go`, over the repository of `MergeCore.Worktree.State`.

Go's maps are iterated in an order the language leaves open; the model iterates a `Status`
in the order its paths were first set, which is one of the orders a run can take.
`computeParent`, `createVirtualParent` and `mergeCommits` call one another: `mergeCommits`
and `createVirtualParent` take the `computeParent` they call as an argument, and
`computeParent` passes itself at one less `fuel`, so the three are one structural recursion.
The same `fuel` bounds the merge-base walk. `diff3.Merge` writes the chunks of
`writeChunks`, run with the fuel `2 * |base| + 2` that suffices for it, as one write.

Two histories show what the virtual base costs: three bases that agree end in a conflict
(`computeParent_threeBases`), and the inner merge of a criss-cross leaves its blobs in the cache
(`merge_crossRepo_innerTrace`).
-/

namespace MergeCore

/-! ## Types -/

/-- `mergingCommit`. `isVirtual` is set exactly when `idx` is (`createVirtualParent` sets
both, nothing else sets either), so it is read from `idx`. -/
structure MergingCommit where
  commit : Commit
  idx : Option (List Entry)
deriving Repr, DecidableEq

/-- `isVirtual`. -/
def MergingCommit.isVirtual (c : MergingCommit) : Bool := c.idx.isSome

/-- `mergingChanges`. -/
structure MergingChanges where
  base : MergingCommit
  commit : MergingCommit
  changes : List Change
deriving Repr, DecidableEq

/-- `StatusCode`, as far as the merge sets it. -/
inductive StatusCode
  | added
  | deleted
  | modified
deriving Repr, DecidableEq

/-- `mergeDiffType`. -/
inductive MergeDiffType
  | noConflict
  | bothModifiedWithConflicts
  | bothModifiedWithoutConflicts
  | bothAdded
  | bothDeleted
  | modifiedDeleted
  | deletedModified
deriving Repr, DecidableEq

/-- `mergingResult` without `modifiedFile`, which nothing sets; a status left at Go's zero
value is `none`. -/
structure MergingResult where
  oursStatus : Option StatusCode
  theirsStatus : Option StatusCode
  diffType : MergeDiffType
deriving Repr, DecidableEq

/-- `mergingFileInfo`. -/
structure MergingFileInfo where
  path : String
  unResolvedConflicts : Nat
deriving Repr, DecidableEq

/-! ## The blob cache -/

/-- The cache's list of a path with the blob of stage `st` set: the first entry of that
stage is updated, or an entry is appended. -/
def setStageBlob (path b : String) (st : Stage) : List BlobInfo → List BlobInfo
  | [] => [⟨path, st, b⟩]
  | i :: is => if i.stage = st then { i with blob := b } :: is else i :: setStageBlob path b st is

/-- `addOrUpdateBlobToCache`. -/
def addOrUpdateBlobToCache (path b : String) (st : Stage) : MW Unit :=
  Op.update (fun w => { w with blobs := some (let blobs := w.blobs.getD []
    assocSet blobs path (setStageBlob path b st ((blobs.lookup path).getD []))) })
    [.cacheBlob path st]

/-- `ReadFileByStage`. -/
def readFileByStage (path : String) (st : Stage) : MW String := fun objs w =>
  if st = .merged then
    match fsOpen path objs w with
    | .error .notExist w' es => .error .fileNotFound w' es
    | o => o
  else
    match (w.blobs.bind (·.lookup path)).bind (·.find? (·.stage = st)) with
    | some i => .ok i.blob w []
    | none => .error .fileNotFound w []

/-- `getBlob`: a virtual commit's blob is the first `Merged` or `OurMode` entry of its index,
when the index has the path. -/
def getBlob (c : MergingCommit) (path : String) : MW String :=
  match c.idx with
  | some idx =>
    match idx.filter (·.name = path) with
    | [] => commitFile c.commit path
    | entries =>
      blobObject ((entries.find? fun e => e.stage = .merged ∨ e.stage = .ourMode).map (·.hash))
  | none => commitFile c.commit path

/-! ## Writing merged files -/

/-- The lines of a blob, `ErrTooLong` when the scanner stops on a long line. -/
def readLines (b : String) : MW (List String) :=
  match scanLines b with
  | (ls, true) => pure ls
  | (_, false) => throw .errTooLong

/-- `diff3.Merge`: the merged file in a new temporary file. When a write fails, the file is
closed and removed; when `Close` fails, it stays. The chunks' writes are one write of what they
write: a path that refuses a write refuses all of them, so the first one fails exactly when this
one does, and there is none when the output is empty. -/
def Diff3.merge (baseB oursB theirsB : String) : MW MergingFileInfo := do
  let baseL ← readLines baseB
  let oursL ← readLines oursB
  let theirsL ← readLines theirsB
  let some d := setup baseL oursL theirsL | throw .panic
  let name ← tempName
  fsCreate name
  match writeChunks d (2 * d.base.length + 2) with
  | some (conflicts, out) =>
    tryCatch (if out = [] then pure () else fsWrite name (String.join out)) fun e => do
      Op.ignore (fsClose name)
      Op.ignore (fsRemove name)
      throw e
    fsClose name
    pure ⟨name, conflicts⟩
  | none => throw .panic

/-- `mergeFiles`: merge into the path, then stage it, or its three blobs on a conflict. -/
def mergeFiles (path : String) (baseB oursB theirsB : String) : MW MergingFileInfo := do
  let res ← Diff3.merge baseB oursB theirsB
  fsRename res.path path
  if res.unResolvedConflicts ≠ 0 then addConflictFile path (some baseB) (some oursB) (some theirsB)
  else add path
  pure { res with path := path }

/-- `writeBothAddedConflictFile`. The writes of the scanned lines are one write, whose error
is not read; the scanner's error is read after them. -/
def writeBothAddedConflictFile (path ours theirs : String) : MW Unit := do
  let name ← tempName
  fsCreate name
  fsWrite name delimStart
  let (oursL, oursOk) := scanLines ours
  Op.ignore (fsWrite name (String.join (writeBlockToFile oursL)))
  Op.throwIf (!oursOk) .errTooLong
  fsWrite name delimMiddle
  let (theirsL, theirsOk) := scanLines theirs
  Op.ignore (fsWrite name (String.join (writeBlockToFile theirsL)))
  Op.throwIf (!theirsOk) .errTooLong
  fsWrite name delimEnd
  fsRename name path

/-- `copyFileToOurs`. -/
def copyFileToOurs (path : String) (theirsC : Commit) : MW Unit := do
  let f ← commitFile theirsC path
  fsCreate path
  fsWrite path f
  tryCatch (add path) fun e => do
    Op.ignore (fsRemove path)
    throw e

/-! ## Comparing the two sides -/

/-- `getMergingDiff`: from the base's tree (its index when virtual) to the commit's. -/
def getMergingDiff (base c : MergingCommit) : MW MergingChanges := do
  let src ← match base.idx with
    | some idx => pure (indexTree idx)
    | none => commitTree base.commit
  let dst ← commitTree c.commit
  pure ⟨base, c, diffTree src dst⟩

/-- The loop that fills a `Status` from changes. -/
def statusOf (changes : List Change) : List (String × StatusCode) :=
  changes.foldl (fun st ch => assocSet st ch.path (match ch.action with
    | .delete => .deleted
    | .insert => .added
    | .modify => .modified)) []

/-- The body of the loop over `statuses1`: a path that ours changed. -/
def compareOurs (ours theirs : MergingChanges) (statuses2 : List (String × StatusCode))
    (path : String) (s1 : StatusCode) : MW MergingResult :=
  match statuses2.lookup path with
  | none => pure ⟨some s1, none, .noConflict⟩
  | some s2 =>
    let c (t : MergeDiffType) : MergingResult := ⟨some s1, some s2, t⟩
    if s1 = s2 then
      match s1 with
      | .modified => do
        let baseB ← getBlob ours.base path
        addOrUpdateBlobToCache path baseB .ancestorMode
        let oursB ← getBlob ours.commit path
        addOrUpdateBlobToCache path oursB .ourMode
        let theirsB ← getBlob theirs.commit path
        addOrUpdateBlobToCache path theirsB .theirMode
        let mergeRes ← mergeFiles path baseB oursB theirsB
        pure (c (if mergeRes.unResolvedConflicts = 0 then .bothModifiedWithoutConflicts
          else .bothModifiedWithConflicts))
      | .added => do
        let oursB ← getBlob ours.commit path
        addOrUpdateBlobToCache path oursB .ourMode
        let theirsB ← getBlob theirs.commit path
        addOrUpdateBlobToCache path theirsB .theirMode
        writeBothAddedConflictFile path oursB theirsB
        addConflictFile path none (some oursB) (some theirsB)
        pure (c .bothAdded)
      | .deleted => pure (c .noConflict)
    else
      match s1, s2 with
      | .modified, .deleted => do
        let baseB ← getBlob ours.base path
        addOrUpdateBlobToCache path baseB .ancestorMode
        let oursB ← getBlob ours.commit path
        addOrUpdateBlobToCache path oursB .ourMode
        addConflictFile path (some baseB) (some oursB) none
        pure (c .modifiedDeleted)
      | .deleted, .modified => do
        let baseB ← getBlob ours.base path
        addOrUpdateBlobToCache path baseB .ancestorMode
        let theirsB ← getBlob theirs.commit path
        addOrUpdateBlobToCache path theirsB .theirMode
        addConflictFile path (some baseB) none (some theirsB)
        pure (c .deletedModified)
      | _, _ => pure (c .noConflict)

/-- The body of the loop over `statuses2`: a path that only theirs changed. -/
def compareTheirs (theirs : MergingChanges) (path : String) (s2 : StatusCode) :
    MW MergingResult := do
  match s2 with
  | .modified | .added => copyFileToOurs path theirs.commit.commit
  | .deleted => remove path
  pure ⟨none, some s2, .noConflict⟩

/-- A loop over a `Status` that fills the result map. -/
def forStatuses (f : String → StatusCode → MW MergingResult) :
    List (String × StatusCode) → MW (List (String × MergingResult))
  | [] => pure []
  | (path, s) :: st => do
    let c ← f path s
    let res ← forStatuses f st
    pure ((path, c) :: res)

/-- `compareCommitsChanges`. -/
def compareCommitsChanges (ours theirs : MergingChanges) :
    MW (List (String × MergingResult)) := do
  let statuses1 := statusOf ours.changes
  let _ ← index
  let statuses2 := statusOf theirs.changes
  let res1 ← forStatuses (compareOurs ours theirs statuses2) statuses1
  let res2 ← forStatuses (compareTheirs theirs)
    (statuses2.filter fun p => (statuses1.lookup p.1).isNone)
  pure (res1 ++ res2)

/-! ## The recursive merge -/

/-- `mergeCommits`: the base (computed when `nil`), and the result of merging `theirs` into
the index of `ours`. -/
def mergeCommits (computeParent : Commit → Commit → MW MergingCommit)
    (base : Option MergingCommit) (ours theirs : MergingCommit) :
    MW (MergingCommit × List (String × MergingResult)) := do
  let base ← match base with
    | some b => pure b
    | none => computeParent ours.commit theirs.commit
  let t ← commitTree ours.commit
  resetIndex t
  let res1 ← getMergingDiff base ours
  let res2 ← getMergingDiff base theirs
  let changes ← compareCommitsChanges res1 res2
  pure (base, changes)

/-- `createVirtualParent`: fold the merge bases with `mergeCommits`, keeping the base each
step returns, and mark the last one virtual with the index as it is. -/
def createVirtualParent (computeParent : Commit → Commit → MW MergingCommit)
    (parents : List Commit) : MW MergingCommit :=
  match parents with
  | p0 :: ps@(_ :: _) => do
    let base ← ps.foldlM (fun base p => do
      let (newBase, _) ← mergeCommits computeParent none base ⟨p, none⟩
      pure newBase) (⟨p0, none⟩ : MergingCommit)
    let idx ← index
    pure { base with idx := some idx }
  | _ => throw (.fewParents parents.length)

/-- `computeParent`: the one merge base, or the virtual one of several. -/
def computeParent : Nat → Commit → Commit → MW MergingCommit
  | 0, _, _ => throw .outOfFuel
  | fuel + 1, oldC, newC => do
    let parents ← commonParents fuel oldC newC
    match parents with
    | [] => throw .noCommonParent
    | [p] => pure ⟨p, none⟩
    | parents => createVirtualParent (computeParent fuel) parents

/-! ### Three merge bases that agree

Every tree has the one path `f`: `w` at the root `1`, `u` at its child `2`, and `v` at the three
bases (`3` and `4` on `2`, `5` on the root) and at the two merges of them, `6` and `7`. -/

def rootC : Commit := ⟨1, 10, []⟩
def midC : Commit := ⟨2, 20, [1]⟩
def baseC0 : Commit := ⟨3, 50, [2]⟩
def baseC1 : Commit := ⟨4, 40, [2]⟩
def baseC2 : Commit := ⟨5, 30, [1]⟩
def oursC : Commit := ⟨6, 100, [3, 4, 5]⟩
def theirsC : Commit := ⟨7, 99, [3, 4, 5]⟩

def threeBaseObjects : Objects :=
  ⟨[rootC, midC, baseC0, baseC1, baseC2, oursC, theirsC],
    [(1, [("f", "w")]), (2, [("f", "u")]), (3, [("f", "v")]), (4, [("f", "v")]),
      (5, [("f", "v")]), (6, [("f", "v")]), (7, [("f", "v")])]⟩

/-- A clean worktree at `oursC`. -/
def threeBaseWork : Work := ⟨[⟨"f", "v", .merged⟩], [("f", "v")], none, 0, []⟩

/-- Each round of `createVirtualParent` goes on from the common ancestor `mergeCommits`
returns, not from the merge it has just written to the index. So on a history where no path is
added or deleted, and the three merge bases agree on `f`, the last round merges the root with a
base, and the virtual base has `f` at the ancestor, our and their stages: a conflict. -/
theorem computeParent_threeBases :
    (∀ p ∈ threeBaseObjects.trees, p.2.map Prod.fst = ["f"]) ∧
      getCommonParents threeBaseObjects.commits oursC theirsC 19 = some [baseC0, baseC1, baseC2] ∧
      (∀ b ∈ [baseC0, baseC1, baseC2], threeBaseObjects.trees.lookup b.hash = some [("f", "v")]) ∧
      (computeParent 20 oursC theirsC threeBaseObjects threeBaseWork).result =
        .ok ⟨rootC, some [⟨"f", "w", .ancestorMode⟩, ⟨"f", "u", .ourMode⟩,
          ⟨"f", "v", .theirMode⟩]⟩ := by
  set_option smartUnfolding false in decide

/-! ### A criss-cross

`1` is the merge base of the two bases `2` (which changes the first line of `f`) and `3` (which
changes the last); `main` (`4`) and `topic` (`5`) merge them the two ways round and agree on
`f`. The worktree is clean at `main`. -/

def crossRoot : Commit := ⟨1, 10, []⟩
def crossLeft : Commit := ⟨2, 20, [1]⟩
def crossRight : Commit := ⟨3, 30, [1]⟩
def crossMain : Commit := ⟨4, 40, [2, 3]⟩
def crossTopic : Commit := ⟨5, 50, [3, 2]⟩

def crossRepo : Repo :=
  ⟨⟨[crossRoot, crossLeft, crossRight, crossMain, crossTopic],
      [(1, [("f", "a\nm\nb\n")]), (2, [("f", "x\nm\nb\n")]), (3, [("f", "a\nm\ny\n")]),
        (4, [("f", "x\nm\ny\n")]), (5, [("f", "x\nm\ny\n")])]⟩,
    ⟨.symbolic "main", [("main", 4), ("topic", 5)], none, none, none⟩,
    ⟨[⟨"f", "x\nm\ny\n", .merged⟩], [("f", "x\nm\ny\n")], none, 0, []⟩⟩

/-- The virtual base `computeParent` builds for `crossRepo`. -/
def crossBase : MergingCommit := ⟨crossRoot, some [⟨"f", "x\nm\ny\n", .merged⟩]⟩

/-! ## `Merge` -/

/-- Modelled from the spec: `diffCommitWithStaging(commit, false)`: from the commit's tree to the
index. -/
def diffCommitWithStaging (commit : Nat) : MR (List Change) := liftWork do
  let t ← commitTree (← getCommitObject commit)
  pure (diffTree t (indexTree (← index)))

/-- Modelled from the spec: `diffStagingWithWorktree(false)`: from the index to the files. -/
def diffStagingWithWorktree : MR (List Change) := fun _ r =>
  .ok (diffTree (indexTree r.work.index) r.work.files) r []

/-- `hasUncommittedFiles`: staged changes, or unstaged ones other than deletions. -/
def hasUncommittedFiles (commit : Nat) : MR Bool := do
  let stagedChanges ← diffCommitWithStaging commit
  if stagedChanges ≠ [] then pure true
  else do
    let unstagedChanges ← diffStagingWithWorktree
    pure (unstagedChanges.filter (·.action ≠ .delete) ≠ [])

/-- The lines `logMergeConflicts` writes for one result: to the message and to `MERGE_MSG`. -/
def conflictLines (theirs path : String) (r : MergingResult) : Option (String × String) :=
  let fb := "#\t" ++ path ++ "\n"
  match r.diffType with
  | .bothAdded => some ("Auto-merging " ++ path ++ "\n" ++
      "CONFLICT (add/add): Merge conflict in " ++ path ++ "\n", fb)
  | .bothModifiedWithConflicts => some ("Auto-merging " ++ path ++ "\n" ++
      "CONFLICT (content): Merge conflict in " ++ path ++ "\n", fb)
  | .modifiedDeleted => some ("(modify/delete): " ++ path ++ " modified in HEAD and deleted in " ++
      theirs ++ ".\n", fb)
  | .deletedModified => some ("(delete/modify): " ++ path ++ " deleted in HEAD and modified in " ++
      theirs ++ ".\n", fb)
  | _ => none

/-- `logMergeConflicts`: whether some result is a conflict, and the message; `MERGE_MSG` is
written either way. -/
def logMergeConflicts (mergeResult : List (String × MergingResult)) (theirs : String) :
    MR (Bool × String) := do
  let lines := mergeResult.filterMap fun p => conflictLines theirs p.1 p.2
  let header := "Merge branch \x27" ++ theirs ++ "\x27\n\n"
  if lines ≠ [] then
    setMergeMsg (header ++ "# Conflicts:\n" ++ String.join (lines.map Prod.snd))
    pure (true, String.join (lines.map Prod.fst) ++
      "Automatic merge failed; fix conflicts and then commit the result.\n")
  else
    setMergeMsg (header ++
      "# Please enter a commit message to explain why this merge is necessary,\n" ++
      "# especially if it merges an updated upstream into a topic branch.\n#\n" ++
      "# Lines starting with \x27#\x27 will be ignored, and an empty message aborts\n" ++
      "# the commit.")
    pure (false, "Create merge commit to continue merge process")

/-- `nonFastForwardMerge`. The error of `hasUncommittedFiles` is not read. -/
def nonFastForwardMerge (fuel : Nat) (ours theirs : Nat) (theirsBranch : String) : MR String := do
  let mh ← mergeHead
  Op.throwIf mh.isSome .mergeInProgress
  let uncommitted ← tryCatch (hasUncommittedFiles ours) fun _ => pure false
  Op.throwIf uncommitted .hasUncommittedFiles
  let oursC ← liftWork (getCommitObject ours)
  let theirsC ← liftWork (getCommitObject theirs)
  let p ← liftWork (computeParent fuel oursC theirsC)
  setReference .mergeHead theirs
  setReference .origHead ours
  let (_, mergeRes) ← liftWork (mergeCommits (computeParent fuel) (some p) ⟨oursC, none⟩
    ⟨theirsC, none⟩)
  let (hasMergeConflicts, mergeMsg) ← logMergeConflicts mergeRes theirsBranch
  if hasMergeConflicts then throw (.mergeWithConflicts mergeMsg)
  else throw (.mergeCommitNeeded mergeMsg)

/-- `updateHEAD`: the branch `HEAD` names, or `HEAD` itself when detached. -/
def updateHEAD (commit : Nat) : MR Unit := do
  setReference (← headReference).target commit

/-- `Worktree.Merge`: fast-forward `HEAD` and the files, or merge. -/
def merge (fuel : Nat) (theirsBranch : String) : MR String := do
  let oursHash ← head
  let theirsHash ← reference theirsBranch
  let ff ← isFastForward oursHash theirsHash
  if ff then
    updateHEAD theirsHash
    reset theirsHash
  else
    let _ ← nonFastForwardMerge fuel oursHash theirsHash theirsBranch
  pure ""

/-- The inner merges of `createVirtualParent` stay: on the criss-cross, the outer merge alone,
run from the state before the merge with the same virtual base, only resets the index to ours,
which leaves it as it was. The whole merge writes `f` and leaves the inner merge's three blobs
of `f` in the cache, where `ReadFileByStage` returns the root's as the ancestor. -/
theorem merge_crossRepo_innerTrace :
    (computeParent 20 crossMain crossTopic crossRepo.objects crossRepo.work).result =
        .ok crossBase ∧
      (mergeCommits (computeParent 20) (some crossBase) ⟨crossMain, none⟩ ⟨crossTopic, none⟩
        crossRepo.objects crossRepo.work).state = crossRepo.work ∧
      (mergeCommits (computeParent 20) (some crossBase) ⟨crossMain, none⟩ ⟨crossTopic, none⟩
        crossRepo.objects crossRepo.work).events = [.setIndex] ∧
      .writeFile "f" ∈ (merge 20 "topic" () crossRepo).events ∧
      (merge 20 "topic" () crossRepo).state.work.blobs =
        some [("f", [⟨"f", .ancestorMode, "a\nm\nb\n"⟩, ⟨"f", .ourMode, "a\nm\ny\n"⟩,
          ⟨"f", .theirMode, "x\nm\nb\n"⟩])] ∧
      (readFileByStage "f" .ancestorMode (merge 20 "topic" () crossRepo).state.objects
        (merge 20 "topic" () crossRepo).state.work).result = .ok "a\nm\nb\n" := by
  set_option smartUnfolding false in decide

/-! ## `AbortMerge` and `Commit` -/

/-- `removeMergeHead`. -/
def removeMergeHead : MR Unit := do
  if (← mergeHead).isSome then removeReference .mergeHead

/-- An error `ErrReferenceNotFound` read as a missing reference. -/
def orNotFound (x : MR Nat) : MR (Option Nat) :=
  tryCatch (some <$> x) fun e => if e = .referenceNotFound then pure none else throw e

/-- `removeOrigHead`. -/
def removeOrigHead : MR Unit := do
  if (← orNotFound origHead).isSome then removeReference .origHead

/-- `w.blobs = nil`. -/
def clearBlobs : MW Unit := Op.update (fun w => { w with blobs := none }) []

/-- `AbortMerge`. -/
def abortMerge : MR Unit := do
  removeMergeHead
  Op.ignore removeMergeMsg
  let orig ← origHead
  reset orig
  Op.ignore removeOrigHead
  liftWork clearBlobs

/-- `getUnmergedFiles`: the stages of each path with an entry not at `Merged`. -/
def getUnmergedFiles : MW (List (String × List Stage)) := do
  let idx ← index
  pure (idx.foldl (fun m e => if e.stage = .merged then m
    else assocSet m e.name (((m.lookup e.name).getD []) ++ [e.stage])) [])

/-- Modelled from the spec: `CommitOptions.Validate` on the parents: `HEAD` when none are given. -/
def validateParents (parents : List Nat) : MR (List Nat) :=
  if parents = [] then do return (← orNotFound head).toList
  else pure parents

/-- `BuildTree`, flat: each entry's path and blob. The trees `buildTreeHelper` stores read back as
these files (`buildTree_flat`). -/
def buildTree (idx : List Entry) : Tree := idx.map fun e => (e.name, e.hash)

/-- `buildCommitObject`: a new commit, under a hash the store does not hold. -/
def buildCommitObject (parents : List Nat) (tree : Tree) (authorWhen : Int) : MR Nat :=
  fun _ r =>
    let h := r.objects.commits.foldl (fun m c => max m c.hash) 0 + 1
    .ok h { r with objects := ⟨r.objects.commits ++ [⟨h, authorWhen, parents⟩],
      (h, tree) :: r.objects.trees⟩ } []

/-- The `if mh != nil` block of `Commit`: with `MERGE_HEAD`, the parents are `HEAD` (when it
resolves) and `MERGE_HEAD`. -/
def commitParents (parents : List Nat) : MR (List Nat) := do
  match (← mergeHead) with
  | some m =>
    let parents := match (← orNotFound head) with
      | some h => [h]
      | none => parents
    pure (parents ++ [m])
  | none => pure parents

/-- `Worktree.Commit`. -/
def commit (parents : List Nat) (authorWhen : Int) : MR Nat := do
  let parents ← commitParents parents
  let parents ← validateParents parents
  let unmerged ← liftWork getUnmergedFiles
  Op.throwIf (unmerged ≠ []) .hasUnmergedFiles
  let tree := buildTree (← liftWork index)
  let c ← buildCommitObject parents tree authorWhen
  updateHEAD c
  removeMergeHead
  Op.ignore removeMergeMsg
  Op.ignore removeOrigHead
  liftWork clearBlobs
  pure c

end MergeCore
