import MergeCore.Worktree.Markers
import Mathlib.Data.List.Nodup

/-!
# The index's stages after a merge

What the index, `ConflictEntries` and `MERGE_MSG` say once `Merge` has returned its outcome.

Every write the merge makes to the index is at one path: `Add`, `Remove` and
`addConflictFile` replace the entries of their path and keep those of every other path, and
the other collaborators leave the index alone. So each step of the two loops of
`compareCommitsChanges` stages its path as its result says (`StagedAs`): two or more entries at
conflict stages for the four results `logMergeConflicts` reports, none for the others
(`post_compareOurs`, `post_compareTheirs`). The loops run over distinct paths, so the index
`mergeCommits` leaves agrees with the whole result map (`StagedBy`, `post_mergeCommits`).

No step of a merge fails with `ErrMergeWithConflicts` or `ErrMergeCommitNeeded` (`Op.Throws`),
so `Merge` returns one of them only from the end of `nonFastForwardMerge`
(`nonFastForwardMerge_outcome`). Hence, after `ErrMergeWithConflicts`, the paths of
`ConflictEntries` are exactly those `MERGE_MSG` lists under `# Conflicts:`, each with two or
more entries (`merge_conflictEntries`), and `Commit` refuses to run (`commit_after_conflicts`);
after `ErrMergeCommitNeeded` every entry is at `Merged` (`merge_commitNeeded_staged`) and
`Commit` records the merge (`commit_after_clean_merge`). `AbortMerge` after any merge that set
`MERGE_HEAD` gives back the references, the objects, the index, the files and the blob cache
the merge started from (`abortMerge_restores`).
-/

namespace MergeCore

/-! ## `ConflictEntries` and `MergeMsgFileContent` -/

/-- The loop of `ConflictEntries`: each entry not at `Merged` appended to its path's list. -/
def conflictMap (idx : List Entry) : List (String × List Entry) :=
  idx.foldl (fun m e => if e.stage = .merged then m
    else assocSet m e.name (((m.lookup e.name).getD []) ++ [e])) []

/-- `ConflictEntries`: the entries of the index with a stage other than `Merged`, by path. -/
def conflictEntries : MW (List (String × List Entry)) := do
  let idx ← index
  pure (conflictMap idx)

/-- `MergeMsgFileContent`: `MERGE_MSG`, and `""` when the storer has none. -/
def mergeMsgFileContent : MR String := fun _ r => .ok (r.refs.mergeMsg.getD "") r []

/-- A run is its result, its state and its writes. -/
theorem Run.eq_error_of_result {σ α : Type} {o : Run σ α} {e : Err} (h : o.result = .error e) :
    o = .error e o.state o.events := by
  cases o <;> cases h; rfl

/-! ## A program logic for `Op` -/

namespace Op

variable {ρ σ α β γ : Type}

/-- Partial correctness: a run of `x` from a state with `P` that returns `a` ends in a state
with `Q a`. -/
def Post (P : σ → Prop) (x : Op ρ σ α) (Q : α → σ → Prop) : Prop :=
  ∀ r s, P s → ∀ a, (x r s).result = .ok a → Q a (x r s).state

/-- `x` fails only with errors `E` allows. -/
def Throws (E : Err → Prop) (x : Op ρ σ α) : Prop :=
  ∀ r s e, (x r s).result = .error e → E e

variable {P P' : σ → Prop} {Q Q' : α → σ → Prop} {x : Op ρ σ α} {E : Err → Prop}

theorem Post.mono (h : Post P x Q) (hp : ∀ s, P' s → P s) (hq : ∀ a s, Q a s → Q' a s) :
    Post P' x Q' := fun r s hs a ha => hq a _ (h r s (hp s hs) a ha)

theorem post_pure {a : α} (h : ∀ s, P s → Q a s) : Post P (Pure.pure a : Op ρ σ α) Q := by
  intro _ s hs b hb
  simp only [pure_apply, Run.result_ok, Except.ok.injEq] at hb
  exact hb ▸ h s hs

theorem post_throw {e : Err} : Post P (throw e : Op ρ σ α) Q := fun _ _ _ _ h => by simp at h

theorem Post.bind {R : α → σ → Prop} {Q : β → σ → Prop} {f : α → Op ρ σ β}
    (hx : Post P x R) (hf : ∀ a, Post (R a) (f a) Q) : Post P (x >>= f) Q := by
  intro r s hs b hb
  cases h : x r s with
  | ok a s' es =>
    have hr := hx r s hs a (by rw [h]; rfl)
    rw [h] at hr
    simp only [bind_apply, h, Run.result_after, Run.state_after] at hb ⊢
    exact hf a r s' hr b hb
  | error e s' es => simp [h] at hb

theorem Post.tryCatch {h : Err → Op ρ σ α} (hx : Post P x Q)
    (hh : ∀ e, Post (fun _ => True) (h e) Q) : Post P (MonadExcept.tryCatch x h) Q := by
  intro r s hs a ha
  cases hr : x r s with
  | ok a' s' es => simpa [hr] using hx r s hs a (by simpa [hr] using ha)
  | error e s' es => simpa [hr] using hh e r s' trivial a (by simpa [hr] using ha)

theorem post_update {Q : Unit → σ → Prop} {u : σ → σ} {es : List Event}
    (h : ∀ s, P s → Q () (u s)) :
    Post P (update u es : Op ρ σ Unit) Q := fun _ s hs () _ => h s hs

theorem post_true : Post P x fun _ _ => True := fun _ _ _ _ _ => trivial

/-- A fact about the start that does not depend on the state. -/
theorem Post.intro {C : Prop} (h : C → Post P x Q) : Post (fun s => P s ∧ C) x Q :=
  fun r s hs => h hs.2 r s hs.1

/-- A computation that keeps `g` keeps every property of it. -/
theorem Keeps.post {g : σ → γ} (hx : Keeps g x) (F : γ → Prop) :
    Post (fun s => F (g s)) x fun _ s => F (g s) := fun r s hs _ _ => by
  dsimp only; rw [hx r s]; exact hs

theorem Throws.mono {E' : Err → Prop} (h : Throws E x) (hE : ∀ e, E e → E' e) : Throws E' x :=
  fun r s e he => hE e (h r s e he)

theorem throws_pure (a : α) : Throws E (Pure.pure a : Op ρ σ α) := fun _ _ _ h => by simp at h

theorem throws_throw {e : Err} (h : E e) : Throws E (throw e : Op ρ σ α) := fun _ _ _ he => by
  simp only [throw_apply, Run.result_error, Except.error.injEq] at he
  exact he ▸ h

theorem Throws.bind {f : α → Op ρ σ β} (hx : Throws E x) (hf : ∀ a, Throws E (f a)) :
    Throws E (x >>= f) := by
  intro r s e he
  cases h : x r s with
  | ok a s' es => exact hf a r s' e (by simpa [h] using he)
  | error e' s' es => exact hx r s e (by simpa [h] using he)

/-- The errors of `tryCatch x h` are the handler's, on the errors of `x`. -/
theorem Throws.tryCatch {h : Err → Op ρ σ α} (hx : Throws E x)
    (hh : ∀ e, E e → Throws E (h e)) :
    Throws E (MonadExcept.tryCatch x h) := by
  intro r s e he
  cases hr : x r s with
  | ok a s' es => simp [hr] at he
  | error e' s' es => exact hh e' (hx r s e' (by simp [hr])) r s' e (by simpa [hr] using he)

theorem throws_ignore : Throws E (ignore x) := fun _ _ _ h => by simp at h

theorem Throws.liftWork {y : MW α} (hy : Throws E y) : Throws E (MergeCore.liftWork y) :=
  fun () s e h => hy s.objects s.work e (by simpa using h)

theorem throws_update {u : σ → σ} {es : List Event} : Throws E (update u es : Op ρ σ Unit) :=
  fun _ _ _ h => by simp at h

theorem throws_throwIf {c : Bool} {e : Err} (h : E e) : Throws E (throwIf c e : Op ρ σ Unit) := by
  cases c
  · exact fun _ _ _ h' => by simp at h'
  · exact throws_throw h

theorem Throws.foldlM {l : List γ} {f : α → γ → Op ρ σ α} (hf : ∀ b c, Throws E (f b c)) :
    ∀ b, Throws E (l.foldlM f b) := by
  induction l with
  | nil => exact fun b => throws_pure b
  | cons c l ih => exact fun b => by rw [List.foldlM_cons]; exact (hf b c).bind ih

end Op

open Op

/-! ## No step of a merge fails with its outcome -/

/-- The two errors `Merge` reports its outcome with. -/
def Err.isOutcome : Err → Bool
  | .mergeCommitNeeded _ | .mergeWithConflicts _ => true
  | _ => false

/-- An error that is not an outcome of `Merge`. -/
def Err.Plain (e : Err) : Prop := e.isOutcome = false

section plain
variable {objs : Objects}

theorem plain_commitTree (c : Commit) : Throws Err.Plain (commitTree c) := by
  intro _ _ _ h; unfold commitTree at h; split at h <;> simp at h; exact h ▸ rfl

theorem plain_getCommitObject (h : Nat) : Throws Err.Plain (getCommitObject h) := by
  intro _ _ _ h; unfold getCommitObject at h; split at h <;> simp at h; exact h ▸ rfl

theorem plain_commitFile (c : Commit) (path : String) : Throws Err.Plain (commitFile c path) :=
  (plain_commitTree c).bind fun t => by
    split
    · exact throws_pure _
    · exact throws_throw rfl

theorem plain_blobObject (h : Option String) : Throws Err.Plain (blobObject h) := by
  cases h
  · exact throws_throw rfl
  · exact throws_pure _

theorem plain_getBlob (c : MergingCommit) (path : String) : Throws Err.Plain (getBlob c path) := by
  unfold getBlob
  split
  · split
    · exact plain_commitFile _ _
    · exact plain_blobObject _
  · exact plain_commitFile _ _

theorem plain_index : Throws Err.Plain index := fun _ _ _ h => by simp [index] at h

theorem plain_fsOpen (name : String) : Throws Err.Plain (fsOpen name) := by
  intro _ _ _ h; unfold fsOpen at h; split at h <;> simp at h; exact h ▸ rfl

theorem plain_fsFault (m : FsMethod) (name : String) : Throws Err.Plain (fsFault m name) := by
  intro _ _ _ h; unfold fsFault at h; split at h <;> simp at h; exact h ▸ rfl

theorem plain_fsCreate (name : String) : Throws Err.Plain (fsCreate name) :=
  (plain_fsFault _ _).bind fun _ => throws_update

theorem plain_fsWrite (name s : String) : Throws Err.Plain (fsWrite name s) :=
  (plain_fsFault _ _).bind fun _ => (plain_fsOpen _).bind fun _ => throws_update

theorem plain_fsRename (src dst : String) : Throws Err.Plain (fsRename src dst) :=
  (plain_fsFault _ _).bind fun _ => (plain_fsOpen _).bind fun _ => throws_update

theorem plain_fsRemove (name : String) : Throws Err.Plain (fsRemove name) :=
  (plain_fsFault _ _).bind fun _ => (plain_fsOpen _).bind fun _ => throws_update

theorem plain_tempName : Throws Err.Plain tempName :=
  (show Throws Err.Plain randInt from fun _ _ _ h => by simp [randInt] at h).bind fun _ =>
    throws_pure _

theorem plain_add (path : String) : Throws Err.Plain (add path) :=
  (plain_fsOpen _).bind fun _ => plain_index.bind fun _ => throws_update

theorem plain_remove (path : String) : Throws Err.Plain (remove path) :=
  plain_index.bind fun _ => throws_update.bind fun _ => throws_update

theorem plain_addConflictFile (path : String) (base ours theirs : Option String) :
    Throws Err.Plain (addConflictFile path base ours theirs) :=
  plain_index.bind fun _ => throws_update

theorem plain_readLines (b : String) : Throws Err.Plain (readLines b) := by
  unfold readLines
  split
  · exact throws_pure _
  · exact throws_throw rfl

theorem plain_diff3Merge (baseB oursB theirsB : String) :
    Throws Err.Plain (Diff3.merge baseB oursB theirsB) := by
  unfold Diff3.merge
  refine (plain_readLines _).bind fun _ => (plain_readLines _).bind fun _ =>
    (plain_readLines _).bind fun _ => ?_
  split
  · refine plain_tempName.bind fun name => (plain_fsCreate name).bind fun _ => ?_
    split
    · refine (Throws.tryCatch ?_ fun e he => throws_ignore.bind fun _ => throws_ignore.bind
        fun _ => throws_throw he).bind fun _ => (plain_fsFault _ _).bind fun _ => throws_pure _
      split
      · exact throws_pure _
      · exact plain_fsWrite _ _
    · exact throws_throw rfl
  · exact throws_throw rfl

theorem plain_mergeFiles (path baseB oursB theirsB : String) :
    Throws Err.Plain (mergeFiles path baseB oursB theirsB) := by
  refine (plain_diff3Merge _ _ _).bind fun res => (plain_fsRename _ _).bind fun _ => ?_
  dsimp only
  split
  · exact (plain_addConflictFile _ _ _ _).bind fun _ => throws_pure _
  · exact (plain_add _).bind fun _ => throws_pure _

theorem plain_writeBothAddedConflictFile (path ours theirs : String) :
    Throws Err.Plain (writeBothAddedConflictFile path ours theirs) :=
  plain_tempName.bind fun _ => (plain_fsCreate _).bind fun _ => (plain_fsWrite _ _).bind fun _ =>
    throws_ignore.bind fun _ => (throws_throwIf (by exact rfl)).bind fun _ =>
    (plain_fsWrite _ _).bind fun _ => throws_ignore.bind fun _ =>
    (throws_throwIf (by exact rfl)).bind fun _ =>
    (plain_fsWrite _ _).bind fun _ => plain_fsRename _ _

theorem plain_copyFileToOurs (path : String) (theirsC : Commit) :
    Throws Err.Plain (copyFileToOurs path theirsC) :=
  (plain_commitFile _ _).bind fun _ => (plain_fsCreate _).bind fun _ =>
    (plain_fsWrite _ _).bind fun _ => (plain_add _).tryCatch fun _ he =>
    throws_ignore.bind fun _ => throws_throw he

theorem plain_getMergingDiff (base c : MergingCommit) :
    Throws Err.Plain (getMergingDiff base c) := by
  unfold getMergingDiff
  dsimp only
  split
  · exact (throws_pure _).bind fun _ => (plain_commitTree _).bind fun _ => throws_pure _
  · exact (plain_commitTree _).bind fun _ => (plain_commitTree _).bind fun _ => throws_pure _

/-- A blob read and put in the cache, then `k` of it. -/
theorem plain_cachedBlob {β : Type} (c : MergingCommit) (path : String) (st : Stage)
    {k : String → MW β} (hk : ∀ b, Throws Err.Plain (k b)) :
    Throws Err.Plain (do let b ← getBlob c path; addOrUpdateBlobToCache path b st; k b) :=
  (plain_getBlob c path).bind fun b => throws_update.bind fun _ => hk b

theorem plain_compareOurs (ours theirs : MergingChanges) (statuses2 : List (String × StatusCode))
    (path : String) (s1 : StatusCode) :
    Throws Err.Plain (compareOurs ours theirs statuses2 path s1) := by
  unfold compareOurs
  split
  · exact throws_pure _
  split
  · split
    · exact plain_cachedBlob _ _ _ fun _ => plain_cachedBlob _ _ _ fun _ =>
        plain_cachedBlob _ _ _ fun _ => (plain_mergeFiles _ _ _ _).bind fun _ => throws_pure _
    · exact plain_cachedBlob _ _ _ fun _ => plain_cachedBlob _ _ _ fun _ =>
        (plain_writeBothAddedConflictFile _ _ _).bind fun _ =>
        (plain_addConflictFile _ _ _ _).bind fun _ => throws_pure _
    · exact throws_pure _
  · split
    any_goals exact plain_cachedBlob _ _ _ fun _ => plain_cachedBlob _ _ _ fun _ =>
      (plain_addConflictFile _ _ _ _).bind fun _ => throws_pure _
    exact throws_pure _

theorem plain_compareTheirs (theirs : MergingChanges) (path : String) (s2 : StatusCode) :
    Throws Err.Plain (compareTheirs theirs path s2) := by
  unfold compareTheirs
  dsimp only
  split
  · exact (plain_copyFileToOurs _ _).bind fun _ => throws_pure _
  · exact (plain_copyFileToOurs _ _).bind fun _ => throws_pure _
  · exact (plain_remove _).bind fun _ => throws_pure _

theorem plain_forStatuses {f : String → StatusCode → MW MergingResult}
    (hf : ∀ path s, Throws Err.Plain (f path s)) :
    ∀ st, Throws Err.Plain (forStatuses f st)
  | [] => throws_pure _
  | (path, s) :: st => (hf path s).bind fun _ => (plain_forStatuses hf st).bind fun _ =>
    throws_pure _

theorem plain_compareCommitsChanges (ours theirs : MergingChanges) :
    Throws Err.Plain (compareCommitsChanges ours theirs) :=
  plain_index.bind fun _ => (plain_forStatuses (plain_compareOurs _ _ _) _).bind fun _ =>
    (plain_forStatuses (plain_compareTheirs _) _).bind fun _ => throws_pure _

theorem plain_mergeCommits {cp : Commit → Commit → MW MergingCommit}
    (hcp : ∀ c1 c2, Throws Err.Plain (cp c1 c2)) (base : Option MergingCommit)
    (ours theirs : MergingCommit) : Throws Err.Plain (mergeCommits cp base ours theirs) := by
  unfold mergeCommits
  dsimp only
  split <;> refine Throws.bind ?_ fun _ => (plain_commitTree _).bind fun _ =>
    throws_update.bind fun _ => (plain_getMergingDiff _ _).bind fun _ =>
    (plain_getMergingDiff _ _).bind fun _ => (plain_compareCommitsChanges _ _).bind fun _ =>
    throws_pure _
  · exact throws_pure _
  · exact hcp _ _

theorem plain_computeParent : ∀ fuel c1 c2, Throws Err.Plain (computeParent fuel c1 c2)
  | 0, _, _ => throws_throw rfl
  | fuel + 1, c1, c2 => by
    refine Throws.bind (fun _ _ _ h => ?_) fun parents => ?_
    · unfold commonParents at h; split at h <;> simp at h; subst h; cases ‹WalkErr› <;> rfl
    · split
      · exact throws_throw rfl
      · exact throws_pure _
      · unfold createVirtualParent
        split
        · exact (Throws.foldlM (fun _ _ => (plain_mergeCommits (plain_computeParent fuel) _ _ _).bind
            fun _ => throws_pure _) _).bind fun _ => plain_index.bind fun _ => throws_pure _
        · exact throws_throw rfl

theorem plain_headReference : Throws Err.Plain headReference := fun _ _ _ h => by
  simp [headReference] at h

theorem plain_updateHEAD (c : Nat) : Throws Err.Plain (updateHEAD c) :=
  plain_headReference.bind fun _ => throws_update

theorem plain_reset (c : Nat) : Throws Err.Plain (reset c) :=
  (Throws.liftWork ((plain_getCommitObject c).bind fun _ => plain_commitTree _)).bind fun _ =>
    plain_headReference.bind fun _ => throws_update.bind fun _ =>
    (Throws.liftWork throws_update).bind fun _ => throws_update

end plain

/-! ## The index, one path at a time -/

/-- The entries of `p` at a stage other than `Merged`. -/
def conflictsOf (idx : List Entry) (p : String) : List Entry :=
  idx.filter fun e => e.name = p ∧ e.stage ≠ .merged

/-- The results `logMergeConflicts` reports as conflicts. -/
def MergeDiffType.isConflict : MergeDiffType → Bool
  | .bothModifiedWithConflicts | .bothAdded | .modifiedDeleted | .deletedModified => true
  | .noConflict | .bothModifiedWithoutConflicts | .bothDeleted => false

/-- The index stages `p` as its result says: two or more entries at conflict stages for a
conflict, none for another result. -/
def StagedAs (idx : List Entry) (p : String) (r : MergingResult) : Prop :=
  if r.diffType.isConflict then 2 ≤ (conflictsOf idx p).length else conflictsOf idx p = []

/-- A step at `p` that took the index from `idx` to `idx'`: the entries of every other path
stay, and when `p` had none at a conflict stage it is staged as its result `r` says. -/
def StepOk (p : String) (r : MergingResult) (idx idx' : List Entry) : Prop :=
  dropPath idx' p = dropPath idx p ∧ (conflictsOf idx p = [] → StagedAs idx' p r)

section entries
variable {idx idx' E : List Entry} {p q : String}

@[simp] theorem conflictsOf_nil : conflictsOf [] p = [] := rfl

@[simp] theorem conflictsOf_cons (e : Entry) (l : List Entry) :
    conflictsOf (e :: l) p =
      if e.name = p ∧ e.stage ≠ .merged then e :: conflictsOf l p else conflictsOf l p := by
  by_cases h : e.name = p ∧ e.stage ≠ .merged <;> simp [conflictsOf, List.filter_cons, h]

@[simp] theorem dropPath_dropPath : dropPath (dropPath idx p) p = dropPath idx p := by
  simp [dropPath, List.filter_filter]

@[simp] theorem conflictsOf_append (a b : List Entry) :
    conflictsOf (a ++ b) p = conflictsOf a p ++ conflictsOf b p := List.filter_append _ _

@[simp] theorem conflictsOf_dropPath_self : conflictsOf (dropPath idx p) p = [] := by
  rw [conflictsOf, dropPath, List.filter_filter, List.filter_eq_nil_iff]
  intro e _
  simp only [Bool.and_eq_true, decide_eq_true_eq, ne_eq]
  tauto

theorem conflictsOf_dropPath (h : q ≠ p) : conflictsOf (dropPath idx p) q = conflictsOf idx q := by
  simp only [conflictsOf, dropPath, List.filter_filter]
  congr 1; funext e
  by_cases he : e.name = q <;> simp [he, h]

/-- `ConflictEntries` gives each path the entries of it at conflict stages, in index order,
and no list to a path with none. -/
theorem conflictMap_lookup (idx : List Entry) (p : String) :
    (conflictMap idx).lookup p =
      if conflictsOf idx p = [] then none else some (conflictsOf idx p) := by
  suffices ∀ m : List (String × List Entry), (idx.foldl (fun m e => if e.stage = .merged then m
      else assocSet m e.name (((m.lookup e.name).getD []) ++ [e])) m).lookup p =
      if conflictsOf idx p = [] then m.lookup p
      else some ((m.lookup p).getD [] ++ conflictsOf idx p) by
    simpa using this []
  induction idx with
  | nil => simp
  | cons e idx ih =>
    intro m
    rw [List.foldl_cons, ih]
    by_cases hs : e.stage = .merged
    · simp [hs]
    by_cases hn : e.name = p
    · subst hn; simp [hs, lookup_assocSet]
    · simp [hs, hn, lookup_assocSet, Ne.symm hn]

/-- Two indexes with the same entries off `p` have the same conflicts at every other path. -/
theorem conflictsOf_eq_of_dropPath (h : dropPath idx' p = dropPath idx p) (hq : q ≠ p) :
    conflictsOf idx' q = conflictsOf idx q := by
  rw [← conflictsOf_dropPath hq, h, conflictsOf_dropPath hq]

theorem dropPath_dropPath_append (hE : ∀ e ∈ E, e.name = p) :
    dropPath (dropPath idx p ++ E) p = dropPath idx p := by
  have hnil : (E.filter fun e => e.name ≠ p) = [] :=
    List.filter_eq_nil_iff.2 fun e he => by simp [hE e he]
  simp only [dropPath, List.filter_append, List.filter_filter, Bool.and_self, hnil,
    List.append_nil]

theorem stagedAs_congr {r : MergingResult} (h : conflictsOf idx' p = conflictsOf idx p) :
    StagedAs idx' p r ↔ StagedAs idx p r := by
  unfold StagedAs; rw [h]

end entries

section steps
variable {idx : List Entry} {p : String}

/-- Reading the index and writing `f` of it sets it to `f` of what it was. -/
theorem post_setIndex_index (f : List Entry → List Entry) :
    Post (fun w : Work => w.index = idx) (do let i ← index; setIndex (f i) : MW Unit)
      fun _ w => w.index = f idx := by
  intro _ w hw _ _
  simp [index, setIndex, hw]

theorem keepsIndex_fsFault (m : FsMethod) (name : String) :
    Keeps (fun w : Work => w.index) (fsFault m name) := by
  intro _ w; unfold fsFault; split <;> rfl

theorem keepsIndex_fsOpen (name : String) : Keeps (fun w : Work => w.index) (fsOpen name) := by
  intro _ w; unfold fsOpen; split <;> rfl

theorem keepsIndex_fsCreate (name : String) : Keeps (fun w : Work => w.index) (fsCreate name) :=
  (keepsIndex_fsFault _ _).bind fun _ => .update _ fun _ => rfl

theorem keepsIndex_fsWrite (name s : String) : Keeps (fun w : Work => w.index) (fsWrite name s) :=
  (keepsIndex_fsFault _ _).bind fun _ => (keepsIndex_fsOpen _).bind fun _ => .update _ fun _ => rfl

theorem keepsIndex_fsRename (src dst : String) :
    Keeps (fun w : Work => w.index) (fsRename src dst) :=
  (keepsIndex_fsFault _ _).bind fun _ => (keepsIndex_fsOpen _).bind fun _ => .update _ fun _ => rfl

theorem keepsIndex_fsRemove (name : String) : Keeps (fun w : Work => w.index) (fsRemove name) :=
  (keepsIndex_fsFault _ _).bind fun _ => (keepsIndex_fsOpen _).bind fun _ => .update _ fun _ => rfl

theorem keepsIndex_tempName : Keeps (fun w : Work => w.index) tempName :=
  (show Keeps (fun w : Work => w.index) randInt from fun _ _ => rfl).bind fun _ => .pure _

theorem keepsIndex_commitFile (c : Commit) (path : String) :
    Keeps (fun w : Work => w.index) (commitFile c path) :=
  (reads_commitTree c).keeps.bind fun t => by
    split
    · exact .pure _
    · exact .throw _

theorem keepsIndex_getBlob (c : MergingCommit) (path : String) :
    Keeps (fun w : Work => w.index) (getBlob c path) := by
  unfold getBlob
  split
  · split
    · exact keepsIndex_commitFile _ _
    · cases (List.find? _ _).map _ <;> first | exact .throw _ | exact .pure _
  · exact keepsIndex_commitFile _ _

theorem keepsIndex_readLines (b : String) : Keeps (fun w : Work => w.index) (readLines b) := by
  unfold readLines; split
  · exact .pure _
  · exact .throw _

theorem keepsIndex_diff3Merge (baseB oursB theirsB : String) :
    Keeps (fun w : Work => w.index) (Diff3.merge baseB oursB theirsB) := by
  unfold Diff3.merge
  refine (keepsIndex_readLines _).bind fun _ => (keepsIndex_readLines _).bind fun _ =>
    (keepsIndex_readLines _).bind fun _ => ?_
  split
  · refine keepsIndex_tempName.bind fun name => (keepsIndex_fsCreate name).bind fun _ => ?_
    split
    · refine (Keeps.tryCatch ?_ fun _ => (keepsIndex_fsFault _ _).ignore.bind fun _ =>
        (keepsIndex_fsRemove _).ignore.bind fun _ => .throw _).bind fun _ =>
        (keepsIndex_fsFault _ _).bind fun _ => .pure _
      split
      · exact .pure _
      · exact keepsIndex_fsWrite _ _
    · exact .throw _
  · exact .throw _

theorem keepsIndex_writeBothAddedConflictFile (path ours theirs : String) :
    Keeps (fun w : Work => w.index) (writeBothAddedConflictFile path ours theirs) :=
  keepsIndex_tempName.bind fun _ => (keepsIndex_fsCreate _).bind fun _ =>
    (keepsIndex_fsWrite _ _).bind fun _ => (keepsIndex_fsWrite _ _).ignore.bind fun _ =>
    (Reads.throwIf _ _).keeps.bind fun _ => (keepsIndex_fsWrite _ _).bind fun _ =>
    (keepsIndex_fsWrite _ _).ignore.bind fun _ => (Reads.throwIf _ _).keeps.bind fun _ =>
    (keepsIndex_fsWrite _ _).bind fun _ => keepsIndex_fsRename _ _

/-- What a step at `p` leaves when it writes no entry of `p`. -/
theorem post_keepsIndex {α : Type} {x : MW α} (hx : Keeps (fun w : Work => w.index) x) :
    Post (fun w : Work => w.index = idx) x fun _ w => w.index = idx :=
  hx.post (· = idx)

theorem post_add (path : String) :
    Post (fun w : Work => w.index = idx) (add path) fun _ w =>
      dropPath w.index path = dropPath idx path ∧ conflictsOf w.index path = [] := by
  intro _ w hw _ h
  unfold add at h ⊢
  cases hf : w.files.lookup path <;> simp [fsOpen, index, setIndex, hf, hw] at h ⊢
  exact dropPath_dropPath_append (by simp)

theorem post_remove (path : String) :
    Post (fun w : Work => w.index = idx) (remove path) fun _ w =>
      dropPath w.index path = dropPath idx path ∧ conflictsOf w.index path = [] := by
  intro _ w hw _ _
  simp [remove, index, setIndex, hw]

theorem post_addConflictFile (path : String) (base ours theirs : Option String) :
    Post (fun w : Work => w.index = idx) (addConflictFile path base ours theirs) fun _ w =>
      dropPath w.index path = dropPath idx path ∧
        (conflictsOf w.index path).length =
          (base.toList ++ ours.toList ++ theirs.toList).length := by
  intro _ w hw _ _
  simp only [addConflictFile, bind_apply, index, setIndex, update_apply, Run.after_ok,
    Run.state_ok, hw]
  constructor
  · rw [List.append_assoc, List.append_assoc]
    refine dropPath_dropPath_append fun e he => ?_
    simp only [List.mem_append] at he
    rcases he with he | he | he <;> split at he <;> simp_all
  · cases base <;> cases ours <;> cases theirs <;> simp

theorem post_mergeFiles (path baseB oursB theirsB : String) :
    Post (fun w : Work => w.index = idx) (mergeFiles path baseB oursB theirsB) fun res w =>
      dropPath w.index path = dropPath idx path ∧
        if res.unResolvedConflicts = 0 then conflictsOf w.index path = []
        else (conflictsOf w.index path).length = 3 := by
  refine (post_keepsIndex (keepsIndex_diff3Merge _ _ _)).bind fun res =>
    (post_keepsIndex (keepsIndex_fsRename _ _)).bind fun _ => ?_
  dsimp only
  split
  · exact (post_addConflictFile _ _ _ _).bind fun _ => post_pure fun _ h => by simp_all
  · exact (post_add _).bind fun _ => post_pure fun _ h => by simp_all

theorem post_copyFileToOurs (path : String) (theirsC : Commit) :
    Post (fun w : Work => w.index = idx) (copyFileToOurs path theirsC) fun _ w =>
      dropPath w.index path = dropPath idx path ∧ conflictsOf w.index path = [] :=
  (post_keepsIndex (keepsIndex_commitFile _ _)).bind fun _ =>
    (post_keepsIndex (keepsIndex_fsCreate _)).bind fun _ =>
    (post_keepsIndex (keepsIndex_fsWrite _ _)).bind fun _ =>
    (post_add _).tryCatch fun _ => post_true.bind fun _ => post_throw

/-- A blob read and put in the cache, then `k` of it. -/
theorem post_cachedBlob {β : Type} (c : MergingCommit) (path : String) (st : Stage)
    {k : String → MW β} {Q : β → Work → Prop}
    (hk : ∀ b, Post (fun w : Work => w.index = idx) (k b) Q) :
    Post (fun w : Work => w.index = idx)
      (do let b ← getBlob c path; addOrUpdateBlobToCache path b st; k b) Q :=
  (post_keepsIndex (keepsIndex_getBlob c path)).bind fun b =>
    (post_keepsIndex (show Keeps _ (addOrUpdateBlobToCache path b st) from
      .update _ fun _ => rfl)).bind fun _ => hk b

/-- A step that stages `p` with `n` entries at conflict stages. -/
theorem stepOk_of_conflicts {r : MergingResult} {idx' : List Entry} {n : Nat}
    (hr : r.diffType.isConflict = true) (hn : 2 ≤ n) (hd : dropPath idx' p = dropPath idx p)
    (hc : (conflictsOf idx' p).length = n) : StepOk p r idx idx' :=
  ⟨hd, fun _ => by simp only [StagedAs, hr, if_true]; omega⟩

/-- A step that leaves `p` with no entry at a conflict stage. -/
theorem stepOk_of_clean {r : MergingResult} {idx' : List Entry}
    (hr : r.diffType.isConflict = false) (hd : dropPath idx' p = dropPath idx p)
    (hc : conflictsOf idx' p = []) : StepOk p r idx idx' :=
  ⟨hd, fun _ => by simp only [StagedAs, hr]; exact hc⟩

/-- A step that does not write the index, with a result that is not a conflict. -/
theorem stepOk_same {r : MergingResult} (hr : r.diffType.isConflict = false) :
    StepOk p r idx idx :=
  ⟨rfl, fun h => by simp only [StagedAs, hr]; exact h⟩

theorem post_compareOurs (ours theirs : MergingChanges) (statuses2 : List (String × StatusCode))
    (path : String) (s1 : StatusCode) :
    Post (fun w : Work => w.index = idx) (compareOurs ours theirs statuses2 path s1) fun r w =>
      StepOk path r idx w.index := by
  unfold compareOurs
  split
  · exact post_pure fun _ h => h ▸ stepOk_same rfl
  split
  · split
    · refine post_cachedBlob _ _ _ fun _ => post_cachedBlob _ _ _ fun _ =>
        post_cachedBlob _ _ _ fun _ => (post_mergeFiles _ _ _ _).bind fun res =>
        post_pure fun w ⟨hd, hc⟩ => ?_
      split at hc
      · exact stepOk_of_clean (by simp [*, MergeDiffType.isConflict]) hd hc
      · exact stepOk_of_conflicts (by simp [*, MergeDiffType.isConflict]) (by decide) hd hc
    · exact post_cachedBlob _ _ _ fun _ => post_cachedBlob _ _ _ fun _ =>
        (post_keepsIndex (keepsIndex_writeBothAddedConflictFile _ _ _)).bind fun _ =>
        (post_addConflictFile _ _ _ _).bind fun _ =>
        post_pure fun _ h => stepOk_of_conflicts rfl (le_refl 2) h.1 h.2
    · exact post_pure fun _ h => h ▸ stepOk_same rfl
  · split
    any_goals exact post_cachedBlob _ _ _ fun _ => post_cachedBlob _ _ _ fun _ =>
      (post_addConflictFile _ _ _ _).bind fun _ =>
      post_pure fun _ h => stepOk_of_conflicts rfl (le_refl 2) h.1 h.2
    exact post_pure fun _ h => h ▸ stepOk_same rfl

theorem post_compareTheirs (theirs : MergingChanges) (path : String) (s2 : StatusCode) :
    Post (fun w : Work => w.index = idx) (compareTheirs theirs path s2) fun r w =>
      StepOk path r idx w.index := by
  unfold compareTheirs
  dsimp only
  split
  any_goals exact (post_copyFileToOurs _ _).bind fun _ =>
    post_pure fun _ h => stepOk_of_clean rfl h.1 h.2
  exact (post_remove _).bind fun _ => post_pure fun _ h => stepOk_of_clean rfl h.1 h.2

end steps

/-! ## The loops and the result map -/

section loops
variable {idx : List Entry}

/-- Continue from the index a computation left, with its fact about that index. -/
theorem Post.bind_index {α β : Type} {x : MW α} {f : α → MW β} {R : α → List Entry → Prop}
    {Q : β → Work → Prop} (hx : Post (fun w : Work => w.index = idx) x fun a w => R a w.index)
    (hf : ∀ a v, R a v → Post (fun w : Work => w.index = v) (f a) Q) :
    Post (fun w : Work => w.index = idx) (x >>= f) Q :=
  hx.bind fun a r s hs => hf a s.index hs r s rfl

/-- The loop over the paths `keys` took the index from `idx` to `idx'` and gave `res`: a result
per path, in order; the paths off the loop keep their conflicts; and each path of the loop that
had no conflict before is staged as its result says. -/
def LoopOk (keys : List String) (res : List (String × MergingResult)) (idx idx' : List Entry) :
    Prop :=
  res.map Prod.fst = keys ∧ (∀ q ∉ keys, conflictsOf idx' q = conflictsOf idx q) ∧
    ∀ pr ∈ res, conflictsOf idx pr.1 = [] → StagedAs idx' pr.1 pr.2

theorem post_forStatuses {f : String → StatusCode → MW MergingResult}
    (hf : ∀ p s idx, Post (fun w : Work => w.index = idx) (f p s) fun r w =>
      StepOk p r idx w.index) :
    ∀ st : List (String × StatusCode), (st.map Prod.fst).Nodup → ∀ idx,
      Post (fun w : Work => w.index = idx) (forStatuses f st) fun res w =>
        LoopOk (st.map Prod.fst) res idx w.index
  | [], _, idx => post_pure fun w h =>
    ⟨rfl, fun q _ => by rw [h], fun _ h => (List.not_mem_nil _ h).elim⟩
  | (p, s) :: st, hnd, idx => by
    obtain ⟨hp, hnd⟩ := List.nodup_cons.1 hnd
    refine Post.bind_index (hf p s idx) fun c v hv => Post.bind_index
      (post_forStatuses hf st hnd v) fun res v' ⟨hk, hfr, hst⟩ => post_pure fun w hw => ?_
    subst hw
    refine ⟨by simp [hk], fun q hq => ?_, fun pr hpr hc => ?_⟩
    · obtain ⟨hqp, hqs⟩ := not_or.1 (List.mem_cons.not.1 hq)
      rw [hfr q hqs, conflictsOf_eq_of_dropPath hv.1 hqp]
    · rcases List.mem_cons.1 hpr with rfl | hpr
      · exact (stagedAs_congr (hfr _ hp)).2 (hv.2 hc)
      · have hne : pr.1 ≠ p := fun h => hp (h ▸ hk ▸ List.mem_map_of_mem _ hpr)
        exact hst pr hpr (by rw [conflictsOf_eq_of_dropPath hv.1 hne, hc])

theorem mem_keys_of_mem_assocSet {ν : Type} {l : List (String × ν)} {k : String} {v : ν}
    {a : String × ν} (ha : a ∈ assocSet l k v) (hk : a.1 ≠ k) : a.1 ∈ l.map Prod.fst := by
  induction l with
  | nil => simp_all [assocSet]
  | cons kv l ih =>
    by_cases h' : kv.1 = k
    · simp only [assocSet, h', if_true, List.mem_cons] at ha
      rcases ha with rfl | ha
      · exact absurd rfl hk
      · exact List.mem_map_of_mem _ (List.mem_cons_of_mem _ ha)
    · simp only [assocSet, h', if_false, List.mem_cons] at ha
      rcases ha with rfl | ha
      · exact List.mem_map_of_mem _ (List.mem_cons_self _ _)
      · exact List.mem_cons_of_mem _ (ih ha)

/-- Setting a key keeps the keys distinct. -/
theorem nodup_keys_assocSet {ν : Type} {l : List (String × ν)} (h : (l.map Prod.fst).Nodup)
    (k : String) (v : ν) : ((assocSet l k v).map Prod.fst).Nodup := by
  induction l with
  | nil => simp [assocSet]
  | cons kv l ih =>
    obtain ⟨k', v'⟩ := kv
    obtain ⟨hk', hl⟩ := List.nodup_cons.1 h
    by_cases hk : k' = k
    · simpa [assocSet, hk] using h
    · simp only [assocSet, hk, if_false, List.map_cons, List.nodup_cons]
      refine ⟨fun hm => ?_, ih hl⟩
      obtain ⟨⟨a, b⟩, hab, rfl⟩ := List.mem_map.1 hm
      exact hk' (mem_keys_of_mem_assocSet (a := (a, b)) hab hk)

theorem nodup_keys_statusOf (changes : List Change) :
    ((statusOf changes).map Prod.fst).Nodup := by
  unfold statusOf
  suffices ∀ st : List (String × StatusCode), (st.map Prod.fst).Nodup →
      ((changes.foldl (fun st ch => assocSet st ch.path (match ch.action with
        | .delete => .deleted
        | .insert => .added
        | .modify => .modified)) st).map Prod.fst).Nodup from this [] List.nodup_nil
  induction changes with
  | nil => exact fun _ h => h
  | cons ch changes ih => exact fun st h => ih _ (nodup_keys_assocSet h _ _)

theorem lookup_isNone_iff {ν : Type} (l : List (String × ν)) (k : String) :
    (l.lookup k).isNone ↔ k ∉ l.map Prod.fst := by
  induction l with
  | nil => simp
  | cons kv l ih =>
    obtain ⟨k', v'⟩ := kv
    by_cases h : k = k'
    · subst h; simp [List.lookup_cons]
    · have hk : (k == k') = false := by simpa using h
      simp [List.lookup_cons, hk, h, ih]

/-- The index agrees with a result map: each path with a result is staged as it says, and
every other path has no entry at a conflict stage. -/
def StagedBy (res : List (String × MergingResult)) (idx : List Entry) : Prop :=
  (∀ pr ∈ res, StagedAs idx pr.1 pr.2) ∧ ∀ q ∉ res.map Prod.fst, conflictsOf idx q = []

/-- From an index with no entry at a conflict stage, `compareCommitsChanges` gives results for
distinct paths, and leaves the index staged by them. -/
theorem post_compareCommitsChanges (ours theirs : MergingChanges) :
    Post (fun w : Work => w.index = idx) (compareCommitsChanges ours theirs) fun res w =>
      (∀ q, conflictsOf idx q = []) → (res.map Prod.fst).Nodup ∧ StagedBy res w.index := by
  unfold compareCommitsChanges
  refine (post_keepsIndex reads_index.keeps).bind fun _ => ?_
  refine Post.bind_index (post_forStatuses (fun p s _ => post_compareOurs ours theirs _ p s) _
    (nodup_keys_statusOf _) idx) fun res1 v1 ⟨hk1, hfr1, hst1⟩ => ?_
  refine Post.bind_index (post_forStatuses (fun p s _ => post_compareTheirs theirs p s) _
    ((nodup_keys_statusOf _).sublist ((List.filter_sublist _).map _)) v1)
    fun res2 v2 ⟨hk2, hfr2, hst2⟩ => post_pure fun w hw hclean => ?_
  subst hw
  have hdisj : ∀ q ∈ res2.map Prod.fst, q ∉ res1.map Prod.fst := fun q hq => by
    rw [hk2] at hq
    obtain ⟨⟨q', s⟩, hm, rfl⟩ := List.mem_map.1 hq
    rw [hk1, ← lookup_isNone_iff]
    simpa using (List.mem_filter.1 hm).2
  have hv1 : ∀ q ∉ res1.map Prod.fst, conflictsOf v1 q = [] := fun q hq => by
    rw [hfr1 q (hk1 ▸ hq), hclean]
  refine ⟨?_, fun pr hpr => ?_, fun q hq => ?_⟩
  · rw [List.map_append, List.nodup_append]
    exact ⟨hk1 ▸ nodup_keys_statusOf _, hk2 ▸ (nodup_keys_statusOf _).sublist
      ((List.filter_sublist _).map _), fun a ha hb => hdisj a hb ha⟩
  · rcases List.mem_append.1 hpr with hpr | hpr
    · have hq : pr.1 ∉ res2.map Prod.fst := fun h => hdisj _ h (List.mem_map_of_mem _ hpr)
      exact (stagedAs_congr (hfr2 _ (hk2 ▸ hq))).2 (hst1 pr hpr (hclean _))
    · exact hst2 pr hpr (hv1 _ (hdisj _ (List.mem_map_of_mem _ hpr)))
  · simp only [List.map_append, List.mem_append, not_or] at hq
    rw [hfr2 q (hk2 ▸ hq.2), hv1 q hq.1]

theorem keepsIndex_getMergingDiff (base c : MergingCommit) :
    Keeps (fun w : Work => w.index) (getMergingDiff base c) := by
  unfold getMergingDiff
  dsimp only
  split
  · exact (Keeps.pure _).bind fun _ => (reads_commitTree _).keeps.bind fun _ => .pure _
  · exact (reads_commitTree _).keeps.bind fun _ => (reads_commitTree _).keeps.bind fun _ => .pure _

theorem post_resetIndex (t : Tree) : Post (fun _ : Work => True) (resetIndex t) fun _ w =>
    w.index = t.map fun p => ⟨p.1, p.2, .merged⟩ :=
  post_update fun _ _ => rfl

/-- `mergeCommits`, whatever its base, resets the index to ours' tree and leaves it staged by
its results, which are for distinct paths. -/
theorem post_mergeCommits (cp : Commit → Commit → MW MergingCommit)
    (base : Option MergingCommit) (ours theirs : MergingCommit) :
    Post (fun _ : Work => True) (mergeCommits cp base ours theirs) fun r w =>
      (r.2.map Prod.fst).Nodup ∧ StagedBy r.2 w.index := by
  unfold mergeCommits
  dsimp only
  split <;> exact post_true.bind fun _ => post_true.bind fun t => (post_resetIndex t).bind fun _ =>
    (post_keepsIndex (keepsIndex_getMergingDiff _ _)).bind fun _ =>
    (post_keepsIndex (keepsIndex_getMergingDiff _ _)).bind fun _ =>
    (post_compareCommitsChanges _ _).bind fun _ =>
    post_pure fun _ h => h fun q => List.filter_eq_nil_iff.2 fun e he => by
      obtain ⟨_, -, rfl⟩ := List.mem_map.1 he; simp

end loops

/-! ## Where `Merge` returns its outcome -/

section outcome
variable {fuel ours theirs : Nat} {b : String} {r s : Repo} {e : Err} {es : List Event}

theorem not_plain_of_outcome {e' : Err} (he : e.isOutcome = true) (h : Err.Plain e') :
    e' ≠ e := fun h' => by simp [Err.Plain, h', he] at h

/-- `nonFastForwardMerge` returns an outcome of `Merge` only at its end: there was no
`MERGE_HEAD`, it set `MERGE_HEAD` and `ORIG_HEAD`, `mergeCommits` ran to its end with results
for distinct paths that stage the index, and `logMergeConflicts` wrote `MERGE_MSG` from them
and chose the outcome. -/
theorem nonFastForwardMerge_outcome (he : e.isOutcome = true)
    (h : nonFastForwardMerge fuel ours theirs b () r = .error e s es) :
    r.refs.mergeHead = none ∧ ∃ res w c msg es', (res.map Prod.fst).Nodup ∧
      StagedBy res w.index ∧
      logMergeConflicts res b ()
        { r with refs := (r.refs.set .mergeHead theirs).set .origHead ours, work := w } =
        .ok (c, msg) s es' ∧
      e = if c then .mergeWithConflicts msg else .mergeCommitNeeded msg := by
  unfold nonFastForwardMerge at h
  rcases hmh : r.refs.mergeHead with _ | m
  swap; · simp [mergeHead, hmh] at h; simp [← h.1, Err.isOutcome] at he
  refine ⟨rfl, ?_⟩
  obtain ⟨u, hu⟩ := uncommitted_guard ours r
  cases u
  swap; · simp [mergeHead, hmh, hu] at h; simp [← h.1, Err.isOutcome] at he
  cases hoc : getCommitObject ours r.objects r.work with
  | error e' w' es' =>
    simp [mergeHead, hmh, hu, liftWork_apply, hoc] at h
    exact absurd h.1 (not_plain_of_outcome he
      (plain_getCommitObject ours r.objects r.work e' (by rw [hoc]; rfl)))
  | ok oc w' es' =>
  obtain ⟨rfl, rfl⟩ : w' = r.work ∧ es' = [] := by
    have := reads_getCommitObject ours r.objects r.work; rwa [hoc] at this
  cases htc : getCommitObject theirs r.objects r.work with
  | error e' w' es' =>
    simp [mergeHead, hmh, hu, liftWork_apply, hoc, htc] at h
    exact absurd h.1 (not_plain_of_outcome he
      (plain_getCommitObject theirs r.objects r.work e' (by rw [htc]; rfl)))
  | ok tc w' es' =>
  obtain ⟨rfl, rfl⟩ : w' = r.work ∧ es' = [] := by
    have := reads_getCommitObject theirs r.objects r.work; rwa [htc] at this
  cases hp : computeParent fuel oc tc r.objects r.work with
  | error e' w es' =>
    simp [mergeHead, hmh, hu, liftWork_apply, hoc, htc, hp] at h
    exact absurd h.1 (not_plain_of_outcome he
      (plain_computeParent fuel oc tc r.objects r.work e' (by rw [hp]; rfl)))
  | ok p w es' =>
  cases hm : mergeCommits (computeParent fuel) (some p) ⟨oc, none⟩ ⟨tc, none⟩ r.objects w with
  | error e' w' es'' =>
    simp [mergeHead, hmh, hu, liftWork_apply, hoc, htc, hp, hm, setReference] at h
    exact absurd h.1 (not_plain_of_outcome he
      (plain_mergeCommits (plain_computeParent fuel) _ _ _ r.objects w e' (by rw [hm]; rfl)))
  | ok a w' es'' =>
  obtain ⟨hnd, hst⟩ := post_mergeCommits (computeParent fuel) (some p) ⟨oc, none⟩ ⟨tc, none⟩
    r.objects w trivial a (by rw [hm]; rfl)
  rw [hm] at hst
  cases hl : logMergeConflicts a.2 b ()
      { r with refs := (r.refs.set .mergeHead theirs).set .origHead ours, work := w' } with
  | error e' s' es' =>
    obtain ⟨c, msg, m, hl'⟩ := logMergeConflicts_apply a.2 b
      { r with refs := (r.refs.set .mergeHead theirs).set .origHead ours, work := w' }
    rw [hl'] at hl; cases hl
  | ok cm s' es' =>
    obtain ⟨c, msg⟩ := cm
    have hs : s' = s ∧ e = if c then .mergeWithConflicts msg else .mergeCommitNeeded msg := by
      cases c <;> simp [mergeHead, hmh, hu, liftWork_apply, hoc, htc, hp, hm, setReference, hl]
        at h <;> exact ⟨h.2.1, h.1.symm⟩
    exact ⟨a.2, w', c, msg, es', hnd, hst, hs.1 ▸ hl, hs.2⟩

/-- `Merge` returns an outcome only from `nonFastForwardMerge`: a fast-forward returns none. -/
theorem merge_outcome (he : e.isOutcome = true) (h : merge fuel b () r = .error e s es) :
    ∃ o t, r.refs.headHash = some o ∧ r.refs.branches.lookup b = some t ∧
      nonFastForwardMerge fuel o t b () r = .error e s es := by
  unfold merge at h
  rcases hh : r.refs.headHash with _ | o
  · simp [head, hh] at h; simp [← h.1, Err.isOutcome] at he
  rcases hb : r.refs.branches.lookup b with _ | t
  · simp [head, hh, reference, hb] at h; simp [← h.1, Err.isOutcome] at he
  refine ⟨o, t, rfl, rfl, ?_⟩
  rw [Op.bind_of_ok (show head () r = .ok o r [] by simp [head, hh]), Run.after_nil,
    Op.bind_of_ok (show reference b () r = .ok t r [] by simp [reference, hb]), Run.after_nil,
    Op.bind_of_ok (show isFastForward o t () r = .ok _ r [] from rfl), Run.after_nil] at h
  split at h
  · have hp : Err.Plain e := ((plain_updateHEAD t).bind fun _ => (plain_reset t).bind fun _ =>
      throws_pure _) () r e (congrArg Run.result h)
    simp [Err.Plain, he] at hp
  · cases hn : nonFastForwardMerge fuel o t b () r <;> simp [hn] at h
    rw [h.1, h.2.1, h.2.2]

end outcome

/-! ## `MERGE_MSG`, `ConflictEntries` and `Commit` after a merge -/

section message
variable {res : List (String × MergingResult)}

theorem conflictLines_isSome (theirs path : String) (r : MergingResult) :
    (conflictLines theirs path r).isSome = r.diffType.isConflict := by
  rcases r with ⟨_, _, _ | _ | _ | _ | _ | _ | _⟩ <;> rfl

theorem conflictLines_map_snd (theirs path : String) (r : MergingResult) :
    (conflictLines theirs path r).map Prod.snd =
      if r.diffType.isConflict then some ("#\t" ++ path ++ "\n") else none := by
  rcases r with ⟨_, _, _ | _ | _ | _ | _ | _ | _⟩ <;> rfl

/-- The lines `logMergeConflicts` writes to `MERGE_MSG` are one per conflict, in order. -/
theorem conflictLines_snd (theirs : String) :
    (res.filterMap fun p => conflictLines theirs p.1 p.2).map Prod.snd =
      (res.filter fun p => p.2.diffType.isConflict).map fun p => "#\t" ++ p.1 ++ "\n" := by
  induction res with
  | nil => rfl
  | cons pr res ih =>
    obtain ⟨path, r⟩ := pr
    have h := conflictLines_map_snd theirs path r
    rw [List.filterMap_cons, List.filter_cons]
    cases hc : conflictLines theirs path r with
    | none =>
      rw [hc] at h
      have : r.diffType.isConflict = false := by split at h <;> simp_all
      simp [this, ih]
    | some l =>
      rw [hc] at h
      split at h
      · simp_all
      · simp at h

theorem conflictLines_eq_nil (theirs : String) :
    res.filterMap (fun p => conflictLines theirs p.1 p.2) = [] ↔
      ∀ pr ∈ res, pr.2.diffType.isConflict = false := by
  rw [List.filterMap_eq_nil_iff]
  refine forall₂_congr fun pr _ => ?_
  rw [← conflictLines_isSome theirs pr.1 pr.2]
  cases conflictLines theirs pr.1 pr.2 <;> simp

/-- With results for distinct paths that stage the index, a path has entries at conflict stages
exactly when its result is a conflict, and then it has two or more. -/
theorem conflicts_of_stagedBy {idx : List Entry} (hnd : (res.map Prod.fst).Nodup)
    (hst : StagedBy res idx) (p : String) :
    (conflictsOf idx p ≠ [] ↔ p ∈ (res.filter fun pr => pr.2.diffType.isConflict).map Prod.fst) ∧
      (conflictsOf idx p ≠ [] → 2 ≤ (conflictsOf idx p).length) := by
  by_cases hp : p ∈ res.map Prod.fst
  · obtain ⟨pr, hpr, rfl⟩ := List.mem_map.1 hp
    have h := hst.1 pr hpr
    unfold StagedAs at h
    split at h
    · refine ⟨⟨fun _ => List.mem_map_of_mem _ (List.mem_filter.2 ⟨hpr, ‹_›⟩), fun _ => ?_⟩,
        fun _ => h⟩
      exact List.ne_nil_of_length_pos (by omega)
    · refine ⟨⟨fun hc => absurd h hc, fun hm => ?_⟩, fun hc => absurd h hc⟩
      obtain ⟨pr', hpr', he⟩ := List.mem_map.1 hm
      obtain ⟨hpr', hc⟩ := List.mem_filter.1 hpr'
      rw [List.inj_on_of_nodup_map hnd hpr' hpr he] at hc
      simp_all
  · have h := hst.2 p hp
    refine ⟨⟨fun hc => absurd h hc, fun hm => ?_⟩, fun hc => absurd h hc⟩
    obtain ⟨pr, hpr, rfl⟩ := List.mem_map.1 hm
    exact absurd (List.mem_map_of_mem _ (List.mem_filter.1 hpr).1) hp

end message

section merge
variable {fuel : Nat} {b msg : String} {r s : Repo} {es : List Event}

/-- The index and `MERGE_MSG` after `Merge` returned `ErrMergeWithConflicts`: results for
distinct paths, one of them a conflict, stage the index, and `MERGE_MSG` lists the conflicts. -/
theorem merge_withConflicts_state (h : merge fuel b () r = .error (.mergeWithConflicts msg) s es) :
    ∃ res : List (String × MergingResult), (res.map Prod.fst).Nodup ∧ StagedBy res s.work.index ∧
      (∃ pr ∈ res, pr.2.diffType.isConflict = true) ∧
      s.refs.mergeMsg = some ("Merge branch \x27" ++ b ++ "\x27\n\n" ++ "# Conflicts:\n" ++
        String.join ((res.filter fun p => p.2.diffType.isConflict).map
          fun p => "#\t" ++ p.1 ++ "\n")) := by
  obtain ⟨o, t, -, -, hn⟩ := merge_outcome (by exact rfl) h
  obtain ⟨-, res, w, c, msg', es', hnd, hst, hl, he⟩ := nonFastForwardMerge_outcome (by exact rfl) hn
  unfold logMergeConflicts at hl
  split at hl
  swap
  · simp only [setMergeMsg, bind_apply, update_apply, pure_apply, Run.after_ok, Run.ok.injEq,
      Prod.mk.injEq] at hl
    simp [← hl.1.1] at he
  rename_i hlines
  simp only [setMergeMsg, bind_apply, update_apply, pure_apply, Run.after_ok, Run.ok.injEq,
    Prod.mk.injEq] at hl
  obtain ⟨-, rfl, -⟩ := hl
  rw [Ne, conflictLines_eq_nil] at hlines
  push_neg at hlines
  obtain ⟨pr, hpr, hcf⟩ := hlines
  exact ⟨res, hnd, hst, ⟨pr, hpr, by simpa using hcf⟩, by simp [conflictLines_snd]⟩

/-- The index and `MERGE_MSG` after `Merge` returned `ErrMergeCommitNeeded`: no entry is at a
conflict stage, and `MERGE_MSG` is the message of a clean merge. -/
theorem merge_commitNeeded_state (h : merge fuel b () r = .error (.mergeCommitNeeded msg) s es) :
    (∀ e ∈ s.work.index, e.stage = .merged) ∧
      s.refs.mergeMsg = some ("Merge branch \x27" ++ b ++ "\x27\n\n" ++
        "# Please enter a commit message to explain why this merge is necessary,\n" ++
        "# especially if it merges an updated upstream into a topic branch.\n#\n" ++
        "# Lines starting with \x27#\x27 will be ignored, and an empty message aborts\n" ++
        "# the commit.") ∧
      msg = "Create merge commit to continue merge process" := by
  obtain ⟨o, t, -, -, hn⟩ := merge_outcome (by exact rfl) h
  obtain ⟨-, res, w, c, msg', es', hnd, hst, hl, he⟩ := nonFastForwardMerge_outcome (by exact rfl) hn
  unfold logMergeConflicts at hl
  split at hl
  · simp only [setMergeMsg, bind_apply, update_apply, pure_apply, Run.after_ok, Run.ok.injEq,
      Prod.mk.injEq] at hl
    simp [← hl.1.1] at he
  rename_i hlines
  simp only [setMergeMsg, bind_apply, update_apply, pure_apply, Run.after_ok, Run.ok.injEq,
    Prod.mk.injEq] at hl
  obtain ⟨⟨rfl, rfl⟩, rfl, -⟩ := hl
  simp only [Err.mergeCommitNeeded.injEq, Bool.false_eq_true, if_false] at he
  refine ⟨fun e he' => ?_, rfl, he⟩
  have hnone : ∀ p, conflictsOf w.index p = [] := fun p => by
    by_contra hp
    obtain ⟨pr, hpr, -⟩ := List.mem_map.1 ((conflicts_of_stagedBy hnd hst p).1.1 hp)
    have := (conflictLines_eq_nil b).1 (not_not.1 hlines) pr (List.mem_filter.1 hpr).1
    simp [this] at hpr
  by_contra hs
  have : e ∈ conflictsOf w.index e.name := List.mem_filter.2 ⟨he', by simpa using hs⟩
  simp [hnone] at this

/-- After `Merge` returns `ErrMergeWithConflicts`, `MERGE_MSG` lists under `# Conflicts:` some
distinct paths, and these are exactly the paths of `ConflictEntries`, each with two or more
entries. -/
theorem merge_conflictEntries (h : merge fuel b () r = .error (.mergeWithConflicts msg) s es) :
    ∃ ps : List String, ps ≠ [] ∧ ps.Nodup ∧
      mergeMsgFileContent () s = .ok ("Merge branch \x27" ++ b ++ "\x27\n\n" ++ "# Conflicts:\n" ++
        String.join (ps.map fun p => "#\t" ++ p ++ "\n")) s [] ∧
      ∃ cs, conflictEntries s.objects s.work = .ok cs s.work [] ∧
        (∀ p, (cs.lookup p).isSome ↔ p ∈ ps) ∧
        ∀ p ents, cs.lookup p = some ents → 2 ≤ ents.length := by
  obtain ⟨res, hnd, hst, ⟨pr, hpr, hcf⟩, hmsg⟩ := merge_withConflicts_state h
  have hc := conflicts_of_stagedBy hnd hst
  refine ⟨(res.filter fun p => p.2.diffType.isConflict).map Prod.fst,
    List.ne_nil_of_mem (List.mem_map_of_mem _ (List.mem_filter.2 ⟨hpr, hcf⟩)),
    hnd.sublist ((List.filter_sublist _).map _),
    by simp [mergeMsgFileContent, hmsg, Function.comp_def],
    conflictMap s.work.index, rfl, fun p => ?_, fun p ents hp => ?_⟩
  · rw [conflictMap_lookup, ← (hc p).1]
    split <;> simp_all
  · rw [conflictMap_lookup] at hp
    split at hp
    · cases hp
    · cases hp; exact (hc p).2 ‹_›

/-- `main` and `topic` both change `f`, each in its own way, from their common parent `1`. -/
def conflictRepo : Repo where
  objects := ⟨[⟨1, 10, []⟩, ⟨2, 20, [1]⟩, ⟨3, 20, [1]⟩],
    [(1, [("f", "a")]), (2, [("f", "b")]), (3, [("f", "c")])]⟩
  refs := ⟨.symbolic "main", [("main", 2), ("topic", 3)], none, none, none⟩
  work := ⟨[⟨"f", "b", .merged⟩], [("f", "b")], none, 0, []⟩

theorem conflictRepo_merge_conflictEntries :
    (merge 20 "topic" () conflictRepo).result = .error (.mergeWithConflicts ("Auto-merging f\n" ++
      "CONFLICT (content): Merge conflict in f\n" ++
      "Automatic merge failed; fix conflicts and then commit the result.\n")) ∧
    ∃ ps : List String, ps ≠ [] ∧ ps.Nodup ∧
      mergeMsgFileContent () (merge 20 "topic" () conflictRepo).state =
        .ok ("Merge branch \x27" ++ "topic" ++ "\x27\n\n" ++ "# Conflicts:\n" ++
          String.join (ps.map fun p => "#\t" ++ p ++ "\n")) (merge 20 "topic" () conflictRepo).state [] ∧
      ∃ cs, conflictEntries (merge 20 "topic" () conflictRepo).state.objects
          (merge 20 "topic" () conflictRepo).state.work =
            .ok cs (merge 20 "topic" () conflictRepo).state.work [] ∧
        (∀ p, (cs.lookup p).isSome ↔ p ∈ ps) ∧
        ∀ p ents, cs.lookup p = some ents → 2 ≤ ents.length := by
  refine (fun h => ⟨h, merge_conflictEntries (Run.eq_error_of_result h)⟩) ?_
  set_option smartUnfolding false in decide

/-- After `Merge` returns `ErrMergeCommitNeeded`, every entry of the index is at `Merged` and
`MERGE_MSG` is the message of a clean merge. -/
theorem merge_commitNeeded_staged (h : merge fuel b () r = .error (.mergeCommitNeeded msg) s es) :
    (∀ e ∈ s.work.index, e.stage = .merged) ∧
      mergeMsgFileContent () s = .ok ("Merge branch \x27" ++ b ++ "\x27\n\n" ++
        "# Please enter a commit message to explain why this merge is necessary,\n" ++
        "# especially if it merges an updated upstream into a topic branch.\n#\n" ++
        "# Lines starting with \x27#\x27 will be ignored, and an empty message aborts\n" ++
        "# the commit.") s [] ∧
      msg = "Create merge commit to continue merge process" := by
  obtain ⟨hidx, hmsg, hm⟩ := merge_commitNeeded_state h
  exact ⟨hidx, by simp [mergeMsgFileContent, hmsg], hm⟩

theorem sideRepo_merge_commitNeeded_staged :
    (merge 20 "topic" () sideRepo).result =
      .error (.mergeCommitNeeded "Create merge commit to continue merge process") ∧
    (∀ e ∈ (merge 20 "topic" () sideRepo).state.work.index, e.stage = .merged) ∧
      mergeMsgFileContent () (merge 20 "topic" () sideRepo).state = .ok ("Merge branch \x27" ++
        "topic" ++ "\x27\n\n" ++
        "# Please enter a commit message to explain why this merge is necessary,\n" ++
        "# especially if it merges an updated upstream into a topic branch.\n#\n" ++
        "# Lines starting with \x27#\x27 will be ignored, and an empty message aborts\n" ++
        "# the commit.") (merge 20 "topic" () sideRepo).state [] ∧
      "Create merge commit to continue merge process" =
        "Create merge commit to continue merge process" := by
  refine (fun h => ⟨h, merge_commitNeeded_staged (Run.eq_error_of_result h)⟩) ?_
  set_option smartUnfolding false in decide

theorem assocSet_ne_nil {κ ν : Type} [DecidableEq κ] (l : List (κ × ν)) (k : κ) (v : ν) :
    assocSet l k v ≠ [] := by
  cases l with
  | nil => simp [assocSet]
  | cons kv l => unfold assocSet; split <;> simp

/-- `getUnmergedFiles` finds nothing exactly when every entry is at `Merged`. -/
theorem getUnmergedFiles_eq_nil (idx : List Entry) :
    idx.foldl (fun m e => if e.stage = .merged then m
      else assocSet m e.name (((m.lookup e.name).getD []) ++ [e.stage])) [] = [] ↔
      ∀ e ∈ idx, e.stage = .merged := by
  suffices ∀ m : List (String × List Stage), idx.foldl (fun m e => if e.stage = .merged then m
      else assocSet m e.name (((m.lookup e.name).getD []) ++ [e.stage])) m = [] ↔
      m = [] ∧ ∀ e ∈ idx, e.stage = .merged by simpa using this []
  induction idx with
  | nil => simp
  | cons e idx ih =>
    intro m
    rw [List.foldl_cons, ih]
    by_cases hs : e.stage = .merged <;> simp [hs, assocSet_ne_nil]

theorem orNotFound_head_ok (s : Repo) : ∃ o, orNotFound head () s = .ok o s [] := by
  unfold orNotFound head
  cases h : s.refs.headHash <;> simp [h]

/-- `Commit` reads its parents without failing. -/
theorem commitParents_ok (parents : List Nat) (s : Repo) :
    ∃ ps, commitParents parents () s = .ok ps s [] := by
  obtain ⟨o, ho⟩ := orNotFound_head_ok s
  unfold commitParents
  cases hm : s.refs.mergeHead <;> simp [mergeHead, hm, ho]

theorem validateParents_ok (ps : List Nat) (s : Repo) :
    ∃ ps', validateParents ps () s = .ok ps' s [] := by
  obtain ⟨o, ho⟩ := orNotFound_head_ok s
  unfold validateParents
  split
  · exact ⟨o.toList, by simp [ho]⟩
  · exact ⟨ps, rfl⟩

/-- A `Commit` right after a `Merge` that returned `ErrMergeWithConflicts` fails with
`ErrHasUnmergedFiles`, whatever its parents, and changes and writes nothing. -/
theorem commit_after_conflicts (h : merge fuel b () r = .error (.mergeWithConflicts msg) s es)
    (parents : List Nat) (authorWhen : Int) :
    commit parents authorWhen () s = .error .hasUnmergedFiles s [] := by
  obtain ⟨res, -, hst, ⟨pr, hpr, hcf⟩, -⟩ := merge_withConflicts_state h
  have hlen := hst.1 pr hpr
  simp only [StagedAs, hcf, if_true] at hlen
  obtain ⟨e, he⟩ :=
    List.exists_mem_of_length_pos (by omega : 0 < (conflictsOf s.work.index pr.1).length)
  obtain ⟨he, -, hs⟩ := by simpa [conflictsOf] using he
  have hu : ¬ ∀ e ∈ s.work.index, e.stage = .merged := fun hm => hs (hm e he)
  rw [← getUnmergedFiles_eq_nil] at hu
  obtain ⟨ps, hps⟩ := commitParents_ok parents s
  obtain ⟨ps', hps'⟩ := validateParents_ok ps s
  unfold commit
  rw [Op.bind_of_ok hps, Run.after_nil, Op.bind_of_ok hps', Run.after_nil]
  simp [liftWork_apply, getUnmergedFiles, index, hu]

theorem conflictRepo_commit_after_merge :
    (merge 20 "topic" () conflictRepo).result = .error (.mergeWithConflicts ("Auto-merging f\n" ++
      "CONFLICT (content): Merge conflict in f\n" ++
      "Automatic merge failed; fix conflicts and then commit the result.\n")) ∧
    commit [] 0 () (merge 20 "topic" () conflictRepo).state =
      .error .hasUnmergedFiles (merge 20 "topic" () conflictRepo).state [] := by
  refine (fun h => ⟨h, commit_after_conflicts (Run.eq_error_of_result h) [] 0⟩) ?_
  set_option smartUnfolding false in decide

/-- The references and objects `Merge` leaves with an outcome: `MERGE_HEAD` at the merged
branch's commit, `ORIG_HEAD` at `HEAD`'s, `HEAD`, the branches and the objects as they were. -/
theorem merge_outcome_refs {e : Err} (he : e.isOutcome = true)
    (h : merge fuel b () r = .error e s es) :
    ∃ o t, r.refs.headHash = some o ∧ r.refs.branches.lookup b = some t ∧
      s.refs.headHash = some o ∧ s.refs.mergeHead = some t ∧ s.refs.origHead = some o ∧
      s.objects = r.objects := by
  obtain ⟨o, t, hh, hb, hn⟩ := merge_outcome he h
  obtain ⟨-, res, w, c, msg', es', -, -, hl, -⟩ := nonFastForwardMerge_outcome he hn
  obtain ⟨c', msg'', m, hl'⟩ := logMergeConflicts_apply res b
    { r with refs := (r.refs.set .mergeHead t).set .origHead o, work := w }
  rw [hl'] at hl
  cases hl
  exact ⟨o, t, hh, hb, (Refs.headHash_congr rfl rfl).trans hh, rfl, rfl, rfl⟩

/-- A `Commit` right after a `Merge` that returned `ErrMergeCommitNeeded` succeeds, whatever the
parents it is given: it adds one commit whose parents are `HEAD`'s commit and the merged
branch's and whose tree is the merged index, moves `HEAD` to it, and leaves no `MERGE_HEAD`,
`ORIG_HEAD`, `MERGE_MSG` or blob cache. -/
theorem commit_after_clean_merge (h : merge fuel b () r = .error (.mergeCommitNeeded msg) s es)
    (parents : List Nat) (authorWhen : Int) :
    ∃ o t c, r.refs.headHash = some o ∧ r.refs.branches.lookup b = some t ∧
      (commit parents authorWhen () s).result = .ok c ∧
      (commit parents authorWhen () s).state.objects.commits =
        s.objects.commits ++ [⟨c, authorWhen, [o, t]⟩] ∧
      (commit parents authorWhen () s).state.objects.trees.lookup c =
        some (buildTree s.work.index) ∧
      (commit parents authorWhen () s).state.refs.headHash = some c ∧
      (commit parents authorWhen () s).state.refs.mergeHead = none ∧
      (commit parents authorWhen () s).state.refs.origHead = none ∧
      (commit parents authorWhen () s).state.refs.mergeMsg = none ∧
      (commit parents authorWhen () s).state.work.blobs = none := by
  obtain ⟨o, t, hh, hb, hs, hm, -, -⟩ := merge_outcome_refs (by exact rfl) h
  have hu : getUnmergedFiles s.objects s.work = .ok [] s.work [] := by
    simp [getUnmergedFiles, index, (getUnmergedFiles_eq_nil _).2 (merge_commitNeeded_state h).1]
  have hp : commitParents parents () s = .ok [o, t] s [] := by
    simp [commitParents, mergeHead, hm, orNotFound, head, hs]
  refine ⟨o, t, s.objects.commits.foldl (fun m c => max m c.hash) 0 + 1, hh, hb, ?_⟩
  unfold commit
  rw [Op.bind_of_ok hp, Run.after_nil, Op.bind_of_ok (show validateParents [o, t] () s =
    .ok [o, t] s [] from rfl), Run.after_nil]
  simp [liftWork_apply, hu, index, buildCommitObject, updateHEAD_apply, removeMergeHead_apply,
    removeMergeMsg, removeOrigHead_apply, clearBlobs]
  exact (Refs.headHash_congr rfl rfl).trans (Refs.headHash_set_target _ _)

theorem sideRepo_commit_after_merge :
    (merge 20 "topic" () sideRepo).result =
      .error (.mergeCommitNeeded "Create merge commit to continue merge process") ∧
    ∃ o t c, sideRepo.refs.headHash = some o ∧ sideRepo.refs.branches.lookup "topic" = some t ∧
      (commit [] 0 () (merge 20 "topic" () sideRepo).state).result = .ok c ∧
      (commit [] 0 () (merge 20 "topic" () sideRepo).state).state.objects.commits =
        (merge 20 "topic" () sideRepo).state.objects.commits ++ [⟨c, 0, [o, t]⟩] ∧
      (commit [] 0 () (merge 20 "topic" () sideRepo).state).state.objects.trees.lookup c =
        some (buildTree (merge 20 "topic" () sideRepo).state.work.index) ∧
      (commit [] 0 () (merge 20 "topic" () sideRepo).state).state.refs.headHash = some c ∧
      (commit [] 0 () (merge 20 "topic" () sideRepo).state).state.refs.mergeHead = none ∧
      (commit [] 0 () (merge 20 "topic" () sideRepo).state).state.refs.origHead = none ∧
      (commit [] 0 () (merge 20 "topic" () sideRepo).state).state.refs.mergeMsg = none ∧
      (commit [] 0 () (merge 20 "topic" () sideRepo).state).state.work.blobs = none := by
  refine (fun h => ⟨h, commit_after_clean_merge (Run.eq_error_of_result h) [] 0⟩) ?_
  set_option smartUnfolding false in decide

end merge

/-! ## `AbortMerge` after a merge -/

section abort

/-- A clean checkout: no merge in progress, no blob cache, and the index and files of `HEAD`'s
tree. -/
structure CleanCheckout (r : Repo) : Prop where
  mergeHead : r.refs.mergeHead = none
  origHead : r.refs.origHead = none
  mergeMsg : r.refs.mergeMsg = none
  blobs : r.work.blobs = none
  tree : ∃ o c t, r.refs.headHash = some o ∧ getCommit r.objects.commits o = some c ∧
    r.objects.trees.lookup c.hash = some t ∧
    r.work.index = t.map (fun p => ⟨p.1, p.2, .merged⟩) ∧ r.work.files = t

theorem assocSet_of_lookup {κ ν : Type} [DecidableEq κ] {l : List (κ × ν)} {k : κ} {v : ν}
    (h : l.lookup k = some v) : assocSet l k v = l := by
  induction l with
  | nil => simp at h
  | cons kv l ih =>
    obtain ⟨k', v'⟩ := kv
    by_cases hk : k' = k
    · subst hk; simp [List.lookup_cons] at h; simp [assocSet, h]
    · have hkk : (k == k') = false := by simpa using Ne.symm hk
      simp only [List.lookup_cons, hkk] at h
      simp [assocSet, hk, ih h]

/-- Moving `HEAD`'s target to the commit it resolves to changes no reference. -/
theorem Refs.set_target_self {refs : Refs} {o : Nat} (h : refs.headHash = some o) :
    refs.set refs.head.target o = refs := by
  unfold Refs.headHash at h
  rcases refs with ⟨hd | hd, brs, mh, oh, msg⟩
  · simp [Refs.set, HeadRef.target, assocSet_of_lookup h]
  · cases h; rfl

theorem keeps_objects_liftWork {α : Type} (x : MW α) :
    Keeps (fun r : Repo => r.objects) (liftWork x) :=
  fun () r => by simp

theorem keeps_objects_logMergeConflicts (res : List (String × MergingResult)) (b : String) :
    Keeps (fun r : Repo => r.objects) (logMergeConflicts res b) := fun () r => by
  obtain ⟨c, msg, m, h⟩ := logMergeConflicts_apply res b r
  rw [h]; rfl

theorem keeps_objects_nonFastForwardMerge (fuel ours theirs : Nat) (b : String) :
    Keeps (fun r : Repo => r.objects) (nonFastForwardMerge fuel ours theirs b) := by
  have hsr : ∀ n h, Keeps (fun r : Repo => r.objects) (setReference n h) :=
    fun _ _ => .update _ fun _ => rfl
  unfold nonFastForwardMerge
  refine reads_mergeHead.keeps.bind fun _ => (Reads.throwIf _ _).keeps.bind fun _ =>
    (Keeps.tryCatch (reads_hasUncommittedFiles _).keeps fun _ => .pure _).bind fun _ =>
    (Reads.throwIf _ _).keeps.bind fun _ => (keeps_objects_liftWork _).bind fun _ =>
    (keeps_objects_liftWork _).bind fun _ => (keeps_objects_liftWork _).bind fun _ =>
    (hsr _ _).bind fun _ => (hsr _ _).bind fun _ => (keeps_objects_liftWork _).bind
    fun ⟨_, res⟩ => (keeps_objects_logMergeConflicts res b).bind fun ⟨c, msg⟩ => ?_
  dsimp only
  split <;> exact .throw _

/-- A `Merge` from a repository with no `MERGE_HEAD` that ends with one was no fast-forward: it
set `MERGE_HEAD` to the merged branch's commit and `ORIG_HEAD` to `HEAD`'s, may have written
`MERGE_MSG`, and left the other references and the objects as they were. -/
theorem merge_setsMergeHead {fuel : Nat} {b : String} {r : Repo} (h0 : r.refs.mergeHead = none)
    (hm : (merge fuel b () r).state.refs.mergeHead.isSome) :
    ∃ o t msg, r.refs.headHash = some o ∧
      (merge fuel b () r).state.refs =
        { r.refs with mergeHead := some t, origHead := some o, mergeMsg := msg } ∧
      (merge fuel b () r).state.objects = r.objects := by
  unfold merge at hm ⊢
  rcases hh : r.refs.headHash with _ | o
  · simp [head, hh, h0] at hm
  rcases hb : r.refs.branches.lookup b with _ | t
  · simp [head, hh, reference, hb, h0] at hm
  have hpure : ∀ _ : Unit, Op.Reads (Pure.pure "" : MR String) := fun _ => .pure _
  rw [Op.bind_of_ok (show head () r = .ok o r [] by simp [head, hh]), Run.after_nil,
    Op.bind_of_ok (show reference b () r = .ok t r [] by simp [reference, hb]), Run.after_nil,
    Op.bind_of_ok (show isFastForward o t () r = .ok _ r [] from rfl), Run.after_nil] at hm ⊢
  cases hf : reachesWithin r.objects.commits (r.objects.commits.length + 1) [t] o
  · simp only [hf, if_neg Bool.false_ne_true,
      Op.Reads.bind_state_eq fun _ => .bind (.pure _) hpure] at hm ⊢
    rcases nonFastForwardMerge_refs fuel o t b r with h | ⟨-, msg, h⟩
    · simp [h, h0] at hm
    · exact ⟨o, t, msg, rfl, h, keeps_objects_nonFastForwardMerge fuel o t b () r⟩
  · simp only [hf, if_true, Op.bind_of_ok (updateHEAD_apply t r), Run.state_after,
      Op.Reads.bind_state_eq hpure] at hm
    have := congrArg Prod.fst (keeps_reset t () { r with refs := r.refs.set r.refs.head.target t })
    simp [h0] at this
    simp [this] at hm

/-- `AbortMerge` after a `Merge` that set `MERGE_HEAD`, from a clean checkout, succeeds and gives
back the references, the objects, the index, the files and the blob cache the merge started
from, whether the merge ended with its outcome or with an error on the way. -/
theorem abortMerge_restores {fuel : Nat} {b : String} {r : Repo} (hc : CleanCheckout r)
    (hm : (merge fuel b () r).state.refs.mergeHead.isSome) :
    (abortMerge () (merge fuel b () r).state).result = .ok () ∧
      (abortMerge () (merge fuel b () r).state).state.refs = r.refs ∧
      (abortMerge () (merge fuel b () r).state).state.objects = r.objects ∧
      (abortMerge () (merge fuel b () r).state).state.work.index = r.work.index ∧
      (abortMerge () (merge fuel b () r).state).state.work.files = r.work.files ∧
      (abortMerge () (merge fuel b () r).state).state.work.blobs = r.work.blobs := by
  obtain ⟨o', c, t, hh, hgc, ht, hidx, hfiles⟩ := hc.tree
  obtain ⟨o, tt, msg, hh', hrefs, hobjs⟩ := merge_setsMergeHead hc.mergeHead hm
  rw [hh] at hh'
  cases hh'
  generalize (merge fuel b () r).state = s at hrefs hobjs ⊢
  simp [abortMerge, removeMergeHead_apply, removeMergeMsg, origHead, hrefs, reset, liftWork_apply,
    getCommitObject, hobjs, hgc, commitTree, ht, headReference, setReference, resetIndex, setIndex,
    removeOrigHead_apply, clearBlobs]
  have hR : (⟨r.refs.head, r.refs.branches, none, some o', none⟩ : Refs).set r.refs.head.target o' =
      ⟨r.refs.head, r.refs.branches, none, some o', none⟩ :=
    Refs.set_target_self ((Refs.headHash_congr rfl rfl).trans hh)
  refine ⟨?_, hidx.symm, hfiles.symm, hc.blobs.symm⟩
  rw [hR]
  show _ =
    (⟨r.refs.head, r.refs.branches, r.refs.mergeHead, r.refs.origHead, r.refs.mergeMsg⟩ : Refs)
  rw [hc.mergeHead, hc.origHead, hc.mergeMsg]

theorem sideRepo_abortMerge_restores :
    CleanCheckout sideRepo ∧ (merge 20 "topic" () sideRepo).state.refs.mergeHead.isSome ∧
      (abortMerge () (merge 20 "topic" () sideRepo).state).result = .ok () ∧
      (abortMerge () (merge 20 "topic" () sideRepo).state).state.refs = sideRepo.refs ∧
      (abortMerge () (merge 20 "topic" () sideRepo).state).state.objects = sideRepo.objects ∧
      (abortMerge () (merge 20 "topic" () sideRepo).state).state.work.index = sideRepo.work.index ∧
      (abortMerge () (merge 20 "topic" () sideRepo).state).state.work.files = sideRepo.work.files ∧
      (abortMerge () (merge 20 "topic" () sideRepo).state).state.work.blobs =
        sideRepo.work.blobs := by
  have hc : CleanCheckout sideRepo :=
    ⟨rfl, rfl, rfl, rfl, 2, ⟨2, 20, [1]⟩, [("f", "b")], rfl, rfl, rfl, rfl, rfl⟩
  have hm : (merge 20 "topic" () sideRepo).state.refs.mergeHead.isSome := by
    set_option smartUnfolding false in decide
  exact ⟨hc, hm, abortMerge_restores hc hm⟩

end abort

end MergeCore
