import MergeCore.Worktree.Merge

/-! # Temporary files when the filesystem fails

`diff3.Merge` and `writeBothAddedConflictFile` write a merged file into a new `temp_<n>` and
rename it over the path. A filesystem call fails when the worktree's `faults` list its method
and path.

* `diff3Merge_write_fault`: when a write of the merged lines fails, `diff3.Merge` closes and
  removes the temporary file.
* `diff3Merge_close_fault`: when `Close` fails, it returns the error and the file stays.
* `writeBothAddedConflictFile_leaves_temp`: `writeBothAddedConflictFile` removes nothing: once
  it has created the file, every exit with an error leaves it.
* `compareCommitsChanges_leaves_temp`: so a run of `compareCommitsChanges` can end with a
  `temp_0` in the worktree, from a both-modified path whose `Close` fails or a both-added path
  whose rename fails.
-/

namespace MergeCore

/-- The temporary file the next `tempName` names. -/
def tempOf (w : Work) : String := "temp_" ++ toString w.seed

@[simp] theorem lookup_assocErase_self {ν : Type} (l : List (String × ν)) (k : String) :
    (assocErase l k).lookup k = none := by
  induction l with
  | nil => rfl
  | cons p l ih =>
    obtain ⟨k', v'⟩ := p
    by_cases h : k' = k
    · simp [assocErase, h] at ih ⊢; exact ih
    · have hk : (k == k') = false := by simpa using Ne.symm h
      simp only [assocErase, List.filter_cons, ne_eq, h, not_false_eq_true, decide_True,
        if_true, List.lookup_cons, hk] at ih ⊢
      exact ih

section diff3
variable {baseB oursB theirsB : String} {baseL oursL theirsL : List String} {d : Diff3}
  {n : Nat} {out : List String} (objs : Objects) (w : Work)
  (hb : scanLines baseB = (baseL, true)) (ho : scanLines oursB = (oursL, true))
  (ht : scanLines theirsB = (theirsL, true)) (hd : setup baseL oursL theirsL = some d)
  (hw : writeChunks d (2 * d.base.length + 2) = some (n, out)) (hout : out ≠ [])
  (hc : (FsMethod.create, tempOf w) ∉ w.faults)
include hb ho ht hd hw hout hc

/-- A write of the merged lines that fails makes `diff3.Merge` close and remove the file. -/
theorem diff3Merge_write_fault (hwr : (FsMethod.write, tempOf w) ∈ w.faults)
    (hrm : (FsMethod.remove, tempOf w) ∉ w.faults) :
    (Diff3.merge baseB oursB theirsB objs w).result = .error .fsError ∧
      (Diff3.merge baseB oursB theirsB objs w).state.files.lookup (tempOf w) = none := by
  unfold tempOf at hc hwr hrm
  by_cases hcl : (FsMethod.close, "temp_" ++ toString w.seed) ∈ w.faults <;>
    simp [Diff3.merge, readLines, hb, ho, ht, hd, hw, hout, tempName, randInt, fsCreate, fsFault,
      fsWrite, fsClose, fsRemove, fsOpen, hc, hwr, hrm, hcl, tempOf]

/-- A `Close` that fails makes `diff3.Merge` return the error with the file in place. -/
theorem diff3Merge_close_fault (hwr : (FsMethod.write, tempOf w) ∉ w.faults)
    (hcl : (FsMethod.close, tempOf w) ∈ w.faults) :
    (Diff3.merge baseB oursB theirsB objs w).result = .error .fsError ∧
      (Diff3.merge baseB oursB theirsB objs w).state.files.lookup (tempOf w) =
        some (String.join out) := by
  unfold tempOf at hc hwr hcl
  simp [Diff3.merge, readLines, hb, ho, ht, hd, hw, hout, tempName, randInt, fsCreate, fsFault,
    fsWrite, fsClose, fsOpen, hc, hwr, hcl, tempOf]

end diff3

/-! ## What every step keeps -/

namespace Op

variable {ρ σ α β : Type} (P : σ → Prop)

/-- `x` keeps `P` of the state, whatever it returns. -/
def Holds (x : Op ρ σ α) : Prop := ∀ r s, P s → P (x r s).state

/-- `x` keeps `P` of the state when it returns an error. -/
def HoldsOnError (x : Op ρ σ α) : Prop :=
  ∀ r s, P s → (∀ a, (x r s).result ≠ .ok a) → P (x r s).state

variable {P} {x : Op ρ σ α} {f : α → Op ρ σ β}

theorem Holds.bind (hx : Holds P x) (hf : ∀ a, Holds P (f a)) : Holds P (x >>= f) := by
  intro r s hs
  have := hx r s hs
  cases h : x r s with
  | ok a s' es => simpa [h] using hf a r s' (by simpa [h] using this)
  | error e s' es => simpa [h] using this

theorem Holds.ignore (hx : Holds P x) : Holds P (Op.ignore x) := fun r s hs => hx r s hs

theorem holds_throwIf (c : Bool) (e : Err) : Holds P (throwIf c e : Op ρ σ Unit) := by
  intro r s hs
  cases c <;> simpa using hs

theorem HoldsOnError.bind (hx : Holds P x) (hf : ∀ a, HoldsOnError P (f a)) :
    HoldsOnError P (x >>= f) := by
  intro r s hs herr
  have := hx r s hs
  cases h : x r s with
  | ok a s' es =>
    simp only [h, bind_apply, Run.state_after] at this herr ⊢
    exact hf a r s' this fun b hb => herr b (by rw [Run.result_after, hb])
  | error e s' es => simpa [h] using this

end Op

section
variable (t : String)

/-- A write keeps a file that exists. -/
theorem holds_fsWrite (s : String) :
    Op.Holds (fun w : Work => (w.files.lookup t).isSome) (fsWrite t s) := by
  intro objs w hw
  by_cases hf : (FsMethod.write, t) ∈ w.faults
  · simpa [fsWrite, fsFault, hf] using hw
  · obtain ⟨c, hc⟩ := Option.isSome_iff_exists.1 hw
    simp [fsWrite, fsFault, fsOpen, hf, hc]

/-- A rename of an existing file fails only before it moves the file. -/
theorem holdsOnError_fsRename (dst : String) :
    Op.HoldsOnError (fun w : Work => (w.files.lookup t).isSome) (fsRename t dst) := by
  intro objs w hw herr
  by_cases hf : (FsMethod.rename, t) ∈ w.faults
  · simpa [fsRename, fsFault, hf] using hw
  · obtain ⟨c, hc⟩ := Option.isSome_iff_exists.1 hw
    exact absurd (by simp [fsRename, fsFault, fsOpen, hf, hc]) (herr ())

end

/-- Once `writeBothAddedConflictFile` has created its temporary file, every exit with an error
leaves it: a failed write, a scanner error, or a failed rename. -/
theorem writeBothAddedConflictFile_leaves_temp (path ours theirs : String) (objs : Objects)
    (w : Work) (hc : (FsMethod.create, tempOf w) ∉ w.faults)
    (herr : (writeBothAddedConflictFile path ours theirs objs w).result ≠ .ok ()) :
    ((writeBothAddedConflictFile path ours theirs objs w).state.files.lookup (tempOf w)).isSome := by
  have htemp : tempName objs w = .ok (tempOf w) { w with seed := w.seed + 1 } [] := rfl
  have hcreate : fsCreate (tempOf w) objs { w with seed := w.seed + 1 } =
      .ok () { w with seed := w.seed + 1, files := assocSet w.files (tempOf w) "" }
        [.writeFile (tempOf w)] := by
    simp [fsCreate, fsFault, hc]
  rw [writeBothAddedConflictFile, Op.bind_of_ok htemp, Run.after_nil, Op.bind_of_ok hcreate]
    at herr ⊢
  rw [Run.state_after]
  rw [Run.result_after] at herr
  refine Op.HoldsOnError.bind (holds_fsWrite _ _) (fun _ => ?_) objs _ (by simp) fun _ => herr
  rcases scanLines ours with ⟨oursL, oursOk⟩
  rcases scanLines theirs with ⟨theirsL, theirsOk⟩
  exact .bind (holds_fsWrite _ _).ignore fun _ => .bind (Op.holds_throwIf _ _) fun _ =>
    .bind (holds_fsWrite _ _) fun _ => .bind (holds_fsWrite _ _).ignore fun _ =>
    .bind (Op.holds_throwIf _ _) fun _ => .bind (holds_fsWrite _ _) fun _ =>
    holdsOnError_fsRename _ _

/-! ## A run that leaves a temporary file -/

/-- The merge base: `f` is `a`. -/
def tmpBase : Commit := ⟨1, 10, []⟩
/-- Ours: `f` is `b`, and `g` is added as `x`. -/
def tmpOurs : Commit := ⟨2, 20, [1]⟩
/-- Theirs: `f` is `c`, and `g` is added as `y`. -/
def tmpTheirs : Commit := ⟨3, 30, [1]⟩

/-- The three commits and their trees. -/
def tmpObjects : Objects :=
  ⟨[tmpBase, tmpOurs, tmpTheirs],
    [(1, [("f", "a\n")]), (2, [("f", "b\n"), ("g", "x\n")]), (3, [("f", "c\n"), ("g", "y\n")])]⟩

/-- A side's changes from the base, as `getMergingDiff` finds them. -/
def tmpChanges (c : Commit) : MergingChanges :=
  ⟨⟨tmpBase, none⟩, ⟨c, none⟩, diffTree [("f", "a\n")] ((tmpObjects.trees.lookup c.hash).getD [])⟩

/-- The worktree at ours, with the filesystem's failures. -/
def tmpWork (faults : List (FsMethod × String)) : Work :=
  ⟨[⟨"f", "b\n", .merged⟩, ⟨"g", "x\n", .merged⟩], [("f", "b\n"), ("g", "x\n")], none, 0, faults⟩

/-- Both sides modify `f` and add `g`. When `Close` of the merge of `f` fails, or the rename of
the add/add conflict file of `g` fails, `compareCommitsChanges` returns the error with the
temporary file still in the worktree. -/
theorem compareCommitsChanges_leaves_temp :
    (compareCommitsChanges (tmpChanges tmpOurs) (tmpChanges tmpTheirs) tmpObjects
        (tmpWork [(.close, "temp_0")])).result = .error .fsError ∧
      ((compareCommitsChanges (tmpChanges tmpOurs) (tmpChanges tmpTheirs) tmpObjects
        (tmpWork [(.close, "temp_0")])).state.files.lookup "temp_0").isSome ∧
      (compareCommitsChanges (tmpChanges tmpOurs) (tmpChanges tmpTheirs) tmpObjects
        (tmpWork [(.rename, "temp_1")])).result = .error .fsError ∧
      ((compareCommitsChanges (tmpChanges tmpOurs) (tmpChanges tmpTheirs) tmpObjects
        (tmpWork [(.rename, "temp_1")])).state.files.lookup "temp_1").isSome := by
  set_option smartUnfolding false in decide

end MergeCore
