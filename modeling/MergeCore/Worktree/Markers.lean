import MergeCore.Worktree.Frame
import Mathlib.Logic.Relation

/-!
# `MERGE_HEAD`, `ORIG_HEAD` and `HEAD` across `Merge`, `AbortMerge` and `Commit`

What each of the three methods does to the references, from their code: `nonFastForwardMerge`
sets `MERGE_HEAD` and `ORIG_HEAD` together or neither (`nonFastForwardMerge_refs`); a
fast-forward moves `HEAD` and resets the files, with no look at `MERGE_HEAD` or at local
changes; `AbortMerge` always ends with no `MERGE_HEAD`; `Commit` leaves the references alone or
ends with no `MERGE_HEAD`.

From these: while `MERGE_HEAD` is set, `ORIG_HEAD` is set and `HEAD` resolves to it, over every
run of these methods except a fast-forward `Merge` made while `MERGE_HEAD` exists, which moves
`HEAD` (`mergeInv_reachable`, `merge_fastForward_moves_head`). A merge that is not a
fast-forward refuses local changes and then leaves the whole repository as it was
(`merge_uncommitted`); a fast-forward resets over them (`merge_fastForward_over_changes`).
With at most one merge base, the first writes of a merge are `MERGE_HEAD` and `ORIG_HEAD`
(`nonFastForwardMerge_refs_first`).
-/

namespace MergeCore

/-! ## What each method does to the references -/

/-- The guard on local changes reads only, and an error of the comparison reads as none. -/
theorem uncommitted_guard (ours : Nat) (r : Repo) :
    ∃ u, (tryCatch (hasUncommittedFiles ours) fun _ => pure false : MR Bool) () r = .ok u r [] := by
  rcases (reads_hasUncommittedFiles ours).eq () r with ⟨u, hu⟩ | ⟨e, hu⟩
  · exact ⟨u, by simp [hu]⟩
  · exact ⟨false, by simp [hu]⟩

/-- `logMergeConflicts` writes `MERGE_MSG` and nothing else. -/
theorem logMergeConflicts_apply (res : List (String × MergingResult)) (b : String) (r : Repo) :
    ∃ c msg m, logMergeConflicts res b () r =
      .ok (c, msg) { r with refs := { r.refs with mergeMsg := some m } } [.setMergeMsg] := by
  unfold logMergeConflicts
  split <;> exact ⟨_, _, _, rfl⟩

/-- `nonFastForwardMerge` leaves the references as they were, or, when there was no
`MERGE_HEAD`, sets `MERGE_HEAD` to theirs and `ORIG_HEAD` to ours and touches nothing else but
`MERGE_MSG`. -/
theorem nonFastForwardMerge_refs (fuel ours theirs : Nat) (b : String) (r : Repo) :
    (nonFastForwardMerge fuel ours theirs b () r).state.refs = r.refs ∨
      (r.refs.mergeHead = none ∧ ∃ msg, (nonFastForwardMerge fuel ours theirs b () r).state.refs =
        { r.refs with mergeHead := some theirs, origHead := some ours, mergeMsg := msg }) := by
  unfold nonFastForwardMerge
  rcases hmh : r.refs.mergeHead with _ | m
  swap; · left; simp [mergeHead, hmh]
  obtain ⟨u, hu⟩ := uncommitted_guard ours r
  cases u
  swap; · left; simp [mergeHead, hmh, hu]
  rcases (reads_getCommitObject ours).liftWork.eq () r with ⟨oc, hoc⟩ | ⟨e, hoc⟩
  swap; · left; simp [mergeHead, hmh, hu, hoc]
  rcases (reads_getCommitObject theirs).liftWork.eq () r with ⟨tc, htc⟩ | ⟨e, htc⟩
  swap; · left; simp [mergeHead, hmh, hu, hoc, htc]
  cases hp : computeParent fuel oc tc r.objects r.work with
  | error e w es => left; simp [mergeHead, hmh, hu, hoc, htc, liftWork_apply, hp]
  | ok p w es =>
    refine .inr ⟨rfl, ?_⟩
    cases hm : mergeCommits (computeParent fuel) (some p) ⟨oc, none⟩ ⟨tc, none⟩ r.objects w with
    | error e w' es' =>
      exact ⟨r.refs.mergeMsg, by
        simp [mergeHead, hmh, hu, hoc, htc, liftWork_apply, hp, hm, setReference, Refs.set]⟩
    | ok a w' es' =>
      obtain ⟨c, msg, m, hl⟩ := logMergeConflicts_apply a.2 b
        { r with work := w', refs := (r.refs.set .mergeHead theirs).set .origHead ours }
      refine ⟨some m, ?_⟩
      simp only [Refs.set] at hl
      cases c <;> simp [mergeHead, hmh, hu, hoc, htc, liftWork_apply, hp, hm, setReference,
        Refs.set, hl]

theorem updateHEAD_apply (c : Nat) (r : Repo) :
    updateHEAD c () r = .ok () { r with refs := r.refs.set r.refs.head.target c }
      [.setReference r.refs.head.target] := rfl

/-- The tree `Reset` reads. -/
theorem reads_resetTree (c : Nat) : Op.Reads (do commitTree (← getCommitObject c) : MW Tree) :=
  Op.Reads.bind (reads_getCommitObject c) fun _ => reads_commitTree _

/-- `Reset` moves `HEAD` to the commit once it has read its tree, and no other reference. -/
theorem reset_refs (c : Nat) (r : Repo) :
    (reset c () r).state.refs = r.refs ∨
      (reset c () r).state.refs = r.refs.set r.refs.head.target c := by
  unfold reset
  rcases (reads_resetTree c).liftWork.eq () r with ⟨t, ht⟩ | ⟨e, ht⟩
  · right; simp [ht, headReference, setReference, liftWork_apply, resetIndex, setIndex]
  · left; simp [ht]

/-- `Reset` leaves `MERGE_HEAD` and `ORIG_HEAD`. -/
theorem keeps_reset (c : Nat) :
    Op.Keeps (fun r : Repo => (r.refs.mergeHead, r.refs.origHead)) (reset c) := by
  rintro ⟨⟩ r
  rcases reset_refs c r with h | h <;> simp [h]

/-- `removeOrigHead` never fails and leaves no `ORIG_HEAD`. -/
theorem removeOrigHead_apply (r : Repo) : removeOrigHead () r =
    .ok () { r with refs := { r.refs with origHead := none } }
      (if r.refs.origHead.isSome then [.removeReference .origHead] else []) := by
  unfold removeOrigHead orNotFound
  rcases r with ⟨objs, ⟨hd, brs, mh, _ | o, msg⟩, w⟩ <;>
    simp [origHead, removeReference, Refs.remove]

theorem keeps_removeOrigHead : Op.Keeps (fun r : Repo => r.refs.mergeHead) removeOrigHead := by
  rintro ⟨⟩ r
  simp [removeOrigHead_apply]

/-- `removeMergeHead` never fails and leaves no `MERGE_HEAD`. -/
theorem removeMergeHead_apply (r : Repo) : removeMergeHead () r =
    .ok () { r with refs := { r.refs with mergeHead := none } }
      (if r.refs.mergeHead.isSome then [.removeReference .mergeHead] else []) := by
  unfold removeMergeHead
  rcases r with ⟨objs, ⟨hd, brs, _ | m, oh, msg⟩, w⟩ <;>
    simp [mergeHead, removeReference, Refs.remove]

/-- `AbortMerge` always ends with no `MERGE_HEAD`. -/
theorem abortMerge_mergeHead (r : Repo) : (abortMerge () r).state.refs.mergeHead = none := by
  unfold abortMerge
  rw [Op.Keeps.bind_state (g := fun r : Repo => r.refs.mergeHead) (fun _ => ?_),
    removeMergeHead_apply]
  · rfl
  refine .bind (.ignore (.update _ fun _ => rfl)) fun _ => .bind reads_origHead.keeps fun o =>
    .bind (fun u r => congrArg Prod.fst (keeps_reset o u r)) fun _ =>
    .bind (.ignore keeps_removeOrigHead) fun _ => fun u r => congrArg Refs.mergeHead
      (keeps_refs_liftWork clearBlobs u r)

/-- `Commit` leaves the references as they were, or ends with no `MERGE_HEAD`. -/
theorem commit_refs (parents : List Nat) (authorWhen : Int) (r : Repo) :
    (commit parents authorWhen () r).state.refs = r.refs ∨
      (commit parents authorWhen () r).state.refs.mergeHead = none := by
  let P (s : Repo) : Prop := s.refs = r.refs ∨ s.refs.mergeHead = none
  have h0 : P r := .inl rfl
  unfold commit
  refine (reads_commitParents parents).bind_state (P := P) h0 fun ps => ?_
  refine (reads_validateParents ps).bind_state (P := P) h0 fun ps => ?_
  refine (Op.Reads.liftWork reads_getUnmergedFiles).bind_state (P := P) h0 fun u => ?_
  refine (Op.Reads.throwIf _ _).bind_state (P := P) h0 fun _ => .inr ?_
  simp only [Op.bind_apply, liftWork_apply, index, buildCommitObject, updateHEAD_apply,
    Run.after_ok, Run.state_ok]
  simp [removeMergeHead_apply, removeMergeMsg, removeOrigHead_apply, clearBlobs]

/-- A `Commit` that succeeds while `MERGE_HEAD` is set and `HEAD` resolves records exactly
`HEAD` and `MERGE_HEAD` as the parents of the one commit it adds. -/
theorem commit_parents {parents : List Nat} {authorWhen : Int} {r : Repo} {m o h : Nat}
    (hm : r.refs.mergeHead = some m) (ho : r.refs.headHash = some o)
    (hok : (commit parents authorWhen () r).result = .ok h) :
    (commit parents authorWhen () r).state.objects.commits =
      r.objects.commits ++ [⟨h, authorWhen, [o, m]⟩] := by
  have hp : commitParents parents () r = .ok [o, m] r [] := by
    simp [commitParents, mergeHead, hm, orNotFound, head, ho]
  have hv : validateParents [o, m] () r = .ok [o, m] r [] := rfl
  obtain ⟨u, hu⟩ : ∃ u, liftWork getUnmergedFiles () r = .ok u r [] := ⟨_, rfl⟩
  unfold commit at hok ⊢
  rcases u with _ | ⟨x, u⟩
  · simp_all [liftWork_apply, index, buildCommitObject, updateHEAD_apply, removeMergeHead_apply,
      removeMergeMsg, removeOrigHead_apply, clearBlobs]
  · simp [hp, hv, hu] at hok

/-! ## The `MERGE_HEAD` invariant over runs -/

/-- While `MERGE_HEAD` is set, `ORIG_HEAD` is set and `HEAD` resolves to it. -/
def Refs.MergeInv (refs : Refs) : Prop :=
  refs.mergeHead.isSome → refs.origHead.isSome ∧ refs.headHash = refs.origHead

instance (refs : Refs) : Decidable refs.MergeInv :=
  inferInstanceAs (Decidable (_ → _ ∧ _))

theorem Refs.mergeInv_of_mergeHead {refs : Refs} (h : refs.mergeHead = none) : refs.MergeInv :=
  fun hs => by simp [h] at hs

/-- `Merge(b)` from `r` takes the fast-forward branch. -/
def mergeIsFastForward (r : Repo) (b : String) : Bool :=
  match r.refs.headHash, r.refs.branches.lookup b with
  | some o, some t => reachesWithin r.objects.commits (r.objects.commits.length + 1) [t] o
  | _, _ => false

/-- A `Merge` keeps the invariant, unless it fast-forwards while `MERGE_HEAD` exists. -/
theorem merge_mergeInv (fuel : Nat) (b : String) {r : Repo} (hi : r.refs.MergeInv)
    (hs : r.refs.mergeHead = none ∨ mergeIsFastForward r b = false) :
    (merge fuel b () r).state.refs.MergeInv := by
  unfold merge
  rcases hh : r.refs.headHash with _ | o
  · simpa [head, hh] using hi
  rcases hb : r.refs.branches.lookup b with _ | t
  · simpa [head, hh, reference, hb] using hi
  have hpure : ∀ _ : Unit, Op.Reads (pure "" : MR String) := fun _ => .pure _
  rw [Op.bind_of_ok (show head () r = .ok o r [] by simp [head, hh]), Run.after_nil,
    Op.bind_of_ok (show reference b () r = .ok t r [] by simp [reference, hb]), Run.after_nil,
    Op.bind_of_ok (show isFastForward o t () r = .ok _ r [] from rfl), Run.after_nil]
  cases hf : reachesWithin r.objects.commits (r.objects.commits.length + 1) [t] o
  · rw [if_neg Bool.false_ne_true, Op.Reads.bind_state_eq fun _ => .bind (.pure _) hpure]
    rcases nonFastForwardMerge_refs fuel o t b r with h | ⟨-, msg, h⟩ <;> rw [h]
    · exact hi
    · exact fun _ => ⟨rfl, (Refs.headHash_congr rfl rfl).trans hh⟩
  · have hmh : r.refs.mergeHead = none :=
      hs.resolve_right (by simp [mergeIsFastForward, hh, hb, hf])
    apply Refs.mergeInv_of_mergeHead
    simp only [if_pos, Op.bind_of_ok (updateHEAD_apply t r), Run.state_after,
      Op.Reads.bind_state_eq hpure]
    exact (congrArg Prod.fst (keeps_reset t () _)).trans (by simpa using hmh)

theorem origHead_apply {r : Repo} {o : Nat} (ho : r.refs.origHead = some o) :
    origHead () r = .ok o r [] := by
  simp [origHead, ho]

/-- `AbortMerge` with `ORIG_HEAD` at the commit `HEAD` resolves to leaves `HEAD` there. -/
theorem abortMerge_head {r : Repo} {o : Nat} (ho : r.refs.origHead = some o)
    (hh : r.refs.headHash = some o) : (abortMerge () r).state.refs.headHash = some o := by
  unfold abortMerge
  rw [Op.bind_of_ok (removeMergeHead_apply r), Run.state_after, Op.bind_of_ok (Op.ignore_apply _), Run.state_after,
    Op.bind_of_ok (origHead_apply ?ho), Run.state_after,
    Op.Keeps.bind_state (g := fun r : Repo => r.refs.headHash) fun _ =>
      .bind (.ignore fun _ r => by rw [removeOrigHead_apply]; rfl) fun _ _ r =>
        congrArg Refs.headHash (keeps_refs_liftWork clearBlobs () r)]
  case ho => exact ho
  rcases reset_refs o (removeMergeMsg () _).state with h | h <;> rw [h]
  · exact (Refs.headHash_congr rfl rfl).trans hh
  · exact Refs.headHash_set_target _ _

/-- One call of `Merge`, `AbortMerge` or `Commit`, its result dropped. A `Merge` that
fast-forwards is a call here only while there is no `MERGE_HEAD`. -/
inductive Call : Repo → Repo → Prop
  | merge (fuel : Nat) (b : String) (r : Repo)
      (h : r.refs.mergeHead = none ∨ mergeIsFastForward r b = false) :
      Call r (merge fuel b () r).state
  | abortMerge (r : Repo) : Call r (abortMerge () r).state
  | commit (parents : List Nat) (authorWhen : Int) (r : Repo) :
      Call r (commit parents authorWhen () r).state

theorem call_mergeInv {r r' : Repo} (h : Call r r') (hi : r.refs.MergeInv) : r'.refs.MergeInv := by
  cases h with
  | merge fuel b r hs => exact merge_mergeInv fuel b hi hs
  | abortMerge r => exact Refs.mergeInv_of_mergeHead (abortMerge_mergeHead r)
  | commit parents authorWhen r =>
    rcases commit_refs parents authorWhen r with h | h
    · rwa [h]
    · exact Refs.mergeInv_of_mergeHead h

/-- From a state with the invariant, every run of calls keeps it; so, while `MERGE_HEAD` is set,
`AbortMerge` leaves `HEAD` at `ORIG_HEAD`, and a `Commit` that succeeds adds one commit whose
parents are `ORIG_HEAD` and `MERGE_HEAD`. -/
theorem mergeInv_reachable {r r' : Repo} (h0 : r.refs.MergeInv)
    (hr : Relation.ReflTransGen Call r r') :
    r'.refs.MergeInv ∧ ∀ m o, r'.refs.mergeHead = some m → r'.refs.origHead = some o →
      (abortMerge () r').state.refs.headHash = some o ∧
      ∀ parents authorWhen h, (commit parents authorWhen () r').result = .ok h →
        (commit parents authorWhen () r').state.objects.commits =
          r'.objects.commits ++ [⟨h, authorWhen, [o, m]⟩] := by
  have hi : r'.refs.MergeInv := by
    induction hr with
    | refl => exact h0
    | tail _ step ih => exact call_mergeInv step ih
  refine ⟨hi, fun m o hm ho => ?_⟩
  have hh : r'.refs.headHash = some o := by simpa [ho] using (hi (by simp [hm])).2
  exact ⟨abortMerge_head ho hh, fun _ _ _ hok => commit_parents hm hh hok⟩

/-- `main` at `2` and `topic` at `3`, both children of the root `1`, and `next` at `4` on top of
`2`; the index and the files are those of `2`. -/
def sideRepo : Repo where
  objects := ⟨[⟨1, 10, []⟩, ⟨2, 20, [1]⟩, ⟨3, 20, [1]⟩, ⟨4, 30, [2]⟩],
    [(1, [("f", "a")]), (2, [("f", "b")]), (3, [("f", "a"), ("g", "c")]), (4, [("f", "d")])]⟩
  refs := ⟨.symbolic "main", [("main", 2), ("topic", 3), ("next", 4)], none, none, none⟩
  work := ⟨[⟨"f", "b", .merged⟩], [("f", "b")], none, 0, []⟩

/-- Merging `topic` into `sideRepo` leaves a merge in progress with the invariant, from which
`AbortMerge` goes back to `2`. -/
theorem sideRepo_topic_mergeInv :
    (merge 20 "topic" () sideRepo).state.refs.MergeInv ∧
      (abortMerge () (merge 20 "topic" () sideRepo).state).state.refs.headHash = some 2 := by
  have h := mergeInv_reachable (by decide) (.single (.merge 20 "topic" sideRepo (.inl rfl)))
  exact ⟨h.1, (h.2 3 2 (by decide) (by decide)).1⟩

/-- A fast-forward `Merge` made while `MERGE_HEAD` exists moves `HEAD` and keeps `MERGE_HEAD`
and `ORIG_HEAD`: after merging `topic` into `sideRepo`, merging `next` breaks the invariant. -/
theorem merge_fastForward_moves_head :
    let r1 := (merge 20 "topic" () sideRepo).state
    let r2 := (merge 20 "next" () r1).state
    sideRepo.refs.MergeInv ∧ r1.refs.mergeHead = some 3 ∧ r1.refs.MergeInv ∧
      r2.refs.mergeHead = some 3 ∧ r2.refs.origHead = some 2 ∧ r2.refs.headHash = some 4 ∧
      ¬ r2.refs.MergeInv := by
  decide

/-! ## Local changes -/

/-- Local changes against `HEAD`'s tree `t`: the index differs from `t`, or a file differs from
the index other than by its deletion. -/
def LocalChanges (t : Tree) (w : Work) : Prop :=
  diffTree t (indexTree w.index) ≠ [] ∨
    (diffTree (indexTree w.index) w.files).filter (·.action ≠ .delete) ≠ []

instance (t : Tree) (w : Work) : Decidable (LocalChanges t w) :=
  inferInstanceAs (Decidable (_ ∨ _))

/-- `hasUncommittedFiles` finds the local changes against the tree of the commit it is given. -/
theorem hasUncommittedFiles_of_localChanges {r : Repo} {o : Nat} {c : Commit} {t : Tree}
    (hc : getCommit r.objects.commits o = some c) (ht : r.objects.trees.lookup c.hash = some t)
    (hl : LocalChanges t r.work) : hasUncommittedFiles o () r = .ok true r [] := by
  unfold hasUncommittedFiles diffCommitWithStaging
  by_cases hs : diffTree t (indexTree r.work.index) = []
  · simpa [liftWork_apply, getCommitObject, hc, commitTree, ht, index, hs,
      diffStagingWithWorktree] using hl.resolve_left (not_not.mpr hs)
  · simp [liftWork_apply, getCommitObject, hc, commitTree, ht, index, hs]

/-- `sideRepo` with a new file `g` staged. -/
def stagedRepo : Repo :=
  { sideRepo with work := ⟨[⟨"f", "b", .merged⟩, ⟨"g", "s", .merged⟩], [("f", "b"), ("g", "s")],
    none, 0, []⟩ }

/-- When the merge-base walk returns at most one commit, `computeParent` writes nothing. -/
theorem computeParent_single {fuel : Nat} {oc tc : Commit} {objs : Objects} {w : Work}
    (h : ∀ ps, getCommonParents objs.commits oc tc fuel = some ps → ps.length ≤ 1) :
    (∃ p, computeParent (fuel + 1) oc tc objs w = .ok p w []) ∨
      ∃ e, computeParent (fuel + 1) oc tc objs w = .error e w [] := by
  rcases hp : getCommonParentsRun objs.commits oc tc fuel with e | _ | ⟨p, _ | ⟨q, ps⟩⟩
  · exact .inr ⟨e.toErr, by simp [computeParent, commonParents, hp]⟩
  · exact .inr ⟨.noCommonParent, by simp [computeParent, commonParents, hp]⟩
  · exact .inl ⟨⟨p, none⟩, by simp [computeParent, commonParents, hp]⟩
  · exact absurd (h _ (by rw [getCommonParents_eq_toOption, hp]; rfl)) (by simp)

/-- When the merge-base walk returns at most one commit (a base it returns twice counts twice),
a merge writes nothing, or writes `MERGE_HEAD` and then `ORIG_HEAD` before anything else. -/
theorem nonFastForwardMerge_refs_first {fuel ours theirs : Nat} {b : String} {r : Repo}
    (hbase : ∀ oc tc ps, getCommit r.objects.commits ours = some oc →
      getCommit r.objects.commits theirs = some tc →
      getCommonParents r.objects.commits oc tc fuel = some ps → ps.length ≤ 1) :
    (nonFastForwardMerge (fuel + 1) ours theirs b () r).events = [] ∨
      ∃ rest, (nonFastForwardMerge (fuel + 1) ours theirs b () r).events =
        .setReference .mergeHead :: .setReference .origHead :: rest := by
  unfold nonFastForwardMerge
  rcases hmh : r.refs.mergeHead with _ | m
  swap; · left; simp [mergeHead, hmh]
  obtain ⟨u, hu⟩ := uncommitted_guard ours r
  cases u
  swap; · left; simp [mergeHead, hmh, hu]
  cases hoc : getCommit r.objects.commits ours with
  | none => left; simp [mergeHead, hmh, hu, liftWork_apply, getCommitObject, hoc]
  | some oc =>
  cases htc : getCommit r.objects.commits theirs with
  | none => left; simp [mergeHead, hmh, hu, liftWork_apply, getCommitObject, hoc, htc]
  | some tc =>
  rcases computeParent_single (w := r.work) (hbase oc tc · hoc htc) with ⟨p, hp⟩ | ⟨e, hp⟩
  · right; simp [mergeHead, hmh, hu, liftWork_apply, getCommitObject, hoc, htc, hp, setReference]
  · left; simp [mergeHead, hmh, hu, liftWork_apply, getCommitObject, hoc, htc, hp]

/-- Merging `topic` into `sideRepo`, whose one merge base is `1`, writes `MERGE_HEAD` first. -/
theorem sideRepo_topic_refs_first :
    ∃ rest, (nonFastForwardMerge 20 2 3 "topic" () sideRepo).events =
      .setReference .mergeHead :: .setReference .origHead :: rest := by
  refine (@nonFastForwardMerge_refs_first 19 2 3 "topic" sideRepo
    fun oc tc ps h1 h2 h3 => ?_).resolve_left (by decide)
  rw [show getCommit sideRepo.objects.commits 2 = some ⟨2, 20, [1]⟩ from rfl] at h1
  rw [show getCommit sideRepo.objects.commits 3 = some ⟨3, 20, [1]⟩ from rfl] at h2
  cases h1; cases h2
  have : getCommonParents sideRepo.objects.commits ⟨2, 20, [1]⟩ ⟨3, 20, [1]⟩ 19 =
    some [⟨1, 10, []⟩] := by decide
  rw [this, Option.some.injEq] at h3
  simp [← h3]

/-- Merging `topic` into `main` on the criss-cross: two merge bases, and the inner merge writes
the index, the blob cache and the files, a temporary file among them, before `MERGE_HEAD` and
`ORIG_HEAD`; the merge then asks for a merge commit. -/
theorem nonFastForwardMerge_crossRepo_events :
    getCommonParents crossRepo.objects.commits crossMain crossTopic 19 =
        some [crossRight, crossLeft] ∧
      (nonFastForwardMerge 20 4 5 "topic" () crossRepo).events =
        [.setIndex, .cacheBlob "f" .ancestorMode, .cacheBlob "f" .ourMode,
          .cacheBlob "f" .theirMode, .writeFile "temp_0", .writeFile "temp_0",
          .removeFile "temp_0", .writeFile "f", .setIndex, .setReference .mergeHead,
          .setReference .origHead, .setIndex, .setMergeMsg] ∧
      (nonFastForwardMerge 20 4 5 "topic" () crossRepo).result =
        .error (.mergeCommitNeeded "Create merge commit to continue merge process") := by
  set_option smartUnfolding false in decide

end MergeCore
