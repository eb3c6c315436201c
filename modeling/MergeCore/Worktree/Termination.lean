import MergeCore.Worktree.Merge
import MergeCore.Walker.Termination

/-!
# `computeParent` terminates

`computeParent_terminates`: on a commit graph, `computeParent` of two of its commits ends, from
every worktree, in one outcome that is not `outOfFuel`, for all fuel past a bound.

The model runs the recursion `computeParent → createVirtualParent → mergeCommits →
computeParent` and each merge-base walk on `fuel`; running out is the error `outOfFuel`, and
nothing else returns it. Every storage and tree-diff collaborator is a total function, and
none returns it either (`ensures_compareCommitsChanges` and the lemmas before it, over
`Op.Ensures`, a total-correctness spec of an `Op` with one rule per combinator). Two facts
carry the rest:

* the walk ends, with fuel past one bound for the whole store
  (`getCommonParents_terminates`), and returns common ancestors, and the commit itself when
  both sides are one commit;
* `createVirtualParent` calls `computeParent` only on pairs of common ancestors of the current
  pair, and of two different commits such a pair has a smaller sum of ranks
  (`rank_add_lt`), so the recursion ends (`ensures_computeParent`).

A run that does not run out is the run with more fuel (`extends_computeParent`, over
`Op.Extends`), so past the bound the outcome no longer depends on the fuel.
-/

namespace MergeCore

/-! ## Total correctness of a computation -/

namespace Op

variable {ρ σ α β γ : Type} (r : ρ) (e : Err)

/-- From the reader `r` and any state, `x` does not return the error `e`, and each value it
returns satisfies `Q`. -/
def Ensures (Q : α → Prop) (x : Op ρ σ α) : Prop :=
  ∀ s, (x r s).result ≠ .error e ∧ ∀ a, (x r s).result = .ok a → Q a

variable {r e} {P Q : α → Prop} {x : Op ρ σ α}

theorem Ensures.mono (h : Ensures r e P x) (hq : ∀ a, P a → Q a) : Ensures r e Q x :=
  fun s => ⟨(h s).1, fun a ha => hq a ((h s).2 a ha)⟩

theorem ensures_pure {a : α} (h : Q a) : Ensures r e Q (Pure.pure a : Op ρ σ α) :=
  fun _ => ⟨by simp, by simpa using h⟩

theorem ensures_throw {e' : Err} (h : e' ≠ e) : Ensures r e Q (throw e' : Op ρ σ α) :=
  fun _ => ⟨by simpa using h, by simp⟩

theorem Ensures.bind {R : β → Prop} {f : α → Op ρ σ β} (hx : Ensures r e P x)
    (hf : ∀ a, P a → Ensures r e R (f a)) : Ensures r e R (x >>= f) := by
  intro s
  have := hx s
  cases h : x r s with
  | ok a s' es => simpa [h] using hf a (this.2 a (by simp [h])) s'
  | error e' s' es => simpa [h] using this.1

theorem Ensures.tryCatch {h : Err → Op ρ σ α} (hx : Ensures r e Q x)
    (hh : ∀ e', e' ≠ e → Ensures r e Q (h e')) :
    Ensures r e Q (MonadExcept.tryCatch x h) := by
  intro s
  have := hx s
  cases hr : x r s with
  | ok a s' es => simpa [hr] using this
  | error e' s' es => simpa [hr] using hh e' (by simpa [hr] using this.1) s'

theorem ensures_ignore : Ensures r e (fun _ => True) (ignore x) := fun _ => ⟨by simp, by simp⟩

theorem ensures_update {f : σ → σ} {es : List Event} :
    Ensures r e (fun _ => True) (update f es : Op ρ σ Unit) :=
  fun _ => ⟨by simp, by simp⟩

theorem ensures_throwIf {c : Bool} {e' : Err} (h : e' ≠ e) :
    Ensures r e (fun _ => True) (throwIf c e' : Op ρ σ Unit) :=
  fun _ => by cases c <;> simp [h]

theorem Ensures.foldlM {l : List γ} {f : α → γ → Op ρ σ α}
    (hf : ∀ b, P b → ∀ c ∈ l, Ensures r e P (f b c)) :
    ∀ b, P b → Ensures r e P (l.foldlM f b) := by
  induction l with
  | nil => exact fun b hb => ensures_pure hb
  | cons c l ih =>
    intro b hb
    rw [List.foldlM_cons]
    exact (hf b hb c (.head _)).bind fun b' hb' =>
      ih (fun b hb c hc => hf b hb c (.tail _ hc)) b' hb'

/-- With the error `e` for "out of fuel": `y` does what `x` does wherever `x` does not run
out. -/
def Extends (e : Err) (x y : Op ρ σ α) : Prop :=
  ∀ r s, (x r s).result ≠ .error e → y r s = x r s

theorem Extends.refl (x : Op ρ σ α) : Extends e x x := fun _ _ _ => rfl

theorem Extends.trans {y z : Op ρ σ α} (hxy : Extends e x y) (hyz : Extends e y z) :
    Extends e x z := fun r s h => by
  have hy := hxy r s h
  rw [hyz r s (by rwa [hy]), hy]

theorem Extends.bind {y : Op ρ σ α} {f g : α → Op ρ σ β} (hx : Extends e x y)
    (hf : ∀ a, Extends e (f a) (g a)) : Extends e (x >>= f) (y >>= g) := by
  intro r s h
  cases hr : x r s with
  | ok a s' es =>
    simp only [bind_apply, hr] at h
    simp only [bind_apply, hx r s (by simp [hr]), hr, hf a r s' (by simpa using h)]
  | error e' s' es =>
    simp only [bind_apply, hr] at h
    simp only [bind_apply, hx r s (by simpa [hr] using h), hr]

theorem Extends.foldlM {l : List γ} {f g : α → γ → Op ρ σ α}
    (hf : ∀ b c, Extends e (f b c) (g b c)) : ∀ b, Extends e (l.foldlM f b) (l.foldlM g b) := by
  induction l with
  | nil => exact fun b => .refl _
  | cons c l ih => exact fun b => by simpa only [List.foldlM_cons] using (hf b c).bind ih

end Op

/-! ## The collaborators never run out of fuel -/

section collaborators
variable {objs : Objects}

theorem ensures_commitTree (c : Commit) :
    Op.Ensures objs .outOfFuel (fun _ => True) (commitTree c) :=
  fun w => by unfold commitTree; split <;> simp

theorem ensures_commitFile (c : Commit) (path : String) :
    Op.Ensures objs .outOfFuel (fun _ => True) (commitFile c path) := by
  unfold commitFile
  refine (ensures_commitTree c).bind fun t _ => ?_
  split
  · exact Op.ensures_pure trivial
  · exact Op.ensures_throw (by decide)

theorem ensures_blobObject (h : Option String) :
    Op.Ensures objs .outOfFuel (fun _ => True) (blobObject h) := by
  cases h
  · exact Op.ensures_throw (by decide)
  · exact Op.ensures_pure trivial

theorem ensures_getBlob (c : MergingCommit) (path : String) :
    Op.Ensures objs .outOfFuel (fun _ => True) (getBlob c path) := by
  unfold getBlob
  split
  · split
    · exact ensures_commitFile _ _
    · exact ensures_blobObject _
  · exact ensures_commitFile _ _

theorem ensures_index : Op.Ensures objs .outOfFuel (fun _ => True) index :=
  fun _ => ⟨by simp [index], by simp⟩

theorem ensures_setIndex (idx : List Entry) :
    Op.Ensures objs .outOfFuel (fun _ => True) (setIndex idx) :=
  Op.ensures_update

theorem ensures_fsOpen (name : String) : Op.Ensures objs .outOfFuel (fun _ => True) (fsOpen name) :=
  fun w => by unfold fsOpen; split <;> simp

theorem ensures_fsFault (m : FsMethod) (name : String) :
    Op.Ensures objs .outOfFuel (fun _ => True) (fsFault m name) :=
  fun w => by unfold fsFault; split <;> simp

theorem ensures_fsCreate (name : String) :
    Op.Ensures objs .outOfFuel (fun _ => True) (fsCreate name) :=
  (ensures_fsFault _ _).bind fun _ _ => Op.ensures_update

theorem ensures_fsWrite (name s : String) :
    Op.Ensures objs .outOfFuel (fun _ => True) (fsWrite name s) :=
  (ensures_fsFault _ _).bind fun _ _ => (ensures_fsOpen _).bind fun _ _ => Op.ensures_update

theorem ensures_fsRename (src dst : String) :
    Op.Ensures objs .outOfFuel (fun _ => True) (fsRename src dst) :=
  (ensures_fsFault _ _).bind fun _ _ => (ensures_fsOpen _).bind fun _ _ => Op.ensures_update

theorem ensures_fsRemove (name : String) :
    Op.Ensures objs .outOfFuel (fun _ => True) (fsRemove name) :=
  (ensures_fsFault _ _).bind fun _ _ => (ensures_fsOpen _).bind fun _ _ => Op.ensures_update

theorem ensures_randInt : Op.Ensures objs .outOfFuel (fun _ => True) randInt :=
  fun _ => ⟨by simp [randInt], by simp⟩

theorem ensures_tempName : Op.Ensures objs .outOfFuel (fun _ => True) tempName :=
  ensures_randInt.bind fun _ _ => Op.ensures_pure trivial

theorem ensures_add (path : String) : Op.Ensures objs .outOfFuel (fun _ => True) (add path) :=
  (ensures_fsOpen _).bind fun _ _ => ensures_index.bind fun _ _ => ensures_setIndex _

theorem ensures_remove (path : String) : Op.Ensures objs .outOfFuel (fun _ => True) (remove path) :=
  ensures_index.bind fun _ _ => (ensures_setIndex _).bind fun _ _ => Op.ensures_update

theorem ensures_addConflictFile (path : String) (base ours theirs : Option String) :
    Op.Ensures objs .outOfFuel (fun _ => True) (addConflictFile path base ours theirs) :=
  ensures_index.bind fun _ _ => ensures_setIndex _

theorem ensures_readLines (b : String) :
    Op.Ensures objs .outOfFuel (fun _ => True) (readLines b) := by
  unfold readLines
  split
  · exact Op.ensures_pure trivial
  · exact Op.ensures_throw (by decide)

theorem ensures_diff3Merge (baseB oursB theirsB : String) :
    Op.Ensures objs .outOfFuel (fun _ => True) (Diff3.merge baseB oursB theirsB) := by
  unfold Diff3.merge
  refine (ensures_readLines _).bind fun _ _ => (ensures_readLines _).bind fun _ _ =>
    (ensures_readLines _).bind fun _ _ => ?_
  split
  swap
  · exact Op.ensures_throw (by decide)
  refine ensures_tempName.bind fun name _ => (ensures_fsCreate name).bind fun _ _ => ?_
  split
  · refine (Op.Ensures.tryCatch (Q := fun _ => True) ?_ fun e he => Op.ensures_ignore.bind
      fun _ _ => Op.ensures_ignore.bind fun _ _ => Op.ensures_throw he).bind
      fun _ _ => (ensures_fsFault _ _).bind fun _ _ => Op.ensures_pure trivial
    split
    · exact Op.ensures_pure trivial
    · exact ensures_fsWrite _ _
  · exact Op.ensures_throw (by decide)

theorem ensures_mergeFiles (path baseB oursB theirsB : String) :
    Op.Ensures objs .outOfFuel (fun _ => True) (mergeFiles path baseB oursB theirsB) := by
  refine (ensures_diff3Merge _ _ _).bind fun res _ => (ensures_fsRename _ _).bind fun _ _ => ?_
  dsimp only
  split
  · exact (ensures_addConflictFile _ _ _ _).bind fun _ _ => Op.ensures_pure trivial
  · exact (ensures_add _).bind fun _ _ => Op.ensures_pure trivial

theorem ensures_writeBothAddedConflictFile (path ours theirs : String) :
    Op.Ensures objs .outOfFuel (fun _ => True) (writeBothAddedConflictFile path ours theirs) :=
  ensures_tempName.bind fun _ _ => (ensures_fsCreate _).bind fun _ _ =>
    (ensures_fsWrite _ _).bind fun _ _ => Op.ensures_ignore.bind fun _ _ =>
    (Op.ensures_throwIf (by decide)).bind fun _ _ => (ensures_fsWrite _ _).bind fun _ _ =>
    Op.ensures_ignore.bind fun _ _ => (Op.ensures_throwIf (by decide)).bind fun _ _ =>
    (ensures_fsWrite _ _).bind fun _ _ => ensures_fsRename _ _

theorem ensures_copyFileToOurs (path : String) (theirsC : Commit) :
    Op.Ensures objs .outOfFuel (fun _ => True) (copyFileToOurs path theirsC) :=
  (ensures_commitFile _ _).bind fun _ _ => (ensures_fsCreate _).bind fun _ _ =>
    (ensures_fsWrite _ _).bind fun _ _ => (ensures_add _).tryCatch fun _ he =>
    Op.ensures_ignore.bind fun _ _ => Op.ensures_throw he

theorem ensures_getMergingDiff (base c : MergingCommit) :
    Op.Ensures objs .outOfFuel (fun _ => True) (getMergingDiff base c) := by
  unfold getMergingDiff
  dsimp only
  split
  · exact (Op.ensures_pure (Q := fun _ => True) trivial).bind fun _ _ =>
      (ensures_commitTree _).bind fun _ _ => Op.ensures_pure trivial
  · exact (ensures_commitTree _).bind fun _ _ => (ensures_commitTree _).bind fun _ _ =>
      Op.ensures_pure trivial

/-- A blob read and put in the cache, then `k` of it. -/
theorem ensures_cachedBlob {β : Type} (c : MergingCommit) (path : String) (st : Stage)
    {k : String → MW β} (hk : ∀ b, Op.Ensures objs .outOfFuel (fun _ => True) (k b)) :
    Op.Ensures objs .outOfFuel (fun _ => True)
      (do let b ← getBlob c path; addOrUpdateBlobToCache path b st; k b) :=
  (ensures_getBlob c path).bind fun b _ => Op.ensures_update.bind fun _ _ => hk b

theorem ensures_compareOurs (ours theirs : MergingChanges) (statuses2 : List (String × StatusCode))
    (path : String) (s1 : StatusCode) :
    Op.Ensures objs .outOfFuel (fun _ => True) (compareOurs ours theirs statuses2 path s1) := by
  unfold compareOurs
  split
  · exact Op.ensures_pure trivial
  split
  · split
    · exact ensures_cachedBlob _ _ _ fun _ => ensures_cachedBlob _ _ _ fun _ =>
        ensures_cachedBlob _ _ _ fun _ => (ensures_mergeFiles _ _ _ _).bind fun _ _ =>
        Op.ensures_pure trivial
    · exact ensures_cachedBlob _ _ _ fun _ => ensures_cachedBlob _ _ _ fun _ =>
        (ensures_writeBothAddedConflictFile _ _ _).bind fun _ _ =>
        (ensures_addConflictFile _ _ _ _).bind fun _ _ => Op.ensures_pure trivial
    · exact Op.ensures_pure trivial
  · split
    any_goals exact ensures_cachedBlob _ _ _ fun _ => ensures_cachedBlob _ _ _ fun _ =>
      (ensures_addConflictFile _ _ _ _).bind fun _ _ => Op.ensures_pure trivial
    exact Op.ensures_pure trivial

theorem ensures_compareTheirs (theirs : MergingChanges) (path : String) (s2 : StatusCode) :
    Op.Ensures objs .outOfFuel (fun _ => True) (compareTheirs theirs path s2) := by
  unfold compareTheirs
  dsimp only
  split
  · exact (ensures_copyFileToOurs _ _).bind fun _ _ => Op.ensures_pure trivial
  · exact (ensures_copyFileToOurs _ _).bind fun _ _ => Op.ensures_pure trivial
  · exact (ensures_remove _).bind fun _ _ => Op.ensures_pure trivial

theorem ensures_forStatuses {f : String → StatusCode → MW MergingResult}
    (hf : ∀ path s, Op.Ensures objs .outOfFuel (fun _ => True) (f path s)) :
    ∀ st, Op.Ensures objs .outOfFuel (fun _ => True) (forStatuses f st)
  | [] => Op.ensures_pure trivial
  | (path, s) :: st => (hf path s).bind fun _ _ => (ensures_forStatuses hf st).bind fun _ _ =>
    Op.ensures_pure trivial

theorem ensures_compareCommitsChanges (ours theirs : MergingChanges) :
    Op.Ensures objs .outOfFuel (fun _ => True) (compareCommitsChanges ours theirs) :=
  ensures_index.bind fun _ _ => (ensures_forStatuses (ensures_compareOurs _ _ _) _).bind fun _ _ =>
    (ensures_forStatuses (ensures_compareTheirs _) _).bind fun _ _ => Op.ensures_pure trivial

end collaborators

/-! ## The recursion -/

section recursion
variable {objs : Objects}

theorem ensures_mergeCommits {cp : Commit → Commit → MW MergingCommit}
    {Q : MergingCommit → Prop} {ours theirs : MergingCommit}
    (h : Op.Ensures objs .outOfFuel Q (cp ours.commit theirs.commit)) :
    Op.Ensures objs .outOfFuel (fun r => Q r.1) (mergeCommits cp none ours theirs) :=
  h.bind fun _ hb => (ensures_commitTree _).bind fun _ _ => (ensures_setIndex _).bind fun _ _ =>
    (ensures_getMergingDiff _ _).bind fun _ _ => (ensures_getMergingDiff _ _).bind fun _ _ =>
    (ensures_compareCommitsChanges _ _).bind fun _ _ => Op.ensures_pure hb

/-- The fold of `createVirtualParent` keeps a property of its base's commit that each
`computeParent` it calls gives its result. -/
theorem ensures_createVirtualParent {cp : Commit → Commit → MW MergingCommit}
    {P : Commit → Prop} {p0 p1 : Commit} {ps : List Commit}
    (hcp : ∀ b p, P b → p ∈ p1 :: ps →
      Op.Ensures objs .outOfFuel (fun m => P m.commit) (cp b p))
    (h0 : P p0) :
    Op.Ensures objs .outOfFuel (fun m => P m.commit) (createVirtualParent cp (p0 :: p1 :: ps)) :=
  (Op.Ensures.foldlM (P := fun m : MergingCommit => P m.commit)
    (fun b hb p hp => (ensures_mergeCommits (hcp b.commit p hb hp)).bind fun ⟨_, _⟩ hr =>
      Op.ensures_pure (Q := fun m : MergingCommit => P m.commit) hr) _ h0).bind
    fun _ hb => ensures_index.bind fun _ _ => Op.ensures_pure hb

/-- What the walk gives `computeParent`: common ancestors, and the one commit when both sides
are that commit. -/
theorem ensures_commonParents (hg : CommitGraph objs.commits) {c1 c2 : Commit} {fuel : Nat}
    (h1 : c1 ∈ objs.commits) (h2 : c2 ∈ objs.commits)
    (hf : (getCommonParents objs.commits c1 c2 fuel).isSome) :
    Op.Ensures objs .outOfFuel (fun ps => (∀ x ∈ ps, Found objs.commits c1 c2 x) ∧
      (c1 = c2 → ps = [c1])) (commonParents fuel c1 c2) := fun w => by
  obtain ⟨ps, hps⟩ := Option.isSome_iff_exists.1 hf
  simp only [commonParents, getCommonParentsRun_of_some hps, Run.result_ok, ne_eq, reduceCtorEq,
    not_false_eq_true, Except.ok.injEq, forall_eq', true_and]
  refine ⟨getCommonParents_sound hg.nodup h1 h2 hps, ?_⟩
  rintro rfl
  obtain ⟨qs, hqs⟩ := Option.isSome_iff_exists.1 (getParents_isSome (hg.closed c1 h1))
  have := (getCommonParents_mono hps _ (Nat.le_max_left fuel 2)).symm.trans
    (getCommonParents_mono (getCommonParents_self hqs 0) _ (Nat.le_max_right fuel 2))
  exact Option.some.inj this

/-- Common ancestors of two different commits have smaller ranks together. -/
theorem rank_add_lt {store : List Commit} {rank : Nat → Nat}
    (hr : ∀ c ∈ store, ∀ h ∈ c.parentHashes, rank h < rank c.hash) {c1 c2 x y : Commit}
    (h1 : c1 ∈ store) (h2 : c2 ∈ store) (hne : c1 ≠ c2) (hx : IsCommonAncestor store c1 c2 x)
    (hy : IsCommonAncestor store c1 c2 y) :
    rank x.hash + rank y.hash < rank c1.hash + rank c2.hash := by
  have below : ∀ z, IsCommonAncestor store c1 c2 z → rank z.hash ≤ rank c1.hash ∧
      rank z.hash ≤ rank c2.hash ∧
        (rank z.hash < rank c1.hash ∨ rank z.hash < rank c2.hash) := by
    intro z ⟨hz1, hz2⟩
    rcases hz1.eq_or_rank_lt hr h1 with rfl | a <;> rcases hz2.eq_or_rank_lt hr h2 with rfl | b
    · exact absurd rfl hne
    all_goals omega
  have := below x hx
  have := below y hy
  omega

section bound
variable (hg : CommitGraph objs.commits) {rank : Nat → Nat}
  (hr : ∀ c ∈ objs.commits, ∀ h ∈ c.parentHashes, rank h < rank c.hash) {B : Nat}
  (hB : ∀ c1 ∈ objs.commits, ∀ c2 ∈ objs.commits, ∀ fuel, B ≤ fuel →
    (getCommonParents objs.commits c1 c2 fuel).isSome)
include hg hr hB

/-- With fuel for the walk and for the recursion, whose pairs' ranks drop at each level,
`computeParent` does not run out, and returns a common ancestor. -/
theorem ensures_computeParent : ∀ (n fuel : Nat) (c1 c2 : Commit), c1 ∈ objs.commits →
    c2 ∈ objs.commits → rank c1.hash + rank c2.hash < n → B + n ≤ fuel →
    Op.Ensures objs .outOfFuel (fun m => Found objs.commits c1 c2 m.commit)
      (computeParent fuel c1 c2)
  | 0, _, _, _, _, _, hlt, _ => absurd hlt (Nat.not_lt_zero _)
  | n + 1, fuel, c1, c2, h1, h2, hlt, hfuel => by
    obtain ⟨f, rfl⟩ : ∃ f, fuel = f + 1 := ⟨fuel - 1, by omega⟩
    rw [computeParent]
    refine (ensures_commonParents hg h1 h2 (hB c1 h1 c2 h2 f (by omega))).bind
      fun ps ⟨hps, hself⟩ => ?_
    match ps, hps, hself with
    | [], _, _ => exact Op.ensures_throw (by decide)
    | [p], hps, _ => exact Op.ensures_pure (hps p (.head _))
    | p0 :: p1 :: ps, hps, hself =>
      have hne : c1 ≠ c2 := fun h => by simpa using hself h
      refine ensures_createVirtualParent (fun b p hb hp => ?_) (hps p0 (.head _))
      have hp' := hps p (.tail _ hp)
      have := rank_add_lt hr h1 h2 hne hb.2 hp'.2
      exact (ensures_computeParent n f b p hb.1 hp'.1 (by omega) (by omega)).mono
        fun m hm => ⟨hm.1, hb.2.1.trans hm.2.1, hp'.2.2.trans hm.2.2⟩

end bound

end recursion

/-! ## More fuel, the same run -/

section fuel

theorem extends_commonParents (fuel : Nat) (c1 c2 : Commit) :
    Op.Extends .outOfFuel (commonParents fuel c1 c2) (commonParents (fuel + 1) c1 c2) := by
  intro objs w h
  unfold commonParents at h ⊢
  have hne : getCommonParentsRun objs.commits c1 c2 fuel ≠ .error .outOfFuel := fun hg => by
    simp [hg, WalkErr.toErr] at h
  rw [getCommonParentsRun_mono rfl hne (fuel + 1) (Nat.le_succ fuel)]

variable {cp cp' : Commit → Commit → MW MergingCommit}
  (hcp : ∀ a b, Op.Extends .outOfFuel (cp a b) (cp' a b))
include hcp

theorem extends_mergeCommits (base : Option MergingCommit) (ours theirs : MergingCommit) :
    Op.Extends .outOfFuel (mergeCommits cp base ours theirs)
      (mergeCommits cp' base ours theirs) := by
  unfold mergeCommits
  cases base
  · exact (hcp _ _).bind fun _ => .refl _
  · exact .refl _

theorem extends_createVirtualParent (ps : List Commit) :
    Op.Extends .outOfFuel (createVirtualParent cp ps) (createVirtualParent cp' ps) := by
  unfold createVirtualParent
  split
  · exact (Op.Extends.foldlM (fun _ _ => (extends_mergeCommits hcp _ _ _).bind fun _ => .refl _)
      _).bind fun _ => .refl _
  · exact .refl _

end fuel

/-- A run of `computeParent` that does not run out of fuel is the run with more fuel. -/
theorem extends_computeParent : ∀ (fuel : Nat) (c1 c2 : Commit),
    Op.Extends .outOfFuel (computeParent fuel c1 c2) (computeParent (fuel + 1) c1 c2)
  | 0, _, _ => fun _ _ h => absurd rfl h
  | fuel + 1, c1, c2 => by
    rw [computeParent, computeParent]
    refine (extends_commonParents fuel c1 c2).bind fun ps => ?_
    match ps with
    | [] => exact .refl _
    | [_] => exact .refl _
    | _ :: _ :: _ => exact extends_createVirtualParent (extends_computeParent fuel) _

theorem extends_computeParent_le {fuel fuel' : Nat} (h : fuel ≤ fuel') (c1 c2 : Commit) :
    Op.Extends .outOfFuel (computeParent fuel c1 c2) (computeParent fuel' c1 c2) := by
  induction h with
  | refl => exact .refl _
  | step _ ih => exact ih.trans (extends_computeParent _ c1 c2)

/-- On a commit graph, `computeParent` of two of its commits terminates: past some fuel, every
run from any worktree ends in one outcome, and that outcome is not running out of fuel. -/
theorem computeParent_terminates (objs : Objects) (hg : CommitGraph objs.commits) (c1 c2 : Commit)
    (h1 : c1 ∈ objs.commits) (h2 : c2 ∈ objs.commits) :
    ∃ N, ∀ w, ∃ o : Run Work MergingCommit, o.result ≠ .error .outOfFuel ∧
      ∀ fuel, N ≤ fuel → computeParent fuel c1 c2 objs w = o := by
  obtain ⟨rank, hr⟩ := hg.exists_rank
  obtain ⟨B, hB⟩ := getCommonParents_terminates hg
  let N := B + (rank c1.hash + rank c2.hash + 1)
  have hN := ensures_computeParent hg hr hB _ N c1 c2 h1 h2 (Nat.lt_succ_self _) le_rfl
  exact ⟨N, fun w => ⟨_, (hN w).1, fun fuel hf =>
    extends_computeParent_le hf c1 c2 objs w (hN w).1⟩⟩

/-- The criss-cross of `crossRepo` is a commit graph, and `computeParent` of `main` and `topic`
terminates there, through a virtual base. -/
theorem crossRepo_computeParent_terminates :
    CommitGraph crossRepo.objects.commits ∧ crossMain ∈ crossRepo.objects.commits ∧
      crossTopic ∈ crossRepo.objects.commits ∧
      ∃ N, ∀ w, ∃ o : Run Work MergingCommit, o.result ≠ .error .outOfFuel ∧
        ∀ fuel, N ≤ fuel →
          computeParent fuel crossMain crossTopic crossRepo.objects w = o := by
  have hg : CommitGraph crossRepo.objects.commits :=
    .of_hashOrdered (by decide) (by decide) (by decide)
  exact ⟨hg, by decide, by decide,
    computeParent_terminates crossRepo.objects hg crossMain crossTopic (by decide) (by decide)⟩

end MergeCore
