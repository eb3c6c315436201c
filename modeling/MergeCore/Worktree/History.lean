import MergeCore.Worktree.Stages
import MergeCore.Worktree.Termination

/-!
# Histories a merge terminates on

`Merge` runs the merge-base walk and the recursion of `computeParent` on fuel; running out is
the error `outOfFuel`. The fuel reaches nothing else: `Merge` with more fuel does what it did
wherever it did not run out (`extends_merge_le`). On a repository whose object store is a
commit graph one bound serves every branch: past it `Merge` is one run, whatever the fuel, and
that run does not run out (`merge_terminates`). The two commits `computeParent` starts from are
commits `getCommitObject` found in the store, so the bound of `computeParent_terminates` for the
pair is at most one for the whole store; `EnsuresFrom`, total correctness from the states with
a precondition, carries the store from the start of `nonFastForwardMerge` to that step.

The store stays a commit graph whose commits every reference names (`StoreOk`) over every run
of calls whose `Commit`s are given parents from the store (`storeOk_reachable`): `Merge` and
`AbortMerge` write no object and point references only at commits references named before, and
`Commit` adds one commit under a hash above every hash of the store, on parents the references
or the caller name, and points `HEAD` at it (`CommitGraph.snoc`). So `Merge` terminates on every
repository reached.
-/

namespace MergeCore

/-! ## Total correctness from a precondition -/

namespace Op

section
variable {ρ σ α β : Type} {P : σ → Prop} {e : Err} {x : Op ρ σ α}
  {Q R : α → σ → Prop}

/-- From a state with `P`, `x` does not fail with `e`, and a value it returns satisfies `Q` in
the state it leaves. -/
def EnsuresFrom (P : σ → Prop) (e : Err) (x : Op ρ σ α) (Q : α → σ → Prop) : Prop :=
  ∀ r s, P s → (x r s).result ≠ .error e ∧ ∀ a, (x r s).result = .ok a → Q a (x r s).state

theorem EnsuresFrom.bind {f : α → Op ρ σ β} {Q : β → σ → Prop}
    (hx : EnsuresFrom P e x R)
    (hf : ∀ a, EnsuresFrom (R a) e (f a) Q) : EnsuresFrom P e (x >>= f) Q := by
  intro r s hs
  obtain ⟨hne, hq⟩ := hx r s hs
  cases h : x r s with
  | ok a s' es =>
    have := hf a r s' (by simpa [h] using hq a (by simp [h]))
    simpa [h] using this
  | error e' s' es => simpa [h] using hne

theorem ensuresFrom_pure {a : α} (h : ∀ s, P s → Q a s) :
    EnsuresFrom P e (Pure.pure a : Op ρ σ α) Q := by
  intro _ s hs
  refine ⟨by simp, fun b hb => ?_⟩
  simp only [pure_apply, Run.result_ok, Except.ok.injEq] at hb
  exact hb ▸ h s hs

theorem ensuresFrom_throw {e' : Err} (h : e' ≠ e) : EnsuresFrom P e (throw e' : Op ρ σ α) Q :=
  fun _ _ _ => ⟨by simpa using h, fun _ hb => by simp at hb⟩

/-- A step that keeps `g` and never fails with `e`. -/
theorem EnsuresFrom.mono {P' : σ → Prop} {Q' : α → σ → Prop} (h : EnsuresFrom P e x Q)
    (hp : ∀ s, P' s → P s) (hq : ∀ a s, Q a s → Q' a s) : EnsuresFrom P' e x Q' :=
  fun r s hs => ⟨(h r s (hp s hs)).1, fun a ha => hq a _ ((h r s (hp s hs)).2 a ha)⟩

/-- A fact about the start that does not depend on the state. -/
theorem EnsuresFrom.intro {C : Prop} (h : C → EnsuresFrom P e x Q) :
    EnsuresFrom (fun s => P s ∧ C) e x Q :=
  fun r s hs => h hs.2 r s hs.1

theorem EnsuresFrom.of_keeps {γ : Type} {g : σ → γ} {v : γ} (hk : Keeps g x)
    (hne : ∀ r s, (x r s).result ≠ .error e) :
    EnsuresFrom (fun s => g s = v) e x fun _ s => g s = v :=
  fun r s hs => ⟨hne r s, fun _ _ => (hk r s).trans hs⟩

end

end Op

open Op

/-! ## The steps of a merge never run out -/

section steps
variable {objs : Objects}

/-- The store of a state. -/
abbrev Store (objs : Objects) (s : Repo) : Prop := s.objects = objs

theorem ensuresFrom_liftWork {α : Type} {x : MW α}
    (hx : ∀ w, (x objs w).result ≠ .error .outOfFuel) :
    EnsuresFrom (Store objs) .outOfFuel (liftWork x) fun _ => Store objs :=
  fun () s hs => ⟨by subst hs; simpa using hx s.work, fun _ _ => by simpa using hs⟩

theorem ensuresFrom_getCommitObject (h : Nat) :
    EnsuresFrom (Store objs) .outOfFuel (liftWork (getCommitObject h))
      fun c s => Store objs s ∧ c ∈ objs.commits := by
  intro () s hs
  subst hs
  cases hc : getCommit s.objects.commits h with
  | none => simp [getCommitObject, hc]
  | some c => simpa [getCommitObject, hc, Store] using (getCommit_mem hc).1

theorem keeps_objects_setReference (n : RefName) (h : Nat) :
    Keeps (fun r : Repo => r.objects) (setReference n h) :=
  .update _ fun _ => rfl

theorem ensures_mergeCommits_some {cp : Commit → Commit → MW MergingCommit}
    (p ours theirs : MergingCommit) :
    Op.Ensures objs .outOfFuel (fun _ => True) (mergeCommits cp (some p) ours theirs) :=
  (Op.ensures_pure (Q := fun _ => True) trivial).bind fun _ _ => (ensures_commitTree _).bind
    fun _ _ => (ensures_setIndex _).bind fun _ _ => (ensures_getMergingDiff _ _).bind fun _ _ =>
    (ensures_getMergingDiff _ _).bind fun _ _ => (ensures_compareCommitsChanges _ _).bind
    fun _ _ => Op.ensures_pure trivial

theorem ensures_getCommitObject (h : Nat) :
    Op.Ensures objs .outOfFuel (fun _ => True) (getCommitObject h) :=
  fun w => by unfold getCommitObject; split <;> simp

theorem Ensures.liftWork {α : Type} {e : Err} {Q : α → Prop} {x : MW α}
    (hx : ∀ objs, Op.Ensures objs e Q x) : Op.Ensures () e Q (liftWork x) :=
  fun s => by simpa using hx s.objects s.work

/-- `Reset` fails only on a missing commit or tree. -/
theorem ensures_reset (c : Nat) : Op.Ensures () .outOfFuel (fun _ => True) (reset c) :=
  (Ensures.liftWork fun _ => (ensures_getCommitObject c).bind fun _ _ => ensures_commitTree _).bind
    fun _ _ => (show Op.Ensures () .outOfFuel (fun _ => True) headReference from
      fun _ => ⟨by simp [headReference], by simp⟩).bind fun _ _ => Op.ensures_update.bind
    fun _ _ => (Ensures.liftWork fun _ => ensures_setIndex _).bind fun _ _ => Op.ensures_update

theorem reads_headReference : Reads headReference := fun _ _ => ⟨rfl, rfl⟩

theorem reads_reference (b : String) : Reads (reference b) := fun _ _ => by
  unfold reference; split <;> exact ⟨rfl, rfl⟩

theorem keeps_objects_updateHEAD (c : Nat) : Keeps (fun r : Repo => r.objects) (updateHEAD c) :=
  reads_headReference.keeps.bind fun _ => keeps_objects_setReference _ _

theorem keeps_objects_reset (c : Nat) : Keeps (fun r : Repo => r.objects) (reset c) :=
  (keeps_objects_liftWork _).bind fun _ => reads_headReference.keeps.bind fun _ =>
    (keeps_objects_setReference _ _).bind fun _ => (keeps_objects_liftWork _).bind fun _ =>
    .update _ fun _ => rfl

/-- `nonFastForwardMerge` runs out only in `computeParent`, on two commits of the store. -/
theorem ensuresFrom_nonFastForwardMerge {fuel : Nat}
    (hcp : ∀ c1 ∈ objs.commits, ∀ c2 ∈ objs.commits, ∀ w,
      (computeParent fuel c1 c2 objs w).result ≠ .error .outOfFuel)
    (ours theirs : Nat) (b : String) :
    EnsuresFrom (Store objs) .outOfFuel (nonFastForwardMerge fuel ours theirs b)
      fun _ _ => True := by
  have hkeeps : ∀ {α : Type} {x : MR α}, Keeps (fun r : Repo => r.objects) x →
      (∀ s, (x () s).result ≠ .error .outOfFuel) →
      EnsuresFrom (Store objs) .outOfFuel x fun _ => Store objs :=
    fun hk hne => EnsuresFrom.of_keeps hk fun () s => hne s
  have hthrowIf : ∀ (c : Bool) (e : Err), e ≠ .outOfFuel →
      EnsuresFrom (Store objs) .outOfFuel (throwIf c e : MR Unit) fun _ => Store objs :=
    fun c e he => hkeeps (Reads.throwIf c e).keeps fun s => by cases c <;> simp [he]
  unfold nonFastForwardMerge
  refine (hkeeps reads_mergeHead.keeps fun _ => by simp [mergeHead]).bind fun mh =>
    (hthrowIf _ _ (by decide)).bind fun _ => ?_
  refine (hkeeps (Keeps.tryCatch (reads_hasUncommittedFiles _).keeps fun _ => .pure _)
    fun s => ?_).bind fun u => (hthrowIf _ _ (by decide)).bind fun _ => ?_
  · obtain ⟨u, hu⟩ := uncommitted_guard ours s
    simp [hu]
  refine (ensuresFrom_getCommitObject ours).bind fun oursC => EnsuresFrom.intro fun h1 =>
    ((ensuresFrom_getCommitObject theirs).mono (fun _ h => h) fun _ _ h => h).bind fun theirsC =>
    EnsuresFrom.intro fun h2 => ?_
  refine (ensuresFrom_liftWork (hcp oursC h1 theirsC h2)).bind fun p =>
    (hkeeps (keeps_objects_setReference _ _) fun _ => by simp [setReference]).bind fun _ =>
    (hkeeps (keeps_objects_setReference _ _) fun _ => by simp [setReference]).bind fun _ =>
    (ensuresFrom_liftWork fun w => (ensures_mergeCommits_some _ _ _ w).1).bind fun ⟨_, res⟩ =>
    (hkeeps (keeps_objects_logMergeConflicts res b) fun s => ?_).bind fun ⟨c, msg⟩ => ?_
  · obtain ⟨c, msg, m, h⟩ := logMergeConflicts_apply res b s
    simp [h]
  dsimp only
  split <;> exact ensuresFrom_throw (by simp)

theorem ensuresFrom_merge {fuel : Nat}
    (hcp : ∀ c1 ∈ objs.commits, ∀ c2 ∈ objs.commits, ∀ w,
      (computeParent fuel c1 c2 objs w).result ≠ .error .outOfFuel) (b : String) :
    EnsuresFrom (Store objs) .outOfFuel (merge fuel b) fun _ _ => True := by
  have hkeeps : ∀ {α : Type} {x : MR α}, Keeps (fun r : Repo => r.objects) x →
      (∀ s, (x () s).result ≠ .error .outOfFuel) →
      EnsuresFrom (Store objs) .outOfFuel x fun _ => Store objs :=
    fun hk hne => EnsuresFrom.of_keeps hk fun () s => hne s
  unfold merge
  refine (hkeeps reads_head.keeps fun s => ?_).bind fun o =>
    (hkeeps (reads_reference b).keeps fun s => ?_).bind fun t =>
    (hkeeps (show Reads (isFastForward o t) from fun _ _ => ⟨rfl, rfl⟩).keeps
      fun _ => by simp [isFastForward]).bind fun ff => ?_
  · unfold head; split <;> simp
  · unfold reference; split <;> simp
  dsimp only
  split
  · exact (hkeeps (keeps_objects_updateHEAD t) fun s => by simp [updateHEAD_apply]).bind fun _ =>
      (hkeeps (keeps_objects_reset t) fun s => (ensures_reset t s).1).bind fun _ =>
      ensuresFrom_pure (Q := fun _ _ => True) fun _ _ => trivial
  · exact (ensuresFrom_nonFastForwardMerge hcp o t b).bind fun _ =>
      (ensuresFrom_pure (Q := fun _ _ => True) fun _ _ => trivial).bind fun _ =>
      ensuresFrom_pure fun _ _ => trivial

end steps

/-! ## More fuel, the same merge -/

theorem Extends.liftWork {α : Type} {e : Err} {x y : MW α} (h : Op.Extends e x y) :
    Op.Extends e (liftWork x) (liftWork y) := fun () s hne => by
  rw [result_liftWork] at hne
  simp only [liftWork_apply, h s.objects s.work hne]

theorem extends_nonFastForwardMerge (fuel ours theirs : Nat) (b : String) :
    Op.Extends .outOfFuel (nonFastForwardMerge fuel ours theirs b)
      (nonFastForwardMerge (fuel + 1) ours theirs b) := by
  unfold nonFastForwardMerge
  exact (Extends.refl _).bind fun _ => (Extends.refl _).bind fun _ => (Extends.refl _).bind fun _ =>
    (Extends.refl _).bind fun _ => (Extends.refl _).bind fun _ => (Extends.refl _).bind fun _ =>
    (Extends.liftWork (extends_computeParent fuel _ _)).bind fun _ => (Extends.refl _).bind fun _ =>
    (Extends.refl _).bind fun _ =>
    (Extends.liftWork (extends_mergeCommits (extends_computeParent fuel) _ _ _)).bind fun _ =>
    .refl _

theorem extends_merge (fuel : Nat) (b : String) :
    Op.Extends .outOfFuel (merge fuel b) (merge (fuel + 1) b) := by
  unfold merge
  refine (Extends.refl _).bind fun o => (Extends.refl _).bind fun t =>
    (Extends.refl _).bind fun _ => ?_
  dsimp only
  split
  · exact .refl _
  · exact (extends_nonFastForwardMerge fuel o t b).bind fun _ => .refl _

theorem extends_merge_le {fuel fuel' : Nat} (h : fuel ≤ fuel') (b : String) :
    Op.Extends .outOfFuel (merge fuel b) (merge fuel' b) := by
  induction h with
  | refl => exact .refl _
  | step _ ih => exact ih.trans (extends_merge _ b)

/-! ## `Merge` terminates on a commit graph -/

/-- **On a repository whose store is a commit graph, `Merge` terminates**: past one bound, for
every branch, `Merge` is one run whatever the fuel, and that run does not run out. -/
theorem merge_terminates {r : Repo} (hg : CommitGraph r.objects.commits) :
    ∃ N, ∀ b fuel, N ≤ fuel →
      (merge fuel b () r).result ≠ .error .outOfFuel ∧ merge fuel b () r = merge N b () r := by
  obtain ⟨rank, hr⟩ := hg.exists_rank
  obtain ⟨B, hB⟩ := getCommonParents_terminates hg
  let n := 2 * (r.objects.commits.map fun c => rank c.hash).sum + 1
  have hcp : ∀ fuel, B + n ≤ fuel → ∀ c1 ∈ r.objects.commits, ∀ c2 ∈ r.objects.commits, ∀ w,
      (computeParent fuel c1 c2 r.objects w).result ≠ .error .outOfFuel := by
    intro fuel hf c1 h1 c2 h2 w
    have hc1 : rank c1.hash ≤ _ :=
      List.le_sum_of_mem (List.mem_map_of_mem (fun c => rank c.hash) h1)
    have hc2 : rank c2.hash ≤ _ :=
      List.le_sum_of_mem (List.mem_map_of_mem (fun c => rank c.hash) h2)
    exact (ensures_computeParent hg hr hB n fuel c1 c2 h1 h2 (by omega) hf w).1
  refine ⟨B + n, fun b fuel hf => ⟨(ensuresFrom_merge (hcp fuel hf) b () r rfl).1, ?_⟩⟩
  exact extends_merge_le hf b () r (ensuresFrom_merge (hcp _ le_rfl) b () r rfl).1

theorem sideRepo_merge_terminates :
    CommitGraph sideRepo.objects.commits ∧ ∃ N, ∀ b fuel, N ≤ fuel →
      (merge fuel b () sideRepo).result ≠ .error .outOfFuel ∧
        merge fuel b () sideRepo = merge N b () sideRepo := by
  have hg : CommitGraph sideRepo.objects.commits :=
    .of_hashOrdered (by decide) (by decide) (by decide)
  exact ⟨hg, merge_terminates hg⟩

/-! ## The references name commits of the store -/

/-- The commits the references name: `HEAD` when detached, the branches, `MERGE_HEAD` and
`ORIG_HEAD`. -/
def Refs.hashes (refs : Refs) : List Nat :=
  (match refs.head with
    | .hash h => [h]
    | .symbolic _ => []) ++ refs.branches.map Prod.snd ++ refs.mergeHead.toList ++
    refs.origHead.toList

theorem Refs.mem_hashes {refs : Refs} {x : Nat} : x ∈ refs.hashes ↔
    refs.head = .hash x ∨ x ∈ refs.branches.map Prod.snd ∨ refs.mergeHead = some x ∨
      refs.origHead = some x := by
  unfold Refs.hashes
  cases refs.head <;> simp [eq_comm, or_assoc]

theorem mem_snd_assocSet {κ ν : Type} [DecidableEq κ] {l : List (κ × ν)} {k : κ} {v x : ν}
    (h : x ∈ (assocSet l k v).map Prod.snd) : x ∈ l.map Prod.snd ∨ x = v := by
  induction l with
  | nil => simp_all [assocSet]
  | cons kv l ih =>
    unfold assocSet at h
    split at h
    · simp only [List.map_cons, List.mem_cons] at h ⊢
      rcases h with h | h <;> simp [h]
    · simp only [List.map_cons, List.mem_cons] at h ⊢
      rcases h with h | h
      · simp [h]
      · rcases ih h with h | h <;> simp [h]

theorem mem_snd_of_lookup {κ ν : Type} [DecidableEq κ] {l : List (κ × ν)} {k : κ} {v : ν}
    (h : l.lookup k = some v) : v ∈ l.map Prod.snd := by
  induction l with
  | nil => simp at h
  | cons kv l ih =>
    obtain ⟨k', v'⟩ := kv
    by_cases hk : k = k'
    · subst hk
      simp only [List.lookup_cons_self, Option.some.injEq] at h
      simp [h]
    · have hk' : (k == k') = false := by simpa using hk
      rw [List.lookup_cons, hk'] at h
      exact List.mem_cons_of_mem _ (ih h)

theorem Refs.headHash_mem {refs : Refs} {x : Nat} (h : refs.headHash = some x) :
    x ∈ refs.hashes := by
  unfold Refs.headHash at h
  refine Refs.mem_hashes.2 ?_
  split at h
  · exact .inr (.inl (mem_snd_of_lookup h))
  · cases h; exact .inl ‹_›

theorem Refs.hashes_set {refs : Refs} {n : RefName} {h x : Nat} (hx : x ∈ (refs.set n h).hashes) :
    x ∈ refs.hashes ∨ x = h := by
  rw [Refs.mem_hashes] at hx
  rw [Refs.mem_hashes]
  cases n <;> simp only [Refs.set] at hx
  · rcases hx with hx | hx | hx | hx
    · cases hx; exact .inr rfl
    all_goals tauto
  · rcases hx with hx | hx | hx | hx
    · tauto
    · rcases mem_snd_assocSet hx with hx | hx <;> tauto
    all_goals tauto
  · rcases hx with hx | hx | hx | hx
    · tauto
    · tauto
    · cases hx; exact .inr rfl
    · tauto
  · rcases hx with hx | hx | hx | hx
    · tauto
    · tauto
    · tauto
    · cases hx; exact .inr rfl

/-! ## What each call does to the store -/

/-- A state the continuation keeps a property of, after a step that keeps it. -/
theorem Op.state_bind_of {ρ σ α β : Type} {P : σ → Prop} {x : Op ρ σ α}
    {f : α → Op ρ σ β}
    {r : ρ} {s : σ} (hx : P (x r s).state) (hf : ∀ a s', P s' → P (f a r s').state) :
    P ((x >>= f) r s).state := by
  cases h : x r s with
  | ok a s' es => simpa [h] using hf a s' (by simpa [h] using hx)
  | error e s' es => simpa [h] using hx

/-- `Merge` writes no object, and points references only at commits references named. -/
theorem merge_store (fuel : Nat) (b : String) (r : Repo) :
    (merge fuel b () r).state.objects = r.objects ∧
      ∀ x ∈ (merge fuel b () r).state.refs.hashes, x ∈ r.refs.hashes := by
  unfold merge
  rcases hh : r.refs.headHash with _ | o
  · simp [head, hh]
  rcases hb : r.refs.branches.lookup b with _ | t
  · simp [head, hh, reference, hb]
  have ho := Refs.headHash_mem hh
  have ht : t ∈ r.refs.hashes := Refs.mem_hashes.2 (.inr (.inl (mem_snd_of_lookup hb)))
  have hpure : ∀ _ : Unit, Op.Reads (Pure.pure "" : MR String) := fun _ => .pure _
  rw [Op.bind_of_ok (show head () r = .ok o r [] by simp [head, hh]), Run.after_nil,
    Op.bind_of_ok (show reference b () r = .ok t r [] by simp [reference, hb]), Run.after_nil,
    Op.bind_of_ok (show isFastForward o t () r = .ok _ r [] from rfl), Run.after_nil]
  cases hf : reachesWithin r.objects.commits (r.objects.commits.length + 1) [t] o
  · simp only [hf, if_neg Bool.false_ne_true,
      Op.Reads.bind_state_eq fun _ => .bind (.pure _) hpure]
    refine ⟨keeps_objects_nonFastForwardMerge fuel o t b () r, ?_⟩
    rcases nonFastForwardMerge_refs fuel o t b r with h | ⟨-, msg, h⟩ <;> rw [h]
    · exact fun x hx => hx
    · intro x hx
      rcases Refs.mem_hashes.1 hx with hx | hx | hx | hx
      · exact Refs.mem_hashes.2 (.inl hx)
      · exact Refs.mem_hashes.2 (.inr (.inl hx))
      · cases hx; exact ht
      · cases hx; exact ho
  · simp only [hf, if_true, Op.bind_of_ok (updateHEAD_apply t r), Run.state_after,
      Op.Reads.bind_state_eq hpure]
    refine ⟨keeps_objects_reset t () _, fun x hx => ?_⟩
    rcases reset_refs t { r with refs := r.refs.set r.refs.head.target t } with h | h <;>
      rw [h] at hx
    · rcases Refs.hashes_set hx with hx | rfl <;> assumption
    · rcases Refs.hashes_set hx with hx | rfl
      · rcases Refs.hashes_set hx with hx | rfl <;> assumption
      · exact ht

theorem keeps_objects_abortMerge : Keeps (fun r : Repo => r.objects) abortMerge :=
  (show Keeps (fun r : Repo => r.objects) removeMergeHead from fun () r => by
    rw [removeMergeHead_apply]; rfl).bind fun _ =>
    (show Keeps (fun r : Repo => r.objects) removeMergeMsg from .update _ fun _ => rfl).ignore.bind
    fun _ => reads_origHead.keeps.bind fun o => (keeps_objects_reset o).bind fun _ =>
    (show Keeps (fun r : Repo => r.objects) removeOrigHead from fun () r => by
      rw [removeOrigHead_apply]; rfl).ignore.bind fun _ => keeps_objects_liftWork _

/-- `AbortMerge` writes no object, and points references only at commits references named. -/
theorem abortMerge_store (r : Repo) :
    (abortMerge () r).state.objects = r.objects ∧
      ∀ x ∈ (abortMerge () r).state.refs.hashes, x ∈ r.refs.hashes := by
  refine ⟨keeps_objects_abortMerge () r, ?_⟩
  let P : Repo → Prop := fun s => ∀ x ∈ s.refs.hashes, x ∈ r.refs.hashes
  show P _
  unfold abortMerge
  refine Op.state_bind_of (P := P) (fun x hx => ?_) fun _ s1 h1 =>
    Op.state_bind_of (P := P) h1 fun _ s2 h2 => ?_
  · rw [removeMergeHead_apply] at hx
    rcases Refs.mem_hashes.1 hx with hx | hx | hx | hx
    · exact Refs.mem_hashes.2 (.inl hx)
    · exact Refs.mem_hashes.2 (.inr (.inl hx))
    · cases hx
    · exact Refs.mem_hashes.2 (.inr (.inr (.inr hx)))
  rcases ho : s2.refs.origHead with _ | o
  · simpa [origHead, ho] using h2
  have hor : o ∈ r.refs.hashes := h2 o (Refs.mem_hashes.2 (.inr (.inr (.inr ho))))
  rw [Op.bind_of_ok (origHead_apply ho), Run.state_after]
  refine Op.state_bind_of (P := P) (fun x hx => ?_) fun _ s3 h3 =>
    Op.state_bind_of (P := P) (fun x hx => ?_) fun _ s4 h4 => by simpa [P] using h4
  · rcases reset_refs o s2 with h | h <;> rw [h] at hx
    · exact h2 x hx
    · rcases Refs.hashes_set hx with hx | rfl
      · exact h2 x hx
      · exact hor
  · rw [Op.ignore_apply, Run.state_ok, removeOrigHead_apply] at hx
    rcases Refs.mem_hashes.1 hx with hx | hx | hx | hx
    · exact h3 x (Refs.mem_hashes.2 (.inl hx))
    · exact h3 x (Refs.mem_hashes.2 (.inr (.inl hx)))
    · exact h3 x (Refs.mem_hashes.2 (.inr (.inr (.inl hx))))
    · cases hx

theorem commitParents_sub (parents : List Nat) (s : Repo) :
    ∃ ps, commitParents parents () s = .ok ps s [] ∧
      ∀ h ∈ ps, h ∈ parents ∨ h ∈ s.refs.hashes := by
  unfold commitParents
  cases hm : s.refs.mergeHead with
  | none => exact ⟨parents, by simp [mergeHead, hm], fun h hh => .inl hh⟩
  | some m =>
    have hmm : m ∈ s.refs.hashes := Refs.mem_hashes.2 (.inr (.inr (.inl hm)))
    cases hh : s.refs.headHash with
    | none =>
      refine ⟨parents ++ [m], by simp [mergeHead, hm, orNotFound, head, hh], fun h hp => ?_⟩
      rcases List.mem_append.1 hp with hp | hp
      · exact .inl hp
      · simp only [List.mem_singleton] at hp; exact .inr (hp ▸ hmm)
    | some o =>
      refine ⟨[o, m], by simp [mergeHead, hm, orNotFound, head, hh], fun h hp => .inr ?_⟩
      simp only [List.mem_cons, List.mem_singleton, List.not_mem_nil, or_false] at hp
      rcases hp with rfl | rfl
      · exact Refs.headHash_mem hh
      · exact hmm

theorem validateParents_sub (ps : List Nat) (s : Repo) :
    ∃ ps', validateParents ps () s = .ok ps' s [] ∧ ∀ h ∈ ps', h ∈ ps ∨ h ∈ s.refs.hashes := by
  unfold validateParents
  split
  · cases hh : s.refs.headHash with
    | none => exact ⟨[], by simp [orNotFound, head, hh], by simp⟩
    | some o => exact ⟨[o], by simp [orNotFound, head, hh], by simp [Refs.headHash_mem hh]⟩
  · exact ⟨ps, rfl, fun h hh => .inl hh⟩

theorem le_foldl_max (l : List Commit) (m : Nat) : m ≤ l.foldl (fun m c => max m c.hash) m := by
  induction l generalizing m with
  | nil => exact le_rfl
  | cons c l ih => exact (le_max_left m c.hash).trans (ih _)

/-- The hash `buildCommitObject` gives a new commit is above every hash of the store. -/
theorem hash_lt_fresh {l : List Commit} {x : Commit} (hx : x ∈ l) :
    x.hash < l.foldl (fun m c => max m c.hash) 0 + 1 := by
  suffices ∀ m, x.hash ≤ l.foldl (fun m c => max m c.hash) m from Nat.lt_succ_of_le (this 0)
  induction l with
  | nil => cases hx
  | cons c l ih =>
    intro m
    rcases List.mem_cons.1 hx with rfl | hx
    · exact (le_max_right m x.hash).trans (le_foldl_max l _)
    · exact ih hx _

/-- `Commit` changes nothing, or adds one commit `c` above every hash of the store, on parents
the caller or the references name, and points references only at `c` and at commits they
named. -/
theorem commit_store (parents : List Nat) (authorWhen : Int) (s : Repo) :
    (commit parents authorWhen () s).state = s ∨
      ∃ c ps, (∀ x ∈ s.objects.commits, x.hash < c) ∧
        (∀ h ∈ ps, h ∈ parents ∨ h ∈ s.refs.hashes) ∧
        (commit parents authorWhen () s).state.objects.commits =
          s.objects.commits ++ [⟨c, authorWhen, ps⟩] ∧
        ∀ x ∈ (commit parents authorWhen () s).state.refs.hashes, x ∈ s.refs.hashes ∨ x = c := by
  obtain ⟨ps, hps, hsub⟩ := commitParents_sub parents s
  obtain ⟨ps', hps', hsub'⟩ := validateParents_sub ps s
  unfold commit
  rw [Op.bind_of_ok hps, Run.after_nil, Op.bind_of_ok hps', Run.after_nil]
  by_cases hu : s.work.index.foldl (fun m e => if e.stage = .merged then m
      else assocSet m e.name (((m.lookup e.name).getD []) ++ [e.stage])) [] = []
  · right
    refine ⟨s.objects.commits.foldl (fun m c => max m c.hash) 0 + 1, ps',
      fun x hx => hash_lt_fresh hx, fun h hh => ?_, ?_⟩
    · rcases hsub' h hh with hh | hh
      · exact hsub h hh
      · exact .inr hh
    simp only [bind_apply, liftWork_apply, getUnmergedFiles, index, hu, throwIf_apply]
    simp only [ne_eq, not_true_eq_false, decide_False, Bool.false_eq_true, if_false, Run.after_ok,
      buildCommitObject, updateHEAD_apply, removeMergeHead_apply, ignore_apply, removeMergeMsg,
      update_apply, Run.state_ok, Run.events_ok, removeOrigHead_apply, clearBlobs, pure_apply,
      Run.state_after, true_and]
    intro x hx
    rcases Refs.mem_hashes.1 hx with hx | hx | hx | hx
    · exact (Refs.hashes_set (Refs.mem_hashes.2 (.inl hx))).imp id id
    · exact (Refs.hashes_set (Refs.mem_hashes.2 (.inr (.inl hx)))).imp id id
    · cases hx
    · cases hx
  · left
    simp [liftWork_apply, getUnmergedFiles, index, hu]

/-! ## A new commit keeps the commit graph -/

section snoc
variable {store : List Commit} {n : Commit}

/-- Within the store grown by `n`, a walk from `a` that no commit leads into `n` from stays in
the store. -/
theorem Reaches.of_snoc (hn : ∀ y ∈ store, n.hash ∉ y.parentHashes) {a d : Commit}
    (h : Reaches (store ++ [n]) a d) (ha : n.hash ∉ a.parentHashes) : Reaches store a d := by
  induction h with
  | refl c => exact .refl c
  | parent hp hh _ ih =>
    have hpn : _ ≠ n := fun h => ha (h ▸ hh)
    have hp' := (List.mem_append.1 hp).resolve_right fun h => hpn (List.mem_singleton.1 h)
    exact .parent hp' hh (ih (hn _ hp'))

theorem Reaches.eq_or_mem {a d : Commit} (h : Reaches store a d) : a = d ∨ d ∈ store := by
  induction h with
  | refl => exact .inl rfl
  | parent hp _ _ ih => exact .inr (ih.elim (fun h => h ▸ hp) id)

/-- A commit above every hash of a commit graph, on parents of the graph, extends it. -/
theorem CommitGraph.snoc (hg : CommitGraph store) (hfresh : ∀ x ∈ store, x.hash < n.hash)
    (hp : ∀ h ∈ n.parentHashes, ∃ p ∈ store, p.hash = h) : CommitGraph (store ++ [n]) := by
  have hpar : ∀ y : Commit, (∀ h ∈ y.parentHashes, ∃ p ∈ store, p.hash = h) →
      n.hash ∉ y.parentHashes := fun y hy hh => by
    obtain ⟨p, hp, hpe⟩ := hy _ hh
    exact absurd (hfresh p hp) (by omega)
  have hn : ∀ y ∈ store, n.hash ∉ y.parentHashes := fun y hy => hpar y (hg.closed y hy)
  refine ⟨?_, fun c hc h hh => ?_, fun c hc p hp' hh hr => ?_⟩
  · rw [List.map_append, List.nodup_append]
    refine ⟨hg.nodup, List.nodup_singleton _, fun x hx hy => ?_⟩
    obtain ⟨y, hy', rfl⟩ := List.mem_map.1 hx
    simp only [List.map_cons, List.map_nil, List.mem_singleton] at hy
    exact absurd (hfresh y hy') (by omega)
  · rcases List.mem_append.1 hc with hc | hc
    · obtain ⟨p, hp, rfl⟩ := hg.closed c hc h hh
      exact ⟨p, List.mem_append_left _ hp, rfl⟩
    · obtain rfl := List.mem_singleton.1 hc
      obtain ⟨p, hp, rfl⟩ := hp h hh
      exact ⟨p, List.mem_append_left _ hp, rfl⟩
  · have hpn : p ≠ n := by
      rintro rfl
      rcases List.mem_append.1 hc with hc | hc
      · exact hn c hc hh
      · obtain rfl := List.mem_singleton.1 hc
        exact hpar _ hp hh
    have hp'' := (List.mem_append.1 hp').resolve_right fun h => hpn (List.mem_singleton.1 h)
    have hr' := hr.of_snoc hn (hn p hp'')
    rcases List.mem_append.1 hc with hc | hc
    · exact hg.acyclic c hc p hp'' hh hr'
    · obtain rfl := List.mem_singleton.1 hc
      rcases hr'.eq_or_mem with h | h
      · exact hpn h
      · exact absurd (hfresh _ h) (Nat.lt_irrefl _)

end snoc

/-! ## The store over runs -/

/-- The store is a commit graph, and every commit the references name is in it. -/
structure StoreOk (r : Repo) : Prop where
  graph : CommitGraph r.objects.commits
  refs : ∀ h ∈ r.refs.hashes, ∃ c ∈ r.objects.commits, c.hash = h

/-- One call of `Merge`, `AbortMerge` or `Commit`, its result dropped, where the parents a
`Commit` is given are commits of the store. -/
inductive StoreCall : Repo → Repo → Prop
  | merge (fuel : Nat) (b : String) (r : Repo) : StoreCall r (merge fuel b () r).state
  | abortMerge (r : Repo) : StoreCall r (abortMerge () r).state
  | commit (parents : List Nat) (authorWhen : Int) (r : Repo)
      (hp : ∀ h ∈ parents, ∃ c ∈ r.objects.commits, c.hash = h) :
      StoreCall r (commit parents authorWhen () r).state

theorem storeOk_call {r r' : Repo} (h : StoreCall r r') (hs : StoreOk r) : StoreOk r' := by
  cases h with
  | merge fuel b r =>
    obtain ⟨ho, hr⟩ := merge_store fuel b r
    exact ⟨ho ▸ hs.graph, fun x hx => ho ▸ hs.refs x (hr x hx)⟩
  | abortMerge r =>
    obtain ⟨ho, hr⟩ := abortMerge_store r
    exact ⟨ho ▸ hs.graph, fun x hx => ho ▸ hs.refs x (hr x hx)⟩
  | commit parents authorWhen r hp =>
    rcases commit_store parents authorWhen r with h | ⟨c, ps, hfresh, hps, hobjs, hrefs⟩
    · rwa [h]
    refine ⟨hobjs ▸ hs.graph.snoc hfresh fun x hx => (hps x hx).elim (hp x) (hs.refs x),
      fun x hx => ?_⟩
    rw [hobjs]
    rcases hrefs x hx with hx | rfl
    · obtain ⟨c', hc', rfl⟩ := hs.refs x hx
      exact ⟨c', List.mem_append_left _ hc', rfl⟩
    · exact ⟨_, List.mem_append_right _ (List.mem_singleton_self _), rfl⟩

/-- **Every run of calls keeps the store a commit graph whose commits the references name**,
so `Merge` terminates on every repository reached (`merge_terminates`). -/
theorem storeOk_reachable {r r' : Repo} (h0 : StoreOk r)
    (hr : Relation.ReflTransGen StoreCall r r') : StoreOk r' := by
  induction hr with
  | refl => exact h0
  | tail _ step ih => exact storeOk_call step ih

/-- Merging `topic` into `sideRepo` and committing the merge keeps the store well formed. -/
theorem sideRepo_storeOk_reachable :
    StoreOk sideRepo ∧
      Relation.ReflTransGen StoreCall sideRepo
        (commit [] 0 () (merge 20 "topic" () sideRepo).state).state ∧
      StoreOk (commit [] 0 () (merge 20 "topic" () sideRepo).state).state := by
  have h0 : StoreOk sideRepo := ⟨.of_hashOrdered (by decide) (by decide) (by decide), by decide⟩
  have hr : Relation.ReflTransGen StoreCall sideRepo
      (commit [] 0 () (merge 20 "topic" () sideRepo).state).state :=
    .tail (.single (.merge 20 "topic" sideRepo)) (.commit [] 0 _ (by simp))
  exact ⟨h0, hr, storeOk_reachable h0 hr⟩

end MergeCore
