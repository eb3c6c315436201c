import MergeCore.Worktree.Merge

/-!
# What the worktree's methods leave alone

`Op.Reads x`: `x` changes no state and writes nothing. `Op.Keeps g x`: `x` leaves `g` of the
state as it found it, whatever it returns. Both are closed under the monad's combinators, so
the frame of a function of the code follows from the frames of what it calls.

The merge's own functions cannot reach the references or the object store: they run in `MW`,
whose state is the worktree's part, and `liftWork` leaves the rest of the repository as it is
(`state_liftWork`). What is left is which references the worktree's methods write:
`nonFastForwardMerge` sets `MERGE_HEAD` and `ORIG_HEAD` together or neither
(`nonFastForwardMerge_refs`), `updateHEAD` and `reset` move `HEAD` or its branch and nothing
else, `AbortMerge` always removes `MERGE_HEAD`, and `Commit` removes it once it has moved
`HEAD`.
-/

namespace MergeCore

namespace Op

variable {ρ σ α β γ : Type}

/-- `x` changes nothing and writes nothing. -/
def Reads (x : Op ρ σ α) : Prop := ∀ r s, (x r s).state = s ∧ (x r s).events = []

/-- `x` leaves `g` of the state as it found it. -/
def Keeps (g : σ → γ) (x : Op ρ σ α) : Prop := ∀ r s, g (x r s).state = g s

variable {x : Op ρ σ α} {f : α → Op ρ σ β} {g : σ → γ}

theorem Reads.pure (a : α) : Reads (Pure.pure a : Op ρ σ α) := fun _ _ => ⟨rfl, rfl⟩

theorem Reads.throw (e : Err) : Reads (throw e : Op ρ σ α) := fun _ _ => ⟨rfl, rfl⟩

theorem Reads.bind (hx : Reads x) (hf : ∀ a, Reads (f a)) : Reads (x >>= f) := by
  intro r s
  have h := hx r s
  cases hr : x r s with
  | ok a s' es =>
    simp only [hr, Run.state_ok, Run.events_ok] at h
    obtain ⟨rfl, rfl⟩ := h
    simpa [hr] using hf a r s'
  | error e s' es => simpa [hr] using h

theorem Reads.tryCatch {h : Err → Op ρ σ α} (hx : Reads x) (hh : ∀ e, Reads (h e)) :
    Reads (MonadExcept.tryCatch x h : Op ρ σ α) := by
  intro r s
  have hs := hx r s
  cases hr : x r s with
  | ok a s' es => simpa [hr] using hs
  | error e s' es =>
    simp only [hr, Run.state_error, Run.events_error] at hs
    obtain ⟨rfl, rfl⟩ := hs
    simpa [hr] using hh e r s'

theorem Reads.keeps (hx : Reads x) : Keeps g x := fun r s => by rw [(hx r s).1]

/-- A computation that only reads returns from the state it started in, with no writes. -/
theorem Reads.eq (hx : Reads x) (r : ρ) (s : σ) :
    (∃ a, x r s = .ok a s []) ∨ ∃ e, x r s = .error e s [] := by
  have h := hx r s
  cases hr : x r s with
  | ok a s' es =>
    simp only [hr, Run.state_ok, Run.events_ok] at h
    exact .inl ⟨a, by rw [h.1, h.2]⟩
  | error e s' es =>
    simp only [hr, Run.state_error, Run.events_error] at h
    exact .inr ⟨e, by rw [h.1, h.2]⟩

/-- After a computation that only reads, the run is the continuation's, or an error that left
the state as it was. -/
theorem Reads.bind_state {P : σ → Prop} (hx : Reads x) {r : ρ} {s : σ} (hs : P s)
    (hf : ∀ a, P (f a r s).state) : P ((x >>= f) r s).state := by
  rcases hx.eq r s with ⟨a, h⟩ | ⟨e, h⟩ <;> simp [h, hs, hf]

/-- A continuation that only reads leaves the state where the first computation left it. -/
theorem Reads.bind_state_eq (hf : ∀ a, Reads (f a)) (r : ρ) (s : σ) :
    ((x >>= f) r s).state = (x r s).state := by
  cases h : x r s <;> simp [h, (hf _ _ _).1]

theorem Reads.throwIf (c : Bool) (e : Err) : Reads (Op.throwIf c e : Op ρ σ Unit) := by
  intro _ _; unfold Op.throwIf; split <;> exact ⟨rfl, rfl⟩

theorem Keeps.pure (a : α) : Keeps g (Pure.pure a : Op ρ σ α) := (Reads.pure a).keeps

theorem Keeps.throw (e : Err) : Keeps g (throw e : Op ρ σ α) := (Reads.throw e).keeps

theorem Keeps.bind (hx : Keeps g x) (hf : ∀ a, Keeps g (f a)) : Keeps g (x >>= f) := by
  intro r s
  have h := hx r s
  cases hr : x r s with
  | ok a s' es => simp only [hr, Run.state_ok] at h; simpa [hr, h] using hf a r s'
  | error e s' es => simpa [hr] using h

theorem Keeps.tryCatch {h : Err → Op ρ σ α} (hx : Keeps g x) (hh : ∀ e, Keeps g (h e)) :
    Keeps g (MonadExcept.tryCatch x h : Op ρ σ α) := by
  intro r s
  have hs := hx r s
  cases hr : x r s with
  | ok a s' es => simpa [hr] using hs
  | error e s' es => simp only [hr, Run.state_error] at hs; simpa [hr, hs] using hh e r s'

/-- A continuation that keeps `g` leaves it as the first computation left it. -/
theorem Keeps.bind_state (hf : ∀ a, Keeps g (f a)) (r : ρ) (s : σ) :
    g ((x >>= f) r s).state = g (x r s).state := by
  cases h : x r s <;> simp [h, hf _ r _]

theorem Keeps.ignore (hx : Keeps g x) : Keeps g (ignore x) := fun r s => hx r s

theorem Keeps.update {u : σ → σ} (es : List Event) (hu : ∀ s, g (u s) = g s) :
    Keeps g (update u es : Op ρ σ Unit) := fun _ s => hu s

end Op

open Op

/-! ## Reads -/

theorem Op.Reads.liftWork {α : Type} {x : MW α} (hx : Reads x) : Reads (liftWork x) := by
  rintro ⟨⟩ s
  obtain ⟨h1, h2⟩ := hx s.objects s.work
  simp [h1, h2]

theorem keeps_refs_liftWork {α : Type} (x : MW α) : Keeps (·.refs) (liftWork x) := by
  rintro ⟨⟩ s
  simp

theorem reads_getCommitObject (h : Nat) : Reads (getCommitObject h) := by
  intro _ _; unfold getCommitObject; split <;> simp

theorem reads_commitTree (c : Commit) : Reads (commitTree c) := by
  intro _ _; unfold commitTree; split <;> simp

theorem reads_index : Reads index := fun _ _ => ⟨rfl, rfl⟩

theorem reads_mergeHead : Reads mergeHead := fun _ _ => ⟨rfl, rfl⟩

theorem reads_head : Reads head := by
  intro _ _; unfold head; split <;> simp

theorem reads_origHead : Reads origHead := by
  intro _ _; unfold origHead; split <;> simp

theorem reads_orNotFound {x : MR Nat} (hx : Reads x) : Reads (orNotFound x) :=
  Reads.tryCatch (Reads.bind hx fun _ => Reads.pure _) fun _ => by
    split
    · exact Reads.pure _
    · exact Reads.throw _

theorem reads_validateParents (ps : List Nat) : Reads (validateParents ps) := by
  unfold validateParents
  split
  · exact .bind (reads_orNotFound reads_head) fun _ => .pure _
  · exact .pure _

theorem reads_commitParents (ps : List Nat) : Reads (commitParents ps) := by
  refine .bind reads_mergeHead fun mh => ?_
  cases mh
  · exact .pure _
  · exact .bind (reads_orNotFound reads_head) fun _ => .pure _

theorem reads_getUnmergedFiles : Reads getUnmergedFiles := .bind reads_index fun _ => .pure _

/-- `hasUncommittedFiles` only compares. -/
theorem reads_hasUncommittedFiles (c : Nat) : Reads (hasUncommittedFiles c) := by
  refine Reads.bind (Reads.liftWork ?_) fun _ => ?_
  · exact Reads.bind (reads_getCommitObject c) fun _ => Reads.bind (reads_commitTree _) fun _ =>
      Reads.bind reads_index fun _ => Reads.pure _
  · split
    · exact Reads.pure _
    · exact Reads.bind (fun _ _ => ⟨rfl, rfl⟩) fun _ => Reads.pure _

end MergeCore
