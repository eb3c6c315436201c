import Mathlib.Data.List.Nodup
import MergeCore.Worktree.Merge

/-! # The blob cache over a run of `addOrUpdateBlobToCache`

`w.blobs` maps a path to a list of `blobInfo`s. `addOrUpdateBlobToCache` sets the blob of the
first entry of its stage, or appends an entry, and `ReadFileByStage` of a stage other than
`Merged` answers the first entry of that stage (`readFileByStage_cached`, through `cacheRead`).

* `cacheRead_addOrUpdateBlobToCache`: after one call, the read of the call's path and stage is
  the call's blob, and every other read is what it was.
* `stagesUnique_addOrUpdateBlobToCache`: a call keeps every path's list free of two entries of
  one stage.
* `cacheBlobs_lastWriteWins`: from an empty or `nil` cache, over every sequence of calls, every
  path's list holds at most one entry per stage, and `ReadFileByStage` answers the blob of the
  last call with that path and stage, or `ErrFileNotFound` when there was none.
-/

namespace MergeCore

/-! ## One call -/

/-- What `ReadFileByStage` reads for a stage other than `Merged`: the blob of the first entry of
the stage in the path's list. -/
def cacheRead (blobs : Option (List (String × List BlobInfo))) (path : String) (st : Stage) :
    Option String :=
  ((blobs.bind (·.lookup path)).bind (·.find? (·.stage = st))).map (·.blob)

/-- No path's list holds two entries of one stage. -/
def StagesUnique (blobs : Option (List (String × List BlobInfo))) : Prop :=
  ∀ p is, blobs.bind (·.lookup p) = some is → (is.map (·.stage)).Nodup

theorem readFileByStage_cached (path : String) {st : Stage} (h : st ≠ .merged) (objs : Objects)
    (w : Work) : (readFileByStage path st objs w).result =
      (cacheRead w.blobs path st).elim (.error .fileNotFound) .ok := by
  simp only [readFileByStage, h, if_false, cacheRead]
  split <;> simp [*]

variable {path b : String} {st : Stage}

theorem find_setStageBlob (is : List BlobInfo) (st' : Stage) :
    ((setStageBlob path b st is).find? (·.stage = st')).map (·.blob) =
      if st' = st then some b else (is.find? (·.stage = st')).map (·.blob) := by
  induction is with
  | nil => by_cases h : st' = st <;> simp [setStageBlob, h, eq_comm]
  | cons i is ih =>
    by_cases hi : i.stage = st
    · by_cases h : st' = st <;> simp [setStageBlob, hi, h, Ne.symm]
    · simp only [setStageBlob, hi, if_false, List.find?_cons, ih]
      by_cases h : i.stage = st'
      · subst h; simp [hi]
      · simp [h, ih]

theorem stages_setStageBlob (is : List BlobInfo) :
    (setStageBlob path b st is).map (·.stage) =
      if st ∈ is.map (·.stage) then is.map (·.stage) else is.map (·.stage) ++ [st] := by
  induction is with
  | nil => simp [setStageBlob]
  | cons i is ih =>
    by_cases hi : i.stage = st
    · simp [setStageBlob, hi]
    · simp only [setStageBlob, hi, if_false, List.map_cons, ih, List.mem_cons, Ne.symm hi,
        false_or]
      split <;> rfl

theorem cacheRead_addOrUpdateBlobToCache (objs : Objects) (w : Work) (p : String) (st' : Stage) :
    cacheRead (addOrUpdateBlobToCache path b st objs w).state.blobs p st' =
      if p = path ∧ st' = st then some b else cacheRead w.blobs p st' := by
  simp only [addOrUpdateBlobToCache, Op.update_apply, Run.state_ok, cacheRead, Option.some_bind,
    lookup_assocSet]
  by_cases hp : p = path
  · simp only [hp, if_true, true_and, Option.some_bind, find_setStageBlob]
    split
    · rfl
    · cases w.blobs with
      | none => rfl
      | some l =>
        simp only [Option.getD_some, Option.some_bind]
        cases l.lookup path <;> rfl
  · simp only [hp, if_false, false_and]
    cases w.blobs <;> simp

theorem stagesUnique_addOrUpdateBlobToCache (objs : Objects) {w : Work}
    (h : StagesUnique w.blobs) :
    StagesUnique (addOrUpdateBlobToCache path b st objs w).state.blobs := by
  intro p is hl
  simp only [addOrUpdateBlobToCache, Op.update_apply, Run.state_ok, Option.some_bind,
    lookup_assocSet] at hl
  split at hl
  · cases hl
    have hold : (((w.blobs.getD []).lookup path).getD []).map (·.stage) |>.Nodup := by
      cases hw : w.blobs with
      | none => simp
      | some l => cases hq : l.lookup path <;> simp [h path, hw, hq]
    rw [stages_setStageBlob]
    split
    · exact hold
    · exact List.nodup_append.2 ⟨hold, List.nodup_singleton st, List.disjoint_singleton.2 ‹_›⟩
  · exact h p is (by cases hw : w.blobs <;> simp_all)

/-! ## A run of calls -/

/-- The calls `addOrUpdateBlobToCache path blob stage`, in order. -/
def cacheBlobs (calls : List (String × String × Stage)) : MW Unit :=
  calls.forM fun c => addOrUpdateBlobToCache c.1 c.2.1 c.2.2

/-- The blob of the last call with path `p` and stage `st`. -/
def lastCall (calls : List (String × String × Stage)) (p : String) (st : Stage) : Option String :=
  (calls.reverse.find? fun c => c.1 = p ∧ c.2.2 = st).map (·.2.1)

theorem state_cacheBlobs_cons (c : String × String × Stage) (calls : List (String × String × Stage))
    (objs : Objects) (w : Work) : (cacheBlobs (c :: calls) objs w).state =
      (cacheBlobs calls objs (addOrUpdateBlobToCache c.1 c.2.1 c.2.2 objs w).state).state := by
  simp [cacheBlobs, addOrUpdateBlobToCache]

theorem lastCall_cons (c : String × String × Stage) (calls : List (String × String × Stage))
    (p : String) (st : Stage) : lastCall (c :: calls) p st =
      (lastCall calls p st).or (if p = c.1 ∧ st = c.2.2 then some c.2.1 else none) := by
  simp only [lastCall, List.reverse_cons, List.find?_append, List.find?_singleton]
  cases calls.reverse.find? (fun c => c.1 = p ∧ c.2.2 = st) with
  | some c' => rfl
  | none =>
    by_cases h : p = c.1 ∧ st = c.2.2
    · simp [h]
    · have h' : ¬(c.1 = p ∧ c.2.2 = st) := fun ⟨h1, h2⟩ => h ⟨h1.symm, h2.symm⟩
      simp [h, h']

theorem cacheRead_cacheBlobs (calls : List (String × String × Stage)) (objs : Objects) (w : Work)
    (p : String) (st : Stage) :
    cacheRead (cacheBlobs calls objs w).state.blobs p st =
      (lastCall calls p st).or (cacheRead w.blobs p st) := by
  induction calls generalizing w with
  | nil => simp [cacheBlobs, lastCall]
  | cons c calls ih =>
    rw [state_cacheBlobs_cons, ih, cacheRead_addOrUpdateBlobToCache, lastCall_cons, Option.or_assoc]
    split <;> rfl

theorem stagesUnique_cacheBlobs (calls : List (String × String × Stage)) (objs : Objects)
    {w : Work} (h : StagesUnique w.blobs) : StagesUnique (cacheBlobs calls objs w).state.blobs := by
  induction calls generalizing w with
  | nil => simpa [cacheBlobs]
  | cons c calls ih =>
    rw [state_cacheBlobs_cons]
    exact ih (stagesUnique_addOrUpdateBlobToCache objs h)

theorem cacheBlobs_lastWriteWins (objs : Objects) (w : Work) (hw : w.blobs = none ∨ w.blobs = some [])
    (calls : List (String × String × Stage)) :
    let w' := (cacheBlobs calls objs w).state
    StagesUnique w'.blobs ∧ ∀ p st, st ≠ .merged →
      (readFileByStage p st objs w').result = (lastCall calls p st).elim (.error .fileNotFound) .ok := by
  have empty : ∀ p st, cacheRead w.blobs p st = none := by
    intro p st; rcases hw with hw | hw <;> simp [cacheRead, hw]
  refine ⟨stagesUnique_cacheBlobs calls objs ?_, fun p st hst => ?_⟩
  · intro p is hl; rcases hw with hw | hw <;> simp [hw] at hl
  · rw [readFileByStage_cached p hst, cacheRead_cacheBlobs, empty, Option.or_none]

theorem cacheBlobs_lastWriteWins_ourMode :
    ((⟨[], [], none, 0, []⟩ : Work).blobs = none ∨ (⟨[], [], none, 0, []⟩ : Work).blobs = some []) ∧
    let w' := (cacheBlobs [("f", "a", .ourMode), ("f", "b", .ourMode)] ⟨[], []⟩
      ⟨[], [], none, 0, []⟩).state
    StagesUnique w'.blobs ∧ ∀ p st, st ≠ .merged →
      (readFileByStage p st ⟨[], []⟩ w').result =
        (lastCall [("f", "a", .ourMode), ("f", "b", .ourMode)] p st).elim (.error .fileNotFound) .ok :=
  ⟨.inl rfl, cacheBlobs_lastWriteWins _ _ (.inl rfl) _⟩

end MergeCore
