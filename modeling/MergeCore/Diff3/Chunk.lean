import MergeCore.Diff3.Tiling

/-! # What `writeChunk` writes

`writeChunk` walks the base lines of a range, advancing a cursor on each side and recording
the side's lines whose text differs from the base line they are paired with (`notEqlA`,
`notEqlB`), then takes each side's remaining lines as differing. On a range with `from ≤ to`
inside the three files:

* `baseLoop_spec`, `tailLoop_spec`: each side's block is its lines of the range, and its
  mismatches are the lines paired with a base line of another text and every line past the
  base's (`pairedNotEql`).
* `isEql_eq`: so `isEqlA` holds exactly when the ours block is the base block line for line,
  whatever the lengths, with an empty base block or an empty side.
* `writeChunk_spec`, `writeChunk_cases`: `writeChunk` writes what `chunkOutput`, the cases in
  the specification's order, gives for the three blocks, every line with its newline.
-/

namespace MergeCore

/-! ## Ranges of lines -/

/-- The lines `[lo, hi)` of a file. -/
def lineRange {α : Type} (lines : List α) (lo hi : Int) : List α :=
  (lines.drop lo.toNat).take (hi - lo).toNat

section
variable {α : Type} {lines : List α} {lo hi : Int}

theorem length_lineRange (h0 : 0 ≤ lo) (hhi : hi ≤ lines.length) :
    (lineRange lines lo hi).length = (hi - lo).toNat := by
  simp only [lineRange, List.length_take, List.length_drop]
  omega

theorem lineRange_eq_nil (h : hi ≤ lo) : lineRange lines lo hi = [] := by
  simp [lineRange, show (hi - lo).toNat = 0 by omega]

/-- Inside the file, a range starts with the line at its start. -/
theorem lineRange_cons (h0 : 0 ≤ lo) (hlt : lo < hi) (hhi : hi ≤ lines.length) :
    ∃ x, goIndex lines lo = some x ∧ lineRange lines lo hi = x :: lineRange lines (lo + 1) hi := by
  have hl : lo.toNat < lines.length := by omega
  refine ⟨lines[lo.toNat], by simp [goIndex, h0, hl], ?_⟩
  rw [lineRange, List.drop_eq_getElem_cons hl, show (hi - lo).toNat = (hi - (lo + 1)).toNat + 1 by
    omega, List.take_succ_cons, lineRange, show (lo + 1).toNat = lo.toNat + 1 by omega]

theorem lineRange_zero_length : lineRange lines 0 lines.length = lines := by
  simp [lineRange]

/-- The rest of a range past its first `k` lines. -/
theorem lineRange_add (h0 : 0 ≤ lo) (k : Nat) :
    lineRange lines (lo + k) hi = (lineRange lines lo hi).drop k := by
  simp only [lineRange, List.drop_take, List.drop_drop]
  congr 2 <;> omega

/-- Two adjacent ranges make one. -/
theorem lineRange_append {mid : Int} (h0 : 0 ≤ lo) (h1 : lo ≤ mid) (h2 : mid ≤ hi) :
    lineRange lines lo mid ++ lineRange lines mid hi = lineRange lines lo hi := by
  have hmid : mid = lo + ((mid - lo).toNat : Nat) := by omega
  rw [hmid, lineRange_add h0, ← hmid]
  have htake : lineRange lines lo mid = (lineRange lines lo hi).take (mid - lo).toNat := by
    simp only [lineRange, List.take_take]
    congr 1; omega
  rw [htake, List.take_append_drop]

end

/-! ## One side of the loops -/

/-- The lines of `xs` that the base loop pairs, in order, with base lines `bs` of another
text. -/
def pairedNotEql : List FileLine → List FileLine → List FileLine
  | b :: bs, x :: xs => if b.text != x.text then x :: pairedNotEql bs xs else pairedNotEql bs xs
  | _, _ => []

/-- A side after the base loop paired its lines `xs` with the base lines `bs`. -/
def Side.pair (s : Side) (bs xs : List FileLine) : Side :=
  ⟨s.cursor + min bs.length xs.length, s.block ++ texts (xs.take bs.length),
    s.notEql ++ pairedNotEql bs xs⟩

@[simp] theorem Side.pair_nil_left (s : Side) (xs : List FileLine) : s.pair [] xs = s := by
  simp [Side.pair, pairedNotEql, texts]

@[simp] theorem Side.pair_nil_right (s : Side) (bs : List FileLine) : s.pair bs [] = s := by
  cases bs <;> simp [Side.pair, pairedNotEql, texts]

theorem Side.pair_cons (s : Side) (b x : FileLine) (bs xs : List FileLine) :
    s.pair (b :: bs) (x :: xs) =
      (⟨s.cursor + 1, s.block ++ [x.text], if b.text != x.text then s.notEql ++ [x] else s.notEql⟩ :
        Side).pair bs xs := by
  simp only [Side.pair, List.length_cons, List.take_succ_cons, texts, List.map_cons, pairedNotEql]
  split <;> simp <;> omega

variable {lines : List FileLine} {toX : Int}

/-- One step of a side against the base line `b`: the side pairs its next line with `b`. -/
theorem sideStep_pair (b : FileLine) {s : Side} (h0 : 0 ≤ s.cursor) (hto : toX ≤ lines.length) :
    ∃ s', sideStep lines toX (fun l => b.text != l.text) s = some s' ∧ 0 ≤ s'.cursor ∧
      ∀ bs, s'.pair bs (lineRange lines s'.cursor toX) =
        s.pair (b :: bs) (lineRange lines s.cursor toX) := by
  unfold sideStep
  by_cases hc : s.cursor < toX
  · obtain ⟨x, hx, hr⟩ := lineRange_cons h0 hc hto
    refine ⟨⟨s.cursor + 1, s.block ++ [x.text], if b.text != x.text then s.notEql ++ [x] else
      s.notEql⟩, by simp [hc, hx], by dsimp only; omega, fun bs => ?_⟩
    rw [hr, Side.pair_cons]
  · refine ⟨s, by simp [hc], h0, fun bs => ?_⟩
    rw [lineRange_eq_nil (by omega), Side.pair_nil_right, Side.pair_nil_right]

/-- The loop after the base loop takes the side's remaining lines, all as differing. -/
theorem tailLoop_spec (hto : toX ≤ lines.length) : ∀ (n : Nat) (s : Side), 0 ≤ s.cursor →
    (toX - s.cursor).toNat ≤ n →
      tailLoop lines toX n s = some ⟨s.cursor + (lineRange lines s.cursor toX).length,
        s.block ++ texts (lineRange lines s.cursor toX), s.notEql ++ lineRange lines s.cursor toX⟩
  | 0, s, _, hn => by
    rw [lineRange_eq_nil (by omega)]
    simp [tailLoop, texts]
  | n + 1, s, h0, hn => by
    unfold tailLoop
    by_cases hc : s.cursor < toX
    · obtain ⟨x, hx, hr⟩ := lineRange_cons h0 hc hto
      rw [if_pos hc, sideStep, if_pos hc, hx]
      simp only [Option.pure_def, Option.bind_eq_bind, Option.some_bind, if_true]
      rw [tailLoop_spec hto n _ (by dsimp only; omega) (by dsimp only; omega), hr]
      simp [texts]
      omega
    · rw [if_neg hc, lineRange_eq_nil (by omega)]
      simp [texts]

/-- The base loop from base line `i`: each side pairs its lines with the base lines left. -/
theorem baseLoop_spec {d : Diff3} {toBase toA toB : Int} (hb : toBase ≤ d.base.length)
    (ha : toA ≤ d.a.length) (hB : toB ≤ d.b.length) :
    ∀ (n : Nat) (i : Int) (sA sB : Side), 0 ≤ i → 0 ≤ sA.cursor → 0 ≤ sB.cursor →
      (toBase - i).toNat ≤ n →
      baseLoop d toBase toA toB n i sA sB =
        some (sA.pair (lineRange d.base i toBase) (lineRange d.a sA.cursor toA),
          sB.pair (lineRange d.base i toBase) (lineRange d.b sB.cursor toB))
  | 0, i, sA, sB, _, _, _, hn => by
    rw [lineRange_eq_nil (by omega)]
    simp [baseLoop]
  | n + 1, i, sA, sB, hi, hA, hB', hn => by
    unfold baseLoop
    by_cases hc : i < toBase
    · obtain ⟨l, hl, hr⟩ := lineRange_cons hi hc hb
      obtain ⟨sA', hsA, hA', hpA⟩ := sideStep_pair l hA ha
      obtain ⟨sB', hsB, hB'', hpB⟩ := sideStep_pair l hB' hB
      rw [if_pos hc]
      simp only [hl, hsA, hsB, Option.bind_eq_bind, Option.some_bind]
      rw [baseLoop_spec hb ha hB n _ _ _ (by omega) hA' hB'' (by omega), hr, hpA, hpB]
    · rw [if_neg hc, lineRange_eq_nil (by omega)]
      simp

/-! ## The tests of `writeChunk` -/

theorem pairedNotEql_eq_nil_iff : ∀ {bs xs : List FileLine}, bs.length = xs.length →
    (pairedNotEql bs xs = [] ↔ texts bs = texts xs)
  | [], [], _ => by simp [pairedNotEql, texts]
  | b :: bs, x :: xs, h => by
    have ih := @pairedNotEql_eq_nil_iff bs xs (by simpa using h)
    by_cases hbx : b.text = x.text <;> simp_all [pairedNotEql, texts]
  | [], _ :: _, h | _ :: _, [], h => by simp at h

/-- `isEqlA`: the side's block is the base block line for line. -/
theorem isEql_eq {bs xs : List FileLine} {lenBase fromX toX : Int} (hb : lenBase = bs.length)
    (hx : toX - fromX = xs.length) :
    isEql lenBase (toX - fromX) fromX toX (pairedNotEql bs xs ++ xs.drop bs.length) =
      decide (texts bs = texts xs) := by
  have hlen : texts bs = texts xs → bs.length = xs.length := fun h => by
    simpa [texts] using congrArg List.length h
  by_cases ht : texts bs = texts xs
  · have hl := hlen ht
    simp only [isEql, hb, hx, ht, decide_True, hl, List.drop_length,
      (pairedNotEql_eq_nil_iff hl).2 ht, List.append_nil, List.length_nil]
    by_cases h0 : xs.length = 0 <;> simp [h0]; omega
  · simp only [isEql, hb, hx, ht, decide_False, Bool.or_eq_false_iff, Bool.and_eq_false_iff]
    refine ⟨?_, ?_⟩
    · by_cases h0 : bs.length = 0 ∧ xs.length = 0
      · obtain ⟨hb0, hx0⟩ := h0
        exact absurd (by rw [List.length_eq_zero.1 hb0, List.length_eq_zero.1 hx0]) ht
      · simp only [decide_eq_false_iff_not]
        omega
    · by_cases hl : bs.length = xs.length
      · right
        simp [hl, (pairedNotEql_eq_nil_iff hl).not.2 ht]
      · left; left
        simp only [beq_eq_false_iff_ne, ne_eq]
        omega

theorem isBlockEqual_iff : ∀ {blA blB : List String}, isBlockEqual blA blB = true ↔ blA = blB
  | [], [] => by simp [isBlockEqual]
  | a :: as, b :: bs => by
    have ih := @isBlockEqual_iff as bs
    simp only [isBlockEqual, Bool.and_eq_true, beq_iff_eq, List.length_cons, Nat.add_right_cancel_iff,
      List.zip_cons_cons, List.all_cons, List.cons.injEq] at ih ⊢
    constructor
    · rintro ⟨hl, hab, hall⟩
      exact ⟨hab, ih.1 ⟨hl, hall⟩⟩
    · rintro ⟨rfl, rfl⟩
      exact ⟨rfl, by simp, (ih.2 rfl).2⟩
  | [], _ :: _ | _ :: _, [] => by simp [isBlockEqual]

/-! ## What a chunk writes -/

/-- What the specification says a chunk writes, from its base, ours and theirs blocks: theirs
when ours kept the base, ours when theirs kept it, ours once when the two agree, and otherwise
a conflict hunk, which it counts. -/
def chunkOutput (base ours theirs : List String) : Nat × List String :=
  if ours = base then (0, writeBlockToFile theirs)
  else if theirs = base then (0, writeBlockToFile ours)
  else if ours = theirs then (0, writeBlockToFile ours)
  else (1, [delimStart] ++ writeBlockToFile ours ++ [delimMiddle] ++ writeBlockToFile theirs ++
    [delimEnd])

/-- The code's cases, with its tests read as block equalities, are the specification's. -/
theorem chunkOutput_eq (base ours theirs : List String) (bothEmpty : Bool)
    (hempty : bothEmpty = true ↔ ours = [] ∧ theirs = []) :
    (if decide (base = ours) && decide (base = theirs) then (0, writeBlockToFile ours)
      else if decide (base = ours) then (0, writeBlockToFile theirs)
      else if decide (base = theirs) then (0, writeBlockToFile ours)
      else if !bothEmpty then
        if isBlockEqual ours theirs then (0, writeBlockToFile ours)
        else (1, writeConflictToFile ours theirs)
      else (0, [])) = chunkOutput base ours theirs := by
  unfold chunkOutput
  by_cases hA : ours = base
  · by_cases hB : theirs = base
    · subst hA; subst hB; simp
    · simp [hA, hB, Ne.symm hB]
  by_cases hB : theirs = base
  · simp [hA, hB, Ne.symm hA]
  by_cases hAB : ours = theirs
  · subst hAB
    cases bothEmpty
    · simp [hA, Ne.symm hA, isBlockEqual_iff]
    · simp [hA, Ne.symm hA, (hempty.1 rfl).1, writeBlockToFile]
  · have hne : bothEmpty = false := by
      rw [Bool.eq_false_iff]; intro h
      obtain ⟨h1, h2⟩ := hempty.1 h
      exact hAB (h1.trans h2.symm)
    simp only [Ne.symm hA, Ne.symm hB, hAB, hne, isBlockEqual_iff, writeConflictToFile,
      List.length_eq_zero, decide_False, Bool.and_false, Bool.false_eq_true, if_false, Bool.not_false,
      if_true]
    rw [if_neg fun h => hAB (h.1.trans h.2.symm), if_neg hA, if_neg hB]

variable {d : Diff3} {ir : IndexRange}

/-- One side of `writeChunk` after the base loop: paired with the base block, then run to the
end of its range, its block is its lines, and its mismatches are the paired ones and then the
lines past the base block. -/
theorem tailLoop_pair {lines : List FileLine} {lo hi : Int} (bs : List FileLine) (hlo : 0 ≤ lo)
    (hhi : hi ≤ lines.length) :
    ∃ c, tailLoop lines hi
        (hi - ((⟨lo, [], []⟩ : Side).pair bs (lineRange lines lo hi)).cursor).toNat
        ((⟨lo, [], []⟩ : Side).pair bs (lineRange lines lo hi)) =
      some ⟨c, texts (lineRange lines lo hi),
        pairedNotEql bs (lineRange lines lo hi) ++ (lineRange lines lo hi).drop bs.length⟩ := by
  have h := tailLoop_spec hhi _ ((⟨lo, [], []⟩ : Side).pair bs (lineRange lines lo hi))
    (by simp [Side.pair]; omega) le_rfl
  have hrest : lineRange lines (lo + (min bs.length (lineRange lines lo hi).length : Nat)) hi =
      (lineRange lines lo hi).drop bs.length := by
    rw [lineRange_add hlo]
    rcases le_total bs.length (lineRange lines lo hi).length with h | h
    · rw [Nat.min_eq_left h]
    · rw [Nat.min_eq_right h, List.drop_eq_nil_of_le h, List.drop_eq_nil_of_le le_rfl]
  simp only [Side.pair, List.nil_append, hrest] at h ⊢
  rw [h, texts, texts, ← List.map_append, List.take_append_drop]
  exact ⟨_, rfl⟩

/-- On a range with `from ≤ to` inside the files, `writeChunk` writes what `chunkOutput` gives
for the range's three blocks. -/
theorem writeChunk_spec
    (h0 : 0 ≤ ir.«from».baseIndex ∧ 0 ≤ ir.«from».aIndex ∧ 0 ≤ ir.«from».bIndex)
    (hle : ir.«from» ≤ ir.«to») (hto : ir.«to» ≤ d.ends) :
    writeChunk d ir = some (chunkOutput
      (texts (lineRange d.base ir.«from».baseIndex ir.«to».baseIndex))
      (texts (lineRange d.a ir.«from».aIndex ir.«to».aIndex))
      (texts (lineRange d.b ir.«from».bIndex ir.«to».bIndex))) := by
  obtain ⟨hb0, ha0, hB0⟩ := h0
  obtain ⟨hbl, hal, hBl⟩ := hle
  obtain ⟨hbe, hae, hBe⟩ := hto
  dsimp only [Diff3.ends] at hbe hae hBe
  have hloop := baseLoop_spec hbe hae hBe (ir.«to».baseIndex - ir.«from».baseIndex).toNat
    ir.«from».baseIndex ⟨ir.«from».aIndex, [], []⟩ ⟨ir.«from».bIndex, [], []⟩ hb0 ha0 hB0 le_rfl
  set bs := lineRange d.base ir.«from».baseIndex ir.«to».baseIndex with hbs
  obtain ⟨cA, htA⟩ := tailLoop_pair bs ha0 hae
  obtain ⟨cB, htB⟩ := tailLoop_pair bs hB0 hBe
  have hlb : (bs.length : Int) = ir.«to».baseIndex - ir.«from».baseIndex := by
    rw [hbs, length_lineRange hb0 hbe]; omega
  have hlx := length_lineRange ha0 hae
  have hly := length_lineRange hB0 hBe
  simp only [writeChunk, hloop, Option.some_bind, Option.bind_eq_bind, htA, htB, Option.pure_def,
    Option.some.injEq]
  rw [isEql_eq hlb.symm (by omega), isEql_eq hlb.symm (by omega)]
  refine chunkOutput_eq _ _ _ _ ?_
  simp only [Bool.and_eq_true, decide_eq_true_eq, texts, List.map_eq_nil_iff]
  rw [← List.length_eq_zero, ← List.length_eq_zero]
  omega

/-- Every string `chunkOutput` writes is a line followed by its newline. -/
theorem chunkOutput_newlines (base ours theirs : List String) :
    ∀ w ∈ (chunkOutput base ours theirs).2, ∃ t, w = t ++ "\n" := by
  have hblock (bl : List String) : ∀ w ∈ writeBlockToFile bl, ∃ t, w = t ++ "\n" := by
    simp only [writeBlockToFile, List.mem_map]
    rintro _ ⟨t, -, rfl⟩
    exact ⟨t, rfl⟩
  unfold chunkOutput
  split
  · exact hblock _
  split
  · exact hblock _
  split
  · exact hblock _
  simp only [List.mem_append, List.mem_singleton]
  rintro w ((((rfl | h) | rfl) | h) | rfl)
  · exact ⟨"<<<<<<< yours", rfl⟩
  · exact hblock _ w h
  · exact ⟨"=======", rfl⟩
  · exact hblock _ w h
  · exact ⟨">>>>>>> theirs", rfl⟩

/-- On a chunk whose range has `from ≤ to` inside the three files, `writeChunk` writes theirs
when ours kept the base block, else ours when theirs kept it, else ours once when the two
agree, and returns 0; otherwise it writes the conflict hunk and returns 1. Every string it
writes is a line followed by its newline. -/
theorem writeChunk_cases
    (h0 : 0 ≤ ir.«from».baseIndex ∧ 0 ≤ ir.«from».aIndex ∧ 0 ≤ ir.«from».bIndex)
    (hle : ir.«from» ≤ ir.«to») (hto : ir.«to» ≤ d.ends) :
    ∃ n out, writeChunk d ir = some (n, out) ∧
      (n, out) = chunkOutput (texts (lineRange d.base ir.«from».baseIndex ir.«to».baseIndex))
        (texts (lineRange d.a ir.«from».aIndex ir.«to».aIndex))
        (texts (lineRange d.b ir.«from».bIndex ir.«to».bIndex)) ∧
      ∀ w ∈ out, ∃ t, w = t ++ "\n" :=
  ⟨_, _, writeChunk_spec h0 hle hto, rfl, chunkOutput_newlines _ _ _⟩

/-- A one-line chunk where each file has its own line: a conflict. -/
def conflictChunk : Diff3 := ⟨[], [], [⟨0, "a"⟩], [⟨0, "b"⟩], [⟨0, "c"⟩]⟩

theorem writeChunk_cases_conflict :
    (0 ≤ (0 : Int) ∧ 0 ≤ (0 : Int) ∧ 0 ≤ (0 : Int)) ∧ (⟨0, 0, 0⟩ : Indexes) ≤ ⟨1, 1, 1⟩ ∧
      (⟨1, 1, 1⟩ : Indexes) ≤ conflictChunk.ends ∧
      writeChunk conflictChunk ⟨⟨0, 0, 0⟩, ⟨1, 1, 1⟩⟩ =
        some (1, ["<<<<<<< yours\n", "b\n", "=======\n", "c\n", ">>>>>>> theirs\n"]) ∧
      ∃ n out, writeChunk conflictChunk ⟨⟨0, 0, 0⟩, ⟨1, 1, 1⟩⟩ = some (n, out) ∧
        (n, out) = chunkOutput (texts (lineRange conflictChunk.base 0 1))
          (texts (lineRange conflictChunk.a 0 1)) (texts (lineRange conflictChunk.b 0 1)) ∧
        ∀ w ∈ out, ∃ t, w = t ++ "\n" :=
  have h0 : 0 ≤ (0 : Int) ∧ 0 ≤ (0 : Int) ∧ 0 ≤ (0 : Int) := ⟨le_rfl, le_rfl, le_rfl⟩
  have hle : (⟨0, 0, 0⟩ : Indexes) ≤ ⟨1, 1, 1⟩ := ⟨by decide, by decide, by decide⟩
  have hto : (⟨1, 1, 1⟩ : Indexes) ≤ conflictChunk.ends := ⟨by decide, by decide, by decide⟩
  ⟨h0, hle, hto, by decide, @writeChunk_cases conflictChunk ⟨⟨0, 0, 0⟩, ⟨1, 1, 1⟩⟩ h0 hle hto⟩

end MergeCore
