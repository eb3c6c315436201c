import MergeCore.Diff3.Chunk
import MergeCore.Diff3.Lines

/-! # Three laws of the merge

`writeChunks` writes, chunk after chunk of the tiling, what `chunkPiece` gives for the chunk's
three blocks: the lines of one block, or a conflict hunk of ours and theirs
(`writeChunks_pieces`). Over that:

* `merge_swap_sides`: exchanging ours and theirs exchanges the two diffs; the chunk walk then
  visits the same ranges with the two sides exchanged (`writeChunksLoop_swap`), and each chunk
  writes the same lines, or its conflict hunk with the two blocks exchanged.
* `merge_same_sides`: with ours and theirs the same file, the walk is its own exchange, so the
  two cursors stay together, every chunk writes ours, and the merge writes ours.
* `merge_unchanged_side`: with ours the base, the diff from the base to ours matches each line
  to itself, so the ours cursor stays on the base cursor and every chunk writes theirs; and the
  other way round.
-/

namespace MergeCore

/-! ## Pieces -/

/-- What one chunk writes: the lines of a block, or a conflict hunk. -/
inductive Piece
  | lines (bl : List String)
  | conflict (ours theirs : List String)
deriving Repr, DecidableEq

/-- The strings a piece writes. -/
def Piece.render : Piece → List String
  | .lines bl => writeBlockToFile bl
  | .conflict ours theirs => [delimStart] ++ writeBlockToFile ours ++ [delimMiddle] ++
    writeBlockToFile theirs ++ [delimEnd]

/-- The conflicts a piece counts. -/
def Piece.conflicts : Piece → Nat
  | .lines _ => 0
  | .conflict _ _ => 1

/-- The piece with ours and theirs exchanged. -/
def Piece.swap : Piece → Piece
  | .lines bl => .lines bl
  | .conflict ours theirs => .conflict theirs ours

@[simp] theorem Piece.conflicts_swap (p : Piece) : p.swap.conflicts = p.conflicts := by
  cases p <;> rfl

/-- The piece of a chunk with these base, ours and theirs blocks, as `chunkOutput` decides. -/
def chunkPiece (base ours theirs : List String) : Piece :=
  if ours = base then .lines theirs
  else if theirs = base then .lines ours
  else if ours = theirs then .lines ours
  else .conflict ours theirs

theorem chunkOutput_eq_piece (base ours theirs : List String) :
    chunkOutput base ours theirs =
      ((chunkPiece base ours theirs).conflicts, (chunkPiece base ours theirs).render) := by
  unfold chunkOutput chunkPiece
  split_ifs <;> rfl

/-- Exchanging ours and theirs exchanges the blocks of the piece. -/
theorem chunkPiece_swap (base ours theirs : List String) :
    chunkPiece base theirs ours = (chunkPiece base ours theirs).swap := by
  unfold chunkPiece
  by_cases hA : ours = base <;> by_cases hB : theirs = base
  · subst hA; subst hB; simp [Piece.swap]
  · simp [hA, hB, Piece.swap]
  · simp [hA, hB, Piece.swap]
  · by_cases hAB : ours = theirs
    · subst hAB; simp [hA, Piece.swap]
    · simp [hA, hB, hAB, Ne.symm hAB, Piece.swap]

/-- The piece `writeChunk` writes for a range of `d`. -/
def Diff3.piece (d : Diff3) (ir : IndexRange) : Piece :=
  chunkPiece (texts (lineRange d.base ir.«from».baseIndex ir.«to».baseIndex))
    (texts (lineRange d.a ir.«from».aIndex ir.«to».aIndex))
    (texts (lineRange d.b ir.«from».bIndex ir.«to».bIndex))

/-! ## The tiling -/

theorem mapM_eq_some_map {α β : Type} {f : α → Option β} {g : α → β} :
    ∀ {l : List α}, (∀ x ∈ l, f x = some (g x)) → l.mapM f = some (l.map g)
  | [], _ => rfl
  | x :: l, h => mapM_cons_some (h x (List.mem_cons_self x l))
      (mapM_eq_some_map fun y hy => h y (List.mem_cons_of_mem x hy))

/-- On a tiling of a setup's files, `writeChunks` writes the pieces of the ranges in order. -/
theorem writeChunks_pieces {baseT oursT theirsT : List String} {d : Diff3}
    (hd : setup baseT oursT theirsT = some d) {fuel : Nat} (hfuel : 2 * baseT.length + 2 ≤ fuel) :
    ∃ matchesA matchesB rs, getMatches d.diffA = some matchesA ∧
      getMatches d.diffB = some matchesB ∧
      writeChunksLoop d matchesA matchesB fuel ⟨0, 0, 0⟩ = some rs ∧ Tiles ⟨0, 0, 0⟩ rs d.ends ∧
      writeChunks d fuel = some (((rs.map d.piece).map Piece.conflicts).foldl (· + ·) 0,
        ((rs.map d.piece).map Piece.render).flatten) := by
  obtain ⟨hb, -, -, ⟨mA, hmA, hA⟩, ⟨mB, hmB, hB⟩⟩ := setup_spec hd
  obtain ⟨rs, hrs, -, ht⟩ := writeChunksLoop_spec hA hB fuel (cursorOk_zero hA hB) (by
    have : loopMeasure d mA mB ⟨0, 0, 0⟩ ≤ 2 * baseT.length + 1 := by
      unfold loopMeasure; dsimp only; rw [hb, length_getFileLines]; split <;> omega
    omega)
  have hw : ∀ ir ∈ rs, writeChunk d ir = some ((d.piece ir).conflicts, (d.piece ir).render) :=
    fun ir hir => by
      obtain ⟨h1, h2, h3⟩ := ht.mem ir hir
      rw [writeChunk_spec ⟨h1.1, h1.2.1, h1.2.2⟩ h2 h3, chunkOutput_eq_piece]
      rfl
  refine ⟨mA, mB, rs, hmA, hmB, hrs, ht, ?_⟩
  simp only [writeChunks, hmA, hmB, hrs, mapM_eq_some_map hw, Option.bind_eq_bind,
    Option.some_bind, List.map_map]
  rfl

/-- The lines of a tiling's ranges, in order, are the lines from its start to its end. -/
theorem Tiles.lineRanges {α : Type} {l : List α} {f : Indexes → Int}
    (hf : ∀ x y : Indexes, x ≤ y → f x ≤ f y) :
    ∀ {s : Indexes} {rs : List IndexRange} {e : Indexes}, Tiles s rs e → 0 ≤ f s →
      f e ≤ l.length →
      (rs.map fun ir => lineRange l (f ir.«from») (f ir.«to»)).flatten = lineRange l (f s) (f e)
  | s, [], e, h, _, _ => by cases h; simp [lineRange_eq_nil]
  | s, ir :: rs, e, h, h0, he => by
    obtain ⟨rfl, hle, ht⟩ := h
    have h1 := hf _ _ hle
    rw [List.map_cons, List.flatten_cons, Tiles.lineRanges hf ht (by omega) he,
      lineRange_append h0 h1 (hf _ _ ht.le)]

/-- What a tiling of the files writes when each chunk writes its lines of one file. -/
theorem Tiles.render_lines {d : Diff3} {rs : List IndexRange} (ht : Tiles ⟨0, 0, 0⟩ rs d.ends)
    {f : Indexes → Int} (hf : ∀ x y : Indexes, x ≤ y → f x ≤ f y) (h0 : f ⟨0, 0, 0⟩ = 0)
    {l : List FileLine} (he : f d.ends = l.length) :
    ((rs.map fun ir => Piece.lines (texts (lineRange l (f ir.«from») (f ir.«to»)))).map
      Piece.render).flatten = writeBlockToFile (texts l) := by
  have := ht.lineRanges (l := l) hf (by omega) (by omega)
  rw [h0, he, lineRange_zero_length] at this
  conv_rhs => rw [← this, texts, writeBlockToFile, List.map_flatten, List.map_flatten, List.map_map,
    List.map_map]
  rw [List.map_map]
  rfl

theorem foldl_add_eq_zero : ∀ {l : List Nat}, (∀ n ∈ l, n = 0) → l.foldl (· + ·) 0 = 0
  | [], _ => rfl
  | n :: l, h => by
    rw [List.foldl_cons, h n (List.mem_cons_self n l), Nat.add_zero]
    exact foldl_add_eq_zero fun m hm => h m (List.mem_cons_of_mem n hm)

/-! ## Exchanging ours and theirs -/

/-- The files and diffs with ours and theirs exchanged. -/
def Diff3.swap (d : Diff3) : Diff3 := ⟨d.diffB, d.diffA, d.base, d.b, d.a⟩

/-- Positions with ours and theirs exchanged. -/
def Indexes.swap (i : Indexes) : Indexes := ⟨i.baseIndex, i.bIndex, i.aIndex⟩

/-- A range with ours and theirs exchanged. -/
def IndexRange.swap (ir : IndexRange) : IndexRange := ⟨ir.«from».swap, ir.«to».swap⟩

/-- A match with ours and theirs exchanged. -/
def Match.swap (m : Match) : Match := ⟨m.baseIndex, m.bIndex, m.aIndex⟩

/-- `setup` with ours and theirs exchanged diffs the base against the two in the other
order. -/
theorem setup_swap (baseT oursT theirsT : List String) :
    setup baseT theirsT oursT = (setup baseT oursT theirsT).map Diff3.swap := by
  cases h1 : diff (getFileLines baseT) (getFileLines oursT) <;>
    cases h2 : diff (getFileLines baseT) (getFileLines theirsT) <;> simp [setup, h1, h2, Diff3.swap]

section swap
variable (d : Diff3) (mA mB : Int → Option Int)

theorem isInBounds_swap (i lb la lB : Int) :
    isInBounds d.swap i lb lB la = isInBounds d i lb la lB := by
  simp only [isInBounds, Diff3.swap]
  rw [Bool.or_right_comm]

theorem mismatchLoop_swap (lb la lB : Int) : ∀ (fuel : Nat) (i : Int),
    mismatchLoop d.swap mB mA lb lB la fuel i = mismatchLoop d mA mB lb la lB fuel i
  | 0, _ => rfl
  | fuel + 1, i => by
    simp only [mismatchLoop, isInBounds_swap, mismatchLoop_swap lb la lB fuel]
    rw [Bool.and_right_comm]

theorem getNextMismatch_swap (lb la lB : Int) :
    getNextMismatch d.swap mB mA lb lB la = getNextMismatch d mA mB lb la lB := by
  simp only [getNextMismatch, mismatchLoop_swap, isInBounds_swap]
  simp only [Diff3.swap, max_comm (d.b.length - lB : Int)]

theorem matchLoop_swap : ∀ (fuel : Nat) (bn : Int),
    matchLoop d.swap mB mA fuel bn = (matchLoop d mA mB fuel bn).map Match.swap
  | 0, _ => rfl
  | fuel + 1, bn => by
    rw [matchLoop, matchLoop, show d.swap.base = d.base from rfl]
    split
    · cases mA bn <;> cases mB bn <;> simp [matchLoop_swap fuel (bn + 1), Match.swap]
    · rfl

theorem chunkStep_swap (cur : Indexes) :
    chunkStep d.swap mB mA cur.swap =
      ((chunkStep d mA mB cur).1.swap, (chunkStep d mA mB cur).2.map Indexes.swap) := by
  have hm := getNextMismatch_swap d mA mB cur.baseIndex cur.aIndex cur.bIndex
  simp only [Indexes.swap] at hm ⊢
  simp only [chunkStep, hm, getNextMatch, matchLoop_swap, show d.swap.base = d.base from rfl]
  split
  · cases matchLoop d mA mB (d.base.length - cur.baseIndex).toNat cur.baseIndex <;> rfl
  · split <;> rfl

/-- Exchanging ours and theirs, the chunk walk visits the same ranges, exchanged. -/
theorem writeChunksLoop_swap : ∀ (fuel : Nat) (cur : Indexes),
    writeChunksLoop d.swap mB mA fuel cur.swap =
      (writeChunksLoop d mA mB fuel cur).map (List.map IndexRange.swap)
  | 0, _ => rfl
  | fuel + 1, cur => by
    simp only [writeChunksLoop, chunkStep_swap]
    rcases chunkStep d mA mB cur with ⟨ir, _ | n⟩
    · rfl
    · simp only [Option.map_some', writeChunksLoop_swap fuel n]
      cases writeChunksLoop d mA mB fuel n <;> rfl

theorem piece_swap (ir : IndexRange) : d.swap.piece ir.swap = (d.piece ir).swap :=
  chunkPiece_swap _ _ _

end swap

/-- With ours and theirs exchanged, `writeChunks` writes the same pieces, each exchanged. -/
theorem writeChunks_swap {baseT oursT theirsT : List String} {d : Diff3}
    (hd : setup baseT oursT theirsT = some d) {fuel : Nat} (hfuel : 2 * baseT.length + 2 ≤ fuel) :
    ∃ matchesA matchesB rs, getMatches d.diffA = some matchesA ∧
      writeChunksLoop d matchesA matchesB fuel ⟨0, 0, 0⟩ = some rs ∧ Tiles ⟨0, 0, 0⟩ rs d.ends ∧
      writeChunks d fuel = some (((rs.map d.piece).map Piece.conflicts).foldl (· + ·) 0,
        ((rs.map d.piece).map Piece.render).flatten) ∧
      writeChunks d.swap fuel = some (((rs.map d.piece).map Piece.conflicts).foldl (· + ·) 0,
        ((rs.map d.piece).map fun p => p.swap.render).flatten) := by
  obtain ⟨mA, mB, rs, hmA, hmB, hrs, ht, hw⟩ := writeChunks_pieces hd hfuel
  have hd' : setup baseT theirsT oursT = some d.swap := by rw [setup_swap, hd]; rfl
  obtain ⟨mB', mA', rs', hmB', hmA', hrs', -, hw'⟩ := writeChunks_pieces hd' hfuel
  obtain rfl : mB = mB' := Option.some.inj (hmB.symm.trans hmB')
  obtain rfl : mA = mA' := Option.some.inj (hmA.symm.trans hmA')
  have hsw := writeChunksLoop_swap d mA mB fuel ⟨0, 0, 0⟩
  rw [hrs] at hsw
  obtain rfl : rs' = rs.map IndexRange.swap := Option.some.inj (hrs'.symm.trans hsw)
  refine ⟨mA, mB, rs, hmA, hrs, ht, hw, ?_⟩
  rw [hw']
  simp only [List.map_map, Function.comp_def, piece_swap, Piece.conflicts_swap]

/-- Exchanging ours and theirs, the merge fails or not as before; it counts the same conflicts
and writes the same pieces, each conflict hunk with its two blocks exchanged. -/
theorem merge_swap_sides (baseT x y : List String) :
    ∃ ps : Option (List Piece),
      (setup baseT x y).bind (fun d => writeChunks d (2 * baseT.length + 2)) =
        ps.map (fun ps => ((ps.map Piece.conflicts).foldl (· + ·) 0,
          (ps.map Piece.render).flatten)) ∧
      (setup baseT y x).bind (fun d => writeChunks d (2 * baseT.length + 2)) =
        ps.map (fun ps => ((ps.map Piece.conflicts).foldl (· + ·) 0,
          (ps.map fun p => p.swap.render).flatten)) := by
  rw [setup_swap baseT x y]
  cases hd : setup baseT x y with
  | none => exact ⟨none, rfl, rfl⟩
  | some d =>
    obtain ⟨-, -, rs, -, -, -, hw, hw'⟩ := writeChunks_swap hd le_rfl
    exact ⟨some (rs.map d.piece), hw, hw'⟩

/-! ## Two identical sides -/

theorem map_eq_self_mem {α : Type} {f : α → α} : ∀ {l : List α}, l.map f = l → ∀ x ∈ l, f x = x
  | [], _, _, hx => absurd hx (List.not_mem_nil _)
  | y :: l, h, x, hx => by
    rw [List.map_cons, List.cons.injEq] at h
    rcases List.mem_cons.1 hx with rfl | hx
    · exact h.1
    · exact map_eq_self_mem h.2 x hx

theorem chunkPiece_same (base bl : List String) : chunkPiece base bl bl = .lines bl := by
  unfold chunkPiece
  by_cases h : bl = base <;> simp [h]

/-- Merging a file with itself writes the file, whatever the base, and counts no conflict. -/
theorem merge_same_sides (baseT x : List String) :
    (setup baseT x x).bind (fun d => writeChunks d (2 * baseT.length + 2)) =
      (setup baseT x x).map fun _ => (0, writeBlockToFile x) := by
  cases hd : setup baseT x x with
  | none => rfl
  | some d =>
    have hself : d.swap = d := by
      have := setup_swap baseT x x
      rw [hd] at this
      exact (Option.some.inj this).symm
    obtain ⟨mA, mB, rs, hmA, hmB, hrs, ht, hw⟩ := writeChunks_pieces hd le_rfl
    obtain rfl : mB = mA := Option.some.inj (hmB.symm.trans (by
      rw [show d.diffB = d.swap.diffA from rfl, hself, hmA]))
    have hsw := writeChunksLoop_swap d mB mB (2 * baseT.length + 2) ⟨0, 0, 0⟩
    rw [hself, show (⟨0, 0, 0⟩ : Indexes).swap = ⟨0, 0, 0⟩ from rfl, hrs] at hsw
    have hfix := map_eq_self_mem (Option.some.inj hsw).symm
    have hpiece : ∀ ir ∈ rs,
        d.piece ir = .lines (texts (lineRange d.a ir.«from».aIndex ir.«to».aIndex)) := by
      intro ir hir
      have hfrom : ir.«from».bIndex = ir.«from».aIndex := congrArg (·.«from».aIndex) (hfix ir hir)
      have hto : ir.«to».bIndex = ir.«to».aIndex := congrArg (·.«to».aIndex) (hfix ir hir)
      have hab : d.b = d.a := by rw [show d.b = d.swap.a from rfl, hself]
      rw [Diff3.piece, hab, hfrom, hto, chunkPiece_same]
    rw [Option.some_bind, hw, List.map_congr_left hpiece, Option.map_some',
      foldl_add_eq_zero (by simp [Piece.conflicts]),
      ht.render_lines (f := Indexes.aIndex) (fun _ _ h => h.2.1) rfl rfl, (setup_spec hd).2.1,
      getFileLines, texts_getFileLinesFrom]

/-! ## An unchanged side -/

/-- The script that keeps every line. -/
theorem editScript_self : ∀ L : List FileLine,
    EditScript (L.map fun l => ⟨some l, some l, .eql⟩) L L
  | [] => .nil
  | l :: L => .eql l l rfl (editScript_self L)

/-- An edit script without insertions or deletions matches the two files line by line. -/
theorem EditScript.eqlPairs_of_changes {s : List FileDiff} {as bs : List FileLine}
    (h : EditScript s as bs) (h0 : changes s = 0) :
    eqlPairs s = List.zipWith (fun l l' => (l.number, l'.number)) as bs := by
  induction h with
  | nil => rfl
  | ins l _ _ | del l _ _ => simp [changes, FileDiff.isChange] at h0
  | eql l l' _ _ ih =>
    simp only [changes, FileDiff.isChange, List.countP_cons, bne_self_eq_false, if_false,
      Nat.add_zero] at h0
    simp only [eqlPairs, List.filterMap_cons, if_true, Option.some_bind, Option.map_some'] at ih ⊢
    rw [ih h0]
    rfl

/-- The diff of a file with itself matches each line only to itself. -/
theorem getMatches_diff_self {L : List FileLine} {ops : List FileDiff} (h : diff L L = some ops)
    {m : Int → Option Int} (hm : getMatches ops = some m) : ∀ p q, m p = some q → q = p := by
  obtain ⟨ops', -, -, hd, hs, -, hmin⟩ :=
    diff_spec ((diff_isSome_iff (a := L) (b := L)).1 (by simp [h]))
  obtain rfl : ops = ops' := Option.some.inj (h.symm.trans hd)
  have h0 : changes ops.reverse = 0 := by
    rw [changes_reverse]
    exact Nat.le_zero.1 ((hmin _ (editScript_self L)).trans_eq (by simp [changes, FileDiff.isChange]))
  obtain ⟨m', hm', hsub⟩ := getMatches_fold ops (fun _ => none) fun e he ht => by
    obtain ⟨la, lb, h1, h2, -⟩ := hs.eql_text e (List.mem_reverse.2 he) ht
    exact ⟨la, lb, h1, h2⟩
  obtain rfl : m = m' := Option.some.inj (hm.symm.trans hm')
  intro p q hpq
  rcases hsub p q hpq with h | h
  · cases h
  have h' : (p, q) ∈ eqlPairs ops.reverse := by simpa [eqlPairs, List.filterMap_reverse] using h
  rw [hs.eqlPairs_of_changes h0, List.zipWith_same, List.mem_map] at h'
  obtain ⟨l, -, hl⟩ := h'
  rw [Prod.mk.injEq] at hl
  rw [← hl.1, ← hl.2]

section follow
variable {d : Diff3} {mA mB : Int → Option Int}
  (hA : ∀ p q, mA p = some q → q = p) (hlen : d.a.length = d.base.length)
include hA hlen

/-- From positions where ours sits on the base, one iteration of the walk gives a range from
them to positions where ours sits on the base again, which are the next positions. -/
theorem chunkStep_follows {cur : Indexes} (hc : cur.aIndex = cur.baseIndex) :
    (chunkStep d mA mB cur).1.«from» = cur ∧
      (chunkStep d mA mB cur).1.«to».aIndex = (chunkStep d mA mB cur).1.«to».baseIndex ∧
      ∀ n, (chunkStep d mA mB cur).2 = some n → n = (chunkStep d mA mB cur).1.«to» := by
  unfold chunkStep
  dsimp only
  by_cases hi : getNextMismatch d mA mB cur.baseIndex cur.aIndex cur.bIndex = 0
  · rw [if_pos hi]
    cases hm : getNextMatch d mA mB cur.baseIndex with
    | none => exact ⟨rfl, by simp [emitFinalChunk, hlen], fun _ h => by cases h⟩
    | some m => exact ⟨rfl, hA _ _ (matchLoop_some hm).2.1, fun _ h => (Option.some.inj h).symm⟩
  · rw [if_neg hi]
    split
    · exact ⟨rfl, by simp [emitChunk, hc], fun _ h => (Option.some.inj h).symm⟩
    · exact ⟨rfl, by simp [emitFinalChunk, hlen], fun _ h => by cases h⟩

/-- Every range of the walk from such positions keeps ours on the base at both ends. -/
theorem writeChunksLoop_follows : ∀ (fuel : Nat) {cur : Indexes} {rs : List IndexRange},
    cur.aIndex = cur.baseIndex → writeChunksLoop d mA mB fuel cur = some rs →
      ∀ ir ∈ rs, ir.«from».aIndex = ir.«from».baseIndex ∧ ir.«to».aIndex = ir.«to».baseIndex
  | 0, _, _, _, h => by cases h
  | fuel + 1, cur, rs, hc, h => by
    obtain ⟨hfrom, hto, hnext⟩ := chunkStep_follows hA hlen hc
    rw [writeChunksLoop] at h
    rcases hs : chunkStep d mA mB cur with ⟨ir, _ | n⟩ <;> rw [hs] at h hfrom hto hnext
    · cases h
      intro ir' hir'
      rw [List.mem_singleton] at hir'
      subst hir'
      exact ⟨hfrom ▸ hc, hto⟩
    · obtain ⟨rs', hrs', rfl⟩ := Option.map_eq_some'.1 h
      have hn := hnext n rfl
      intro ir' hir'
      rcases List.mem_cons.1 hir' with rfl | hir'
      · exact ⟨hfrom ▸ hc, hto⟩
      · exact writeChunksLoop_follows fuel (hn ▸ hto) hrs' ir' hir'

end follow

/-- `setup`'s two diffs, from the base to each side. -/
theorem setup_diffs {baseT oursT theirsT : List String} {d : Diff3}
    (hd : setup baseT oursT theirsT = some d) :
    diff d.base d.a = some d.diffA ∧ diff d.base d.b = some d.diffB := by
  unfold setup at hd
  simp only [Option.bind_eq_bind, Option.bind_eq_some, Option.pure_def, Option.some.injEq] at hd
  obtain ⟨dA, hA, dB, hB, rfl⟩ := hd
  exact ⟨hA, hB⟩

/-- With ours the base, every chunk of the walk writes its theirs block. -/
theorem pieces_ours_base {baseT theirsT : List String} {d : Diff3}
    (hd : setup baseT baseT theirsT = some d) {mA mB : Int → Option Int} {fuel : Nat}
    {rs : List IndexRange} (hmA : getMatches d.diffA = some mA)
    (hrs : writeChunksLoop d mA mB fuel ⟨0, 0, 0⟩ = some rs) :
    ∀ ir ∈ rs, d.piece ir = .lines (texts (lineRange d.b ir.«from».bIndex ir.«to».bIndex)) := by
  obtain ⟨hb, ha, -⟩ := setup_spec hd
  have hab : d.a = d.base := ha.trans hb.symm
  obtain ⟨hdA, -⟩ := setup_diffs hd
  rw [hab] at hdA
  have hA := getMatches_diff_self hdA hmA
  intro ir hir
  obtain ⟨hfrom, hto⟩ := writeChunksLoop_follows hA (by rw [hab]) fuel rfl hrs ir hir
  rw [Diff3.piece, hab, hfrom, hto]
  unfold chunkPiece
  rw [if_pos rfl]

/-- Merging with one side the base writes the other side, and counts no conflict. -/
theorem merge_unchanged_side (baseT x y : List String) :
    (setup baseT baseT y).bind (fun d => writeChunks d (2 * baseT.length + 2)) =
        (setup baseT baseT y).map (fun _ => (0, writeBlockToFile y)) ∧
      (setup baseT x baseT).bind (fun d => writeChunks d (2 * baseT.length + 2)) =
        (setup baseT x baseT).map (fun _ => (0, writeBlockToFile x)) := by
  have hout {theirsT : List String} {d : Diff3} (hd : setup baseT baseT theirsT = some d)
      {rs : List IndexRange} (ht : Tiles ⟨0, 0, 0⟩ rs d.ends)
      (hp : ∀ ir ∈ rs, d.piece ir = .lines (texts (lineRange d.b ir.«from».bIndex ir.«to».bIndex)))
      (render : Piece → List String) (hr : ∀ bl, render (.lines bl) = writeBlockToFile bl) :
      (((rs.map d.piece).map Piece.conflicts).foldl (· + ·) 0,
        ((rs.map d.piece).map render).flatten) = (0, writeBlockToFile theirsT) := by
    rw [List.map_congr_left hp, foldl_add_eq_zero (by simp [Piece.conflicts])]
    have := ht.render_lines (f := Indexes.bIndex) (fun _ _ h => h.2.2) rfl rfl
    simp only [List.map_map, Function.comp_def, hr, Piece.render] at this ⊢
    rw [this, (setup_spec hd).2.2.1, getFileLines, texts_getFileLinesFrom]
  constructor
  · cases hd : setup baseT baseT y with
    | none => rfl
    | some d =>
      obtain ⟨mA, mB, rs, hmA, -, hrs, ht, hw⟩ := writeChunks_pieces hd le_rfl
      rw [Option.some_bind, hw, hout hd ht (pieces_ours_base hd hmA hrs) _ fun _ => rfl]
      rfl
  · rw [setup_swap baseT baseT x]
    cases hd : setup baseT baseT x with
    | none => rfl
    | some d =>
      obtain ⟨mA, mB, rs, hmA, hrs, ht, -, hw⟩ := writeChunks_swap hd le_rfl
      rw [Option.map_some', Option.some_bind, hw,
        hout hd ht (pieces_ours_base hd hmA hrs) _ fun _ => rfl]
      rfl

end MergeCore
