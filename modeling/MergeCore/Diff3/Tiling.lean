import MergeCore.Differ.Correct
import MergeCore.Diff3.Model

/-!
# The chunks of `writeChunks` tile the three files

The matches of a Myers diff from numbered files form a strictly increasing map from base
lines to lines of the other file (`MatchMap`, `getMatches_matchMap`). Over two such maps the
positions of `writeChunks`' loop stay inside the files with no match behind them
(`CursorOk`): a step either writes the final chunk, or writes a chunk from the positions to
the next ones, which are again `CursorOk`, no smaller, and lower in `loopMeasure`
(`chunkStep_spec`). So the loop ends within `2 * |base| + 2` iterations, its ranges chain
from `(0, 0, 0)` to the ends of the files (`Tiles`), and `writeChunk` reads every line inside
the files (`writeChunk_isSome`).
-/

namespace MergeCore

/-! ## Matches of a diff -/

/-- A strictly increasing map from base lines `[0, nBase)` to lines `[0, nX)`. -/
structure MatchMap (m : Int → Option Int) (nBase nX : Nat) : Prop where
  bounds : ∀ p q, m p = some q → 0 ≤ p ∧ p < nBase ∧ 0 ≤ q ∧ q < nX
  mono : ∀ p p' q q', m p = some q → m p' = some q' → p < p' → q < q'

theorem mem_pairwise {α : Type} {R : α → α → Prop} :
    ∀ {l : List α}, l.Pairwise R → ∀ {x y : α}, x ∈ l → y ∈ l → x = y ∨ R x y ∨ R y x
  | [], _, _, _, hx, _ => absurd hx (List.not_mem_nil _)
  | z :: l, h, x, y, hx, hy => by
    rw [List.pairwise_cons] at h
    simp only [List.mem_cons] at hx hy
    rcases hx with rfl | hx <;> rcases hy with rfl | hy
    · exact .inl rfl
    · exact .inr (.inl (h.1 _ hy))
    · exact .inr (.inr (h.1 _ hx))
    · exact mem_pairwise h.2 hx hy

theorem mem_eqlPairs_tail {e : FileDiff} {fd : List FileDiff} {x : Int × Int}
    (h : x ∈ eqlPairs fd) : x ∈ eqlPairs (e :: fd) := by
  unfold eqlPairs at h ⊢
  rw [List.filterMap_cons]
  split <;> simp only [List.mem_cons, h, or_true]

theorem mem_eqlPairs_head {e : FileDiff} {fd : List FileDiff} {la lb : FileLine}
    (ht : e.diffType = .eql) (ha : e.lineA = some la) (hb : e.lineB = some lb) :
    (la.number, lb.number) ∈ eqlPairs (e :: fd) := by
  simp [eqlPairs, ht, ha, hb]

/-- The loop of `getMatches` only adds the pairs of equal steps. -/
theorem getMatches_fold : ∀ (fd : List FileDiff) (m0 : Int → Option Int),
    (∀ e ∈ fd, e.diffType = .eql → ∃ la lb, e.lineA = some la ∧ e.lineB = some lb) →
      ∃ m, fd.foldlM getMatchesStep m0 = some m ∧
        ∀ p q, m p = some q → m0 p = some q ∨ (p, q) ∈ eqlPairs fd
  | [], m0, _ => ⟨m0, rfl, fun _ _ h => .inl h⟩
  | e :: fd, m0, he => by
    have hrest := fun e' h => he e' (List.mem_cons_of_mem e h)
    by_cases ht : e.diffType = .eql
    · obtain ⟨la, lb, ha, hb⟩ := he e (List.mem_cons_self e fd) ht
      obtain ⟨m, hm, hsub⟩ := getMatches_fold fd
        (fun n => if n = la.number then some lb.number else m0 n) hrest
      refine ⟨m, by simpa [getMatchesStep, ht, ha, hb] using hm, fun p q hpq => ?_⟩
      rcases hsub p q hpq with h | h
      · split at h
        · rename_i hp
          cases h
          exact .inr (hp ▸ mem_eqlPairs_head ht ha hb)
        · exact .inl h
      · exact .inr (mem_eqlPairs_tail h)
    · obtain ⟨m, hm, hsub⟩ := getMatches_fold fd m0 hrest
      exact ⟨m, by simpa [getMatchesStep, ht] using hm, fun p q hpq =>
        (hsub p q hpq).imp_right mem_eqlPairs_tail⟩

theorem mem_range_ofNat {p : Int} {n : Nat} (h : p ∈ (List.range n).map Int.ofNat) :
    0 ≤ p ∧ p < n := by
  obtain ⟨i, hi, rfl⟩ := List.mem_map.1 h
  exact ⟨Int.ofNat_nonneg i, Int.ofNat_lt.2 (List.mem_range.1 hi)⟩

/-- The matches of an edit script between numbered files form a `MatchMap`. -/
theorem getMatches_matchMap {fd : List FileDiff} {base x : List FileLine}
    (hs : EditScript fd.reverse base x) (hb : Numbered base) (hx : Numbered x) :
    ∃ m, getMatches fd = some m ∧ MatchMap m base.length x.length := by
  obtain ⟨m, hm, hsub⟩ := getMatches_fold fd (fun _ => none) fun e he ht => by
    obtain ⟨la, lb, h1, h2, -⟩ := hs.eql_text e (List.mem_reverse.2 he) ht
    exact ⟨la, lb, h1, h2⟩
  have hpairs : ∀ p q, m p = some q → (p, q) ∈ eqlPairs fd.reverse := fun p q h => by
    rcases hsub p q h with h | h
    · cases h
    · simpa [eqlPairs, List.filterMap_reverse] using h
  have hmono (n : Nat) : ((List.range n).map Int.ofNat).Pairwise (· < ·) :=
    List.pairwise_map.2 ((List.pairwise_lt_range n).imp fun h => Int.ofNat_lt.2 h)
  obtain ⟨hinc, hin⟩ := hs.eqlPairs_increasing (hb ▸ hmono _) (hx ▸ hmono _)
  refine ⟨m, hm, ⟨fun p q h => ?_, fun p p' q q' h h' hlt => ?_⟩⟩
  · obtain ⟨h1, h2⟩ := hin _ (hpairs p q h)
    rw [hb] at h1
    rw [hx] at h2
    exact ⟨(mem_range_ofNat h1).1, (mem_range_ofNat h1).2, (mem_range_ofNat h2).1,
      (mem_range_ofNat h2).2⟩
  · rcases mem_pairwise hinc (hpairs p q h) (hpairs p' q' h') with he | ⟨-, hq⟩ | ⟨hp, -⟩
    · cases he; omega
    · exact hq
    · exact absurd hp (by simpa using hlt.le)

/-! ## Positions and ranges -/

instance : LE Indexes :=
  ⟨fun x y => x.baseIndex ≤ y.baseIndex ∧ x.aIndex ≤ y.aIndex ∧ x.bIndex ≤ y.bIndex⟩

theorem Indexes.le_def {x y : Indexes} :
    x ≤ y ↔ x.baseIndex ≤ y.baseIndex ∧ x.aIndex ≤ y.aIndex ∧ x.bIndex ≤ y.bIndex := Iff.rfl

/-- The ends of the three files. -/
def Diff3.ends (d : Diff3) : Indexes := ⟨d.base.length, d.a.length, d.b.length⟩

/-- The ranges chain from `s` to `e`: each starts where the previous one ended, with
`from ≤ to`. -/
def Tiles : Indexes → List IndexRange → Indexes → Prop
  | s, [], e => s = e
  | s, ir :: rs, e => ir.«from» = s ∧ ir.«from» ≤ ir.«to» ∧ Tiles ir.«to» rs e

/-- The line numbers of one file that a range covers. -/
def span (f : Indexes → Int) (ir : IndexRange) : List Nat :=
  List.range' (f ir.«from»).toNat (f ir.«to» - f ir.«from»).toNat

/-- Every range of a tiling lies between its ends. -/
theorem Tiles.le : ∀ {s : Indexes} {rs : List IndexRange} {e : Indexes}, Tiles s rs e → s ≤ e
  | s, [], e, h => by cases h; exact ⟨le_rfl, le_rfl, le_rfl⟩
  | s, ir :: rs, e, h => by
    obtain ⟨rfl, hle, ht⟩ := h
    have := ht.le
    rw [Indexes.le_def] at *
    omega

/-- The ranges of a tiling cover the lines from `s` to `e` of each file once, in order. -/
theorem Tiles.spans {f : Indexes → Int} (hf : ∀ x y : Indexes, x ≤ y → f x ≤ f y) :
    ∀ {s : Indexes} {rs : List IndexRange} {e : Indexes}, Tiles s rs e → 0 ≤ f s →
      (rs.map (span f)).flatten = List.range' (f s).toNat (f e - f s).toNat
  | s, [], e, h, _ => by cases h; simp
  | s, ir :: rs, e, h, h0 => by
    obtain ⟨rfl, hle, ht⟩ := h
    have h1 := hf _ _ hle
    have h2 := hf _ _ (ht.le)
    rw [List.map_cons, List.flatten_cons, Tiles.spans hf ht (by omega), span,
      show (f ir.«to»).toNat = (f ir.«from»).toNat + (f ir.«to» - f ir.«from»).toNat by omega,
      List.range'_append_1]
    congr 1; omega

theorem Tiles.mem : ∀ {s : Indexes} {rs : List IndexRange} {e : Indexes}, Tiles s rs e →
    ∀ ir ∈ rs, s ≤ ir.«from» ∧ ir.«from» ≤ ir.«to» ∧ ir.«to» ≤ e
  | s, [], e, _, ir, h => absurd h (List.not_mem_nil _)
  | s, ir' :: rs, e, h', ir, h => by
    obtain ⟨rfl, hle, ht⟩ := h'
    rcases List.mem_cons.1 h with rfl | h
    · exact ⟨⟨le_rfl, le_rfl, le_rfl⟩, hle, ht.le⟩
    · obtain ⟨h1, h2, h3⟩ := Tiles.mem ht ir h
      rw [Indexes.le_def] at *
      exact ⟨by omega, h2, h3⟩

/-! ## One iteration of the loop -/

section
variable {d : Diff3} {mA mB : Int → Option Int}

/-- The positions of `writeChunks`' loop lie inside the files, and no match of either diff
lies at or after them in the base but behind them in the other file. -/
structure CursorOk (d : Diff3) (mA mB : Int → Option Int) (cur : Indexes) : Prop where
  nonneg : 0 ≤ cur.baseIndex ∧ 0 ≤ cur.aIndex ∧ 0 ≤ cur.bIndex
  le_ends : cur.baseIndex ≤ d.base.length ∧ cur.aIndex ≤ d.a.length ∧ cur.bIndex ≤ d.b.length
  aheadA : ∀ p q, mA p = some q → cur.baseIndex ≤ p → cur.aIndex ≤ q
  aheadB : ∀ p q, mB p = some q → cur.baseIndex ≤ p → cur.bIndex ≤ q

/-- The positions sit on a base line matched in both diffs, at the matched lines. -/
def Aligned (mA mB : Int → Option Int) (cur : Indexes) : Prop :=
  mA cur.baseIndex = some cur.aIndex ∧ mB cur.baseIndex = some cur.bIndex

instance (cur : Indexes) : Decidable (Aligned mA mB cur) :=
  inferInstanceAs (Decidable (_ ∧ _))

/-- Two per base line left, less one at aligned positions. -/
def loopMeasure (d : Diff3) (mA mB : Int → Option Int) (cur : Indexes) : Nat :=
  2 * (d.base.length - cur.baseIndex).toNat + if Aligned mA mB cur then 0 else 1

/-- What one iteration of `writeChunks`' loop at `cur` does. -/
inductive IterStep (d : Diff3) (mA mB : Int → Option Int) (cur : Indexes) : Prop
  /-- It writes the final chunk and returns. -/
  | final : chunkStep d mA mB cur = (⟨cur, d.ends⟩, none) → IterStep d mA mB cur
  /-- It writes the `i ≥ 1` lines `getNextMismatch` returned, moving every cursor by `i`. -/
  | advance (i : Int) : 1 ≤ i → getNextMismatch d mA mB cur.baseIndex cur.aIndex cur.bIndex = i →
      chunkStep d mA mB cur = (⟨cur, ⟨cur.baseIndex + i, cur.aIndex + i, cur.bIndex + i⟩⟩,
        some ⟨cur.baseIndex + i, cur.aIndex + i, cur.bIndex + i⟩) → IterStep d mA mB cur
  /-- `getNextMismatch` returned `0`: it writes the chunk to the next base line matched in both
  diffs, where the three cursors are matched and `getNextMismatch` returns at least `1`. -/
  | realign (m : Match) : getNextMismatch d mA mB cur.baseIndex cur.aIndex cur.bIndex = 0 →
      getNextMatch d mA mB cur.baseIndex = some m →
      chunkStep d mA mB cur = (⟨cur, ⟨m.baseIndex, m.aIndex, m.bIndex⟩⟩,
        some ⟨m.baseIndex, m.aIndex, m.bIndex⟩) →
      Aligned mA mB ⟨m.baseIndex, m.aIndex, m.bIndex⟩ →
      1 ≤ getNextMismatch d mA mB m.baseIndex m.aIndex m.bIndex → IterStep d mA mB cur

theorem isMatch_iff {m : Int → Option Int} {lineBase offset i : Int} :
    isMatch m lineBase offset i = true ↔ m (lineBase + i) = some (offset + i) := by
  unfold isMatch; split <;> simp_all

section mismatch
variable {lb la lB : Int}

theorem le_mismatchLoop : ∀ (fuel : Nat) (i : Int), i ≤ mismatchLoop d mA mB lb la lB fuel i
  | 0, i => le_rfl
  | fuel + 1, i => by
    unfold mismatchLoop; split
    · exact (Int.le_add_one le_rfl).trans (le_mismatchLoop fuel (i + 1))
    · exact le_rfl

/-- The loop condition held at every offset the loop passed. -/
theorem mismatchLoop_cond : ∀ (fuel : Nat) (i j : Int), i ≤ j →
    j < mismatchLoop d mA mB lb la lB fuel i →
      (isInBounds d j lb la lB && isMatch mA lb la j && isMatch mB lb lB j) = true
  | 0, i, j, h1, h2 => absurd h2 (by simp [mismatchLoop]; omega)
  | fuel + 1, i, j, h1, h2 => by
    unfold mismatchLoop at h2; split at h2
    · rcases eq_or_lt_of_le h1 with rfl | h1
      · assumption
      · exact mismatchLoop_cond fuel (i + 1) j (by omega) h2
    · omega

theorem lt_mismatchLoop {fuel : Nat} {i : Int}
    (h : (isInBounds d i lb la lB && isMatch mA lb la i && isMatch mB lb lB i) = true) :
    i < mismatchLoop d mA mB lb la lB (fuel + 1) i := by
  rw [mismatchLoop, if_pos h]
  exact Int.lt_of_lt_of_le (Int.lt_add_one_iff.2 le_rfl) (le_mismatchLoop fuel (i + 1))

end mismatch

section loop
variable (hA : MatchMap mA d.base.length d.a.length) (hB : MatchMap mB d.base.length d.b.length)
include hA hB

omit hB in
/-- `getNextMismatch` at good positions: the lines before the offset it returns are matched
in both diffs, and at aligned positions it returns at least one. -/
theorem getNextMismatch_spec {cur : Indexes} (hok : CursorOk d mA mB cur) :
    let i := getNextMismatch d mA mB cur.baseIndex cur.aIndex cur.bIndex
    0 ≤ i ∧ (∀ j, 0 ≤ j → j < i →
      mA (cur.baseIndex + j) = some (cur.aIndex + j) ∧
        mB (cur.baseIndex + j) = some (cur.bIndex + j)) ∧ (Aligned mA mB cur → 0 < i) := by
  obtain ⟨⟨h0b, h0a, h0B⟩, hle, -, -⟩ := hok
  set F := (max (d.base.length - cur.baseIndex) (max (d.a.length - cur.aIndex)
    (d.b.length - cur.bIndex)) + 1).toNat
  set r := mismatchLoop d mA mB cur.baseIndex cur.aIndex cur.bIndex F 0
  have hcond (j : Int) (hj0 : 0 ≤ j) (hj : j < r) :
      mA (cur.baseIndex + j) = some (cur.aIndex + j) ∧
        mB (cur.baseIndex + j) = some (cur.bIndex + j) := by
    have := mismatchLoop_cond F 0 j hj0 hj
    simp only [Bool.and_eq_true, isMatch_iff] at this
    exact ⟨this.1.2, this.2⟩
  have hr0 : 0 ≤ r := le_mismatchLoop F 0
  have hin : isInBounds d r cur.baseIndex cur.aIndex cur.bIndex = true := by
    simp only [isInBounds, Bool.or_eq_true, decide_eq_true_eq]
    rcases eq_or_lt_of_le hr0 with h | h
    · rw [← h]; omega
    · have := hA.bounds _ _ (hcond (r - 1) (by omega) (by omega)).1
      omega
  have hi : getNextMismatch d mA mB cur.baseIndex cur.aIndex cur.bIndex = r := by
    simp only [getNextMismatch, hin, if_true]
  simp only [hi]
  refine ⟨hr0, hcond, fun hal => ?_⟩
  obtain ⟨F', hF⟩ : ∃ F', F = F' + 1 := ⟨F - 1, by omega⟩
  show 0 < mismatchLoop d mA mB cur.baseIndex cur.aIndex cur.bIndex F 0
  rw [hF]
  refine lt_mismatchLoop ?_
  simp only [Bool.and_eq_true, isMatch_iff, isInBounds, Bool.or_eq_true, decide_eq_true_eq,
    add_zero]
  exact ⟨⟨by omega, hal.1⟩, hal.2⟩

omit hA hB in
/-- What `getNextMatch`'s loop returns is a base line at or after its start, matched in both
diffs. -/
theorem matchLoop_some : ∀ {fuel : Nat} {bn : Int} {m : Match},
    matchLoop d mA mB fuel bn = some m →
      bn ≤ m.baseIndex ∧ mA m.baseIndex = some m.aIndex ∧ mB m.baseIndex = some m.bIndex
  | 0, _, _, h => by cases h
  | fuel + 1, bn, m, h => by
    unfold matchLoop at h
    split at h
    · split at h
      · cases h; simp_all
      · have := matchLoop_some h; exact ⟨by omega, this.2⟩
    · cases h

/-- A chunk to the next match leaves the positions good and aligned. -/
theorem cursorOk_match {cur : Indexes} {m : Match} (hok : CursorOk d mA mB cur)
    (hm : getNextMatch d mA mB cur.baseIndex = some m) :
    cur ≤ ⟨m.baseIndex, m.aIndex, m.bIndex⟩ ∧ CursorOk d mA mB ⟨m.baseIndex, m.aIndex, m.bIndex⟩ ∧
      Aligned mA mB ⟨m.baseIndex, m.aIndex, m.bIndex⟩ := by
  obtain ⟨h0, h1, h2⟩ := matchLoop_some hm
  have ha := hok.aheadA _ _ h1 h0
  have hb := hok.aheadB _ _ h2 h0
  have hba := hA.bounds _ _ h1
  have hbb := hB.bounds _ _ h2
  have hn := hok.nonneg
  refine ⟨⟨h0, ha, hb⟩, ⟨?_, ?_, fun p q hpq hp => ?_, fun p q hpq hp => ?_⟩, h1, h2⟩ <;>
    dsimp only at *
  · omega
  · omega
  · rcases eq_or_lt_of_le hp with rfl | hp
    · exact (Option.some.inj (h1.symm.trans hpq)).le
    · exact (hA.mono _ _ _ _ h1 hpq hp).le
  · rcases eq_or_lt_of_le hp with rfl | hp
    · exact (Option.some.inj (h2.symm.trans hpq)).le
    · exact (hB.mono _ _ _ _ h2 hpq hp).le

/-- A chunk of `i ≥ 1` lines matched in both diffs leaves the positions good. -/
theorem cursorOk_stable {cur : Indexes} {i : Int} (hok : CursorOk d mA mB cur) (hi : 0 < i)
    (hmatch : ∀ j, 0 ≤ j → j < i →
      mA (cur.baseIndex + j) = some (cur.aIndex + j) ∧
        mB (cur.baseIndex + j) = some (cur.bIndex + j)) :
    CursorOk d mA mB ⟨cur.baseIndex + i, cur.aIndex + i, cur.bIndex + i⟩ := by
  obtain ⟨ha, hb⟩ := hmatch (i - 1) (by omega) (by omega)
  have hba := hA.bounds _ _ ha
  have hbb := hB.bounds _ _ hb
  have hn := hok.nonneg
  refine ⟨?_, ?_, fun p q hpq hp => ?_, fun p q hpq hp => ?_⟩ <;> dsimp only at *
  · omega
  · omega
  · have := hA.mono _ _ _ _ ha hpq (by omega)
    omega
  · have := hB.mono _ _ _ _ hb hpq (by omega)
    omega

/-- One iteration of `writeChunks`' loop from good positions: it writes the final chunk, or a
chunk to good positions no smaller and lower in `loopMeasure`. -/
theorem chunkStep_spec {cur : Indexes} (hok : CursorOk d mA mB cur) :
    (∃ n, chunkStep d mA mB cur = (⟨cur, n⟩, some n) ∧ cur ≤ n ∧ CursorOk d mA mB n ∧
        loopMeasure d mA mB n < loopMeasure d mA mB cur) ∨
      chunkStep d mA mB cur = (⟨cur, d.ends⟩, none) := by
  obtain ⟨hi0, hmatch, hal⟩ := getNextMismatch_spec hA hok
  have hbase := hok.le_ends.1
  unfold chunkStep
  dsimp only [emitChunk]
  by_cases hi : getNextMismatch d mA mB cur.baseIndex cur.aIndex cur.bIndex = 0
  · have hna : ¬ Aligned mA mB cur := fun h => by have := hal h; omega
    rw [if_pos hi]
    cases hm : getNextMatch d mA mB cur.baseIndex with
    | none => exact .inr rfl
    | some m =>
      obtain ⟨hle, hok', hal'⟩ := cursorOk_match hA hB hok hm
      refine .inl ⟨_, rfl, hle, hok', ?_⟩
      have := hok'.le_ends.1
      have := hle.1
      simp only [loopMeasure, hal', hna, if_true, if_false] at *
      omega
  · rw [if_neg hi, if_pos (by omega)]
    have hok' := cursorOk_stable hA hB hok (by omega) hmatch
    refine .inl ⟨_, rfl, ⟨by dsimp only; omega, by dsimp only; omega, by dsimp only; omega⟩, hok', ?_⟩
    have := hok'.le_ends.1
    unfold loopMeasure
    dsimp only at this ⊢
    split <;> split <;> omega

/-- From good positions, enough fuel runs the loop to its end, and its ranges tile the rest of
the files. -/
theorem writeChunksLoop_spec : ∀ (fuel : Nat) {cur : Indexes}, CursorOk d mA mB cur →
    loopMeasure d mA mB cur < fuel →
      ∃ rs, writeChunksLoop d mA mB fuel cur = some rs ∧ rs ≠ [] ∧ Tiles cur rs d.ends
  | 0, _, _, h => absurd h (Nat.not_lt_zero _)
  | fuel + 1, cur, hok, hfuel => by
    rcases chunkStep_spec hA hB hok with ⟨n, hstep, hle, hok', hlt⟩ | hstep
    · obtain ⟨rs, hrs, -, ht⟩ := writeChunksLoop_spec fuel hok' (by omega)
      exact ⟨⟨cur, n⟩ :: rs, by rw [writeChunksLoop, hstep]; simp [hrs], List.cons_ne_nil _ _,
        rfl, hle, ht⟩
    · exact ⟨[⟨cur, d.ends⟩], by rw [writeChunksLoop, hstep], List.cons_ne_nil _ _, rfl,
        hok.le_ends, rfl⟩

/-- The loop starts from good positions. -/
theorem cursorOk_zero : CursorOk d mA mB ⟨0, 0, 0⟩ :=
  ⟨⟨le_rfl, le_rfl, le_rfl⟩, ⟨Int.ofNat_nonneg _, Int.ofNat_nonneg _, Int.ofNat_nonneg _⟩,
    fun p q h _ => (hA.bounds p q h).2.2.1, fun p q h _ => (hB.bounds p q h).2.2.1⟩

/-- From good positions, an iteration does one of the three things of `IterStep`. -/
theorem iterStep_of_cursorOk {cur : Indexes} (hok : CursorOk d mA mB cur) : IterStep d mA mB cur := by
  have hi0 := (getNextMismatch_spec hA hok).1
  by_cases hi : getNextMismatch d mA mB cur.baseIndex cur.aIndex cur.bIndex = 0
  · cases hm : getNextMatch d mA mB cur.baseIndex with
    | none => exact .final (by rw [chunkStep, if_pos hi, hm]; rfl)
    | some m =>
      obtain ⟨-, hok', hal'⟩ := cursorOk_match hA hB hok hm
      have h1 : 0 < getNextMismatch d mA mB m.baseIndex m.aIndex m.bIndex :=
        (getNextMismatch_spec hA hok').2.2 hal'
      exact .realign m hi hm (by rw [chunkStep, if_pos hi, hm]; rfl) hal' (by omega)
  · exact .advance _ (by omega) rfl (by rw [chunkStep, if_neg hi, if_pos (by omega)]; rfl)

/-- The loop iterates from good positions only, at most `fuel` times, and each range it
writes is the one of the iteration at the range's start. -/
theorem writeChunksLoop_steps : ∀ (fuel : Nat) {cur : Indexes} {rs : List IndexRange},
    CursorOk d mA mB cur → writeChunksLoop d mA mB fuel cur = some rs →
      rs.length ≤ fuel ∧ ∀ ir ∈ rs, (chunkStep d mA mB ir.from).1 = ir ∧ CursorOk d mA mB ir.from
  | 0, _, _, _, h => by cases h
  | fuel + 1, cur, rs, hok, h => by
    rcases chunkStep_spec hA hB hok with ⟨n, hstep, -, hok', -⟩ | hstep
    · rw [writeChunksLoop, hstep] at h
      obtain ⟨rs', hrs', rfl⟩ := Option.map_eq_some'.1 h
      obtain ⟨hlen, hall⟩ := writeChunksLoop_steps fuel hok' hrs'
      refine ⟨by simp only [List.length_cons]; omega, ?_⟩
      simp only [List.mem_cons]
      rintro ir (rfl | hir)
      · exact ⟨by rw [hstep], hok⟩
      · exact hall ir hir
    · rw [writeChunksLoop, hstep] at h
      cases h
      simp [hstep, hok]

end loop

end

/-! ## `writeChunk` inside the files -/

theorem sideStep_isSome {lines : List FileLine} {toIdx : Int} (differs : FileLine → Bool)
    {s : Side} (h0 : 0 ≤ s.cursor) (hto : toIdx ≤ lines.length) :
    ∃ s', sideStep lines toIdx differs s = some s' ∧ 0 ≤ s'.cursor := by
  unfold sideStep
  split
  · obtain ⟨l, hl⟩ := goIndex_isSome (s := lines) h0 (by omega)
    exact ⟨⟨s.cursor + 1, s.block ++ [l.text], if differs l then s.notEql ++ [l] else s.notEql⟩,
      by simp [hl], by dsimp only; omega⟩
  · exact ⟨s, rfl, h0⟩

theorem tailLoop_isSome {lines : List FileLine} {toIdx : Int} (hto : toIdx ≤ lines.length) :
    ∀ (fuel : Nat) {s : Side}, 0 ≤ s.cursor → (tailLoop lines toIdx fuel s).isSome
  | 0, _, _ => rfl
  | fuel + 1, s, h0 => by
    unfold tailLoop
    split
    · obtain ⟨s', hs', h0'⟩ := sideStep_isSome (fun _ => true) h0 hto
      rw [hs']
      exact tailLoop_isSome hto fuel h0'
    · rfl

theorem baseLoop_isSome {d : Diff3} {toBase toA toB : Int} (hb : toBase ≤ d.base.length)
    (ha : toA ≤ d.a.length) (hB : toB ≤ d.b.length) :
    ∀ (fuel : Nat) (i : Int) (sA sB : Side), 0 ≤ i → 0 ≤ sA.cursor → 0 ≤ sB.cursor →
      ∃ sA' sB', baseLoop d toBase toA toB fuel i sA sB = some (sA', sB') ∧
        0 ≤ sA'.cursor ∧ 0 ≤ sB'.cursor
  | 0, _, sA, sB, _, hA, hB => ⟨sA, sB, rfl, hA, hB⟩
  | fuel + 1, i, sA, sB, hi, hA, hB' => by
    unfold baseLoop
    split
    · obtain ⟨l, hl⟩ := goIndex_isSome (s := d.base) hi (by omega)
      obtain ⟨sA', hsA, hA'⟩ := sideStep_isSome (fun x => l.text != x.text) hA ha
      obtain ⟨sB', hsB, hB''⟩ := sideStep_isSome (fun x => l.text != x.text) hB' hB
      simp only [hl, hsA, hsB, Option.bind_eq_bind, Option.some_bind]
      exact baseLoop_isSome hb ha hB fuel _ _ _ (by omega) hA' hB''
    · exact ⟨sA, sB, rfl, hA, hB'⟩

/-- `writeChunk` does not panic on a range inside the files. -/
theorem writeChunk_isSome {d : Diff3} {ir : IndexRange}
    (h0 : 0 ≤ ir.«from».baseIndex ∧ 0 ≤ ir.«from».aIndex ∧ 0 ≤ ir.«from».bIndex)
    (hle : ir.«to» ≤ d.ends) : (writeChunk d ir).isSome := by
  obtain ⟨hb, ha, hB⟩ := hle
  obtain ⟨sA, sB, hl, hA, hB'⟩ := baseLoop_isSome (d := d) hb ha hB
    (ir.«to».baseIndex - ir.«from».baseIndex).toNat _ ⟨ir.«from».aIndex, [], []⟩
    ⟨ir.«from».bIndex, [], []⟩ h0.1 h0.2.1 h0.2.2
  have hta := tailLoop_isSome ha (ir.«to».aIndex - sA.cursor).toNat hA
  have htb := tailLoop_isSome hB (ir.«to».bIndex - sB.cursor).toNat hB'
  rw [Option.isSome_iff_exists] at hta htb
  obtain ⟨sA', hsA⟩ := hta
  obtain ⟨sB', hsB⟩ := htb
  simp [writeChunk, hl, hsA, hsB]

/-! ## The tiling -/

theorem mapM_some_of_forall {α β : Type} {f : α → Option β} :
    ∀ {l : List α}, (∀ x ∈ l, (f x).isSome) → ∃ ys, l.mapM f = some ys
  | [], _ => ⟨[], rfl⟩
  | x :: l, h => by
    obtain ⟨y, hy⟩ := Option.isSome_iff_exists.1 (h x (List.mem_cons_self x l))
    obtain ⟨ys, hys⟩ := mapM_some_of_forall fun z hz => h z (List.mem_cons_of_mem x hz)
    exact ⟨y :: ys, mapM_cons_some hy hys⟩

theorem length_getFileLinesFrom : ∀ (i : Nat) (ts : List String),
    (getFileLinesFrom i ts).length = ts.length
  | _, [] => rfl
  | i, _ :: ts => by simp [getFileLinesFrom, length_getFileLinesFrom (i + 1) ts]

theorem numbered_getFileLinesFrom : ∀ (i : Nat) (ts : List String),
    (getFileLinesFrom i ts).map (·.number) = (List.range' i ts.length).map Int.ofNat
  | _, [] => rfl
  | i, t :: ts => by
    simp [getFileLinesFrom, List.range'_succ, numbered_getFileLinesFrom (i + 1) ts]

theorem getFileLines_numbered (ts : List String) : Numbered (getFileLines ts) := by
  unfold Numbered getFileLines
  rw [numbered_getFileLinesFrom, List.range_eq_range']
  simp [length_getFileLinesFrom]

theorem length_getFileLines (ts : List String) : (getFileLines ts).length = ts.length :=
  length_getFileLinesFrom 0 ts

/-- `setup` sets up numbered files whose diffs' matches form `MatchMap`s. -/
theorem setup_spec {baseT oursT theirsT : List String} {d : Diff3}
    (hd : setup baseT oursT theirsT = some d) :
    d.base = getFileLines baseT ∧ d.a = getFileLines oursT ∧ d.b = getFileLines theirsT ∧
      (∃ mA, getMatches d.diffA = some mA ∧ MatchMap mA d.base.length d.a.length) ∧
      ∃ mB, getMatches d.diffB = some mB ∧ MatchMap mB d.base.length d.b.length := by
  unfold setup at hd
  simp only [Option.bind_eq_bind, Option.bind_eq_some, Option.pure_def, Option.some.injEq] at hd
  obtain ⟨dA, hA, dB, hB, rfl⟩ := hd
  have hsA := (diff_editScript (getFileLines_numbered _) (getFileLines_numbered _) hA).1
  have hsB := (diff_editScript (getFileLines_numbered _) (getFileLines_numbered _) hB).1
  exact ⟨rfl, rfl, rfl, getMatches_matchMap hsA (getFileLines_numbered _) (getFileLines_numbered _),
    getMatches_matchMap hsB (getFileLines_numbered _) (getFileLines_numbered _)⟩

/-- The ranges `writeChunks` passes to `writeChunk` tile the three files: they chain from
`(0, 0, 0)` to the ends with `from ≤ to`, `writeChunk` reads each inside the files, and each
line of each file falls in exactly one range. -/
theorem writeChunks_tiles {baseT oursT theirsT : List String} {d : Diff3}
    (hd : setup baseT oursT theirsT = some d) {fuel : Nat} (hfuel : 2 * baseT.length + 2 ≤ fuel) :
    ∃ matchesA matchesB rs, getMatches d.diffA = some matchesA ∧
      getMatches d.diffB = some matchesB ∧
      writeChunksLoop d matchesA matchesB fuel ⟨0, 0, 0⟩ = some rs ∧ rs ≠ [] ∧
      Tiles ⟨0, 0, 0⟩ rs ⟨baseT.length, oursT.length, theirsT.length⟩ ∧
      (∀ ir ∈ rs, (writeChunk d ir).isSome) ∧ (writeChunks d fuel).isSome ∧
      (rs.map (span Indexes.baseIndex)).flatten = List.range baseT.length ∧
      (rs.map (span Indexes.aIndex)).flatten = List.range oursT.length ∧
      (rs.map (span Indexes.bIndex)).flatten = List.range theirsT.length := by
  obtain ⟨hb, ha, hB, ⟨mA, hmA, hA⟩, ⟨mB, hmB, hB'⟩⟩ := setup_spec hd
  have hends : d.ends = ⟨baseT.length, oursT.length, theirsT.length⟩ := by
    simp [Diff3.ends, hb, ha, hB, length_getFileLines]
  have hok := cursorOk_zero hA hB'
  obtain ⟨rs, hrs, hne, ht⟩ := writeChunksLoop_spec hA hB' fuel hok (by
    have : loopMeasure d mA mB ⟨0, 0, 0⟩ ≤ 2 * baseT.length + 1 := by
      unfold loopMeasure; dsimp only; rw [hb, length_getFileLines]; split <;> omega
    omega)
  have hw : ∀ ir ∈ rs, (writeChunk d ir).isSome := fun ir hir => by
    obtain ⟨h1, -, h3⟩ := ht.mem ir hir
    exact writeChunk_isSome ⟨h1.1, h1.2.1, h1.2.2⟩ h3
  rw [hends] at ht
  have hspan (f : Indexes → Int) (hf : ∀ x y : Indexes, x ≤ y → f x ≤ f y) (n : Nat)
      (h0 : f ⟨0, 0, 0⟩ = 0) (he : f ⟨baseT.length, oursT.length, theirsT.length⟩ = n) :
      (rs.map (span f)).flatten = List.range n := by
    rw [ht.spans hf (by omega), h0, he, List.range_eq_range']
    simp
  refine ⟨mA, mB, rs, hmA, hmB, hrs, hne, ht, hw, ?_, hspan _ (fun _ _ h => h.1) _ rfl rfl,
    hspan _ (fun _ _ h => h.2.1) _ rfl rfl, hspan _ (fun _ _ h => h.2.2) _ rfl rfl⟩
  obtain ⟨outs, houts⟩ := mapM_some_of_forall hw
  simp only [writeChunks, hmA, hmB, hrs, houts, Option.bind_eq_bind, Option.some_bind]
  rfl

theorem writeChunks_tiles_small :
    ∃ d, setup ["a", "b"] ["a", "x", "b"] ["b"] = some d ∧
      ∃ matchesA matchesB rs, getMatches d.diffA = some matchesA ∧
        getMatches d.diffB = some matchesB ∧
        writeChunksLoop d matchesA matchesB 6 ⟨0, 0, 0⟩ = some rs ∧ rs ≠ [] ∧
        Tiles ⟨0, 0, 0⟩ rs ⟨2, 3, 1⟩ ∧
        (∀ ir ∈ rs, (writeChunk d ir).isSome) ∧ (writeChunks d 6).isSome ∧
        (rs.map (span Indexes.baseIndex)).flatten = List.range 2 ∧
        (rs.map (span Indexes.aIndex)).flatten = List.range 3 ∧
        (rs.map (span Indexes.bIndex)).flatten = List.range 1 := by
  cases hd : setup ["a", "b"] ["a", "x", "b"] ["b"] with
  | none => exact absurd hd (by decide)
  | some d => exact ⟨d, rfl, writeChunks_tiles hd (by decide)⟩

/-- `writeChunks`' loop ends within `2 * |base| + 2` iterations, and each iteration writes the
final chunk and returns, moves the cursors by the `i ≥ 1` of `getNextMismatch`, or, when that
is `0`, moves them to a base line matched in both diffs, from where `getNextMismatch` returns
at least `1`. -/
theorem writeChunks_iterations {baseT oursT theirsT : List String} {d : Diff3}
    (hd : setup baseT oursT theirsT = some d) :
    ∃ matchesA matchesB rs, getMatches d.diffA = some matchesA ∧
      getMatches d.diffB = some matchesB ∧
      writeChunksLoop d matchesA matchesB (2 * baseT.length + 2) ⟨0, 0, 0⟩ = some rs ∧
      rs.length ≤ 2 * baseT.length + 2 ∧
      ∀ ir ∈ rs, (chunkStep d matchesA matchesB ir.from).1 = ir ∧
        IterStep d matchesA matchesB ir.from := by
  obtain ⟨hb, -, -, ⟨mA, hmA, hA⟩, ⟨mB, hmB, hB⟩⟩ := setup_spec hd
  have hok := cursorOk_zero hA hB
  obtain ⟨rs, hrs, -⟩ := writeChunksLoop_spec hA hB (2 * baseT.length + 2) hok (by
    unfold loopMeasure; dsimp only; rw [hb, length_getFileLines]; split <;> omega)
  obtain ⟨hlen, hall⟩ := writeChunksLoop_steps hA hB _ hok hrs
  exact ⟨mA, mB, rs, hmA, hmB, hrs, hlen, fun ir hir =>
    ⟨(hall ir hir).1, iterStep_of_cursorOk hA hB (hall ir hir).2⟩⟩

theorem writeChunks_iterations_small :
    ∃ d, setup ["a", "b"] ["a", "x", "b"] ["b"] = some d ∧
      ∃ matchesA matchesB rs, getMatches d.diffA = some matchesA ∧
        getMatches d.diffB = some matchesB ∧
        writeChunksLoop d matchesA matchesB (2 * 2 + 2) ⟨0, 0, 0⟩ = some rs ∧
        rs.length ≤ 2 * 2 + 2 ∧
        ∀ ir ∈ rs, (chunkStep d matchesA matchesB ir.from).1 = ir ∧
          IterStep d matchesA matchesB ir.from := by
  cases hd : setup ["a", "b"] ["a", "x", "b"] ["b"] with
  | none => exact absurd hd (by decide)
  | some d => exact ⟨d, rfl, writeChunks_iterations hd⟩

end MergeCore
