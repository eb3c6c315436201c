import MergeCore.Differ.Backtrack

/-!
# `Diff` returns a minimal edit script

The forward pass stops at the first round `D` that reaches `(n, m)` (`getShortestPath_spec`),
the backward pass retraces a walk with `D` edits from the trace (`backtrackLoop_spec`), and
`Diff` reads the walk backwards as an edit script with `D` changes (`BackPath.diff`). Every
edit script is a path of the edit graph (`EditScript.reach`), so none has fewer changes:
`D = |a| + |b| - 2 * lcs`.

The one input on which `Diff` panics is `([], [])`: with `max = 0` the first round reads
`v[1]` of a one-element `v` (`diff_isSome_iff`).
-/

namespace MergeCore

/-- Lines numbered by position, as `getFileLines` numbers them: line `i` has number `i`. -/
def Numbered (l : List FileLine) : Prop := l.map (·.number) = (List.range l.length).map Int.ofNat

instance : DecidablePred Numbered := fun _ => inferInstanceAs (Decidable (_ = _))

variable {a b : List FileLine}

/-! ## The trace -/

section
variable {D : Nat} {k : Int}

theorem length_snapshots : (snapshots a b D k).length = D + 1 := by simp [snapshots]

theorem snapOk_snapshots {d : Nat} (hd : d ≤ D) : SnapOk a b (snapshots a b D k) d := by
  rcases Nat.lt_or_eq_of_le hd with hd | rfl
  · refine ⟨vAfter a b d, ?_, fun k' hk' => vAfter_off hk'⟩
    simp [snapshots, List.getElem?_append_left, hd]
  · refine ⟨partialV a b d k, ?_, fun k' hk' => partialV_off hk'⟩
    simp [snapshots, List.getElem?_append_right]

theorem getElem?_snapshots_lt {d : Nat} (hd : d < D) :
    (snapshots a b D k)[d]? = some (tab (a.length + b.length) (vAfter a b d)) := by
  simp [snapshots, List.getElem?_append_left, hd]

/-- `Backtrack` over the trace of a run that ends in round `D` walks from `(n, m)` back to the
start with `D` edits. -/
theorem backtrack_snapshots (hmx : 0 < a.length + b.length) (hD : D ≤ a.length + b.length)
    (hk : OnRound D k) (hh : Hit a b D k) (hmin : ∀ d < D, ∀ k', OnRound d k' → ¬ Hit a b d k') :
    ∃ es, backtrack a b (snapshots a b D k) = some es ∧
      BackPath a b es a.length b.length ∧ edits es = D := by
  obtain ⟨hfur, rfl⟩ := hit_eq hk hh hmin
  have := backtrackLoop_spec hmx D hD
    (fun d' h => snapOk_snapshots (k := (a.length : Int) - b.length) h) _ a.length hk
    ((le_slide (a := a) (b := b) _ _).trans_eq hfur) hfur.ge
  rwa [sub_sub_cancel, ← length_snapshots (a := a) (b := b) (k := (a.length : Int) - b.length)]
    at this

end

/-- The snapshots `tr[d + 1]` and `tr[d]` that `GetShortestPath` takes after rounds `d + 1` and `d` agree on the diagonals of
round `d`. So at diagonal `k` of round `d + 1`, `Backtrack`, reading `tr[d + 1]`, takes the
direction and the `prevX` that `GetShortestPath` took when it wrote `V[k]`, from `V` as the
inner loop held it then, with the diagonals before `k` written (`pathRound_tab`); this holds on
the last round too, which stops at the end point. -/
theorem getShortestPath_snapshots_agree {tr : List (List Int)}
    (h : getShortestPath a b = some tr) (d : Nat) (hd : d + 1 < tr.length) :
    (∀ k, OnRound d k → goIndex tr[d + 1] (getIndexV a.length b.length k) =
        goIndex tr[d] (getIndexV a.length b.length k)) ∧
    ∀ k, OnRound (d + 1) k → ∃ up prevX,
      goDown a.length b.length tr[d + 1] (d + 1) k = some up ∧
      goDown a.length b.length (tab (a.length + b.length) (partialV a b (d + 1) (k - 2)))
        (d + 1) k = some up ∧
      goIndex tr[d + 1] (getIndexV a.length b.length (if up then k + 1 else k - 1)) =
        some prevX ∧
      goIndex (tab (a.length + b.length) (partialV a b (d + 1) (k - 2)))
        (getIndexV a.length b.length (if up then k + 1 else k - 1)) = some prevX := by
  have hmx : 0 < a.length + b.length := Nat.pos_of_ne_zero fun h0 => by
    rw [List.length_eq_zero.1 (by omega : a.length = 0),
      List.length_eq_zero.1 (by omega : b.length = 0),
      show getShortestPath ([] : List FileLine) [] = none by decide] at h
    cases h
  obtain ⟨D, k0, hsp, hD, -⟩ := getShortestPath_spec hmx
  obtain rfl := Option.some.inj (h.symm.trans hsp)
  rw [length_snapshots] at hd
  obtain ⟨S, hS, hoff⟩ := snapOk_snapshots (a := a) (b := b) (k := k0) (show d + 1 ≤ D by omega)
  have e1 : (snapshots a b D k0)[d + 1] = tab (a.length + b.length) S := by
    rw [List.get?_eq_getElem?, List.getElem?_eq_getElem] at hS
    exact Option.some.inj hS
  have e0 : (snapshots a b D k0)[d] = tab (a.length + b.length) (vAfter a b d) :=
    Option.some.inj ((List.getElem?_eq_getElem _).symm.trans (getElem?_snapshots_lt (by omega)))
  rw [e1, e0]
  refine ⟨fun k hk => ?_, fun k hk => ?_⟩
  · have hoffk : ¬ OnRound (d + 1) k := by unfold OnRound at *; push_cast; omega
    unfold OnRound at hk
    rw [goIndex_tab (by omega) (by omega), goIndex_tab (by omega) (by omega), hoff k hoffk]
    rfl
  · obtain ⟨g1, i1⟩ := goDown_goIndex_tab hmx (by omega) hoff hk
    obtain ⟨g2, i2⟩ := goDown_goIndex_tab (S := partialV a b (d + 1) (k - 2)) hmx (by omega)
      (fun _ h => partialV_off h) hk
    have hp : (if decide (prevDiag (vPrev a b (d + 1)) (d + 1) k = k + 1) then k + 1 else k - 1) =
        prevDiag (vPrev a b (d + 1)) (d + 1) k := by
      rcases startX_prevDiag (W := vPrev a b (d + 1)) (d := d + 1) (k := k) with ⟨h1, -⟩ | ⟨h1, -⟩
      · simp [h1]
      · simp [h1]; omega
    exact ⟨_, _, g1, g2, by rw [hp]; exact i1, by rw [hp]; exact i2⟩

theorem getShortestPath_snapshots_agree_ab :
    (getShortestPath [⟨0, "a"⟩] [⟨0, "b"⟩] =
        some [[0, 0, 0, 0, 0], [0, 0, 0, 1, 0], [0, 0, 1, 1, 0]] ∧ 1 + 1 < 3) ∧
    let tr : List (List Int) := [[0, 0, 0, 0, 0], [0, 0, 0, 1, 0], [0, 0, 1, 1, 0]]
    (∀ k, OnRound 1 k → goIndex tr[1 + 1] (getIndexV 1 1 k) = goIndex tr[1] (getIndexV 1 1 k)) ∧
    ∀ k, OnRound (1 + 1) k → ∃ up prevX,
      goDown 1 1 tr[1 + 1] (1 + 1) k = some up ∧
      goDown 1 1 (tab (1 + 1) (partialV [⟨0, "a"⟩] [⟨0, "b"⟩] (1 + 1) (k - 2))) (1 + 1) k =
        some up ∧
      goIndex tr[1 + 1] (getIndexV 1 1 (if up then k + 1 else k - 1)) = some prevX ∧
      goIndex (tab (1 + 1) (partialV [⟨0, "a"⟩] [⟨0, "b"⟩] (1 + 1) (k - 2)))
        (getIndexV 1 1 (if up then k + 1 else k - 1)) = some prevX := by
  have h : getShortestPath [⟨0, "a"⟩] [⟨0, "b"⟩] =
      some [[0, 0, 0, 0, 0], [0, 0, 0, 1, 0], [0, 0, 1, 1, 0]] := by decide
  exact ⟨⟨h, by decide⟩, getShortestPath_snapshots_agree h 1 (by decide)⟩

/-! ## The contract -/

theorem changes_reverse (s : List FileDiff) : changes s.reverse = changes s := by
  simp [changes, List.countP_reverse]

/-- `Diff` returns an edit script from `a` to `b` with no more changes than any other, and the
trace has one snapshot per change and one more. -/
theorem diff_spec (hmx : 0 < a.length + b.length) :
    ∃ ops trace, getShortestPath a b = some trace ∧ diff a b = some ops ∧
      EditScript ops.reverse a b ∧ trace.length = changes ops + 1 ∧
      ∀ s, EditScript s a b → changes ops ≤ changes s := by
  obtain ⟨D, k, hsp, hD, hk, hh, hmin⟩ := getShortestPath_spec hmx
  obtain ⟨es, hbt, hpath, hed⟩ := backtrack_snapshots hmx hD hk hh hmin
  obtain ⟨ops, hm, hs, hc⟩ := hpath.diff le_rfl le_rfl
  refine ⟨ops, _, hsp, by simp only [diff, hsp, hbt, hm, Option.bind_eq_bind, Option.some_bind],
    by simpa using hs,
    by rw [length_snapshots, hc, hed], fun s hs' => ?_⟩
  rw [hc, hed]
  exact le_of_reach hmin (by
    simpa using hs'.reach (d := 0) (x := 0) (y := 0) (by simp) (by simp) rfl rfl .start)

/-- `Diff` panics exactly on two empty files. -/
theorem diff_isSome_iff : (diff a b).isSome ↔ 0 < a.length + b.length := by
  refine ⟨fun h => Nat.pos_of_ne_zero fun h0 => ?_, fun h => ?_⟩
  · rw [List.length_eq_zero.1 (by omega : a.length = 0),
      List.length_eq_zero.1 (by omega : b.length = 0)] at h
    exact absurd h (by decide)
  · obtain ⟨ops, -, -, hd, -⟩ := diff_spec h
    simp [hd]

/-- On two empty files the first round of `GetShortestPath` reads `v[getIndexV(0, 0, 1)]` of a
one-element `v`, so `Diff` panics instead of returning the empty script; on any other two files
the trace is not empty and `Diff` returns a script. -/
theorem diff_empty_panics :
    goIndex (List.replicate (2 * 0 + 1) (0 : Int)) (getIndexV 0 0 (0 + 1)) = none ∧
      getShortestPath [] [] = none ∧ diff [] [] = none ∧
      ∀ a b : List FileLine, 0 < a.length + b.length →
        ∃ trace ops, getShortestPath a b = some trace ∧ trace ≠ [] ∧ diff a b = some ops := by
  refine ⟨by decide, by decide, by decide, fun a b h => ?_⟩
  obtain ⟨ops, trace, hsp, hd, -, hlen, -⟩ := diff_spec h
  exact ⟨trace, ops, hsp, fun h0 => by simp [h0] at hlen, hd⟩

/-- An edit script with the fewest changes makes `|as| + |bs| - 2 * lcs` of them. -/
theorem changes_add_lcs_of_minimal {s : List FileDiff} {as bs : List FileLine}
    (hs : EditScript s as bs) (hmin : ∀ s', EditScript s' as bs → changes s ≤ changes s') :
    changes s + 2 * lcs (texts as) (texts bs) = as.length + bs.length := by
  have h1 := hs.changes_add_lcs
  have h2 := hmin _ (lcsScript_spec as bs).1
  have h3 := (lcsScript_spec as bs).2
  omega

/-- Over numbered files, the lines an edit script consumes are numbered `0, 1, ...` in order
on each side, and its equal steps match strictly increasing pairs. -/
theorem EditScript.numbered {s : List FileDiff} (hs : EditScript s a b) (ha : Numbered a)
    (hb : Numbered b) :
    (s.filterMap FileDiff.lineOfA).map (·.number) = (List.range a.length).map Int.ofNat ∧
      (s.filterMap FileDiff.lineOfB).map (·.number) = (List.range b.length).map Int.ofNat ∧
      (eqlPairs s).Pairwise (fun p q => p.1 < q.1 ∧ p.2 < q.2) := by
  have hmono (n : Nat) : ((List.range n).map Int.ofNat).Pairwise (· < ·) :=
    List.pairwise_map.2 ((List.pairwise_lt_range n).imp fun h => Int.ofNat_lt.2 h)
  refine ⟨by rw [hs.lineOfA, ha], by rw [hs.lineOfB, hb], ?_⟩
  exact (hs.eqlPairs_increasing (ha ▸ hmono _) (hb ▸ hmono _)).1

/-- Read from the last element to the first, what `Diff` returns on numbered files is an edit
script whose deletions and equal steps consume `a` in order, whose insertions and equal steps
consume `b` in order, and whose equal steps match lines of one text, at increasing numbers. -/
theorem diff_editScript {ops : List FileDiff} (ha : Numbered a) (hb : Numbered b)
    (h : diff a b = some ops) :
    EditScript ops.reverse a b ∧
      (ops.reverse.filterMap FileDiff.lineOfA).map (·.number) =
        (List.range a.length).map Int.ofNat ∧
      (ops.reverse.filterMap FileDiff.lineOfB).map (·.number) =
        (List.range b.length).map Int.ofNat ∧
      (∀ e ∈ ops, e.diffType = .eql →
        ∃ la lb, e.lineA = some la ∧ e.lineB = some lb ∧ la.text = lb.text) ∧
      (eqlPairs ops.reverse).Pairwise (fun p q => p.1 < q.1 ∧ p.2 < q.2) := by
  obtain ⟨ops', -, -, hd, hs, -, -⟩ := diff_spec (a := a) (b := b) (diff_isSome_iff.1 (by simp [h]))
  obtain rfl : ops = ops' := Option.some.inj (h.symm.trans hd)
  obtain ⟨h1, h2, h3⟩ := hs.numbered ha hb
  exact ⟨hs, h1, h2, fun e he => hs.eql_text e (List.mem_reverse.2 he), h3⟩

theorem diff_editScript_two_lines :
    Numbered [⟨0, "a"⟩, ⟨1, "b"⟩] ∧ Numbered [⟨0, "b"⟩] ∧
      diff [⟨0, "a"⟩, ⟨1, "b"⟩] [⟨0, "b"⟩] =
        some [⟨some ⟨1, "b"⟩, some ⟨0, "b"⟩, .eql⟩, ⟨some ⟨0, "a"⟩, none, .del⟩] ∧
      EditScript [⟨some ⟨0, "a"⟩, none, .del⟩, ⟨some ⟨1, "b"⟩, some ⟨0, "b"⟩, .eql⟩]
        [⟨0, "a"⟩, ⟨1, "b"⟩] [⟨0, "b"⟩] := by
  have hd : diff [⟨0, "a"⟩, ⟨1, "b"⟩] [⟨0, "b"⟩] =
      some [⟨some ⟨1, "b"⟩, some ⟨0, "b"⟩, .eql⟩, ⟨some ⟨0, "a"⟩, none, .del⟩] := by decide
  exact ⟨by decide, by decide, hd, (diff_editScript (by decide) (by decide) hd).1⟩

/-- `Diff` makes `|a| + |b| - 2 * lcs(a, b)` insertions and deletions, the fewest of any edit
script, and `GetShortestPath` took one snapshot more. -/
theorem diff_changes_eq_lcs {ops : List FileDiff} (h : diff a b = some ops) :
    changes ops = a.length + b.length - 2 * lcs (texts a) (texts b) ∧
      (∀ s, EditScript s a b → changes ops ≤ changes s) ∧
      ∃ trace, getShortestPath a b = some trace ∧ trace.length = changes ops + 1 := by
  obtain ⟨ops', trace, hsp, hd, hs, hlen, hmin⟩ :=
    diff_spec (a := a) (b := b) (diff_isSome_iff.1 (by simp [h]))
  obtain rfl : ops = ops' := Option.some.inj (h.symm.trans hd)
  have := changes_add_lcs_of_minimal hs (by simpa [changes_reverse] using hmin)
  rw [changes_reverse] at this
  exact ⟨by omega, hmin, trace, hsp, hlen⟩

theorem diff_changes_eq_lcs_two_lines :
    diff [⟨0, "a"⟩, ⟨1, "b"⟩] [⟨0, "b"⟩] =
        some [⟨some ⟨1, "b"⟩, some ⟨0, "b"⟩, .eql⟩, ⟨some ⟨0, "a"⟩, none, .del⟩] ∧
      changes [⟨some ⟨1, "b"⟩, some ⟨0, "b"⟩, .eql⟩, ⟨some ⟨0, "a"⟩, none, .del⟩] =
        2 + 1 - 2 * lcs ["a", "b"] ["b"] := by
  have hd : diff [⟨0, "a"⟩, ⟨1, "b"⟩] [⟨0, "b"⟩] =
      some [⟨some ⟨1, "b"⟩, some ⟨0, "b"⟩, .eql⟩, ⟨some ⟨0, "a"⟩, none, .del⟩] := by decide
  exact ⟨hd, (diff_changes_eq_lcs hd).1⟩

end MergeCore
