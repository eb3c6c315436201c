import MergeCore.Differ.Forward
import MergeCore.Differ.Script

/-!
# The backward pass: `Backtrack` retraces the forward pass

`Backtrack` reads snapshot `d` of the trace, which `GetShortestPath` took *after* round `d`.
Round `d` writes only the diagonals of its parity, so on the diagonals `k ± 1` that the step
reads, the snapshot still holds `V` from before round `d` (`SnapOk`): the direction and the
`prevX` it reads are the ones the forward pass used. From a point on the snake of round `d`
the step therefore sends the snake's diagonal edges, then the edit that led to it, and goes
on from the point of round `d - 1` it came from (`backtrackLoop_spec`).

`BackPath es x y`: the elements `es`, in the order sent, walk the edit graph from `(x, y)`
back to `(0, 0)`. `Diff` turns such a walk, read backwards, into an edit script
(`BackPath.diff`).
-/

namespace MergeCore

/-- The diagonal edges `backSnake` sends from `(x, y)`, `c` of them. -/
def diagRun (x y : Int) : Nat → List BacktrackEl
  | 0 => []
  | c + 1 => ⟨x - 1, y - 1, x, y⟩ :: diagRun (x - 1) (y - 1) c

/-- The elements `es`, in order, walk the edit graph from `(x, y)` back to `(0, 0)`. -/
inductive BackPath (a b : List FileLine) : List BacktrackEl → Int → Int → Prop
  | nil : BackPath a b [] 0 0
  | diag {es : List BacktrackEl} {x y : Int} : diagB a b x y = true → BackPath a b es x y →
      BackPath a b (⟨x, y, x + 1, y + 1⟩ :: es) (x + 1) (y + 1)
  | right {es : List BacktrackEl} {x y : Int} : BackPath a b es x y →
      BackPath a b (⟨x, y, x + 1, y⟩ :: es) (x + 1) y
  | down {es : List BacktrackEl} {x y : Int} : BackPath a b es x y →
      BackPath a b (⟨x, y, x, y + 1⟩ :: es) x (y + 1)

/-- A right or down edge: an element that `Diff` turns into an insertion or a deletion. -/
def BacktrackEl.isEdit (e : BacktrackEl) : Bool := e.x == e.prevX || e.y == e.prevY

/-- The number of edits of a walk. -/
def edits (es : List BacktrackEl) : Nat := es.countP BacktrackEl.isEdit

/-- Snapshot `d` holds, off the diagonals of round `d`, `V` from before round `d`. -/
def SnapOk (a b : List FileLine) (trace : List (List Int)) (d : Nat) : Prop :=
  ∃ S, trace.get? d = some (tab (a.length + b.length) S) ∧
    ∀ k, ¬ OnRound d k → S k = vPrev a b d k

variable {a b : List FileLine}

/-! ## The diagonal loop -/

theorem backSnake_run (prevX prevY : Int) : ∀ (c fuel : Nat) (x y : Int), c ≤ fuel →
    (∀ i : Nat, i < c → prevX < x - i ∧ prevY < y - i) → ¬ (prevX < x - c ∧ prevY < y - c) →
    backSnake prevX prevY fuel x y = (diagRun x y c, x - c, y - c)
  | 0, 0, x, y, _, _, _ => by simp [backSnake, diagRun]
  | 0, fuel + 1, x, y, _, _, h => by
    simp only [Nat.cast_zero, sub_zero] at h
    simp [backSnake, diagRun, gt_iff_lt, h]
  | c + 1, fuel + 1, x, y, hc, hrun, hstop => by
    have h0 := hrun 0 (by omega)
    simp only [Nat.cast_zero, sub_zero] at h0
    rw [backSnake, if_pos h0, backSnake_run prevX prevY c fuel (x - 1) (y - 1) (by omega)
      (fun i hi => by have := hrun (i + 1) (by omega); push_cast at this; omega)
      (by push_cast at hstop; intro h; apply hstop; omega)]
    simp only [diagRun, Prod.mk.injEq, true_and]
    push_cast; constructor <;> ring

@[simp] theorem edits_diagRun (x y : Int) : ∀ c, edits (diagRun x y c) = 0
  | 0 => rfl
  | c + 1 => by
    rw [diagRun, edits, List.countP_cons, ← edits, edits_diagRun]
    simp [BacktrackEl.isEdit]; omega

theorem edits_append (es es' : List BacktrackEl) : edits (es ++ es') = edits es + edits es' := by
  simp [edits, List.countP_append]

/-! ## Walks -/

namespace BackPath

theorem nonneg {es : List BacktrackEl} {x y : Int} (h : BackPath a b es x y) : 0 ≤ x ∧ 0 ≤ y := by
  induction h with
  | nil => exact ⟨le_rfl, le_rfl⟩
  | diag _ _ ih | right _ ih | down _ ih => omega

/-- A walk continued up a snake of diagonal edges. -/
theorem diagRun {es : List BacktrackEl} {xs k : Int} (h : BackPath a b es xs (xs - k)) :
    ∀ c : Nat, (∀ i, xs ≤ i → i < xs + c → diagB a b i (i - k) = true) →
      BackPath a b (MergeCore.diagRun (xs + c) (xs + c - k) c ++ es) (xs + c) (xs + c - k)
  | 0, _ => by simpa [MergeCore.diagRun] using h
  | c + 1, hd => by
    have ih := (BackPath.diagRun h c fun i h1 h2 => hd i h1 (by push_cast; omega)).diag
      (hd (xs + c) (by omega) (by push_cast; omega))
    have e1 : xs + ((c + 1 : Nat) : Int) - 1 = xs + c := by push_cast; ring
    have e2 : xs + ((c + 1 : Nat) : Int) - k - 1 = xs + c - k := by push_cast; ring
    have e3 : xs + c - k + 1 = xs + ((c + 1 : Nat) : Int) - k := by push_cast; ring
    have e4 : xs + c + 1 = xs + ((c + 1 : Nat) : Int) := by push_cast; ring
    rw [MergeCore.diagRun, e1, e2, List.cons_append]
    rwa [e3, e4, show xs + c - k = xs + c - k from rfl] at ih

/-- The edits of a walk: the forward path it retraces. -/
theorem reach {es : List BacktrackEl} {x y : Int} (h : BackPath a b es x y) :
    Reach a b (edits es) x y := by
  induction h with
  | nil => exact .start
  | diag hd _ ih => simpa [edits, BacktrackEl.isEdit] using ih.diag hd
  | right _ ih => simpa [edits, BacktrackEl.isEdit, add_comm] using ih.right
  | down _ ih => simpa [edits, BacktrackEl.isEdit, add_comm] using ih.down

end BackPath

/-! ## One step of `Backtrack` -/

/-- The diagonal the forward pass came from to diagonal `k` of round `d`, `V` being `W`: down
from `k + 1`, else right from `k - 1` (the `prevK` of `Backtrack`). -/
def prevDiag (W : Int → Int) (d : Nat) (k : Int) : Int :=
  if k = -(d : Int) ∨ (k ≠ d ∧ W (k - 1) < W (k + 1)) then k + 1 else k - 1

variable {W : Int → Int} {d : Nat} {k : Int}

theorem startX_prevDiag :
    (prevDiag W d k = k + 1 ∧ startX W d k = W (prevDiag W d k)) ∨
      (prevDiag W d k = k - 1 ∧ startX W d k = W (prevDiag W d k) + 1) := by
  unfold prevDiag startX; split <;> simp

theorem onRound_prevDiag (hk : OnRound (d + 1) k) : OnRound d (prevDiag W (d + 1) k) := by
  unfold prevDiag OnRound at *
  split <;> push_cast at * <;> omega

theorem prevDiag_bounds {mx : Nat} (hmx : 0 < mx) (hd : d ≤ mx) (hk : OnRound d k) :
    -(mx : Int) ≤ prevDiag W d k ∧ prevDiag W d k ≤ mx := by
  unfold prevDiag OnRound at *
  split <;> omega

/-- The edge from round `d - 1`'s point to the start of the snake is an edit. -/
theorem isEdit_move :
    (⟨W (prevDiag W d k), W (prevDiag W d k) - prevDiag W d k, startX W d k,
      startX W d k - k⟩ : BacktrackEl).isEdit = true := by
  rcases startX_prevDiag (W := W) (d := d) (k := k) with ⟨h1, h2⟩ | ⟨h1, h2⟩ <;>
    simp [BacktrackEl.isEdit] <;> omega

/-- The diagonal loop runs from `x` down to the start of the snake. -/
theorem backSnake_toStart {x : Int} (hx : startX W d k ≤ x) :
    backSnake (W (prevDiag W d k)) (W (prevDiag W d k) - prevDiag W d k)
        (x - W (prevDiag W d k)).toNat x (x - k) =
      (diagRun x (x - k) (x - startX W d k).toNat, startX W d k, startX W d k - k) := by
  have hc := startX_prevDiag (W := W) (d := d) (k := k)
  generalize prevDiag W d k = pk at *
  generalize startX W d k = xs at *
  obtain ⟨c, rfl⟩ : ∃ c : Nat, x = xs + c := ⟨(x - xs).toNat, by omega⟩
  rw [show (xs + c - xs).toNat = c by omega]
  rw [backSnake_run _ _ c _ _ _ (by rcases hc with ⟨-, h⟩ | ⟨-, h⟩ <;> omega)
    (fun i hi => by rcases hc with ⟨rfl, h⟩ | ⟨rfl, h⟩ <;> omega)
    (by rcases hc with ⟨rfl, h⟩ | ⟨rfl, h⟩ <;> omega)]
  simp only [Prod.mk.injEq, true_and]
  constructor <;> ring

/-- The walk extended by the edit from round `d - 1`'s point and the snake up to `x`. -/
theorem backPath_step {es : List BacktrackEl} {x : Int}
    (hrest : BackPath a b es (W (prevDiag W d k)) (W (prevDiag W d k) - prevDiag W d k))
    (hx : startX W d k ≤ x) (hdiag : ∀ i, startX W d k ≤ i → i < x → diagB a b i (i - k) = true) :
    BackPath a b (diagRun x (x - k) (x - startX W d k).toNat ++
      ⟨W (prevDiag W d k), W (prevDiag W d k) - prevDiag W d k, startX W d k,
        startX W d k - k⟩ :: es) x (x - k) := by
  have hc := startX_prevDiag (W := W) (d := d) (k := k)
  generalize prevDiag W d k = pk at *
  generalize startX W d k = xs at *
  have hmv : BackPath a b (⟨W pk, W pk - pk, xs, xs - k⟩ :: es) xs (xs - k) := by
    rcases hc with ⟨rfl, rfl⟩ | ⟨rfl, rfl⟩
    · simpa [show W (k + 1) - (k + 1) + 1 = W (k + 1) - k by ring] using hrest.down
    · simpa [show W (k - 1) - (k - 1) = W (k - 1) + 1 - k by ring] using hrest.right
  obtain ⟨c, rfl⟩ : ∃ c : Nat, x = xs + c := ⟨(x - xs).toNat, by omega⟩
  rw [show (xs + c - xs).toNat = c by omega]
  exact hmv.diagRun c hdiag

/-- A slice that holds `V` from before round `d` off the round's diagonals gives, at diagonal `k`
of the round, the direction of `V` and `V`'s value on the diagonal it points to: what the
forward pass read when it wrote diagonal `k`. -/
theorem goDown_goIndex_tab (hmx : 0 < a.length + b.length) (hd : d ≤ a.length + b.length)
    {S : Int → Int} (hoff : ∀ k', ¬ OnRound d k' → S k' = vPrev a b d k') (hk : OnRound d k) :
    goDown a.length b.length (tab (a.length + b.length) S) d k =
        some (decide (prevDiag (vPrev a b d) d k = k + 1)) ∧
      goIndex (tab (a.length + b.length) S)
          (getIndexV a.length b.length (prevDiag (vPrev a b d) d k)) =
        some (vPrev a b d (prevDiag (vPrev a b d) d k)) := by
  have hpk := prevDiag_bounds (W := vPrev a b d) hmx hd hk
  constructor
  · rw [goDown_tab hd hk.1 hk.2.1, hoff _ (offRound_pred hk), hoff _ (offRound_succ hk), prevDiag]
    by_cases hP : k = -(d : Int) ∨ (k ≠ d ∧ vPrev a b d (k - 1) < vPrev a b d (k + 1))
    · rw [if_pos hP, decide_eq_true hP, decide_eq_true rfl]
    · rw [if_neg hP, decide_eq_false hP, decide_eq_false (by omega)]
  · rw [goIndex_tab (by omega) (by omega), hoff]
    unfold prevDiag; split
    exacts [offRound_succ hk, offRound_pred hk]

/-- One iteration reads, off round `d`, the direction and the start the forward pass used. -/
theorem backStep_tab (hmx : 0 < a.length + b.length) (hd : d ≤ a.length + b.length)
    {S : Int → Int} (hoff : ∀ k', ¬ OnRound d k' → S k' = vPrev a b d k') {x : Int}
    (hk : OnRound d k) (hx : startX (vPrev a b d) d k ≤ x) :
    backStep a.length b.length (tab (a.length + b.length) S) d x (x - k) =
      some (diagRun x (x - k) (x - startX (vPrev a b d) d k).toNat ++
        (if 0 < d then [⟨vPrev a b d (prevDiag (vPrev a b d) d k),
          vPrev a b d (prevDiag (vPrev a b d) d k) - prevDiag (vPrev a b d) d k,
          startX (vPrev a b d) d k, startX (vPrev a b d) d k - k⟩] else []),
        vPrev a b d (prevDiag (vPrev a b d) d k),
        vPrev a b d (prevDiag (vPrev a b d) d k) - prevDiag (vPrev a b d) d k) := by
  have hpk := prevDiag_bounds (W := vPrev a b d) hmx hd hk
  have hS : S (prevDiag (vPrev a b d) d k) = vPrev a b d (prevDiag (vPrev a b d) d k) := by
    apply hoff
    unfold prevDiag; split
    exacts [offRound_succ hk, offRound_pred hk]
  unfold backStep
  dsimp only
  rw [show x - (x - k) = k by ring, goDown_tab hd hk.1 hk.2.1, hoff _ (offRound_pred hk),
    hoff _ (offRound_succ hk)]
  simp only [Option.bind_eq_bind, Option.some_bind, decide_eq_true_eq]
  rw [show (if k = -(d : Int) ∨ (k ≠ d ∧ vPrev a b d (k - 1) < vPrev a b d (k + 1)) then k + 1
    else k - 1) = prevDiag (vPrev a b d) d k from rfl, goIndex_tab (by omega) (by omega), hS]
  simp only [Option.some_bind, backSnake_toStart hx]
  split <;> simp

/-- `Backtrack` from a point `x` of diagonal `k` on the snake of round `d` sends a walk back
to `(0, 0)` with `d` edits. -/
theorem backtrackLoop_spec (hmx : 0 < a.length + b.length) {trace : List (List Int)} :
    ∀ d : Nat, d ≤ a.length + b.length → (∀ d' ≤ d, SnapOk a b trace d') →
      ∀ k x : Int, OnRound d k → startX (vPrev a b d) d k ≤ x → x ≤ furthest a b d k →
        ∃ es, backtrackLoop a.length b.length trace (d + 1) x (x - k) = some es ∧
          BackPath a b es x (x - k) ∧ edits es = d := by
  intro d
  induction d with
  | zero =>
    intro _ hsnap k x hk h1 h2
    obtain rfl : k = 0 := by unfold OnRound at hk; omega
    obtain ⟨S, hS, hoff⟩ := hsnap 0 le_rfl
    have hstart : startX (vPrev a b 0) 0 0 = 0 := by simp [startX, vPrev]
    refine ⟨diagRun x (x - 0) (x - 0).toNat, ?_, ?_, by simp⟩
    · rw [backtrackLoop, hS]
      simp only [Option.bind_eq_bind, Option.some_bind]
      rw [backStep_tab hmx (Nat.zero_le _) hoff hk h1]
      simp [hstart, backtrackLoop]
    · have := (BackPath.nil (a := a) (b := b)).diagRun (k := 0) (x - 0).toNat
        (fun i hi1 hi2 => slide_diag (x := 0) hi1 (by rw [furthest, hstart] at h2; omega))
      rwa [zero_add, show ((x - 0).toNat : Int) = x by omega, List.append_nil] at this
  | succ d ih =>
    intro hd hsnap k x hk h1 h2
    obtain ⟨S, hS, hoff⟩ := hsnap (d + 1) le_rfl
    have hpk := onRound_prevDiag (W := vPrev a b (d + 1)) hk
    have hW : vPrev a b (d + 1) (prevDiag (vPrev a b (d + 1)) (d + 1) k) =
        furthest a b d (prevDiag (vPrev a b (d + 1)) (d + 1) k) := vAfter_onRound hpk
    obtain ⟨rest, hrest, hpath, hedits⟩ := ih (by omega) (fun d' h => hsnap d' (by omega)) _
      (vPrev a b (d + 1) (prevDiag (vPrev a b (d + 1)) (d + 1) k)) hpk
      (by rw [hW]; exact le_slide _ _) (le_of_eq hW)
    refine ⟨_, ?_, backPath_step hpath h1 (fun i hi1 hi2 => slide_diag hi1 (by
      rw [furthest] at h2; omega)), ?_⟩
    · rw [backtrackLoop, hS]
      simp [backStep_tab hmx hd hoff hk h1, hrest]
    · rw [edits_append, edits_diagRun, edits, List.countP_cons, ← edits, hedits, isEdit_move]
      simp

/-! ## From walks to edit scripts -/

theorem mapM_cons_some {α β : Type} {f : α → Option β} {x : α} {l : List α} {y : β}
    {ys : List β} (h1 : f x = some y) (h2 : l.mapM f = some ys) :
    (x :: l).mapM f = some (y :: ys) := by
  simp only [List.mapM_cons, h1, h2]
  rfl

theorem take_succ_of_goIndex {l : List FileLine} {i : Int} {v : FileLine}
    (h : goIndex l i = some v) : l.take (i + 1).toNat = l.take i.toNat ++ [v] := by
  obtain ⟨h0, hv⟩ := goIndex_eq_some.1 h
  rw [show (i + 1).toNat = i.toNat + 1 by omega, List.take_succ, hv]
  rfl

/-- `Diff` reads a diagonal edge as an equal step. -/
theorem diffEl_diag {x y : Int} (h : diagB a b x y = true) :
    ∃ la lb, goIndex a x = some la ∧ goIndex b y = some lb ∧ la.text = lb.text ∧
      diffEl a b ⟨x, y, x + 1, y + 1⟩ = some ⟨some la, some lb, .eql⟩ := by
  obtain ⟨-, hx, -, hy⟩ := diagB_bounds h
  unfold diagB at h
  split at h
  · rename_i la lb ha hb
    refine ⟨la, lb, ha, hb, of_decide_eq_true h, ?_⟩
    simp [diffEl, hx, hy, ha, hb]
  · simp at h

/-- `Diff` reads a right edge as a deletion. -/
theorem diffEl_right {x y : Int} (hx : 0 ≤ x) (hxn : x < a.length) (hy : 0 ≤ y) :
    ∃ l, goIndex a x = some l ∧ diffEl a b ⟨x, y, x + 1, y⟩ = some ⟨some l, none, .del⟩ := by
  obtain ⟨l, hl⟩ := goIndex_isSome hx hxn
  refine ⟨l, hl, ?_⟩
  by_cases hym : y < b.length
  · obtain ⟨l', hl'⟩ := goIndex_isSome hy hym
    simp [diffEl, hxn, hym, hl, hl']
  · simp [diffEl, hxn, hym, hl]

/-- `Diff` reads a down edge as an insertion. -/
theorem diffEl_down {x y : Int} (hx : 0 ≤ x) (hy : 0 ≤ y) (hym : y < b.length) :
    ∃ l, goIndex b y = some l ∧ diffEl a b ⟨x, y, x, y + 1⟩ = some ⟨none, some l, .ins⟩ := by
  obtain ⟨l, hl⟩ := goIndex_isSome hy hym
  refine ⟨l, hl, ?_⟩
  by_cases hxn : x < a.length
  · obtain ⟨l', hl'⟩ := goIndex_isSome hx hxn
    simp [diffEl, hxn, hym, hl, hl']
  · simp [diffEl, hxn, hym, hl]

/-- `Diff` turns a walk inside the box, read backwards, into an edit script between the
prefixes, with one change per edit. -/
theorem BackPath.diff {es : List BacktrackEl} {x y : Int} (h : BackPath a b es x y) :
    x ≤ a.length → y ≤ b.length →
      ∃ ops, es.mapM (diffEl a b) = some ops ∧
        EditScript ops.reverse (a.take x.toNat) (b.take y.toNat) ∧ changes ops = edits es := by
  induction h with
  | nil => intro _ _; exact ⟨[], rfl, by simpa using EditScript.nil, rfl⟩
  | @diag es x y hd _ ih =>
    intro hx hy
    obtain ⟨ops, hm, hs, hc⟩ := ih (by omega) (by omega)
    obtain ⟨la, lb, ha, hb, ht, hel⟩ := diffEl_diag hd
    refine ⟨⟨some la, some lb, .eql⟩ :: ops, mapM_cons_some hel hm, ?_, ?_⟩
    · rw [List.reverse_cons, take_succ_of_goIndex ha, take_succ_of_goIndex hb]
      exact hs.snoc_eql ht
    · simp [hc, edits, FileDiff.isChange, BacktrackEl.isEdit]
  | @right es x y hr ih =>
    intro hx hy
    obtain ⟨ops, hm, hs, hc⟩ := ih (by omega) hy
    obtain ⟨l, hl, hel⟩ := diffEl_right (a := a) (b := b) hr.nonneg.1 (by omega) hr.nonneg.2
    refine ⟨⟨some l, none, .del⟩ :: ops, mapM_cons_some hel hm, ?_, ?_⟩
    · rw [List.reverse_cons, take_succ_of_goIndex hl]
      exact hs.snoc_del l
    · simp [hc, edits, FileDiff.isChange, BacktrackEl.isEdit]
  | @down es x y hr ih =>
    intro hx hy
    obtain ⟨ops, hm, hs, hc⟩ := ih hx (by omega)
    obtain ⟨l, hl, hel⟩ := diffEl_down (a := a) (b := b) hr.nonneg.1 hr.nonneg.2 (by omega)
    refine ⟨⟨none, some l, .ins⟩ :: ops, mapM_cons_some hel hm, ?_, ?_⟩
    · rw [List.reverse_cons, take_succ_of_goIndex hl]
      exact hs.snoc_ins l
    · simp [hc, edits, FileDiff.isChange, BacktrackEl.isEdit]

end MergeCore
