import MergeCore.Differ.Model
import Mathlib.Tactic.Ring
import Mathlib.Order.MinMax
import Mathlib.Tactic.Common

/-!
# The edit graph and the furthest reaching paths

The edit graph of `a` and `b` has a right edge (delete `a[x]`) and a down edge (insert `b[y]`)
out of every point, and a diagonal edge out of `(x, y)` when `a[x]` and `b[y]` have the same
text (`diagB`). `Reach d x y`: some path from `(0, 0)` to `(x, y)` has `d` right and down edges.

`furthest d k` is the `x` that round `d` of `GetShortestPath` stores on diagonal `k` (`vAfter`
is the whole `V` after the round). Myers' lemma, in the two directions the proofs use:
`reach_furthest` (the stored point is reached with `d` edits) and `le_furthest` (no path with
`d` edits gets further along the diagonal). `Reach.clip` moves a path that leaves the box
`[0, n] × [0, m]` back into it, with fewer edits.
-/

namespace MergeCore

section
variable (a b : List FileLine)

/-- The diagonal edge out of `(x, y)`: both lines exist and have the same text. -/
def diagB (x y : Int) : Bool :=
  match goIndex a x, goIndex b y with
  | some la, some lb => decide (la.text = lb.text)
  | _, _ => false

/-- Paths from `(0, 0)`, counted by their right and down edges. -/
inductive Reach : Nat → Int → Int → Prop
  | start : Reach 0 0 0
  | diag {d : Nat} {x y : Int} : Reach d x y → diagB a b x y = true → Reach d (x + 1) (y + 1)
  | right {d : Nat} {x y : Int} : Reach d x y → Reach (d + 1) (x + 1) y
  | down {d : Nat} {x y : Int} : Reach d x y → Reach (d + 1) x (y + 1)

/-- Diagonal `k` is written in round `d`: `k ∈ {-d, -d + 2, ..., d}`. -/
def OnRound (d : Nat) (k : Int) : Prop := -(d : Int) ≤ k ∧ k ≤ d ∧ (k + d) % 2 = 0

instance (d : Nat) (k : Int) : Decidable (OnRound d k) :=
  inferInstanceAs (Decidable (_ ∧ _ ∧ _))

/-- The snake on the edit graph, given at most `fuel` diagonal edges. -/
def slideAux : Nat → Int → Int → Int
  | 0, x, _ => x
  | fuel + 1, x, y => if diagB a b x y then slideAux fuel (x + 1) (y + 1) else x

/-- The end of the snake from `(x, x - k)`. -/
def slide (x k : Int) : Int := slideAux a b (a.length - x).toNat x (x - k)

/-- The start of round `d` on diagonal `k` given `V = W`: down from `k + 1` or right from
`k - 1`, as `GetShortestPath` chooses. -/
def startX (W : Int → Int) (d : Nat) (k : Int) : Int :=
  if k = -(d : Int) ∨ (k ≠ d ∧ W (k - 1) < W (k + 1)) then W (k + 1) else W (k - 1) + 1

/-- `V` after a round `d` that started from `W`. -/
def vRound (W : Int → Int) (d : Nat) (k : Int) : Int :=
  if OnRound d k then slide a b (startX W d k) k else W k

/-- `V` after round `d`. -/
def vAfter : Nat → Int → Int
  | 0 => vRound a b (fun _ => 0) 0
  | d + 1 => vRound a b (vAfter d) (d + 1)

/-- `V` before round `d`. -/
def vPrev : Nat → Int → Int
  | 0 => fun _ => 0
  | d + 1 => vAfter a b d

/-- The `x` that round `d` stores on diagonal `k`. -/
def furthest (d : Nat) (k : Int) : Int := slide a b (startX (vPrev a b d) d k) k

end

variable {a b : List FileLine}

/-! ## Lines and diagonal edges -/

theorem goIndex_eq_some {α : Type} {s : List α} {i : Int} {v : α} :
    goIndex s i = some v ↔ 0 ≤ i ∧ s[i.toNat]? = some v := by
  unfold goIndex; split <;> simp_all

theorem goIndex_isSome {α : Type} {s : List α} {i : Int} (h0 : 0 ≤ i) (h : i < s.length) :
    ∃ v, goIndex s i = some v := by
  rw [goIndex, if_pos h0]
  exact ⟨_, List.getElem?_eq_getElem (by omega)⟩

theorem goIndex_lt {α : Type} {s : List α} {i : Int} {v : α} (h : goIndex s i = some v) :
    0 ≤ i ∧ i < s.length := by
  obtain ⟨h0, h⟩ := goIndex_eq_some.1 h
  exact ⟨h0, by have := (List.getElem?_eq_some_iff.1 h).1; omega⟩

theorem diagB_bounds {x y : Int} (h : diagB a b x y = true) :
    0 ≤ x ∧ x < a.length ∧ 0 ≤ y ∧ y < b.length := by
  unfold diagB at h
  split at h
  · rename_i la lb ha hb
    exact ⟨(goIndex_lt ha).1, (goIndex_lt ha).2, (goIndex_lt hb).1, (goIndex_lt hb).2⟩
  · simp at h

/-- The snake of the code follows the diagonal edges from a point of the first quadrant. -/
theorem snake_eq_slideAux : ∀ (fuel : Nat) {x y : Int}, 0 ≤ x → 0 ≤ y →
    snake a b fuel x y = some (slideAux a b fuel x y)
  | 0, _, _, _, _ => rfl
  | fuel + 1, x, y, hx, hy => by
    unfold snake slideAux
    by_cases h : x < a.length ∧ y < b.length
    · obtain ⟨la, hla⟩ := goIndex_isSome hx h.1
      obtain ⟨lb, hlb⟩ := goIndex_isSome hy h.2
      have hd : diagB a b x y = decide (la.text = lb.text) := by simp [diagB, hla, hlb]
      rw [if_pos h, hla, hlb, hd]
      by_cases ht : la.text = lb.text
      · simp only [Option.bind_eq_bind, Option.some_bind, ht, if_true, decide_True]
        exact snake_eq_slideAux fuel (by omega) (by omega)
      · simp [ht]
    · have hd : diagB a b x y = false := by
        cases hb : diagB a b x y
        · rfl
        · exact absurd ⟨(diagB_bounds hb).2.1, (diagB_bounds hb).2.2.2⟩ h
      rw [if_neg h, hd]; rfl

/-! ## The snake -/

theorem le_slideAux : ∀ (fuel : Nat) (x y : Int), x ≤ slideAux a b fuel x y
  | 0, _, _ => le_rfl
  | fuel + 1, x, y => by
    unfold slideAux
    split
    · exact le_trans (by omega) (le_slideAux fuel (x + 1) (y + 1))
    · exact le_rfl

theorem slideAux_diag : ∀ (fuel : Nat) (x y x' : Int), x ≤ x' → x' < slideAux a b fuel x y →
    diagB a b x' (x' - x + y) = true
  | 0, _, _, _, h1, h2 => absurd h2 (not_lt.2 h1)
  | fuel + 1, x, y, x', h1, h2 => by
    unfold slideAux at h2
    split at h2
    · rcases eq_or_lt_of_le h1 with rfl | h1
      · simpa
      · have := slideAux_diag fuel (x + 1) (y + 1) x' (by omega) h2
        rwa [show x' - (x + 1) + (y + 1) = x' - x + y by ring] at this
    · exact absurd h2 (not_lt.2 h1)

theorem slideAux_stop : ∀ (fuel : Nat) (x y : Int), (a.length - x).toNat ≤ fuel →
    diagB a b (slideAux a b fuel x y) (slideAux a b fuel x y - x + y) = false
  | 0, x, y, h => by
    cases hb : diagB a b x y
    · simpa [slideAux] using hb
    · have := (diagB_bounds hb).2.1; omega
  | fuel + 1, x, y, h => by
    unfold slideAux
    split
    · rename_i hb
      have := (diagB_bounds hb).2.1
      have e := slideAux_stop fuel (x + 1) (y + 1) (by omega)
      rwa [show slideAux a b fuel (x + 1) (y + 1) - (x + 1) + (y + 1) =
        slideAux a b fuel (x + 1) (y + 1) - x + y by ring] at e
    · simp_all

theorem le_slide (x k : Int) : x ≤ slide a b x k := le_slideAux _ _ _

theorem slide_diag {x k x' : Int} (h1 : x ≤ x') (h2 : x' < slide a b x k) :
    diagB a b x' (x' - k) = true := by
  have := slideAux_diag _ _ _ _ h1 h2
  rwa [show x' - x + (x - k) = x' - k by ring] at this

theorem slide_stop (x k : Int) : diagB a b (slide a b x k) (slide a b x k - k) = false := by
  have := slideAux_stop (a := a) (b := b) _ x (x - k) le_rfl
  rwa [show slideAux a b (a.length - x).toNat x (x - k) - x + (x - k) =
    slideAux a b (a.length - x).toNat x (x - k) - k by ring] at this

/-! ## Paths -/

namespace Reach

theorem nonneg {d : Nat} {x y : Int} (h : Reach a b d x y) : 0 ≤ x ∧ 0 ≤ y := by
  induction h with
  | start => exact ⟨le_rfl, le_rfl⟩
  | diag _ _ ih | right _ ih | down _ ih => omega

theorem onRound {d : Nat} {x y : Int} (h : Reach a b d x y) : OnRound d (x - y) := by
  induction h with
  | start => decide
  | diag _ _ ih => unfold OnRound at *; omega
  | right _ ih | down _ ih => unfold OnRound at *; push_cast; omega

/-- A path along a snake. -/
theorem slide {d : Nat} {x k : Int} (h : Reach a b d x (x - k)) :
    Reach a b d (MergeCore.slide a b x k) (MergeCore.slide a b x k - k) := by
  suffices ∀ x' : Int, x ≤ x' → x' ≤ MergeCore.slide a b x k → Reach a b d x' (x' - k) from
    this _ (le_slide x k) le_rfl
  intro x' h1 h2
  obtain ⟨j, rfl⟩ : ∃ j : Nat, x' = x + j := ⟨(x' - x).toNat, by omega⟩
  induction j with
  | zero => simpa using h
  | succ j ih =>
    have hd := slide_diag (show x ≤ x + j by omega) (show x + j < MergeCore.slide a b x k by omega)
    have := (ih (by omega) (by omega)).diag hd
    rwa [show x + j - k + 1 = x + (j + 1 : Nat) - k by push_cast; ring,
      show x + j + 1 = x + (j + 1 : Nat) by push_cast; ring] at this

/-- A path that leaves the box `[0, n] × [0, m]` has a shorter one to the box's clipped point. -/
theorem clip {d : Nat} {x y : Int} (h : Reach a b d x y) :
    ∃ d' : Nat, Reach a b d' (min x a.length) (min y b.length) ∧
      (d' : Int) + (x - min x a.length) + (y - min y b.length) ≤ d := by
  induction h with
  | start =>
    refine ⟨0, ?_, by omega⟩
    rw [min_eq_left (by omega), min_eq_left (by omega)]
    exact Reach.start
  | @diag d x y _ hd ih =>
    obtain ⟨d', hr, hle⟩ := ih
    have hb := diagB_bounds hd
    refine ⟨d', ?_, by omega⟩
    rw [min_eq_left (by omega), min_eq_left (by omega)]
    rw [min_eq_left (by omega), min_eq_left (by omega)] at hr
    exact hr.diag hd
  | @right d x y _ ih =>
    obtain ⟨d', hr, hle⟩ := ih
    by_cases hx : x < a.length
    · refine ⟨d' + 1, ?_, by push_cast; omega⟩
      rw [min_eq_left (by omega)]
      rw [min_eq_left (by omega)] at hr
      exact hr.right
    · refine ⟨d', ?_, by push_cast; omega⟩
      rwa [min_eq_right (by omega), ← min_eq_right (show (a.length : Int) ≤ x by omega)]
  | @down d x y _ ih =>
    obtain ⟨d', hr, hle⟩ := ih
    by_cases hy : y < b.length
    · refine ⟨d' + 1, ?_, by push_cast; omega⟩
      rw [min_eq_left (show y + 1 ≤ b.length by omega)]
      rw [min_eq_left (show y ≤ b.length by omega)] at hr
      exact hr.down
    · refine ⟨d', ?_, by push_cast; omega⟩
      rwa [min_eq_right (show (b.length : Int) ≤ y + 1 by omega),
        ← min_eq_right (show (b.length : Int) ≤ y by omega)]

end Reach

/-! ## Furthest reaching points -/

theorem startX_ge_right {W : Int → Int} {d : Nat} {k : Int} (h : k ≠ -(d : Int)) :
    W (k - 1) + 1 ≤ startX W d k := by
  unfold startX; split <;> omega

theorem startX_ge_down {W : Int → Int} {d : Nat} {k : Int} (h : k ≠ d) :
    W (k + 1) ≤ startX W d k := by
  unfold startX; split <;> omega

theorem vAfter_eq (d : Nat) : vAfter a b d = vRound a b (vPrev a b d) d := by
  cases d <;> rfl

theorem vAfter_onRound {d : Nat} {k : Int} (h : OnRound d k) : vAfter a b d k = furthest a b d k := by
  rw [vAfter_eq, vRound, if_pos h, furthest]

theorem vAfter_off {d : Nat} {k : Int} (h : ¬ OnRound d k) : vAfter a b d k = vPrev a b d k := by
  rw [vAfter_eq, vRound, if_neg h]

/-- The start of round `d` on diagonal `k` is reached with `d` edits. -/
theorem reach_startX : ∀ {d : Nat} {k : Int}, OnRound d k →
    Reach a b d (startX (vPrev a b d) d k) (startX (vPrev a b d) d k - k)
  | 0, k, h => by
    obtain rfl : k = 0 := by unfold OnRound at h; omega
    simpa [startX, vPrev] using Reach.start
  | d + 1, k, h => by
    have hprev (k' : Int) (hk : OnRound d k') :
        Reach a b d (vPrev a b (d + 1) k') (vPrev a b (d + 1) k' - k') := by
      rw [vPrev, vAfter_onRound hk]
      exact (reach_startX hk).slide
    unfold startX
    split
    · have := (hprev (k + 1) (by unfold OnRound at *; push_cast at *; omega)).down
      rwa [show vPrev a b (d + 1) (k + 1) - (k + 1) + 1 = vPrev a b (d + 1) (k + 1) - k by ring]
        at this
    · have := (hprev (k - 1) (by unfold OnRound at *; push_cast at *; omega)).right
      rwa [show vPrev a b (d + 1) (k - 1) - (k - 1) = vPrev a b (d + 1) (k - 1) + 1 - k by ring]
        at this

/-- Myers' lemma, first half: the point round `d` stores on diagonal `k` is reached with `d`
edits. -/
theorem reach_furthest {d : Nat} {k : Int} (h : OnRound d k) :
    Reach a b d (furthest a b d k) (furthest a b d k - k) :=
  (reach_startX h).slide

/-- Myers' lemma, second half: no path with `d` edits gets further along its diagonal. -/
theorem le_furthest {d : Nat} {x y : Int} (h : Reach a b d x y) : x ≤ furthest a b d (x - y) := by
  induction h with
  | start => exact le_slide _ _
  | @diag d x y _ hd ih =>
    rw [show x + 1 - (y + 1) = x - y by ring]
    rcases eq_or_lt_of_le ih with he | hlt
    · have := slide_stop (a := a) (b := b) (startX (vPrev a b d) d (x - y)) (x - y)
      rw [← furthest, ← he, show x - (x - y) = y by ring, hd] at this
      exact absurd this (by simp)
    · omega
  | @right d x y hr ih =>
    have hk := hr.onRound
    have : furthest a b d (x - y) + 1 ≤ startX (vPrev a b (d + 1)) (d + 1) (x + 1 - y) := by
      have := startX_ge_right (W := vAfter a b d) (d := d + 1) (k := x + 1 - y)
        (by unfold OnRound at hk; push_cast; omega)
      rwa [show x + 1 - y - 1 = x - y by ring, vAfter_onRound hk] at this
    exact le_trans (by omega) (le_trans this (le_slide _ _))
  | @down d x y hr ih =>
    have hk := hr.onRound
    have : furthest a b d (x - y) ≤ startX (vPrev a b (d + 1)) (d + 1) (x - (y + 1)) := by
      have := startX_ge_down (W := vAfter a b d) (d := d + 1) (k := x - (y + 1))
        (by unfold OnRound at hk; push_cast; omega)
      rwa [show x - (y + 1) + 1 = x - y by ring, vAfter_onRound hk] at this
    exact le_trans ih (le_trans this (le_slide _ _))

end MergeCore
