import MergeCore.Differ.EditGraph

/-!
# The forward pass: `GetShortestPath` computes `vAfter`

`tab mx W` is the slice holding `W k` at `getIndexV`'s index of diagonal `k`. On such a slice
the inner loop's body stores `furthest d k` (`pathStep_tab`), and the two loops run the rounds
until the first diagonal whose point has `x ≥ n` and `y ≥ m` (`firstHitRound`). The trace is
then `snapshots D k`: `V` after each round before `D`, and `V` as round `D` left it at that
diagonal `k` (`getShortestPath_spec`).

That first point is `(n, m)` itself (`hit_eq`: a path to a point past the box is clipped to a
shorter path to `(n, m)`, which an earlier round would have found), and `D` is the least
number of edits of any path to `(n, m)` (`le_of_reach`).
-/

namespace MergeCore

/-- The slice of `2 * mx + 1` diagonals holding `W k` at index `k + mx`. -/
def tab (mx : Nat) (W : Int → Int) : List Int :=
  (List.range (2 * mx + 1)).map fun (i : Nat) => W ((i : Int) - mx)

section
variable (a b : List FileLine)

/-- Round `d` ends at diagonal `k`: its point has `x ≥ n` and `y ≥ m`. -/
def Hit (d : Nat) (k : Int) : Prop :=
  (a.length : Int) ≤ furthest a b d k ∧ (b.length : Int) ≤ furthest a b d k - k

instance (d : Nat) (k : Int) : Decidable (Hit a b d k) := inferInstanceAs (Decidable (_ ∧ _))

/-- The first diagonal from `k` on (`c` of them, step 2) where round `d` ends. -/
def firstHit (d : Nat) : Nat → Int → Option Int
  | 0, _ => none
  | c + 1, k => if Hit a b d k then some k else firstHit d c (k + 2)

/-- The first round from `d` on (`r` of them) that ends, with its diagonal. -/
def firstHitRound : Nat → Nat → Option (Nat × Int)
  | 0, _ => none
  | r + 1, d =>
    match firstHit a b d (d + 1) (-(d : Int)) with
    | some k => some (d, k)
    | none => firstHitRound r (d + 1)

/-- `V` in round `d` once diagonal `k` is written. -/
def partialV (d : Nat) (k : Int) (k' : Int) : Int :=
  if OnRound d k' ∧ k' ≤ k then furthest a b d k' else vPrev a b d k'

/-- The trace of a run that ends in round `D` at diagonal `k`. -/
def snapshots (D : Nat) (k : Int) : List (List Int) :=
  (List.range D).map (fun d => tab (a.length + b.length) (vAfter a b d)) ++
    [tab (a.length + b.length) (partialV a b D k)]

end

variable {a b : List FileLine}

/-! ## Slices -/

theorem length_tab (mx : Nat) (W : Int → Int) : (tab mx W).length = 2 * mx + 1 := by simp [tab]

theorem goIndex_tab {n m : Nat} {W : Int → Int} {k : Int} (h1 : -((n : Int) + m) ≤ k)
    (h2 : k ≤ (n : Int) + m) : goIndex (tab (n + m) W) (getIndexV n m k) = some (W k) := by
  have h : (getIndexV n m k).toNat < 2 * (n + m) + 1 := by unfold getIndexV; omega
  rw [goIndex, if_pos (by unfold getIndexV; omega), tab, List.getElem?_map,
    List.getElem?_range h]
  simp only [Option.map_some']
  congr 2
  unfold getIndexV; push_cast; omega

theorem goSet_tab {n m : Nat} {W : Int → Int} {k : Int} (h1 : -((n : Int) + m) ≤ k)
    (h2 : k ≤ (n : Int) + m) (x : Int) :
    goSet (tab (n + m) W) (getIndexV n m k) x = some (tab (n + m) (Function.update W k x)) := by
  rw [goSet, if_pos ⟨by unfold getIndexV; omega, by rw [length_tab]; unfold getIndexV; omega⟩]
  congr 1
  apply List.ext_getElem?
  intro i
  rw [List.getElem?_set, length_tab, tab, tab, List.getElem?_map, List.getElem?_map]
  by_cases hi : i < 2 * (n + m) + 1
  · rw [List.getElem?_range hi]
    by_cases he : (getIndexV n m k).toNat = i
    · rw [if_pos he, if_pos (by omega)]
      simp only [Option.map_some', Function.update_apply]
      rw [if_pos (by unfold getIndexV at he; omega)]
    · rw [if_neg he]
      simp only [Option.map_some', Function.update_apply]
      rw [if_neg (by unfold getIndexV at he; omega)]
  · rw [List.getElem?_eq_none (by simpa using hi), if_neg (by unfold getIndexV; omega)]
    rfl

theorem goDown_tab {n m d : Nat} {W : Int → Int} {k : Int} (hd : d ≤ n + m)
    (hk1 : -(d : Int) ≤ k) (hk2 : k ≤ d) :
    goDown n m (tab (n + m) W) d k =
      some (decide (k = -(d : Int) ∨ (k ≠ d ∧ W (k - 1) < W (k + 1)))) := by
  unfold goDown
  by_cases h1 : k = -(d : Int)
  · simp [h1]
  · by_cases h2 : k = d
    · subst h2; simp [h1]
    · rw [if_neg h1, if_pos h2, goIndex_tab (by omega) (by omega),
        goIndex_tab (by omega) (by omega)]
      simp [h1, h2]

theorem pathStart_tab {n m d : Nat} {W : Int → Int} {k : Int} (hmx : 0 < n + m) (hd : d ≤ n + m)
    (hk1 : -(d : Int) ≤ k) (hk2 : k ≤ d) :
    pathStart n m (tab (n + m) W) d k = some (startX W d k) := by
  unfold pathStart startX
  rw [goDown_tab hd hk1 hk2]
  simp only [Option.bind_eq_bind, Option.some_bind, decide_eq_true_eq]
  split
  · exact goIndex_tab (by omega) (by omega)
  · rw [goIndex_tab (by omega) (by omega)]; rfl

theorem startX_congr {W W' : Int → Int} {d : Nat} {k : Int} (h1 : W (k - 1) = W' (k - 1))
    (h2 : W (k + 1) = W' (k + 1)) : startX W d k = startX W' d k := by
  simp only [startX, h1, h2]

theorem offRound_pred {d : Nat} {k : Int} (h : OnRound d k) : ¬ OnRound d (k - 1) := by
  unfold OnRound at *; omega

theorem offRound_succ {d : Nat} {k : Int} (h : OnRound d k) : ¬ OnRound d (k + 1) := by
  unfold OnRound at *; omega

/-- The inner loop's body stores `furthest d k`, whatever `V` holds on round `d`'s diagonals. -/
theorem pathStep_tab {d : Nat} {k : Int} {W : Int → Int} (hmx : 0 < a.length + b.length)
    (hd : d ≤ a.length + b.length) (hk : OnRound d k)
    (hW : ∀ k', ¬ OnRound d k' → W k' = vPrev a b d k') :
    pathStep a b d k (tab (a.length + b.length) W) =
      some (furthest a b d k,
        tab (a.length + b.length) (Function.update W k (furthest a b d k))) := by
  have hs : startX W d k = startX (vPrev a b d) d k :=
    startX_congr (hW _ (offRound_pred hk)) (hW _ (offRound_succ hk))
  have hr := (reach_startX (a := a) (b := b) hk).nonneg
  unfold pathStep
  rw [pathStart_tab hmx hd hk.1 hk.2.1]
  simp only [Option.bind_eq_bind, Option.some_bind, hs]
  rw [snake_eq_slideAux _ hr.1 hr.2]
  simp only [Option.some_bind]
  rw [goSet_tab (by unfold OnRound at hk; omega) (by unfold OnRound at hk; omega)]
  rfl

/-! ## `partialV` -/

theorem partialV_off {d : Nat} {k k' : Int} (h : ¬ OnRound d k') :
    partialV a b d k k' = vPrev a b d k' := by
  simp [partialV, h]

theorem partialV_init (d : Nat) : partialV a b d (-(d : Int) - 2) = vPrev a b d := by
  funext k'
  unfold partialV
  rw [if_neg (by unfold OnRound; omega)]

theorem partialV_last (d : Nat) : partialV a b d d = vAfter a b d := by
  funext k'
  rw [vAfter_eq, partialV, vRound]
  by_cases h : OnRound d k'
  · rw [if_pos ⟨h, h.2.1⟩, if_pos h, furthest]
  · rw [if_neg (fun h' => h h'.1), if_neg h]

theorem partialV_step {d : Nat} {k : Int} (hk : OnRound d k) :
    Function.update (partialV a b d (k - 2)) k (furthest a b d k) = partialV a b d k := by
  funext k'
  rw [Function.update_apply]
  split
  · subst k'; simp [partialV, hk]
  · unfold partialV
    by_cases h : OnRound d k'
    · have : k' ≤ k - 2 ↔ k' ≤ k := by unfold OnRound at h hk; omega
      simp only [h, this, true_and]
    · simp only [h, false_and, if_false]

/-! ## The loops -/

theorem firstHit_some {d : Nat} : ∀ {c : Nat} {k k' : Int}, firstHit a b d c k = some k' →
    Hit a b d k' ∧ ∃ j < c, k' = k + 2 * j
  | 0, _, _, h => by simp [firstHit] at h
  | c + 1, k, k', h => by
    unfold firstHit at h
    split at h
    · cases h; exact ⟨‹_›, 0, by omega, by simp⟩
    · obtain ⟨hh, j, hj, rfl⟩ := firstHit_some h
      exact ⟨hh, j + 1, by omega, by push_cast; ring⟩

theorem firstHit_none {d : Nat} : ∀ {c : Nat} {k : Int}, firstHit a b d c k = none →
    ∀ j < c, ¬ Hit a b d (k + 2 * j)
  | 0, _, _, j, hj => absurd hj (Nat.not_lt_zero j)
  | c + 1, k, h, j, hj => by
    unfold firstHit at h
    split at h
    · cases h
    · rcases j with _ | j
      · simpa
      · have := firstHit_none h j (by omega)
        rwa [show k + 2 + 2 * (j : Int) = k + 2 * ((j + 1 : Nat) : Int) by push_cast; ring] at this

theorem round_noHit {d : Nat} (h : firstHit a b d (d + 1) (-(d : Int)) = none) :
    ∀ k, OnRound d k → ¬ Hit a b d k := by
  intro k hk
  have := firstHit_none h ((k + d) / 2).toNat (by unfold OnRound at hk; omega)
  rwa [show -(d : Int) + 2 * (((k + d) / 2).toNat : Int) = k by unfold OnRound at hk; omega]
    at this

theorem firstHitRound_none : ∀ {r d : Nat}, firstHitRound a b r d = none →
    ∀ d', d ≤ d' → d' < d + r → ∀ k, OnRound d' k → ¬ Hit a b d' k
  | 0, _, _, _, h1, h2 => absurd h2 (by omega)
  | r + 1, d, h, d', h1, h2 => by
    unfold firstHitRound at h
    split at h
    · cases h
    · rename_i hf
      rcases eq_or_lt_of_le h1 with rfl | h1
      · exact round_noHit hf
      · exact firstHitRound_none h d' (by omega) (by omega)

theorem firstHitRound_some : ∀ {r d D : Nat} {k : Int}, firstHitRound a b r d = some (D, k) →
    d ≤ D ∧ D < d + r ∧ OnRound D k ∧ Hit a b D k ∧
      ∀ d', d ≤ d' → d' < D → ∀ k', OnRound d' k' → ¬ Hit a b d' k'
  | 0, _, _, _, h => by simp [firstHitRound] at h
  | r + 1, d, D, k, h => by
    unfold firstHitRound at h
    split at h
    · rename_i k₀ hf
      cases h
      obtain ⟨hh, j, hj, rfl⟩ := firstHit_some hf
      exact ⟨le_rfl, by omega, ⟨by omega, by omega, by omega⟩, hh,
        fun d' h1 h2 => absurd h2 (by omega)⟩
    · rename_i hf
      obtain ⟨h1, h2, h3, h4, h5⟩ := firstHitRound_some h
      refine ⟨by omega, by omega, h3, h4, fun d' h1' h2' => ?_⟩
      rcases eq_or_lt_of_le h1' with rfl | h1'
      · exact round_noHit hf
      · exact h5 d' (by omega) h2'

/-- The inner loop of round `d`, from diagonal `k` with the diagonals before it written. -/
theorem pathRound_tab (hmx : 0 < a.length + b.length) {d : Nat} (hd : d ≤ a.length + b.length) :
    ∀ (c : Nat) (k : Int), k + 2 * c = d + 2 → -(d : Int) ≤ k →
      pathRound a b d c k (tab (a.length + b.length) (partialV a b d (k - 2))) =
        some (match firstHit a b d c k with
          | some k' => .found (tab (a.length + b.length) (partialV a b d k'))
          | none => .next (tab (a.length + b.length) (vAfter a b d)))
  | 0, k, h1, _ => by
    rw [pathRound, firstHit, show k - 2 = d by omega, partialV_last]
  | c + 1, k, h1, h2 => by
    have hk : OnRound d k := ⟨h2, by omega, by omega⟩
    rw [pathRound, pathStep_tab hmx hd hk (fun k' hk' => partialV_off hk'), partialV_step hk]
    simp only [Option.bind_eq_bind, Option.some_bind, firstHit]
    by_cases hh : Hit a b d k
    · have hh' := hh
      unfold Hit at hh'
      simp only [hh', hh, and_self, if_true]
    · have hh' := hh
      unfold Hit at hh'
      have := pathRound_tab hmx hd c (k + 2) (by omega) (by omega)
      rw [show k + 2 - 2 = k by ring] at this
      rw [if_neg hh', if_neg hh, this]

/-- The outer loop from round `d` on, `r` rounds left. -/
theorem pathRounds_tab (hmx : 0 < a.length + b.length) :
    ∀ (r d : Nat) (pre : List (List Int)), d + r ≤ a.length + b.length + 1 →
      pathRounds a b r d (tab (a.length + b.length) (vPrev a b d)) pre =
        some (match firstHitRound a b r d with
          | some (D, k) => pre ++ (List.range' d (D - d)).map
              (fun d' => tab (a.length + b.length) (vAfter a b d')) ++
              [tab (a.length + b.length) (partialV a b D k)]
          | none => [])
  | 0, _, _, _ => rfl
  | r + 1, d, pre, h => by
    rw [pathRounds, ← partialV_init,
      pathRound_tab hmx (by omega) (d + 1) (-(d : Int)) (by push_cast; ring) le_rfl]
    cases hf : firstHit a b d (d + 1) (-(d : Int)) with
    | some k => simp [firstHitRound, hf]
    | none =>
      simp only [Option.bind_eq_bind, Option.some_bind, firstHitRound, hf]
      rw [show vAfter a b d = vPrev a b (d + 1) from rfl, pathRounds_tab hmx r (d + 1) _ (by omega)]
      cases hD : firstHitRound a b r (d + 1) with
      | none => rfl
      | some p =>
        obtain ⟨D, k⟩ := p
        have hle := (firstHitRound_some hD).1
        obtain ⟨j, rfl⟩ : ∃ j, D = d + 1 + j := ⟨D - (d + 1), by omega⟩
        simp [show d + 1 + j - d = j + 1 by omega, List.range'_succ, vPrev]

theorem reach_edges (x y : Nat) : Reach a b (x + y) x y := by
  induction y with
  | zero =>
    induction x with
    | zero => exact .start
    | succ x ih => simpa using ih.right
  | succ y ih => simpa [← add_assoc] using ih.down

/-- A path to `(n, m)` with `d` edits makes round `d` end on diagonal `n - m`. -/
theorem hit_of_reach {d : Nat} (h : Reach a b d a.length b.length) :
    OnRound d ((a.length : Int) - b.length) ∧ Hit a b d ((a.length : Int) - b.length) := by
  have := le_furthest h
  exact ⟨h.onRound, this, by omega⟩

/-- `GetShortestPath` returns the snapshots of `V` up to the first round that ends. -/
theorem getShortestPath_spec (hmx : 0 < a.length + b.length) :
    ∃ D k, getShortestPath a b = some (snapshots a b D k) ∧ D ≤ a.length + b.length ∧
      OnRound D k ∧ Hit a b D k ∧ ∀ d < D, ∀ k', OnRound d k' → ¬ Hit a b d k' := by
  have hrun := pathRounds_tab hmx (a.length + b.length + 1) 0 [] (by omega)
  rw [show tab (a.length + b.length) (vPrev a b 0) = List.replicate (2 * (a.length + b.length) + 1) 0
    by simp [tab, vPrev, List.map_const']] at hrun
  cases hf : firstHitRound a b (a.length + b.length + 1) 0 with
  | none =>
    have := hit_of_reach (reach_edges (a := a) (b := b) a.length b.length)
    exact absurd this.2 (firstHitRound_none hf _ (by omega) (by omega) _ this.1)
  | some p =>
    obtain ⟨D, k⟩ := p
    obtain ⟨-, h2, h3, h4, h5⟩ := firstHitRound_some hf
    refine ⟨D, k, ?_, by omega, h3, h4, fun d hd => h5 d (by omega) hd⟩
    rw [getShortestPath, hrun, hf]
    simp [snapshots, List.range_eq_range']

/-- The first point past the end is the end point `(n, m)` itself. -/
theorem hit_eq {D : Nat} {k : Int} (hk : OnRound D k) (hh : Hit a b D k)
    (hmin : ∀ d < D, ∀ k', OnRound d k' → ¬ Hit a b d k') :
    furthest a b D k = a.length ∧ k = (a.length : Int) - b.length := by
  obtain ⟨d', hr, hle⟩ := (reach_furthest (a := a) (b := b) hk).clip
  obtain ⟨h1, h2⟩ := hh
  rw [min_eq_right h1, min_eq_right h2] at hr hle
  have hD : D ≤ d' := by
    by_contra hlt
    have := hit_of_reach hr
    exact hmin d' (by omega) _ this.1 this.2
  constructor <;> omega

/-- `D` is the least number of edits of a path to `(n, m)`. -/
theorem le_of_reach {D d : Nat} (hmin : ∀ d < D, ∀ k', OnRound d k' → ¬ Hit a b d k')
    (h : Reach a b d a.length b.length) : D ≤ d := by
  by_contra hlt
  exact hmin d (by omega) _ (hit_of_reach h).1 (hit_of_reach h).2

end MergeCore
