import MergeCore.Differ.EditGraph

/-!
# Edit scripts and the longest common subsequence

`EditScript s as bs`: read in order, `s` turns `as` into `bs`. An insertion carries the next
line of `bs`, a deletion the next line of `as`, and an equal step one line of each, with the
same text. `changes s` counts the insertions and deletions.

Every edit script costs at least `|as| + |bs| - 2 * lcs` (`changes_add_lcs`), and `lcsScript`
costs exactly that. A script from the suffixes at `(x, y)` extends a path to `(x, y)` by its
changes (`EditScript.reach`), which ties scripts to `Reach`.
-/

namespace MergeCore

/-- The texts of the lines. -/
def texts (l : List FileLine) : List String := l.map (·.text)

/-- The length of a longest common subsequence. -/
def lcs : List String → List String → Nat
  | [], _ => 0
  | _, [] => 0
  | x :: xs, y :: ys => if x = y then lcs xs ys + 1 else max (lcs xs (y :: ys)) (lcs (x :: xs) ys)
termination_by xs ys => xs.length + ys.length

/-- Read in order, `s` is an edit script from `as` to `bs`. -/
inductive EditScript : List FileDiff → List FileLine → List FileLine → Prop
  | nil : EditScript [] [] []
  | ins {s : List FileDiff} {as bs : List FileLine} (l : FileLine) :
      EditScript s as bs → EditScript (⟨none, some l, .ins⟩ :: s) as (l :: bs)
  | del {s : List FileDiff} {as bs : List FileLine} (l : FileLine) :
      EditScript s as bs → EditScript (⟨some l, none, .del⟩ :: s) (l :: as) bs
  | eql {s : List FileDiff} {as bs : List FileLine} (l l' : FileLine) :
      l.text = l'.text → EditScript s as bs → EditScript (⟨some l, some l', .eql⟩ :: s) (l :: as) (l' :: bs)

/-- An insertion or a deletion. -/
def FileDiff.isChange (e : FileDiff) : Bool := e.diffType != .eql

/-- The number of insertions and deletions. -/
def changes (s : List FileDiff) : Nat := s.countP FileDiff.isChange

/-- The line of the first file an entry consumes: a deletion's or an equal step's `lineA`. -/
def FileDiff.lineOfA (e : FileDiff) : Option FileLine :=
  if e.diffType = .ins then none else e.lineA

/-- The line of the second file an entry consumes: an insertion's or an equal step's `lineB`. -/
def FileDiff.lineOfB (e : FileDiff) : Option FileLine :=
  if e.diffType = .del then none else e.lineB

/-- The pairs of line numbers that the equal steps match. -/
def eqlPairs (s : List FileDiff) : List (Int × Int) :=
  s.filterMap fun e =>
    if e.diffType = .eql then e.lineA.bind fun la => e.lineB.map fun lb => (la.number, lb.number)
    else none

/-- A script that keeps a longest common subsequence. -/
def lcsScript : List FileLine → List FileLine → List FileDiff
  | [], bs => bs.map fun l => ⟨none, some l, .ins⟩
  | l :: as, [] => (l :: as).map fun l => ⟨some l, none, .del⟩
  | l :: as, l' :: bs =>
    if l.text = l'.text then ⟨some l, some l', .eql⟩ :: lcsScript as bs
    else if lcs (texts (l :: as)) (texts bs) ≤ lcs (texts as) (texts (l' :: bs)) then
      ⟨some l, none, .del⟩ :: lcsScript as (l' :: bs)
    else ⟨none, some l', .ins⟩ :: lcsScript (l :: as) bs
termination_by as bs => as.length + bs.length

/-! ## The longest common subsequence -/

@[simp] theorem lcs_nil_left (ys : List String) : lcs [] ys = 0 := by
  cases ys <;> simp [lcs]

@[simp] theorem lcs_nil_right (xs : List String) : lcs xs [] = 0 := by
  cases xs <;> simp [lcs]

theorem lcs_cons_cons (x y : String) (xs ys : List String) :
    lcs (x :: xs) (y :: ys) =
      if x = y then lcs xs ys + 1 else max (lcs xs (y :: ys)) (lcs (x :: xs) ys) := by
  rw [lcs]

mutual

/-- Dropping the first line of the first file loses at most one common line. -/
theorem lcs_le_cons_left (x : String) (xs ys : List String) : lcs xs ys ≤ lcs (x :: xs) ys := by
  match xs, ys with
  | _, [] => simp
  | [], _ :: _ => simp
  | x' :: xs', y :: ys' =>
    rw [lcs_cons_cons x y]
    split
    · subst y; exact lcs_cons_right_le _ _ _
    · exact le_max_left _ _
termination_by 2 * (xs.length + ys.length) + 1
decreasing_by all_goals simp_wf; omega

/-- Adding a line to the second file adds at most one common line. -/
theorem lcs_cons_right_le (y : String) (xs ys : List String) :
    lcs xs (y :: ys) ≤ lcs xs ys + 1 := by
  match xs with
  | [] => simp
  | x :: xs' =>
    rw [lcs_cons_cons x y]
    split
    · exact Nat.add_le_add_right (lcs_le_cons_left _ _ _) 1
    · exact max_le (le_trans (lcs_cons_right_le y xs' ys)
        (Nat.add_le_add_right (lcs_le_cons_left _ _ _) 1)) (Nat.le_succ _)
termination_by 2 * (xs.length + ys.length) + 2
decreasing_by all_goals (simp_wf; try omega)

end

mutual

theorem lcs_le_cons_right (y : String) (xs ys : List String) : lcs xs ys ≤ lcs xs (y :: ys) := by
  match xs, ys with
  | [], _ => simp
  | _ :: _, [] => simp
  | x :: xs', y' :: ys' =>
    rw [lcs_cons_cons x y]
    split
    · subst x; exact lcs_cons_left_le _ _ _
    · exact le_max_right _ _
termination_by 2 * (xs.length + ys.length) + 1
decreasing_by all_goals simp_wf; omega

theorem lcs_cons_left_le (x : String) (xs ys : List String) :
    lcs (x :: xs) ys ≤ lcs xs ys + 1 := by
  match ys with
  | [] => simp
  | y :: ys' =>
    rw [lcs_cons_cons x y]
    split
    · exact Nat.add_le_add_right (lcs_le_cons_right _ _ _) 1
    · exact max_le (Nat.le_succ _) (le_trans (lcs_cons_left_le x xs ys')
        (Nat.add_le_add_right (lcs_le_cons_right _ _ _) 1))
termination_by 2 * (xs.length + ys.length) + 2
decreasing_by all_goals (simp_wf; try omega)

end

/-! ## Scripts -/

namespace EditScript

@[simp] theorem changes_nil : changes [] = 0 := rfl

@[simp] theorem changes_cons (e : FileDiff) (s : List FileDiff) :
    changes (e :: s) = changes s + if e.isChange then 1 else 0 := by
  simp only [changes, List.countP_cons]

/-- Every edit script makes at least `|as| + |bs| - 2 * lcs` changes. -/
theorem changes_add_lcs {s : List FileDiff} {as bs : List FileLine} (h : EditScript s as bs) :
    as.length + bs.length ≤ changes s + 2 * lcs (texts as) (texts bs) := by
  induction h with
  | nil => simp
  | @ins s as bs l _ ih =>
    have := lcs_le_cons_right l.text (texts as) (texts bs)
    simp only [changes_cons, FileDiff.isChange, texts, List.map_cons, List.length_cons] at *
    simp; omega
  | @del s as bs l _ ih =>
    have := lcs_le_cons_left l.text (texts as) (texts bs)
    simp only [changes_cons, FileDiff.isChange, texts, List.map_cons, List.length_cons] at *
    simp; omega
  | @eql s as bs l l' ht _ ih =>
    simp only [changes_cons, FileDiff.isChange, texts, List.map_cons, List.length_cons,
      lcs_cons_cons, ht, if_true] at *
    simp; omega

theorem snoc_ins {s : List FileDiff} {as bs : List FileLine} (h : EditScript s as bs)
    (l : FileLine) : EditScript (s ++ [⟨none, some l, .ins⟩]) as (bs ++ [l]) := by
  induction h with
  | nil => exact .ins l .nil
  | ins l' _ ih => exact .ins l' ih
  | del l' _ ih => exact .del l' ih
  | eql l₁ l₂ ht _ ih => exact .eql l₁ l₂ ht ih

theorem snoc_del {s : List FileDiff} {as bs : List FileLine} (h : EditScript s as bs)
    (l : FileLine) : EditScript (s ++ [⟨some l, none, .del⟩]) (as ++ [l]) bs := by
  induction h with
  | nil => exact .del l .nil
  | ins l' _ ih => exact .ins l' ih
  | del l' _ ih => exact .del l' ih
  | eql l₁ l₂ ht _ ih => exact .eql l₁ l₂ ht ih

theorem snoc_eql {s : List FileDiff} {as bs : List FileLine} (h : EditScript s as bs)
    {l l' : FileLine} (ht : l.text = l'.text) :
    EditScript (s ++ [⟨some l, some l', .eql⟩]) (as ++ [l]) (bs ++ [l']) := by
  induction h with
  | nil => exact .eql l l' ht .nil
  | ins l₀ _ ih => exact .ins l₀ ih
  | del l₀ _ ih => exact .del l₀ ih
  | eql l₁ l₂ ht' _ ih => exact .eql l₁ l₂ ht' ih

/-- The deletions and equal steps consume the first file, in order. -/
theorem lineOfA {s : List FileDiff} {as bs : List FileLine} (h : EditScript s as bs) :
    s.filterMap FileDiff.lineOfA = as := by
  induction h <;> simp_all [FileDiff.lineOfA]

/-- The insertions and equal steps consume the second file, in order. -/
theorem lineOfB {s : List FileDiff} {as bs : List FileLine} (h : EditScript s as bs) :
    s.filterMap FileDiff.lineOfB = bs := by
  induction h <;> simp_all [FileDiff.lineOfB]

/-- The equal steps pair lines of the same text. -/
theorem eql_text {s : List FileDiff} {as bs : List FileLine} (h : EditScript s as bs) :
    ∀ e ∈ s, e.diffType = .eql →
      ∃ la lb, e.lineA = some la ∧ e.lineB = some lb ∧ la.text = lb.text := by
  induction h with
  | nil => simp
  | ins l _ ih | del l _ ih =>
    intro e he
    rcases List.mem_cons.1 he with rfl | he
    · simp
    · exact ih e he
  | eql l l' ht _ ih =>
    intro e he
    rcases List.mem_cons.1 he with rfl | he
    · exact fun _ => ⟨l, l', rfl, rfl, ht⟩
    · exact ih e he

/-- Over files numbered in increasing order, the equal steps match increasing numbers. -/
theorem eqlPairs_increasing {s : List FileDiff} {as bs : List FileLine} (h : EditScript s as bs)
    (ha : (as.map (·.number)).Pairwise (· < ·)) (hb : (bs.map (·.number)).Pairwise (· < ·)) :
    (eqlPairs s).Pairwise (fun p q => p.1 < q.1 ∧ p.2 < q.2) ∧
      ∀ p ∈ eqlPairs s, p.1 ∈ as.map (·.number) ∧ p.2 ∈ bs.map (·.number) := by
  induction h with
  | nil => simp [eqlPairs]
  | @ins s as bs l _ ih =>
    rw [List.map_cons, List.pairwise_cons] at hb
    obtain ⟨h1, h2⟩ := ih ha hb.2
    exact ⟨by simpa [eqlPairs] using h1, fun p hp => by
      have := h2 p (by simpa [eqlPairs] using hp); simp_all⟩
  | @del s as bs l _ ih =>
    rw [List.map_cons, List.pairwise_cons] at ha
    obtain ⟨h1, h2⟩ := ih ha.2 hb
    exact ⟨by simpa [eqlPairs] using h1, fun p hp => by
      have := h2 p (by simpa [eqlPairs] using hp); simp_all⟩
  | @eql s as bs l l' ht _ ih =>
    rw [List.map_cons, List.pairwise_cons] at ha hb
    have ha' := ha
    have hb' := hb
    obtain ⟨h1, h2⟩ := ih ha'.2 hb'.2
    have hp : eqlPairs (⟨some l, some l', .eql⟩ :: s) = (l.number, l'.number) :: eqlPairs s := by
      simp [eqlPairs]
    rw [hp]
    refine ⟨List.pairwise_cons.2 ⟨fun q hq => ?_, h1⟩, fun p hp => ?_⟩
    · obtain ⟨q1, q2⟩ := h2 q hq
      exact ⟨ha'.1 _ q1, hb'.1 _ q2⟩
    · rcases List.mem_cons.1 hp with rfl | hp
      · simp
      · obtain ⟨q1, q2⟩ := h2 p hp
        exact ⟨List.mem_cons_of_mem _ q1, List.mem_cons_of_mem _ q2⟩

end EditScript

/-- `lcsScript` is an edit script that makes exactly `|as| + |bs| - 2 * lcs` changes. -/
theorem lcsScript_spec : ∀ (as bs : List FileLine),
    EditScript (lcsScript as bs) as bs ∧
      changes (lcsScript as bs) + 2 * lcs (texts as) (texts bs) = as.length + bs.length
  | [], bs => by
    simp only [lcsScript]
    refine ⟨?_, by simp [changes, texts, FileDiff.isChange]⟩
    induction bs with
    | nil => exact .nil
    | cons l bs ih => exact .ins l ih
  | l :: as, [] => by
    simp only [lcsScript]
    refine ⟨?_, by simp [changes, texts, FileDiff.isChange]⟩
    induction as generalizing l with
    | nil => exact .del l .nil
    | cons l₁ as ih => exact .del l (ih l₁)
  | l :: as, l' :: bs => by
    rw [lcsScript]
    split
    · rename_i ht
      obtain ⟨h1, h2⟩ := lcsScript_spec as bs
      refine ⟨.eql l l' ht h1, ?_⟩
      simp only [EditScript.changes_cons, FileDiff.isChange, texts, List.map_cons,
        lcs_cons_cons, ht, if_true, List.length_cons] at h2 ⊢
      simp; omega
    · rename_i ht
      split
      · rename_i hle
        obtain ⟨h1, h2⟩ := lcsScript_spec as (l' :: bs)
        refine ⟨.del l h1, ?_⟩
        simp only [EditScript.changes_cons, FileDiff.isChange, texts, List.map_cons,
          lcs_cons_cons, ht, if_false, List.length_cons] at h2 hle ⊢
        rw [max_eq_left hle]; simp; omega
      · rename_i hle
        obtain ⟨h1, h2⟩ := lcsScript_spec (l :: as) bs
        refine ⟨.ins l' h1, ?_⟩
        simp only [EditScript.changes_cons, FileDiff.isChange, texts, List.map_cons,
          lcs_cons_cons, ht, if_false, List.length_cons] at h2 hle ⊢
        rw [max_eq_right (by omega)]; simp; omega
termination_by as bs => as.length + bs.length

/-- A script from the suffixes at `(x, y)` continues a path to `(x, y)` to the end point. -/
theorem EditScript.reach {a b : List FileLine} {s : List FileDiff} {as bs : List FileLine}
    (h : EditScript s as bs) : ∀ {d x y : Nat}, x ≤ a.length → y ≤ b.length →
      a.drop x = as → b.drop y = bs → Reach a b d x y → Reach a b (d + changes s) a.length b.length := by
  induction h with
  | nil =>
    intro d x y hx hy ha hb hr
    rw [List.drop_eq_nil_iff] at ha hb
    obtain rfl : x = a.length := by omega
    obtain rfl : y = b.length := by omega
    simpa using hr
  | @ins s as bs l _ ih =>
    intro d x y hx hy ha hb hr
    have hy' : y < b.length := by
      by_contra h; rw [List.drop_eq_nil_of_le (by omega)] at hb; cases hb
    have := ih (d := d + 1) (x := x) (y := y + 1) hx hy' ha
      (by rw [← List.drop_drop, hb]; rfl) (by simpa using hr.down)
    simpa [FileDiff.isChange, add_assoc, add_comm 1] using this
  | @del s as bs l _ ih =>
    intro d x y hx hy ha hb hr
    have hx' : x < a.length := by
      by_contra h; rw [List.drop_eq_nil_of_le (by omega)] at ha; cases ha
    have := ih (d := d + 1) (x := x + 1) (y := y) hx' hy
      (by rw [← List.drop_drop, ha]; rfl) hb (by simpa using hr.right)
    simpa [FileDiff.isChange, add_assoc, add_comm 1] using this
  | @eql s as bs l l' ht _ ih =>
    intro d x y hx hy ha hb hr
    have hx' : x < a.length := by
      by_contra h; rw [List.drop_eq_nil_of_le (by omega)] at ha; cases ha
    have hy' : y < b.length := by
      by_contra h; rw [List.drop_eq_nil_of_le (by omega)] at hb; cases hb
    have hal : a[x] = l := by
      have := List.drop_eq_getElem_cons hx'; rw [ha] at this; exact (List.cons.inj this).1.symm
    have hbl : b[y] = l' := by
      have := List.drop_eq_getElem_cons hy'; rw [hb] at this; exact (List.cons.inj this).1.symm
    have hd : diagB a b x y = true := by
      have h0x : (0 : Int) ≤ x := by omega
      have h0y : (0 : Int) ≤ y := by omega
      simp [diagB, goIndex, h0x, h0y, List.getElem?_eq_getElem hx', List.getElem?_eq_getElem hy',
        hal, hbl, ht]
    have := ih (d := d) (x := x + 1) (y := y + 1) hx' hy'
      (by rw [← List.drop_drop, ha]; rfl) (by rw [← List.drop_drop, hb]; rfl)
      (by simpa using hr.diag hd)
    simpa [FileDiff.isChange] using this

end MergeCore
