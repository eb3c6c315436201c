import Mathlib.Data.Int.Defs

/-!
# The line differ (`part_000`: `myersDifferer`)

An index out of range is a panic, `none` (`goIndex`, `goSet`). Each loop recurses on a counter
that is its own bound, so at zero the Go condition is false too. `Backtrack`'s channel is the
list of the elements it sends, in order.
-/

namespace MergeCore

structure FileLine where
  number : Int
  text : String
deriving Repr, DecidableEq

inductive FileDiffType
  | ins
  | del
  | eql
deriving Repr, DecidableEq

/-- `fileDiff`; a nil `*fileLine` is `none`. -/
structure FileDiff where
  lineA : Option FileLine
  lineB : Option FileLine
  diffType : FileDiffType
deriving Repr, DecidableEq

structure BacktrackEl where
  prevX : Int
  prevY : Int
  x : Int
  y : Int
deriving Repr, DecidableEq

/-- Go's `s[i]` and, below, `s[i] = x`: a panic (`none`) outside `[0, len s)`. -/
def goIndex {α : Type} (s : List α) (i : Int) : Option α :=
  if 0 ≤ i then s[i.toNat]? else none

def goSet (s : List Int) (i x : Int) : Option (List Int) :=
  if 0 ≤ i ∧ i < s.length then some (s.set i.toNat x) else none

/-- `getIndexV`: diagonal `val` of `V`, offset by `max = lenA + lenB`. -/
def getIndexV (lenA lenB val : Int) : Int := val + (lenA + lenB)

/-! ## `GetShortestPath` -/

/-- The snake `for x < n && y < m && md.a[x].text == md.b[y].text`, at most `n - x` times. -/
def snake (a b : List FileLine) : Nat → Int → Int → Option Int
  | 0, x, _ => some x
  | fuel + 1, x, y =>
    if x < a.length ∧ y < b.length then do
      let la ← goIndex a x
      let lb ← goIndex b y
      if la.text = lb.text then snake a b fuel (x + 1) (y + 1) else some x
    else some x

/-- `k == -d || (k != d && v[k-1] < v[k+1])`, in `GetShortestPath` and `Backtrack` alike. -/
def goDown (lenA lenB : Int) (v : List Int) (d : Nat) (k : Int) : Option Bool :=
  if k = -(d : Int) then pure true
  else if k ≠ d then do
    let v1 ← goIndex v (getIndexV lenA lenB (k - 1))
    let v2 ← goIndex v (getIndexV lenA lenB (k + 1))
    pure (decide (v1 < v2))
  else pure false

/-- Where diagonal `k` of round `d` starts: down from `k + 1` or right from `k - 1`. -/
def pathStart (lenA lenB : Int) (v : List Int) (d : Nat) (k : Int) : Option Int := do
  let down ← goDown lenA lenB v d k
  if down then goIndex v (getIndexV lenA lenB (k + 1))
  else (· + 1) <$> goIndex v (getIndexV lenA lenB (k - 1))

/-- The inner loop's body: the start, the snake, and `v[k] = x`. -/
def pathStep (a b : List FileLine) (d : Nat) (k : Int) (v : List Int) :
    Option (Int × List Int) := do
  let x ← pathStart a.length b.length v d k
  let x ← snake a b (a.length - x).toNat x (x - k)
  let v ← goSet v (getIndexV a.length b.length k) x
  pure (x, v)

/-- A round runs out (`next`) or reaches the end point (`found`). -/
inductive RoundEnd
  | next (v : List Int)
  | found (v : List Int)
deriving Repr, DecidableEq

/-- `for k := -d; k <= d; k = k + 2`, `c` diagonals from `k` on. -/
def pathRound (a b : List FileLine) (d : Nat) : Nat → Int → List Int → Option RoundEnd
  | 0, _, v => some (.next v)
  | c + 1, k, v => do
    let (x, v) ← pathStep a b d k v
    if a.length ≤ x ∧ b.length ≤ x - k then some (.found v) else pathRound a b d c (k + 2) v

/-- `for d := 0; d <= max; d++`, a copy of `v` to the trace after each round; then `nil`. -/
def pathRounds (a b : List FileLine) :
    Nat → Nat → List Int → List (List Int) → Option (List (List Int))
  | 0, _, _, _ => some []
  | r + 1, d, v, trace => do
    match ← pathRound a b d (d + 1) (-(d : Int)) v with
    | .found v => some (trace ++ [v])
    | .next v => pathRounds a b r (d + 1) v (trace ++ [v])

def getShortestPath (a b : List FileLine) : Option (List (List Int)) :=
  let max := a.length + b.length
  pathRounds a b (max + 1) 0 (List.replicate (2 * max + 1) 0) []

/-! ## `Backtrack` and `Diff` -/

/-- The diagonal `for x > prevX && y > prevY`, at most `x - prevX` times. -/
def backSnake (prevX prevY : Int) : Nat → Int → Int → List BacktrackEl × Int × Int
  | 0, x, y => ([], x, y)
  | fuel + 1, x, y =>
    if x > prevX ∧ y > prevY then
      let r := backSnake prevX prevY fuel (x - 1) (y - 1)
      (⟨x - 1, y - 1, x, y⟩ :: r.1, r.2)
    else ([], x, y)

/-- One iteration of `Backtrack`'s loop: what it sends, and `(prevX, prevY)`. -/
def backStep (lenA lenB : Int) (v : List Int) (d : Nat) (x y : Int) :
    Option (List BacktrackEl × Int × Int) := do
  let k := x - y
  let up ← goDown lenA lenB v d k
  let prevK := if up then k + 1 else k - 1
  let prevX ← goIndex v (getIndexV lenA lenB prevK)
  let prevY := prevX - prevK
  let s := backSnake prevX prevY (x - prevX).toNat x y
  let els := if 0 < d then s.1 ++ [⟨prevX, prevY, s.2.1, s.2.2⟩] else s.1
  pure (els, prevX, prevY)

/-- `Backtrack`'s goroutine over `d = trLen - 1, ..., 0`. -/
def backtrackLoop (lenA lenB : Int) (trace : List (List Int)) :
    Nat → Int → Int → Option (List BacktrackEl)
  | 0, _, _ => some []
  | d + 1, x, y => do
    let v ← trace.get? d
    let (els, prevX, prevY) ← backStep lenA lenB v d x y
    let rest ← backtrackLoop lenA lenB trace d prevX prevY
    pure (els ++ rest)

def backtrack (a b : List FileLine) (trace : List (List Int)) : Option (List BacktrackEl) :=
  backtrackLoop a.length b.length trace trace.length a.length b.length

/-- The body of `Diff`'s `range ch` loop. -/
def diffEl (a b : List FileLine) (res : BacktrackEl) : Option FileDiff := do
  let lineA ← if res.prevX < a.length then goIndex a res.prevX else pure ⟨0, ""⟩
  let lineB ← if res.prevY < b.length then goIndex b res.prevY else pure ⟨0, ""⟩
  pure <| if res.x = res.prevX then ⟨none, some lineB, .ins⟩
    else if res.y = res.prevY then ⟨some lineA, none, .del⟩
    else ⟨some lineA, some lineB, .eql⟩

/-- `Diff`: the edit script, last step first. -/
def diff (a b : List FileLine) : Option (List FileDiff) := do
  let trace ← getShortestPath a b
  let els ← backtrack a b trace
  els.mapM (diffEl a b)

end MergeCore
