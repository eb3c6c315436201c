import MergeCore.Differ.Model

/-!
# The three-way merge (`diff3.go`)

A shallow embedding of `setup`, `getMatches`, the loop of `writeChunks` with its helpers
(`getNextMismatch`, `getNextMatch`, `isMatch`, `isInBounds`, `emitChunk`, `emitFinalChunk`)
and of `writeChunk`. A `map[int]int` is a function `Int → Option Int`. A file is the list of
the strings written to it, one per `Write` call; writes do not fail in the model.

Every loop of the code is a structural recursion on a counter that is the loop's own bound,
except the `for { }` of `writeChunks`, which runs on `fuel` and returns `none` when the fuel
runs out: `writeChunks` is `writeChunksLoop` followed by one `writeChunk` per range, in order
(a `writeChunk` leaves the loop's state alone, so running it in the loop or after it is the
same).
-/

namespace MergeCore

/-! ## Reading files and `setup` -/

/-- `bufio.MaxScanTokenSize`: the most bytes the scanner's buffer holds. -/
def maxScanTokenSize : Nat := 64 * 1024

/-- `bufio.ScanLines` drops a carriage return before the newline. -/
def dropCR (l : List Char) : List Char := if l.getLast? = some '\r' then l.dropLast else l

/-- The lines a `bufio.Scanner` with `ScanLines` yields after the reversed partial line `acc`,
and whether `Err` is `nil` after them. A line of `maxScanTokenSize` bytes or more, its carriage
return included, fills the buffer before its end: the scan stops there with `ErrTooLong`. (A
last line without a newline of exactly that size stops it too when the reader reports the end
of the blob by a separate `Read`, as a `bytes.Reader` does.) -/
def scanLinesFrom : List Char → List Char → List String × Bool
  | [], acc =>
    if acc = [] then ([], true)
    else if maxScanTokenSize ≤ (String.mk acc.reverse).utf8ByteSize then ([], false)
    else ([String.mk (dropCR acc.reverse)], true)
  | c :: cs, acc =>
    if c = '\n' then
      if maxScanTokenSize ≤ (String.mk acc.reverse).utf8ByteSize then ([], false)
      else
        let r := scanLinesFrom cs []
        (String.mk (dropCR acc.reverse) :: r.1, r.2)
    else scanLinesFrom cs (c :: acc)

/-- The lines a `bufio.Scanner` yields from a blob, and whether it ends without error. -/
def scanLines (b : String) : List String × Bool := scanLinesFrom b.toList []

/-- `getFileLines` over the lines the scanner yields: line `i` is numbered `i`. -/
def getFileLinesFrom : Nat → List String → List FileLine
  | _, [] => []
  | i, t :: ts => ⟨i, t⟩ :: getFileLinesFrom (i + 1) ts

/-- `getFileLines`. -/
def getFileLines (ts : List String) : List FileLine := getFileLinesFrom 0 ts

/-- `diff3`: the three files and the two diffs from the base. -/
structure Diff3 where
  diffA : List FileDiff
  diffB : List FileDiff
  base : List FileLine
  a : List FileLine
  b : List FileLine
deriving Repr, DecidableEq

/-- `setup` on the lines of the three blobs; `Diff` may panic (`none`). -/
def setup (baseT oursT theirsT : List String) : Option Diff3 := do
  let base := getFileLines baseT
  let ours := getFileLines oursT
  let theirs := getFileLines theirsT
  let diffOurs ← diff base ours
  let diffTheirs ← diff base theirs
  pure ⟨diffOurs, diffTheirs, base, ours, theirs⟩

/-! ## Matches -/

/-- The body of `getMatches`' loop: an equal step sets `matches[lineA.number] = lineB.number`;
a nil line of an equal step is a nil dereference (`none`). -/
def getMatchesStep (m : Int → Option Int) (el : FileDiff) : Option (Int → Option Int) :=
  if el.diffType = .eql then
    match el.lineA, el.lineB with
    | some la, some lb => some fun n => if n = la.number then some lb.number else m n
    | _, _ => none
  else some m

/-- `getMatches`: the base line number of each equal step, mapped to the other file's. -/
def getMatches (fd : List FileDiff) : Option (Int → Option Int) :=
  fd.foldlM getMatchesStep fun _ => none

/-- `isMatch`: `matches[lineBase + i]` (here `ms`) exists and is `offset + i`. -/
def isMatch (ms : Int → Option Int) (lineBase offset i : Int) : Bool :=
  match ms (lineBase + i) with
  | some el => el == offset + i
  | none => false

/-- `indexes`. -/
structure Indexes where
  baseIndex : Int
  aIndex : Int
  bIndex : Int
deriving Repr, DecidableEq

/-- `match`: a base line matched in both diffs. -/
structure Match where
  baseIndex : Int
  aIndex : Int
  bIndex : Int
deriving Repr, DecidableEq

/-- `indexRange`. -/
structure IndexRange where
  «from» : Indexes
  «to» : Indexes
deriving Repr, DecidableEq

section
variable (d : Diff3) (matchesA matchesB : Int → Option Int)

/-- `isInBounds`. -/
def isInBounds (i lineBase lineA lineB : Int) : Bool :=
  lineBase + i ≤ d.base.length || lineA + i ≤ d.a.length || lineB + i ≤ d.b.length

/-- The loop `for isInBounds(i) && isMatch(..A..) && isMatch(..B..) { i++ }`, `fuel` iterations
at most (past `max (len - line) + 1` the bounds check fails). -/
def mismatchLoop (lineBase lineA lineB : Int) : Nat → Int → Int
  | 0, i => i
  | fuel + 1, i =>
    if isInBounds d i lineBase lineA lineB && isMatch matchesA lineBase lineA i &&
        isMatch matchesB lineBase lineB i then
      mismatchLoop lineBase lineA lineB fuel (i + 1)
    else i

/-- `getNextMismatch`: the offset of the first line not matched in both diffs, or `-1` out of
bounds. -/
def getNextMismatch (lineBase lineA lineB : Int) : Int :=
  let i := mismatchLoop d matchesA matchesB lineBase lineA lineB
    (max (d.base.length - lineBase) (max (d.a.length - lineA) (d.b.length - lineB)) + 1).toNat 0
  if isInBounds d i lineBase lineA lineB then i else -1

/-- The loop `for baseNum < len(d.base)` of `getNextMatch`, `fuel` iterations at most. -/
def matchLoop : Nat → Int → Option Match
  | 0, _ => none
  | fuel + 1, baseNum =>
    if baseNum < d.base.length then
      match matchesA baseNum, matchesB baseNum with
      | some mA, some mB => some ⟨baseNum, mA, mB⟩
      | _, _ => matchLoop fuel (baseNum + 1)
    else none

/-- `getNextMatch`: the first base line from `lineBase` on matched in both diffs. -/
def getNextMatch (lineBase : Int) : Option Match :=
  matchLoop d matchesA matchesB (d.base.length - lineBase).toNat lineBase

/-- `emitChunk`'s range and the indexes it returns. -/
def emitChunk (currentPositions : Indexes) (m : Match) : IndexRange × Indexes :=
  (⟨currentPositions, ⟨m.baseIndex, m.aIndex, m.bIndex⟩⟩, ⟨m.baseIndex, m.aIndex, m.bIndex⟩)

/-- `emitFinalChunk`'s range: to the ends of the three files. -/
def emitFinalChunk (f : Indexes) : IndexRange :=
  ⟨f, ⟨d.base.length, d.a.length, d.b.length⟩⟩

/-- One iteration of `writeChunks`' loop: the range it writes and, unless it returns, the
next positions. -/
def chunkStep (cur : Indexes) : IndexRange × Option Indexes :=
  let i := getNextMismatch d matchesA matchesB cur.baseIndex cur.aIndex cur.bIndex
  if i = 0 then
    match getNextMatch d matchesA matchesB cur.baseIndex with
    | some m => let r := emitChunk cur m; (r.1, some r.2)
    | none => (emitFinalChunk d cur, none)
  else if i ≠ -1 then
    let r := emitChunk cur ⟨cur.baseIndex + i, cur.aIndex + i, cur.bIndex + i⟩
    (r.1, some r.2)
  else (emitFinalChunk d cur, none)

/-- The loop of `writeChunks` from `cur`: the ranges it passes to `writeChunk`, in order;
`none` when `fuel` runs out. -/
def writeChunksLoop : Nat → Indexes → Option (List IndexRange)
  | 0, _ => none
  | fuel + 1, cur =>
    match chunkStep d matchesA matchesB cur with
    | (ir, some next) => (ir :: ·) <$> writeChunksLoop fuel next
    | (ir, none) => some [ir]

end

/-! ## `writeChunk` -/

/-- `<<<<<<< yours`, `=======`, `>>>>>>> theirs`, each with its newline. -/
def delimStart : String := "<<<<<<< yours\n"
def delimMiddle : String := "=======\n"
def delimEnd : String := ">>>>>>> theirs\n"

/-- `writeBlockToFile`: each line and a newline. -/
def writeBlockToFile (bl : List String) : List String := bl.map (· ++ "\n")

/-- `writeConflictToFile`: nothing for two empty blocks, else the two blocks between the
delimiters. -/
def writeConflictToFile (ours theirs : List String) : List String :=
  if ours.length = 0 ∧ theirs.length = 0 then []
  else [delimStart] ++ writeBlockToFile ours ++ [delimMiddle] ++ writeBlockToFile theirs ++
    [delimEnd]

/-- `isBlockEqual`. -/
def isBlockEqual (blA blB : List String) : Bool :=
  blA.length == blB.length && (blA.zip blB).all fun p => p.1 == p.2

/-- One side's variables of `writeChunk`: `j` (or `k`), `blockA` (or `blockB`) and `notEqlA`
(or `notEqlB`). -/
structure Side where
  cursor : Int
  block : List String
  notEql : List FileLine
deriving Repr, DecidableEq

/-- The body `if j < to { line := lines[j]; if differs { notEql += line }; block += text; j++ }`
of both loops of `writeChunk`, on one side. -/
def sideStep (lines : List FileLine) (toIdx : Int) (differs : FileLine → Bool) (s : Side) :
    Option Side :=
  if s.cursor < toIdx then do
    let line ← goIndex lines s.cursor
    pure ⟨s.cursor + 1, s.block ++ [line.text], if differs line then s.notEql ++ [line] else s.notEql⟩
  else pure s

/-- `for i := from; i < to; i++`, over the base lines, advancing both sides. -/
def baseLoop (d : Diff3) (toBase toA toB : Int) : Nat → Int → Side → Side → Option (Side × Side)
  | 0, _, sA, sB => some (sA, sB)
  | fuel + 1, i, sA, sB =>
    if i < toBase then do
      let baseLine ← goIndex d.base i
      let sA ← sideStep d.a toA (fun l => baseLine.text != l.text) sA
      let sB ← sideStep d.b toB (fun l => baseLine.text != l.text) sB
      baseLoop d toBase toA toB fuel (i + 1) sA sB
    else some (sA, sB)

/-- `for j < to { ... }` after the base loop: every remaining line differs. -/
def tailLoop (lines : List FileLine) (toIdx : Int) : Nat → Side → Option Side
  | 0, s => some s
  | fuel + 1, s =>
    if s.cursor < toIdx then sideStep lines toIdx (fun _ => true) s >>= tailLoop lines toIdx fuel
    else some s

/-- `isEqlA` and `isEqlB`: the side kept the base block unchanged. -/
def isEql (lenBase lenX fromX toX : Int) (notEql : List FileLine) : Bool :=
  (lenBase < 1 && lenX < 1) || (lenBase == lenX && fromX != toX && notEql.length == 0)

/-- `writeChunk`: the conflicts it counts and what it writes. -/
def writeChunk (d : Diff3) (ir : IndexRange) : Option (Nat × List String) := do
  let (sA, sB) ← baseLoop d ir.«to».baseIndex ir.«to».aIndex ir.«to».bIndex
    (ir.«to».baseIndex - ir.from.baseIndex).toNat ir.from.baseIndex
    ⟨ir.from.aIndex, [], []⟩ ⟨ir.from.bIndex, [], []⟩
  let sA ← tailLoop d.a ir.«to».aIndex (ir.«to».aIndex - sA.cursor).toNat sA
  let sB ← tailLoop d.b ir.«to».bIndex (ir.«to».bIndex - sB.cursor).toNat sB
  let lenBase := ir.«to».baseIndex - ir.from.baseIndex
  let lenA := ir.«to».aIndex - ir.from.aIndex
  let lenB := ir.«to».bIndex - ir.from.bIndex
  let isEqlA := isEql lenBase lenA ir.from.aIndex ir.«to».aIndex sA.notEql
  let isEqlB := isEql lenBase lenB ir.from.bIndex ir.«to».bIndex sB.notEql
  let areBothEmpty := decide (ir.«to».aIndex ≤ ir.from.aIndex) && decide (ir.«to».bIndex ≤ ir.from.bIndex)
  pure <|
    if isEqlA && isEqlB then (0, writeBlockToFile sA.block)
    else if isEqlA then (0, writeBlockToFile sB.block)
    else if isEqlB then (0, writeBlockToFile sA.block)
    else if !areBothEmpty then
      if isBlockEqual sA.block sB.block then (0, writeBlockToFile sA.block)
      else (1, writeConflictToFile sA.block sB.block)
    else (0, [])

/-- `writeChunks`: the number of conflicts and what is written; `none` on a panic or when the
loop runs out of `fuel`. -/
def writeChunks (d : Diff3) (fuel : Nat) : Option (Nat × List String) := do
  let matchesA ← getMatches d.diffA
  let matchesB ← getMatches d.diffB
  let rs ← writeChunksLoop d matchesA matchesB fuel ⟨0, 0, 0⟩
  let outs ← rs.mapM (writeChunk d)
  pure ((outs.map Prod.fst).foldl (· + ·) 0, (outs.map Prod.snd).flatten)

end MergeCore
