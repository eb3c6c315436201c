import Mathlib.Data.List.Basic

/-!
# The merge-base walker: `getCommonParents`, `PriorityQueue` and `container/heap` (Go 1.12)

A queue entry holds its commit by value, and its `index` field, written by `Swap`, `Push` and
`Pop` and read nowhere, is left out. `getCommonParents` loops on `fuel`; `up` and `down` on
`j + 1` and `n` iterations, as each swap moves the entry up or down.
-/

namespace MergeCore

structure Commit where
  hash : Nat
  authorWhen : Int
  parentHashes : List Nat
deriving Repr, DecidableEq

def markNone : UInt32 := 1
def markParent1 : UInt32 := 2
def markParent2 : UInt32 := 4
def markStale : UInt32 := 8
def markResult : UInt32 := 16

structure PrioritizedCommit where
  value : Commit
  flags : UInt32
  priority : Int
deriving Repr, DecidableEq

abbrev PriorityQueue := List PrioritizedCommit

/-! ## `PriorityQueue`'s methods -/

/-- `Less`: entry `i` has the later priority, so `Pop` gives the latest first. -/
def PriorityQueue.less (pq : PriorityQueue) (i j : Nat) : Bool :=
  match pq[i]?, pq[j]? with
  | some a, some b => decide (a.priority > b.priority)
  | _, _ => false

def PriorityQueue.swap (pq : PriorityQueue) (i j : Nat) : PriorityQueue :=
  match pq[i]?, pq[j]? with
  | some a, some b => (pq.set i b).set j a
  | _, _ => pq

/-- The loop of `Push`: OR the flags into the entry of the same commit, if any. -/
def orFlags (item : PrioritizedCommit) : PriorityQueue → Option PriorityQueue
  | [] => none
  | el :: pq =>
    if el.value.hash = item.value.hash then some ({ el with flags := el.flags ||| item.flags } :: pq)
    else (el :: ·) <$> orFlags item pq

def PriorityQueue.push (pq : PriorityQueue) (item : PrioritizedCommit) : PriorityQueue :=
  match orFlags item pq with
  | some pq => pq
  | none => pq ++ [item]

/-- `Pop`: the last entry, and the rest; a panic (`none`) on an empty queue. -/
def PriorityQueue.pop (pq : PriorityQueue) : Option (PrioritizedCommit × PriorityQueue) :=
  pq.getLast?.map fun item => (item, pq.dropLast)

def PriorityQueue.interesting (pq : PriorityQueue) : Bool :=
  pq.any fun el => el.flags &&& markStale == 0

/-! ## `container/heap` -/

def upLoop : Nat → PriorityQueue → Nat → PriorityQueue
  | 0, pq, _ => pq
  | fuel + 1, pq, j =>
    let i := (j - 1) / 2
    if i = j ∨ !pq.less j i then pq else upLoop fuel (pq.swap i j) i

def up (pq : PriorityQueue) (j : Nat) : PriorityQueue := upLoop (j + 1) pq j

def downLoop (n : Nat) : Nat → PriorityQueue → Nat → PriorityQueue
  | 0, pq, _ => pq
  | fuel + 1, pq, i =>
    let j1 := 2 * i + 1
    if n ≤ j1 then pq
    else
      let j := if j1 + 1 < n ∧ pq.less (j1 + 1) j1 then j1 + 1 else j1
      if !pq.less j i then pq else downLoop n fuel (pq.swap i j) j

def down (pq : PriorityQueue) (i0 n : Nat) : PriorityQueue := downLoop n n pq i0

def heapPush (pq : PriorityQueue) (x : PrioritizedCommit) : PriorityQueue :=
  let pq := pq.push x
  up pq (pq.length - 1)

/-- `heap.Pop`: swap the first entry to the end, `down` over the rest, `h.Pop()`. -/
def heapPop (pq : PriorityQueue) : Option (PrioritizedCommit × PriorityQueue) :=
  let n := pq.length - 1
  (down (pq.swap 0 n) 0 n).pop

/-! ## `getCommonParents` -/

def getCommit (store : List Commit) (h : Nat) : Option Commit := store.find? (·.hash = h)

def getParents (store : List Commit) (c : Commit) : Option (List Commit) :=
  c.parentHashes.mapM (getCommit store)

def markCommit (c : Commit) (flags : UInt32) : PrioritizedCommit := ⟨c, flags, c.authorWhen⟩

/-- One iteration of `getCommonParents`' loop: pop, record a commit both sides reach first,
and push the parents with the popped flags (stale from a result on). -/
def walkStep (store : List Commit) (pq : PriorityQueue) (res : List Commit) :
    Option (PriorityQueue × List Commit) := do
  let (el, pq) ← heapPop pq
  let flags := el.flags &&& (markParent1 ||| markParent2 ||| markStale)
  let (res, flags) :=
    if flags = markParent1 ||| markParent2 then
      (if el.flags &&& markResult = 0 then res ++ [el.value] else res, flags ||| markStale)
    else (res, flags)
  let parents ← getParents store el.value
  pure (parents.foldl (fun pq p => heapPush pq (markCommit p flags)) pq, res)

/-- A parent missing from the store (`ErrObjectNotFound`), or no fuel left. -/
inductive WalkErr
  | objectNotFound
  | outOfFuel
deriving Repr, DecidableEq

/-- `for prQ.interesting()`: a step fails only in `getParents`, as an interesting queue is never
empty. -/
def walkRun (store : List Commit) : Nat → PriorityQueue → List Commit →
    Except WalkErr (List Commit)
  | 0, _, _ => .error .outOfFuel
  | fuel + 1, pq, res =>
    if pq.interesting then
      match walkStep store pq res with
      | some (pq, res) => walkRun store fuel pq res
      | none => .error .objectNotFound
    else .ok res

def walkLoop (store : List Commit) (fuel : Nat) (pq : PriorityQueue) (res : List Commit) :
    Option (List Commit) :=
  (walkRun store fuel pq res).toOption

theorem walkLoop_succ (store : List Commit) (fuel : Nat) (pq : PriorityQueue)
    (res : List Commit) : walkLoop store (fuel + 1) pq res =
      if pq.interesting then (walkStep store pq res).bind fun s => walkLoop store fuel s.1 s.2
      else some res := by
  rw [walkLoop, walkRun]
  split
  · cases walkStep store pq res <;> rfl
  · rfl

def getCommonParentsRun (store : List Commit) (oldC newC : Commit) (fuel : Nat) :
    Except WalkErr (List Commit) :=
  walkRun store fuel (heapPush (heapPush [] (markCommit oldC markParent1))
    (markCommit newC markParent2)) []

def getCommonParents (store : List Commit) (oldC newC : Commit) (fuel : Nat) :
    Option (List Commit) :=
  walkLoop store fuel (heapPush (heapPush [] (markCommit oldC markParent1))
    (markCommit newC markParent2)) []

theorem getCommonParents_eq_toOption (store : List Commit) (oldC newC : Commit) (fuel : Nat) :
    getCommonParents store oldC newC fuel = (getCommonParentsRun store oldC newC fuel).toOption :=
  rfl

end MergeCore
