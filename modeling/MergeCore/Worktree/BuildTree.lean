import Mathlib.Data.List.Sort
import MergeCore.Worktree.State
import MergeCore.Mysqlfs.Storage

/-!
# `buildTreeHelper`: the trees of a commit

`BuildTree` commits each index entry (`commitIndexEntry`, `doBuildTree`), then
`copyTreeToStorageRecursive` sorts each tree by `sortName` and stores it after the trees below
it. The storer is append-only: a tree's hash is its position plus one, never `ZeroHash` (`0`).
A nil map entry, or a recursion deeper than `fuel`, is a panic (`none`). `readTree` reads the
stored files back.
-/

namespace MergeCore

open Mysqlfs

/-! ## Data -/

def dirMode : UInt32 := 0o40000

/-- An index entry: `Name`, `Mode` and `Hash`, with `0` for `plumbing.ZeroHash`. -/
structure IndexEntry where
  name : String
  mode : UInt32
  hash : Nat
deriving Repr, DecidableEq

structure TreeEntry where
  name : String
  mode : UInt32
  hash : Nat
deriving Repr, DecidableEq

abbrev Storer := List (List TreeEntry)

def Storer.tree (s : Storer) : Nat → Option (List TreeEntry)
  | 0 => none
  | h + 1 => s[h]?

def Storer.setTree (s : Storer) (t : List TreeEntry) : Nat × Storer := (s.length + 1, s ++ [t])

/-- `buildTreeHelper`: the storer `s` and the maps `trees` and `entries` (never written). -/
structure BuildTreeHelper where
  s : Storer
  trees : List (String × List TreeEntry)
  entries : List (String × TreeEntry)
deriving Repr, DecidableEq

namespace BuildTreeHelper

/-! ## The index loop -/

/-- A tree entry named `path.Base(fullpath)`, the index entry's or a new directory, appended to
`parent`'s tree, unless `fullpath` is seen already. -/
def doBuildTree (h : BuildTreeHelper) (e : IndexEntry) (parent fullpath : String) :
    Option BuildTreeHelper :=
  if (h.trees.lookup fullpath).isSome || (h.entries.lookup fullpath).isSome then some h
  else
    let te : TreeEntry :=
      if fullpath = e.name then ⟨base fullpath, e.mode, e.hash⟩ else ⟨base fullpath, dirMode, 0⟩
    let trees := if fullpath = e.name then h.trees else assocSet h.trees fullpath []
    (trees.lookup parent).map fun es => { h with trees := assocSet trees parent (es ++ [te]) }

/-- The loop of `commitIndexEntry`: `parent := fullpath; fullpath = path.Join(fullpath, part)`. -/
def commitParts (e : IndexEntry) : BuildTreeHelper → String → List String → Option BuildTreeHelper
  | h, _, [] => some h
  | h, fullpath, part :: parts =>
    (h.doBuildTree e fullpath (join fullpath part)).bind fun h' =>
      commitParts e h' (join fullpath part) parts

theorem commitParts_cons (e : IndexEntry) (h : BuildTreeHelper) (fullpath part : String)
    (parts : List String) : commitParts e h fullpath (part :: parts) =
      (h.doBuildTree e fullpath (join fullpath part)).bind fun h' =>
        commitParts e h' (join fullpath part) parts := rfl

def commitIndexEntry (h : BuildTreeHelper) (e : IndexEntry) : Option BuildTreeHelper :=
  commitParts e h "" (splitSlash e.name.data)

/-! ## Sorting and storing -/

/-- Go's `<` on strings, which is core's order on `String` (code points compare as UTF-8). -/
def goLess (a b : String) : Prop := @LT.lt String String.instLT a b

instance : DecidableRel goLess := fun a b => String.decLt a b

/-- A directory sorts as its name and a `/`. -/
def sortName (te : TreeEntry) : String := if te.mode = dirMode then te.name ++ "/" else te.name

def sortLe (a b : TreeEntry) : Prop := ¬ goLess (sortName b) (sortName a)

instance : DecidableRel sortLe := fun _ _ => inferInstanceAs (Decidable (¬ _))

/-- `sort.Sort` is not stable; any sort gives this order when the sort names differ. -/
def sortEntries (es : List TreeEntry) : List TreeEntry := es.insertionSort sortLe

/-- A file with a hash is kept; a directory or a zero hash is copied, and takes the copy's. -/
def copyEntry (copy : String → Storer → Option (Nat × Storer)) (parent : String) (e : TreeEntry)
    (s : Storer) : Option (TreeEntry × Storer) :=
  if e.mode ≠ dirMode ∧ e.hash ≠ 0 then some (e, s)
  else (copy (join parent e.name) s).map fun c => ({ e with hash := c.1 }, c.2)

def copyEntries (copy : String → Storer → Option (Nat × Storer)) (parent : String) :
    List TreeEntry → Storer → Option (List TreeEntry × Storer)
  | [], s => some ([], s)
  | e :: es, s =>
    (copyEntry copy parent e s).bind fun r =>
      (copyEntries copy parent es r.2).map fun r' => (r.1 :: r'.1, r'.2)

theorem copyEntries_cons (copy : String → Storer → Option (Nat × Storer)) (parent : String)
    (e : TreeEntry) (es : List TreeEntry) (s : Storer) : copyEntries copy parent (e :: es) s =
      (copyEntry copy parent e s).bind fun r =>
        (copyEntries copy parent es r.2).map fun r' => (r.1 :: r'.1, r'.2) := rfl

/-- Each tree is copied once, from its parent, so the map is read as the index loop left it. -/
def copyTreeToStorageRecursive (trees : List (String × List TreeEntry)) :
    Nat → String → Option (List TreeEntry) → Storer → Option (Nat × Storer)
  | 0, _, _, _ => none
  | _ + 1, _, none, _ => none
  | fuel + 1, parent, some t, s =>
    (copyEntries (fun path => copyTreeToStorageRecursive trees fuel path (trees.lookup path))
      parent (sortEntries t) s).map fun r => r.2.setTree r.1

theorem copyTreeToStorageRecursive_succ (trees : List (String × List TreeEntry)) (fuel : Nat)
    (parent : String) (t : List TreeEntry) (s : Storer) :
    copyTreeToStorageRecursive trees (fuel + 1) parent (some t) s =
      (copyEntries (fun path => copyTreeToStorageRecursive trees fuel path (trees.lookup path))
        parent (sortEntries t) s).map fun r => r.2.setTree r.1 := rfl

def buildTree (h : BuildTreeHelper) (fuel : Nat) (idx : List IndexEntry) :
    Option (Nat × BuildTreeHelper) :=
  (idx.foldlM commitIndexEntry { h with trees := [("", [])], entries := [] }).bind fun h =>
    (copyTreeToStorageRecursive h.trees fuel "" (h.trees.lookup "") h.s).map fun r =>
      (r.1, { h with s := r.2 })

end BuildTreeHelper

/-! ## Reading a tree back -/

abbrev FileRead := String × UInt32 × Nat

def readEntry (read : String → Nat → Option (List FileRead × List (List TreeEntry))) (pre : String)
    (te : TreeEntry) : Option (List FileRead × List (List TreeEntry)) :=
  if te.mode = dirMode then read (pre ++ te.name ++ "/") te.hash
  else some ([(pre ++ te.name, te.mode, te.hash)], [])

def readEntries (read : String → Nat → Option (List FileRead × List (List TreeEntry)))
    (pre : String) : List TreeEntry → Option (List FileRead × List (List TreeEntry))
  | [] => some ([], [])
  | te :: ts =>
    (readEntry read pre te).bind fun r =>
      (readEntries read pre ts).map fun r' => (r.1 ++ r'.1, r.2 ++ r'.2)

theorem readEntries_cons (read : String → Nat → Option (List FileRead × List (List TreeEntry)))
    (pre : String) (te : TreeEntry) (ts : List TreeEntry) : readEntries read pre (te :: ts) =
      (readEntry read pre te).bind fun r =>
        (readEntries read pre ts).map fun r' => (r.1 ++ r'.1, r.2 ++ r'.2) := rfl

/-- The files below the tree stored under `hash`, and the trees read. -/
def readTree (s : Storer) : Nat → String → Nat → Option (List FileRead × List (List TreeEntry))
  | 0, _, _ => none
  | fuel + 1, pre, hash =>
    (s.tree hash).bind fun t => (readEntries (readTree s fuel) pre t).map fun r => (r.1, t :: r.2)

theorem readTree_succ (s : Storer) (fuel : Nat) (pre : String) (hash : Nat) :
    readTree s (fuel + 1) pre hash =
      (s.tree hash).bind fun t =>
        (readEntries (readTree s fuel) pre t).map fun r => (r.1, t :: r.2) := rfl

/-- Sorted by `sortName`, with no two alike. -/
def SortedTree (t : List TreeEntry) : Prop :=
  (t.map BuildTreeHelper.sortName).Sorted BuildTreeHelper.goLess

/-- A stored tree reads the same from every storer the storer grows into. -/
theorem Storer.tree_setTree {s s' : Storer} {t : List TreeEntry} (h : (s.setTree t).2 <+: s') :
    s'.tree (s.setTree t).1 = some t := by
  obtain ⟨r, rfl⟩ := h
  simp [Storer.setTree, Storer.tree, List.getElem_append_right]

end MergeCore
