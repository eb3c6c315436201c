import Mathlib.Data.Char
import Mathlib.Data.List.Lex
import MergeCore.Worktree.BuildTree
import MergeCore.Worktree.CleanPaths
import MergeCore.Worktree.Merge

/-!
# The trees `BuildTree` stores, read back

Over index entries whose names are clean, distinct, none a directory prefix of another, with
non-zero hashes and modes other than `filemode.Dir`, the trees `BuildTree` stores read back as
exactly the index: one file per entry, at its name, with its mode and hash, and every tree is
sorted by `sortName`.

The proof follows the two phases of `BuildTree`.

* The index loop keeps a `Layout` of `h.trees`: a tree exactly at the directories the entries
  so far need (`IsDir`), each holding one entry per subdirectory and per file right below it
  (`TreeOk`). The map operations keep it (`Layout.newDir`, `Layout.newFile`), so `doBuildTree`
  keeps it in each of its three cases (a new directory, a directory seen before, the entry's
  own file), `commitParts_layout` over an entry's parts, and `foldlM_commitIndexEntry_layout`
  over the index.
* `copyTreeToStorageRecursive` is then followed by fuel: from a directory of the layout it
  stores a sorted tree, and the tree reads back as the files below the directory
  (`copyOk`). The storer only grows, so a tree read stays the same while its
  siblings are stored.

`buildTree_uncleanName` is an index the other conditions allow whose file is lost: the name
`a/` has an empty last part, `doBuildTree` makes `a` a directory, and the entry never reaches
a tree.
-/

namespace MergeCore

open Mysqlfs BuildTreeHelper

/-- The parts of an index entry's name, `strings.Split(e.Name, "/")`. -/
def IndexEntry.parts (e : IndexEntry) : List String := splitSlash e.name.data

theorem IndexEntry.pathOf_parts (e : IndexEntry) : pathOf e.parts = e.name := pathOf_splitSlash _

theorem IndexEntry.parts_ne_nil (e : IndexEntry) : e.parts ≠ [] := splitSlash_ne_nil _

/-- The directories the entries `es` need: the root, and every proper prefix of an entry's
parts. -/
def IsDir (es : List IndexEntry) (qs : List String) : Prop :=
  qs = [] ∨ ∃ e ∈ es, ∃ c r, e.parts = qs ++ c :: r

/-- The tree `L` of the directory `qs`, when the directories are `D` and the files `es`: an
entry per subdirectory and per file right below `qs`, with distinct names, and nothing else. -/
structure TreeOk (D : List String → Prop) (es : List IndexEntry) (qs : List String)
    (L : List TreeEntry) : Prop where
  mem : ∀ te ∈ L, (te.mode = dirMode ∧ te.hash = 0 ∧ D (qs ++ [te.name])) ∨
    ∃ e ∈ es, e.parts = qs ++ [te.name] ∧ te.mode = e.mode ∧ te.hash = e.hash
  dir : ∀ c, D (qs ++ [c]) → ⟨c, dirMode, 0⟩ ∈ L
  file : ∀ e ∈ es, ∀ c, e.parts = qs ++ [c] → ⟨c, e.mode, e.hash⟩ ∈ L
  nodup : (L.map (·.name)).Nodup

/-- The map `trees` once the entries `es` are committed, with the directories `D`: clean,
closed under prefixes, holding every proper prefix of an entry's parts, and a tree at exactly
these paths. -/
structure Layout (T : List (String × List TreeEntry)) (D : List String → Prop)
    (es : List IndexEntry) : Prop where
  clean : ∀ qs, D qs → ∀ p ∈ qs, CleanPart p
  closed : ∀ qs rs, D (qs ++ rs) → D qs
  files : ∀ e ∈ es, ∀ qs c r, e.parts = qs ++ c :: r → D qs
  some_iff : ∀ qs, (∀ p ∈ qs, CleanPart p) → ((T.lookup (pathOf qs)).isSome ↔ D qs)
  tree : ∀ qs L, D qs → T.lookup (pathOf qs) = some L → TreeOk D es qs L

/-- The index entries, by their parts: clean, no two alike, and none a proper prefix of
another. -/
structure PartsOk (idx : List IndexEntry) : Prop where
  clean : ∀ e ∈ idx, ∀ p ∈ e.parts, CleanPart p
  nodup : (idx.map IndexEntry.parts).Nodup
  noPrefix : ∀ e ∈ idx, ∀ e' ∈ idx, ∀ c r, e'.parts ≠ e.parts ++ c :: r

/-! ## `doBuildTree` keeps the layout -/

section step

variable {T : List (String × List TreeEntry)} {D : List String → Prop} {es : List IndexEntry}

theorem cleanParts_append {qs : List String} {c : String} (hq : ∀ p ∈ qs, CleanPart p)
    (hc : CleanPart c) : ∀ p ∈ qs ++ [c], CleanPart p := fun p hp => by
  rcases List.mem_append.1 hp with h | h
  · exact hq p h
  · rw [List.mem_singleton.1 h]; exact hc

theorem pathOf_ne_append {qs : List String} {c : String} (hq : ∀ p ∈ qs, CleanPart p)
    (hc : CleanPart c) : pathOf qs ≠ pathOf (qs ++ [c]) := by
  rw [Ne, pathOf_inj hq (cleanParts_append hq hc)]
  intro h
  simpa using congrArg List.length h

theorem TreeOk.mono {D' : List String → Prop} {qs : List String} {L : List TreeEntry}
    (h : TreeOk D es qs L) (hD : ∀ q, D q → D' q) (hD' : ∀ c, D' (qs ++ [c]) → D (qs ++ [c])) :
    TreeOk D' es qs L where
  mem te hte := (h.mem te hte).imp (fun ⟨h1, h2, h3⟩ => ⟨h1, h2, hD _ h3⟩) id
  dir c hc := h.dir c (hD' c hc)
  file := h.file
  nodup := h.nodup

theorem Layout.lookup_some (hL : Layout T D es) {qs : List String} (hq : D qs) :
    ∃ L, T.lookup (pathOf qs) = some L :=
  Option.isSome_iff_exists.1 ((hL.some_iff qs (hL.clean qs hq)).2 hq)

theorem Layout.lookup_none (hL : Layout T D es) {qs : List String} (hc : ∀ p ∈ qs, CleanPart p)
    (hq : ¬ D qs) : T.lookup (pathOf qs) = none :=
  Option.not_isSome_iff_eq_none.1 fun h => hq ((hL.some_iff qs hc).1 h)

/-- A name in the tree of `qs` is not a subdirectory or a file the layout does not have. -/
theorem TreeOk.not_mem {qs : List String} {L : List TreeEntry} (h : TreeOk D es qs L) {c : String}
    (hd : ¬ D (qs ++ [c])) (hf : ∀ e ∈ es, e.parts ≠ qs ++ [c]) : c ∉ L.map (·.name) := by
  simp only [List.mem_map, not_exists, not_and]
  intro te hte hname
  subst hname
  rcases h.mem te hte with ⟨-, -, hD⟩ | ⟨e, he, hp, -⟩
  · exact hd hD
  · exact hf e he hp

theorem Layout.prefix_dir (hL : Layout T D es) {qs done : List String} (hd : D done)
    (h : qs <+: done) : D qs := by
  obtain ⟨r, rfl⟩ := h
  exact hL.closed qs r hd

theorem prefix_of_append_cons {qs done r : List String} {c c' : String}
    (h : qs ++ c' :: r = done ++ [c]) : qs <+: done :=
  List.prefix_of_prefix_length_le (h ▸ List.prefix_append _ _) (List.prefix_append _ _) (by
    have := congrArg List.length h
    simp only [List.length_append, List.length_cons, List.length_nil] at this
    omega)

theorem TreeOk.nodup_snoc {qs : List String} {L : List TreeEntry} (hT : TreeOk D es qs L)
    {c : String} (hD : ¬ D (qs ++ [c])) (hf : ∀ e ∈ es, e.parts ≠ qs ++ [c]) (m : UInt32)
    (n : Nat) : ((L ++ [TreeEntry.mk c m n]).map (·.name)).Nodup := by
  rw [List.map_append, List.nodup_append]
  exact ⟨hT.nodup, List.nodup_singleton _, List.disjoint_singleton.2 (hT.not_mem hD hf)⟩

/-- The tree of the parent, with the entry of a new directory. -/
theorem TreeOk.snoc_dir {qs : List String} {L : List TreeEntry} {c : String}
    (hT : TreeOk D es qs L) (hD : ¬ D (qs ++ [c])) (hf : ∀ e ∈ es, e.parts ≠ qs ++ [c]) :
    TreeOk (fun q => D q ∨ q = qs ++ [c]) es qs (L ++ [⟨c, dirMode, 0⟩]) where
  mem te hte := by
    rcases List.mem_append.1 hte with hte | hte
    · exact (hT.mem te hte).imp (fun ⟨h1, h2, h3⟩ => ⟨h1, h2, .inl h3⟩) id
    · rw [List.mem_singleton.1 hte]; exact .inl ⟨rfl, rfl, .inr rfl⟩
  dir c' hc' := by
    rcases hc' with hc' | hc'
    · exact List.mem_append_left _ (hT.dir c' hc')
    · obtain rfl : c' = c := by simpa using hc'
      exact List.mem_append_right _ (List.mem_singleton_self _)
  file e' he' c' hp := List.mem_append_left _ (hT.file e' he' c' hp)
  nodup := hT.nodup_snoc hD hf _ _

/-- The empty tree of a new directory. -/
theorem Layout.treeOk_newDir {qs : List String} {c : String} (hL : Layout T D es)
    (hD : ¬ D (qs ++ [c])) : TreeOk (fun q => D q ∨ q = qs ++ [c]) es (qs ++ [c]) [] where
  mem te hte := absurd hte (List.not_mem_nil _)
  dir c' hc' := by
    rcases hc' with hc' | hc'
    · exact absurd (hL.closed _ [c'] hc') hD
    · simpa using congrArg List.length hc'
  file e' he' c' hp := absurd (hL.files e' he' _ c' [] (by simpa using hp)) hD
  nodup := List.nodup_nil

/-- The tree of the parent, with the entry's own file. -/
theorem TreeOk.snoc_file {qs : List String} {L : List TreeEntry} {c : String} {e : IndexEntry}
    (hT : TreeOk D es qs L) (hp : e.parts = qs ++ [c]) (hD : ¬ D (qs ++ [c]))
    (hf : ∀ e' ∈ es, e'.parts ≠ qs ++ [c]) :
    TreeOk D (es ++ [e]) qs (L ++ [⟨c, e.mode, e.hash⟩]) where
  mem te hte := by
    rcases List.mem_append.1 hte with hte | hte
    · exact (hT.mem te hte).imp id fun ⟨e', he', h'⟩ => ⟨e', List.mem_append_left _ he', h'⟩
    · rw [List.mem_singleton.1 hte]
      exact .inr ⟨e, List.mem_append_right _ (List.mem_singleton_self _), hp, rfl, rfl⟩
  dir c' hc' := List.mem_append_left _ (hT.dir c' hc')
  file e' he' c' hp' := by
    rcases List.mem_append.1 he' with he' | he'
    · exact List.mem_append_left _ (hT.file e' he' c' hp')
    · rw [List.mem_singleton.1 he', hp] at hp'
      obtain rfl : c = c' := by simpa using hp'
      rw [List.mem_singleton.1 he']
      exact List.mem_append_right _ (List.mem_singleton_self _)
  nodup := hT.nodup_snoc hD hf _ _

/-- A tree away from the entry's directory, once the entry is committed. -/
theorem TreeOk.append_entry {qs : List String} {L : List TreeEntry} {e : IndexEntry}
    (hT : TreeOk D es qs L) (hne : ∀ c, e.parts ≠ qs ++ [c]) : TreeOk D (es ++ [e]) qs L where
  mem te hte := (hT.mem te hte).imp id fun ⟨e', he', h'⟩ => ⟨e', List.mem_append_left _ he', h'⟩
  dir := hT.dir
  file e' he' c' hp' := by
    rcases List.mem_append.1 he' with he' | he'
    · exact hT.file e' he' c' hp'
    · rw [List.mem_singleton.1 he'] at hp'
      exact absurd hp' (hne c')
  nodup := hT.nodup

section maps

variable (hL : Layout T D es) {done : List String} {c : String} {L : List TreeEntry}
  (hdone : D done) (hLk : T.lookup (pathOf done) = some L)
include hL hdone hLk

/-- The map with a new directory `done ++ [c]`: an empty tree at it, and its entry at the end
of the tree of `done`. -/
theorem Layout.newDir (hc : CleanPart c) (hD : ¬ D (done ++ [c])) (hf : ∀ e' ∈ es, e'.parts ≠ done ++ [c]) :
    Layout (assocSet (assocSet T (pathOf (done ++ [c])) []) (pathOf done) (L ++ [⟨c, dirMode, 0⟩]))
      (fun qs => D qs ∨ qs = done ++ [c]) es := by
  have hq := hL.clean _ hdone
  have hqc := cleanParts_append hq hc
  have hlk : ∀ qs, (∀ p ∈ qs, CleanPart p) → (assocSet (assocSet T (pathOf (done ++ [c])) [])
      (pathOf done) (L ++ [⟨c, dirMode, 0⟩])).lookup (pathOf qs) =
      if qs = done then some (L ++ [⟨c, dirMode, 0⟩]) else if qs = done ++ [c] then some []
      else T.lookup (pathOf qs) := fun qs hcq => by
    simp only [lookup_assocSet, pathOf_inj hcq hq, pathOf_inj hcq hqc]
  constructor
  · rintro qs (hD | rfl)
    · exact hL.clean qs hD
    · exact hqc
  · rintro qs rs (hD | hD)
    · exact .inl (hL.closed qs rs hD)
    · rcases rs with _ | ⟨c', r⟩
      · exact .inr (by simpa using hD)
      · exact .inl (hL.prefix_dir hdone (prefix_of_append_cons hD))
  · exact fun e' he' qs c' r hp => .inl (hL.files e' he' qs c' r hp)
  · intro qs hcq
    rw [hlk qs hcq]
    by_cases h1 : qs = done
    · simp [h1, hdone]
    by_cases h2 : qs = done ++ [c]
    · simp [h2]
    simp only [h1, h2, if_false, hL.some_iff qs hcq, or_false]
  · intro qs L' hq' hl
    rw [hlk qs (hq'.elim (hL.clean qs) fun h => h ▸ hqc)] at hl
    by_cases h1 : qs = done
    · subst h1
      rw [if_pos rfl] at hl
      cases hl
      exact (hL.tree qs L hdone hLk).snoc_dir hD hf
    by_cases h2 : qs = done ++ [c]
    · subst h2
      rw [if_neg h1, if_pos rfl] at hl
      cases hl
      exact hL.treeOk_newDir hD
    rw [if_neg h1, if_neg h2] at hl
    refine (hL.tree qs L' (hq'.resolve_right h2) hl).mono (fun _ h => .inl h) fun c' hc' => ?_
    exact hc'.resolve_right fun h3 => h1 (List.append_inj_left' h3 rfl)

/-- The map with the file of `e` at `done ++ [c]`: its entry at the end of the tree of `done`. -/
theorem Layout.newFile {e : IndexEntry} (hp : e.parts = done ++ [c]) (hD : ¬ D (done ++ [c]))
    (hf : ∀ e' ∈ es, e'.parts ≠ done ++ [c]) :
    Layout (assocSet T (pathOf done) (L ++ [⟨c, e.mode, e.hash⟩])) D (es ++ [e]) := by
  have hq := hL.clean _ hdone
  have hlk : ∀ qs, (∀ p ∈ qs, CleanPart p) → (assocSet T (pathOf done)
      (L ++ [⟨c, e.mode, e.hash⟩])).lookup (pathOf qs) =
      if qs = done then some (L ++ [⟨c, e.mode, e.hash⟩]) else T.lookup (pathOf qs) :=
    fun qs hcq => by simp only [lookup_assocSet, pathOf_inj hcq hq]
  refine ⟨hL.clean, hL.closed, fun e' he' qs c' r hp' => ?_, fun qs hcq => ?_,
    fun qs L' hq' hl => ?_⟩
  · rcases List.mem_append.1 he' with he' | he'
    · exact hL.files e' he' qs c' r hp'
    · rw [List.mem_singleton.1 he', hp] at hp'
      exact hL.prefix_dir hdone (prefix_of_append_cons hp'.symm)
  · rw [hlk qs hcq]
    by_cases h1 : qs = done
    · simp [h1, hdone]
    · simp only [h1, if_false, hL.some_iff qs hcq]
  · rw [hlk qs (hL.clean qs hq')] at hl
    by_cases h1 : qs = done
    · subst h1
      rw [if_pos rfl] at hl
      cases hl
      exact (hL.tree qs L hdone hLk).snoc_file hp hD hf
    rw [if_neg h1] at hl
    exact (hL.tree qs L' hq' hl).append_entry fun c' hp' =>
      h1 (List.append_inj_left' (hp.symm.trans hp') rfl).symm

end maps

variable {h : BuildTreeHelper} (hL : Layout h.trees D es) (e : IndexEntry)
  {done : List String} {c : String} (hdone : D done) (hc : CleanPart c)
include hL hdone hc

/-- A directory seen before: nothing changes. -/
theorem doBuildTree_seenDir (hD : D (done ++ [c])) :
    h.doBuildTree e (pathOf done) (pathOf (done ++ [c])) = some h := by
  have hs := (hL.some_iff _ (cleanParts_append (hL.clean _ hdone) hc)).2 hD
  simp [doBuildTree, hs]

/-- A new directory: an empty tree at it, and its entry in the tree of its parent. -/
theorem doBuildTree_newDir (he : h.entries = []) (hD : ¬ D (done ++ [c]))
    (hname : pathOf (done ++ [c]) ≠ e.name) (hf : ∀ e' ∈ es, e'.parts ≠ done ++ [c]) :
    ∃ h', h.doBuildTree e (pathOf done) (pathOf (done ++ [c])) = some h' ∧ h'.entries = [] ∧
      Layout h'.trees (fun qs => D qs ∨ qs = done ++ [c]) es := by
  have hq := hL.clean _ hdone
  obtain ⟨L, hLk⟩ := hL.lookup_some hdone
  refine ⟨{ h with trees := (assocSet (assocSet h.trees (pathOf (done ++ [c])) []) (pathOf done)
    (L ++ [⟨c, dirMode, 0⟩])) }, ?_, he, hL.newDir hdone hLk hc hD hf⟩
  simp [doBuildTree, hL.lookup_none (cleanParts_append hq hc) hD, he, hname, base_pathOf hc,
    lookup_assocSet, pathOf_ne_append hq hc, hLk]

/-- The entry's own file: its tree entry in the tree of its parent. -/
theorem doBuildTree_file (he : h.entries = []) (hp : e.parts = done ++ [c])
    (hD : ¬ D (done ++ [c])) (hf : ∀ e' ∈ es, e'.parts ≠ done ++ [c]) :
    ∃ h', h.doBuildTree e (pathOf done) (pathOf (done ++ [c])) = some h' ∧ h'.entries = [] ∧
      Layout h'.trees D (es ++ [e]) := by
  obtain ⟨L, hLk⟩ := hL.lookup_some hdone
  have hname : pathOf (done ++ [c]) = e.name := hp ▸ e.pathOf_parts
  have hnone : h.trees.lookup e.name = none :=
    hname ▸ hL.lookup_none (cleanParts_append (hL.clean _ hdone) hc) hD
  have hbase : base e.name = c := hname ▸ base_pathOf hc
  refine ⟨{ h with trees := assocSet h.trees (pathOf done) (L ++ [⟨c, e.mode, e.hash⟩]) }, ?_, he,
    hL.newFile hdone hLk hp hD hf⟩
  simp [doBuildTree, hnone, he, hname, hbase, hLk]

end step

/-! ## An entry, and the index -/

section entry

variable {es : List IndexEntry} (e : IndexEntry) (hclean : ∀ p ∈ e.parts, CleanPart p)
  (hfresh : ∀ e' ∈ es, e'.parts ≠ e.parts) (hbelow : ∀ e' ∈ es, ∀ c r, e.parts ≠ e'.parts ++ c :: r)
  (habove : ∀ e' ∈ es, ∀ c r, e'.parts ≠ e.parts ++ c :: r)

include hclean in
theorem prefix_cleanParts {qs : List String} (h : qs <+: e.parts) : ∀ p ∈ qs, CleanPart p :=
  fun p hp => hclean p (h.subset hp)

include hclean hfresh hbelow in
/-- `commitParts` from the prefix `done` of the entry's parts: the directories become `D` and
the proper prefixes of the parts, and the entry's file is in the tree of its directory. -/
theorem commitParts_layout : ∀ (rest done : List String) (h : BuildTreeHelper)
    (D : List String → Prop), e.parts = done ++ rest → rest ≠ [] → h.entries = [] →
    Layout h.trees D es → D done → (∀ qs r, D qs → qs ≠ e.parts ++ r) →
    ∃ h', commitParts e h (pathOf done) rest = some h' ∧ h'.entries = [] ∧
      Layout h'.trees (fun qs => D qs ∨ ∃ c r, e.parts = qs ++ c :: r) (es ++ [e])
  | [], _, _, _, _, hne, _, _, _, _ => absurd rfl hne
  | [c], done, h, D, hp, _, he, hL, hdone, hext => by
    have hc := hclean c (hp ▸ List.mem_append_right _ (List.mem_singleton_self c))
    have hD : ¬ D (done ++ [c]) := fun hD => hext _ [] hD (by rw [hp, List.append_nil])
    obtain ⟨h', hstep, he', hL'⟩ := doBuildTree_file hL e hdone hc he hp hD
      fun e' he' h => hfresh e' he' (h.trans hp.symm)
    refine ⟨h', by rw [commitParts_cons, join_pathOf (hL.clean _ hdone) hc, hstep]; rfl, he', ?_⟩
    have hD' : (fun qs => D qs ∨ ∃ c r, e.parts = qs ++ c :: r) = D := funext fun qs =>
      propext ⟨fun h => h.elim id fun ⟨_, _, hr⟩ =>
        hL.prefix_dir hdone (prefix_of_append_cons (hr.symm.trans hp)), .inl⟩
    rwa [hD']
  | c :: c' :: rest, done, h, D, hp, _, he, hL, hdone, hext => by
    have hc := hclean c (hp ▸ List.mem_append_right _ (List.mem_cons_self c _))
    have hp' : e.parts = (done ++ [c]) ++ c' :: rest := by rw [hp]; simp
    obtain ⟨h', hstep, he', hL'⟩ : ∃ h', h.doBuildTree e (pathOf done) (pathOf (done ++ [c])) =
        some h' ∧ h'.entries = [] ∧ Layout h'.trees (fun qs => D qs ∨ qs = done ++ [c]) es := by
      by_cases hD : D (done ++ [c])
      · have hD' : (fun qs => D qs ∨ qs = done ++ [c]) = D :=
          funext fun qs => propext ⟨fun h => h.elim id (· ▸ hD), .inl⟩
        exact ⟨h, doBuildTree_seenDir hL e hdone hc hD, he, by rw [hD']; exact hL⟩
      · refine doBuildTree_newDir hL e hdone hc he hD (fun hname => ?_)
          fun e' he' h => hbelow e' he' c' rest (h ▸ hp')
        have := (pathOf_inj (prefix_cleanParts e hclean ⟨_, hp'.symm⟩) hclean).1
          (hname.trans e.pathOf_parts.symm)
        rw [hp'] at this
        simpa using congrArg List.length this
    obtain ⟨h'', hrun, he'', hL''⟩ := commitParts_layout (c' :: rest) (done ++ [c]) h' _ hp'
      (List.cons_ne_nil _ _) he' hL' (.inr rfl) fun qs r hq heq => hq.elim (hext qs r · heq)
        fun h => by rw [h, hp'] at heq; simpa using congrArg List.length heq
    refine ⟨h'', by rw [commitParts_cons, join_pathOf (hL.clean _ hdone) hc, hstep]; exact hrun,
      he'', ?_⟩
    have hD' : (fun qs => (D qs ∨ qs = done ++ [c]) ∨ ∃ c r, e.parts = qs ++ c :: r) =
        fun qs => D qs ∨ ∃ c r, e.parts = qs ++ c :: r := funext fun qs => propext
      ⟨fun h => h.elim (fun h => h.imp_right fun h => ⟨c', rest, by rw [h]; exact hp'⟩) .inr,
        fun h => h.elim (.inl ∘ .inl) .inr⟩
    rwa [← hD']

include hclean hfresh hbelow habove in
/-- `commitIndexEntry` adds the entry's directories and its file. -/
theorem commitIndexEntry_layout {h : BuildTreeHelper} (he : h.entries = [])
    (hL : Layout h.trees (IsDir es) es) : ∃ h', h.commitIndexEntry e = some h' ∧
      h'.entries = [] ∧ Layout h'.trees (IsDir (es ++ [e])) (es ++ [e]) := by
  have hext : ∀ qs r, IsDir es qs → qs ≠ e.parts ++ r := by
    rintro qs r (rfl | ⟨e', he', c, r', hp⟩) heq
    · exact e.parts_ne_nil (List.append_eq_nil.1 heq.symm).1
    · rw [heq, List.append_assoc] at hp
      obtain ⟨x, xs, hx⟩ : ∃ x xs, r ++ c :: r' = x :: xs := by
        cases r with
        | nil => exact ⟨c, r', rfl⟩
        | cons x xs => exact ⟨x, xs ++ c :: r', rfl⟩
      exact habove e' he' x xs (hx ▸ hp)
  obtain ⟨h', hrun, he', hL'⟩ := commitParts_layout e hclean hfresh hbelow e.parts [] h (IsDir es)
    rfl e.parts_ne_nil he hL (.inl rfl) hext
  have hD : (fun qs => IsDir es qs ∨ ∃ c r, e.parts = qs ++ c :: r) = IsDir (es ++ [e]) :=
    funext fun qs => propext (by simp only [IsDir, List.mem_append, List.mem_singleton,
      or_and_right, exists_or, exists_eq_left, or_assoc])
  exact ⟨h', hrun, he', hD ▸ hL'⟩

end entry

theorem PartsOk.sublist {idx es : List IndexEntry} (hP : PartsOk idx) (hs : List.Sublist es idx) :
    PartsOk es where
  clean e he := hP.clean e (hs.subset he)
  nodup := hP.nodup.sublist (hs.map _)
  noPrefix e he e' he' := hP.noPrefix e (hs.subset he) e' (hs.subset he')

/-- The index loop of `BuildTree`, from the entries `es` committed to all of `idx`. -/
theorem foldlM_commitIndexEntry_layout {idx : List IndexEntry} (hP : PartsOk idx) :
    ∀ (rest es : List IndexEntry), es ++ rest = idx → ∀ h : BuildTreeHelper, h.entries = [] →
      Layout h.trees (IsDir es) es →
      ∃ h', rest.foldlM commitIndexEntry h = some h' ∧ Layout h'.trees (IsDir idx) idx
  | [], es, hes, h, _, hL => ⟨h, rfl, by rw [← hes, List.append_nil]; exact hL⟩
  | e :: rest, es, hes, h, he, hL => by
    have hP' := hP.sublist (hes ▸ (by simp : List.Sublist (es ++ [e]) (es ++ e :: rest)))
    have hmem : e ∈ es ++ [e] := List.mem_append_right _ (List.mem_singleton_self e)
    have hfresh : ∀ e' ∈ es, e'.parts ≠ e.parts := by
      have := hP'.nodup
      rw [List.map_append, List.nodup_append] at this
      exact fun e' he' h => this.2.2 (List.mem_map_of_mem _ he') (List.mem_singleton.2 h)
    obtain ⟨h', hstep, he', hL'⟩ := commitIndexEntry_layout e (hP'.clean e hmem) hfresh
      (fun e' he' => hP'.noPrefix e' (List.mem_append_left _ he') e hmem)
      (fun e' he' => hP'.noPrefix e hmem e' (List.mem_append_left _ he')) he hL
    obtain ⟨h'', hrun, hL''⟩ := foldlM_commitIndexEntry_layout hP rest (es ++ [e])
      (by rw [List.append_assoc]; exact hes) h' he' hL'
    exact ⟨h'', by simp [hstep, hrun], hL''⟩

/-! ## Sorting -/

/-- Go's `<` on strings, the order of their characters. -/
theorem goLess_iff_lex (s t : String) : goLess s t ↔ List.Lex (· < ·) s.data t.data :=
  List.lt_iff_lex_lt s.data t.data

theorem sortLe_iff (a b : TreeEntry) : sortLe a b ↔ (sortName a).data ≤ (sortName b).data := by
  unfold sortLe
  rw [goLess_iff_lex]
  exact @not_lt (List Char) _ _ _

instance : IsTotal TreeEntry sortLe :=
  ⟨fun a b => (le_total (sortName a).data (sortName b).data).imp (sortLe_iff a b).2
    (sortLe_iff b a).2⟩

instance : IsTrans TreeEntry sortLe :=
  ⟨fun a b c hab hbc =>
    (sortLe_iff a c).2 (((sortLe_iff a b).1 hab).trans ((sortLe_iff b c).1 hbc))⟩

theorem sortName_inj {a b : TreeEntry} (ha : '/' ∉ a.name.data) (hb : '/' ∉ b.name.data)
    (h : sortName a = sortName b) : a.name = b.name := by
  have hdata := congrArg String.data h
  unfold sortName at hdata
  split_ifs at hdata
  · exact String.ext (by simpa using hdata)
  · exact absurd (hdata ▸ List.mem_append_right _ (List.mem_singleton_self '/')) hb
  · exact absurd (hdata ▸ List.mem_append_right _ (List.mem_singleton_self '/')) ha
  · exact String.ext hdata

theorem sortedTree_sortEntries {L : List TreeEntry} (hs : ∀ te ∈ L, '/' ∉ te.name.data)
    (hn : (L.map (·.name)).Nodup) : SortedTree (sortEntries L) := by
  have hnodup : (L.map sortName).Nodup := by
    rw [List.Nodup, List.pairwise_map] at hn ⊢
    exact hn.imp_of_mem fun ha hb hne h => hne (sortName_inj (hs _ ha) (hs _ hb) h)
  have hne := ((List.perm_insertionSort sortLe L).map sortName).nodup_iff.2 hnodup
  rw [List.Nodup, List.pairwise_map] at hne
  unfold SortedTree List.Sorted
  rw [List.pairwise_map]
  refine ((List.sorted_insertionSort sortLe L).and hne).imp fun ⟨hle, hne⟩ => ?_
  rw [goLess_iff_lex]
  exact lt_of_le_of_ne ((sortLe_iff _ _).1 hle) fun h => hne (String.ext h)

/-! ## Storing the trees, and reading them back -/

/-- The depth of the index: the number of parts of its longest name. -/
def indexDepth : List IndexEntry → Nat
  | [] => 0
  | e :: idx => max e.parts.length (indexDepth idx)

theorem length_le_indexDepth : ∀ {idx : List IndexEntry} {e : IndexEntry}, e ∈ idx →
    e.parts.length ≤ indexDepth idx
  | _ :: _, _, .head _ => le_max_left _ _
  | _ :: _, _, .tail _ h => (length_le_indexDepth h).trans (le_max_right _ _)

/-- A read-back `r` of the entries whose parts satisfy `P`: its files are these entries, each
once, at their names and with their modes and hashes, and its trees are sorted. -/
def ReadsAs (idx : List IndexEntry) (P : List String → Prop)
    (r : Option (List FileRead × List (List TreeEntry))) : Prop :=
  ∃ files trees, r = some (files, trees) ∧ files.Nodup ∧
    (∀ x, x ∈ files ↔ ∃ e ∈ idx, P e.parts ∧ x = (e.name, e.mode, e.hash)) ∧
    ∀ t ∈ trees, SortedTree t

theorem ReadsAs.congr {idx : List IndexEntry} {P Q : List String → Prop}
    {r : Option (List FileRead × List (List TreeEntry))} (h : ReadsAs idx P r)
    (hPQ : ∀ e ∈ idx, P e.parts ↔ Q e.parts) : ReadsAs idx Q r := by
  obtain ⟨files, trees, hr, hn, hm, hs⟩ := h
  refine ⟨files, trees, hr, hn, fun x => (hm x).trans ?_, hs⟩
  exact exists_congr fun e => and_congr_right fun he => and_congr_left' (hPQ e he)

/-- Two read-backs of entries with different names, one after the other. -/
theorem ReadsAs.append {idx : List IndexEntry} {P Q : List String → Prop}
    {r₁ r₂ : Option (List FileRead × List (List TreeEntry))} (h₁ : ReadsAs idx P r₁)
    (h₂ : ReadsAs idx Q r₂)
    (hPQ : ∀ e ∈ idx, ∀ e' ∈ idx, P e.parts → Q e'.parts → e.name ≠ e'.name) :
    ReadsAs idx (fun ps => P ps ∨ Q ps)
      (r₁.bind fun a => r₂.map fun b => (a.1 ++ b.1, a.2 ++ b.2)) := by
  obtain ⟨f₁, t₁, rfl, hn₁, hm₁, hs₁⟩ := h₁
  obtain ⟨f₂, t₂, rfl, hn₂, hm₂, hs₂⟩ := h₂
  refine ⟨f₁ ++ f₂, t₁ ++ t₂, rfl, List.nodup_append.2 ⟨hn₁, hn₂, fun x hx₁ hx₂ => ?_⟩,
    fun x => ?_, fun t ht => (List.mem_append.1 ht).elim (hs₁ t) (hs₂ t)⟩
  · obtain ⟨e, he, hP, rfl⟩ := (hm₁ x).1 hx₁
    obtain ⟨e', he', hQ, hx⟩ := (hm₂ _).1 hx₂
    exact hPQ e he e' he' hP hQ (Prod.mk.inj hx).1
  · rw [List.mem_append, hm₁, hm₂]
    constructor
    · rintro (⟨e, he, hP, rfl⟩ | ⟨e, he, hQ, rfl⟩)
      · exact ⟨e, he, .inl hP, rfl⟩
      · exact ⟨e, he, .inr hQ, rfl⟩
    · rintro ⟨e, he, hP | hQ, rfl⟩
      · exact .inl ⟨e, he, hP, rfl⟩
      · exact .inr ⟨e, he, hQ, rfl⟩

section copy

variable {idx : List IndexEntry} (T : List (String × List TreeEntry))

/-- What `copyTreeToStorageRecursive` does from the directory `qs` with `fuel`: it stores the
directory's tree, the storer only grows, and from every storer it grows into, the tree reads
back as the entries below `qs`. -/
def CopyOk (idx : List IndexEntry) (fuel : Nat) (qs : List String) : Prop :=
  ∀ s, ∃ root s', copyTreeToStorageRecursive T fuel (pathOf qs) (T.lookup (pathOf qs)) s =
      some (root, s') ∧ s <+: s' ∧
    ∀ s'', s' <+: s'' →
      ReadsAs idx (fun ps => ∃ r, ps = qs ++ r) (readTree s'' fuel (dirPrefix qs) root)

variable {T} (hP : PartsOk idx) (hL : Layout T (IsDir idx) idx)
  (hm : ∀ e ∈ idx, e.mode ≠ dirMode ∧ e.hash ≠ 0)

include hP in
theorem IsDir.ne_parts {qs : List String} (hq : IsDir idx qs) : ∀ e ∈ idx, e.parts ≠ qs := by
  rcases hq with rfl | ⟨e', he', c, r, hp⟩
  · exact fun e _ => e.parts_ne_nil
  · exact fun e he h => hP.noPrefix e he e' he' c r (h ▸ hp)

theorem IsDir.length_le {qs : List String} (hq : IsDir idx qs) : qs.length ≤ indexDepth idx := by
  rcases hq with rfl | ⟨e', he', c, r, hp⟩
  · exact Nat.zero_le _
  · have := congrArg List.length hp
    simp only [List.length_append, List.length_cons] at this
    have := length_le_indexDepth he'
    omega

include hP hL hm in
/-- One entry of the tree of `qs`: a file is kept and reads back as itself; a directory is
copied, takes the hash of the copy, and reads back as the entries below it. -/
theorem copyEntry_readBack {qs : List String} {L : List TreeEntry}
    (hT : TreeOk (IsDir idx) idx qs L) {f : Nat}
    (ih : ∀ c, IsDir idx (qs ++ [c]) → CopyOk T idx f (qs ++ [c])) {te : TreeEntry} (hte : te ∈ L)
    (s : Storer) : ∃ te' s', copyEntry (fun path => copyTreeToStorageRecursive T f path
      (T.lookup path)) (pathOf qs) te s = some (te', s') ∧ s <+: s' ∧ sortName te' = sortName te ∧
      ∀ s'', s' <+: s'' → ReadsAs idx (fun ps => ∃ r, ps = qs ++ te.name :: r)
        (readEntry (readTree s'' f) (dirPrefix qs) te') := by
  rcases hT.mem te hte with ⟨hdir, hhash, hD⟩ | ⟨e, he, hp, hmode, hhash⟩
  · have hcopy : ¬ (te.mode ≠ dirMode ∧ te.hash ≠ 0) := fun h => h.1 hdir
    have hc := hL.clean _ hD
    obtain ⟨root, s', hrun, hs, hread⟩ := ih te.name hD s
    refine ⟨{ te with hash := root }, s', ?_, hs, rfl, fun s'' hs'' => ?_⟩
    · rw [copyEntry, if_neg hcopy, join_pathOf (fun p hp => hc p (List.mem_append_left _ hp))
        (hc te.name (List.mem_append_right _ (List.mem_singleton_self _))), hrun]
      rfl
    · rw [readEntry, if_pos hdir, ← dirPrefix_append_singleton]
      exact (hread s'' hs'').congr fun e _ => by simp
  · have hkeep : te.mode ≠ dirMode ∧ te.hash ≠ 0 := hmode ▸ hhash ▸ hm e he
    refine ⟨te, s, by rw [copyEntry, if_pos hkeep], List.prefix_refl s, rfl, fun s'' _ => ?_⟩
    have hname : dirPrefix qs ++ te.name = e.name := by
      rw [dirPrefix_append, ← hp, e.pathOf_parts]
    refine ⟨[(e.name, e.mode, e.hash)], [], by rw [readEntry, if_neg hkeep.1, hname, hmode, hhash],
      List.nodup_singleton _, fun x => ?_, fun t ht => absurd ht (List.not_mem_nil t)⟩
    rw [List.mem_singleton]
    constructor
    · rintro rfl
      exact ⟨e, he, ⟨[], hp⟩, rfl⟩
    · rintro ⟨e', he', ⟨r, hr⟩, rfl⟩
      rcases r with _ | ⟨c, r⟩
      · rw [← hp] at hr
        rw [List.inj_on_of_nodup_map hP.nodup he' he hr]
      · exact absurd (hr.trans (by simp [hp])) (hP.noPrefix e he e' he' c r)

include hP hL in
theorem TreeOk.noSlash {qs : List String} {L : List TreeEntry} (hT : TreeOk (IsDir idx) idx qs L) :
    ∀ te ∈ L, '/' ∉ te.name.data := fun te hte => by
  rcases hT.mem te hte with ⟨-, -, hD⟩ | ⟨e, he, hp, -⟩
  · exact (hL.clean _ hD te.name (List.mem_append_right _ (List.mem_singleton_self _))).2.2.2
  · exact (hP.clean e he te.name (hp ▸ List.mem_append_right _ (List.mem_singleton_self _))).2.2.2

include hP in
/-- Every entry below the directory `qs` is below one of the entries of its tree. -/
theorem TreeOk.exists_child {qs : List String} {L : List TreeEntry}
    (hT : TreeOk (IsDir idx) idx qs L) (hq : IsDir idx qs) {e : IndexEntry} (he : e ∈ idx)
    {r : List String} (hr : e.parts = qs ++ r) : ∃ te ∈ L, ∃ r', e.parts = qs ++ te.name :: r' := by
  rcases r with _ | ⟨c, _ | ⟨c', r⟩⟩
  · exact absurd (hr.trans (List.append_nil qs)) (hq.ne_parts hP e he)
  · exact ⟨_, hT.file e he c hr, [], hr⟩
  · exact ⟨_, hT.dir c (.inr ⟨e, he, c', r, by simp [hr]⟩), c' :: r, hr⟩

include hP hL hm in
/-- The loop over the entries `ts` of the tree of `qs`: each is copied in turn, and together
they read back as the entries below them. -/
theorem copyEntries_readBack {qs : List String} {L : List TreeEntry}
    (hT : TreeOk (IsDir idx) idx qs L) {f : Nat}
    (ih : ∀ c, IsDir idx (qs ++ [c]) → CopyOk T idx f (qs ++ [c])) :
    ∀ ts : List TreeEntry, (∀ te ∈ ts, te ∈ L) → (ts.map (·.name)).Nodup → ∀ s, ∃ ts' s',
      copyEntries (fun path => copyTreeToStorageRecursive T f path (T.lookup path)) (pathOf qs)
        ts s = some (ts', s') ∧ s <+: s' ∧ ts'.map sortName = ts.map sortName ∧
      ∀ s'', s' <+: s'' → ReadsAs idx (fun ps => ∃ te ∈ ts, ∃ r, ps = qs ++ te.name :: r)
        (readEntries (readTree s'' f) (dirPrefix qs) ts')
  | [], _, _, s => ⟨[], s, rfl, List.prefix_refl s, rfl, fun _ _ =>
      ⟨[], [], rfl, List.nodup_nil, fun x => by simp, fun t ht => absurd ht (List.not_mem_nil t)⟩⟩
  | te :: ts, hts, hn, s => by
    rw [List.map_cons, List.nodup_cons] at hn
    obtain ⟨te', s₁, hrun₁, hs₁, hname₁, hread₁⟩ :=
      copyEntry_readBack hP hL hm hT ih (hts te (List.mem_cons_self _ _)) s
    obtain ⟨ts', s', hrun, hs', hnames, hread⟩ := copyEntries_readBack hT ih ts
      (fun t ht => hts t (List.mem_cons_of_mem _ ht)) hn.2 s₁
    refine ⟨te' :: ts', s', by rw [copyEntries_cons, hrun₁, Option.some_bind, hrun]; rfl,
      hs₁.trans hs', by rw [List.map_cons, List.map_cons, hname₁, hnames], fun s'' hs'' => ?_⟩
    rw [readEntries_cons]
    refine ((hread₁ s'' (hs'.trans hs'')).append (hread s'' hs'') ?_).congr fun e _ => ?_
    · rintro e - e' - ⟨r, hr⟩ ⟨t, ht, r', hr'⟩ hname
      have hpe : e.parts = e'.parts := congrArg (fun n : String => splitSlash n.data) hname
      rw [hpe, hr'] at hr
      have ht' : t.name = te.name := (List.cons_eq_cons.1 (List.append_cancel_left hr)).1
      exact hn.1 (ht' ▸ List.mem_map_of_mem _ ht)
    · simp only [List.mem_cons, exists_eq_or_imp]

include hP hL hm in
/-- `copyTreeToStorageRecursive` from a directory of the layout, with fuel beyond the depth of
the entries below it. -/
theorem copyOk : ∀ fuel qs, IsDir idx qs → indexDepth idx < fuel + qs.length → CopyOk T idx fuel qs
  | 0, qs, hq, hf => absurd hf (by have := hq.length_le; omega)
  | f + 1, qs, hq, hf => fun s => by
    obtain ⟨L, hLk⟩ := hL.lookup_some hq
    have hT := hL.tree qs L hq hLk
    have ih : ∀ c, IsDir idx (qs ++ [c]) → CopyOk T idx f (qs ++ [c]) := fun c hc =>
      copyOk f (qs ++ [c]) hc (by rw [List.length_append, List.length_singleton]; omega)
    have hperm := List.perm_insertionSort sortLe L
    obtain ⟨ts', s₁, hrun, hs₁, hnames, hread⟩ := copyEntries_readBack hP hL hm hT ih
      (sortEntries L) (fun te h => hperm.subset h) ((hperm.map _).nodup_iff.2 hT.nodup) s
    refine ⟨(s₁.setTree ts').1, (s₁.setTree ts').2, ?_, hs₁.trans (List.prefix_append _ _),
      fun s'' hs'' => ?_⟩
    · rw [hLk, copyTreeToStorageRecursive_succ, hrun]; rfl
    obtain ⟨files, trees, hr, hn, hmem, hsorted⟩ := hread s'' ((List.prefix_append _ _).trans hs'')
    refine ⟨files, ts' :: trees, ?_, hn, fun x => (hmem x).trans ?_, ?_⟩
    · rw [readTree_succ, Storer.tree_setTree hs'', Option.some_bind, hr]; rfl
    · refine exists_congr fun e => and_congr_right fun he => and_congr_left' ⟨?_, ?_⟩
      · rintro ⟨te, -, r, hr⟩
        exact ⟨te.name :: r, hr⟩
      · rintro ⟨r, hr⟩
        obtain ⟨te, hte, r', hr'⟩ := hT.exists_child hP hq he hr
        exact ⟨te, hperm.symm.subset hte, r', hr'⟩
    · intro t ht
      rcases List.mem_cons.1 ht with rfl | ht
      · unfold SortedTree
        rw [hnames]
        exact sortedTree_sortEntries (hT.noSlash hP hL) hT.nodup
      · exact hsorted t ht

end copy

/-! ## `BuildTree` -/

theorem isDir_nil (qs : List String) : IsDir [] qs ↔ qs = [] := by simp [IsDir]

/-- The maps `BuildTree` starts from: the empty root tree. -/
theorem layout_root : Layout [("", [])] (IsDir []) [] := by
  have hlk : ∀ qs : List String, (∀ p ∈ qs, CleanPart p) →
      [("", ([] : List TreeEntry))].lookup (pathOf qs) = if qs = [] then some [] else none :=
    fun qs hq => by
      rcases qs with _ | ⟨q, qs⟩
      · rfl
      · have hne := pathOf_ne_empty qs (hq q (List.mem_cons_self _ _)).1
        simp [List.lookup_cons, beq_false_of_ne hne]
  refine ⟨fun qs h => ?_, fun qs rs h => ?_, fun e he => absurd he (List.not_mem_nil e),
    fun qs hq => ?_, fun qs L h hl => ?_⟩
  · rw [(isDir_nil qs).1 h]; exact fun p hp => absurd hp (List.not_mem_nil p)
  · exact (isDir_nil qs).2 (List.append_eq_nil.1 ((isDir_nil _).1 h)).1
  · rw [hlk qs hq, isDir_nil]
    split <;> simp [*]
  · rw [(isDir_nil qs).1 h] at hl ⊢
    cases hl
    exact ⟨fun te hte => absurd hte (List.not_mem_nil te),
      fun c hc => absurd ((isDir_nil _).1 hc) (List.cons_ne_nil c []),
      fun e he => absurd he (List.not_mem_nil e), List.nodup_nil⟩

/-- The conditions on the names of the index give those on their parts. -/
theorem partsOk_of_names {idx : List IndexEntry} (hnames : (idx.map (·.name)).Nodup)
    (hnested : ∀ e ∈ idx, ∀ e' ∈ idx, ¬ (e.name ++ "/").data <+: e'.name.data)
    (hclean : ∀ e ∈ idx, CleanName e.name) : PartsOk idx where
  clean e he p hp := cleanPart_of_cleanName (hclean e he) hp
  nodup := by
    have hinj : Function.Injective fun n : String => splitSlash n.data := fun n n' h => by
      simpa only [pathOf_splitSlash] using congrArg pathOf h
    rw [show idx.map IndexEntry.parts = (idx.map (·.name)).map fun n => splitSlash n.data by
      simp [IndexEntry.parts]]
    exact hnames.map hinj
  noPrefix e he e' he' c r h := hnested e he e' he' ⟨(pathOf (c :: r)).data, by
    rw [← String.data_append, ← e.pathOf_parts, ← e'.pathOf_parts, h,
      pathOf_append e.parts_ne_nil (List.cons_ne_nil c r)]⟩

/-- The stored trees read back as the index. -/
theorem readTree_buildTree (h : BuildTreeHelper) (idx : List IndexEntry) (fuel : Nat)
    (hnames : (idx.map (·.name)).Nodup)
    (hnested : ∀ e ∈ idx, ∀ e' ∈ idx, ¬ (e.name ++ "/").data <+: e'.name.data)
    (hhash : ∀ e ∈ idx, e.hash ≠ 0) (hclean : ∀ e ∈ idx, CleanName e.name)
    (hmode : ∀ e ∈ idx, e.mode ≠ dirMode) (hfuel : indexDepth idx < fuel) :
    ∃ root h', h.buildTree fuel idx = some (root, h') ∧
      ∃ files trees, readTree h'.s fuel "" root = some (files, trees) ∧
        files.Perm (idx.map fun e => (e.name, e.mode, e.hash)) ∧ ∀ t ∈ trees, SortedTree t := by
  have hP := partsOk_of_names hnames hnested hclean
  obtain ⟨h', hrun, hL⟩ := foldlM_commitIndexEntry_layout hP idx [] rfl
    { h with trees := [("", [])], entries := [] } rfl layout_root
  obtain ⟨root, s', hcopy, -, hread⟩ := copyOk hP hL (fun e he => ⟨hmode e he, hhash e he⟩)
    fuel [] (.inl rfl) hfuel h'.s
  refine ⟨root, { h' with s := s' }, ?_, ?_⟩
  · rw [BuildTreeHelper.buildTree, hrun, Option.some_bind]
    exact congrArg (Option.map _) hcopy
  obtain ⟨files, trees, hr, hn, hmem, hs⟩ := hread s' (List.prefix_refl s')
  have hnodup : (idx.map fun e => (e.name, e.mode, e.hash)).Nodup :=
    List.Nodup.of_map Prod.fst (by rw [List.map_map]; exact hnames)
  refine ⟨files, trees, hr, (List.perm_ext_iff_of_nodup hn hnodup).2 fun x => ?_, hs⟩
  rw [hmem, List.mem_map]
  exact exists_congr fun e =>
    ⟨fun ⟨he, _, hx⟩ => ⟨he, hx.symm⟩, fun ⟨he, hx⟩ => ⟨he, ⟨_, rfl⟩, hx.symm⟩⟩

theorem buildTree_readBack (h : BuildTreeHelper) (idx : List IndexEntry) (fuel : Nat)
    (hnames : (idx.map (·.name)).Nodup)
    (hnested : ∀ e ∈ idx, ∀ e' ∈ idx, ¬ (e.name ++ "/").data <+: e'.name.data)
    (hhash : ∀ e ∈ idx, e.hash ≠ 0) (hclean : ∀ e ∈ idx, CleanName e.name)
    (hmode : ∀ e ∈ idx, e.mode ≠ dirMode) (hfuel : indexDepth idx < fuel) :
    ∃ root h', h.buildTree fuel idx = some (root, h') ∧
      ∃ files trees, readTree h'.s fuel "" root = some (files, trees) ∧
        files.Perm (idx.map fun e => (e.name, e.mode, e.hash)) ∧ ∀ t ∈ trees, SortedTree t :=
  readTree_buildTree h idx fuel hnames hnested hhash hclean hmode hfuel

theorem buildTree_readBack_nested :
    let idx : List IndexEntry := [⟨"b/c", 0o100644, 7⟩, ⟨"a", 0o100644, 5⟩, ⟨"b-", 0o100644, 6⟩]
    (idx.map (·.name)).Nodup ∧ (∀ e ∈ idx, ∀ e' ∈ idx, ¬ (e.name ++ "/").data <+: e'.name.data) ∧
      (∀ e ∈ idx, e.hash ≠ 0) ∧ (∀ e ∈ idx, CleanName e.name) ∧ (∀ e ∈ idx, e.mode ≠ dirMode) ∧
      indexDepth idx < 3 ∧
      ∃ root h', (⟨[], [], []⟩ : BuildTreeHelper).buildTree 3 idx = some (root, h') ∧
        ∃ files trees, readTree h'.s 3 "" root = some (files, trees) ∧
          files.Perm (idx.map fun e => (e.name, e.mode, e.hash)) ∧ ∀ t ∈ trees, SortedTree t :=
  ⟨by decide, by decide, by decide, by decide, by decide, by decide,
    buildTree_readBack _ _ 3 (by decide) (by decide) (by decide) (by decide) (by decide)
      (by decide)⟩

/-- The name `a/` is distinct, no directory prefix of another name, with a non-zero hash and a
file's mode, but not a `CleanName`: `doBuildTree` makes `a` a directory, and the stored trees
hold no file. -/
theorem buildTree_uncleanName :
    let idx : List IndexEntry := [⟨"a/", 0o100644, 1⟩]
    (idx.map (·.name)).Nodup ∧ (∀ e ∈ idx, ∀ e' ∈ idx, ¬ (e.name ++ "/").data <+: e'.name.data) ∧
      (∀ e ∈ idx, e.hash ≠ 0) ∧ (∀ e ∈ idx, e.mode ≠ dirMode) ∧ ¬ CleanName "a/" ∧
      ∃ h', (⟨[], [], []⟩ : BuildTreeHelper).buildTree 3 idx = some (2, h') ∧
        readTree h'.s 3 "" 2 = some ([], [[⟨"a", dirMode, 1⟩], []]) ∧
        ¬ ([] : List FileRead).Perm (idx.map fun e => (e.name, e.mode, e.hash)) :=
  ⟨by decide, by decide, by decide, by decide, by decide,
    ⟨[[], [⟨"a", dirMode, 1⟩]], [("", [⟨"a", dirMode, 0⟩]), ("a", [])], []⟩, by decide, by decide,
    fun h => List.cons_ne_nil _ _ h.symm.eq_nil⟩

/-! ## `Commit`'s tree -/

/-- The index entry `Commit` builds for an entry of the index: a regular file, under the hash
`code` gives its blob. -/
def Entry.toIndexEntry (code : String → Nat) (e : Entry) : IndexEntry :=
  ⟨e.name, 0o100644, code e.hash⟩

/-- **`Commit`'s flat tree is what `BuildTree` stores.** With a non-zero hash `code` for each
blob, over an index whose names are clean, distinct and none a directory prefix of another,
`BuildTree` of the entries as regular files succeeds, and the trees it stores read back as the
files of `buildTree`, each under its blob's hash. -/
theorem buildTree_flat (code : String → Nat) (hcode : ∀ b, code b ≠ 0) (idx : List Entry)
    (fuel : Nat) (hnames : (idx.map (·.name)).Nodup)
    (hnested : ∀ e ∈ idx, ∀ e' ∈ idx, ¬ (e.name ++ "/").data <+: e'.name.data)
    (hclean : ∀ e ∈ idx, CleanName e.name)
    (hfuel : indexDepth (idx.map (Entry.toIndexEntry code)) < fuel) :
    ∃ root h', (⟨[], [], []⟩ : BuildTreeHelper).buildTree fuel (idx.map (Entry.toIndexEntry code)) =
        some (root, h') ∧
      ∃ files trees, readTree h'.s fuel "" root = some (files, trees) ∧
        (files.map fun f => (f.1, f.2.2)).Perm
          ((MergeCore.buildTree idx).map fun p => (p.1, code p.2)) := by
  have hm : ∀ {P : IndexEntry → Prop}, (∀ e ∈ idx, P (e.toIndexEntry code)) →
      ∀ e ∈ idx.map (Entry.toIndexEntry code), P e := fun h _ hx => by
    obtain ⟨e, he, rfl⟩ := List.mem_map.1 hx
    exact h e he
  obtain ⟨root, h', hb, files, trees, hr, hp, -⟩ := readTree_buildTree _ _ fuel
    (by rwa [List.map_map]) (hm fun e he => hm fun e' he' => hnested e he e' he')
    (hm fun e _ => hcode e.hash) (hm hclean)
    (hm (P := (·.mode ≠ dirMode)) fun _ _ => show (0o100644 : UInt32) ≠ dirMode by decide) hfuel
  refine ⟨root, h', hb, files, trees, hr, ?_⟩
  simpa [List.map_map, MergeCore.buildTree, Function.comp_def, Entry.toIndexEntry] using
    hp.map fun f => (f.1, f.2.2)

/-- Two entries, one in a directory, with each blob's length plus one as its hash. -/
theorem buildTree_flat_two :
    let idx : List Entry := [⟨"b/c", "x", .merged⟩, ⟨"a", "yz", .merged⟩]
    (∀ b : String, b.length + 1 ≠ 0) ∧ (idx.map (·.name)).Nodup ∧
      (∀ e ∈ idx, ∀ e' ∈ idx, ¬ (e.name ++ "/").data <+: e'.name.data) ∧
      (∀ e ∈ idx, CleanName e.name) ∧
      indexDepth (idx.map (Entry.toIndexEntry fun b => b.length + 1)) < 3 ∧
      ∃ root h', (⟨[], [], []⟩ : BuildTreeHelper).buildTree 3
          (idx.map (Entry.toIndexEntry fun b => b.length + 1)) = some (root, h') ∧
        ∃ files trees, readTree h'.s 3 "" root = some (files, trees) ∧
          (files.map fun f => (f.1, f.2.2)).Perm
            ((MergeCore.buildTree idx).map fun p => (p.1, p.2.length + 1)) :=
  ⟨fun _ => Nat.succ_ne_zero _, by decide, by decide, by decide, by decide,
    buildTree_flat (fun b => b.length + 1) (fun _ => Nat.succ_ne_zero _) _ 3 (by decide)
      (by decide) (by decide) (by decide)⟩

end MergeCore
