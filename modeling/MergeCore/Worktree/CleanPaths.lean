import MergeCore.Mysqlfs.Storage

/-!
# Paths of clean parts

`commitIndexEntry` builds each directory's path with `path.Join` and names each tree entry
with `path.Base`, and `strings.Split` takes a name apart. Over names whose parts are clean
(not empty, `.` or `..`), these are the list operations on the parts: a path is `pathOf qs`,
the parts joined by `/`.

* `splitSlash_pathOf`, `pathOf_splitSlash`: splitting on `/` and joining are inverse.
* `join_pathOf`: `path.Join` of a clean path and a clean part appends the part.
* `base_pathOf`: `path.Base` is the last part.
* `pathOf_inj`: clean paths are equal exactly when their parts are.
-/

namespace MergeCore

open Mysqlfs

/-- A part of a clean path: not empty, not `.` or `..`, and without a `/`. -/
def CleanPart (p : String) : Prop := p ≠ "" ∧ p ≠ "." ∧ p ≠ ".." ∧ '/' ∉ p.data

/-- A clean relative name: no part of it is empty, `.` or `..`. -/
def CleanName (name : String) : Prop := ∀ p ∈ splitSlash name.data, p ≠ "" ∧ p ≠ "." ∧ p ≠ ".."

instance : DecidablePred CleanName := fun _ => inferInstanceAs (Decidable (∀ _ ∈ _, _))

/-- The path of the parts `qs`, joined by `/`. -/
def pathOf (qs : List String) : String := "/".intercalate qs

/-- The path of the directory `qs` as `readTree` passes it on: each part followed by `/`. -/
def dirPrefix : List String → String
  | [] => ""
  | q :: qs => q ++ "/" ++ dirPrefix qs

/-! ## Joining -/

theorem intercalate_go (acc x : String) : ∀ l : List String,
    String.intercalate.go (acc ++ x) "/" l = acc ++ String.intercalate.go x "/" l
  | [] => rfl
  | a :: l => by
    simp only [String.intercalate.go, String.append_assoc]
    exact intercalate_go acc (x ++ ("/" ++ a)) l

theorem pathOf_cons_cons (p q : String) (l : List String) :
    pathOf (p :: q :: l) = p ++ "/" ++ pathOf (q :: l) := by
  simp only [pathOf, String.intercalate, String.intercalate.go]
  rw [String.append_assoc, intercalate_go, intercalate_go, String.append_assoc]

theorem pathOf_cons (p : String) {l : List String} (hl : l ≠ []) :
    pathOf (p :: l) = p ++ "/" ++ pathOf l := by
  obtain ⟨q, l, rfl⟩ := List.exists_cons_of_ne_nil hl
  exact pathOf_cons_cons p q l

theorem pathOf_append : ∀ {qs rs : List String}, qs ≠ [] → rs ≠ [] →
    pathOf (qs ++ rs) = pathOf qs ++ "/" ++ pathOf rs
  | [p], _, _, hr => pathOf_cons p hr
  | p :: q :: l, rs, _, hr => by
    rw [List.cons_append,
      pathOf_cons p (List.append_ne_nil_of_left_ne_nil (List.cons_ne_nil q l) rs), pathOf_append (List.cons_ne_nil q l) hr, pathOf_cons_cons]
    simp only [String.append_assoc]

theorem pathOf_append_singleton {qs : List String} (c : String) (hq : qs ≠ []) :
    pathOf (qs ++ [c]) = pathOf qs ++ "/" ++ c :=
  pathOf_append hq (List.cons_ne_nil c [])

theorem dirPrefix_append_singleton (c : String) : ∀ qs : List String,
    dirPrefix (qs ++ [c]) = dirPrefix qs ++ c ++ "/"
  | [] => by simp [dirPrefix]
  | q :: qs => by
    rw [List.cons_append, dirPrefix, dirPrefix_append_singleton c qs, dirPrefix]
    simp only [String.append_assoc]

theorem dirPrefix_append (c : String) : ∀ qs : List String, dirPrefix qs ++ c = pathOf (qs ++ [c])
  | [] => by simp [dirPrefix]; rfl
  | q :: qs => by
    rw [List.cons_append,
      pathOf_cons q (List.append_ne_nil_of_right_ne_nil qs (List.cons_ne_nil c [])),
      ← dirPrefix_append c qs, dirPrefix]
    simp only [String.append_assoc]

/-! ## Splitting -/

theorem splitSlash_noSlash : ∀ {p : List Char}, '/' ∉ p → splitSlash p = [⟨p⟩]
  | [], _ => rfl
  | c :: p, h => by
    rw [List.mem_cons, not_or] at h
    rw [splitSlash, if_neg (Ne.symm h.1), splitSlash_noSlash h.2]

theorem splitSlash_append : ∀ {p : List Char} (rest : List Char), '/' ∉ p →
    splitSlash (p ++ '/' :: rest) = ⟨p⟩ :: splitSlash rest
  | [], rest, _ => by simp [splitSlash]
  | c :: p, rest, h => by
    rw [List.mem_cons, not_or] at h
    rw [List.cons_append, splitSlash, if_neg (Ne.symm h.1), splitSlash_append rest h.2]

theorem splitSlash_pathOf : ∀ {qs : List String}, qs ≠ [] → (∀ p ∈ qs, '/' ∉ p.data) →
    splitSlash (pathOf qs).data = qs
  | [p], _, h => splitSlash_noSlash (h p (List.mem_singleton_self p))
  | p :: q :: l, _, h => by
    rw [pathOf_cons_cons, String.data_append, String.data_append, List.append_assoc]
    show splitSlash (p.data ++ '/' :: (pathOf (q :: l)).data) = _
    rw [splitSlash_append _ (h p (List.mem_cons_self _ _)),
      splitSlash_pathOf (List.cons_ne_nil _ _) fun r hr => h r (List.mem_cons_of_mem _ hr)]

theorem splitSlash_ne_nil : ∀ cs : List Char, splitSlash cs ≠ []
  | [] => List.cons_ne_nil _ _
  | c :: cs => by
    unfold splitSlash
    split
    · exact List.cons_ne_nil _ _
    · split <;> exact List.cons_ne_nil _ _

theorem noSlash_of_mem_splitSlash : ∀ {cs : List Char} {p : String}, p ∈ splitSlash cs →
    '/' ∉ p.data
  | [], p, h => by rw [List.mem_singleton.1 h]; exact List.not_mem_nil _
  | c :: cs, p, h => by
    unfold splitSlash at h
    split at h
    · rcases List.mem_cons.1 h with rfl | h
      · exact List.not_mem_nil _
      · exact noSlash_of_mem_splitSlash h
    · rename_i hc
      split at h
      · rename_i e es he
        rcases List.mem_cons.1 h with rfl | h
        · have := noSlash_of_mem_splitSlash (he ▸ List.mem_cons_self e es)
          simpa [Ne.symm hc] using this
        · exact noSlash_of_mem_splitSlash (he ▸ List.mem_cons_of_mem e h)
      · rw [List.mem_singleton.1 h]
        simp [Ne.symm hc]

theorem pathOf_cons_head (c : Char) (e : String) : ∀ es : List String,
    pathOf (⟨c :: e.data⟩ :: es) = ⟨c :: (pathOf (e :: es)).data⟩
  | [] => rfl
  | q :: l => by rw [pathOf_cons_cons, pathOf_cons_cons]; rfl

theorem pathOf_splitSlash : ∀ cs : List Char, pathOf (splitSlash cs) = ⟨cs⟩
  | [] => rfl
  | c :: cs => by
    have ih := pathOf_splitSlash cs
    obtain ⟨e, es, h⟩ := List.exists_cons_of_ne_nil (splitSlash_ne_nil cs)
    unfold splitSlash
    rw [h] at ih ⊢
    split
    · rename_i hc
      subst hc
      rw [pathOf_cons_cons, ih]; rfl
    · rw [pathOf_cons_head, ih]

theorem cleanPart_of_cleanName {name p : String} (h : CleanName name)
    (hp : p ∈ splitSlash name.data) : CleanPart p :=
  ⟨(h p hp).1, (h p hp).2.1, (h p hp).2.2, noSlash_of_mem_splitSlash hp⟩

/-! ## `Clean`, `Join` and `Base` -/

theorem cleanElems_of_clean (r : Bool) : ∀ (l acc : List String),
    (∀ p ∈ l, p ≠ "" ∧ p ≠ "." ∧ p ≠ "..") → cleanElems r acc l = acc.reverse ++ l
  | [], acc, _ => by simp [cleanElems]
  | e :: es, acc, h => by
    obtain ⟨h1, h2, h3⟩ := h e (List.mem_cons_self _ _)
    simp only [cleanElems, h1, h2, h3, or_self, if_false]
    rw [cleanElems_of_clean r es _ fun p hp => h p (List.mem_cons_of_mem _ hp)]
    simp

theorem data_pathOf_cons (p : String) : ∀ l : List String, ∃ r, (pathOf (p :: l)).data = p.data ++ r
  | [] => ⟨[], by simp [pathOf, String.intercalate, String.intercalate.go]⟩
  | q :: l => ⟨_, by
    rw [pathOf_cons_cons, String.data_append, String.data_append, List.append_assoc]⟩

theorem pathOf_ne_empty {p : String} (l : List String) (hp : p ≠ "") : pathOf (p :: l) ≠ "" := by
  intro h
  obtain ⟨r, hr⟩ := data_pathOf_cons p l
  rw [h] at hr
  exact hp (String.ext (List.append_eq_nil.1 hr.symm).1)

theorem clean_pathOf {qs : List String} (hne : qs ≠ []) (hq : ∀ p ∈ qs, CleanPart p) :
    clean (pathOf qs) = pathOf qs := by
  obtain ⟨p, l, rfl⟩ := List.exists_cons_of_ne_nil hne
  obtain ⟨hp0, -, -, hps⟩ := hq p (List.mem_cons_self _ _)
  have hroot : (pathOf (p :: l)).data.head? ≠ some '/' := by
    obtain ⟨r, hr⟩ := data_pathOf_cons p l
    obtain ⟨c, cs, hc⟩ := List.exists_cons_of_ne_nil (fun h => hp0 (String.ext h))
    rw [hr, hc]
    intro h
    simp only [List.cons_append, List.head?_cons, Option.some.injEq] at h
    exact hps (hc ▸ h ▸ List.mem_cons_self _ _)
  rw [clean, if_neg hroot, splitSlash_pathOf (List.cons_ne_nil _ _) fun r hr => (hq r hr).2.2.2,
    cleanElems_of_clean _ _ _ fun r hr => ⟨(hq r hr).1, (hq r hr).2.1, (hq r hr).2.2.1⟩]
  simp [pathOf]

theorem join_pathOf {qs : List String} {c : String} (hq : ∀ p ∈ qs, CleanPart p)
    (hc : CleanPart c) : join (pathOf qs) c = pathOf (qs ++ [c]) := by
  have hc' : ∀ p ∈ qs ++ [c], CleanPart p := fun p hp => by
    rcases List.mem_append.1 hp with h | h
    · exact hq p h
    · rw [List.mem_singleton.1 h]; exact hc
  rcases qs with _ | ⟨p, l⟩
  · have hf : [pathOf [], c].filter (· ≠ "") = [c] := by simp [pathOf, String.intercalate, hc.1]
    rw [join, hf]
    exact clean_pathOf (List.cons_ne_nil _ _) hc'
  · have hne := pathOf_ne_empty l (hq p (List.mem_cons_self _ _)).1
    have hf : [pathOf (p :: l), c].filter (· ≠ "") = [pathOf (p :: l), c] := by simp [hne, hc.1]
    rw [join, hf]
    show clean (pathOf [pathOf (p :: l), c]) = _
    rw [pathOf_cons_cons, show pathOf [c] = c from rfl,
      ← pathOf_append_singleton c (List.cons_ne_nil p l)]
    exact clean_pathOf (List.cons_ne_nil _ _) hc'

theorem base_pathOf {qs : List String} {c : String} (hc : CleanPart c) :
    base (pathOf (qs ++ [c])) = c := by
  obtain ⟨hc0, -, -, hcs⟩ := hc
  obtain ⟨pre, hpre⟩ : ∃ pre, (pathOf (qs ++ [c])).data.reverse = c.data.reverse ++ pre ∧
      (pre = [] ∨ pre.head? = some '/') := by
    rcases qs with _ | ⟨p, l⟩
    · exact ⟨[], by simp [pathOf, String.intercalate, String.intercalate.go]⟩
    · refine ⟨'/' :: (pathOf (p :: l)).data.reverse, ?_, .inr rfl⟩
      rw [pathOf_append_singleton c (List.cons_ne_nil p l)]
      simp
  obtain ⟨x, xs, hx⟩ :=
    List.exists_cons_of_ne_nil (fun h => hc0 (String.ext (List.reverse_eq_nil_iff.1 h)))
  have hne : pathOf (qs ++ [c]) ≠ "" := fun h => by
    have := congrArg (fun s => s.data.reverse) h
    simp only [hpre.1, hx] at this
    cases this
  rw [base, if_neg hne]
  have hx' : x ≠ '/' := fun h => hcs (List.mem_reverse.1 (hx ▸ h ▸ List.mem_cons_self _ _))
  have htw : pre.takeWhile (fun y => decide (y ≠ '/')) = [] := by
    rcases hpre.2 with h | h
    · rw [h]; rfl
    · cases pre with
      | nil => rfl
      | cons a t => simp only [List.head?_cons, Option.some.injEq] at h; simp [h]
  have hall : ∀ a ∈ c.data.reverse, decide (a ≠ '/') = true := fun a ha => by
    simp only [ne_eq, decide_eq_true_eq]
    rintro rfl
    exact hcs (List.mem_reverse.1 ha)
  simp only [hpre.1, hx, List.cons_append, List.dropWhile_cons, hx', decide_False,
    Bool.false_eq_true, if_false, List.cons_ne_nil]
  rw [← List.cons_append, ← hx, List.takeWhile_append_of_pos hall, htw, List.append_nil,
    List.reverse_reverse]

/-! ## Injectivity -/

theorem pathOf_eq_empty {qs : List String} (hq : ∀ p ∈ qs, CleanPart p) :
    pathOf qs = "" ↔ qs = [] := by
  refine ⟨fun h => ?_, fun h => h ▸ rfl⟩
  rcases qs with _ | ⟨p, l⟩
  · rfl
  · exact absurd h (pathOf_ne_empty l (hq p (List.mem_cons_self _ _)).1)

theorem pathOf_inj {qs rs : List String} (hq : ∀ p ∈ qs, CleanPart p) (hr : ∀ p ∈ rs, CleanPart p) :
    pathOf qs = pathOf rs ↔ qs = rs := by
  refine ⟨fun h => ?_, fun h => h ▸ rfl⟩
  rcases qs with _ | ⟨q, qs⟩
  · exact ((pathOf_eq_empty hr).1 h.symm).symm
  rcases rs with _ | ⟨r, rs⟩
  · exact (pathOf_eq_empty hq).1 h
  rw [← splitSlash_pathOf (List.cons_ne_nil q qs) fun p hp => (hq p hp).2.2.2, h,
    splitSlash_pathOf (List.cons_ne_nil r rs) fun p hp => (hr p hp).2.2.2]

end MergeCore
