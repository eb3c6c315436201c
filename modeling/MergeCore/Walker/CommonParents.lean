import MergeCore.Walker.Model

/-!
# Best common ancestors and what `getCommonParents` returns

The queue forgets what it popped: a commit can be returned twice (`getCommonParents_twice`), and
with equal times the order of the two sides matters (`getCommonParents_asymmetric`).
-/

namespace MergeCore

section
variable (store : List Commit)

/-- `d` is `c` or an ancestor of `c` along the parent edges of the store. -/
inductive Reaches : Commit → Commit → Prop
  | refl (c : Commit) : Reaches c c
  | parent {c p d : Commit} : p ∈ store → p.hash ∈ c.parentHashes → Reaches p d → Reaches c d

def IsCommonAncestor (c1 c2 x : Commit) : Prop := Reaches store c1 x ∧ Reaches store c2 x

/-- A common ancestor that is no strict ancestor of another common ancestor. -/
def IsBestCommonAncestor (c1 c2 x : Commit) : Prop :=
  IsCommonAncestor store c1 c2 x ∧
    ∀ y, IsCommonAncestor store c1 c2 y → Reaches store y x → y = x

/-- Author times never increase from a commit to its parents. -/
def TimesMonotone : Prop :=
  ∀ c ∈ store, ∀ p ∈ store, p.hash ∈ c.parentHashes → p.authorWhen ≤ c.authorWhen

instance : Decidable (TimesMonotone store) :=
  inferInstanceAs (Decidable (∀ c ∈ store, ∀ p ∈ store, p.hash ∈ c.parentHashes → _))

/-- Parents have smaller hashes, so the graph is acyclic. -/
def HashOrdered : Prop := ∀ c ∈ store, ∀ h ∈ c.parentHashes, h < c.hash

instance : Decidable (HashOrdered store) :=
  inferInstanceAs (Decidable (∀ c ∈ store, ∀ h ∈ c.parentHashes, h < c.hash))

end

variable {store : List Commit}

/-- The ancestors of a commit of a set closed under the store's parent edges stay in it. -/
theorem Reaches.closed {S : List Commit}
    (hS : ∀ c ∈ S, ∀ p ∈ store, p.hash ∈ c.parentHashes → p ∈ S) {c d : Commit}
    (h : Reaches store c d) (hc : c ∈ S) : d ∈ S := by
  induction h with
  | refl => exact hc
  | parent hp hh _ ih => exact ih (hS _ hc _ hp hh)

/-! ## Fuel -/

/-- Once the loop stops other than for fuel, more fuel gives the same outcome. -/
theorem walkRun_mono : ∀ {fuel : Nat} {pq : PriorityQueue} {res : List Commit}
    {r : Except WalkErr (List Commit)}, walkRun store fuel pq res = r → r ≠ .error .outOfFuel →
      ∀ fuel', fuel ≤ fuel' → walkRun store fuel' pq res = r
  | 0, _, _, _, h, hr, _, _ => absurd h.symm hr
  | fuel + 1, pq, res, r, h, hr, fuel' + 1, hle => by
    rw [walkRun] at h ⊢
    split at h
    · rw [if_pos ‹_›]
      cases hs : walkStep store pq res with
      | none => simpa [hs] using h
      | some s =>
        simp only [hs] at h ⊢
        exact walkRun_mono h hr fuel' (by omega)
    · rwa [if_neg ‹_›]
  | fuel + 1, _, _, _, _, _, 0, hle => absurd hle (by omega)

theorem walkLoop_mono {fuel : Nat} {pq : PriorityQueue} {res r : List Commit}
    (h : walkLoop store fuel pq res = some r) (fuel' : Nat) (hle : fuel ≤ fuel') :
    walkLoop store fuel' pq res = some r := by
  unfold walkLoop at h ⊢
  cases hw : walkRun store fuel pq res with
  | error e => simp [hw, Except.toOption] at h
  | ok r' => rw [walkRun_mono hw (by simp) fuel' hle]; simpa [hw, Except.toOption] using h

theorem getCommonParentsRun_mono {oldC newC : Commit} {fuel : Nat}
    {r : Except WalkErr (List Commit)} (h : getCommonParentsRun store oldC newC fuel = r)
    (hr : r ≠ .error .outOfFuel) (fuel' : Nat) (hle : fuel ≤ fuel') :
    getCommonParentsRun store oldC newC fuel' = r :=
  walkRun_mono h hr fuel' hle

theorem getCommonParentsRun_of_some {oldC newC : Commit} {fuel : Nat} {r : List Commit}
    (h : getCommonParents store oldC newC fuel = some r) :
    getCommonParentsRun store oldC newC fuel = .ok r := by
  rw [getCommonParents_eq_toOption] at h
  cases hr : getCommonParentsRun store oldC newC fuel <;> simp_all [Except.toOption]

theorem getCommonParents_mono {oldC newC : Commit} {fuel : Nat} {r : List Commit}
    (h : getCommonParents store oldC newC fuel = some r) (fuel' : Nat) (hle : fuel ≤ fuel') :
    getCommonParents store oldC newC fuel' = some r :=
  walkLoop_mono h fuel' hle

/-! ## A commit returned twice: `tieX` and its children `tieY`, `tieZ` of its time, below the
sides `tieA` and `tieB` -/

def tieX : Commit := ⟨1, 5, []⟩
def tieY : Commit := ⟨2, 5, [1]⟩
def tieZ : Commit := ⟨3, 5, [1]⟩
def tieA : Commit := ⟨4, 10, [2, 1]⟩
def tieB : Commit := ⟨5, 10, [3, 1]⟩
def tieStore : List Commit := [tieX, tieY, tieZ, tieA, tieB]

/-- `tieX` is the one best common ancestor, and is returned twice: it leaves the queue with both
flags before its children of the same time, which push it again with one flag each. -/
theorem getCommonParents_twice :
    HashOrdered tieStore ∧ TimesMonotone tieStore ∧
      (∀ x, IsBestCommonAncestor tieStore tieA tieB x ↔ x = tieX) ∧
      ∀ fuel, 7 ≤ fuel → getCommonParents tieStore tieA tieB fuel = some [tieX, tieX] := by
  have hA : ∀ x, Reaches tieStore tieA x → x ∈ [tieA, tieY, tieX] :=
    fun x h => h.closed (by decide) (by decide)
  have hB : ∀ x, Reaches tieStore tieB x → x ∈ [tieB, tieZ, tieX] :=
    fun x h => h.closed (by decide) (by decide)
  have hcommon : ∀ x, IsCommonAncestor tieStore tieA tieB x → x = tieX := fun x ⟨h1, h2⟩ => by
    have h1 := hA x h1
    have h2 := hB x h2
    simp only [List.mem_cons, List.mem_singleton, List.not_mem_nil, or_false] at h1 h2
    rcases h1 with rfl | rfl | rfl <;> rcases h2 with h2 | h2 | h2 <;> first | rfl | cases h2
  have hX : IsCommonAncestor tieStore tieA tieB tieX :=
    ⟨.parent (by decide) (by decide) (.refl _), .parent (by decide) (by decide) (.refl _)⟩
  refine ⟨by decide, by decide, fun x => ⟨fun h => hcommon x h.1, ?_⟩, fun fuel hf => ?_⟩
  · rintro rfl
    exact ⟨hX, fun y hy _ => hcommon y hy⟩
  · exact getCommonParents_mono
      (show getCommonParents tieStore tieA tieB 7 = some [tieX, tieX] by decide) fuel hf

/-! ## The order of the two sides: a root and its child of the same time -/

def tieRoot : Commit := ⟨1, 5, []⟩
def tieChild : Commit := ⟨2, 5, [1]⟩

/-- The root is found only with the child first: from the root first, it leaves the queue with
its own side's flag before the child pushes it again with the other side's. -/
theorem getCommonParents_asymmetric :
    HashOrdered [tieRoot, tieChild] ∧ TimesMonotone [tieRoot, tieChild] ∧
      (∀ x, IsBestCommonAncestor [tieRoot, tieChild] tieRoot tieChild x ↔ x = tieRoot) ∧
      ∀ fuel, 4 ≤ fuel →
        getCommonParents [tieRoot, tieChild] tieRoot tieChild fuel = some [] ∧
          getCommonParents [tieRoot, tieChild] tieChild tieRoot fuel = some [tieRoot] := by
  have hroot : ∀ x, Reaches [tieRoot, tieChild] tieRoot x → x = tieRoot := fun x h => by
    simpa using h.closed (S := [tieRoot]) (by decide) (by decide)
  have hchild : Reaches [tieRoot, tieChild] tieChild tieRoot :=
    .parent (by decide) (by decide) (.refl _)
  refine ⟨by decide, by decide, fun x => ⟨fun h => hroot x h.1.1, ?_⟩, fun fuel hf =>
    ⟨getCommonParents_mono (show getCommonParents _ tieRoot tieChild 4 = some [] by decide) fuel hf,
      getCommonParents_mono (show getCommonParents _ tieChild tieRoot 4 = some [tieRoot] by decide)
        fuel hf⟩⟩
  rintro rfl
  exact ⟨⟨.refl _, hchild⟩, fun y hy _ => hroot y hy.1⟩

end MergeCore
