import MergeCore.Walker.CommonParents
import Mathlib.Data.List.Perm.Basic
import Mathlib.Algebra.Order.BigOperators.Group.List
import Mathlib.Algebra.Order.Ring.Nat

/-!
# The walk of `getCommonParents` ends, and returns common ancestors

A popped commit can be pushed again (`getCommonParents_twice`), so the queue's length does not
bound the loop. A weight does: a queue weighs the sum of `(D + 1) ^ rank` over its commits,
where `rank` numbers the commits of an acyclic store above their parents and `D` counts the
store's parent edges. `heap.Push` and `heap.Pop` permute the queue, `Push` merges an entry
into a queued one of the same commit, and an iteration replaces the popped commit by its
parents, which weigh less together (`weight_walkStep`). So fuel above the first queue's
weight suffices, for every pair of commits of the store (`getCommonParents_terminates`).

An entry's flags say which sides reach its commit (`Sound`), so every result is a common
ancestor (`getCommonParents_sound`); from one commit on both sides the loop returns that
commit, once (`getCommonParents_self`). Together: on a commit graph, enough fuel gives a result
of common ancestors for every two commits (`getCommonParents_correct`).
-/

namespace MergeCore

/-! ## The heap permutes the queue -/

theorem swap_perm (pq : PriorityQueue) (i j : Nat) : (pq.swap i j).Perm pq := by
  unfold PriorityQueue.swap
  split
  · rename_i a b ha hb
    obtain ⟨hi, rfl⟩ := List.getElem?_eq_some_iff.1 ha
    obtain ⟨hj, rfl⟩ := List.getElem?_eq_some_iff.1 hb
    refine List.perm_iff_count.2 fun c => ?_
    have hj' : j < (pq.set i pq[j]).length := by simpa using hj
    have hset : (pq.set i pq[j])[j] = pq[j] := by
      rw [List.getElem_set]; split_ifs <;> rfl
    rw [List.count_set _ _ _ _ hj', hset, List.count_set _ _ _ _ hi]
    have h1 : (if pq[i] == c then 1 else 0) ≤ pq.count c := by
      split_ifs with h
      · exact List.count_pos_iff.2 (by rw [← beq_iff_eq.1 h]; exact List.getElem_mem hi)
      · exact Nat.zero_le _
    split_ifs at h1 ⊢ <;> omega
  · exact List.Perm.refl _

theorem upLoop_perm : ∀ (fuel : Nat) (pq : PriorityQueue) (j : Nat), (upLoop fuel pq j).Perm pq
  | 0, _, _ => List.Perm.refl _
  | fuel + 1, pq, j => by
    unfold upLoop
    dsimp only
    split
    · exact List.Perm.refl _
    · exact (upLoop_perm fuel _ _).trans (swap_perm _ _ _)

theorem downLoop_perm (n : Nat) :
    ∀ (fuel : Nat) (pq : PriorityQueue) (i : Nat), (downLoop n fuel pq i).Perm pq
  | 0, _, _ => List.Perm.refl _
  | fuel + 1, pq, i => by
    unfold downLoop
    dsimp only
    split_ifs <;>
      first | exact List.Perm.refl _ | exact (downLoop_perm n fuel _ _).trans (swap_perm _ _ _)

theorem heapPush_perm (pq : PriorityQueue) (x : PrioritizedCommit) :
    (heapPush pq x).Perm (pq.push x) :=
  upLoop_perm _ _ _

theorem pop_perm {q : PriorityQueue} {el : PrioritizedCommit} {rest : PriorityQueue}
    (h : q.pop = some (el, rest)) : (el :: rest).Perm q := by
  obtain ⟨x, hx, he⟩ := Option.map_eq_some'.1 h
  obtain ⟨rfl, rfl⟩ := Prod.mk.inj he
  obtain ⟨ys, rfl⟩ := List.getLast?_eq_some_iff.1 hx
  rw [List.dropLast_concat]
  exact (List.perm_append_singleton _ ys).symm

/-- The queue `heapPop` sifts before it pops the last entry. -/
theorem sifted_perm (pq : PriorityQueue) :
    (down (pq.swap 0 (pq.length - 1)) 0 (pq.length - 1)).Perm pq :=
  (downLoop_perm _ _ _ _).trans (swap_perm _ _ _)

theorem heapPop_perm {pq : PriorityQueue} {el : PrioritizedCommit} {rest : PriorityQueue}
    (h : heapPop pq = some (el, rest)) : (el :: rest).Perm pq :=
  (pop_perm h).trans (sifted_perm pq)

theorem heapPop_isSome {pq : PriorityQueue} (h : pq ≠ []) : (heapPop pq).isSome := by
  have hne : down (pq.swap 0 (pq.length - 1)) 0 (pq.length - 1) ≠ [] := fun h0 =>
    h (List.eq_nil_of_length_eq_zero (by rw [← (sifted_perm pq).length_eq, h0]; rfl))
  simp [heapPop, PriorityQueue.pop, List.getLast?_eq_getLast _ hne]

/-! ## What `Push` keeps -/

/-- What the loop of `Push` does: OR the flags into the first entry of the same commit. -/
theorem orFlags_spec : ∀ {item : PrioritizedCommit} {pq pq' : PriorityQueue},
    orFlags item pq = some pq' → ∃ l1 el l2, pq = l1 ++ el :: l2 ∧
      el.value.hash = item.value.hash ∧
        pq' = l1 ++ { el with flags := el.flags ||| item.flags } :: l2
  | _, [], _, h => by cases h
  | item, el :: pq, pq', h => by
    unfold orFlags at h
    split at h
    · exact ⟨[], el, pq, rfl, ‹_›, (Option.some.inj h).symm⟩
    · obtain ⟨pq'', h'', rfl⟩ := Option.map_eq_some'.1 h
      obtain ⟨l1, e, l2, rfl, hh, rfl⟩ := orFlags_spec h''
      exact ⟨el :: l1, e, l2, rfl, hh, rfl⟩

/-- An entry of the queue after `Push` was in it, is the pushed one, or is a queued entry of the
same commit with the pushed flags ORed in. -/
theorem mem_push {pq : PriorityQueue} {x e : PrioritizedCommit} (h : e ∈ pq.push x) :
    e ∈ pq ∨ e = x ∨ ∃ el ∈ pq, el.value.hash = x.value.hash ∧
      e = { el with flags := el.flags ||| x.flags } := by
  unfold PriorityQueue.push at h
  split at h
  · obtain ⟨l1, el, l2, rfl, hh, rfl⟩ := orFlags_spec ‹_›
    simp only [List.mem_append, List.mem_cons] at h
    rcases h with h | rfl | h
    · exact .inl (by simp [h])
    · exact .inr (.inr ⟨el, by simp, hh, rfl⟩)
    · exact .inl (by simp [h])
  · simp only [List.mem_append, List.mem_singleton] at h
    exact h.imp_right .inl

theorem mem_heapPush {pq : PriorityQueue} {x e : PrioritizedCommit} (h : e ∈ heapPush pq x) :
    e ∈ pq ∨ e = x ∨ ∃ el ∈ pq, el.value.hash = x.value.hash ∧
      e = { el with flags := el.flags ||| x.flags } :=
  mem_push ((heapPush_perm pq x).subset h)

section keep
variable (P : PrioritizedCommit → Prop)
  (hmerge : ∀ el x, P el → P x → el.value.hash = x.value.hash →
    P { el with flags := el.flags ||| x.flags })
include hmerge

/-- A property of entries that holds of the pushed entry and survives ORing in the flags of
another entry of the same commit holds of every entry after `heap.Push`. -/
theorem forall_mem_heapPush {pq : PriorityQueue} {x : PrioritizedCommit} (hpq : ∀ e ∈ pq, P e)
    (hx : P x) : ∀ e ∈ heapPush pq x, P e := fun e he => by
  rcases mem_heapPush he with h | rfl | ⟨el, hel, hh, rfl⟩
  · exact hpq e h
  · exact hx
  · exact hmerge el _ (hpq el hel) hx hh

theorem forall_mem_pushParents (flags : UInt32) :
    ∀ (ps : List Commit) (pq : PriorityQueue), (∀ e ∈ pq, P e) →
      (∀ p ∈ ps, P (markCommit p flags)) →
      ∀ e ∈ ps.foldl (fun pq p => heapPush pq (markCommit p flags)) pq, P e
  | [], _, hpq, _ => hpq
  | p :: ps, _, hpq, hps => forall_mem_pushParents flags ps _
    (forall_mem_heapPush P hmerge hpq (hps p (.head _))) fun q hq => hps q (.tail _ hq)

end keep

/-! ## Weights -/

section weight
variable (w : Nat → Nat)

/-- The weight of a queue: the weights of its commits' hashes, summed. -/
def weight (pq : PriorityQueue) : Nat := (pq.map fun e => w e.value.hash).sum

variable {w}

theorem weight_perm {pq pq' : PriorityQueue} (h : pq.Perm pq') : weight w pq = weight w pq' :=
  (h.map _).sum_eq

theorem weight_push (pq : PriorityQueue) (x : PrioritizedCommit) :
    weight w (pq.push x) ≤ weight w pq + w x.value.hash := by
  unfold PriorityQueue.push
  split
  · obtain ⟨l1, el, l2, rfl, -, rfl⟩ := orFlags_spec ‹_›
    simp [weight]
  · simp [weight]

theorem weight_heapPush (pq : PriorityQueue) (x : PrioritizedCommit) :
    weight w (heapPush pq x) ≤ weight w pq + w x.value.hash :=
  (weight_perm (heapPush_perm pq x)).trans_le (weight_push pq x)

theorem weight_pushParents (flags : UInt32) : ∀ (ps : List Commit) (pq : PriorityQueue),
    weight w (ps.foldl (fun pq p => heapPush pq (markCommit p flags)) pq) ≤
      weight w pq + (ps.map fun p => w p.hash).sum
  | [], pq => by simp
  | p :: ps, pq => by
    have h : weight w (heapPush pq (markCommit p flags)) ≤ weight w pq + w p.hash :=
      weight_heapPush pq (markCommit p flags)
    have ih := weight_pushParents flags ps (heapPush pq (markCommit p flags))
    simp only [List.foldl_cons, List.map_cons, List.sum_cons] at ih ⊢
    omega

end weight

/-! ## One iteration -/

/-- One iteration: pop `el`, and push its parents with its flags masked, stale from a result
on; a first result is recorded. -/
theorem walkStep_spec {store : List Commit} {pq pq' : PriorityQueue} {res res' : List Commit}
    (h : walkStep store pq res = some (pq', res')) :
    ∃ el rest ps, heapPop pq = some (el, rest) ∧ getParents store el.value = some ps ∧
      let f := el.flags &&& (markParent1 ||| markParent2 ||| markStale)
      pq' = ps.foldl (fun pq p =>
        heapPush pq (markCommit p (if f = markParent1 ||| markParent2 then f ||| markStale else f)))
        rest ∧
      res' = if f = markParent1 ||| markParent2 ∧ el.flags &&& markResult = 0 then
        res ++ [el.value] else res := by
  unfold walkStep at h
  rcases hp : heapPop pq with _ | ⟨el, rest⟩ <;> simp only [hp] at h
  · cases h
  rcases hg : getParents store el.value with _ | ps <;> simp [hg] at h
  refine ⟨el, rest, ps, rfl, hg, ?_⟩
  obtain ⟨rfl, rfl⟩ := h
  by_cases hf : el.flags &&& (markParent1 ||| markParent2 ||| markStale) =
    markParent1 ||| markParent2 <;> simp [hf]

theorem getCommit_mem {store : List Commit} {h : Nat} {c : Commit}
    (hc : getCommit store h = some c) : c ∈ store ∧ c.hash = h :=
  ⟨List.mem_of_find?_eq_some hc, by simpa using List.find?_some hc⟩

/-- `getParents` returns commits of the store, one for each parent hash, in order. -/
theorem getParents_spec {store : List Commit} :
    ∀ {hs : List Nat} {ps : List Commit}, hs.mapM (getCommit store) = some ps →
      ps.map (·.hash) = hs ∧ ∀ p ∈ ps, p ∈ store
  | [], ps, h => by rw [List.mapM_nil] at h; cases h; simp
  | h0 :: hs, ps, h => by
    simp only [List.mapM_cons, Option.bind_eq_bind, Option.bind_eq_some, Option.pure_def,
      Option.some.injEq] at h
    obtain ⟨p0, hp0, ps', hps', rfl⟩ := h
    obtain ⟨hmap, hmem⟩ := getParents_spec hps'
    exact ⟨by simp [hmap, (getCommit_mem hp0).2],
      List.forall_mem_cons.2 ⟨(getCommit_mem hp0).1, hmem⟩⟩

/-! ## The loop ends -/

/-- Every queued commit is in the store. -/
def InStore (store : List Commit) (pq : PriorityQueue) : Prop := ∀ e ∈ pq, e.value ∈ store

section termination
variable {store : List Commit} {w : Nat → Nat} {pq pq' : PriorityQueue} {res res' : List Commit}

theorem inStore_walkStep (h : walkStep store pq res = some (pq', res')) (hin : InStore store pq) :
    InStore store pq' := by
  obtain ⟨el, rest, ps, hp, hg, rfl, -⟩ := walkStep_spec h
  exact forall_mem_pushParents (fun e => e.value ∈ store) (fun _ _ h _ _ => h) _ ps rest
    (fun e he => hin e ((heapPop_perm hp).subset (.tail _ he))) (getParents_spec hg).2

/-- An iteration lowers the weight when a commit outweighs its parents together. -/
theorem weight_walkStep (hdec : ∀ c ∈ store, (c.parentHashes.map w).sum < w c.hash)
    (h : walkStep store pq res = some (pq', res')) (hin : InStore store pq) :
    weight w pq' < weight w pq := by
  obtain ⟨el, rest, ps, hp, hg, rfl, -⟩ := walkStep_spec h
  have hperm := heapPop_perm hp
  have hpar : (ps.map fun p => w p.hash).sum < w el.value.hash := by
    have := hdec el.value (hin el (hperm.subset (.head _)))
    rwa [← (getParents_spec hg).1, List.map_map] at this
  refine (weight_pushParents _ ps rest).trans_lt ?_
  rw [← weight_perm hperm]
  simp only [weight, List.map_cons, List.sum_cons]
  omega

/-- An iteration happens whenever the queue is interesting. -/
theorem walkStep_isSome (hcl : ∀ c ∈ store, (getParents store c).isSome)
    (hin : InStore store pq) (hi : pq.interesting) : (walkStep store pq res).isSome := by
  have hne : pq ≠ [] := by rintro rfl; simp [PriorityQueue.interesting] at hi
  obtain ⟨⟨el, rest⟩, hp⟩ := Option.isSome_iff_exists.1 (heapPop_isSome hne)
  obtain ⟨ps, hg⟩ := Option.isSome_iff_exists.1
    (hcl el.value (hin el ((heapPop_perm hp).subset (.head _))))
  simp [walkStep, hp, hg]

/-- With fuel above the weight, the loop ends. -/
theorem walkLoop_isSome (hcl : ∀ c ∈ store, (getParents store c).isSome)
    (hdec : ∀ c ∈ store, (c.parentHashes.map w).sum < w c.hash) :
    ∀ (fuel : Nat) (pq : PriorityQueue) (res : List Commit), InStore store pq →
      weight w pq < fuel → (walkLoop store fuel pq res).isSome
  | 0, _, _, _, h => absurd h (Nat.not_lt_zero _)
  | fuel + 1, pq, res, hin, hlt => by
    rw [walkLoop_succ]
    split
    · obtain ⟨⟨pq', res'⟩, hs⟩ := Option.isSome_iff_exists.1 
        (walkStep_isSome hcl hin ‹_› : (walkStep store pq res).isSome)
      simp only [hs, Option.bind_eq_bind, Option.some_bind]
      exact walkLoop_isSome hcl hdec fuel pq' res' (inStore_walkStep hs hin)
        (by have := weight_walkStep hdec hs hin; omega)
    · rfl

end termination

/-! ## Commit graphs -/

/-- A commit graph: each hash names one commit of the store, every parent is in the store, and
no commit is an ancestor of one of its parents. -/
structure CommitGraph (store : List Commit) : Prop where
  nodup : (store.map (·.hash)).Nodup
  closed : ∀ c ∈ store, ∀ h ∈ c.parentHashes, ∃ p ∈ store, p.hash = h
  acyclic : ∀ c ∈ store, ∀ p ∈ store, p.hash ∈ c.parentHashes → ¬ Reaches store p c

section graph
variable {store : List Commit}

theorem getCommit_isSome {p : Commit} (hp : p ∈ store) : (getCommit store p.hash).isSome :=
  List.find?_isSome.2 ⟨p, hp, by simp⟩

theorem getCommit_of_mem (hnd : (store.map (·.hash)).Nodup) {p : Commit} (hp : p ∈ store) :
    getCommit store p.hash = some p := by
  obtain ⟨q, hq⟩ := Option.isSome_iff_exists.1 (getCommit_isSome hp)
  obtain ⟨hqs, hqh⟩ := getCommit_mem hq
  rwa [List.inj_on_of_nodup_map hnd hqs hp hqh] at hq

/-- `getParents` finds the parents of a commit when the store holds them. -/
theorem getParents_isSome :
    ∀ {hs : List Nat}, (∀ h ∈ hs, ∃ p ∈ store, p.hash = h) →
      (hs.mapM (getCommit store)).isSome
  | [], _ => rfl
  | h :: hs, hcl => by
    obtain ⟨p, hp, rfl⟩ := hcl h (.head _)
    obtain ⟨q, hq⟩ := Option.isSome_iff_exists.1 (getCommit_isSome hp)
    obtain ⟨qs, hqs⟩ :=
      Option.isSome_iff_exists.1 (getParents_isSome fun h' hh => hcl h' (.tail _ hh))
    simp only [List.mapM_cons, hq, hqs, Option.bind_eq_bind, Option.some_bind]
    rfl

/-- Along parent edges a rank that drops from each commit to its parents drops strictly, or
the walk is empty. -/
theorem Reaches.eq_or_rank_lt {rank : Nat → Nat}
    (hr : ∀ c ∈ store, ∀ h ∈ c.parentHashes, rank h < rank c.hash) {c d : Commit}
    (h : Reaches store c d) (hc : c ∈ store) : d = c ∨ rank d.hash < rank c.hash := by
  induction h with
  | refl => exact .inl rfl
  | parent hp hh _ ih =>
    have := hr _ hc _ hh
    rcases ih hp with rfl | h <;> exact .inr (by omega)

theorem countP_lt_of_imp {α : Type} {p q : α → Bool} :
    ∀ {l : List α}, (∀ x ∈ l, p x → q x) → (∃ x ∈ l, q x ∧ ¬ p x) →
      l.countP p < l.countP q
  | [], _, ⟨_, hx, _⟩ => absurd hx (List.not_mem_nil _)
  | a :: l, h, ⟨x, hx, hqx, hpx⟩ => by
    have hmono := List.countP_mono_left fun y hy => h y (.tail _ hy)
    have ha := h a (.head _)
    rw [List.countP_cons, List.countP_cons]
    rcases List.mem_cons.1 hx with rfl | hx
    · rw [if_neg hpx, if_pos hqx]; omega
    · have := countP_lt_of_imp (fun y hy => h y (.tail _ hy)) ⟨x, hx, hqx, hpx⟩
      by_cases hpa : p a = true
      · rw [if_pos hpa, if_pos (ha hpa)]; omega
      · rw [if_neg hpa]; split_ifs <;> omega

/-- A commit graph is ranked: counting each commit's ancestors numbers it above its parents. -/
theorem CommitGraph.exists_rank (hg : CommitGraph store) :
    ∃ rank : Nat → Nat, ∀ c ∈ store, ∀ h ∈ c.parentHashes, rank h < rank c.hash := by
  classical
  let anc (c : Commit) : Nat := store.countP fun d => decide (Reaches store c d)
  refine ⟨fun h => ((getCommit store h).map anc).getD 0, fun c hc h hh => ?_⟩
  obtain ⟨p, hp, rfl⟩ := hg.closed c hc h hh
  simp only [getCommit_of_mem hg.nodup hp, getCommit_of_mem hg.nodup hc, Option.map_some',
    Option.getD_some]
  exact countP_lt_of_imp (fun d _ hd => by simpa using Reaches.parent hp hh (by simpa using hd))
    ⟨c, hc, by simpa using Reaches.refl c, by simpa using hg.acyclic c hc p hp hh⟩

/-- A store whose parents have smaller hashes is acyclic. -/
theorem CommitGraph.of_hashOrdered (hnd : (store.map (·.hash)).Nodup)
    (hcl : ∀ c ∈ store, ∀ h ∈ c.parentHashes, ∃ p ∈ store, p.hash = h)
    (ho : HashOrdered store) : CommitGraph store :=
  ⟨hnd, hcl, fun c hc p hp hh hr => by
    have := ho c hc p.hash hh
    rcases hr.eq_or_rank_lt ho hp with rfl | h
    · exact absurd this (Nat.lt_irrefl _)
    · exact absurd (show c.hash < p.hash from h) (by omega)⟩

/-- Powers of `D + 1` below `r`, at most `D` of them, sum below `(D + 1) ^ r`. -/
theorem sum_pow_lt {D r : Nat} :
    ∀ {l : List Nat}, l.length ≤ D → (∀ x ∈ l, x < r) →
      (l.map ((D + 1) ^ ·)).sum < (D + 1) ^ r
  | [], _, _ => by simp
  | x :: l, hl, hs => by
    obtain ⟨k, rfl⟩ : ∃ k, r = k + 1 := ⟨r - 1, by have := hs x (.head _); omega⟩
    have hle : ∀ y ∈ (x :: l).map ((D + 1) ^ ·), y ≤ (D + 1) ^ k := by
      simp only [List.mem_map]
      rintro _ ⟨y, hy, rfl⟩
      exact Nat.pow_le_pow_right (Nat.succ_pos D) (by have := hs y hy; omega)
    calc ((x :: l).map ((D + 1) ^ ·)).sum ≤ (x :: l).length * (D + 1) ^ k := by
          simpa using List.sum_le_card_nsmul _ _ hle
      _ ≤ D * (D + 1) ^ k := Nat.mul_le_mul_right _ hl
      _ < (D + 1) * (D + 1) ^ k := Nat.mul_lt_mul_of_pos_right (Nat.lt_succ_self D)
          (Nat.pos_pow_of_pos k (Nat.succ_pos D))
      _ = (D + 1) ^ (k + 1) := by rw [pow_succ, mul_comm]

/-- The weight of a hash for a rank: `(D + 1) ^ rank`, with `D` the number of parent edges. -/
def rankWeight (store : List Commit) (rank : Nat → Nat) (h : Nat) : Nat :=
  ((store.map (·.parentHashes.length)).sum + 1) ^ rank h

/-- Under a rank, a commit outweighs its parents together. -/
theorem rankWeight_parents {rank : Nat → Nat}
    (hr : ∀ c ∈ store, ∀ h ∈ c.parentHashes, rank h < rank c.hash) :
    ∀ c ∈ store,
      (c.parentHashes.map (rankWeight store rank)).sum < rankWeight store rank c.hash := by
  intro c hc
  have hlen : (c.parentHashes.map rank).length ≤ (store.map (·.parentHashes.length)).sum := by
    simpa using List.le_sum_of_mem (List.mem_map_of_mem (·.parentHashes.length) hc)
  have := sum_pow_lt hlen (by simpa using hr c hc)
  simpa [List.map_map, rankWeight] using this

end graph

/-- On a commit graph, the loop of `getCommonParents` ends: some fuel suffices for every pair of
its commits, however often a popped commit is pushed again. -/
theorem getCommonParents_terminates {store : List Commit} (hg : CommitGraph store) :
    ∃ B, ∀ c1 ∈ store, ∀ c2 ∈ store, ∀ fuel, B ≤ fuel →
      (getCommonParents store c1 c2 fuel).isSome := by
  obtain ⟨rank, hr⟩ := hg.exists_rank
  refine ⟨2 * (store.map fun c => rankWeight store rank c.hash).sum + 1,
    fun c1 h1 c2 h2 fuel hf => ?_⟩
  have hin : InStore store (heapPush (heapPush [] (markCommit c1 markParent1))
      (markCommit c2 markParent2)) :=
    forall_mem_heapPush _ (fun _ _ h _ _ => h) (forall_mem_heapPush _ (fun _ _ h _ _ => h)
      (fun _ h => absurd h (List.not_mem_nil _)) h1) h2
  have hweight := (weight_heapPush (w := rankWeight store rank) _ (markCommit c2 markParent2)).trans
    (Nat.add_le_add_right (weight_heapPush [] (markCommit c1 markParent1)) _)
  have hw1 := List.le_sum_of_mem (List.mem_map_of_mem (fun c => rankWeight store rank c.hash) h1)
  have hw2 := List.le_sum_of_mem (List.mem_map_of_mem (fun c => rankWeight store rank c.hash) h2)
  simp only [weight, List.map_nil, List.sum_nil, markCommit] at hweight hw1 hw2
  exact walkLoop_isSome (fun c hc => getParents_isSome (hg.closed c hc)) (rankWeight_parents hr)
    fuel _ [] hin (by unfold weight markCommit; omega)

/-! ## What the loop returns -/

theorem Reaches.trans {store : List Commit} {c d e : Commit} (h : Reaches store c d)
    (h' : Reaches store d e) : Reaches store c e := by
  induction h with
  | refl => exact h'
  | parent hp hh _ ih => exact .parent hp hh (ih h')

/-- `c` reaches a parent of a commit it reaches. -/
theorem Reaches.tail {store : List Commit} {c d p : Commit} (h : Reaches store c d)
    (hp : p ∈ store) (hh : p.hash ∈ d.parentHashes) : Reaches store c p :=
  h.trans (.parent hp hh (.refl p))

theorem testBit_or (a b : UInt32) (k : Nat) :
    (a ||| b).toNat.testBit k = (a.toNat.testBit k || b.toNat.testBit k) := by
  rw [show (a ||| b).toNat = a.toNat ||| b.toNat from BitVec.toNat_or .., Nat.testBit_or]

theorem testBit_and (a b : UInt32) (k : Nat) :
    (a &&& b).toNat.testBit k = (a.toNat.testBit k && b.toNat.testBit k) := by
  rw [UInt32.and_toNat, Nat.testBit_and]

/-- Bits 1 and 2 are the two sides' marks: set in the mask of `getCommonParents` and in the
mark of a result, clear in `markStale`. -/
theorem testBit_marks {k : Nat} (hk : k = 1 ∨ k = 2) :
    (markParent1 ||| markParent2 ||| markStale).toNat.testBit k = true ∧
      (markParent1 ||| markParent2).toNat.testBit k = true ∧
        markStale.toNat.testBit k = false := by
  rcases hk with rfl | rfl <;> decide

/-- The flags a popped entry gives its parents keep its two sides' bits. -/
theorem testBit_parentFlags (flags : UInt32) {k : Nat} (hk : k = 1 ∨ k = 2) :
    (if flags &&& (markParent1 ||| markParent2 ||| markStale) = markParent1 ||| markParent2 then
      flags &&& (markParent1 ||| markParent2 ||| markStale) ||| markStale
      else flags &&& (markParent1 ||| markParent2 ||| markStale)).toNat.testBit k =
      flags.toNat.testBit k := by
  obtain ⟨hm, -, hs⟩ := testBit_marks hk
  split_ifs <;> simp only [testBit_or, testBit_and, hm, hs, Bool.and_true, Bool.or_false]

/-- An entry whose masked flags are both sides' marks carries both bits. -/
theorem testBit_of_both {flags : UInt32}
    (hf : flags &&& (markParent1 ||| markParent2 ||| markStale) = markParent1 ||| markParent2)
    {k : Nat} (hk : k = 1 ∨ k = 2) : flags.toNat.testBit k = true := by
  obtain ⟨hm, hpp, -⟩ := testBit_marks hk
  simpa only [testBit_and, hm, hpp, Bool.and_true] using
    congrArg (fun f : UInt32 => f.toNat.testBit k) hf

section sound
variable (store : List Commit) (c1 c2 : Commit)

/-- A queued entry's commit is in the store and reached from each side whose bit it carries. -/
def Sound (e : PrioritizedCommit) : Prop :=
  e.value ∈ store ∧ (e.flags.toNat.testBit 1 → Reaches store c1 e.value) ∧
    (e.flags.toNat.testBit 2 → Reaches store c2 e.value)

/-- A result is a common ancestor in the store. -/
def Found (x : Commit) : Prop := x ∈ store ∧ IsCommonAncestor store c1 c2 x

variable {store c1 c2} (hnd : (store.map (·.hash)).Nodup)
include hnd

theorem sound_merge (el x : PrioritizedCommit) (hel : Sound store c1 c2 el)
    (hx : Sound store c1 c2 x) (hh : el.value.hash = x.value.hash) :
    Sound store c1 c2 { el with flags := el.flags ||| x.flags } := by
  have he : x.value = el.value := List.inj_on_of_nodup_map hnd hx.1 hel.1 hh.symm
  refine ⟨hel.1, fun h => ?_, fun h => ?_⟩ <;> simp only [testBit_or, Bool.or_eq_true] at h
  · exact h.elim hel.2.1 fun h => he ▸ hx.2.1 h
  · exact h.elim hel.2.2 fun h => he ▸ hx.2.2 h

theorem sound_walkStep {pq pq' : PriorityQueue} {res res' : List Commit}
    (h : walkStep store pq res = some (pq', res')) (hpq : ∀ e ∈ pq, Sound store c1 c2 e)
    (hres : ∀ x ∈ res, Found store c1 c2 x) :
    (∀ e ∈ pq', Sound store c1 c2 e) ∧ ∀ x ∈ res', Found store c1 c2 x := by
  obtain ⟨el, rest, ps, hp, hg, rfl, rfl⟩ := walkStep_spec h
  have hperm := heapPop_perm hp
  obtain ⟨hmem, h1, h2⟩ := hpq el (hperm.subset (.head _))
  refine ⟨forall_mem_pushParents _ (sound_merge hnd) _ ps rest
    (fun e he => hpq e (hperm.subset (.tail _ he))) fun p hp' => ?_, ?_⟩
  · have hps := (getParents_spec hg).2 p hp'
    have hh : p.hash ∈ el.value.parentHashes :=
      (getParents_spec hg).1 ▸ List.mem_map_of_mem _ hp'
    refine ⟨hps, fun hb => (h1 ?_).tail hps hh, fun hb => (h2 ?_).tail hps hh⟩
    · simpa only [markCommit, testBit_parentFlags _ (.inl rfl)] using hb
    · simpa only [markCommit, testBit_parentFlags _ (.inr rfl)] using hb
  · split_ifs with hf
    · intro x hx
      rcases List.mem_append.1 hx with hx | hx
      · exact hres x hx
      · obtain rfl := List.mem_singleton.1 hx
        exact ⟨hmem, h1 (testBit_of_both hf.1 (.inl rfl)), h2 (testBit_of_both hf.1 (.inr rfl))⟩
    · exact hres

theorem walkLoop_sound : ∀ {fuel : Nat} {pq : PriorityQueue} {res r : List Commit},
    walkLoop store fuel pq res = some r → (∀ e ∈ pq, Sound store c1 c2 e) →
      (∀ x ∈ res, Found store c1 c2 x) → ∀ x ∈ r, Found store c1 c2 x
  | 0, _, _, _, h, _, _ => by cases h
  | fuel + 1, pq, res, r, h, hpq, hres => by
    rw [walkLoop_succ] at h
    split at h
    · rcases hs : walkStep store pq res with _ | ⟨pq', res'⟩ <;>
        simp only [hs, Option.bind_eq_bind, Option.none_bind, Option.some_bind] at h
      · cases h
      · obtain ⟨hpq', hres'⟩ := sound_walkStep hnd hs hpq hres
        exact walkLoop_sound h hpq' hres'
    · exact Option.some.inj h ▸ hres

/-- What `getCommonParents` returns are common ancestors of the two commits. -/
theorem getCommonParents_sound (h1 : c1 ∈ store) (h2 : c2 ∈ store) {fuel : Nat}
    {r : List Commit} (h : getCommonParents store c1 c2 fuel = some r) :
    ∀ x ∈ r, Found store c1 c2 x := by
  refine walkLoop_sound hnd h (forall_mem_heapPush _ (sound_merge hnd)
    (forall_mem_heapPush _ (sound_merge hnd) (fun _ h => absurd h (List.not_mem_nil _))
      ⟨h1, fun _ => .refl _, fun h => absurd h (by decide : ¬ markParent1.toNat.testBit 2)⟩)
    ⟨h2, fun h => absurd h (by decide : ¬ markParent2.toNat.testBit 1), fun _ => .refl _⟩)
    fun _ h => absurd h (List.not_mem_nil _)

end sound

/-- A queue whose entries are all stale is not interesting. -/
theorem interesting_eq_false {pq : PriorityQueue}
    (h : ∀ e ∈ pq, e.flags.toNat.testBit 3 = true) : pq.interesting = false := by
  simp only [PriorityQueue.interesting, List.any_eq_false, beq_iff_eq]
  intro e he h0
  have := congrArg (fun f : UInt32 => f.toNat.testBit 3) h0
  simp only [testBit_and, h e he, show markStale.toNat.testBit 3 = true by decide] at this
  exact absurd this (by decide)

/-- From one commit on both sides, the loop returns that commit, once. -/
theorem getCommonParents_self {store : List Commit} {c : Commit} {ps : List Commit}
    (hps : getParents store c = some ps) (fuel : Nat) :
    getCommonParents store c c (fuel + 2) = some [c] := by
  let e : PrioritizedCommit := ⟨c, markParent1 ||| markParent2, c.authorWhen⟩
  have hq : heapPush (heapPush [] (markCommit c markParent1)) (markCommit c markParent2) = [e] := by
    simp [e, heapPush, PriorityQueue.push, orFlags, up, upLoop, markCommit]
  have hpop : heapPop [e] = some (e, []) := by
    simp [heapPop, PriorityQueue.swap, down, downLoop, PriorityQueue.pop]
  have hstep : walkStep store [e] [] = some
      (ps.foldl (fun pq p =>
        heapPush pq (markCommit p (markParent1 ||| markParent2 ||| markStale))) [], [c]) := by
    simp [walkStep, hpop, hps, e, show (markParent1 ||| markParent2) &&& (markParent1 |||
      markParent2 ||| markStale) = markParent1 ||| markParent2 by decide,
      show (markParent1 ||| markParent2) &&& markResult = 0 by decide]
  have hstale := forall_mem_pushParents (fun e => e.flags.toNat.testBit 3 = true)
    (fun _ _ h _ _ => by simp [testBit_or, h]) (markParent1 ||| markParent2 ||| markStale) ps []
    (fun _ h => absurd h (List.not_mem_nil _)) fun _ _ =>
      show (markParent1 ||| markParent2 ||| markStale).toNat.testBit 3 = true by decide
  rw [getCommonParents, hq, walkLoop_succ,
    if_pos (by simp [e, PriorityQueue.interesting]; decide), hstep]
  simp only [Option.bind_eq_bind, Option.some_bind]
  rw [walkLoop_succ, if_neg (by simp only [interesting_eq_false hstale]; decide)]

/-- **The walk is totally correct on a commit graph**: past one bound on the fuel, for every two
commits of the store it returns, and what it returns are common ancestors in the store; from one
commit on both sides, that commit alone. -/
theorem getCommonParents_correct {store : List Commit} (hg : CommitGraph store) :
    ∃ B, ∀ c1 ∈ store, ∀ c2 ∈ store, ∀ fuel, B ≤ fuel → ∃ r,
      getCommonParents store c1 c2 fuel = some r ∧ (∀ x ∈ r, Found store c1 c2 x) ∧
        (c1 = c2 → r = [c1]) := by
  obtain ⟨B, hB⟩ := getCommonParents_terminates hg
  refine ⟨max B 2, fun c1 h1 c2 h2 fuel hf => ?_⟩
  obtain ⟨r, hr⟩ :=
    Option.isSome_iff_exists.1 (hB c1 h1 c2 h2 fuel ((le_max_left B 2).trans hf))
  refine ⟨r, hr, getCommonParents_sound hg.nodup h1 h2 hr, ?_⟩
  rintro rfl
  obtain ⟨ps, hps⟩ := Option.isSome_iff_exists.1 (getParents_isSome (hg.closed c1 h1))
  obtain ⟨k, rfl⟩ : ∃ k, fuel = k + 2 :=
    ⟨fuel - 2, by have := (le_max_right B 2).trans hf; omega⟩
  exact Option.some.inj (hr.symm.trans (getCommonParents_self hps k))

theorem tieStore_getCommonParents_correct : CommitGraph tieStore ∧
    ∃ B, ∀ c1 ∈ tieStore, ∀ c2 ∈ tieStore, ∀ fuel, B ≤ fuel → ∃ r,
      getCommonParents tieStore c1 c2 fuel = some r ∧ (∀ x ∈ r, Found tieStore c1 c2 x) ∧
        (c1 = c2 → r = [c1]) :=
  have hg : CommitGraph tieStore := .of_hashOrdered (by decide) (by decide) (by decide)
  ⟨hg, getCommonParents_correct hg⟩

end MergeCore
