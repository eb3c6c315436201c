import Mathlib.Data.List.Nodup
import MergeCore.Walker.Termination

/-!
# The queue of `getCommonParents` stays a heap of distinct commits

`getCommonParents` changes its queue only through `heap.Push` and `heap.Pop`. Over every sequence
of these calls from the empty queue (`HeapRun`), the queue holds no two entries of one commit and
is a max-heap on priority (`QueueInv`, `heapRun_queueInv`):

* when the pushed commit is queued, `Push` ORs the flags into the queued entry and appends
  nothing; `heap.Push` then sifts up the last entry, which is in place already, so the call
  changes the flags of that one entry and nothing else (`heapPush_of_orFlags`);
* otherwise `Push` appends, and `up` restores the heap (`upLoop_heap`, from `UpInv`: a heap but
  for the edge above the moving entry);
* `heap.Pop` swaps the root to the end and `down` restores the heap on the entries before it
  (`downLoop_heap`, from `DownInv`), so the entry it returns is the root, of the latest priority
  in the queue (`heapPop_spec`, `pri_le_root`).

Priorities are read by index through `pri`.
-/

namespace MergeCore

/-! ## Priorities by index -/

/-- The priority of entry `i`, `0` past the end. -/
def pri (q : PriorityQueue) (i : Nat) : Int := (q[i]?.map (·.priority)).getD 0

/-- The first `n` entries form a max-heap on priority: none is later than its parent. -/
def HeapUpTo (q : PriorityQueue) (n : Nat) : Prop :=
  ∀ c, c < n → 0 < c → pri q c ≤ pri q ((c - 1) / 2)

/-- The queue is a max-heap on priority: `Less` holds of no entry and its parent. -/
def HeapOrdered (q : PriorityQueue) : Prop := HeapUpTo q q.length

/-- The queue's invariant: no two entries of one commit, and a max-heap on priority. -/
structure QueueInv (q : PriorityQueue) : Prop where
  nodup : (q.map (·.value.hash)).Nodup
  heap : HeapOrdered q

theorem pri_of_lt {q : PriorityQueue} {i : Nat} (h : i < q.length) : pri q i = q[i].priority := by
  simp [pri, List.getElem?_eq_getElem h]

theorem pri_congr {q q' : PriorityQueue} (h : q.map (·.priority) = q'.map (·.priority)) :
    pri q = pri q' := by
  funext i
  simp only [pri, ← List.getElem?_map, h]

@[simp] theorem length_swap (q : PriorityQueue) (i j : Nat) : (q.swap i j).length = q.length := by
  unfold PriorityQueue.swap; split <;> simp

section swap
variable {q : PriorityQueue} {i j : Nat} (hi : i < q.length) (hj : j < q.length)
include hi hj

theorem getElem?_swap (k : Nat) :
    (q.swap i j)[k]? = if k = j then q[i]? else if k = i then q[j]? else q[k]? := by
  rw [PriorityQueue.swap, List.getElem?_eq_getElem hi, List.getElem?_eq_getElem hj]
  simp only [List.getElem?_set, List.length_set, hi, hj, if_true]
  by_cases hkj : k = j
  · subst hkj; simp [List.getElem?_eq_getElem hi]
  · by_cases hki : k = i
    · subst hki; simp [hkj, Ne.symm hkj, List.getElem?_eq_getElem hj]
    · simp [Ne.symm hkj, Ne.symm hki, hkj, hki]

theorem pri_swap (k : Nat) :
    pri (q.swap i j) k = if k = j then pri q i else if k = i then pri q j else pri q k := by
  simp only [pri, getElem?_swap hi hj]
  split_ifs <;> rfl

theorem less_eq : q.less i j = decide (pri q j < pri q i) := by
  simp [PriorityQueue.less, List.getElem?_eq_getElem hi, List.getElem?_eq_getElem hj,
    pri_of_lt hi, pri_of_lt hj]

end swap

/-- The root of a heap is no earlier than any entry. -/
theorem pri_le_root {q : PriorityQueue} {n : Nat} (h : HeapUpTo q n) (k : Nat) (hk : k < n) :
    pri q k ≤ pri q 0 := by
  induction k using Nat.strong_induction_on with
  | _ k ih =>
    rcases Nat.eq_zero_or_pos k with rfl | hk0
    · exact le_rfl
    · exact (h k hk hk0).trans (ih _ (by omega) (by omega))

/-! ## `up` -/

theorem upLoop_succ (fuel : Nat) (q : PriorityQueue) (j : Nat) : upLoop (fuel + 1) q j =
    if (j - 1) / 2 = j ∨ !q.less j ((j - 1) / 2) then q
    else upLoop fuel (q.swap ((j - 1) / 2) j) ((j - 1) / 2) := rfl

/-- What `up` works on: a heap but for the edge from `j` to its parent, with `j`'s children no
later than that parent. -/
structure UpInv (q : PriorityQueue) (j : Nat) : Prop where
  lt : j < q.length
  edges : ∀ c, c < q.length → 0 < c → c ≠ j → pri q c ≤ pri q ((c - 1) / 2)
  skip : ∀ c, c < q.length → 0 < c → (c - 1) / 2 = j → 0 < j → pri q c ≤ pri q ((j - 1) / 2)

/-- Swapping an entry later than its parent moves the break one edge up. -/
theorem UpInv.swap {q : PriorityQueue} {j : Nat} (h : UpInv q j) (hj : 0 < j)
    (hlt : pri q ((j - 1) / 2) < pri q j) : UpInv (q.swap ((j - 1) / 2) j) ((j - 1) / 2) := by
  have hpj : (j - 1) / 2 < j := by omega
  have hp : (j - 1) / 2 < q.length := hpj.trans h.lt
  have hs := pri_swap hp h.lt
  refine ⟨by simpa using hp, fun c hc hc0 hcp => ?_, fun c hc hc0 hcp hp0 => ?_⟩ <;>
    rw [length_swap] at hc <;> rw [hs, hs]
  · by_cases hcj : c = j
    · subst hcj
      simpa [hpj.ne] using hlt.le
    · rw [if_neg hcj, if_neg hcp]
      by_cases hpc : (c - 1) / 2 = j
      · rw [if_pos hpc]
        exact h.skip c hc hc0 hpc hj
      · rw [if_neg hpc]
        by_cases hpp : (c - 1) / 2 = (j - 1) / 2
        · rw [if_pos hpp]
          exact (hpp ▸ h.edges c hc hc0 hcj).trans hlt.le
        · rw [if_neg hpp]
          exact h.edges c hc hc0 hcj
  · have hedge := h.edges _ hp hp0 hpj.ne
    rw [if_neg (show ((j - 1) / 2 - 1) / 2 ≠ j by omega),
      if_neg (show ((j - 1) / 2 - 1) / 2 ≠ (j - 1) / 2 by omega)]
    by_cases hcj : c = j
    · rw [if_pos hcj]
      exact hedge
    · rw [if_neg hcj, if_neg (by omega)]
      exact (hcp ▸ h.edges c hc hc0 hcj).trans hedge

/-- From `UpInv`, `up` with more iterations than the index makes a heap. -/
theorem upLoop_heap : ∀ (fuel : Nat) (q : PriorityQueue) (j : Nat), j < fuel → UpInv q j →
    HeapOrdered (upLoop fuel q j)
  | 0, _, _, hf, _ => absurd hf (Nat.not_lt_zero _)
  | fuel + 1, q, j, hf, h => by
    rw [upLoop_succ, less_eq h.lt (by have := h.lt; omega)]
    split_ifs with hstop
    · intro c hc hc0
      by_cases hcj : c = j
      · subst hcj
        rcases hstop with h0 | hle
        · omega
        · simpa using hle
      · exact h.edges c hc hc0 hcj
    · obtain ⟨h0, hlt⟩ := not_or.1 hstop
      exact upLoop_heap fuel _ _ (by omega) (h.swap (by omega) (by simpa using hlt))

/-- On a heap, `up` stops at once. -/
theorem upLoop_of_heapOrdered {q : PriorityQueue} (h : HeapOrdered q) :
    ∀ (fuel j : Nat), upLoop fuel q j = q
  | 0, _ => rfl
  | fuel + 1, j => by
    rw [upLoop_succ, if_pos]
    rcases Nat.eq_zero_or_pos j with rfl | hj0
    · exact .inl rfl
    · refine .inr ?_
      by_cases hj : j < q.length
      · rw [less_eq hj (by omega), decide_eq_false (not_lt.2 (h j hj hj0))]
        rfl
      · simp [PriorityQueue.less, List.getElem?_eq_none (not_lt.1 hj)]

/-! ## `down` -/

/-- The child `down` moves to from `i`: the right one when it is below `n` and later than the
left one. -/
def downChild (q : PriorityQueue) (n i : Nat) : Nat :=
  if 2 * i + 1 + 1 < n ∧ q.less (2 * i + 1 + 1) (2 * i + 1) then 2 * i + 1 + 1 else 2 * i + 1

theorem downLoop_succ (n fuel : Nat) (q : PriorityQueue) (i : Nat) : downLoop n (fuel + 1) q i =
    if n ≤ 2 * i + 1 then q
    else if !q.less (downChild q n i) i then q
    else downLoop n fuel (q.swap i (downChild q n i)) (downChild q n i) := rfl

/-- What `down` works on, over the first `n` entries: a heap but for the edges from `i` to its
children, with those children no later than `i`'s parent. -/
structure DownInv (q : PriorityQueue) (n i : Nat) : Prop where
  le : n ≤ q.length
  edges : ∀ c, c < n → 0 < c → (c - 1) / 2 ≠ i → pri q c ≤ pri q ((c - 1) / 2)
  skip : ∀ c, c < n → 0 < c → (c - 1) / 2 = i → 0 < i → pri q c ≤ pri q ((i - 1) / 2)

/-- `downChild` is a child of `i` below `n`, and no child of `i` below `n` is later. -/
theorem downChild_spec {q : PriorityQueue} {n i : Nat} (hn : n ≤ q.length) (hi : 2 * i + 1 < n) :
    (downChild q n i - 1) / 2 = i ∧ i < downChild q n i ∧ downChild q n i < n ∧
      ∀ c, c < n → 0 < c → (c - 1) / 2 = i → pri q c ≤ pri q (downChild q n i) := by
  unfold downChild
  split_ifs with h
  · rw [less_eq (i := 2 * i + 1 + 1) (j := 2 * i + 1) (by omega) (by omega),
      decide_eq_true_eq] at h
    refine ⟨by omega, by omega, h.1, fun c hc hc0 hpc => ?_⟩
    rcases (show c = 2 * i + 1 ∨ c = 2 * i + 1 + 1 by omega) with rfl | rfl
    · exact h.2.le
    · exact le_rfl
  · refine ⟨by omega, by omega, hi, fun c hc hc0 hpc => ?_⟩
    rcases (show c = 2 * i + 1 ∨ c = 2 * i + 1 + 1 by omega) with rfl | rfl
    · exact le_rfl
    · rw [less_eq (i := 2 * i + 1 + 1) (j := 2 * i + 1) (by omega) (by omega)] at h
      simpa [hc] using h

/-- Swapping `i` with a later child no earlier than its sibling moves the break one edge down. -/
theorem DownInv.swap {q : PriorityQueue} {n i j : Nat} (h : DownInv q n i) (hji : (j - 1) / 2 = i)
    (hij : i < j) (hjn : j < n) (hlt : pri q i < pri q j)
    (hbig : ∀ c, c < n → 0 < c → (c - 1) / 2 = i → pri q c ≤ pri q j) :
    DownInv (q.swap i j) n j := by
  have hjl : j < q.length := hjn.trans_le h.le
  have hs := pri_swap (hij.trans hjl) hjl
  refine ⟨by simpa using h.le, fun c hc hc0 hpc => ?_, fun c hc hc0 hpc hj0 => ?_⟩ <;> rw [hs, hs]
  · by_cases hcj : c = j
    · subst hcj
      simpa [hji, hij.ne] using hlt.le
    · rw [if_neg hcj, if_neg hpc]
      by_cases hci : c = i
      · have hpi : (c - 1) / 2 < i := by omega
        rw [if_pos hci, if_neg hpi.ne, hci]
        exact h.skip j hjn (by omega) hji (by omega)
      · rw [if_neg hci]
        by_cases hpci : (c - 1) / 2 = i
        · rw [if_pos hpci]
          exact hbig c hc hc0 hpci
        · rw [if_neg hpci]
          exact h.edges c hc hc0 hpci
  · rw [hji, if_neg (by omega), if_neg (by omega), if_neg hij.ne, if_pos rfl]
    exact hpc ▸ h.edges c hc hc0 (by omega)

/-- From `DownInv`, `down` with at least `n - i` iterations makes the first `n` entries a heap. -/
theorem downLoop_heap (n : Nat) : ∀ (fuel : Nat) (q : PriorityQueue) (i : Nat), n - i ≤ fuel →
    DownInv q n i → HeapUpTo (downLoop n fuel q i) n
  | 0, _, _, hf, h => fun c hc hc0 => h.edges c hc hc0 (by omega)
  | fuel + 1, q, i, hf, h => by
    rw [downLoop_succ]
    split_ifs with hn hstop
    · exact fun c hc hc0 => h.edges c hc hc0 (by omega)
    all_goals
      obtain ⟨hji, hij, hjn, hbig⟩ := downChild_spec h.le (not_le.1 hn)
      rw [less_eq (i := downChild q n i) (j := i) (hjn.trans_le h.le) (by have := h.le; omega)]
        at hstop
    · simp only [Bool.not_eq_true', decide_eq_false_iff_not, not_lt] at hstop
      intro c hc hc0
      by_cases hpc : (c - 1) / 2 = i
      · rw [hpc]
        exact (hbig c hc hc0 hpc).trans hstop
      · exact h.edges c hc hc0 hpc
    · exact downLoop_heap n fuel _ _ (by omega) (h.swap hji hij hjn (by simpa using hstop) hbig)

/-- `down` over the first `n` entries leaves the rest in place. -/
theorem downLoop_getElem?_of_le (n : Nat) : ∀ (fuel : Nat) (q : PriorityQueue) (i k : Nat),
    n ≤ q.length → n ≤ k → (downLoop n fuel q i)[k]? = q[k]?
  | 0, _, _, _, _, _ => rfl
  | fuel + 1, q, i, k, hn, hk => by
    rw [downLoop_succ]
    split_ifs with h1 h2
    · rfl
    · rfl
    · obtain ⟨-, hij, hjn, -⟩ := downChild_spec hn (not_le.1 h1)
      rw [downLoop_getElem?_of_le n fuel _ _ k (by simpa using hn) hk,
        getElem?_swap (i := i) (j := downChild q n i) (by omega) (by omega), if_neg (by omega),
        if_neg (by omega)]

/-! ## `heap.Pop` and `heap.Push` -/

/-- After the root is swapped to the end, the entries before it are a heap but below the root. -/
theorem downInv_swap_root {pq : PriorityQueue} (hh : HeapOrdered pq) (hl : 0 < pq.length) :
    DownInv (pq.swap 0 (pq.length - 1)) (pq.length - 1) 0 := by
  have hs := pri_swap (i := 0) (j := pq.length - 1) hl (by omega)
  refine ⟨by simp, fun c hc hc0 hpc => ?_, fun _ _ _ _ h0 => absurd h0 (lt_irrefl 0)⟩
  rw [hs, hs, if_neg (by omega), if_neg (by omega), if_neg (by omega), if_neg hpc]
  exact hh c (by omega) hc0

/-- `heap.Pop` of a heap returns its root and leaves a heap. -/
theorem pri_dropLast {q : PriorityQueue} {k : Nat} (hk : k < q.length - 1) :
    pri q.dropLast k = pri q k := by
  simp only [pri, List.getElem?_dropLast, hk, if_true]

/-- `heap.Pop` of a heap returns its root and leaves a heap. -/
theorem heapPop_spec {pq : PriorityQueue} {el : PrioritizedCommit} {rest : PriorityQueue}
    (hh : HeapOrdered pq) (h : heapPop pq = some (el, rest)) :
    pq[0]? = some el ∧ HeapOrdered rest := by
  have hl : 0 < pq.length := List.length_pos.2 (by rintro rfl; cases h)
  have hlen := (sifted_perm pq).length_eq
  have hheap : HeapUpTo (down (pq.swap 0 (pq.length - 1)) 0 (pq.length - 1)) (pq.length - 1) :=
    downLoop_heap _ _ _ 0 (by omega) (downInv_swap_root hh hl)
  unfold heapPop PriorityQueue.pop at h
  obtain ⟨x, hx, he⟩ := Option.map_eq_some'.1 h
  obtain ⟨rfl, rfl⟩ := Prod.mk.inj he
  rw [List.getLast?_eq_getElem?, hlen, down, downLoop_getElem?_of_le _ _ _ _ _ (by simp) le_rfl,
    getElem?_swap hl (by omega), if_pos rfl] at hx
  refine ⟨hx, fun c hc hc0 => ?_⟩
  rw [List.length_dropLast, hlen] at hc
  rw [pri_dropLast (by rw [hlen]; exact hc), pri_dropLast (by rw [hlen]; omega)]
  exact hheap c hc hc0

/-- The entry `heap.Pop` returns is queued, and no queued entry is later. -/
theorem heapPop_max {pq : PriorityQueue} {el : PrioritizedCommit} {rest : PriorityQueue}
    (hh : HeapOrdered pq) (h : heapPop pq = some (el, rest)) :
    el ∈ pq ∧ ∀ e ∈ pq, e.priority ≤ el.priority := by
  have h0 := (heapPop_spec hh h).1
  refine ⟨(heapPop_perm h).subset (List.mem_cons_self _ _), fun e he => ?_⟩
  obtain ⟨k, hk, rfl⟩ := List.mem_iff_getElem.1 he
  have := pri_le_root hh k hk
  rwa [pri_of_lt hk, pri, h0] at this

theorem queueInv_heapPop {pq : PriorityQueue} {el : PrioritizedCommit} {rest : PriorityQueue}
    (h : QueueInv pq) (hp : heapPop pq = some (el, rest)) : QueueInv rest :=
  ⟨(List.nodup_cons.1 (((heapPop_perm hp).map (·.value.hash)).nodup_iff.2 h.nodup)).2,
    (heapPop_spec h.heap hp).2⟩

/-- `Push`'s loop changes flags only. -/
theorem orFlags_keeps {x : PrioritizedCommit} {pq pq' : PriorityQueue}
    (h : orFlags x pq = some pq') :
    pq'.map (·.priority) = pq.map (·.priority) ∧
      pq'.map (·.value.hash) = pq.map (·.value.hash) := by
  obtain ⟨l1, el, l2, rfl, -, rfl⟩ := orFlags_spec h
  simp

/-- `Push` appends only a commit that is not queued. -/
theorem orFlags_eq_none {x : PrioritizedCommit} : ∀ {pq : PriorityQueue}, orFlags x pq = none →
    ∀ e ∈ pq, e.value.hash ≠ x.value.hash
  | [], _, e, he => absurd he (List.not_mem_nil e)
  | el :: pq, h, e, he => by
    unfold orFlags at h
    split at h
    · cases h
    · rcases List.mem_cons.1 he with rfl | he
      · assumption
      · exact orFlags_eq_none (Option.map_eq_none'.1 h) e he

/-- When `Push` merges into a queued entry, `heap.Push` of a heap is that merge alone. -/
theorem heapPush_of_orFlags {pq pq' : PriorityQueue} {x : PrioritizedCommit} (hh : HeapOrdered pq)
    (h : orFlags x pq = some pq') : heapPush pq x = pq' ∧ HeapOrdered pq' := by
  have hp := (orFlags_keeps h).1
  have hheap : HeapOrdered pq' := by
    have hl : pq'.length = pq.length := by simpa using congrArg List.length hp
    unfold HeapOrdered HeapUpTo
    rw [pri_congr hp, hl]
    exact hh
  refine ⟨?_, hheap⟩
  simp only [heapPush, up, PriorityQueue.push, h]
  exact upLoop_of_heapOrdered hheap _ _

theorem upInv_append {pq : PriorityQueue} (hh : HeapOrdered pq) (x : PrioritizedCommit) :
    UpInv (pq ++ [x]) pq.length := by
  have hp (k : Nat) (hk : k < pq.length) : pri (pq ++ [x]) k = pri pq k := by
    simp [pri, List.getElem?_append_left hk]
  refine ⟨by simp, fun c hc hc0 hcn => ?_, fun c hc hc0 hpc _ => ?_⟩ <;>
    simp only [List.length_append, List.length_singleton] at hc
  · rw [hp c (by omega), hp _ (by omega)]
    exact hh c (by omega) hc0
  · omega

theorem queueInv_heapPush {pq : PriorityQueue} (h : QueueInv pq) (x : PrioritizedCommit) :
    QueueInv (heapPush pq x) := by
  cases hor : orFlags x pq with
  | some pq' =>
    obtain ⟨heq, hheap⟩ := heapPush_of_orFlags h.heap hor
    rw [heq]
    exact ⟨(orFlags_keeps hor).2 ▸ h.nodup, hheap⟩
  | none =>
    have heq : heapPush pq x = upLoop (pq.length + 1) (pq ++ [x]) pq.length := by
      simp [heapPush, up, PriorityQueue.push, hor]
    refine ⟨((heapPush_perm pq x).map (·.value.hash)).nodup_iff.2 ?_, ?_⟩
    · simp only [PriorityQueue.push, hor, List.map_append, List.map_singleton]
      exact List.nodup_append.2 ⟨h.nodup, List.nodup_singleton _,
        List.disjoint_singleton.2 (by simpa using orFlags_eq_none hor)⟩
    · rw [heq]
      exact upLoop_heap _ _ _ (Nat.lt_succ_self _) (upInv_append h.heap x)

/-! ## Runs -/

/-- The queues that `heap.Push` and `heap.Pop` calls reach from the empty queue
`getCommonParents` starts from; a `heap.Pop` of the empty queue panics and ends the run. -/
inductive HeapRun : PriorityQueue → Prop
  | empty : HeapRun []
  | push {pq : PriorityQueue} (x : PrioritizedCommit) : HeapRun pq → HeapRun (heapPush pq x)
  | pop {pq rest : PriorityQueue} {el : PrioritizedCommit} :
      HeapRun pq → heapPop pq = some (el, rest) → HeapRun rest

theorem HeapRun.queueInv {pq : PriorityQueue} (h : HeapRun pq) : QueueInv pq := by
  induction h with
  | empty => exact ⟨List.nodup_nil, fun c hc => absurd hc (Nat.not_lt_zero c)⟩
  | push x _ ih => exact queueInv_heapPush ih x
  | pop _ hp ih => exact queueInv_heapPop ih hp

/-- Along every run of `heap.Push` and `heap.Pop` calls, the queue holds no two entries of one
commit and is a max-heap on priority; a push of a queued commit only ORs its flags into the
queued entry, and a pop returns a queued entry of the latest priority. -/
theorem heapRun_queueInv {pq : PriorityQueue} (h : HeapRun pq) :
    QueueInv pq ∧
      (∀ x : PrioritizedCommit, (∃ e ∈ pq, e.value.hash = x.value.hash) →
        ∃ l1 el l2, pq = l1 ++ el :: l2 ∧ el.value.hash = x.value.hash ∧
          heapPush pq x = l1 ++ { el with flags := el.flags ||| x.flags } :: l2) ∧
      ∀ el rest, heapPop pq = some (el, rest) → el ∈ pq ∧ ∀ e ∈ pq, e.priority ≤ el.priority := by
  refine ⟨h.queueInv, fun x ⟨e, he, hx⟩ => ?_, fun _ _ => heapPop_max h.queueInv.heap⟩
  cases hor : orFlags x pq with
  | none => exact absurd hx (orFlags_eq_none hor e he)
  | some pq' =>
    obtain ⟨l1, el, l2, rfl, hh, rfl⟩ := orFlags_spec hor
    exact ⟨l1, el, l2, rfl, hh, (heapPush_of_orFlags h.queueInv.heap hor).1⟩

theorem heapRun_queueInv_merge :
    HeapRun (heapPush [] ⟨⟨1, 5, []⟩, markParent1, 5⟩) ∧
      QueueInv (heapPush [] ⟨⟨1, 5, []⟩, markParent1, 5⟩) ∧
      (∀ x : PrioritizedCommit,
        (∃ e ∈ heapPush [] ⟨⟨1, 5, []⟩, markParent1, 5⟩, e.value.hash = x.value.hash) →
        ∃ l1 el l2, heapPush [] ⟨⟨1, 5, []⟩, markParent1, 5⟩ = l1 ++ el :: l2 ∧
          el.value.hash = x.value.hash ∧
          heapPush (heapPush [] ⟨⟨1, 5, []⟩, markParent1, 5⟩) x =
            l1 ++ { el with flags := el.flags ||| x.flags } :: l2) ∧
      ∀ el rest, heapPop (heapPush [] ⟨⟨1, 5, []⟩, markParent1, 5⟩) = some (el, rest) →
        el ∈ heapPush [] ⟨⟨1, 5, []⟩, markParent1, 5⟩ ∧
          ∀ e ∈ heapPush [] ⟨⟨1, 5, []⟩, markParent1, 5⟩, e.priority ≤ el.priority :=
  ⟨.push _ .empty, heapRun_queueInv (.push _ .empty)⟩

end MergeCore
