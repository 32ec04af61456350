import MarketFeed.Utils.QueueSpsc

set_option autoImplicit false

/-! # What `size()` tells a third thread

`LockFreeQueue::size` loads `head_`, then `tail_`, and masks the difference. Called while a producer
and a consumer are at work, it subtracts indices of two different moments. What it returns is the
number held at the first load plus the elements published since, modulo the capacity; the elements
taken out since do not count (`sizeBetween_eq_and_iff`). -/

namespace MarketFeed

open BoundedFifo Execution RingBuffer

/-- `size()` with its `head_` loaded from `q` and its `tail_` loaded later, from `q'`. -/
def LockFreeQueue.sizeBetween {T : Type*} (q q' : LockFreeQueue T) : UInt64 :=
  (q'.tail - q.head) &&& (q.capacity - 1)

namespace QueueState

variable {ι T : Type*} [DecidableEq ι] [Inhabited T]

/-- The number of elements held, by the completed operations. -/
def count (s : QueueState ι T) : ℕ := (pushed s.trace).length - (popped s.trace).length

/-- The enqueues that took effect from `s` to `t`. -/
def enqueued (s t : QueueState ι T) : ℕ := (pushed t.trace).length - (pushed s.trace).length

/-- The dequeues that took effect from `s` to `t`. -/
def dequeued (s t : QueueState ι T) : ℕ := (popped t.trace).length - (popped s.trace).length

/-- `t` is a moment of the run from `s` along `span`, its ends included. -/
def During (s : QueueState ι T) (span : List (QueueAction ι T)) (t : QueueState ι T) : Prop :=
  ∃ n, run step s (span.take n) = some t

/-- The moments of a run are finitely many. -/
theorem forall_during {s : QueueState ι T} {span : List (QueueAction ι T)}
    {P : QueueState ι T → Prop}
    (h : ∀ n ≤ span.length, ∀ t ∈ run step s (span.take n), P t) {t : QueueState ι T}
    (ht : During s span t) : P t := by
  obtain ⟨n, hn⟩ := ht
  rw [List.take_eq_take_min] at hn
  exact h _ (Nat.min_le_right _ _) t hn

/-! ## Traces only grow -/

theorem trace_prefix_step {s s' : QueueState ι T} {a : QueueAction ι T}
    (h : s.step a = some s') : s.trace <+: s'.trace := by
  cases steps_of_step h with
  | call hpc => exact List.prefix_rfl
  | full hpc hfull => exact List.prefix_append _ _
  | checked hpc hroom => exact List.prefix_rfl
  | write hpc => exact List.prefix_rfl
  | publish hpc => exact List.prefix_append _ _
  | start hpc => exact List.prefix_rfl
  | empty hpc hempty => exact List.prefix_append _ _
  | nonempty hpc hne => exact List.prefix_rfl
  | read hpc => exact List.prefix_rfl
  | release hpc => exact List.prefix_append _ _

theorem trace_prefix_run {s s' : QueueState ι T} {acts : List (QueueAction ι T)}
    (h : run step s acts = some s') : s.trace <+: s'.trace :=
  run_record_mono (fun _ _ _ => trace_prefix_step) h

theorem counters_mono {s s' : QueueState ι T} {acts : List (QueueAction ι T)}
    (h : run step s acts = some s') :
    (pushed s.trace).length ≤ (pushed s'.trace).length ∧
      (popped s.trace).length ≤ (popped s'.trace).length := by
  obtain ⟨later, hlater⟩ := trace_prefix_run h
  rw [← hlater, pushed_append, popped_append, List.length_append, List.length_append]
  omega

/-! ## The two loads -/

variable {cap : LockFreeQueue.Capacity} {s t s' : QueueState ι T} {held held' : List T}

omit [DecidableEq ι] [Inhabited T] in
theorem Inv.count_eq (h : Inv cap s held) : s.count = held.length := by
  unfold count
  rw [h.length_pushed, Nat.add_sub_cancel_left]

omit [DecidableEq ι] [Inhabited T] in
/-- What the two loads give: the number held at the first, and what was published since. -/
theorem toNat_sizeBetween (h : Inv cap s held) (h' : Inv cap s' held')
    (hpushed : (pushed s.trace).length ≤ (pushed s'.trace).length) :
    (s.queue.sizeBetween s'.queue).toNat = (s.count + s.enqueued s') % cap.1.toNat := by
  have hlen := h.length_pushed
  have htail : s'.queue.tail.toNat = (pushed s'.trace).length % s.queue.capacity.toNat := by
    rw [h'.repr.tail, h'.length_pushed, h'.capacity, h.capacity]
  have hdistance : (pushed s'.trace).length - (popped s.trace).length
      = s.count + s.enqueued s' := by
    unfold count enqueued
    omega
  unfold LockFreeQueue.sizeBetween
  rw [h.repr.pow.sub_and_mask h.repr.head htail (by omega), hdistance, h.capacity]

omit [DecidableEq ι] [Inhabited T] in
/-- Seen from a moment in between, the result is off by the dequeues before and the enqueues
    after. -/
theorem count_add_enqueued (hs : Inv cap s held) (ht : Inv cap t held')
    (hpushed : (pushed s.trace).length ≤ (pushed t.trace).length)
    (hpopped : (popped s.trace).length ≤ (popped t.trace).length)
    (hpushed' : (pushed t.trace).length ≤ (pushed s'.trace).length) :
    s.count + s.enqueued s' = t.count + (s.dequeued t + t.enqueued s') := by
  have hlens := hs.length_pushed
  have hlent := ht.length_pushed
  unfold count enqueued dequeued
  omega

omit [DecidableEq ι] [Inhabited T] in
theorem Inv.count_lt (h : Inv cap s held) : s.count < cap.1.toNat := by
  rw [h.count_eq, ← h.capacity]
  exact h.repr.room

end QueueState

open QueueState

/-- **What `size()` returns.** For every interleaving of its two loads with a producer and a
    consumer: the number held when `head_` is loaded plus the enqueues that take effect until
    `tail_` is loaded, modulo the capacity. This is a number the queue held at some moment in
    between exactly if, at some moment in between, the dequeues so far and the enqueues still to
    come add up to a multiple of the capacity; at a moment with no dequeue before it and no enqueue
    after it, it is the number held then. -/
theorem sizeBetween_eq_and_iff {T : Type*} [Inhabited T] (cap : LockFreeQueue.Capacity)
    (before span : List (QueueAction Unit T)) (s s' : QueueState Unit T)
    (hbefore : run QueueState.step (init cap) before = some s)
    (hspan : run QueueState.step s span = some s') :
    let size := (s.queue.sizeBetween s'.queue).toNat
    size = (s.count + s.enqueued s') % cap.1.toNat ∧
      ((∃ t, During s span t ∧ t.count = size) ↔
        ∃ t, During s span t ∧ cap.1.toNat ∣ s.dequeued t + t.enqueued s') ∧
      ∀ t, During s span t → s.dequeued t = 0 → t.enqueued s' = 0 → size = t.count := by
  intro size
  obtain ⟨held, h⟩ := spscInv_run hbefore
  have hwhole : run QueueState.step (init cap) (before ++ span) = some s' := by
    rw [run_append, hbefore]
    exact hspan
  obtain ⟨held', h'⟩ := spscInv_run hwhole
  have hsize : size = (s.count + s.enqueued s') % cap.1.toNat :=
    toNat_sizeBetween h.toInv h'.toInv (counters_mono hspan).1
  -- at every moment in between, the result differs from the number held by that sum
  have hduring : ∀ t, During s span t →
      t.count < cap.1.toNat ∧ size = (t.count + (s.dequeued t + t.enqueued s')) % cap.1.toNat := by
    rintro t ⟨n, hn⟩
    have hpart : run QueueState.step (init cap) (before ++ span.take n) = some t := by
      rw [run_append, hbefore]
      exact hn
    obtain ⟨heldt, ht⟩ := spscInv_run hpart
    have hrest : run QueueState.step t (span.drop n) = some s' := by
      rw [← hspan, ← List.take_append_drop n span, run_append, hn, List.take_append_drop]
      rfl
    have hmono := counters_mono hn
    refine ⟨ht.toInv.count_lt, ?_⟩
    rw [hsize, count_add_enqueued h.toInv ht.toInv hmono.1 hmono.2 (counters_mono hrest).1]
  refine ⟨hsize, exists_congr fun t => and_congr_right fun ht => ?_, fun t ht hdeq henq => ?_⟩
  · obtain ⟨hlt, hoff⟩ := hduring t ht
    rw [hoff, ← Nat.add_modEq_left_iff (a := t.count)]
    unfold Nat.ModEq
    rw [Nat.mod_eq_of_lt hlt]
    exact eq_comm
  · obtain ⟨hlt, hoff⟩ := hduring t ht
    rw [hoff, hdeq, henq]
    exact Nat.mod_eq_of_lt hlt

/-- The accesses of an `enqueue` that finds room. -/
def enqueueAccesses (item : ℕ) : List (QueueAction Unit ℕ) :=
  [.call () item, .produce (), .produce (), .produce ()]

/-- The accesses of a `dequeue` that finds an element. -/
def dequeueAccesses : List (QueueAction Unit ℕ) := [.consume, .consume, .consume, .consume]

/-- One element held, one more published between the loads. -/
theorem sizeBetween_one_enqueue : ∃ s s' : QueueState Unit ℕ,
    run QueueState.step (init ⟨4, 2, rfl⟩) (enqueueAccesses 1) = some s ∧
      run QueueState.step s (enqueueAccesses 2) = some s' ∧
      (s.queue.sizeBetween s'.queue).toNat = s'.count ∧ s'.count = 2 := by
  refine ⟨_, _, rfl, rfl, ?_, rfl⟩
  exact (sizeBetween_eq_and_iff ⟨4, 2, rfl⟩ (enqueueAccesses 1) (enqueueAccesses 2) _ _ rfl
    rfl).2.2 _ ⟨4, rfl⟩ rfl rfl

/-- A ring of capacity four, filled. -/
def fullRing : QueueState Unit ℕ where
  queue := { buffer := [1, 2, 3, 0], capacity := 4, head := 0, tail := 3 }
  producer _ := .idle
  consumer := .idle
  trace := [.push 1, .push 2, .push 3]

/-- From the full ring one element is taken out and one is published between the loads: `size()`
    returns zero, and the queue was never empty. -/
theorem sizeBetween_never_held :
    run QueueState.step (init ⟨4, 2, rfl⟩)
        (enqueueAccesses 1 ++ enqueueAccesses 2 ++ enqueueAccesses 3) = some fullRing ∧
      ∃ s', run QueueState.step fullRing (dequeueAccesses ++ enqueueAccesses 4) = some s' ∧
        (fullRing.queue.sizeBetween s'.queue).toNat = 0 ∧
        ∀ t, During fullRing (dequeueAccesses ++ enqueueAccesses 4) t → t.count ≠ 0 := by
  refine ⟨rfl, _, rfl, rfl, fun t ht => ?_⟩
  exact forall_during (P := fun t => t.count ≠ 0) (by decide) ht

end MarketFeed
