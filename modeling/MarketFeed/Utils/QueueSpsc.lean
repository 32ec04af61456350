import MarketFeed.Utils.QueueSteps

set_option autoImplicit false

/-! # One producer: the queue refines a bounded FIFO

With a single producer the tail snapshot never goes stale and the room it saw can only grow, since
the other side only removes elements. So every slot write is safe, no refusal is spurious, and the
trace of completed operations is one a FIFO of `capacity - 1` elements can produce
(`spsc_refines_bounded_fifo`).

The last section runs one thread alone: its steps compose to the operations of `Queue.lean`. -/

namespace MarketFeed

open RingBuffer BoundedFifo Execution

namespace QueueState

variable {ι T : Type*} [DecidableEq ι] [Inhabited T]

/-- A producer's snapshots are still current. -/
def Current (q : LockFreeQueue T) : EnqueuePc T → Prop
  | .loadHead _ tail => tail = q.tail
  | .writeSlot _ tail _ => tail = q.tail ∧ ¬ q.Full
  | _ => True

/-- The invariant of the single-producer queue. -/
structure SpscInv (cap : LockFreeQueue.Capacity) (s : QueueState ι T) (held : List T) : Prop
    extends Inv cap s held where
  replays : Replays (cap.1.toNat - 1) s.trace held
  current : ∀ p, Current s.queue (s.producer p)

omit [DecidableEq ι] in
theorem spscInv_init (cap : LockFreeQueue.Capacity) :
    SpscInv cap (init cap : QueueState ι T) [] where
  toInv := inv_init cap
  replays := .nil
  current _ := trivial

variable {cap : LockFreeQueue.Capacity} {s s' : QueueState ι T} {held : List T}
  {a : QueueAction ι T}

omit [Inhabited T] in
theorem current_update [Subsingleton ι] {q : LockFreeQueue T} {producer : ι → EnqueuePc T} {p : ι}
    {pc : EnqueuePc T} (hpc : Current q pc) :
    ∀ p', Current q (Function.update producer p pc p') := by
  intro p'
  rw [Subsingleton.elim p' p, Function.update_self]
  exact hpc

omit [DecidableEq ι] [Inhabited T] in
/-- A single producer always writes the free slot. -/
theorem SpscInv.safeWrite [Subsingleton ι] (h : SpscInv cap s held) (a : QueueAction ι T) :
    s.SafeWrite a := by
  cases a with
  | call p item => trivial
  | consume => trivial
  | produce p =>
      intro item tail nextTail hpc
      have hcur := h.current p
      rw [hpc] at hcur
      exact ⟨hcur.1, hcur.2, fun p' hne => absurd (Subsingleton.elim p' p) hne⟩

omit [DecidableEq ι] [Inhabited T] in
theorem SpscInv.not_staleTail (h : SpscInv cap s held) (a : QueueAction ι T) :
    ¬ s.StaleTail a := by
  rintro ⟨p, item, tail, -, hpc, hne⟩
  have hcur := h.current p
  rw [hpc] at hcur
  exact hne hcur

omit [DecidableEq ι] [Inhabited T] in
theorem Inv.length_pushed (h : Inv cap s held) :
    (pushed s.trace).length = (popped s.trace).length + held.length := by
  rw [h.balanced, List.length_append]

omit [DecidableEq ι] [Inhabited T] in
/-- Releasing a slot does not fill the queue, so the producer's room stays valid. -/
theorem SpscInv.current_release {head : UInt64} {item : T} (h : SpscInv cap s held)
    (h' : ∃ held', Inv cap { s with
        queue := { s.queue with head := s.queue.advance head }
        consumer := .idle
        trace := s.trace ++ [.pop item] } held') (p : ι) :
    Current { s.queue with head := s.queue.advance head } (s.producer p) := by
  obtain ⟨held', h'⟩ := h'
  have hcur := h.current p
  cases hpc : s.producer p with
  | idle => trivial
  | storeTail item tail nextTail => trivial
  | loadHead item tail => rwa [hpc] at hcur
  | writeSlot item' tail nextTail =>
      rw [hpc] at hcur
      -- a full queue would now hold as much as before, but one element has gone
      refine ⟨hcur.1, fun hfull => ?_⟩
      have hlen := h.length_pushed
      have hlen' := h'.length_pushed
      have hroom := h.repr.room
      have hfull' : held'.length + 1 = s.queue.capacity.toNat := h'.repr.full_iff.1 hfull
      simp only [pushed_concat_pop, popped_concat_pop, List.length_append,
        List.length_singleton] at hlen'
      omega

/-- **Step lemma.** Every step of the single-producer queue keeps its invariant, and the abstract
    FIFO performs the same operation. -/
theorem SpscInv.step [Subsingleton ι] (h : SpscInv cap s held) (hs : s.step a = some s') :
    ∃ held', SpscInv cap s' held' ∧ Advances (cap.1.toNat - 1) s.trace held s'.trace held' := by
  obtain ⟨held', h', hadv⟩ := h.toInv.step (h.safeWrite a) hs
  have hadv := hadv.resolve_left (h.not_staleTail a)
  refine ⟨held', ⟨h', h.replays.advance hadv, ?_⟩, hadv⟩
  cases steps_of_step hs with
  | call hpc => exact current_update rfl
  | full hpc hfull => exact current_update trivial
  | @checked p item tail hpc hroom =>
      have hcur := h.current p
      rw [hpc] at hcur
      obtain rfl : tail = s.queue.tail := hcur
      exact current_update ⟨rfl, hroom⟩
  | write hpc => exact current_update trivial
  | publish hpc => exact current_update trivial
  | start hpc => exact h.current
  | empty hpc hempty => exact h.current
  | nonempty hpc hne => exact h.current
  | read hpc => exact h.current
  | release hpc => exact h.current_release ⟨held', h'⟩

/-- **Run lemma.** The invariant holds after every interleaving. -/
theorem spscInv_run [Subsingleton ι] {acts : List (QueueAction ι T)}
    (hrun : run step (init cap) acts = some s) : ∃ held, SpscInv cap s held :=
  run_invariant (fun s => ∃ held, SpscInv cap s held)
    (fun _ _ _ ⟨_, h⟩ hs => let ⟨held', h', _⟩ := h.step hs; ⟨held', h'⟩)
    ⟨[], spscInv_init cap⟩ hrun

omit [DecidableEq ι] [Inhabited T] in
theorem SpscInv.writes_ne_holding (h : SpscInv cap s held) {slot : UInt64}
    (hw : s.writes a = some slot) : s.consumer.holding ≠ some slot := by
  have htail : slot = s.queue.tail := by
    cases a with
    | call p item => exact absurd hw (by simp [writes])
    | consume => exact absurd hw (by simp [writes])
    | produce p =>
        simp only [writes] at hw
        split at hw
        · next item tail nextTail hpc =>
            have hcur := h.current p
            rw [hpc] at hcur
            exact (Option.some.inj hw).symm.trans hcur.1
        · exact absurd hw (by simp)
  subst htail
  have hcons := h.consumer
  cases hpc : s.consumer with
  | idle => simp [DequeuePc.holding]
  | loadTail head => simp [DequeuePc.holding]
  | readSlot head =>
      rw [hpc] at hcons
      obtain ⟨rfl, hne⟩ := hcons
      exact fun he => h.repr.tail_ne_head hne (Option.some.inj he).symm
  | storeHead head item =>
      rw [hpc] at hcons
      obtain ⟨rfl, hhead⟩ := hcons
      have hne : held ≠ [] := by
        rintro rfl
        exact absurd hhead (by simp)
      exact fun he => h.repr.tail_ne_head hne (Option.some.inj he).symm

end QueueState

open QueueState

/-- **Refinement of a bounded FIFO.** After every interleaving of one producer and one consumer, the
    completed operations are a trace of a FIFO of `capacity - 1` elements; the values dequeued are,
    in order and each once, a prefix of the values enqueued; and of the next step: an enqueue that
    returns false found `capacity - 1` elements when it loaded `head_`, a dequeue that returns false
    found none when it loaded `tail_`, and a slot write does not hit the slot the consumer is
    between checking and releasing. -/
theorem spsc_refines_bounded_fifo {T : Type*} [Inhabited T] (cap : LockFreeQueue.Capacity)
    (acts : List (QueueAction Unit T)) (s : QueueState Unit T)
    (hrun : run QueueState.step (init cap) acts = some s) :
    (∃ held, Replays (cap.1.toNat - 1) s.trace held) ∧
      popped s.trace <+: pushed s.trace ∧
      ∀ a s', s.step a = some s' →
        (∀ item, s'.trace = s.trace ++ [.pushFull item] →
          (pushed s.trace).length = (popped s.trace).length + (cap.1.toNat - 1)) ∧
        (s'.trace = s.trace ++ [.popEmpty] → pushed s.trace = popped s.trace) ∧
        ∀ slot, s.writes a = some slot → s.consumer.holding ≠ some slot := by
  obtain ⟨held, h⟩ := spscInv_run hrun
  refine ⟨⟨held, h.replays⟩, h.balanced.popped_prefix, fun a s' hs => ?_⟩
  obtain ⟨held', -, hadv⟩ := h.step hs
  refine ⟨fun item htr => ?_, fun htr => ?_, fun slot hw => h.writes_ne_holding hw⟩
  · cases hadv.of_concat htr with
    | pushFull _ full => rw [h.length_pushed, full]
  · cases hadv.of_concat htr with
    | popEmpty => rw [h.balanced, List.append_nil]

/-- One element through a two-slot ring, the consumer's first poll overlapping the enqueue. -/
def twoSlotSchedule : List (QueueAction Unit ℕ) :=
  [.call () 7, .produce (), .produce (), .consume, .produce (), .consume, .consume, .consume]

theorem spsc_refines_bounded_fifo_two_slots :
    ∃ s : QueueState Unit ℕ, run QueueState.step (init ⟨2, 1, rfl⟩) twoSlotSchedule = some s ∧
      popped s.trace <+: pushed s.trace ∧ popped s.trace = [7] := by
  refine ⟨_, rfl, ?_, rfl⟩
  exact (spsc_refines_bounded_fifo ⟨2, 1, rfl⟩ twoSlotSchedule _ rfl).2.1

/-! ## One thread alone -/

namespace QueueState

variable {ι T : Type*} [DecidableEq ι] [Inhabited T]

/-- The accesses of one `enqueue`, made without interruption, are the whole `enqueue`. -/
theorem run_enqueue (s : QueueState ι T) {p : ι} (hidle : s.producer p = .idle) (item : T) :
    ∃ n s', run step s (.call p item :: List.replicate n (.produce p)) = some s' ∧
      s'.queue = (s.queue.enqueue item).2 ∧ s'.producer = s.producer ∧ s'.consumer = s.consumer ∧
      s'.trace = s.trace ++ [if (s.queue.enqueue item).1 then .push item else .pushFull item] := by
  by_cases hfull : s.queue.Full
  · refine ⟨1, { s.setProducer p .idle with trace := s.trace ++ [.pushFull item] }, ?_, ?_, ?_,
      rfl, ?_⟩
    · simp [step, produce, setProducer, hidle, hfull]
    · rw [LockFreeQueue.enqueue_full hfull]
      rfl
    · exact Function.update_eq_self_iff.2 hidle.symm
    · rw [LockFreeQueue.enqueue_full hfull]
      rfl
  · rw [LockFreeQueue.enqueue_not_full hfull]
    refine ⟨3, { s.setProducer p .idle with
      queue := _, trace := s.trace ++ [.push item] }, ?_, rfl, ?_, rfl, rfl⟩
    · simp [step, produce, setProducer, hidle, hfull, List.replicate]
    · exact Function.update_eq_self_iff.2 hidle.symm

theorem run_dequeue (s : QueueState ι T) (hidle : s.consumer = .idle) :
    ∃ n s', run step s (List.replicate n .consume) = some s' ∧
      s'.queue = s.queue.dequeue.2 ∧ s'.producer = s.producer ∧ s'.consumer = .idle ∧
      s'.trace = s.trace ++
        [match s.queue.dequeue.1 with | some item => .pop item | none => .popEmpty] := by
  unfold LockFreeQueue.dequeue
  by_cases hempty : s.queue.Empty
  · refine ⟨2, { s with consumer := .idle, trace := s.trace ++ [.popEmpty] }, ?_, ?_, rfl, rfl, ?_⟩
    · simp [step, consume, hidle, hempty, List.replicate]
    · rw [if_pos hempty]
    · rw [if_pos hempty]
  · refine ⟨4, { s with
      queue := { s.queue with head := s.queue.advance s.queue.head }
      consumer := .idle
      trace := s.trace ++ [.pop (s.queue.buffer.getD s.queue.head.toNat default)] },
      ?_, ?_, rfl, rfl, ?_⟩
    · simp [step, consume, hidle, hempty, List.replicate]
    · rw [if_neg hempty]
    · rw [if_neg hempty]

end QueueState

end MarketFeed
