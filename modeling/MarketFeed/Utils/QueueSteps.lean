import MarketFeed.Utils.Queue
import MarketFeed.Library.BoundedFifo
import MarketFeed.Library.Execution
import Mathlib.Data.Fintype.Basic
import Mathlib.Logic.Function.Basic
import Mathlib.Tactic.Common

set_option autoImplicit false

/-! # `LockFreeQueue` under concurrency

Producer threads `ι` run `enqueue`, one consumer thread runs `dequeue`, and every atomic load,
atomic store, slot write and slot read is one step. A thread's locals (its snapshots of `tail_` and
`head_`) live in its program counter, so they may be stale by the time they are used.

`QueueState.trace` is a history variable: an operation is recorded when its last memory access is
made, with the value it returns. `Inv` ties the trace, the ring and the program counters together.
It is kept by every step that meets `SafeWrite` (`Inv.step`), and a single producer always meets it
(`SpscInv.safeWrite`), which gives the refinement of the bounded FIFO
(`spsc_refines_bounded_fifo`). -/

namespace MarketFeed

open RingBuffer BoundedFifo Execution

variable {ι T : Type*}

/-! ## The threads -/

/-- Where a thread stands inside `enqueue(item)`: named after its next access. -/
inductive EnqueuePc (T : Type*) where
  | idle
  | loadHead (item : T) (tail : UInt64)
  | writeSlot (item : T) (tail nextTail : UInt64)
  | storeTail (item : T) (tail nextTail : UInt64)

/-- Where the consumer stands inside `dequeue`: named after its next access. -/
inductive DequeuePc (T : Type*) where
  | idle
  | loadTail (head : UInt64)
  | readSlot (head : UInt64)
  | storeHead (head : UInt64) (item : T)

/-- The slot has been written, `tail_` not yet stored. -/
def EnqueuePc.Written : EnqueuePc T → Prop
  | .storeTail _ _ _ => True
  | _ => False

instance : ∀ pc : EnqueuePc T, Decidable pc.Written
  | .storeTail _ _ _ => isTrue trivial
  | .idle => isFalse id
  | .loadHead _ _ => isFalse id
  | .writeSlot _ _ _ => isFalse id

/-- The slot the consumer is between checking and releasing. -/
def DequeuePc.holding : DequeuePc T → Option UInt64
  | .readSlot head => some head
  | .storeHead head _ => some head
  | _ => none

/-- The shared queue, every thread's program counter, and the operations completed so far. -/
structure QueueState (ι T : Type*) where
  queue : LockFreeQueue T
  producer : ι → EnqueuePc T
  consumer : DequeuePc T
  trace : List (FifoEvent T)

/-- A scheduling decision. -/
inductive QueueAction (ι T : Type*) where
  /-- Thread `p` calls `enqueue(item)` and loads `tail_`. -/
  | call (p : ι) (item : T)
  /-- Thread `p` makes its next access inside `enqueue`. -/
  | produce (p : ι)
  /-- The consumer makes its next access, calling `dequeue` when idle. -/
  | consume

namespace QueueState

/-- No thread inside an operation and nothing recorded. -/
def init [Inhabited T] (cap : LockFreeQueue.Capacity) : QueueState ι T where
  queue := .ofCapacity cap
  producer _ := .idle
  consumer := .idle
  trace := []

section Steps

variable [DecidableEq ι] [Inhabited T]

/-- Set the program counter of thread `p`. -/
def setProducer (s : QueueState ι T) (p : ι) (pc : EnqueuePc T) : QueueState ι T :=
  { s with producer := Function.update s.producer p pc }

/-- The next access of thread `p` inside `enqueue`. -/
def produce (s : QueueState ι T) (p : ι) : Option (QueueState ι T) :=
  match s.producer p with
  | .idle => none
  | .loadHead item tail =>
      let nextTail := s.queue.advance tail
      if nextTail = s.queue.head then
        -- `return false`
        some { s.setProducer p .idle with trace := s.trace ++ [.pushFull item] }
      else some (s.setProducer p (.writeSlot item tail nextTail))
  | .writeSlot item tail nextTail =>
      some { s.setProducer p (.storeTail item tail nextTail) with
        queue := { s.queue with buffer := s.queue.buffer.set tail.toNat item } }
  | .storeTail item _ nextTail =>
      some { s.setProducer p .idle with
        queue := { s.queue with tail := nextTail }
        trace := s.trace ++ [.push item] }

/-- The next access of the consumer. -/
def consume (s : QueueState ι T) : QueueState ι T :=
  match s.consumer with
  | .idle => { s with consumer := .loadTail s.queue.head }
  | .loadTail head =>
      if head = s.queue.tail then
        -- `return false`
        { s with consumer := .idle, trace := s.trace ++ [.popEmpty] }
      else { s with consumer := .readSlot head }
  | .readSlot head =>
      { s with consumer := .storeHead head (s.queue.buffer.getD head.toNat default) }
  | .storeHead head item =>
      { s with
        queue := { s.queue with head := s.queue.advance head }
        consumer := .idle
        trace := s.trace ++ [.pop item] }

def step (s : QueueState ι T) : QueueAction ι T → Option (QueueState ι T)
  | .call p item =>
      match s.producer p with
      | .idle => some (s.setProducer p (.loadHead item s.queue.tail))
      | _ => none
  | .produce p => s.produce p
  | .consume => some s.consume

/-- The buffer slot an action writes, if any. -/
def writes (s : QueueState ι T) : QueueAction ι T → Option UInt64
  | .produce p =>
      match s.producer p with
      | .writeSlot _ tail _ => some tail
      | _ => none
  | _ => none

/-! ## What one step can do -/

/-- Every step, with its guard and its effect. -/
inductive Steps (s : QueueState ι T) : QueueAction ι T → QueueState ι T → Prop
  | call {p : ι} {item : T} (hpc : s.producer p = .idle) :
      Steps s (.call p item) (s.setProducer p (.loadHead item s.queue.tail))
  | full {p : ι} {item : T} {tail : UInt64} (hpc : s.producer p = .loadHead item tail)
      (hfull : s.queue.advance tail = s.queue.head) :
      Steps s (.produce p) { s.setProducer p .idle with trace := s.trace ++ [.pushFull item] }
  | checked {p : ι} {item : T} {tail : UInt64} (hpc : s.producer p = .loadHead item tail)
      (hroom : s.queue.advance tail ≠ s.queue.head) :
      Steps s (.produce p) (s.setProducer p (.writeSlot item tail (s.queue.advance tail)))
  | write {p : ι} {item : T} {tail nextTail : UInt64}
      (hpc : s.producer p = .writeSlot item tail nextTail) :
      Steps s (.produce p) { s.setProducer p (.storeTail item tail nextTail) with
        queue := { s.queue with buffer := s.queue.buffer.set tail.toNat item } }
  | publish {p : ι} {item : T} {tail nextTail : UInt64}
      (hpc : s.producer p = .storeTail item tail nextTail) :
      Steps s (.produce p) { s.setProducer p .idle with
        queue := { s.queue with tail := nextTail }
        trace := s.trace ++ [.push item] }
  | start (hpc : s.consumer = .idle) :
      Steps s .consume { s with consumer := .loadTail s.queue.head }
  | empty {head : UInt64} (hpc : s.consumer = .loadTail head) (hempty : head = s.queue.tail) :
      Steps s .consume { s with consumer := .idle, trace := s.trace ++ [.popEmpty] }
  | nonempty {head : UInt64} (hpc : s.consumer = .loadTail head) (hne : head ≠ s.queue.tail) :
      Steps s .consume { s with consumer := .readSlot head }
  | read {head : UInt64} (hpc : s.consumer = .readSlot head) :
      Steps s .consume
        { s with consumer := .storeHead head (s.queue.buffer.getD head.toNat default) }
  | release {head : UInt64} {item : T} (hpc : s.consumer = .storeHead head item) :
      Steps s .consume { s with
        queue := { s.queue with head := s.queue.advance head }
        consumer := .idle
        trace := s.trace ++ [.pop item] }

theorem steps_of_step {s s' : QueueState ι T} {a : QueueAction ι T} (h : s.step a = some s') :
    Steps s a s' := by
  cases a with
  | call p item =>
      simp only [step] at h
      split at h
      · next hpc => exact Option.some.inj h ▸ .call hpc
      · exact absurd h (by simp)
  | produce p =>
      simp only [step, produce] at h
      split at h
      · exact absurd h (by simp)
      · next item tail hpc =>
          split at h
          · next hfull => exact Option.some.inj h ▸ .full hpc hfull
          · next hroom => exact Option.some.inj h ▸ .checked hpc hroom
      · next hpc => exact Option.some.inj h ▸ .write hpc
      · next hpc => exact Option.some.inj h ▸ .publish hpc
  | consume =>
      simp only [step, consume] at h
      split at h
      · next hpc => exact Option.some.inj h ▸ .start hpc
      · next head hpc =>
          split at h
          · next hempty => exact Option.some.inj h ▸ .empty hpc hempty
          · next hne => exact Option.some.inj h ▸ .nonempty hpc hne
      · next hpc => exact Option.some.inj h ▸ .read hpc
      · next hpc => exact Option.some.inj h ▸ .release hpc

/-! ## The invariant

`held` is what the abstract FIFO holds; it changes when `tail_` or `head_` is stored. -/

/-- What a producer's program counter promises about the queue. -/
def ProducerOk (q : LockFreeQueue T) (held : List T) : EnqueuePc T → Prop
  | .idle => True
  | .loadHead _ _ => True
  | .writeSlot _ tail nextTail => nextTail = q.advance tail
  | .storeTail item tail nextTail =>
      tail = q.tail ∧ nextTail = q.advance tail ∧ held.length + 1 < q.capacity.toNat ∧
        q.buffer[tail.toNat]? = some item

/-- What the consumer's program counter promises about the queue. -/
def ConsumerOk (q : LockFreeQueue T) (held : List T) : DequeuePc T → Prop
  | .idle => True
  | .loadTail head => head = q.head
  | .readSlot head => head = q.head ∧ held ≠ []
  | .storeHead head item => head = q.head ∧ held.head? = some item

/-- At most one thread stands between its slot write and its tail store. -/
def OneWriter (producer : ι → EnqueuePc T) : Prop :=
  ∀ p p', (producer p).Written → (producer p').Written → p = p'

structure Inv (cap : LockFreeQueue.Capacity) (s : QueueState ι T) (held : List T) : Prop where
  capacity : s.queue.capacity = cap.1
  balanced : Balanced s.trace held
  repr : s.queue.Represents (popped s.trace).length held
  producers : ∀ p, ProducerOk s.queue held (s.producer p)
  oneWriter : OneWriter s.producer
  consumer : ConsumerOk s.queue held s.consumer

omit [DecidableEq ι] in
theorem inv_init (cap : LockFreeQueue.Capacity) : Inv cap (init cap : QueueState ι T) [] where
  capacity := rfl
  balanced := balanced_nil
  repr := LockFreeQueue.represents_ofCapacity cap
  producers _ := trivial
  oneWriter _ _ h := h.elim
  consumer := trivial

/-- The slot write of `a`, if it is one, goes to the current free slot of a queue with room that no
    other thread has written and not yet published. -/
def SafeWrite (s : QueueState ι T) : QueueAction ι T → Prop
  | .produce p => ∀ item tail nextTail, s.producer p = .writeSlot item tail nextTail →
      tail = s.queue.tail ∧ ¬ s.queue.Full ∧ ∀ p', p' ≠ p → ¬ (s.producer p').Written
  | _ => True

instance [Fintype ι] (s : QueueState ι T) : ∀ a, Decidable (s.SafeWrite a)
  | .produce p =>
      match h : s.producer p with
      | .writeSlot _ tail _ =>
          decidable_of_iff
            (tail = s.queue.tail ∧ ¬ s.queue.Full ∧ ∀ p', p' ≠ p → ¬ (s.producer p').Written)
            (by simp [SafeWrite, h])
      | .idle => isTrue (by simp [SafeWrite, h])
      | .loadHead _ _ => isTrue (by simp [SafeWrite, h])
      | .storeTail _ _ _ => isTrue (by simp [SafeWrite, h])
  | .call _ _ => isTrue trivial
  | .consume => isTrue trivial

omit [DecidableEq ι] [Inhabited T] in
/-- Before its slot write a producer's promise depends on the capacity only. -/
theorem ProducerOk.of_not_written {q q' : LockFreeQueue T} {held held' : List T}
    {pc : EnqueuePc T} (h : ProducerOk q held pc) (hpc : ¬ pc.Written)
    (hcap : q'.capacity = q.capacity) : ProducerOk q' held' pc := by
  cases pc with
  | idle => trivial
  | loadHead item tail => trivial
  | writeSlot item tail nextTail =>
      show nextTail = (tail + 1) &&& (q'.capacity - 1)
      rw [hcap]
      exact h
  | storeTail item tail nextTail => exact absurd trivial hpc

omit [Inhabited T] in
theorem producersOk_update {q : LockFreeQueue T} {held : List T} {producer : ι → EnqueuePc T}
    {p : ι} {pc : EnqueuePc T} (hpc : ProducerOk q held pc)
    (hothers : ∀ p', p' ≠ p → ProducerOk q held (producer p')) :
    ∀ p', ProducerOk q held (Function.update producer p pc p') :=
  (Function.forall_update_iff producer (p := fun _ pc => ProducerOk q held pc)).2 ⟨hpc, hothers⟩

omit [Inhabited T] in
theorem OneWriter.update {producer : ι → EnqueuePc T} (h : OneWriter producer) (p : ι)
    {pc : EnqueuePc T} (hpc : ¬ pc.Written) : OneWriter (Function.update producer p pc) := by
  have hne : ∀ p', (Function.update producer p pc p').Written → (producer p').Written := by
    intro p' hw
    by_cases hp : p' = p
    · subst hp
      rw [Function.update_self] at hw
      exact absurd hw hpc
    · rwa [Function.update_of_ne hp] at hw
  exact fun p₁ p₂ h₁ h₂ => h p₁ p₂ (hne p₁ h₁) (hne p₂ h₂)

omit [Inhabited T] in
theorem OneWriter.of_others {producer : ι → EnqueuePc T} {p : ι}
    (hothers : ∀ p', p' ≠ p → ¬ (producer p').Written) (pc : EnqueuePc T) :
    OneWriter (Function.update producer p pc) := by
  have hp : ∀ p', (Function.update producer p pc p').Written → p' = p := by
    intro p' hw
    by_contra hne
    rw [Function.update_of_ne hne] at hw
    exact hothers p' hne hw
  exact fun p₁ p₂ h₁ h₂ => (hp p₁ h₁).trans (hp p₂ h₂).symm

omit [DecidableEq ι] [Inhabited T] in
theorem ProducerOk.release {q : LockFreeQueue T} {item : T} {rest : List T} {pc : EnqueuePc T}
    (h : ProducerOk q (item :: rest) pc) (head : UInt64) :
    ProducerOk { q with head } rest pc := by
  cases pc with
  | idle => trivial
  | loadHead item tail => trivial
  | writeSlot item tail nextTail => exact h
  | storeTail item tail nextTail =>
      obtain ⟨htail, hnext, hlen, hslot⟩ := h
      exact ⟨htail, hnext, Nat.lt_of_succ_lt hlen, hslot⟩

omit [DecidableEq ι] [Inhabited T] in
theorem ConsumerOk.publish {q : LockFreeQueue T} {held : List T} {pc : DequeuePc T}
    (h : ConsumerOk q held pc) (item : T) (tail : UInt64) :
    ConsumerOk { q with tail } (held ++ [item]) pc := by
  cases pc with
  | idle => trivial
  | loadTail head => exact h
  | readSlot head => exact ⟨h.1, by simp⟩
  | storeHead head item' => exact ⟨h.1, by rw [List.head?_append, h.2]; rfl⟩

variable {cap : LockFreeQueue.Capacity} {s s' : QueueState ι T} {held : List T}

omit [Inhabited T] in
theorem Inv.setProducer (h : Inv cap s held) (p : ι) {pc : EnqueuePc T}
    (hpc : ProducerOk s.queue held pc) (hwritten : ¬ pc.Written) :
    Inv cap (s.setProducer p pc) held :=
  { h with
    producers := producersOk_update hpc fun p' _ => h.producers p'
    oneWriter := h.oneWriter.update p hwritten }

omit [DecidableEq ι] [Inhabited T] in
theorem Inv.pushFull (h : Inv cap s held) (item : T) :
    Inv cap { s with trace := s.trace ++ [.pushFull item] } held :=
  { h with
    balanced := h.balanced.pushFull item
    repr := by
      rw [popped_concat_pushFull]
      exact h.repr }

omit [Inhabited T] in
theorem Inv.write (h : Inv cap s held) {p : ι} {item : T} {nextTail : UInt64}
    (hpc : s.producer p = .writeSlot item s.queue.tail nextTail) (hroom : ¬ s.queue.Full)
    (hothers : ∀ p', p' ≠ p → ¬ (s.producer p').Written) :
    Inv cap { s.setProducer p (.storeTail item s.queue.tail nextTail) with
      queue := { s.queue with buffer := s.queue.buffer.set s.queue.tail.toNat item } } held := by
  have hnext : nextTail = s.queue.advance s.queue.tail := by
    have hp := h.producers p
    rwa [hpc] at hp
  have hlen : held.length + 1 < s.queue.capacity.toNat :=
    Nat.lt_of_le_of_ne h.repr.room fun he => hroom (h.repr.full_iff.2 he)
  refine ⟨h.capacity, h.balanced, h.repr.write item, ?_, ?_, h.consumer⟩
  · refine producersOk_update ⟨rfl, hnext, hlen, h.repr.getElem?_write item⟩ ?_
    exact fun p' hp' => (h.producers p').of_not_written (hothers p' hp') rfl
  · exact OneWriter.of_others hothers _

omit [Inhabited T] in
/-- Storing the tail appends the element whose slot the thread has written. -/
theorem Inv.publish (h : Inv cap s held) {p : ι} {item : T} {tail nextTail : UInt64}
    (hpc : s.producer p = .storeTail item tail nextTail) :
    Step (cap.1.toNat - 1) held (.push item) (held ++ [item]) ∧
      Inv cap { s.setProducer p .idle with
        queue := { s.queue with tail := nextTail }
        trace := s.trace ++ [.push item] } (held ++ [item]) := by
  have hcap : s.queue.capacity.toNat = cap.1.toNat := congrArg UInt64.toNat h.capacity
  have hp := h.producers p
  rw [hpc] at hp
  obtain ⟨rfl, rfl, hlen, hslot⟩ := hp
  -- whoever else has loaded this tail has not written the slot that is published here
  have hothers : ∀ p', p' ≠ p → ¬ (s.producer p').Written := by
    intro p' hne hw
    exact hne (h.oneWriter p' p hw (by rw [hpc]; trivial))
  have hop : Step (cap.1.toNat - 1) held (.push item) (held ++ [item]) := .push item (by omega)
  refine ⟨hop, h.capacity, h.balanced.step hop, ?_, ?_, ?_, h.consumer.publish item _⟩
  · rw [popped_concat_push]
    exact h.repr.publish hslot hlen
  · refine producersOk_update trivial ?_
    exact fun p' hp' => (h.producers p').of_not_written (hothers p' hp') rfl
  · exact h.oneWriter.update p fun hw => hw

omit [DecidableEq ι] [Inhabited T] in
theorem Inv.popEmpty (h : Inv cap s held) (hempty : s.queue.head = s.queue.tail) :
    Step (cap.1.toNat - 1) held .popEmpty held ∧
      Inv cap { s with consumer := .idle, trace := s.trace ++ [.popEmpty] } held := by
  obtain rfl : held = [] := h.repr.empty_iff.1 hempty
  have hop : Step (cap.1.toNat - 1) ([] : List T) .popEmpty [] := .popEmpty
  refine ⟨hop, h.capacity, h.balanced.step hop, ?_, h.producers, h.oneWriter, trivial⟩
  rw [popped_concat_popEmpty]
  exact h.repr

omit [DecidableEq ι] [Inhabited T] in
theorem Inv.release {item : T} {rest : List T} (h : Inv cap s (item :: rest)) :
    Step (cap.1.toNat - 1) (item :: rest) (.pop item) rest ∧
      Inv cap { s with
        queue := { s.queue with head := s.queue.advance s.queue.head }
        consumer := .idle
        trace := s.trace ++ [.pop item] } rest := by
  have hop : Step (cap.1.toNat - 1) (item :: rest) (.pop item) rest := .pop item
  refine ⟨hop, h.capacity, h.balanced.step hop, ?_, ?_, h.oneWriter, trivial⟩
  · rw [popped_concat_pop, List.length_append]
    exact h.repr.release
  · exact fun p => (h.producers p).release _

/-- Thread `p` is about to compare with `head_` a tail that another thread has moved since. -/
def StaleTail (s : QueueState ι T) (a : QueueAction ι T) : Prop :=
  ∃ p item tail, a = .produce p ∧ s.producer p = .loadHead item tail ∧ tail ≠ s.queue.tail

/-- **Step lemma.** A step whose slot write, if any, is safe keeps the invariant. The abstract FIFO
    follows, except that a stale tail may refuse an element the abstract FIFO had room for. -/
theorem Inv.step {a : QueueAction ι T} (h : Inv cap s held) (hsafe : s.SafeWrite a)
    (hs : s.step a = some s') :
    ∃ held', Inv cap s' held' ∧
      (s.StaleTail a ∨ Advances (cap.1.toNat - 1) s.trace held s'.trace held') := by
  have hcons := h.consumer
  cases steps_of_step hs with
  | @call p item hpc =>
      exact ⟨held, h.setProducer p trivial id, Or.inr (Or.inl ⟨rfl, rfl⟩)⟩
  | @full p item tail hpc hfull =>
      have hidle : Inv cap (s.setProducer p .idle) held := h.setProducer p trivial id
      refine ⟨held, hidle.pushFull item, ?_⟩
      by_cases htail : tail = s.queue.tail
      · rw [htail] at hfull
        have hlen := h.repr.full_iff.1 hfull
        have hcap : s.queue.capacity.toNat = cap.1.toNat := congrArg UInt64.toNat h.capacity
        exact Or.inr (Or.inr ⟨_, rfl, .pushFull item (by omega)⟩)
      · exact Or.inl ⟨p, item, tail, rfl, hpc, htail⟩
  | @checked p item tail hpc hroom =>
      exact ⟨held, h.setProducer p rfl id, Or.inr (Or.inl ⟨rfl, rfl⟩)⟩
  | @write p item tail nextTail hpc =>
      obtain ⟨rfl, hroom, hothers⟩ := hsafe item tail nextTail hpc
      exact ⟨held, h.write hpc hroom hothers, Or.inr (Or.inl ⟨rfl, rfl⟩)⟩
  | publish hpc =>
      obtain ⟨hop, h'⟩ := h.publish hpc
      exact ⟨_, h', Or.inr (Or.inr ⟨_, rfl, hop⟩)⟩
  | start hpc => exact ⟨held, { h with consumer := rfl }, Or.inr (Or.inl ⟨rfl, rfl⟩)⟩
  | @empty head hpc hempty =>
      rw [hpc] at hcons
      obtain ⟨hop, h'⟩ := h.popEmpty (hcons.symm.trans hempty)
      exact ⟨held, h', Or.inr (Or.inr ⟨_, rfl, hop⟩)⟩
  | @nonempty head hpc hne =>
      rw [hpc] at hcons
      refine ⟨held, { h with consumer := ⟨hcons, ?_⟩ }, Or.inr (Or.inl ⟨rfl, rfl⟩)⟩
      rintro rfl
      exact hne (hcons.trans (h.repr.empty_iff.2 rfl))
  | @read head hpc =>
      rw [hpc] at hcons
      obtain ⟨rfl, hne⟩ := hcons
      obtain ⟨item, rest, rfl⟩ := List.exists_cons_of_ne_nil hne
      refine ⟨item :: rest, { h with consumer := ⟨rfl, ?_⟩ }, Or.inr (Or.inl ⟨rfl, rfl⟩)⟩
      exact congrArg some h.repr.read.symm
  | @release head item hpc =>
      rw [hpc] at hcons
      obtain ⟨rfl, hhead⟩ := hcons
      obtain ⟨rest, rfl⟩ := List.head?_eq_some_iff.1 hhead
      obtain ⟨hop, h'⟩ := h.release
      exact ⟨rest, h', Or.inr (Or.inr ⟨_, rfl, hop⟩)⟩

end Steps

end QueueState

end MarketFeed
