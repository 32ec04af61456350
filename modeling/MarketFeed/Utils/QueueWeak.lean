import MarketFeed.Utils.QueueSteps
import MarketFeed.Library.ReleaseAcquire

set_option autoImplicit false

/-! # `LockFreeQueue` under its own memory orders

`QueueSteps.lean` interleaves the accesses of the queue as if every load returned the newest value.
Here they carry the orders `queue.h` gives them: each thread loads its own index relaxed and the
other's with acquire, stores its own with release, and the slots are plain memory, whose accesses
race unless happens-before orders them. A load may return any message its thread has not yet seen
overwritten, so a producer may see a head, and a consumer a tail, that is long out of date.

`Inv` is what holds under any orders: it only counts messages. What the orders of the source add to
it is in `QueueRace.lean`. -/

namespace MarketFeed

open RingBuffer BoundedFifo Execution ReleaseAcquire

variable {T : Type*}

/-! ## The threads -/

/-- The thread that calls `enqueue` and the thread that calls `dequeue`. -/
inductive Party where
  | producer
  | consumer
  deriving DecidableEq

/-- The atomic members of `LockFreeQueue<T>`. -/
inductive Index where
  | head
  | tail
  deriving DecidableEq

/-- The thread that stores an index. -/
def Index.writer : Index → Party
  | .head => .consumer
  | .tail => .producer

/-- The thread that only loads it. -/
def Index.reader : Index → Party
  | .head => .producer
  | .tail => .consumer

theorem Index.writer_ne_reader (l : Index) : l.writer ≠ l.reader := by cases l <;> decide

theorem Index.reader_ne {l l' : Index} (h : l' ≠ l) : l'.reader ≠ l.reader := by
  cases l <;> cases l' <;> first | exact absurd rfl h | decide

theorem Index.writer_eq {l l' : Index} (h : l' ≠ l) : l.writer = l'.reader := by
  cases l <;> cases l' <;> first | exact absurd rfl h | rfl

/-- The two indices and the slots of the buffer. -/
abbrev QueueMemory (T : Type*) := Memory Party Index ℕ UInt64 T

abbrev QueueMessage := Message Party Index UInt64

/-- The orders of the accesses that go to the other thread's index or publish one's own. -/
structure QueueOrders where
  /-- `head_.load` in `enqueue` -/
  headLoad : LoadOrder
  /-- `tail_.store` in `enqueue` -/
  tailStore : StoreOrder
  /-- `tail_.load` in `dequeue` -/
  tailLoad : LoadOrder
  /-- `head_.store` in `dequeue` -/
  headStore : StoreOrder
  deriving DecidableEq

/-- The orders `queue.h` asks for. -/
def QueueOrders.source : QueueOrders where
  headLoad := .acquire
  tailStore := .release
  tailLoad := .acquire
  headStore := .release

/-- The memory, where both threads stand, and the operations completed so far. -/
structure WeakQueue (T : Type*) where
  memory : QueueMemory T
  producer : EnqueuePc T
  consumer : DequeuePc T
  trace : List (FifoEvent T)

/-- A scheduling decision; `n` is the message a load reads, and is not used by other accesses. -/
inductive WeakAction (T : Type*) where
  /-- The producer calls `enqueue(item)` and loads `tail_`. -/
  | call (item : T) (n : ℕ)
  /-- The producer makes its next access inside `enqueue`. -/
  | produce (n : ℕ)
  /-- The consumer makes its next access, calling `dequeue` when idle. -/
  | consume (n : ℕ)

namespace WeakQueue

/-- Constructed before either thread starts. -/
def init [Inhabited T] : WeakQueue T where
  memory := .init (fun _ => 0) fun _ => default
  producer := .idle
  consumer := .idle
  trace := []

/-- `(i + 1) & (capacity_ - 1)` -/
def advance (capacity i : UInt64) : UInt64 := (i + 1) &&& (capacity - 1)

/-- The first access of `enqueue(item)`. -/
def call (s : WeakQueue T) (item : T) (n : ℕ) : Option (WeakQueue T) :=
  match s.producer with
  | .idle =>
      (s.memory.load .producer .tail .relaxed n).map fun (tail, memory) =>
        { s with memory, producer := .loadHead item tail }
  | _ => none

/-- The next access of `enqueue`. -/
def produce (capacity : UInt64) (o : QueueOrders) (s : WeakQueue T) (n : ℕ) :
    Option (WeakQueue T) :=
  match s.producer with
  | .idle => none
  | .loadHead item tail =>
      (s.memory.load .producer .head o.headLoad n).map fun (head, memory) =>
        let nextTail := advance capacity tail
        if nextTail = head then
          -- `return false`
          { s with memory, producer := .idle, trace := s.trace ++ [.pushFull item] }
        else { s with memory, producer := .writeSlot item tail nextTail }
  | .writeSlot item tail nextTail =>
      some { s with
        memory := s.memory.write .producer tail.toNat item
        producer := .storeTail item tail nextTail }
  | .storeTail item _ nextTail =>
      some { s with
        memory := s.memory.store .producer .tail o.tailStore nextTail
        producer := .idle
        trace := s.trace ++ [.push item] }

/-- The next access of `dequeue`. -/
def consume (capacity : UInt64) (o : QueueOrders) (s : WeakQueue T) (n : ℕ) :
    Option (WeakQueue T) :=
  match s.consumer with
  | .idle =>
      (s.memory.load .consumer .head .relaxed n).map fun (head, memory) =>
        { s with memory, consumer := .loadTail head }
  | .loadTail head =>
      (s.memory.load .consumer .tail o.tailLoad n).map fun (tail, memory) =>
        if head = tail then
          -- `return false`
          { s with memory, consumer := .idle, trace := s.trace ++ [.popEmpty] }
        else { s with memory, consumer := .readSlot head }
  | .readSlot head =>
      let (item, memory) := s.memory.read .consumer head.toNat
      some { s with memory, consumer := .storeHead head item }
  | .storeHead head item =>
      some { s with
        memory := s.memory.store .consumer .head o.headStore (advance capacity head)
        consumer := .idle
        trace := s.trace ++ [.pop item] }

def step (capacity : UInt64) (o : QueueOrders) (s : WeakQueue T) :
    WeakAction T → Option (WeakQueue T)
  | .call item n => s.call item n
  | .produce n => s.produce capacity o n
  | .consume n => s.consume capacity o n

/-- The buffer slot the next access of a thread goes to. -/
def touches (s : WeakQueue T) : Party → Option ℕ
  | .producer =>
      match s.producer with
      | .writeSlot _ tail _ => some tail.toNat
      | _ => none
  | .consumer =>
      match s.consumer with
      | .readSlot head => some head.toNat
      | _ => none

/-! ## What a step can do -/

/-- The steps one by one, with the value each load has read. -/
inductive Steps (capacity : UInt64) (o : QueueOrders) (s : WeakQueue T) :
    WeakAction T → WeakQueue T → Prop
  | call {item : T} {n : ℕ} {tail : UInt64} {memory : QueueMemory T} (hpc : s.producer = .idle)
      (hload : s.memory.load .producer .tail .relaxed n = some (tail, memory)) :
      Steps capacity o s (.call item n) { s with memory, producer := .loadHead item tail }
  | full {item : T} {n : ℕ} {tail head : UInt64} {memory : QueueMemory T}
      (hpc : s.producer = .loadHead item tail)
      (hload : s.memory.load .producer .head o.headLoad n = some (head, memory))
      (hfull : advance capacity tail = head) :
      Steps capacity o s (.produce n)
        { s with memory, producer := .idle, trace := s.trace ++ [.pushFull item] }
  | checked {item : T} {n : ℕ} {tail head : UInt64} {memory : QueueMemory T}
      (hpc : s.producer = .loadHead item tail)
      (hload : s.memory.load .producer .head o.headLoad n = some (head, memory))
      (hroom : advance capacity tail ≠ head) :
      Steps capacity o s (.produce n)
        { s with memory, producer := .writeSlot item tail (advance capacity tail) }
  | write {item : T} {n : ℕ} {tail nextTail : UInt64}
      (hpc : s.producer = .writeSlot item tail nextTail) :
      Steps capacity o s (.produce n) { s with
        memory := s.memory.write .producer tail.toNat item
        producer := .storeTail item tail nextTail }
  | publish {item : T} {n : ℕ} {tail nextTail : UInt64}
      (hpc : s.producer = .storeTail item tail nextTail) :
      Steps capacity o s (.produce n) { s with
        memory := s.memory.store .producer .tail o.tailStore nextTail
        producer := .idle
        trace := s.trace ++ [.push item] }
  | start {n : ℕ} {head : UInt64} {memory : QueueMemory T} (hpc : s.consumer = .idle)
      (hload : s.memory.load .consumer .head .relaxed n = some (head, memory)) :
      Steps capacity o s (.consume n) { s with memory, consumer := .loadTail head }
  | empty {n : ℕ} {head tail : UInt64} {memory : QueueMemory T}
      (hpc : s.consumer = .loadTail head)
      (hload : s.memory.load .consumer .tail o.tailLoad n = some (tail, memory))
      (hempty : head = tail) :
      Steps capacity o s (.consume n)
        { s with memory, consumer := .idle, trace := s.trace ++ [.popEmpty] }
  | nonempty {n : ℕ} {head tail : UInt64} {memory : QueueMemory T}
      (hpc : s.consumer = .loadTail head)
      (hload : s.memory.load .consumer .tail o.tailLoad n = some (tail, memory))
      (hne : head ≠ tail) :
      Steps capacity o s (.consume n) { s with memory, consumer := .readSlot head }
  | read {n : ℕ} {head : UInt64} (hpc : s.consumer = .readSlot head) :
      Steps capacity o s (.consume n) { s with
        memory := (s.memory.read .consumer head.toNat).2
        consumer := .storeHead head (s.memory.read .consumer head.toNat).1 }
  | release {n : ℕ} {head : UInt64} {item : T} (hpc : s.consumer = .storeHead head item) :
      Steps capacity o s (.consume n) { s with
        memory := s.memory.store .consumer .head o.headStore (advance capacity head)
        consumer := .idle
        trace := s.trace ++ [.pop item] }

variable {capacity : UInt64} {o : QueueOrders} {s s' : WeakQueue T} {a : WeakAction T}

theorem steps_of_step (h : step capacity o s a = some s') : Steps capacity o s a s' := by
  cases a with
  | call item n =>
      simp only [step, WeakQueue.call] at h
      split at h
      · next hpc =>
          obtain ⟨⟨tail, memory⟩, hload, rfl⟩ := Option.map_eq_some_iff.1 h
          exact .call hpc hload
      · exact absurd h (by simp)
  | produce n =>
      simp only [step, produce] at h
      split at h
      · exact absurd h (by simp)
      · next item tail hpc =>
          obtain ⟨⟨head, memory⟩, hload, rfl⟩ := Option.map_eq_some_iff.1 h
          dsimp only
          split
          · next hfull => exact .full hpc hload hfull
          · next hroom => exact .checked hpc hload hroom
      · next hpc => exact Option.some.inj h ▸ .write hpc
      · next hpc => exact Option.some.inj h ▸ .publish hpc
  | consume n =>
      simp only [step, consume] at h
      split at h
      · next hpc =>
          obtain ⟨⟨head, memory⟩, hload, rfl⟩ := Option.map_eq_some_iff.1 h
          exact .start hpc hload
      · next head hpc =>
          obtain ⟨⟨tail, memory⟩, hload, rfl⟩ := Option.map_eq_some_iff.1 h
          dsimp only
          split
          · next hempty => exact .empty hpc hload hempty
          · next hne => exact .nonempty hpc hload hne
      · next hpc => exact Option.some.inj h ▸ .read hpc
      · next hpc => exact Option.some.inj h ▸ .release hpc

/-! ## Counting messages

Message `n` of `tail_` is the one the `n`-th successful enqueue stored, and likewise for `head_`. So
what a thread has seen of an index is a number of operations it knows of. -/

/-- The elements enqueued so far. -/
abbrev pushes (s : WeakQueue T) : ℕ := (pushed s.trace).length

/-- The elements dequeued so far. -/
abbrev pops (s : WeakQueue T) : ℕ := (popped s.trace).length

/-- The dequeues the producer knows of. -/
abbrev popsSeen (s : WeakQueue T) : ℕ := (s.memory.view .producer).seen .head

/-- The enqueues the consumer knows of. -/
abbrev pushesSeen (s : WeakQueue T) : ℕ := (s.memory.view .consumer).seen .tail

/-- What the producer's program counter promises. -/
def ProducerOk (c pushes popsSeen : ℕ) (cell : ℕ → T) : EnqueuePc T → Prop
  | .idle => True
  | .loadHead _ tail => tail.toNat = pushes % c
  | .writeSlot _ tail nextTail =>
      tail.toNat = pushes % c ∧ nextTail.toNat = (pushes + 1) % c ∧ pushes + 1 < popsSeen + c
  | .storeTail item tail nextTail =>
      tail.toNat = pushes % c ∧ nextTail.toNat = (pushes + 1) % c ∧ pushes + 1 < popsSeen + c ∧
        cell (pushes % c) = item

/-- What the consumer's program counter promises. -/
def ConsumerOk (c pops pushesSeen : ℕ) (held : List T) : DequeuePc T → Prop
  | .idle => True
  | .loadTail head => head.toNat = pops % c
  | .readSlot head => head.toNat = pops % c ∧ pops < pushesSeen
  | .storeHead head item =>
      head.toNat = pops % c ∧ pops < pushesSeen ∧ held.head? = some item

/-- The invariant that holds under any memory orders. -/
structure Inv (cap : LockFreeQueue.Capacity) (s : WeakQueue T) (held : List T) : Prop where
  wf : s.memory.Wf
  replays : Replays (cap.1.toNat - 1) (completed s.trace) held
  index : ∀ l n msg, (s.memory.history l)[n]? = some msg → msg.value.toNat = n % cap.1.toNat
  tails : (s.memory.history .tail).length = s.pushes + 1
  heads : (s.memory.history .head).length = s.pops + 1
  ownTail : (s.memory.view .producer).seen .tail = s.pushes
  ownHead : (s.memory.view .consumer).seen .head = s.pops
  room : s.pushes + 1 ≤ s.popsSeen + cap.1.toNat
  known : s.pops ≤ s.pushesSeen
  slots : ∀ i v, held[i]? = some v → s.memory.cell ((s.pops + i) % cap.1.toNat) = v
  producer : ProducerOk cap.1.toNat s.pushes s.popsSeen s.memory.cell s.producer
  consumer : ConsumerOk cap.1.toNat s.pops s.pushesSeen held s.consumer

theorem inv_init [Inhabited T] (cap : LockFreeQueue.Capacity) :
    Inv cap (init : WeakQueue T) [] where
  wf := Memory.wf_init ..
  replays := .nil
  index l n msg h := by
    obtain ⟨hn, rfl⟩ := List.getElem?_eq_some_iff.1 h
    obtain rfl : n = 0 := Nat.lt_one_iff.1 hn
    exact (Nat.zero_mod _).symm
  tails := rfl
  heads := rfl
  ownTail := rfl
  ownHead := rfl
  room := Nat.add_le_add (Nat.zero_le _) cap.2.pos
  known := Nat.zero_le _
  slots i v h := absurd h (by simp)
  producer := trivial
  consumer := trivial

variable {cap : LockFreeQueue.Capacity} {held : List T}

/-- Knowing of more dequeues keeps the producer's promise. -/
theorem ProducerOk.mono {c pushes popsSeen popsSeen' : ℕ} {cell : ℕ → T} {pc : EnqueuePc T}
    (h : ProducerOk c pushes popsSeen cell pc) (hle : popsSeen ≤ popsSeen') :
    ProducerOk c pushes popsSeen' cell pc := by
  cases pc with
  | idle => trivial
  | loadHead item tail => exact h
  | writeSlot item tail nextTail => exact ⟨h.1, h.2.1, by have := h.2.2; omega⟩
  | storeTail item tail nextTail => exact ⟨h.1, h.2.1, by have := h.2.2.1; omega, h.2.2.2⟩

theorem ConsumerOk.mono {c pops pushesSeen pushesSeen' : ℕ} {pc : DequeuePc T}
    (h : ConsumerOk c pops pushesSeen held pc) (hle : pushesSeen ≤ pushesSeen') :
    ConsumerOk c pops pushesSeen' held pc := by
  cases pc with
  | idle => trivial
  | loadTail head => exact h
  | readSlot head => exact ⟨h.1, Nat.lt_of_lt_of_le h.2 hle⟩
  | storeHead head item => exact ⟨h.1, Nat.lt_of_lt_of_le h.2.1 hle, h.2.2⟩

theorem ConsumerOk.push {c pops pushesSeen : ℕ} {pc : DequeuePc T}
    (h : ConsumerOk c pops pushesSeen held pc) (item : T) :
    ConsumerOk c pops pushesSeen (held ++ [item]) pc := by
  cases pc with
  | idle => trivial
  | loadTail head => exact h
  | readSlot head => exact h
  | storeHead head item' => exact ⟨h.1, h.2.1, by rw [List.head?_append, h.2.2]; rfl⟩

namespace Inv

theorem balanced (h : Inv cap s held) : Balanced s.trace held := by
  have hbal := h.replays.balanced
  rwa [BoundedFifo.Balanced, pushed_completed, popped_completed] at hbal

theorem pushes_eq (h : Inv cap s held) : s.pushes = s.pops + held.length := by
  rw [pushes, h.balanced, List.length_append]

/-- Nobody knows of an operation that has not happened. -/
theorem popsSeen_le (h : Inv cap s held) : s.popsSeen ≤ s.pops :=
  Nat.le_of_lt_succ (Nat.lt_of_lt_of_eq (h.wf.seen_lt .producer .head) h.heads)

theorem pushesSeen_le (h : Inv cap s held) : s.pushesSeen ≤ s.pushes :=
  Nat.le_of_lt_succ (Nat.lt_of_lt_of_eq (h.wf.seen_lt .consumer .tail) h.tails)

theorem length_lt (h : Inv cap s held) : held.length < cap.1.toNat := by
  have hroom := h.room
  have hseen := h.popsSeen_le
  have hpush := h.pushes_eq
  omega

/-- **Loads.** Any load of either thread keeps the invariant, whichever message it reads; the value
    read is that message's number, masked. -/
theorem load {u : Party} {l : Index} {lo : LoadOrder} {n : ℕ} {v : UInt64}
    {memory : QueueMemory T} (h : Inv cap s held)
    (hload : s.memory.load u l lo n = some (v, memory)) :
    Inv cap { s with memory } held ∧ v.toNat = n % cap.1.toNat ∧
      (s.memory.view u).seen l ≤ n ∧ (memory.view u).seen l = n := by
  have hwf := h.wf.load hload
  obtain ⟨hn, msg, hmsg, rfl, rfl⟩ := Memory.load_eq_some_iff.1 hload
  have hview := Memory.view_le_setView (Memory.le_observe hn msg lo)
  refine ⟨?_, h.index l n msg hmsg, hn, ?_⟩
  · refine { h with wf := hwf, ownTail := ?_, ownHead := ?_, room := ?_, known := ?_,
                    producer := h.producer.mono ((hview .producer).1 .head)
                    consumer := h.consumer.mono ((hview .consumer).1 .tail) }
    -- a thread's own index is seen up to its last message, before and after
    · refine Nat.le_antisymm (Nat.le_of_lt_succ ?_) (h.ownTail ▸ (hview .producer).1 .tail)
      exact Nat.lt_of_lt_of_eq (hwf.seen_lt .producer .tail) h.tails
    · refine Nat.le_antisymm (Nat.le_of_lt_succ ?_) (h.ownHead ▸ (hview .consumer).1 .head)
      exact Nat.lt_of_lt_of_eq (hwf.seen_lt .consumer .head) h.heads
    · exact h.room.trans (Nat.add_le_add_right ((hview .producer).1 .head) _)
    · exact h.known.trans ((hview .consumer).1 .tail)
  · rw [Memory.view_setView_self]
    exact h.wf.seen_observe hmsg lo

theorem refuse (h : Inv cap s held) {e : FifoEvent T} (he : completed [e] = []) :
    Inv cap { s with trace := s.trace ++ [e] } held := by
  have hcomp : completed (s.trace ++ [e]) = completed s.trace := by
    rw [completed_append, he, List.append_nil]
  have hpushes : ({ s with trace := s.trace ++ [e] } : WeakQueue T).pushes = s.pushes := by
    rw [pushes, ← pushed_completed, hcomp, pushed_completed]
  have hpops : ({ s with trace := s.trace ++ [e] } : WeakQueue T).pops = s.pops := by
    rw [pops, ← popped_completed, hcomp, popped_completed]
  constructor
  case replays => rw [hcomp]; exact h.replays
  case tails => rw [hpushes]; exact h.tails
  case heads => rw [hpops]; exact h.heads
  case ownTail => rw [hpushes]; exact h.ownTail
  case ownHead => rw [hpops]; exact h.ownHead
  case room => rw [hpushes]; exact h.room
  case known => rw [hpops]; exact h.known
  case slots => rw [hpops]; exact h.slots
  case producer => rw [hpushes]; exact h.producer
  case consumer => rw [hpops]; exact h.consumer
  case wf => exact h.wf
  case index => exact h.index

theorem toNat_advance {i : UInt64} {n : ℕ} (h : i.toNat = n % cap.1.toNat) :
    (advance cap.1 i).toNat = (n + 1) % cap.1.toNat := by
  unfold advance
  rw [cap.2.succ_and_mask, h, Nat.mod_add_mod]

/-- The full test succeeds exactly if the elements not known to be gone fill the ring. -/
theorem advance_eq_iff (h : Inv cap s held) {tail head : UInt64}
    (htail : tail.toNat = s.pushes % cap.1.toNat)
    (hhead : head.toNat = s.popsSeen % cap.1.toNat) :
    advance cap.1 tail = head ↔ s.pushes + 1 = s.popsSeen + cap.1.toNat := by
  have hseen := h.popsSeen_le
  have hpush := h.pushes_eq
  have hroom := h.room
  have hlen : s.pushes - s.popsSeen < cap.1.toNat := by omega
  have hiff := next_eq_start_iff s.popsSeen hlen
  rw [Nat.add_sub_cancel' (by omega)] at hiff
  rw [← UInt64.toNat_inj, toNat_advance htail, hhead, hiff]
  omega

/-- The empty test succeeds exactly if the consumer knows of nothing it has not dequeued. -/
theorem head_eq_iff (h : Inv cap s held) {head tail : UInt64}
    (hhead : head.toNat = s.pops % cap.1.toNat)
    (htail : tail.toNat = s.pushesSeen % cap.1.toNat) :
    head = tail ↔ s.pushesSeen = s.pops := by
  have hseen := h.pushesSeen_le
  have hpush := h.pushes_eq
  have hlen := h.length_lt
  have hknown := h.known
  have hlt : s.pushesSeen - s.pops < cap.1.toNat := by omega
  have hiff := end_eq_start_iff s.pops hlt
  rw [Nat.add_sub_cancel' hknown] at hiff
  rw [← UInt64.toNat_inj, hhead, htail, eq_comm, hiff]
  omega

theorem write {item : T} {tail nextTail : UInt64} (h : Inv cap s held)
    (hpc : s.producer = .writeSlot item tail nextTail) :
    Inv cap { s with
      memory := s.memory.write .producer tail.toNat item
      producer := .storeTail item tail nextTail } held := by
  have hp := h.producer
  rw [hpc] at hp
  obtain ⟨htail, hnext, hroom⟩ := hp
  have hview : ∀ u l, ((s.memory.write .producer tail.toNat item).view u).seen l
      = (s.memory.view u).seen l := fun u l =>
    Memory.seen_access s.memory .producer u tail.toNat true l
  constructor
  case wf => exact h.wf.write ..
  case replays => exact h.replays
  case index => exact h.index
  case tails => exact h.tails
  case heads => exact h.heads
  case ownTail => exact (hview ..).trans h.ownTail
  case ownHead => exact (hview ..).trans h.ownHead
  case room => exact h.room.trans (Nat.add_le_add_right (hview .producer .head).ge _)
  case known => exact h.known.trans (hview .consumer .tail).ge
  case slots =>
    intro i v hi
    have hlt : i < held.length := (List.getElem?_eq_some_iff.1 hi).1
    have hlen := h.length_lt
    have hne := slot_ne (n := cap.1.toNat) s.pops hlt (by omega)
    rw [← h.pushes_eq, ← htail] at hne
    exact (Function.update_of_ne hne _ _).trans (h.slots i v hi)
  case producer =>
    have hle := Nat.add_le_add_right (hview .producer .head).ge cap.1.toNat
    refine ⟨htail, hnext, Nat.lt_of_lt_of_le hroom hle, ?_⟩
    rw [← htail]
    exact Function.update_self ..
  case consumer => exact h.consumer.mono (hview .consumer .tail).ge

theorem publish {item : T} {tail nextTail : UInt64} (h : Inv cap s held)
    (hpc : s.producer = .storeTail item tail nextTail) (so : StoreOrder) :
    Inv cap { s with
      memory := s.memory.store .producer .tail so nextTail
      producer := .idle
      trace := s.trace ++ [.push item] } (held ++ [item]) := by
  have hp := h.producer
  rw [hpc] at hp
  obtain ⟨htail, hnext, hroom, hcell⟩ := hp
  have hpush := h.pushes_eq
  have hseen := h.popsSeen_le
  have hpushes : (pushed (s.trace ++ [.push item])).length = s.pushes + 1 := by simp
  have hother : ∀ l, l ≠ .tail →
      ((s.memory.store .producer .tail so nextTail).view .producer).seen l
        = (s.memory.view .producer).seen l := by
    intro l hl
    rw [Memory.view_store_self, View.seen_see_of_ne _ hl]
  have hconsumer : (s.memory.store .producer .tail so nextTail).view .consumer
      = s.memory.view .consumer := Memory.view_store_of_ne _ (by decide) ..
  constructor
  case wf => exact h.wf.store ..
  case replays =>
    rw [completed_append]
    exact h.replays.snoc (.push item (by omega))
  case index =>
    intro l n msg hmsg
    rcases Memory.getElem?_store hmsg with hold | ⟨rfl, rfl, rfl⟩
    · exact h.index l n msg hold
    · rw [h.tails]
      exact hnext
  case tails => rw [pushes, hpushes, ← h.tails]; exact Memory.length_store_self ..
  case heads =>
    rw [pops, popped_concat_push]
    exact (congrArg List.length (Memory.history_store_of_ne _ _ (by decide) ..)).trans h.heads
  case ownTail =>
    rw [pushes, hpushes, ← h.tails]
    show ((s.memory.store .producer .tail so nextTail).view .producer).seen .tail = _
    rw [Memory.view_store_self, View.seen_see_self]
  case ownHead =>
    rw [pops, popped_concat_push]
    exact (congrArg (View.seen · .head) hconsumer).trans h.ownHead
  case room =>
    rw [pushes, hpushes, popsSeen, hother .head (by decide)]
    exact hroom
  case known =>
    rw [pops, popped_concat_push, pushesSeen, hconsumer]
    exact h.known
  case slots =>
    intro i v hi
    rw [pops, popped_concat_push]
    rcases Nat.lt_trichotomy i held.length with hlt | rfl | hgt
    · rw [List.getElem?_append_left hlt] at hi
      exact h.slots i v hi
    · rw [List.getElem?_concat_length] at hi
      rw [← pops, ← hpush, ← Option.some.inj hi]
      exact hcell
    · rw [List.getElem?_eq_none (by simp; omega)] at hi
      exact absurd hi (by simp)
  case producer => trivial
  case consumer =>
    rw [pops, popped_concat_push, pushesSeen, hconsumer]
    exact h.consumer.push item

theorem ne_nil (h : Inv cap s held) (hknown : s.pops < s.pushesSeen) : held ≠ [] := by
  have hseen := h.pushesSeen_le
  have hpush := h.pushes_eq
  rintro rfl
  simp only [List.length_nil] at hpush
  omega

theorem read {head : UInt64} (h : Inv cap s held) (hpc : s.consumer = .readSlot head) :
    Inv cap { s with
      memory := (s.memory.read .consumer head.toNat).2
      consumer := .storeHead head (s.memory.read .consumer head.toNat).1 } held := by
  have hc := h.consumer
  rw [hpc] at hc
  obtain ⟨hhead, hknown⟩ := hc
  obtain ⟨item, rest, rfl⟩ := List.exists_cons_of_ne_nil (h.ne_nil hknown)
  have hitem : s.memory.cell head.toNat = item := by
    rw [hhead, ← Nat.add_zero s.pops]
    exact h.slots 0 item rfl
  have hview : ∀ u l, ((s.memory.read .consumer head.toNat).2.view u).seen l
      = (s.memory.view u).seen l := fun u l =>
    Memory.seen_access s.memory .consumer u head.toNat false l
  constructor
  case wf => exact h.wf.read ..
  case replays => exact h.replays
  case index => exact h.index
  case tails => exact h.tails
  case heads => exact h.heads
  case ownTail => exact (hview ..).trans h.ownTail
  case ownHead => exact (hview ..).trans h.ownHead
  case room => exact h.room.trans (Nat.add_le_add_right (hview .producer .head).ge _)
  case known => exact h.known.trans (hview .consumer .tail).ge
  case slots => exact h.slots
  case producer => exact h.producer.mono (hview .producer .head).ge
  case consumer =>
    exact ⟨hhead, Nat.lt_of_lt_of_le hknown (hview .consumer .tail).ge, congrArg some hitem.symm⟩

theorem release {head : UInt64} {item : T} {rest : List T} (h : Inv cap s (item :: rest))
    (hpc : s.consumer = .storeHead head item) (so : StoreOrder) :
    Inv cap { s with
      memory := s.memory.store .consumer .head so (advance cap.1 head)
      consumer := .idle
      trace := s.trace ++ [.pop item] } rest := by
  have hc := h.consumer
  rw [hpc] at hc
  obtain ⟨hhead, hknown, -⟩ := hc
  have hpops : (popped (s.trace ++ [.pop item])).length = s.pops + 1 := by simp
  have hother : ∀ l, l ≠ .head →
      ((s.memory.store .consumer .head so (advance cap.1 head)).view .consumer).seen l
        = (s.memory.view .consumer).seen l := by
    intro l hl
    rw [Memory.view_store_self, View.seen_see_of_ne _ hl]
  have hproducer : (s.memory.store .consumer .head so (advance cap.1 head)).view .producer
      = s.memory.view .producer := Memory.view_store_of_ne _ (by decide) ..
  constructor
  case wf => exact h.wf.store ..
  case replays =>
    rw [completed_append]
    exact h.replays.snoc (.pop item)
  case index =>
    intro l n msg hmsg
    rcases Memory.getElem?_store hmsg with hold | ⟨rfl, rfl, rfl⟩
    · exact h.index l n msg hold
    · rw [h.heads]
      exact toNat_advance hhead
  case tails =>
    rw [pushes, pushed_concat_pop]
    exact (congrArg List.length (Memory.history_store_of_ne _ _ (by decide) ..)).trans h.tails
  case heads => rw [pops, hpops, ← h.heads]; exact Memory.length_store_self ..
  case ownTail =>
    rw [pushes, pushed_concat_pop]
    exact (congrArg (View.seen · .tail) hproducer).trans h.ownTail
  case ownHead =>
    rw [pops, hpops, ← h.heads]
    show ((s.memory.store .consumer .head so (advance cap.1 head)).view .consumer).seen .head = _
    rw [Memory.view_store_self, View.seen_see_self]
  case room =>
    rw [pushes, pushed_concat_pop, popsSeen, hproducer]
    exact h.room
  case known =>
    rw [pops, hpops, pushesSeen, hother .tail (by decide)]
    exact hknown
  case slots =>
    intro i v hi
    rw [pops, hpops, Nat.add_assoc, Nat.add_comm 1 i]
    exact h.slots (i + 1) v hi
  case producer =>
    rw [pushes, pushed_concat_pop, popsSeen, hproducer]
    exact h.producer
  case consumer => trivial

/-- **Step lemma.** Under any memory orders every step keeps the counting invariant. An enqueue that
    is refused found the ring filled by the elements it does not know to be gone, a dequeue that is
    refused knew of nothing left to take. -/
theorem step (h : Inv cap s held) (hs : step cap.1 o s a = some s') :
    ∃ held', Inv cap s' held' ∧
      (∀ item, s'.trace = s.trace ++ [.pushFull item] →
        s'.pushes + 1 = s'.popsSeen + cap.1.toNat) ∧
      (s'.trace = s.trace ++ [.popEmpty] → s'.pushesSeen = s'.pops) := by
  -- only the two refusing steps have something to say about refusals
  have hquiet : ∀ {e : FifoEvent T}, s.trace ≠ s.trace ++ [e] := by simp
  cases steps_of_step hs with
  | call hpc hload =>
      obtain ⟨h', hvalue, -, hseen⟩ := h.load hload
      refine ⟨held, { h' with producer := ?_ }, fun _ htr => absurd htr hquiet,
        fun htr => absurd htr hquiet⟩
      have hown := h'.ownTail
      rw [hseen] at hown
      exact hown ▸ hvalue
  | full hpc hload hfull =>
      obtain ⟨h', hvalue, -, rfl⟩ := h.load hload
      have hp := h.producer
      rw [hpc] at hp
      have hcount := (h'.advance_eq_iff hp hvalue).1 hfull
      have h'' : Inv cap { s with memory := _, producer := .idle } held :=
        { h' with producer := trivial }
      refine ⟨held, h''.refuse rfl, fun _ _ => ?_, fun htr => absurd htr (by simp)⟩
      rw [pushes, pushed_concat_pushFull]
      exact hcount
  | checked hpc hload hroom =>
      obtain ⟨h', hvalue, -, rfl⟩ := h.load hload
      have hp := h.producer
      rw [hpc] at hp
      refine ⟨held, { h' with producer := ⟨hp, toNat_advance hp, ?_⟩ },
        fun _ htr => absurd htr hquiet, fun htr => absurd htr hquiet⟩
      exact Nat.lt_of_le_of_ne h'.room fun he => hroom ((h'.advance_eq_iff hp hvalue).2 he)
  | write hpc =>
      exact ⟨held, h.write hpc, fun _ htr => absurd htr hquiet, fun htr => absurd htr hquiet⟩
  | publish hpc =>
      exact ⟨_, h.publish hpc _, fun _ htr => absurd htr (by simp), fun htr => absurd htr (by simp)⟩
  | start hpc hload =>
      obtain ⟨h', hvalue, -, hseen⟩ := h.load hload
      refine ⟨held, { h' with consumer := ?_ }, fun _ htr => absurd htr hquiet,
        fun htr => absurd htr hquiet⟩
      have hown := h'.ownHead
      rw [hseen] at hown
      exact hown ▸ hvalue
  | empty hpc hload hempty =>
      obtain ⟨h', hvalue, -, rfl⟩ := h.load hload
      have hc := h.consumer
      rw [hpc] at hc
      have hcount := (h'.head_eq_iff hc hvalue).1 hempty
      have h'' : Inv cap { s with memory := _, consumer := .idle } held :=
        { h' with consumer := trivial }
      refine ⟨held, h''.refuse rfl, fun _ htr => absurd htr (by simp), fun _ => ?_⟩
      rw [pops, popped_concat_popEmpty]
      exact hcount
  | nonempty hpc hload hne =>
      obtain ⟨h', hvalue, -, rfl⟩ := h.load hload
      have hc := h.consumer
      rw [hpc] at hc
      refine ⟨held, { h' with consumer := ⟨hc, ?_⟩ }, fun _ htr => absurd htr hquiet,
        fun htr => absurd htr hquiet⟩
      exact Nat.lt_of_le_of_ne h'.known fun he => hne ((h'.head_eq_iff hc hvalue).2 he.symm)
  | read hpc =>
      exact ⟨held, h.read hpc, fun _ htr => absurd htr hquiet, fun htr => absurd htr hquiet⟩
  | @release n head item hpc =>
      have hc := h.consumer
      rw [hpc] at hc
      obtain ⟨rest, rfl⟩ := List.head?_eq_some_iff.1 hc.2.2
      exact ⟨rest, h.release hpc _, fun _ htr => absurd htr (by simp),
        fun htr => absurd htr (by simp)⟩

end Inv

/-- **Run lemma**, for any memory orders. -/
theorem inv_run [Inhabited T] {acts : List (WeakAction T)}
    (hrun : run (step cap.1 o) init acts = some s) : ∃ held, Inv cap s held :=
  run_invariant (fun s => ∃ held, Inv cap s held)
    (fun _ _ _ ⟨_, h⟩ hs => let ⟨held', h', _⟩ := h.step hs; ⟨held', h'⟩) ⟨[], inv_init cap⟩ hrun

end WeakQueue

end MarketFeed
