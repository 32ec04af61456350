import MarketFeed.Basic
import MarketFeed.Library.RingBuffer

set_option autoImplicit false

/-! # `LockFreeQueue` (`include/utils/queue.h`)

The members and operations of the ring buffer as one thread sees them, and `Represents`, which reads
a queue as the list of elements it holds. The lemmas about `Represents` are stated for one memory
access each (write the free slot, publish the tail, read the head slot, release it), so that the
step-by-step model in `QueueSteps.lean` uses the same lemmas as the whole operations here. -/

namespace MarketFeed

open RingBuffer

/-- The members of `LockFreeQueue<T>`. -/
structure LockFreeQueue (T : Type*) where
  buffer : List T
  capacity : UInt64
  head : UInt64
  tail : UInt64

namespace LockFreeQueue

variable {T : Type*}

/-- `LockFreeQueue(size_t capacity)`; `resize` fills the buffer with default values. -/
def new [Inhabited T] (capacity : UInt64) : Except CppException (LockFreeQueue T) :=
  if (capacity &&& (capacity - 1)) ≠ 0 then
    .error (.invalidArgument "Capacity must be a power of 2")
  else
    .ok { buffer := List.replicate capacity.toNat default, capacity, head := 0, tail := 0 }

/-- `(i + 1) & (capacity_ - 1)` -/
def advance (q : LockFreeQueue T) (i : UInt64) : UInt64 := (i + 1) &&& (q.capacity - 1)

/-- `bool enqueue(const T& item)`. In the source the write is undefined where `tail` is no slot of
    the buffer, which only a queue of capacity zero lets happen. -/
def enqueue (q : LockFreeQueue T) (item : T) : Bool × LockFreeQueue T :=
  let tail := q.tail
  let nextTail := q.advance tail
  if nextTail = q.head then (false, q)
  else (true, { q with buffer := q.buffer.set tail.toNat item, tail := nextTail })

/-- `bool dequeue(T& item)`; `none` where the source returns false and leaves `item` alone. -/
def dequeue [Inhabited T] (q : LockFreeQueue T) : Option T × LockFreeQueue T :=
  let head := q.head
  if head = q.tail then (none, q)
  else (some (q.buffer.getD head.toNat default), { q with head := q.advance head })

/-- `size_t size() const` -/
def size (q : LockFreeQueue T) : UInt64 := (q.tail - q.head) &&& (q.capacity - 1)

/-- The full test of `enqueue`. -/
abbrev Full (q : LockFreeQueue T) : Prop := q.advance q.tail = q.head

/-- The empty test of `dequeue`. -/
abbrev Empty (q : LockFreeQueue T) : Prop := q.head = q.tail

theorem enqueue_full {q : LockFreeQueue T} (h : q.Full) (item : T) :
    q.enqueue item = (false, q) := if_pos h

theorem enqueue_not_full {q : LockFreeQueue T} (h : ¬ q.Full) (item : T) :
    q.enqueue item
      = (true, { q with buffer := q.buffer.set q.tail.toNat item, tail := q.advance q.tail }) :=
  if_neg h

/-- The result of `enqueue` is the negated full test. -/
theorem enqueue_fst (q : LockFreeQueue T) (item : T) :
    (q.enqueue item).1 = decide (¬ q.Full) := by
  by_cases h : q.Full
  · simp [enqueue_full h, h]
  · simp [enqueue_not_full h, h]

theorem enqueue_fst_eq_true_iff (q : LockFreeQueue T) (item : T) :
    (q.enqueue item).1 = true ↔ ¬ q.Full := by
  rw [enqueue_fst, decide_eq_true_iff]

/-! ## Capacities the constructor was written for -/

/-- A power-of-two capacity. -/
abbrev Capacity := { c : UInt64 // PowTwo c }

/-- The default argument of `Cache(int capacity = 1024)`. -/
def Capacity.default : Capacity := ⟨1024, 10, rfl⟩

/-- The queue the constructor builds for a power-of-two capacity. -/
def ofCapacity [Inhabited T] (cap : Capacity) : LockFreeQueue T :=
  { buffer := List.replicate cap.1.toNat default, capacity := cap.1, head := 0, tail := 0 }

theorem new_capacity [Inhabited T] (cap : Capacity) :
    (new cap.1 : Except CppException (LockFreeQueue T)) = .ok (ofCapacity cap) := by
  have h : cap.1 &&& (cap.1 - 1) = 0 := (and_pred_eq_zero_iff cap.1).2 (Or.inr cap.2)
  unfold new
  rw [if_neg (not_not.2 h)]
  rfl

/-- The constructor accepts the powers of two and, past its intention, zero. -/
theorem new_isOk_iff [Inhabited T] (c : UInt64) :
    (∃ q : LockFreeQueue T, new c = .ok q) ↔ c = 0 ∨ PowTwo c := by
  rw [← and_pred_eq_zero_iff]
  unfold new
  constructor
  · rintro ⟨q, hq⟩
    by_contra h
    rw [if_pos h] at hq
    exact absurd hq (by simp)
  · intro h
    rw [if_neg (not_not.2 h)]
    exact ⟨_, rfl⟩

/-! ## The elements a queue holds -/

/-- `q` holds `held`, oldest first, after `d` elements have been taken out of it. -/
structure Represents (q : LockFreeQueue T) (d : ℕ) (held : List T) : Prop where
  pow : PowTwo q.capacity
  length : q.buffer.length = q.capacity.toNat
  head : q.head.toNat = d % q.capacity.toNat
  tail : q.tail.toNat = (d + held.length) % q.capacity.toNat
  room : held.length < q.capacity.toNat
  window : Holds q.buffer d held

theorem represents_ofCapacity [Inhabited T] (cap : Capacity) :
    (ofCapacity cap : LockFreeQueue T).Represents 0 [] where
  pow := cap.2
  length := List.length_replicate
  head := (Nat.zero_mod _).symm
  tail := (Nat.zero_mod _).symm
  room := cap.2.pos
  window := holds_nil

namespace Represents

variable {q : LockFreeQueue T} {d : ℕ} {held : List T}

theorem advance_tail (h : q.Represents d held) :
    (q.advance q.tail).toNat = (d + held.length + 1) % q.capacity.toNat := by
  unfold advance
  rw [h.pow.succ_and_mask, h.tail, Nat.mod_add_mod]

theorem advance_head (h : q.Represents d held) :
    (q.advance q.head).toNat = (d + 1) % q.capacity.toNat := by
  unfold advance
  rw [h.pow.succ_and_mask, h.head, Nat.mod_add_mod]

/-- The full test succeeds exactly on a queue that holds `capacity - 1` elements. -/
theorem full_iff (h : q.Represents d held) : q.Full ↔ held.length + 1 = q.capacity.toNat := by
  show q.advance q.tail = q.head ↔ _
  rw [← UInt64.toNat_inj, h.advance_tail, h.head]
  exact next_eq_start_iff d h.room

theorem empty_iff (h : q.Represents d held) : q.Empty ↔ held = [] := by
  rw [← List.length_eq_zero_iff, ← end_eq_start_iff d h.room, ← h.tail, ← h.head,
    UInt64.toNat_inj]
  exact eq_comm

theorem toNat_size (h : q.Represents d held) : q.size.toNat = held.length := by
  unfold size
  rw [h.pow.sub_and_mask h.head h.tail (Nat.le_add_right _ _), Nat.add_sub_cancel_left,
    Nat.mod_eq_of_lt h.room]

theorem head_lt_length (h : q.Represents d held) : q.head.toNat < q.buffer.length := by
  rw [h.length, h.head]
  exact Nat.mod_lt _ h.pow.pos

theorem tail_lt_length (h : q.Represents d held) : q.tail.toNat < q.buffer.length := by
  rw [h.length, h.tail]
  exact Nat.mod_lt _ h.pow.pos

/-- The slot about to be written is not the slot about to be read. -/
theorem tail_ne_head (h : q.Represents d held) (hne : held ≠ []) : q.tail ≠ q.head :=
  fun he => hne (h.empty_iff.1 he.symm)

theorem write (h : q.Represents d held) (item : T) :
    ({ q with buffer := q.buffer.set q.tail.toNat item } : LockFreeQueue T).Represents d held where
  pow := h.pow
  length := List.length_set.trans h.length
  head := h.head
  tail := h.tail
  room := h.room
  window := by
    rw [h.tail, ← h.length]
    exact h.window.set_free (h.length ▸ h.room) item

theorem getElem?_write (h : q.Represents d held) (item : T) :
    (q.buffer.set q.tail.toNat item)[q.tail.toNat]? = some item := by
  rw [h.tail, ← h.length]
  exact getElem?_set_free (h.length ▸ h.pow.pos) _ item

theorem publish (h : q.Represents d held) {item : T} (hslot : q.buffer[q.tail.toNat]? = some item)
    (hroom : held.length + 1 < q.capacity.toNat) :
    ({ q with tail := q.advance q.tail } : LockFreeQueue T).Represents d (held ++ [item]) where
  pow := h.pow
  length := h.length
  head := h.head
  tail := by
    rw [List.length_append, List.length_singleton, ← Nat.add_assoc]
    exact h.advance_tail
  room := by rwa [List.length_append, List.length_singleton]
  window := h.window.concat (by rw [h.length, ← h.tail]; exact hslot)

theorem read [Inhabited T] {item : T} {rest : List T} (h : q.Represents d (item :: rest)) :
    q.buffer.getD q.head.toNat default = item := by
  have hslot := h.window.head
  rw [h.length, ← h.head] at hslot
  rw [List.getD_eq_getElem?_getD, hslot, Option.getD_some]

theorem release {item : T} {rest : List T} (h : q.Represents d (item :: rest)) :
    ({ q with head := q.advance q.head } : LockFreeQueue T).Represents (d + 1) rest where
  pow := h.pow
  length := h.length
  head := h.advance_head
  tail := by
    rw [Nat.add_right_comm]
    exact h.tail
  room := Nat.lt_of_succ_lt h.room
  window := h.window.tail

/-! ## The whole operations -/

theorem enqueue_full (h : q.Represents d held) (hfull : held.length + 1 = q.capacity.toNat)
    (item : T) : q.enqueue item = (false, q) :=
  LockFreeQueue.enqueue_full (h.full_iff.2 hfull) item

theorem enqueue_room (h : q.Represents d held) (hroom : held.length + 1 < q.capacity.toNat)
    (item : T) : (q.enqueue item).1 = true ∧ (q.enqueue item).2.Represents d (held ++ [item]) := by
  have hnot : ¬ q.Full := fun hf => Nat.ne_of_lt hroom (h.full_iff.1 hf)
  rw [enqueue_not_full hnot]
  exact ⟨rfl, (h.write item).publish (h.getElem?_write item) hroom⟩

/-- Only a full queue is left alone by an enqueue: otherwise the tail moves. -/
theorem enqueue_snd_eq_iff_full (h : q.Represents d held) (item : T) :
    (q.enqueue item).2 = q ↔ q.Full := by
  refine ⟨fun hsame => ?_, fun hfull => by rw [LockFreeQueue.enqueue_full hfull]⟩
  by_contra hnot
  have hlt : held.length + 1 < q.capacity.toNat :=
    Nat.lt_of_le_of_ne h.room fun he => hnot (h.full_iff.2 he)
  have htail := (h.enqueue_room hlt item).2.tail
  rw [hsame, h.tail, List.length_append, List.length_singleton] at htail
  exact slot_ne d (Nat.lt_succ_self held.length) (by omega) htail

theorem dequeue_empty [Inhabited T] (h : q.Represents d []) : q.dequeue = (none, q) :=
  if_pos (h.empty_iff.2 rfl)

theorem dequeue_cons [Inhabited T] {item : T} {rest : List T}
    (h : q.Represents d (item :: rest)) :
    q.dequeue.1 = some item ∧ q.dequeue.2.Represents (d + 1) rest := by
  have hne : ¬ q.Empty := fun he => absurd (h.empty_iff.1 he) (List.cons_ne_nil _ _)
  unfold dequeue
  rw [if_neg hne]
  exact ⟨congrArg some h.read, h.release⟩

end Represents

@[simp] theorem capacity_enqueue (q : LockFreeQueue T) (item : T) :
    (q.enqueue item).2.capacity = q.capacity := by
  by_cases h : q.Full
  · rw [enqueue_full h]
  · rw [enqueue_not_full h]

@[simp] theorem capacity_dequeue [Inhabited T] (q : LockFreeQueue T) :
    q.dequeue.2.capacity = q.capacity := by
  by_cases h : q.Empty
  · exact congrArg (fun r => r.2.capacity) (if_pos h : q.dequeue = (none, q))
  · exact congrArg (fun r => r.2.capacity) (if_neg h : q.dequeue = _)

end LockFreeQueue

end MarketFeed
