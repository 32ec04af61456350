import MarketFeed.Common
import MarketFeed.Utils.Queue
import MarketFeed.Library.HighWater

set_option autoImplicit false

/-! # `Cache` (`include/cache.h`, `src/cache.cpp`)

The high-water mark `U_` over the ring buffer. `encache` may throw while it reads `"U"`, so it
returns its result or its exception together with the state it leaves behind. `Cache::mutex_` is
never taken and is left out. -/

namespace MarketFeed

/-- The members of `Cache`. -/
structure Cache where
  U : UInt64
  cacheQueue : LockFreeQueue Msg

/-- `uint64_t U = data_value["U"]`, read from a copy of the document. -/
def OrderBook.updateId (lib : JsonLib) (book : OrderBook) : Except CppException UInt64 :=
  match book.data.subscript "U" with
  | .error e => .error e
  | .ok (_, value) => value.toUInt64 lib

/-- The read succeeds exactly on an object with a number under `"U"`: on everything else, and on
    null in particular, it throws. -/
theorem OrderBook.updateId_isOk_iff (lib : JsonLib) (book : OrderBook) :
    (∃ U, book.updateId lib = .ok U) ↔ book.data.HasNumber "U" := by
  unfold OrderBook.updateId
  cases book.data with
  | object members =>
      show (∃ U, ((members.lookup "U").getD .null).toUInt64 lib = .ok U) ↔ _
      rw [Json.toUInt64_isOk_iff]
      cases hU : members.lookup "U" with
      | none => simp [Json.HasNumber, Json.IsNumber, hU]
      | some v => simp [Json.HasNumber, hU]
  | null => simp [Json.subscript, Json.toUInt64, Json.HasNumber]
  | boolean b => simp [Json.subscript, Json.HasNumber]
  | numberUnsigned n => simp [Json.subscript, Json.HasNumber]
  | numberInteger n => simp [Json.subscript, Json.HasNumber]
  | numberFloat x => simp [Json.subscript, Json.HasNumber]
  | string s => simp [Json.subscript, Json.HasNumber]
  | array elems => simp [Json.subscript, Json.HasNumber]

namespace Cache

/-- `Cache(int capacity)` sets no `U_`: it holds whatever `memory` was there. -/
def new (memory : UInt64) (capacity : Int32) : Except CppException Cache :=
  match LockFreeQueue.new (sizeOfInt capacity) with
  | .error e => .error e
  | .ok cacheQueue => .ok { U := memory, cacheQueue }

/-- `return cache_queue_->enqueue(msg)` -/
def enqueue (c : Cache) (msg : Msg) : Except CppException Bool × Cache :=
  (.ok (c.cacheQueue.enqueue msg).1, { c with cacheQueue := (c.cacheQueue.enqueue msg).2 })

/-- `bool encache(const Msg& msg)` -/
def encache (lib : JsonLib) (c : Cache) (msg : Msg) : Except CppException Bool × Cache :=
  match msg.data with
  | none => (.error .nullDereference, c)
  | some book =>
      if msg.source = .webSocket then
        match book.updateId lib with
        | .error e => (.error e, c)
        | .ok U =>
            if U ≤ c.U then (.ok false, c)
            -- the mark moves before the queue is asked
            else { c with U := U }.enqueue msg
      else c.enqueue msg

/-- `bool decache(Msg& msg)` -/
def decache (c : Cache) : Option Msg × Cache :=
  (c.cacheQueue.dequeue.1, { c with cacheQueue := c.cacheQueue.dequeue.2 })

end Cache

/-! ## What `encache` does with a message -/

/-- How `encache` ranks a message: by its update id if it came over a WebSocket, not at all
    otherwise; the error is the exception thrown while reading the id. -/
def Msg.rank (lib : JsonLib) (m : Msg) : Except CppException (Option UInt64) :=
  match m.data with
  | none => .error .nullDereference
  | some book =>
      if m.source = .webSocket then
        match book.updateId lib with
        | .error e => .error e
        | .ok U => .ok (some U)
      else .ok none

/-- The update id of a WebSocket message whose `"U"` converts. -/
def Msg.webSocketId (lib : JsonLib) (m : Msg) : Option UInt64 :=
  match m.rank lib with
  | .ok id => id
  | .error _ => none

/-- A REST order book. -/
def Msg.IsRestBook (m : Msg) : Prop := m.source = .restApi ∧ m.data.isSome

namespace Msg

variable {lib : JsonLib} {m : Msg} {U : UInt64}

theorem webSocketId_eq_some_iff :
    m.webSocketId lib = some U ↔
      m.source = .webSocket ∧ ∃ book, m.data = some book ∧ book.updateId lib = .ok U := by
  unfold webSocketId rank
  cases hdata : m.data with
  | none => simp
  | some book =>
      by_cases hsrc : m.source = .webSocket
      · cases hid : book.updateId lib with
        | error e => simp [hsrc, hid]
        | ok V => simp [hsrc, hid]
      · simp [hsrc]

theorem rank_of_webSocketId (h : m.webSocketId lib = some U) : m.rank lib = .ok (some U) := by
  unfold webSocketId at h
  split at h
  · next hrank => rw [hrank, h]
  · exact absurd h (by simp)

theorem rank_of_isRestBook (h : m.IsRestBook) : m.rank lib = .ok none := by
  obtain ⟨hsrc, hdata⟩ := h
  obtain ⟨book, hbook⟩ := Option.isSome_iff_exists.1 hdata
  unfold rank
  simp [hbook, hsrc]

theorem source_ne_of_rank (h : m.rank lib = .ok none) : m.source ≠ .webSocket := by
  intro hsrc
  unfold rank at h
  split at h
  · exact absurd h (by simp)
  · next book _ =>
      rw [if_pos hsrc] at h
      split at h <;> exact absurd h (by simp)

theorem webSocketId_of_rank {id : Option UInt64} (h : m.rank lib = .ok id) :
    m.webSocketId lib = id := by
  unfold webSocketId
  rw [h]

theorem webSocketId_of_rank_error {e : CppException} (h : m.rank lib = .error e) :
    m.webSocketId lib = none := by
  unfold webSocketId
  rw [h]

end Msg

namespace Cache

variable {lib : JsonLib} {c : Cache} {msg : Msg} {U : UInt64}

/-- `encache` in terms of the rank of its message. -/
theorem encache_eq (lib : JsonLib) (c : Cache) (msg : Msg) :
    c.encache lib msg =
      match msg.rank lib with
      | .error e => (.error e, c)
      | .ok none => c.enqueue msg
      | .ok (some U) => if U ≤ c.U then (.ok false, c) else { c with U := U }.enqueue msg := by
  unfold encache Msg.rank
  cases msg.data with
  | none => rfl
  | some book =>
      by_cases hsrc : msg.source = .webSocket
      · cases hid : book.updateId lib with
        | error e => simp only [if_pos hsrc, hid]
        | ok U => simp only [if_pos hsrc, hid]
      · simp only [if_neg hsrc]

theorem encache_error {e : CppException} (h : msg.rank lib = .error e) :
    c.encache lib msg = (.error e, c) := by rw [encache_eq, h]

theorem encache_unranked (h : msg.rank lib = .ok none) : c.encache lib msg = c.enqueue msg := by
  rw [encache_eq, h]

theorem encache_stale (h : msg.rank lib = .ok (some U)) (hle : U ≤ c.U) :
    c.encache lib msg = (.ok false, c) := by
  rw [encache_eq, h]
  exact if_pos hle

theorem encache_fresh (h : msg.rank lib = .ok (some U)) (hlt : c.U < U) :
    c.encache lib msg = { c with U := U }.enqueue msg := by
  rw [encache_eq, h]
  exact if_neg (not_le.2 hlt)

/-- The four ways through `encache`, one for each kind of rank and each outcome of the check. -/
theorem encache_cases (lib : JsonLib) (c : Cache) (msg : Msg) :
    (∃ e, msg.rank lib = .error e ∧ c.encache lib msg = (.error e, c)) ∨
    (msg.rank lib = .ok none ∧ c.encache lib msg = c.enqueue msg) ∨
    (∃ U, msg.rank lib = .ok (some U) ∧ U ≤ c.U ∧ c.encache lib msg = (.ok false, c)) ∨
    (∃ U, msg.rank lib = .ok (some U) ∧ c.U < U ∧
      c.encache lib msg = { c with U := U }.enqueue msg) := by
  cases hrank : msg.rank lib with
  | error e => exact Or.inl ⟨e, rfl, encache_error hrank⟩
  | ok id =>
      cases id with
      | none => exact Or.inr (Or.inl ⟨rfl, encache_unranked hrank⟩)
      | some U =>
          by_cases hle : U ≤ c.U
          · exact Or.inr (Or.inr (Or.inl ⟨U, rfl, hle, encache_stale hrank hle⟩))
          · have hlt := not_le.1 hle
            exact Or.inr (Or.inr (Or.inr ⟨U, rfl, hlt, encache_fresh hrank hlt⟩))

theorem enqueue_fst_eq_true_iff : (c.enqueue msg).1 = .ok true ↔ ¬ c.cacheQueue.Full := by
  unfold enqueue
  rw [← LockFreeQueue.enqueue_fst_eq_true_iff c.cacheQueue msg, Except.ok.injEq]

theorem enqueue_full (h : c.cacheQueue.Full) : c.enqueue msg = (.ok false, c) := by
  unfold enqueue
  rw [LockFreeQueue.enqueue_full h]

@[simp] theorem U_enqueue : (c.enqueue msg).2.U = c.U := rfl

/-- `encache` returns true exactly for a message that is not refused by the check of its id and
    finds room. -/
theorem encache_fst_eq_true_iff :
    (c.encache lib msg).1 = .ok true ↔
      (∃ id, msg.rank lib = .ok id ∧ ∀ U ∈ id, c.U < U) ∧ ¬ c.cacheQueue.Full := by
  rcases encache_cases lib c msg with ⟨e, hrank, heq⟩ | ⟨hrank, heq⟩ | ⟨U, hrank, hle, heq⟩ |
    ⟨U, hrank, hlt, heq⟩
  · simp [heq, hrank]
  · simp [heq, hrank, enqueue_fst_eq_true_iff]
  · simp [heq, hrank, hle]
  · simp [heq, hrank, hlt, enqueue_fst_eq_true_iff]

theorem isSome_of_encache (h : (c.encache lib msg).1 = .ok true) : msg.data.isSome := by
  unfold encache at h
  split at h
  · exact absurd h (by simp)
  · next book hdata => rw [hdata, Option.isSome_some]

theorem encache_fst_unranked (h : msg.rank lib = .ok none) :
    (c.encache lib msg).1 = .ok (decide (¬ c.cacheQueue.Full)) := by
  rw [encache_unranked h]
  exact congrArg Except.ok (LockFreeQueue.enqueue_fst c.cacheQueue msg)

theorem encache_fst_ranked (h : msg.rank lib = .ok (some U)) :
    (c.encache lib msg).1 = .ok (decide (c.U < U ∧ ¬ c.cacheQueue.Full)) := by
  by_cases hle : U ≤ c.U
  · rw [encache_stale h hle]
    simp [not_lt.2 hle]
  · have hlt := not_le.1 hle
    rw [encache_fresh h hlt]
    refine congrArg Except.ok ((LockFreeQueue.enqueue_fst c.cacheQueue msg).trans ?_)
    simp [hlt]

theorem encache_isOk_iff :
    (∃ b, (c.encache lib msg).1 = .ok b) ↔ ∃ id, msg.rank lib = .ok id := by
  rcases encache_cases lib c msg with ⟨e, hrank, heq⟩ | ⟨hrank, heq⟩ | ⟨U, hrank, -, heq⟩ |
    ⟨U, hrank, -, heq⟩
  · simp [heq, hrank]
  · exact iff_of_true ⟨_, congrArg Prod.fst heq⟩ ⟨_, hrank⟩
  · exact iff_of_true ⟨_, congrArg Prod.fst heq⟩ ⟨_, hrank⟩
  · exact iff_of_true ⟨_, congrArg Prod.fst heq⟩ ⟨_, hrank⟩

theorem cacheQueue_enqueue :
    (c.enqueue msg).2.cacheQueue =
      if (c.enqueue msg).1 = .ok true then (c.cacheQueue.enqueue msg).2 else c.cacheQueue := by
  split
  · rfl
  · next h =>
      rw [enqueue_fst_eq_true_iff, not_not] at h
      rw [enqueue_full h]

/-- The queue after `encache`: appended to if it returned true, untouched otherwise. -/
theorem cacheQueue_encache :
    (c.encache lib msg).2.cacheQueue =
      if (c.encache lib msg).1 = .ok true then (c.cacheQueue.enqueue msg).2 else c.cacheQueue := by
  rcases encache_cases lib c msg with ⟨e, -, heq⟩ | ⟨-, heq⟩ | ⟨U, -, -, heq⟩ | ⟨U, -, -, heq⟩
  · simp [heq]
  · rw [heq]
    exact cacheQueue_enqueue
  · simp [heq]
  · -- raising the mark does not touch the queue
    rw [heq]
    exact cacheQueue_enqueue

/-- The mark after `encache`: raised by every readable WebSocket id, accepted or not. -/
theorem U_encache : (c.encache lib msg).2.U = HighWater.raise (Msg.webSocketId lib) c.U msg := by
  unfold HighWater.raise
  rcases encache_cases lib c msg with ⟨e, hrank, heq⟩ | ⟨hrank, heq⟩ | ⟨U, hrank, hle, heq⟩ |
    ⟨U, hrank, hlt, heq⟩
  · rw [heq, Msg.webSocketId_of_rank_error hrank]
  · rw [heq, Msg.webSocketId_of_rank hrank, U_enqueue]
  · rw [heq, Msg.webSocketId_of_rank hrank]
    exact (max_eq_left hle).symm
  · rw [heq, Msg.webSocketId_of_rank hrank, U_enqueue]
    exact (max_eq_right hlt.le).symm

end Cache

end MarketFeed
