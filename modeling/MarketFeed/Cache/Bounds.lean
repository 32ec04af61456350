import MarketFeed.Cache.History
import MarketFeed.Library.Execution
import Mathlib.Algebra.Order.Ring.Int
import Mathlib.Tactic.Positivity

set_option autoImplicit false

/-! # Which capacities are safe

`Cache(int capacity)` converts its argument to `size_t`, and the bit test of `LockFreeQueue` decides
whether the result will do. It is meant to let through the powers of two. No negative argument
passes it, but zero does, and then the mask `capacity - 1` has all bits set and the buffer no slots
(`inBounds_iff`). -/

namespace MarketFeed

open Execution LockFreeQueue RingBuffer

/-! ## From `int` to `size_t` -/

theorem sizeOfInt_injective : Function.Injective sizeOfInt := by
  intro n n' h
  have hsize := toNat_sizeOfInt n
  have hsize' := toNat_sizeOfInt n'
  have hlt := Int32.toInt_lt n
  have hlt' := Int32.toInt_lt n'
  have hle := Int32.le_toInt n
  have hle' := Int32.le_toInt n'
  rw [h] at hsize
  rw [← Int32.toInt_inj]
  split_ifs at hsize hsize' <;> omega

theorem sizeOfInt_eq_zero_iff (n : Int32) : sizeOfInt n = 0 ↔ n = 0 :=
  sizeOfInt_injective.eq_iff' rfl

/-- A negative argument is too large for a power of two. -/
theorem toInt_of_powTwo_sizeOfInt {n : Int32} (h : PowTwo (sizeOfInt n)) :
    ((sizeOfInt n).toNat : ℤ) = n.toInt := by
  have hsize := toNat_sizeOfInt n
  have hle := Int32.le_toInt n
  have hpow := PowTwo.le h
  split_ifs at hsize <;> omega

namespace Cache

variable {lib : JsonLib} {c : Cache}

theorem new_eq_ok_iff {memory : UInt64} {capacity : Int32} {c : Cache} :
    Cache.new memory capacity = .ok c ↔
      c.U = memory ∧ LockFreeQueue.new (sizeOfInt capacity) = .ok c.cacheQueue := by
  obtain ⟨U, q⟩ := c
  unfold Cache.new
  cases (LockFreeQueue.new (sizeOfInt capacity) : Except CppException (LockFreeQueue Msg)) with
  | error e => simp
  | ok q' => simp [eq_comm]

/-- The constructor accepts the powers of two and zero. -/
theorem new_isOk_iff (memory : UInt64) (capacity : Int32) :
    (∃ c, Cache.new memory capacity = .ok c) ↔ capacity = 0 ∨ ∃ k : ℕ, capacity.toInt = 2 ^ k := by
  have hqueue : (∃ c, Cache.new memory capacity = .ok c) ↔
      ∃ q : LockFreeQueue Msg, LockFreeQueue.new (sizeOfInt capacity) = .ok q := by
    constructor
    · exact fun ⟨c, hc⟩ => ⟨_, (new_eq_ok_iff.1 hc).2⟩
    · exact fun ⟨q, hq⟩ => ⟨⟨memory, q⟩, new_eq_ok_iff.2 ⟨rfl, hq⟩⟩
  rw [hqueue, LockFreeQueue.new_isOk_iff, sizeOfInt_eq_zero_iff]
  refine or_congr_right ⟨fun hpow => ?_, fun ⟨k, hk⟩ => ⟨k, ?_⟩⟩
  · have hint := toInt_of_powTwo_sizeOfInt hpow
    obtain ⟨k, hk⟩ := hpow
    exact ⟨k, by rw [← hint, hk, Nat.cast_pow, Nat.cast_ofNat]⟩
  · have hpos : (0 : ℤ) ≤ capacity.toInt := hk ▸ by positivity
    have hsize := toNat_sizeOfInt capacity
    rw [if_pos hpos, hk] at hsize
    exact_mod_cast hsize

/-! ## Accesses -/

/-- The indices a call uses on `buffer_`. -/
def indices (lib : JsonLib) (c : Cache) : CacheOp → List UInt64
  | .encache msg => if (c.encache lib msg).1 = .ok true then [c.cacheQueue.tail] else []
  | .decache => if c.cacheQueue.Empty then [] else [c.cacheQueue.head]

/-- Throughout a sequence of calls, every index used on `buffer_` is below its size, `head_` and
    `tail_` are below its size, and `size()` is at most `capacity - 1`. -/
structure InBounds (lib : JsonLib) (c : Cache) (capacity : Int32) (ops : List CacheOp) : Prop where
  indices : AtEach (fun pre op => ∀ i ∈ (c.after lib pre).indices lib op,
    i.toNat < (c.after lib pre).cacheQueue.buffer.length) ops
  head : ∀ pre, pre <+: ops →
    (c.after lib pre).cacheQueue.head.toNat < (c.after lib pre).cacheQueue.buffer.length
  tail : ∀ pre, pre <+: ops →
    (c.after lib pre).cacheQueue.tail.toNat < (c.after lib pre).cacheQueue.buffer.length
  size : ∀ pre, pre <+: ops → ((c.after lib pre).cacheQueue.size.toNat : ℤ) ≤ capacity.toInt - 1

/-- Every call uses `head_` or `tail_` as an index, or none. -/
theorem mem_indices {i : UInt64} {op : CacheOp} (h : i ∈ c.indices lib op) :
    i = c.cacheQueue.tail ∨ i = c.cacheQueue.head := by
  unfold Cache.indices at h
  split at h
  · split at h
    · exact Or.inl (List.mem_singleton.1 h)
    · exact absurd h List.not_mem_nil
  · split at h
    · exact absurd h List.not_mem_nil
    · exact Or.inr (List.mem_singleton.1 h)

theorem powTwo_of_new {memory : UInt64} {capacity : Int32} (hc : Cache.new memory capacity = .ok c)
    (hne : capacity ≠ 0) : PowTwo (sizeOfInt capacity) := by
  have hcap := (LockFreeQueue.new_isOk_iff _).1 ⟨_, (new_eq_ok_iff.1 hc).2⟩
  exact hcap.resolve_left fun h0 => hne ((sizeOfInt_eq_zero_iff capacity).1 h0)

theorem cacheQueue_new {memory : UInt64} {capacity : Int32}
    (hc : Cache.new memory capacity = .ok c) (hpow : PowTwo (sizeOfInt capacity)) :
    c.cacheQueue = .ofCapacity ⟨sizeOfInt capacity, hpow⟩ := by
  have hq := (new_eq_ok_iff.1 hc).2
  rw [new_capacity ⟨_, hpow⟩] at hq
  exact (Except.ok.inj hq).symm

theorem buffer_new_zero {memory : UInt64} (hc : Cache.new memory 0 = .ok c) :
    c.cacheQueue.buffer = [] := by
  obtain ⟨-, hq⟩ := new_eq_ok_iff.1 hc
  exact Except.ok.inj hq ▸ rfl

/-- Of a queue in order every index used is below its size. -/
theorem indices_lt {d : ℕ} {held : List Msg} (h : c.cacheQueue.Represents d held) (op : CacheOp) :
    ∀ i ∈ c.indices lib op, i.toNat < c.cacheQueue.buffer.length := by
  intro i hi
  rcases mem_indices hi with rfl | rfl
  · exact h.tail_lt_length
  · exact h.head_lt_length

theorem represents_of_new {memory : UInt64} {capacity : Int32}
    (hc : Cache.new memory capacity = .ok c) (hne : capacity ≠ 0) (pre : List CacheOp) :
    ∃ d held, (c.after lib pre).cacheQueue.Represents d held := by
  have hqueue := cacheQueue_new hc (powTwo_of_new hc hne)
  obtain ⟨held, -, h⟩ := represents_after lib (hqueue ▸ represents_ofCapacity _) pre
  exact ⟨_, held, h⟩

/-- **Which capacities are safe.** For every argument the constructor accepts and every sequence of
    calls, all accesses are in bounds exactly if the argument is not zero. -/
theorem inBounds_iff (lib : JsonLib) (memory : UInt64) (capacity : Int32) (c : Cache)
    (hc : Cache.new memory capacity = .ok c) (ops : List CacheOp) :
    InBounds lib c capacity ops ↔ capacity ≠ 0 := by
  constructor
  · rintro h rfl
    have hhead := h.head [] List.nil_prefix
    rw [after_nil, buffer_new_zero hc] at hhead
    exact absurd hhead (Nat.not_lt_zero _)
  · intro hne
    have hcapacity : c.cacheQueue.capacity = sizeOfInt capacity := by
      rw [cacheQueue_new hc (powTwo_of_new hc hne)]
      rfl
    refine ⟨fun pre op post _ => ?_, fun pre _ => ?_, fun pre _ => ?_, fun pre _ => ?_⟩ <;>
      obtain ⟨d, held, h⟩ := represents_of_new hc hne pre
    · exact indices_lt h op
    · exact h.head_lt_length
    · exact h.tail_lt_length
    · have hroom := h.room
      rw [capacity_after, hcapacity] at hroom
      have hint := toInt_of_powTwo_sizeOfInt (powTwo_of_new hc hne)
      rw [h.toNat_size]
      omega

/-- The default capacity is safe. -/
theorem inBounds_default :
    InBounds .sample (fresh .default 0) 1024 [.encache (.update "btcusdt" 1), .decache] :=
  (inBounds_iff .sample 0 1024 _ (new_eq_fresh .default rfl 0) _).2 (by decide)

/-- `Cache(0)` is accepted, and its first `encache` writes the first slot of an empty buffer. -/
theorem inBounds_zero :
    let c : Cache := { U := 0, cacheQueue := { buffer := [], capacity := 0, head := 0, tail := 0 } }
    Cache.new 0 0 = .ok c ∧ c.indices .sample (.encache (.snapshot "btcusdt")) = [0] ∧
      c.cacheQueue.buffer.length = 0 ∧
      ¬ InBounds .sample c 0 [.encache (.snapshot "btcusdt")] := by
  refine ⟨rfl, by decide, rfl, fun h => ?_⟩
  exact absurd (h.head [] List.nil_prefix) (Nat.not_lt_zero _)

end Cache

end MarketFeed
