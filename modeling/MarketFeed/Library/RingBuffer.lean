import Mathlib.Algebra.Group.Nat.Defs
import Mathlib.Data.List.Basic
import Mathlib.Data.Nat.ModEq
import Mathlib.Tactic.Common

set_option autoImplicit false

/-! # Ring buffers of power-of-two capacity

Two facts every masked ring buffer rests on.

*Index arithmetic.* For a capacity `c` that is a power of two, `x &&& (c - 1)` is `x % c`, and the
usual bit test `c &&& (c - 1) = 0` accepts exactly the powers of two and zero. Indices are 64-bit
words; since `c` divides `2 ^ 64` the wrap of the word addition is invisible after masking.

*Windows.* `Holds buf start vals` says that the slots `start, start + 1, …` of `buf`, counted modulo
its length, carry `vals` in order. A push writes the slot after the window, a pop drops its first
slot; the free slot is never inside the window. -/

namespace RingBuffer

/-! ## Masked indices -/

/-- A 64-bit capacity that is a power of two. -/
def PowTwo (c : UInt64) : Prop := c.toNat.isPowerOfTwo

theorem PowTwo.pos {c : UInt64} (hc : PowTwo c) : 0 < c.toNat :=
  Nat.pos_of_isPowerOfTwo hc

theorem PowTwo.pred_toNat {c : UInt64} (hc : PowTwo c) : (c - 1).toNat = c.toNat - 1 := by
  have hle : (1 : UInt64) ≤ c := by
    rw [UInt64.le_iff_toNat_le]
    exact hc.pos
  rw [UInt64.toNat_sub_of_le _ _ hle]
  rfl

theorem PowTwo.dvd {c : UInt64} (hc : PowTwo c) : c.toNat ∣ 2 ^ 64 := by
  obtain ⟨k, hk⟩ := hc
  have hlt : c.toNat < 2 ^ 64 := c.toNat_lt
  rw [hk] at hlt ⊢
  exact Nat.pow_dvd_pow 2 (Nat.le_of_lt ((Nat.pow_lt_pow_iff_right (by decide)).1 hlt))

/-- The largest power of two below `2 ^ 64` is `2 ^ 63`. -/
theorem PowTwo.le {c : UInt64} (hc : PowTwo c) : c.toNat ≤ 2 ^ 63 := by
  obtain ⟨k, hk⟩ := hc
  have hlt : c.toNat < 2 ^ 64 := c.toNat_lt
  rw [hk] at hlt ⊢
  have hk64 := (Nat.pow_lt_pow_iff_right (by decide)).1 hlt
  exact Nat.pow_le_pow_right (by decide) (Nat.le_of_lt_succ hk64)

/-- The bit test of a power-of-two ring: it lets through the powers of two and zero. -/
theorem and_pred_eq_zero_iff (c : UInt64) : c &&& (c - 1) = 0 ↔ c = 0 ∨ PowTwo c := by
  by_cases h0 : c = 0
  · subst h0
    exact ⟨fun _ => Or.inl rfl, fun _ => rfl⟩
  · have hne : c.toNat ≠ 0 := fun h => h0 (UInt64.toNat_inj.1 h)
    have hle : (1 : UInt64) ≤ c := by
      rw [UInt64.le_iff_toNat_le]
      exact Nat.pos_of_ne_zero hne
    rw [← UInt64.toNat_inj, UInt64.toNat_and, UInt64.toNat_sub_of_le _ _ hle]
    simp only [h0, false_or]
    exact Nat.and_sub_one_eq_zero_iff_isPowerOfTwo hne

theorem PowTwo.and_mask {c : UInt64} (hc : PowTwo c) (x : UInt64) :
    (x &&& (c - 1)).toNat = x.toNat % c.toNat := by
  rw [UInt64.toNat_and, hc.pred_toNat]
  obtain ⟨k, hk⟩ := hc
  rw [hk, Nat.and_two_pow_sub_one_eq_mod]

theorem PowTwo.succ_and_mask {c : UInt64} (hc : PowTwo c) (x : UInt64) :
    ((x + 1) &&& (c - 1)).toNat = (x.toNat + 1) % c.toNat := by
  rw [hc.and_mask, UInt64.toNat_add, Nat.mod_mod_of_dvd _ hc.dvd]
  rfl

/-- The masked difference of two indices that stand for the positions `start ≤ stop` is the distance
    between these, modulo the capacity. -/
theorem PowTwo.sub_and_mask {c : UInt64} (hc : PowTwo c) {head tail : UInt64} {start stop : ℕ}
    (hhead : head.toNat = start % c.toNat) (htail : tail.toNat = stop % c.toNat)
    (hle : start ≤ stop) : ((tail - head) &&& (c - 1)).toNat = (stop - start) % c.toNat := by
  rw [hc.and_mask, UInt64.toNat_sub, Nat.mod_mod_of_dvd _ hc.dvd]
  have hlt := head.toNat_lt
  have hwrap : 2 ^ 64 ≡ 0 [MOD c.toNat] := (Nat.modEq_zero_iff_dvd).2 hc.dvd
  have hstart : head.toNat ≡ start [MOD c.toNat] := by
    rw [hhead]
    exact Nat.mod_modEq _ _
  have hstop : tail.toNat ≡ stop [MOD c.toNat] := by
    rw [htail]
    exact Nat.mod_modEq _ _
  -- both sides plus `start` are `stop`
  refine Nat.ModEq.add_right_cancel hstart ?_
  have hl : 2 ^ 64 - head.toNat + tail.toNat + head.toNat = 2 ^ 64 + tail.toNat := by omega
  have hr : stop - start + start = stop := Nat.sub_add_cancel hle
  rw [hl, hr]
  simpa using hwrap.add hstop

/-! ## Windows -/

/-- `buf` carries `vals` in the slots from `start` on, counted modulo the length of `buf`. -/
def Holds {T : Type*} (buf : List T) (start : ℕ) (vals : List T) : Prop :=
  ∀ i (h : i < vals.length), buf[(start + i) % buf.length]? = some vals[i]

/-- Distinct offsets below the ring's length name distinct slots. -/
theorem slot_ne {n i j : ℕ} (start : ℕ) (hij : i < j) (hj : j < i + n) :
    (start + i) % n ≠ (start + j) % n := by
  intro h
  have hdvd : n ∣ (start + j) - (start + i) :=
    Nat.dvd_of_mod_eq_zero (Nat.sub_mod_eq_zero_of_mod_eq h.symm)
  have hle : n ≤ (start + j) - (start + i) := Nat.le_of_dvd (by omega) hdvd
  omega

/-- Two positions that share a slot are a whole turn apart. -/
theorem add_le_of_slot_eq {n i j : ℕ} (hij : i < j) (h : i % n = j % n) : i + n ≤ j := by
  by_contra hlt
  refine slot_ne (n := n) 0 hij (Nat.not_le.1 hlt) ?_
  rwa [Nat.zero_add, Nat.zero_add]

variable {T : Type*} {buf vals : List T} {start : ℕ}

@[simp] theorem holds_nil : Holds buf start [] := fun _ h => absurd h (Nat.not_lt_zero _)

theorem Holds.head {v : T} (h : Holds buf start (v :: vals)) :
    buf[start % buf.length]? = some v := by
  have h0 := h 0 (Nat.zero_lt_succ _)
  simpa only [Nat.add_zero, List.getElem_cons_zero] using h0

theorem Holds.tail {v : T} (h : Holds buf start (v :: vals)) : Holds buf (start + 1) vals := by
  intro i hi
  have hs := h (i + 1) (Nat.succ_lt_succ hi)
  rw [List.getElem_cons_succ] at hs
  rw [← hs]
  congr 2
  omega

theorem Holds.set_free (h : Holds buf start vals) (hlen : vals.length < buf.length) (v : T) :
    Holds (buf.set ((start + vals.length) % buf.length) v) start vals := by
  intro i hi
  rw [List.length_set, List.getElem?_set_ne (slot_ne start hi (by omega)).symm]
  exact h i hi

theorem getElem?_set_free (hpos : 0 < buf.length) (i : ℕ) (v : T) :
    (buf.set (i % buf.length) v)[i % buf.length]? = some v :=
  List.getElem?_set_self (Nat.mod_lt _ hpos)

theorem Holds.concat (h : Holds buf start vals) {v : T}
    (hv : buf[(start + vals.length) % buf.length]? = some v) : Holds buf start (vals ++ [v]) := by
  intro i hi
  rw [List.length_append, List.length_singleton] at hi
  rcases Nat.lt_succ_iff_lt_or_eq.1 hi with hlt | rfl
  · rw [List.getElem_append_left hlt]
    exact h i hlt
  · rw [hv, List.getElem_append_right (Nat.le_refl _)]
    simp only [Nat.sub_self, List.getElem_singleton]

/-! ## Full and empty -/

/-- With `len < n` elements from `start` on, the slot after next is the first one exactly when the
    ring holds `n - 1` elements: one slot always stays free. -/
theorem next_eq_start_iff {n len : ℕ} (start : ℕ) (hlen : len < n) :
    (start + len + 1) % n = start % n ↔ len + 1 = n := by
  constructor
  · intro h
    by_contra hne
    exact slot_ne (n := n) (i := 0) (j := len + 1) start (by omega) (by omega) h.symm
  · rintro rfl
    rw [Nat.add_assoc, Nat.add_mod_right]

theorem end_eq_start_iff {n len : ℕ} (start : ℕ) (hlen : len < n) :
    (start + len) % n = start % n ↔ len = 0 := by
  constructor
  · intro h
    by_contra hne
    exact slot_ne (n := n) (i := 0) (j := len) start (by omega) (by omega) h.symm
  · rintro rfl
    rfl

end RingBuffer
