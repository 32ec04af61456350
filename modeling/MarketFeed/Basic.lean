import Mathlib.Algebra.Order.Ring.Int
import Mathlib.Data.List.Basic
import Mathlib.Order.Defs.LinearOrder

set_option autoImplicit false

/-! # C++ values, exceptions and error codes

Conventions shared by the model: a `size_t` or `uint64_t` is a `UInt64`, an `int` is an `Int32`, a
payload received from the network is a list of bytes, and a function that may throw returns
`Except CppException`. An exception carries what the program could read off it: its dynamic type and
its message. A loop that counts an `int` up is `forInt`, and `forInt_rule` is its rule. -/

namespace MarketFeed

/-- `uint64_t` is ordered by value. -/
instance linearOrderUInt64 : LinearOrder UInt64 where
  le_refl := UInt64.le_refl
  le_trans _ _ _ := UInt64.le_trans
  lt_iff_le_not_ge a b := by
    rw [UInt64.not_le]
    exact ⟨fun h => ⟨UInt64.le_of_lt h, h⟩, fun h => h.2⟩
  le_antisymm _ _ := UInt64.le_antisymm
  le_total := UInt64.le_total
  toDecidableLE := inferInstance
  toDecidableLT := inferInstance
  toDecidableEq := inferInstance
  toOrd := inferInstance
  toMin := inferInstance
  toMax := inferInstance
  compare_eq_compareOfLessAndEq _ _ := rfl

/-- The bytes of a `std::string` received from a server. -/
abbrev Bytes := List UInt8

/-- The exceptions thrown by the program, by its JSON library and by the standard library. -/
inductive CppException where
  /-- `std::invalid_argument` -/
  | invalidArgument (what : String)
  /-- `json::parse_error` -/
  | parseError
  /-- `json::out_of_range` (a number too large for a `double`) -/
  | outOfRange
  /-- `json::type_error` with its id and the text that follows the id in `what()` -/
  | typeError (id : ℕ) (what : String)
  /-- Not an exception: a null pointer was dereferenced, and the behaviour is undefined. -/
  | nullDereference
deriving DecidableEq, Repr

/-- `boost::system::error_code`, as far as the handlers tell codes apart. -/
inductive ErrorCode where
  | success
  | eof
  | operationAborted
  | other (value : Int32)
deriving DecidableEq, Repr

/-- A mapped result is a success exactly if the result is. -/
theorem map_eq_ok_iff {ε α β : Type*} {x : Except ε α} {f : α → β} {b : β} :
    x.map f = .ok b ↔ ∃ a, x = .ok a ∧ f a = b := by
  cases x <;> simp [Except.map]

/-! ## Integers -/

/-- The implicit conversion of an `int` argument to a `size_t` parameter. -/
def sizeOfInt (n : Int32) : UInt64 := n.toInt64.toUInt64

/-- The implicit conversion of a `size_t` to an `int`, which keeps the low bits. -/
def intOfSize (n : UInt64) : Int32 := n.toInt64.toInt32

theorem toNat_sizeOfInt (n : Int32) :
    ((sizeOfInt n).toNat : ℤ) = if 0 ≤ n.toInt then n.toInt else n.toInt + 2 ^ 64 := by
  have hwide : n.toInt64.toInt = n.toInt := by simp
  have hbits : n.toInt64.toInt = n.toInt64.toBitVec.toInt := rfl
  have hnat : (sizeOfInt n).toNat = n.toInt64.toBitVec.toNat := rfl
  have hlt := Int32.toInt_lt n
  have hle := Int32.le_toInt n
  have hword := n.toInt64.toBitVec.isLt
  rw [hbits, BitVec.toInt_eq_toNat_cond] at hwide
  rw [hnat]
  split_ifs at * <;> omega

/-- An `int` made of a `size_t` is the number that agrees with it modulo 2^32. -/
theorem toInt_intOfSize_eq_bmod (n : ℕ) : (intOfSize (.ofNat n)).toInt = (n : ℤ).bmod (2 ^ 32) := by
  unfold intOfSize
  rw [Int64.toInt_toInt32, UInt64.toInt64_ofNat', Int64.toInt_ofNat']
  exact Int.bmod_bmod_of_dvd (by decide)

theorem toInt_intOfSize {n : ℕ} (h : n < 2 ^ 31) : (intOfSize (.ofNat n)).toInt = n := by
  rw [toInt_intOfSize_eq_bmod]
  exact Int.bmod_eq_of_le (by omega) (by omega)

/-! ## Counted loops -/

/-- `for (int i = 0; i < n; i++)`, the body being a function of `i` and of the state. -/
def forInt {σ : Type*} (n : Int32) (body : ℕ → σ → σ) (s : σ) : σ :=
  (List.range n.toInt.toNat).foldl (fun s i => body i s) s

/-- The rule for a counted loop: what holds before the first iteration, and is carried from each one
    to the next, holds after the last. -/
theorem forInt_rule {σ : Type*} {n : Int32} {body : ℕ → σ → σ} {s : σ} (P : ℕ → σ → Prop)
    (hinit : P 0 s) (hbody : ∀ i t, i < n.toInt.toNat → P i t → P (i + 1) (body i t)) :
    P n.toInt.toNat (forInt n body s) := by
  unfold forInt
  suffices h : ∀ k ≤ n.toInt.toNat, P k ((List.range k).foldl (fun s i => body i s) s) from
    h _ (Nat.le_refl _)
  intro k
  induction k with
  | zero => exact fun _ => hinit
  | succ k ih =>
      intro hk
      rw [List.range_succ, List.foldl_append]
      exact hbody k _ hk (ih (Nat.le_of_succ_le hk))

end MarketFeed
