import MarketFeed.Common.Hash
import MarketFeed.Library.Cuts

set_option autoImplicit false

/-! # The key that `OrderBook::hash` digests

The key is the decimal digits of three numbers, one after the other and with nothing between them.
`hashData_injective_iff` says which two updates share a key, digit by digit, and what the numbers of
digits say about it: the key tells two updates apart if each number of the one has as many digits as
the number of the other, and no other knowledge of the numbers of digits is of use, except that of
different totals. -/

namespace MarketFeed

open Cuts

/-- The numbers `"U"`, `"u"` and `"pu"` of an update. -/
@[ext] structure UpdateIds where
  U : UInt64
  u : UInt64
  pu : UInt64
deriving DecidableEq, Repr

/-! ## Decimal digits -/

/-- The digits of `std::to_string`. -/
def digits (n : UInt64) : List Char := (stdToString n).toList

theorem digits_eq_toDigits (n : UInt64) : digits n = Nat.toDigits 10 n.toNat := Nat.toList_repr

theorem digits_injective {n m : UInt64} (h : digits n = digits m) : n = m := by
  rw [digits_eq_toDigits, digits_eq_toDigits] at h
  have hread := congrArg (Nat.ofDigitChars 10 · 0) h
  simp only [Nat.ofDigitChars_ten_toDigits] at hread
  exact UInt64.toNat.inj hread

/-- An unsigned number of 64 bits has up to twenty digits. -/
theorem length_digits (n : UInt64) : 1 ≤ (digits n).length ∧ (digits n).length ≤ 20 := by
  rw [digits_eq_toDigits]
  refine ⟨Nat.length_toDigits_pos, (Nat.length_toDigits_le_iff (by decide) (by decide)).2 ?_⟩
  have hlt := n.toNat_lt
  omega

/-- The number whose `d` digits are ones. -/
def repunit : ℕ → ℕ
  | 0 => 0
  | d + 1 => 10 * repunit d + 1

theorem nine_mul_repunit_add_one (d : ℕ) : 9 * repunit d + 1 = 10 ^ d := by
  induction d with
  | zero => rfl
  | succ d ih =>
      rw [repunit, Nat.pow_succ, ← ih]
      omega

theorem toDigits_repunit (d : ℕ) :
    Nat.toDigits 10 (repunit (d + 1)) = List.replicate (d + 1) '1' := by
  induction d with
  | zero => rfl
  | succ d ih =>
      have hpos : 0 < repunit (d + 1) := Nat.succ_pos _
      rw [repunit, ← Nat.toDigits_append_toDigits (by decide) hpos (by decide), ih,
        List.replicate_succ' (n := d + 1)]
      rfl

theorem digits_repunit {d : ℕ} (hpos : 1 ≤ d) (hle : d ≤ 20) :
    digits (.ofNat (repunit d)) = List.replicate d '1' := by
  have hlt : repunit d < 2 ^ 64 := by
    have hpow := nine_mul_repunit_add_one d
    have hbound := Nat.pow_le_pow_right (n := 10) (by decide) hle
    omega
  obtain ⟨d, rfl⟩ := Nat.exists_eq_add_of_le' hpos
  rw [digits_eq_toDigits, UInt64.toNat_ofNat_of_lt' hlt]
  exact toDigits_repunit d

/-! ## Which updates share a key -/

/-- How many digits the three numbers of an update have. -/
@[ext] structure DigitCounts where
  U : ℕ
  u : ℕ
  pu : ℕ
  bounds : ∀ d ∈ [U, u, pu], 1 ≤ d ∧ d ≤ 20

def DigitCounts.total (counts : DigitCounts) : ℕ := counts.U + (counts.u + counts.pu)

namespace UpdateIds

/-- `hash_data` of an order book with these numbers. -/
def key (ids : UpdateIds) : String := stdToString ids.U ++ stdToString ids.u ++ stdToString ids.pu

/-- The digits of the three numbers, which are a cut of the key. -/
def cut (ids : UpdateIds) : Cut Char := ⟨digits ids.U, digits ids.u, digits ids.pu⟩

/-- The digits of one update are those of the other, and some of them have moved from one number to
    the next or back. -/
def Regrouped (ids ids' : UpdateIds) : Prop :=
  Recut ids.cut ids'.cut ∨ Recut ids'.cut ids.cut

instance (ids ids' : UpdateIds) : Decidable (Regrouped ids ids') :=
  inferInstanceAs (Decidable (Recut ids.cut ids'.cut ∨ Recut ids'.cut ids.cut))

def digitCounts (ids : UpdateIds) : DigitCounts where
  U := (digits ids.U).length
  u := (digits ids.u).length
  pu := (digits ids.pu).length
  bounds := by simp [length_digits]

variable {ids ids' : UpdateIds}

theorem toList_key (ids : UpdateIds) : ids.key.toList = ids.cut.joined := by
  unfold key cut digits Cut.joined
  rw [String.toList_append, String.toList_append, List.append_assoc]

theorem key_eq_iff_joined_eq : ids.key = ids'.key ↔ ids.cut.joined = ids'.cut.joined := by
  rw [← toList_key, ← toList_key]
  exact ⟨congrArg _, fun h => String.toList_injective h⟩

theorem cut_injective (h : ids.cut = ids'.cut) : ids = ids' := by
  obtain ⟨hU, hu, hpu⟩ := Cut.mk.inj h
  exact UpdateIds.ext (digits_injective hU) (digits_injective hu) (digits_injective hpu)

/-- Two updates share a key without being the same exactly if one regroups the digits of the
    other. -/
theorem regrouped_iff : ids.Regrouped ids' ↔ ids.key = ids'.key ∧ ids ≠ ids' := by
  rw [Regrouped, recut_or_recut_iff, key_eq_iff_joined_eq, Ne, Ne]
  exact and_congr_right fun _ => not_congr ⟨cut_injective, congrArg cut⟩

theorem length_cut (ids : UpdateIds) : ids.cut.first.length = ids.digitCounts.U ∧
    ids.cut.second.length = ids.digitCounts.u ∧ ids.cut.third.length = ids.digitCounts.pu := by
  simp only [cut, digitCounts, and_self]

theorem length_joined_cut (ids : UpdateIds) : ids.cut.joined.length = ids.digitCounts.total := by
  obtain ⟨hU, hu, hpu⟩ := ids.length_cut
  rw [Cut.joined, List.length_append, List.length_append, hU, hu, hpu, DigitCounts.total]

/-- The update with ones for digits. -/
def ones (counts : DigitCounts) : UpdateIds :=
  ⟨.ofNat (repunit counts.U), .ofNat (repunit counts.u), .ofNat (repunit counts.pu)⟩

theorem cut_ones (counts : DigitCounts) : (ones counts).cut =
    ⟨List.replicate counts.U '1', List.replicate counts.u '1', List.replicate counts.pu '1'⟩ := by
  obtain ⟨hU, hu, hpu⟩ : (1 ≤ counts.U ∧ counts.U ≤ 20) ∧ (1 ≤ counts.u ∧ counts.u ≤ 20) ∧
      (1 ≤ counts.pu ∧ counts.pu ≤ 20) := by simpa using counts.bounds
  simp only [cut, ones]
  rw [digits_repunit hU.1 hU.2, digits_repunit hu.1 hu.2, digits_repunit hpu.1 hpu.2]

theorem digitCounts_ones (counts : DigitCounts) : (ones counts).digitCounts = counts := by
  obtain ⟨hU, hu, hpu⟩ := (ones counts).length_cut
  rw [cut_ones] at hU hu hpu
  exact DigitCounts.ext (hU.symm.trans List.length_replicate)
    (hu.symm.trans List.length_replicate) (hpu.symm.trans List.length_replicate)

/-- The key of as many ones. -/
theorem joined_cut_ones (counts : DigitCounts) :
    (ones counts).cut.joined = List.replicate counts.total '1' := by
  rw [cut_ones, Cut.joined, List.replicate_append_replicate, List.replicate_append_replicate]
  rfl

/-- **What the numbers of digits say.** Knowing no more of two updates than how many digits their
    numbers have, one can tell from the key which it is exactly if the totals differ, or each number
    of the one has as many digits as that of the other. -/
theorem identified_of_digitCounts_iff (counts counts' : DigitCounts) :
    (∀ ids ids' : UpdateIds, ids.digitCounts = counts → ids'.digitCounts = counts' →
        ids.key = ids'.key → ids = ids') ↔
      (counts.total = counts'.total → counts = counts') := by
  constructor
  · intro h htotal
    have hkey : (ones counts).key = (ones counts').key := by
      rw [key_eq_iff_joined_eq, joined_cut_ones, joined_cut_ones, htotal]
    have hones := h _ _ (digitCounts_ones counts) (digitCounts_ones counts') hkey
    rw [← digitCounts_ones counts, hones, digitCounts_ones]
  · rintro h ids ids' rfl rfl hkey
    rw [key_eq_iff_joined_eq] at hkey
    have hcounts := h (by rw [← length_joined_cut, hkey, length_joined_cut])
    obtain ⟨hU, hu, -⟩ := ids.length_cut
    obtain ⟨hU', hu', -⟩ := ids'.length_cut
    refine cut_injective (eq_of_joined hkey ?_ ?_)
    · rw [hU, hU', hcounts]
    · rw [hu, hu', hcounts]

end UpdateIds

/-! ## The key of an order book -/

/-- The member under `key` is the unsigned number `n`. -/
def OrderBook.Holds (book : OrderBook) (key : String) (n : UInt64) : Prop :=
  ∃ members, book.data = .object members ∧ members.lookup key = some (.numberUnsigned n)

/-- The members `"U"`, `"u"` and `"pu"` are unsigned numbers of 64 bits. -/
structure OrderBook.Carries (book : OrderBook) (ids : UpdateIds) : Prop where
  U : book.Holds "U" ids.U
  u : book.Holds "u" ids.u
  pu : book.Holds "pu" ids.pu

/-- Of every book that holds these numbers the operand makes `s`, and it leaves the members with
    other keys alone. -/
def Operand.Yields (x : Operand) (values : List (String × UInt64)) (s : String) : Prop :=
  ∀ book : OrderBook, (∀ value ∈ values, book.Holds value.1 value.2) →
    (x book).1 = .ok s ∧
      ∀ key n, (∀ value ∈ values, key ≠ value.1) → book.Holds key n → (x book).2.Holds key n

namespace Operand.Yields

variable {x y : Operand} {values values' : List (String × UInt64)} {s t : String}

theorem memberToString (lib : JsonLib) (key : String) (n : UInt64) :
    (OrderBook.memberToString lib key).Yields [(key, n)] (stdToString n) := by
  intro book hholds
  obtain ⟨members, hdata, hlookup⟩ := hholds (key, n) List.mem_cons_self
  have hvalue : OrderBook.memberToString lib key book =
      (.ok (stdToString n), { book with data := .object (Json.emplaceNull key members) }) := by
    unfold OrderBook.memberToString
    rw [hdata, Json.subscript, hlookup]
    rfl
  rw [hvalue]
  refine ⟨rfl, fun key' n' hother hholds' => ⟨_, rfl, ?_⟩⟩
  obtain ⟨members', hdata', hlookup'⟩ := hholds'
  obtain rfl := Json.object.inj (hdata.symm.trans hdata')
  rw [Json.lookup_emplaceNull_of_ne (hother (key, n) List.mem_cons_self), hlookup']

theorem andThen (hx : x.Yields values s) (hy : y.Yields values' t)
    (hdisjoint : ∀ value ∈ values, ∀ value' ∈ values', value'.1 ≠ value.1)
    (f : String → String → String) :
    (Operand.andThen f x y).Yields (values ++ values') (f s t) := by
  intro book hholds
  obtain ⟨hfirst, hkept⟩ := hx book fun value hvalue => hholds value (List.mem_append_left _ hvalue)
  unfold Operand.andThen
  generalize x book = first at hfirst hkept ⊢
  obtain ⟨result, left⟩ := first
  obtain rfl : result = .ok s := hfirst
  obtain ⟨hsecond, hkept'⟩ := hy left fun value' hvalue' =>
    hkept _ _ (fun value hvalue => hdisjoint value hvalue value' hvalue')
      (hholds value' (List.mem_append_right _ hvalue'))
  dsimp only
  generalize y left = second at hsecond hkept' ⊢
  obtain ⟨result', left'⟩ := second
  obtain rfl : result' = .ok t := hsecond
  refine ⟨rfl, fun key n hother hholds' => ?_⟩
  refine hkept' key n (fun value' hvalue' => hother value' (List.mem_append_right _ hvalue')) ?_
  exact hkept key n (fun value hvalue => hother value (List.mem_append_left _ hvalue)) hholds'

theorem add (hx : x.Yields values s) (hy : y.Yields values' t)
    (hdisjoint : ∀ value ∈ values, ∀ value' ∈ values', value'.1 ≠ value.1) (leftFirst : Bool) :
    (Operand.add leftFirst x y).Yields (values ++ values') (s ++ t) := by
  cases leftFirst with
  | true => exact hx.andThen hy hdisjoint _
  | false =>
      have hswap := hy.andThen hx (fun value' hvalue' value hvalue =>
        (hdisjoint value hvalue value' hvalue').symm) (fun r l => l ++ r)
      intro book hholds
      obtain ⟨hvalue, hkept⟩ := hswap book fun value hvalue =>
        hholds value (List.mem_append.2 (List.mem_append.1 hvalue).symm)
      refine ⟨hvalue, fun key n hother => hkept key n fun value hvalue => ?_⟩
      exact hother value (List.mem_append.2 (List.mem_append.1 hvalue).symm)

end Operand.Yields

namespace OrderBook

variable {lib : JsonLib} {order : SumOrder} {book : OrderBook} {ids : UpdateIds}

/-- In whatever order, the key of an order book is made of its three numbers. -/
theorem Carries.hashData_eq (h : book.Carries ids) :
    (hashData lib order book).1 = .ok ids.key := by
  have hsum := (Operand.Yields.memberToString lib "U" ids.U).add
    (.memberToString lib "u" ids.u) (by simp) order.uppercaseFirst
  have hkey := hsum.add (.memberToString lib "pu" ids.pu) (by simp) order.sumFirst
  refine (hkey book ?_).1
  simpa using ⟨h.U, h.u, h.pu⟩

/-- Whatever `std::hash` is, two updates of which one regroups the digits of the other have the same
    digest. -/
theorem hash_eq_of_regrouped {book' : OrderBook} {ids' : UpdateIds} (stdHash : String → UInt64)
    (h : book.Carries ids) (h' : book'.Carries ids') (hmoved : ids.Regrouped ids') :
    (hash lib stdHash order book).1 = (hash lib stdHash order book').1 := by
  have hdigest : ∀ {b : OrderBook} {i : UpdateIds}, b.Carries i →
      (hash lib stdHash order b).1 = (stdHash i.key).toInt64 := by
    intro b i hb
    have hkey : (hashData lib order b).1 = .ok i.key := hb.hashData_eq
    unfold hash
    split
    · next heq =>
        rw [heq] at hkey
        rw [Except.ok.inj hkey]
    · next heq =>
        rw [heq] at hkey
        exact absurd hkey (by simp)
  rw [hdigest h, hdigest h', (UpdateIds.regrouped_iff.1 hmoved).1]

/-- An order book with these numbers. -/
def ofIds (ids : UpdateIds) : OrderBook where
  symbol := "btcusdt"
  data := .object [("U", .numberUnsigned ids.U), ("pu", .numberUnsigned ids.pu),
    ("u", .numberUnsigned ids.u)]

theorem carries_ofIds (ids : UpdateIds) : (ofIds ids).Carries ids where
  U := ⟨_, rfl, rfl⟩
  u := ⟨_, rfl, rfl⟩
  pu := ⟨_, rfl, rfl⟩

/-- Two order books have the same key only if they have the same numbers, exactly if the digits of
    the one are not those of the other regrouped. -/
theorem hashData_separates_iff (lib : JsonLib) (order : SumOrder) {book book' : OrderBook}
    {ids ids' : UpdateIds} (h : book.Carries ids) (h' : book'.Carries ids') :
    ((hashData lib order book).1 = (hashData lib order book').1 → ids = ids') ↔
      ¬ ids.Regrouped ids' := by
  rw [h.hashData_eq, h'.hashData_eq, UpdateIds.regrouped_iff, not_and_not_right, Except.ok.injEq]

/-- Knowing how many digits the numbers have is enough exactly if these numbers of digits agree or
    have different totals. -/
theorem hashData_identifies_iff (lib : JsonLib) (order : SumOrder) (counts counts' : DigitCounts) :
    (∀ (book book' : OrderBook) (ids ids' : UpdateIds), book.Carries ids → book'.Carries ids' →
        ids.digitCounts = counts → ids'.digitCounts = counts' →
        (hashData lib order book).1 = (hashData lib order book').1 → ids = ids') ↔
      (counts.total = counts'.total → counts = counts') := by
  rw [← UpdateIds.identified_of_digitCounts_iff]
  constructor
  · intro hbooks ids ids' hcounts hcounts' hkey
    refine hbooks _ _ ids ids' (carries_ofIds ids) (carries_ofIds ids') hcounts hcounts' ?_
    rw [(carries_ofIds ids).hashData_eq, (carries_ofIds ids').hashData_eq, hkey]
  · intro hids book book' ids ids' h h' hcounts hcounts' hkey
    rw [h.hashData_eq, h'.hashData_eq] at hkey
    exact hids ids ids' hcounts hcounts' (Except.ok.inj hkey)

/-- **Which updates the key tells apart.** Two order books whose numbers are unsigned and have 64
    bits have the same key only if they have the same numbers, exactly if the digits of the one are
    not those of the other with some of them moved from one number to another. And knowing how many
    digits the numbers have is enough exactly if these numbers of digits agree or have different
    totals. -/
theorem hashData_injective_iff (lib : JsonLib) (order : SumOrder) (book book' : OrderBook)
    (ids ids' : UpdateIds) (h : book.Carries ids) (h' : book'.Carries ids')
    (counts counts' : DigitCounts) :
    (((hashData lib order book).1 = (hashData lib order book').1 → ids = ids') ↔
      ¬ ids.Regrouped ids') ∧
    ((∀ (book book' : OrderBook) (ids ids' : UpdateIds), book.Carries ids → book'.Carries ids' →
        ids.digitCounts = counts → ids'.digitCounts = counts' →
        (hashData lib order book).1 = (hashData lib order book').1 → ids = ids') ↔
      (counts.total = counts'.total → counts = counts')) :=
  ⟨hashData_separates_iff lib order h h', hashData_identifies_iff lib order counts counts'⟩

/-- Two updates in a row have different keys. -/
theorem hashData_injective_successive :
    ((ofIds ⟨157, 160, 149⟩).hashData .sample ⟨true, true⟩).1 ≠
      ((ofIds ⟨161, 170, 160⟩).hashData .sample ⟨true, true⟩).1 := by
  intro hkey
  have hids := (hashData_injective_iff .sample ⟨true, true⟩ _ _ _ _ (carries_ofIds _)
    (carries_ofIds _) (UpdateIds.digitCounts ⟨157, 160, 149⟩)
    (UpdateIds.digitCounts ⟨161, 170, 160⟩)).1.2 (by decide) hkey
  exact absurd hids (by decide)

/-- The digit 2 may end the first number or begin the second. -/
theorem hashData_collision :
    ((ofIds ⟨1, 23, 4⟩).hashData .sample ⟨true, true⟩).1 = .ok "1234" ∧
      ((ofIds ⟨12, 3, 4⟩).hashData .sample ⟨true, true⟩).1 = .ok "1234" ∧
      (⟨1, 23, 4⟩ : UpdateIds) ≠ ⟨12, 3, 4⟩ := by
  refine ⟨?_, ?_, by decide⟩
  · exact (carries_ofIds _).hashData_eq.trans (by decide)
  · exact (carries_ofIds _).hashData_eq.trans (by decide)

end OrderBook

end MarketFeed
