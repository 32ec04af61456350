import Mathlib.Data.List.Basic
import Mathlib.Data.Nat.Bitwise

set_option autoImplicit false

/-! # UTF-8

Characters and their bytes. The encoding is the one of the standard library (`encode`); this file
adds what a scanner needs that works on bytes:

* `decode_encode` — the characters of a text can be got back from its bytes;
* `exists_char_one_iff` / `_two_iff` / `_three_iff` / `_four_iff` — which bytes make up a character,
  as ranges. -/

namespace Utf8

/-- The bytes of a text. -/
def encode (cs : List Char) : List UInt8 := cs.flatMap String.utf8EncodeChar

@[simp] theorem encode_nil : encode [] = [] := rfl

@[simp] theorem encode_cons (c : Char) (cs : List Char) :
    encode (c :: cs) = String.utf8EncodeChar c ++ encode cs := rfl

theorem encode_append (cs ds : List Char) : encode (cs ++ ds) = encode cs ++ encode ds :=
  List.flatMap_append

/-! ## Decoding -/

/-- The character that one, two, three or four bytes encode, and so on. What is not the encoding of
    a text is decoded to something. -/
def decode : List UInt8 → List Char
  | [] => []
  | b₀ :: bytes =>
    if b₀ < 0x80 then Char.ofNat b₀.toNat :: decode bytes
    else match bytes with
      | [] => []
      | b₁ :: bytes =>
        if b₀ < 0xE0 then
          Char.ofNat (b₀.toNat % 0x20 * 0x40 + b₁.toNat % 0x40) :: decode bytes
        else match bytes with
          | [] => []
          | b₂ :: bytes =>
            if b₀ < 0xF0 then
              Char.ofNat (b₀.toNat % 0x10 * 0x1000 + b₁.toNat % 0x40 * 0x40 + b₂.toNat % 0x40) ::
                decode bytes
            else match bytes with
              | [] => []
              | b₃ :: bytes =>
                Char.ofNat (b₀.toNat % 0x08 * 0x40000 + b₁.toNat % 0x40 * 0x1000 +
                  b₂.toNat % 0x40 * 0x40 + b₃.toNat % 0x40) :: decode bytes

variable {b₀ b₁ b₂ b₃ : UInt8} {bytes : List UInt8}

theorem decode_one (h : b₀ < 0x80) :
    decode (b₀ :: bytes) = Char.ofNat b₀.toNat :: decode bytes := by
  rw [decode.eq_def]
  exact if_pos h

theorem decode_two (h : ¬ b₀ < 0x80) (h' : b₀ < 0xE0) :
    decode (b₀ :: b₁ :: bytes) =
      Char.ofNat (b₀.toNat % 0x20 * 0x40 + b₁.toNat % 0x40) :: decode bytes := by
  rw [decode.eq_def]
  exact (if_neg h).trans (if_pos h')

theorem decode_three (h : ¬ b₀ < 0xE0) (h' : b₀ < 0xF0) :
    decode (b₀ :: b₁ :: b₂ :: bytes) =
      Char.ofNat (b₀.toNat % 0x10 * 0x1000 + b₁.toNat % 0x40 * 0x40 + b₂.toNat % 0x40) ::
        decode bytes := by
  rw [decode.eq_def]
  exact (if_neg fun hlt => h (UInt8.lt_trans hlt (by decide))).trans
    ((if_neg h).trans (if_pos h'))

theorem decode_four (h : ¬ b₀ < 0xF0) :
    decode (b₀ :: b₁ :: b₂ :: b₃ :: bytes) =
      Char.ofNat (b₀.toNat % 0x08 * 0x40000 + b₁.toNat % 0x40 * 0x1000 +
        b₂.toNat % 0x40 * 0x40 + b₃.toNat % 0x40) :: decode bytes := by
  rw [decode.eq_def]
  exact (if_neg fun hlt => h (UInt8.lt_trans hlt (by decide))).trans
    ((if_neg fun hlt => h (UInt8.lt_trans hlt (by decide))).trans (if_neg h))

theorem toNat_lt (c : Char) : c.toNat < 0x110000 := by
  have hvalid : c.toNat < 0xD800 ∨ 0xDFFF < c.toNat ∧ c.toNat < 0x110000 := c.valid
  omega

/-- Decoding a character gives the character. -/
theorem decode_char (c : Char) (bytes : List UInt8) :
    decode (String.utf8EncodeChar c ++ bytes) = c :: decode bytes := by
  have hlt := toNat_lt c
  have hofNat : ∀ {n}, n = c.toNat → Char.ofNat n = c := by
    rintro n rfl
    exact Char.ofNat_toNat c
  unfold String.utf8EncodeChar
  simp only [Char.toNat_val]
  split_ifs with h₁ h₂ h₃
  · refine (decode_one ?_).trans (congrArg (· :: _) (hofNat ?_)) <;>
      simp [UInt8.lt_iff_toNat_lt] <;> omega
  · refine (decode_two ?_ ?_).trans (congrArg (· :: _) (hofNat ?_)) <;>
      simp [UInt8.lt_iff_toNat_lt] <;> omega
  · refine (decode_three ?_ ?_).trans (congrArg (· :: _) (hofNat ?_)) <;>
      simp [UInt8.lt_iff_toNat_lt] <;> omega
  · refine (decode_four ?_).trans (congrArg (· :: _) (hofNat ?_)) <;>
      simp [UInt8.lt_iff_toNat_lt] <;> omega

theorem decode_encode (cs : List Char) : decode (encode cs) = cs := by
  induction cs with
  | nil => rfl
  | cons c cs ih => rw [encode_cons, decode_char, ih]

/-! ## The bytes of a character -/

theorem toNat_ofNat {n : ℕ} (h : n < 0xD800 ∨ 0xDFFF < n ∧ n < 0x110000) :
    (Char.ofNat n).toNat = n := by
  have hvalid : n.isValidChar := h
  rw [Char.ofNat, dif_pos hvalid]
  rfl

/-- The number of bytes and the bytes themselves, by the size of the number. -/
theorem encodeChar_cases (c : Char) :
    (c.toNat < 0x80 ∧ String.utf8EncodeChar c = [.ofNat c.toNat]) ∨
    (0x80 ≤ c.toNat ∧ c.toNat < 0x800 ∧ String.utf8EncodeChar c =
      [.ofNat (0xC0 + c.toNat / 0x40), .ofNat (0x80 + c.toNat % 0x40)]) ∨
    (0x800 ≤ c.toNat ∧ c.toNat < 0x10000 ∧ String.utf8EncodeChar c =
      [.ofNat (0xE0 + c.toNat / 0x1000), .ofNat (0x80 + c.toNat / 0x40 % 0x40),
        .ofNat (0x80 + c.toNat % 0x40)]) ∨
    (0x10000 ≤ c.toNat ∧ String.utf8EncodeChar c =
      [.ofNat (0xF0 + c.toNat / 0x40000), .ofNat (0x80 + c.toNat / 0x1000 % 0x40),
        .ofNat (0x80 + c.toNat / 0x40 % 0x40), .ofNat (0x80 + c.toNat % 0x40)]) := by
  have hlt := toNat_lt c
  unfold String.utf8EncodeChar
  simp only [Char.toNat_val]
  split_ifs with h₁ h₂ h₃
  · exact Or.inl ⟨by omega, rfl⟩
  · have hfirst : c.toNat / 0x40 < 0x20 := by omega
    refine Or.inr (Or.inl ⟨by omega, by omega, ?_⟩)
    rw [Nat.mod_eq_of_lt hfirst, Nat.add_comm 0xC0, Nat.add_comm 0x80]
  · have hfirst : c.toNat / 0x1000 < 0x10 := by omega
    refine Or.inr (Or.inr (Or.inl ⟨by omega, by omega, ?_⟩))
    simp only [Nat.mod_eq_of_lt hfirst, Nat.add_comm]
  · have hfirst : c.toNat / 0x40000 < 0x08 := by omega
    refine Or.inr (Or.inr (Or.inr ⟨by omega, ?_⟩))
    simp only [Nat.mod_eq_of_lt hfirst, Nat.add_comm]

/-- A byte that is not the first one of a character. -/
def IsContinuation (b : UInt8) : Prop := 0x80 ≤ b ∧ b ≤ 0xBF

/-! In the forms below a number is given by its bytes: `n` is what their payload bits make up. -/

theorem exists_char_one_iff : (∃ c, String.utf8EncodeChar c = [b₀]) ↔ b₀ < 0x80 := by
  simp only [UInt8.lt_iff_toNat_lt, UInt8.reduceToNat]
  constructor
  · rintro ⟨c, hc⟩
    rcases encodeChar_cases c with ⟨h, he⟩ | ⟨-, -, he⟩ | ⟨-, -, he⟩ | ⟨-, he⟩ <;>
      rw [he] at hc <;> simp at hc
    subst hc
    simp
    omega
  · intro h
    have hc : (Char.ofNat b₀.toNat).toNat = b₀.toNat := toNat_ofNat (by omega)
    refine ⟨Char.ofNat b₀.toNat, ?_⟩
    rcases encodeChar_cases (Char.ofNat b₀.toNat) with ⟨-, he⟩ | ⟨h', -⟩ | ⟨h', -⟩ | ⟨h', -⟩
    · rw [he, hc, UInt8.ofNat_toNat]
    all_goals omega

theorem exists_char_two_iff :
    (∃ c, String.utf8EncodeChar c = [b₀, b₁]) ↔ (0xC2 ≤ b₀ ∧ b₀ ≤ 0xDF) ∧ IsContinuation b₁ := by
  simp only [IsContinuation, UInt8.le_iff_toNat_le, UInt8.reduceToNat]
  constructor
  · rintro ⟨c, hc⟩
    rcases encodeChar_cases c with ⟨-, he⟩ | ⟨h, h', he⟩ | ⟨-, -, he⟩ | ⟨-, he⟩ <;>
      rw [he] at hc <;> simp at hc
    obtain ⟨rfl, rfl⟩ := hc
    simp
    omega
  · rintro ⟨h₀, h₁⟩
    obtain ⟨n, hn⟩ : ∃ n, n = (b₀.toNat - 0xC0) * 0x40 + (b₁.toNat - 0x80) := ⟨_, rfl⟩
    have hc : (Char.ofNat n).toNat = n := toNat_ofNat (by omega)
    refine ⟨Char.ofNat n, ?_⟩
    rcases encodeChar_cases (Char.ofNat n) with ⟨h', -⟩ | ⟨-, -, he⟩ | ⟨h', -⟩ | ⟨h', -⟩
    · omega
    · have hb₀ : 0xC0 + n / 0x40 = b₀.toNat := by omega
      have hb₁ : 0x80 + n % 0x40 = b₁.toNat := by omega
      rw [he, hc, hb₀, hb₁, UInt8.ofNat_toNat, UInt8.ofNat_toNat]
    all_goals omega

/-- Three bytes: no overlong form, and no surrogate. -/
theorem exists_char_three_iff :
    (∃ c, String.utf8EncodeChar c = [b₀, b₁, b₂]) ↔
      (0xE0 ≤ b₀ ∧ b₀ ≤ 0xEF) ∧ IsContinuation b₁ ∧ IsContinuation b₂ ∧
        (b₀ = 0xE0 → 0xA0 ≤ b₁) ∧ (b₀ = 0xED → b₁ ≤ 0x9F) := by
  simp only [IsContinuation, UInt8.le_iff_toNat_le, UInt8.reduceToNat, ← UInt8.toNat_inj]
  constructor
  · rintro ⟨c, hc⟩
    have hvalid : c.toNat < 0xD800 ∨ 0xDFFF < c.toNat ∧ c.toNat < 0x110000 := c.valid
    rcases encodeChar_cases c with ⟨-, he⟩ | ⟨-, -, he⟩ | ⟨h, h', he⟩ | ⟨-, he⟩ <;>
      rw [he] at hc <;> simp at hc
    obtain ⟨rfl, rfl, rfl⟩ := hc
    simp
    omega
  · rintro ⟨h₀, h₁, h₂, hlong, hsurrogate⟩
    obtain ⟨n, hn⟩ : ∃ n, n = (b₀.toNat - 0xE0) * 0x1000 + (b₁.toNat - 0x80) * 0x40 +
      (b₂.toNat - 0x80) := ⟨_, rfl⟩
    have hc : (Char.ofNat n).toNat = n := toNat_ofNat (by omega)
    refine ⟨Char.ofNat n, ?_⟩
    rcases encodeChar_cases (Char.ofNat n) with ⟨h', -⟩ | ⟨-, h', -⟩ | ⟨-, -, he⟩ | ⟨h', -⟩
    · omega
    · omega
    · have hb₀ : 0xE0 + n / 0x1000 = b₀.toNat := by omega
      have hb₁ : 0x80 + n / 0x40 % 0x40 = b₁.toNat := by omega
      have hb₂ : 0x80 + n % 0x40 = b₂.toNat := by omega
      rw [he, hc, hb₀, hb₁, hb₂, UInt8.ofNat_toNat, UInt8.ofNat_toNat, UInt8.ofNat_toNat]
    · omega

/-- Four bytes: no overlong form, and no number beyond the last character. -/
theorem exists_char_four_iff :
    (∃ c, String.utf8EncodeChar c = [b₀, b₁, b₂, b₃]) ↔
      (0xF0 ≤ b₀ ∧ b₀ ≤ 0xF4) ∧ IsContinuation b₁ ∧ IsContinuation b₂ ∧ IsContinuation b₃ ∧
        (b₀ = 0xF0 → 0x90 ≤ b₁) ∧ (b₀ = 0xF4 → b₁ ≤ 0x8F) := by
  simp only [IsContinuation, UInt8.le_iff_toNat_le, UInt8.reduceToNat, ← UInt8.toNat_inj]
  constructor
  · rintro ⟨c, hc⟩
    have hlt := toNat_lt c
    rcases encodeChar_cases c with ⟨-, he⟩ | ⟨-, -, he⟩ | ⟨-, -, he⟩ | ⟨h, he⟩ <;>
      rw [he] at hc <;> simp at hc
    obtain ⟨rfl, rfl, rfl, rfl⟩ := hc
    simp
    omega
  · rintro ⟨h₀, h₁, h₂, h₃, hlong, hlast⟩
    obtain ⟨n, hn⟩ : ∃ n, n = (b₀.toNat - 0xF0) * 0x40000 + (b₁.toNat - 0x80) * 0x1000 +
      (b₂.toNat - 0x80) * 0x40 + (b₃.toNat - 0x80) := ⟨_, rfl⟩
    have hc : (Char.ofNat n).toNat = n := toNat_ofNat (by omega)
    refine ⟨Char.ofNat n, ?_⟩
    rcases encodeChar_cases (Char.ofNat n) with ⟨h', -⟩ | ⟨-, h', -⟩ | ⟨-, h', -⟩ | ⟨-, he⟩
    · omega
    · omega
    · omega
    · have hb₀ : 0xF0 + n / 0x40000 = b₀.toNat := by omega
      have hb₁ : 0x80 + n / 0x1000 % 0x40 = b₁.toNat := by omega
      have hb₂ : 0x80 + n / 0x40 % 0x40 = b₂.toNat := by omega
      have hb₃ : 0x80 + n % 0x40 = b₃.toNat := by omega
      rw [he, hc, hb₀, hb₁, hb₂, hb₃, UInt8.ofNat_toNat, UInt8.ofNat_toNat, UInt8.ofNat_toNat,
        UInt8.ofNat_toNat]

theorem encodeChar_length (c : Char) :
    (∃ b₀, String.utf8EncodeChar c = [b₀]) ∨ (∃ b₀ b₁, String.utf8EncodeChar c = [b₀, b₁]) ∨
      (∃ b₀ b₁ b₂, String.utf8EncodeChar c = [b₀, b₁, b₂]) ∨
      ∃ b₀ b₁ b₂ b₃, String.utf8EncodeChar c = [b₀, b₁, b₂, b₃] := by
  rcases encodeChar_cases c with ⟨-, he⟩ | ⟨-, -, he⟩ | ⟨-, -, he⟩ | ⟨-, he⟩
  · exact Or.inl ⟨_, he⟩
  · exact Or.inr (Or.inl ⟨_, _, he⟩)
  · exact Or.inr (Or.inr (Or.inl ⟨_, _, _, he⟩))
  · exact Or.inr (Or.inr (Or.inr ⟨_, _, _, _, he⟩))

theorem toNat_of_head_lt {c : Char} (h : String.utf8EncodeChar c = b₀ :: bytes) (hb : b₀ < 0x80) :
    c.toNat = b₀.toNat ∧ bytes = [] := by
  have hnat : b₀.toNat < 0x80 := UInt8.lt_iff_toNat_lt.1 hb
  have hlt := toNat_lt c
  rcases encodeChar_cases c with ⟨hc, he⟩ | ⟨_, _, he⟩ | ⟨_, _, he⟩ | ⟨_, he⟩ <;>
    obtain ⟨rfl, rfl⟩ := List.cons.inj (he.symm.trans h) <;> simp at hnat ⊢ <;> omega

theorem le_toNat_of_head {c : Char} (h : String.utf8EncodeChar c = b₀ :: bytes)
    (hb : ¬ b₀ < 0x80) : 0x80 ≤ c.toNat := by
  have hnat : ¬ b₀.toNat < 0x80 := fun h => hb (UInt8.lt_iff_toNat_lt.2 h)
  rcases encodeChar_cases c with ⟨hc, he⟩ | ⟨hc, _⟩ | ⟨hc, _⟩ | ⟨hc, _⟩
  · obtain ⟨rfl, -⟩ := List.cons.inj (he.symm.trans h)
    simp at hnat
    omega
  all_goals omega

end Utf8
