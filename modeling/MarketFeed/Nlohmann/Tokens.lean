import MarketFeed.Nlohmann.Numbers
import MarketFeed.Nlohmann.Strings
import Mathlib.Data.List.TakeWhile

set_option autoImplicit false

/-! # What `scan` takes

One token and the space before it. `Lexeme` gives the bytes of the tokens that cannot go on; those
of a number are the numerals of the grammar, and end where the number cannot go on. -/

namespace MarketFeed

open Grammar Lexer

variable {strtod : Strtod} {unread unread' s w : Bytes} {token : Token}

/-- The bytes of a token. -/
inductive Lexeme : Bytes → Token → Prop
  | beginArray : Lexeme [0x5B] .beginArray
  | endArray : Lexeme [0x5D] .endArray
  | beginObject : Lexeme [0x7B] .beginObject
  | endObject : Lexeme [0x7D] .endObject
  | nameSeparator : Lexeme [0x3A] .nameSeparator
  | valueSeparator : Lexeme [0x2C] .valueSeparator
  | literalTrue : Lexeme [0x74, 0x72, 0x75, 0x65] .literalTrue
  | literalFalse : Lexeme [0x66, 0x61, 0x6C, 0x73, 0x65] .literalFalse
  | literalNull : Lexeme [0x6E, 0x75, 0x6C, 0x6C] .literalNull
  | string {w : Bytes} {cs : List Char} (hbody : StringBody w cs) :
      Lexeme (0x22 :: (w ++ [0x22])) (.valueString (Utf8.encode cs))

namespace Lexer

/-! ## Space -/

theorem isSpace_iff {b : UInt8} :
    isSpace b = true ↔ b = 0x20 ∨ b = 0x09 ∨ b = 0x0A ∨ b = 0x0D := by
  simp [isSpace, or_assoc]

/-- `skip_whitespace` goes past all space. -/
theorem dropWhile_space (hs : Space s) :
    (s ++ unread).dropWhile isSpace = unread.dropWhile isSpace :=
  List.dropWhile_append_of_pos fun b hb => isSpace_iff.2 (hs b hb)

theorem exists_space (unread : Bytes) :
    ∃ s, Space s ∧ unread = s ++ unread.dropWhile isSpace :=
  ⟨unread.takeWhile isSpace, fun _ hb => isSpace_iff.1 (List.mem_takeWhile_imp hb),
    (List.takeWhile_append_dropWhile).symm⟩

/-! ## The switch -/

theorem scanLiteral_eq_some_iff {literalText : Bytes} :
    scanLiteral literalText unread = some unread' ↔ unread = literalText ++ unread' := by
  induction literalText generalizing unread with
  | nil => simp [scanLiteral]
  | cons expected literalText ih =>
      cases unread with
      | nil => simp [scanLiteral]
      | cons current unread => simp [scanLiteral, ih]

theorem structural_sound {b : UInt8} (h : structural b = some token) : Lexeme [b] token := by
  unfold structural at h
  split_ifs at h with h₁ h₂ h₃ h₄ h₅ h₆ <;> obtain rfl := Option.some.inj h
  · exact h₁ ▸ .beginArray
  · exact h₂ ▸ .endArray
  · exact h₃ ▸ .beginObject
  · exact h₄ ▸ .endObject
  · exact h₅ ▸ .nameSeparator
  · exact h₆ ▸ .valueSeparator

theorem literal_sound {b : UInt8} {literalText : Bytes}
    (h : literal b = some (literalText, token)) :
    Lexeme (b :: literalText) token := by
  unfold literal at h
  split_ifs at h with h₁ h₂ h₃ <;> obtain ⟨rfl, rfl⟩ := Prod.mk.inj (Option.some.inj h)
  · exact h₁ ▸ .literalTrue
  · exact h₂ ▸ .literalFalse
  · exact h₃ ▸ .literalNull

/-- What one `scan` takes off `rest`, space apart: a token, a numeral that is complete, or a null
    byte for the end. -/
inductive Takes (strtod : Strtod) (rest : Bytes) : Bytes → Token → Prop
  | lexeme {w : Bytes} {token : Token} (h : Lexeme w token) : Takes strtod rest w token
  | number (n : Numeral) (hends : n.Ends rest) : Takes strtod rest n.text (n.token strtod)
  | null : Takes strtod rest [0x00] .endOfInput

theorem scanToken_sound {b : UInt8} (h : scanToken strtod b unread = some (token, unread')) :
    ∃ w, Takes strtod unread' w token ∧ b :: unread = w ++ unread' := by
  unfold scanToken at h
  split at h
  · next hstructural =>
      obtain ⟨rfl, rfl⟩ := Prod.mk.inj (Option.some.inj h)
      exact ⟨[b], .lexeme (structural_sound hstructural), rfl⟩
  · next hliteral =>
      obtain ⟨rest, hrest, hmap⟩ := Option.map_eq_some_iff.1 h
      obtain ⟨rfl, rfl⟩ := Prod.mk.inj hmap
      exact ⟨_, .lexeme (literal_sound hliteral), by rw [scanLiteral_eq_some_iff.1 hrest]; rfl⟩
  · split_ifs at h with hquote hnumber hnull
    · obtain ⟨⟨buffer, rest⟩, hrest, hmap⟩ := Option.map_eq_some_iff.1 h
      obtain ⟨rfl, rfl⟩ := Prod.mk.inj hmap
      obtain ⟨w, cs, hw, rfl, rfl⟩ := scanString_sound hrest
      exact ⟨_, .lexeme (.string hw), by rw [hquote]; simp⟩
    · obtain ⟨⟨type, buffer, rest⟩, hrest, hmap⟩ := Option.map_eq_some_iff.1 h
      obtain ⟨rfl, rfl⟩ := Prod.mk.inj hmap
      obtain ⟨n, hn, hends, htoken⟩ := scanNumber_sound strtod hrest
      exact ⟨n.text, by rw [htoken]; exact .number n hends, hn⟩
    · obtain ⟨rfl, rfl⟩ := Prod.mk.inj (Option.some.inj h)
      exact ⟨[0x00], .null, by rw [hnull]; rfl⟩

/-- Nothing else in the `switch` begins like a number. -/
theorem number_head_table : ∀ i < 256, (UInt8.ofNat i = 0x2D ∨ IsDigit (.ofNat i)) →
    structural (.ofNat i) = none ∧ literal (.ofNat i) = none ∧ UInt8.ofNat i ≠ 0x22 ∧
      UInt8.ofNat i ≠ 0xEF ∧ isSpace (.ofNat i) = false := by
  decide +kernel

theorem number_head {b : UInt8} (hb : b = 0x2D ∨ IsDigit b) :
    structural b = none ∧ literal b = none ∧ b ≠ 0x22 ∧ b ≠ 0xEF ∧ isSpace b = false := by
  have htable := number_head_table b.toNat b.toNat_lt
  rw [UInt8.ofNat_toNat] at htable
  exact htable hb

theorem exists_head (n : Numeral) : ∃ b tail, n.text = b :: tail ∧ (b = 0x2D ∨ IsDigit b) := by
  have hint : ∀ {i : Bytes}, IntPart i → ∃ b tail, i = b :: tail ∧ IsDigit b := by
    intro i hi
    cases hi with
    | zero => exact ⟨_, _, rfl, by decide⟩
    | digits hfirst _ _ => exact ⟨_, _, rfl, hfirst⟩
  cases hnegative : n.negative with
  | true =>
      exact ⟨0x2D, n.int ++ (n.frac ++ n.exp), by simp [Numeral.text, Numeral.sign, hnegative],
        Or.inl rfl⟩
  | false =>
      obtain ⟨b, tail, htail, hb⟩ := hint n.int_ok
      exact ⟨b, tail ++ (n.frac ++ n.exp),
        by simp [Numeral.text, Numeral.sign, hnegative, htail], Or.inr hb⟩

theorem scanToken_lexeme (strtod : Strtod) (unread : Bytes) (h : Lexeme w token) :
    ∃ b tail, w = b :: tail ∧ isSpace b = false ∧ b ≠ 0xEF ∧
      scanToken strtod b (tail ++ unread) = some (token, unread) := by
  cases h with
  | string hbody =>
      refine ⟨0x22, _, rfl, by decide, by decide, ?_⟩
      have hscan := scanString_complete unread hbody
      simp only [scanToken, structural, literal]
      rw [List.append_assoc]
      simp [hscan]
  | literalTrue | literalFalse | literalNull =>
      refine ⟨_, _, rfl, by decide, by decide, ?_⟩
      simp [scanToken, structural, literal, scanLiteral]
  | _ => exact ⟨_, _, rfl, by decide, by decide, rfl⟩

theorem scanToken_number (strtod : Strtod) (n : Numeral) (hends : n.Ends unread) :
    ∃ b tail, n.text = b :: tail ∧ isSpace b = false ∧ b ≠ 0xEF ∧
      scanToken strtod b (tail ++ unread) = some (n.token strtod, unread) := by
  obtain ⟨b, tail, htext, hb⟩ := exists_head n
  obtain ⟨hstructural, hliteral, hquote, hbom, hspace⟩ := number_head hb
  refine ⟨b, tail, htext, hspace, hbom, ?_⟩
  have hscan := scanNumber_complete n hends
  rw [htext, List.cons_append] at hscan
  rw [← isDigit_iff] at hb
  simp only [scanToken, hstructural, hliteral, hquote, hb, if_true, if_false, hscan]
  rw [← htext]
  simp [n.numberToken_text]

/-! ## The scanner -/

/-- The scanner that has begun, and has `unread` left. -/
def begun (unread : Bytes) : Lexer := { fresh := false, unread }

theorem fresh_scan (strtod : Strtod) (lexer : Lexer) : (lexer.scan strtod).2.fresh = false := by
  unfold scan
  split
  · rfl
  · split
    · rfl
    · split <;> rfl

/-- After a `scan` the scanner has begun. -/
theorem exists_scan (strtod : Strtod) (lexer : Lexer) :
    ∃ token rest, scan strtod lexer = (token, begun rest) := by
  have hfresh := fresh_scan strtod lexer
  exact ⟨_, (lexer.scan strtod).2.unread, Prod.ext rfl (by rw [begun, ← hfresh])⟩

theorem scan_of_scanToken {b : UInt8} {tail : Bytes} (hs : Space s) (hspace : isSpace b = false)
    (h : scanToken strtod b tail = some (token, unread)) :
    scan strtod (begun (s ++ b :: tail)) = (token, begun unread) := by
  unfold scan begun
  simp [dropWhile_space hs, hspace, h]

theorem scan_lexeme (strtod : Strtod) (unread : Bytes) (hs : Space s) (h : Lexeme w token) :
    scan strtod (begun (s ++ (w ++ unread))) = (token, begun unread) := by
  obtain ⟨b, tail, rfl, hspace, -, hscan⟩ := scanToken_lexeme strtod unread h
  exact scan_of_scanToken hs hspace hscan

theorem scan_structural {b : UInt8} (strtod : Strtod) (unread : Bytes) (hs : Space s)
    (h : Lexeme [b] token) :
    scan strtod (begun (s ++ b :: unread)) = (token, begun unread) :=
  scan_lexeme strtod _ hs h

theorem scan_number (hs : Space s) (n : Numeral) (hends : n.Ends unread) :
    scan strtod (begun (s ++ (n.text ++ unread))) = (n.token strtod, begun unread) := by
  obtain ⟨b, tail, htext, hspace, -, hscan⟩ := scanToken_number strtod n hends
  rw [htext]
  exact scan_of_scanToken hs hspace hscan

theorem scan_trail (strtod : Strtod) (h : Trail unread) :
    (scan strtod (begun unread)).1 = .endOfInput := by
  obtain ⟨s, hs, heq | ⟨rest, rfl⟩⟩ := h
  · have hdrop : (s ++ []).dropWhile isSpace = [] := dropWhile_space hs
    rw [List.append_nil, ← heq] at hdrop
    unfold scan begun
    simp [hdrop]
  · have hscan : scanToken strtod 0x00 rest = some (.endOfInput, rest) := rfl
    rw [scan_of_scanToken hs (by decide) hscan]

/-- **What `scan` takes.** Some space and a token, or nothing where only space is left. -/
theorem scan_sound {lexer : Lexer} (h : scan strtod (begun unread) = (token, lexer))
    (htoken : token ≠ .parseError) :
    (token = .endOfInput ∧ Space unread) ∨
      ∃ s w, Space s ∧ Takes strtod lexer.unread w token ∧ unread = s ++ (w ++ lexer.unread) := by
  obtain ⟨s, hs, hunread⟩ := exists_space unread
  unfold scan begun at h
  simp only [Bool.false_eq_true, if_false] at h
  split at h
  · next hdrop =>
      rw [hdrop, List.append_nil] at hunread
      exact Or.inl ⟨(Prod.mk.inj h).1.symm, hunread ▸ hs⟩
  · next b tail hdrop =>
      split at h
      · exact absurd (Prod.mk.inj h).1.symm htoken
      · next token' rest hscan =>
          obtain ⟨rfl, rfl⟩ := Prod.mk.inj h
          obtain ⟨w, hw, hsplit⟩ := scanToken_sound hscan
          exact Or.inr ⟨s, w, hs, hw, by rw [hunread, hdrop, hsplit]⟩

theorem token_cases (strtod : Strtod) (n : Numeral) :
    (∃ k, n.token strtod = .valueUnsigned k) ∨ (∃ k, n.token strtod = .valueInteger k) ∨
      ∃ x, n.token strtod = .valueFloat x := by
  unfold Numeral.token
  split_ifs
  · exact Or.inl ⟨_, rfl⟩
  · exact Or.inr (Or.inl ⟨_, rfl⟩)
  · exact Or.inr (Or.inr ⟨_, rfl⟩)

/-- What is taken for a token that is no number is its lexeme, or a null byte. -/
theorem Takes.lexeme_or_null {rest : Bytes} (h : Takes strtod rest w token)
    (hunsigned : ∀ k, token ≠ .valueUnsigned k)
    (hinteger : ∀ k, token ≠ .valueInteger k) (hfloat : ∀ x, token ≠ .valueFloat x) :
    Lexeme w token ∨ (w = [0x00] ∧ token = .endOfInput) := by
  cases h with
  | lexeme h => exact Or.inl h
  | number n =>
      rcases token_cases strtod n with ⟨k, hk⟩ | ⟨k, hk⟩ | ⟨x, hx⟩
      · exact absurd hk (hunsigned k)
      · exact absurd hk (hinteger k)
      · exact absurd hx (hfloat x)
  | null => exact Or.inr ⟨rfl, rfl⟩

theorem trail_of_scan (h : (scan strtod (begun unread)).1 = .endOfInput) : Trail unread := by
  rcases scan_sound (Prod.ext h rfl) (by simp) with
    ⟨-, hspace⟩ | ⟨s, w, hs, hw, hunread⟩
  · exact ⟨unread, hspace, Or.inl rfl⟩
  · rcases hw.lexeme_or_null (by simp) (by simp) (by simp) with hlexeme | ⟨rfl, -⟩
    · cases hlexeme
    · exact ⟨s, hs, Or.inr ⟨_, hunread⟩⟩

/-! ## The beginning of the text -/

theorem scan_fresh (strtod : Strtod) (h : unread.head? ≠ some 0xEF) :
    scan strtod { fresh := true, unread } = scan strtod (begun unread) := by
  have hbom : skipBom unread = some unread := by
    unfold skipBom
    split
    · exact absurd rfl h
    · rfl
  unfold scan begun
  simp [hbom]

theorem scan_bom (strtod : Strtod) (unread : Bytes) :
    scan strtod { fresh := true, unread := 0xEF :: 0xBB :: 0xBF :: unread } =
      scan strtod (begun unread) := rfl

end Lexer

end MarketFeed
