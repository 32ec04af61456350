import MarketFeed.Nlohmann.Grammar
import Mathlib.Data.List.Forall2

set_option autoImplicit false

/-! # What `scan_string` accepts

The strings of the grammar and no others, and the token buffer is the UTF-8 of what they denote:
first for four digits, then for one character, and then for the loop. -/

namespace MarketFeed

open Grammar Lexer

variable {unread unread' added : Bytes} {n : ℕ}

/-! ## Code points -/

theorem hexDigit_table : ∀ i < 256, ∀ d < 16, Lexer.hexDigit (.ofNat i) = some d ↔
    i = d.digitChar.toNat ∨ i = d.digitChar.toUpper.toNat := by
  decide +kernel

theorem hexDigit_lt {b : UInt8} {d : ℕ} (h : Lexer.hexDigit b = some d) : d < 16 := by
  unfold Lexer.hexDigit at h
  simp only [UInt8.le_iff_toNat_le, UInt8.reduceToNat] at h
  split_ifs at h <;> obtain rfl := Option.some.inj h <;> omega

theorem hexDigit_eq_some_iff {b : UInt8} {d : ℕ} : Lexer.hexDigit b = some d ↔ HexDigit b d := by
  have htable := hexDigit_table b.toNat b.toNat_lt d
  rw [UInt8.ofNat_toNat] at htable
  exact ⟨fun h => ⟨hexDigit_lt h, (htable (hexDigit_lt h)).1 h⟩, fun h => (htable h.1).2 h.2⟩

theorem codepointLoop_cons_iff {factor : ℕ} {factors : List ℕ} {start : ℕ} {r : ℕ × Bytes} :
    codepointLoop (factor :: factors) start unread = some r ↔
      ∃ b d rest, unread = b :: rest ∧ HexDigit b d ∧
        codepointLoop factors (start + d * 2 ^ factor) rest = some r := by
  simp only [← hexDigit_eq_some_iff, ← Nat.shiftLeft_eq]
  cases unread with
  | nil => simp [codepointLoop]
  | cons b rest =>
      simp only [codepointLoop]
      constructor
      · intro h
        split at h
        · exact absurd h (by simp)
        · next d hd => exact ⟨b, d, rest, rfl, hd, h⟩
      · rintro ⟨b', d, rest', hcons, hd, h⟩
        obtain ⟨rfl, rfl⟩ := List.cons.inj hcons
        simpa only [hd] using h

theorem getCodepoint_eq_some_iff :
    getCodepoint unread = some (n, unread') ↔ ∃ w, Hex4 w n ∧ unread = w ++ unread' := by
  unfold getCodepoint
  simp only [codepointLoop_cons_iff]
  constructor
  · rintro ⟨b₁, d₁, -, rfl, h₁, b₂, d₂, -, rfl, h₂, b₃, d₃, -, rfl, h₃, b₄, d₄, rest, rfl, h₄, h⟩
    obtain ⟨rfl, rfl⟩ := Prod.mk.inj (Option.some.inj h)
    refine ⟨[b₁, b₂, b₃, b₄], ?_, rfl⟩
    simpa using Hex4.mk h₁ h₂ h₃ h₄
  · rintro ⟨w, ⟨h₁, h₂, h₃, h₄⟩, rfl⟩
    refine ⟨_, _, _, rfl, h₁, _, _, _, rfl, h₂, _, _, _, rfl, h₃, _, _, _, rfl, h₄, ?_⟩
    simp [codepointLoop]

theorem hex4_lt {w : Bytes} (h : Hex4 w n) : n < 0x10000 := by
  obtain ⟨h₁, h₂, h₃, h₄⟩ := h
  have := h₁.1
  have := h₂.1
  have := h₃.1
  have := h₄.1
  omega

/-- A shift and an or add up where the bits do not overlap. -/
theorem or_eq_add {k m : ℕ} (i : ℕ) (hk : 2 ^ i ∣ k) (hm : m < 2 ^ i) : k ||| m = k + m := by
  obtain ⟨a, rfl⟩ := hk
  exact (Nat.two_pow_add_eq_or_of_lt hm a).symm

/-- The bytes that `scan_string` adds for a code point are those of the character. -/
theorem codepointBytes_eq (h : n < 0xD800 ∨ 0xDFFF < n ∧ n < 0x110000) :
    codepointBytes n = String.utf8EncodeChar (.ofNat n) := by
  have hc := Utf8.toNat_ofNat h
  have hmask (m : ℕ) : 0x80 ||| m &&& 0x3F = 0x80 + m % 0x40 := by
    rw [Nat.and_two_pow_sub_one_eq_mod m 6]
    exact or_eq_add 6 (by decide) (Nat.mod_lt _ (by decide))
  unfold codepointBytes
  simp only [hmask, Nat.shiftRight_eq_div_pow]
  rcases Utf8.encodeChar_cases (.ofNat n) with
    ⟨hn, he⟩ | ⟨hn, hn', he⟩ | ⟨hn, hn', he⟩ | ⟨hn, he⟩ <;>
    rw [hc] at hn he
  · rw [he, if_pos hn]
  · rw [hc] at hn'
    rw [he, if_neg (by omega), if_pos (by omega), or_eq_add 6 (by decide) (by omega)]
  · rw [hc] at hn'
    rw [he, if_neg (by omega), if_neg (by omega), if_pos (by omega),
      or_eq_add 4 (by decide) (by omega)]
  · rw [he, if_neg (by omega), if_neg (by omega), if_neg (by omega),
      or_eq_add 3 (by decide) (by omega)]

/-! ## Characters -/

/-- The number of a surrogate pair, as the source computes it and as the grammar has it. -/
theorem surrogates_eq {n' : ℕ} (hn : 0xD800 ≤ n ∧ n ≤ 0xDBFF) (hn' : 0xDC00 ≤ n' ∧ n' ≤ 0xDFFF) :
    n <<< 10 + n' - 0x35FDC00 = 0x10000 + (n - 0xD800) * 0x400 + (n' - 0xDC00) := by
  rw [Nat.shiftLeft_eq]
  omega

theorem scanUnicode_sound (h : scanUnicode unread = some (added, unread')) :
    ∃ w c, unread = w ++ unread' ∧ added = String.utf8EncodeChar c ∧
      CharText (0x5C :: 0x75 :: w) c := by
  unfold scanUnicode at h
  split at h
  · exact absurd h (by simp)
  · next n rest hfirst =>
      obtain ⟨w, hw, rfl⟩ := getCodepoint_eq_some_iff.1 hfirst
      have hlt := hex4_lt hw
      split at h
      · next hn =>
          split at h
          · next backslash u rest =>
              split at h
              · next hescape =>
                  obtain ⟨rfl, rfl⟩ := hescape
                  split at h
                  · exact absurd h (by simp)
                  · next n' rest' hsecond =>
                      obtain ⟨w', hw', rfl⟩ := getCodepoint_eq_some_iff.1 hsecond
                      split at h
                      · next hn' =>
                          obtain ⟨rfl, rfl⟩ := Prod.mk.inj (Option.some.inj h)
                          refine ⟨w ++ 0x5C :: 0x75 :: w', _, by simp, ?_,
                            .surrogates hw hw' hn hn'⟩
                          rw [surrogates_eq hn hn', codepointBytes_eq (by omega)]
                      · exact absurd h (by simp)
              · exact absurd h (by simp)
          · exact absurd h (by simp)
      · split at h
        · exact absurd h (by simp)
        · obtain ⟨rfl, rfl⟩ := Prod.mk.inj (Option.some.inj h)
          exact ⟨w, _, rfl, codepointBytes_eq (by omega), .codeUnit hw (by omega)⟩

theorem scanUnicode_codeUnit {w : Bytes} (h : Hex4 w n) (hn : n < 0xD800 ∨ 0xDFFF < n) :
    scanUnicode (w ++ unread) = some (String.utf8EncodeChar (.ofNat n), unread) := by
  have hlt := hex4_lt h
  unfold scanUnicode
  rw [getCodepoint_eq_some_iff.2 ⟨w, h, rfl⟩]
  simp only
  rw [if_neg (by omega), if_neg (by omega), codepointBytes_eq (by omega)]

theorem scanUnicode_surrogates {w w' : Bytes} {n' : ℕ} (h : Hex4 w n) (h' : Hex4 w' n')
    (hn : 0xD800 ≤ n ∧ n ≤ 0xDBFF) (hn' : 0xDC00 ≤ n' ∧ n' ≤ 0xDFFF) :
    scanUnicode (w ++ 0x5C :: 0x75 :: (w' ++ unread)) =
      some (String.utf8EncodeChar (.ofNat (0x10000 + (n - 0xD800) * 0x400 + (n' - 0xDC00))),
        unread) := by
  unfold scanUnicode
  rw [getCodepoint_eq_some_iff.2 ⟨w, h, rfl⟩]
  simp only [if_pos hn, and_self, if_true]
  rw [getCodepoint_eq_some_iff.2 ⟨w', h', rfl⟩]
  simp only [if_pos hn']
  rw [surrogates_eq hn hn', codepointBytes_eq (by omega)]

theorem escapes_eq : escapes = shortEscapes.map fun e => (e.1, .ofNat e.2) := rfl

theorem escapes_table : (shortEscapes.all fun e =>
    decide (escapes.lookup e.1 = some (.ofNat e.2) ∧
      String.utf8EncodeChar (.ofNat e.2) = [.ofNat e.2])) = true := by
  decide

theorem lookup_escapes {b : UInt8} {n : ℕ} (h : (b, n) ∈ shortEscapes) :
    escapes.lookup b = some (.ofNat n) ∧ String.utf8EncodeChar (.ofNat n) = [.ofNat n] :=
  of_decide_eq_true (List.all_eq_true.1 escapes_table (b, n) h)

theorem scanEscape_sound (h : scanEscape unread = some (added, unread')) :
    ∃ w c, unread = w ++ unread' ∧ added = String.utf8EncodeChar c ∧ CharText (0x5C :: w) c := by
  cases unread with
  | nil => exact absurd h (by simp [scanEscape])
  | cons current unread =>
      simp only [scanEscape] at h
      split_ifs at h with hu
      · obtain ⟨w, c, rfl, hadded, hw⟩ := scanUnicode_sound h
        exact ⟨current :: w, c, rfl, hadded, hu ▸ hw⟩
      · obtain ⟨byte, hbyte, hmap⟩ := Option.map_eq_some_iff.1 h
        obtain ⟨rfl, rfl⟩ := Prod.mk.inj hmap
        obtain ⟨before, after, hsplit, -⟩ := List.lookup_eq_some_iff.1 hbyte
        have hmem : (current, byte) ∈ escapes := by
          rw [hsplit]
          simp
        rw [escapes_eq] at hmem
        obtain ⟨⟨b, n⟩, he, heq⟩ := List.mem_map.1 hmem
        obtain ⟨rfl, rfl⟩ := Prod.mk.inj heq
        exact ⟨[b], .ofNat n, rfl, (lookup_escapes he).2.symm, .escape he⟩

theorem scanCharacter_escape : scanCharacter 0x5C unread = scanEscape unread := if_pos rfl

theorem scanEscape_unicode : scanEscape (0x75 :: unread) = scanUnicode unread := by
  rw [scanEscape, if_pos rfl]

/-- A byte in a range, as `next_byte_in_range` tests it. -/
def InRange (b : UInt8) (range : UInt8 × UInt8) : Prop := range.1 ≤ b ∧ b ≤ range.2

theorem nextByteInRange_eq_some_iff {ranges : List (UInt8 × UInt8)} {before : Bytes} :
    nextByteInRange ranges before unread = some (added, unread') ↔
      ∃ tail, List.Forall₂ InRange tail ranges ∧ unread = tail ++ unread' ∧
        added = before ++ tail := by
  induction ranges generalizing before unread with
  | nil =>
      simp only [nextByteInRange, Option.some.injEq, Prod.mk.injEq, List.forall₂_nil_right_iff]
      constructor
      · rintro ⟨rfl, rfl⟩
        exact ⟨[], rfl, rfl, (List.append_nil _).symm⟩
      · rintro ⟨_, rfl, rfl, rfl⟩
        exact ⟨(List.append_nil _).symm, rfl⟩
  | cons range ranges ih =>
      constructor
      · intro h
        cases unread with
        | nil => exact absurd h (by simp [nextByteInRange])
        | cons b rest =>
            simp only [nextByteInRange] at h
            split_ifs at h with hb
            obtain ⟨tail, htail, rfl, rfl⟩ := ih.1 h
            exact ⟨b :: tail, .cons hb htail, rfl, by simp⟩
      · rintro ⟨_, h, rfl, rfl⟩
        cases h with
        | @cons b _ tail _ hb htail =>
            refine (if_pos hb).trans ?_
            exact ih.2 ⟨tail, htail, rfl, by simp⟩

/-- The ranges of the source are those of well-formed UTF-8. -/
theorem exists_ranges_iff {b : UInt8} {tail : Bytes} (hb : ¬ b < 0x80) :
    (∃ ranges, rangesAfter b = some ranges ∧ List.Forall₂ InRange tail ranges) ↔
      ∃ c, String.utf8EncodeChar c = b :: tail := by
  unfold rangesAfter
  match tail with
  | [] =>
      rw [Utf8.exists_char_one_iff]
      split_ifs <;> simp [hb]
  | [b₁] =>
      rw [Utf8.exists_char_two_iff]
      simp only [Utf8.IsContinuation, UInt8.le_iff_toNat_le, UInt8.reduceToNat, ← UInt8.toNat_inj]
      split_ifs <;> simp [InRange, UInt8.le_iff_toNat_le] <;> omega
  | [b₁, b₂] =>
      rw [Utf8.exists_char_three_iff]
      simp only [Utf8.IsContinuation, UInt8.le_iff_toNat_le, UInt8.reduceToNat, ← UInt8.toNat_inj]
      split_ifs <;> simp [InRange, UInt8.le_iff_toNat_le] <;> omega
  | [b₁, b₂, b₃] =>
      rw [Utf8.exists_char_four_iff]
      simp only [Utf8.IsContinuation, UInt8.le_iff_toNat_le, UInt8.reduceToNat, ← UInt8.toNat_inj]
      split_ifs <;> simp [InRange, UInt8.le_iff_toNat_le] <;> omega
  | b₁ :: b₂ :: b₃ :: b₄ :: rest =>
      refine iff_of_false ?_ ?_
      · split_ifs <;> simp
      · rintro ⟨c, hc⟩
        rcases Utf8.encodeChar_length c with ⟨_, h⟩ | ⟨_, _, h⟩ | ⟨_, _, _, h⟩ | ⟨_, _, _, _, h⟩ <;>
          simp [h] at hc

theorem scanCharacter_sound {b : UInt8} (hquote : b ≠ 0x22)
    (h : scanCharacter b unread = some (added, unread')) :
    ∃ w c, b :: unread = w ++ unread' ∧ added = String.utf8EncodeChar c ∧ CharText w c := by
  unfold scanCharacter at h
  split_ifs at h with hbackslash hcontrol hascii
  · obtain ⟨w, c, rfl, hadded, hw⟩ := scanEscape_sound h
    exact ⟨b :: w, c, rfl, hadded, hbackslash ▸ hw⟩
  · obtain ⟨rfl, rfl⟩ := Prod.mk.inj (Option.some.inj h)
    obtain ⟨c, hc⟩ := Utf8.exists_char_one_iff.2 hascii
    obtain ⟨hnat, -⟩ := Utf8.toNat_of_head_lt hc hascii
    refine ⟨[b], c, rfl, hc.symm, hc ▸ .unescaped ?_ ?_ ?_⟩ <;> rw [hnat]
    · exact UInt8.not_lt.1 hcontrol
    · exact fun h => hquote (UInt8.toNat_inj.1 h)
    · exact fun h => hbackslash (UInt8.toNat_inj.1 h)
  · split at h
    · exact absurd h (by simp)
    · next ranges hranges =>
        obtain ⟨tail, htail, rfl, rfl⟩ := nextByteInRange_eq_some_iff.1 h
        obtain ⟨c, hc⟩ := (exists_ranges_iff hascii).1 ⟨ranges, hranges, htail⟩
        have hnat := Utf8.le_toNat_of_head hc hascii
        exact ⟨b :: tail, c, rfl, hc.symm,
          hc ▸ .unescaped (by omega) (by omega) (by omega)⟩

theorem scanCharacter_complete (unread : Bytes) {w : Bytes} {c : Char} (h : CharText w c) :
    ∃ b tail, w = b :: tail ∧ b ≠ 0x22 ∧
      scanCharacter b (tail ++ unread) = some (String.utf8EncodeChar c, unread) := by
  cases h with
  | unescaped hcontrol hquote hbackslash =>
      obtain ⟨b, tail, hc⟩ := List.exists_cons_of_ne_nil (String.utf8EncodeChar_ne_nil (c := c))
      by_cases hascii : b < 0x80
      · obtain ⟨hnat, rfl⟩ := Utf8.toNat_of_head_lt hc hascii
        rw [hnat] at hcontrol hquote hbackslash
        refine ⟨b, [], hc, fun h => hquote (congrArg UInt8.toNat h), ?_⟩
        unfold scanCharacter
        rw [if_neg fun h => hbackslash (congrArg UInt8.toNat h), if_neg (UInt8.not_lt.2 hcontrol),
          if_pos hascii, hc]
        rfl
      · obtain ⟨ranges, hranges, htail⟩ := (exists_ranges_iff hascii).2 ⟨c, hc⟩
        have hne {b' : UInt8} (hb' : b' < 0x80) : b ≠ b' := fun h => hascii (h ▸ hb')
        refine ⟨b, tail, hc, hne (by decide), ?_⟩
        unfold scanCharacter
        rw [if_neg (hne (by decide)), if_neg fun h => hascii (UInt8.lt_trans h (by decide)),
          if_neg hascii, hranges, hc]
        exact nextByteInRange_eq_some_iff.2 ⟨tail, htail, rfl, rfl⟩
  | @escape b n h =>
      refine ⟨0x5C, [b], rfl, by decide, ?_⟩
      obtain ⟨hlookup, hbytes⟩ := lookup_escapes h
      have hu : b ≠ 0x75 := fun hu => absurd (hu ▸ hlookup) (by simp [escapes, List.lookup_cons])
      rw [scanCharacter_escape, hbytes]
      refine (if_neg hu).trans ?_
      rw [hlookup]
      rfl
  | codeUnit h hn =>
      refine ⟨0x5C, _, rfl, by decide, ?_⟩
      rw [scanCharacter_escape, List.cons_append, scanEscape_unicode, scanUnicode_codeUnit h hn]
  | surrogates h h' hn hn' =>
      refine ⟨0x5C, _, rfl, by decide, ?_⟩
      rw [scanCharacter_escape, List.cons_append, scanEscape_unicode, List.append_assoc]
      exact scanUnicode_surrogates h h' hn hn'

/-! ## Strings -/

theorem Grammar.StringBody.concat {w w' : Bytes} {c : Char} {cs : List Char} (h : StringBody w cs)
    (hchar : CharText w' c) : StringBody (w ++ w') (cs ++ [c]) := by
  induction h with
  | nil => simpa using StringBody.cons hchar .nil
  | cons hfirst _ ih =>
      rw [List.append_assoc]
      exact .cons hfirst ih

/-- What the loop of `scan_string` has taken off `unread` when it is in state `s`. -/
def Taken (unread : Bytes) (s : Bytes × Bytes) : Prop :=
  ∃ w cs, StringBody w cs ∧ unread = w ++ s.2 ∧ s.1 = Utf8.encode cs

/-- **Step lemma.** An iteration takes one more character, or the quote at the end. -/
theorem Taken.step {s : Bytes × Bytes} (h : Taken unread s) :
    (scanStringLoop.body s).Satisfies (Taken unread)
      (fun r => ∀ added rest, r = some (added, rest) → Taken unread (added, 0x22 :: rest)) := by
  obtain ⟨buffer, rest⟩ := s
  obtain ⟨w, cs, hw, rfl, rfl⟩ := h
  cases rest with
  | nil => simp [scanStringLoop, scanStringBody, Iteration.Satisfies]
  | cons b rest =>
      simp only [scanStringLoop, scanStringBody]
      split_ifs with hquote
      · rintro _ _ ⟨⟩
        exact ⟨w, cs, hw, by rw [hquote], rfl⟩
      · split
        · simp [Iteration.Satisfies]
        · next added rest' hcharacter =>
            obtain ⟨w', c, hrest, rfl, hchar⟩ := scanCharacter_sound hquote hcharacter
            refine ⟨w ++ w', cs ++ [c], hw.concat hchar, ?_, ?_⟩
            · rw [List.append_assoc, ← hrest]
            · rw [Utf8.encode_append, Utf8.encode_cons, Utf8.encode_nil, List.append_nil]

/-- **Soundness of `scan_string`.** What it takes is the inside of a string and a quote. -/
theorem scanString_sound (h : scanString unread = some (added, unread')) :
    ∃ w cs, StringBody w cs ∧ unread = w ++ 0x22 :: unread' ∧ added = Utf8.encode cs :=
  scanStringLoop.run_satisfies (Taken unread) _ (fun _ => Taken.step) ⟨[], [], .nil, rfl, rfl⟩
    added unread' h

/-- From any token buffer, the loop adds what the string denotes. -/
theorem scanStringLoop_run {w : Bytes} {cs : List Char} (h : StringBody w cs) (buffer : Bytes) :
    scanStringLoop.run (buffer, w ++ 0x22 :: unread) = some (buffer ++ Utf8.encode cs, unread) := by
  induction h generalizing buffer with
  | nil =>
      rw [Utf8.encode_nil, List.append_nil]
      refine Loop.run_of_leave ?_
      simp only [scanStringLoop, scanStringBody, List.nil_append, if_true]
  | @cons w ws c cs hchar _ ih =>
      obtain ⟨b, tail, rfl, hquote, hcharacter⟩ :=
        scanCharacter_complete (ws ++ 0x22 :: unread) hchar
      rw [Utf8.encode_cons, ← List.append_assoc, ← ih]
      refine Loop.run_of_again ?_
      simp only [scanStringLoop, scanStringBody, List.cons_append, List.append_assoc]
      rw [if_neg hquote, hcharacter]

/-- **Completeness of `scan_string`.** The inside of a string and a quote are taken. -/
theorem scanString_complete (unread : Bytes) {w : Bytes} {cs : List Char} (h : StringBody w cs) :
    scanString (w ++ 0x22 :: unread) = some (Utf8.encode cs, unread) :=
  scanStringLoop_run h []

end MarketFeed
