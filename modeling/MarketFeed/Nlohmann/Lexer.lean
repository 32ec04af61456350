import MarketFeed.Basic
import MarketFeed.Library.Loop
import Mathlib.Data.Rat.Defs

set_option autoImplicit false

/-! # The scanner (`class lexer`, `include/nlohmann/json.hpp`)

The scanner takes the bytes of its input one by one (`get`), and may put the last one back
(`unget`). Here a scan function is a function of the bytes that are still unread: `get` matches on
them, at their end there is no byte to match, and what is put back has not been taken. A scan that
fails, where the source returns `parse_error`, is `none`; its message is left out, and so are the
position and the `token_string` that only messages use, and the assertions of the scanner.

The C locale is the one a program starts in, so that `decimal_point_char` is a full stop. The
conversion of a decimal numeral to a `double` is a parameter. -/

namespace MarketFeed

/-- `strtod`: the value of a numeral, and `none` where it is too large for a `double`. -/
abbrev Strtod := Bytes → Option ℚ

/-- `token_type`, with the value that goes with a string or a number. -/
inductive Token where
  | literalTrue
  | literalFalse
  | literalNull
  | valueString (tokenBuffer : Bytes)
  | valueUnsigned (n : UInt64)
  | valueInteger (n : Int64)
  /-- The value is `none` where it is not finite. -/
  | valueFloat (x : Option ℚ)
  | beginArray
  | beginObject
  | endArray
  | endObject
  | nameSeparator
  | valueSeparator
  | parseError
  | endOfInput
deriving DecidableEq

/-- An error or the end of the input is the last token; any other one leaves work to do. -/
def Token.pending : Token → ℕ
  | .parseError | .endOfInput => 0
  | _ => 1

/-- The scanner: whether nothing has been read yet (`chars_read_total == 0`), and what is left. -/
structure Lexer where
  fresh : Bool
  unread : Bytes

namespace Lexer

/-! ## Strings -/

/-- The value of a hexadecimal digit. -/
def hexDigit (current : UInt8) : Option ℕ :=
  if 0x30 ≤ current ∧ current ≤ 0x39 then some (current.toNat - 0x30)
  else if 0x41 ≤ current ∧ current ≤ 0x46 then some (current.toNat - 0x37)
  else if 0x61 ≤ current ∧ current ≤ 0x66 then some (current.toNat - 0x57)
  else none

/-- The loop of `get_codepoint` over its factors. -/
def codepointLoop : List ℕ → ℕ → Bytes → Option (ℕ × Bytes)
  | [], codepoint, unread => some (codepoint, unread)
  | _ :: _, _, [] => none
  | factor :: factors, codepoint, current :: unread =>
      match hexDigit current with
      | none => none
      | some digit => codepointLoop factors (codepoint + digit <<< factor) unread

/-- `get_codepoint`: the four digits after `\u`, and `none` for its -1. -/
def getCodepoint (unread : Bytes) : Option (ℕ × Bytes) := codepointLoop [12, 8, 4, 0] 0 unread

/-- The bytes that `scan_string` adds for a code point. -/
def codepointBytes (codepoint : ℕ) : Bytes :=
  if codepoint < 0x80 then [.ofNat codepoint]
  else if codepoint ≤ 0x7FF then
    [.ofNat (0xC0 ||| codepoint >>> 6), .ofNat (0x80 ||| codepoint &&& 0x3F)]
  else if codepoint ≤ 0xFFFF then
    [.ofNat (0xE0 ||| codepoint >>> 12), .ofNat (0x80 ||| codepoint >>> 6 &&& 0x3F),
      .ofNat (0x80 ||| codepoint &&& 0x3F)]
  else
    [.ofNat (0xF0 ||| codepoint >>> 18), .ofNat (0x80 ||| codepoint >>> 12 &&& 0x3F),
      .ofNat (0x80 ||| codepoint >>> 6 &&& 0x3F), .ofNat (0x80 ||| codepoint &&& 0x3F)]

/-- What `scan_string` does after `\u`: the bytes it adds, and what is left. -/
def scanUnicode (unread : Bytes) : Option (Bytes × Bytes) :=
  match getCodepoint unread with
  | none => none
  | some (codepoint1, unread) =>
    -- a high surrogate must be followed by a low one
    if 0xD800 ≤ codepoint1 ∧ codepoint1 ≤ 0xDBFF then
      match unread with
      | backslash :: u :: unread =>
        if backslash = 0x5C ∧ u = 0x75 then
          match getCodepoint unread with
          | none => none
          | some (codepoint2, unread) =>
            if 0xDC00 ≤ codepoint2 ∧ codepoint2 ≤ 0xDFFF then
              some (codepointBytes (codepoint1 <<< 10 + codepoint2 - 0x35FDC00), unread)
            else none
        else none
      | _ => none
    else if 0xDC00 ≤ codepoint1 ∧ codepoint1 ≤ 0xDFFF then none
    else some (codepointBytes codepoint1, unread)

/-- The escapes of one character: what follows the backslash, and the byte it stands for. -/
def escapes : List (UInt8 × UInt8) :=
  [(0x22, 0x22), (0x5C, 0x5C), (0x2F, 0x2F), (0x62, 0x08), (0x66, 0x0C), (0x6E, 0x0A), (0x72, 0x0D),
    (0x74, 0x09)]

/-- What `scan_string` does after a backslash. -/
def scanEscape : Bytes → Option (Bytes × Bytes)
  | [] => none
  | current :: unread =>
      if current = 0x75 then scanUnicode unread
      else (escapes.lookup current).map fun byte => ([byte], unread)

/-- `next_byte_in_range`, a pair for each byte that must follow. -/
def nextByteInRange : List (UInt8 × UInt8) → Bytes → Bytes → Option (Bytes × Bytes)
  | [], added, unread => some (added, unread)
  | _ :: _, _, [] => none
  | (low, high) :: ranges, added, current :: unread =>
      if low ≤ current ∧ current ≤ high then nextByteInRange ranges (added ++ [current]) unread
      else none

/-- The ranges that `scan_string` passes to `next_byte_in_range`, by the first byte. -/
def rangesAfter (current : UInt8) : Option (List (UInt8 × UInt8)) :=
  if 0xC2 ≤ current ∧ current ≤ 0xDF then some [(0x80, 0xBF)]
  else if current = 0xE0 then some [(0xA0, 0xBF), (0x80, 0xBF)]
  else if (0xE1 ≤ current ∧ current ≤ 0xEC) ∨ (0xEE ≤ current ∧ current ≤ 0xEF) then
    some [(0x80, 0xBF), (0x80, 0xBF)]
  else if current = 0xED then some [(0x80, 0x9F), (0x80, 0xBF)]
  else if current = 0xF0 then some [(0x90, 0xBF), (0x80, 0xBF), (0x80, 0xBF)]
  else if 0xF1 ≤ current ∧ current ≤ 0xF3 then some [(0x80, 0xBF), (0x80, 0xBF), (0x80, 0xBF)]
  else if current = 0xF4 then some [(0x80, 0x8F), (0x80, 0xBF), (0x80, 0xBF)]
  else none

/-- One character of a string, from its first byte on: the bytes that are added, and what is
    left. -/
def scanCharacter (current : UInt8) (unread : Bytes) : Option (Bytes × Bytes) :=
  if current = 0x5C then scanEscape unread
  -- control characters must be escaped
  else if current < 0x20 then none
  else if current < 0x80 then some ([current], unread)
  else
    match rangesAfter current with
    | none => none
    | some ranges => nextByteInRange ranges [current] unread

/-! What has been scanned is no longer unread. -/

variable {unread unread' added : Bytes} {codepoint : ℕ}

theorem length_codepointLoop {factors : List ℕ} {n : ℕ}
    (h : codepointLoop factors n unread = some (codepoint, unread')) :
    unread'.length ≤ unread.length := by
  induction factors generalizing n unread with
  | nil =>
      obtain ⟨rfl, rfl⟩ := Prod.mk.inj (Option.some.inj h)
      exact Nat.le_refl _
  | cons factor factors ih =>
      cases unread with
      | nil => exact absurd h (by simp [codepointLoop])
      | cons current unread =>
          unfold codepointLoop at h
          split at h
          · exact absurd h (by simp)
          · exact Nat.le_succ_of_le (ih h)

theorem length_scanUnicode (h : scanUnicode unread = some (added, unread')) :
    unread'.length ≤ unread.length := by
  unfold scanUnicode at h
  split at h
  · exact absurd h (by simp)
  · next codepoint1 rest hfirst =>
      have hrest := length_codepointLoop hfirst
      split at h
      · split at h
        · next backslash u rest' =>
            split at h
            · split at h
              · exact absurd h (by simp)
              · next codepoint2 rest'' hsecond =>
                  have hrest' := length_codepointLoop hsecond
                  split at h
                  · obtain ⟨-, rfl⟩ := Prod.mk.inj (Option.some.inj h)
                    simp only [List.length_cons] at hrest
                    omega
                  · exact absurd h (by simp)
            · exact absurd h (by simp)
        · exact absurd h (by simp)
      · split at h
        · exact absurd h (by simp)
        · obtain ⟨-, rfl⟩ := Prod.mk.inj (Option.some.inj h)
          exact hrest

theorem length_nextByteInRange {ranges : List (UInt8 × UInt8)} {before : Bytes}
    (h : nextByteInRange ranges before unread = some (added, unread')) :
    unread'.length ≤ unread.length := by
  induction ranges generalizing before unread with
  | nil =>
      obtain ⟨rfl, rfl⟩ := Prod.mk.inj (Option.some.inj h)
      exact Nat.le_refl _
  | cons range ranges ih =>
      cases unread with
      | nil => exact absurd h (by simp [nextByteInRange])
      | cons current unread =>
          unfold nextByteInRange at h
          split at h
          · exact Nat.le_succ_of_le (ih h)
          · exact absurd h (by simp)

theorem length_scanCharacter {current : UInt8}
    (h : scanCharacter current unread = some (added, unread')) :
    unread'.length ≤ unread.length := by
  unfold scanCharacter at h
  split_ifs at h
  · cases unread with
    | nil => exact absurd h (by simp [scanEscape])
    | cons next unread =>
        simp only [scanEscape] at h
        split_ifs at h
        · exact Nat.le_succ_of_le (length_scanUnicode h)
        · obtain ⟨byte, -, hbyte⟩ := Option.map_eq_some_iff.1 h
          obtain ⟨-, rfl⟩ := Prod.mk.inj hbyte
          exact Nat.le_succ _
  · obtain ⟨-, rfl⟩ := Prod.mk.inj (Option.some.inj h)
    exact Nat.le_refl _
  · split at h
    · exact absurd h (by simp)
    · exact length_nextByteInRange h

/-- An iteration of the loop of `scan_string`, on the token buffer and the unread bytes. -/
def scanStringBody (s : Bytes × Bytes) : Iteration (Bytes × Bytes) (Option (Bytes × Bytes)) :=
  match s.2 with
  | [] => .leave none
  | current :: unread =>
      if current = 0x22 then .leave (some (s.1, unread))
      else
        match scanCharacter current unread with
        | none => .leave none
        | some (added, unread) => .again (s.1 ++ added, unread)

/-- The loop of `scan_string` reads on with every iteration. -/
def scanStringLoop : Loop (Bytes × Bytes) (Option (Bytes × Bytes)) where
  body := scanStringBody
  variant s := s.2.length
  decreases := by
    rintro ⟨buffer, unread⟩ t h
    cases unread with
    | nil => exact absurd h (by simp [scanStringBody])
    | cons current unread =>
        simp only [scanStringBody] at h
        split_ifs at h
        split at h
        · exact absurd h (by simp)
        · next added rest hcharacter =>
            obtain rfl := Iteration.again.inj h
            exact Nat.lt_succ_of_le (length_scanCharacter hcharacter)

/-- `scan_string`, after the opening quote: the token buffer, and what is left. -/
def scanString (unread : Bytes) : Option (Bytes × Bytes) := scanStringLoop.run ([], unread)

/-! ## Numbers -/

def isDigit (current : UInt8) : Bool := 0x30 ≤ current && current ≤ 0x39

/-- The labels of `scan_number`. -/
inductive NumberState where
  | init
  | minus
  | zero
  | any1
  | decimal1
  | decimal2
  | exponent
  | sign
  | any2
deriving DecidableEq

/-- `number_type` -/
inductive NumberType where
  | valueUnsigned
  | valueInteger
  | valueFloat
deriving DecidableEq

namespace NumberState

/-- Where the `switch` at a label adds the current character and goes to another label. -/
def next (state : NumberState) (current : UInt8) : Option NumberState :=
  match state with
  | .init =>
      if current = 0x2D then some .minus
      else if current = 0x30 then some .zero
      else if isDigit current then some .any1
      else none
  | .minus =>
      if current = 0x30 then some .zero
      else if isDigit current then some .any1
      else none
  | .zero =>
      if current = 0x2E then some .decimal1
      else if current = 0x65 ∨ current = 0x45 then some .exponent
      else none
  | .any1 =>
      if isDigit current then some .any1
      else if current = 0x2E then some .decimal1
      else if current = 0x65 ∨ current = 0x45 then some .exponent
      else none
  | .decimal1 => if isDigit current then some .decimal2 else none
  | .decimal2 =>
      if isDigit current then some .decimal2
      else if current = 0x65 ∨ current = 0x45 then some .exponent
      else none
  | .exponent =>
      if current = 0x2B ∨ current = 0x2D then some .sign
      else if isDigit current then some .any2
      else none
  | .sign => if isDigit current then some .any2 else none
  | .any2 => if isDigit current then some .any2 else none

/-- Whether the default of the `switch` is `scan_number_done`. -/
def done : NumberState → Bool
  | .zero | .any1 | .decimal2 | .any2 => true
  | .init | .minus | .decimal1 | .exponent | .sign => false

/-- The assignment to `number_type` at a label. -/
def numberType (type : NumberType) : NumberState → NumberType
  | .minus => .valueInteger
  | .decimal1 | .exponent => .valueFloat
  | _ => type

end NumberState

/-- `scan_number` from a label on, up to `scan_number_done`. -/
def scanNumberFrom (state : NumberState) (type : NumberType) (tokenBuffer : Bytes) :
    Bytes → Option (NumberType × Bytes × Bytes)
  | [] => if state.done then some (type, tokenBuffer, []) else none
  | current :: unread =>
      match state.next current with
      | some state =>
          scanNumberFrom state (state.numberType type) (tokenBuffer ++ [current]) unread
      | none => if state.done then some (type, tokenBuffer, current :: unread) else none

/-- The number that decimal digits denote. -/
def decimal (digits : Bytes) : ℕ := digits.foldl (fun n c => 10 * n + (c.toNat - 0x30)) 0

/-- `strtoull` on digits, `none` where it sets `errno`. -/
def strtoull (digits : Bytes) : Option UInt64 :=
  if decimal digits < 2 ^ 64 then some (.ofNat (decimal digits)) else none

/-- `strtoll` on a minus sign and digits, `none` where it sets `errno`. -/
def strtoll (text : Bytes) : Option Int64 :=
  if decimal text.tail ≤ 2 ^ 63 then some (.ofInt (-decimal text.tail)) else none

/-- The end of `scan_number`: integers first, and `strtod` for the rest. -/
def numberToken (strtod : Strtod) (type : NumberType) (tokenBuffer : Bytes) : Token :=
  match type with
  | .valueUnsigned =>
      match strtoull tokenBuffer with
      | some x => .valueUnsigned x
      | none => .valueFloat (strtod tokenBuffer)
  | .valueInteger =>
      match strtoll tokenBuffer with
      | some x => .valueInteger x
      | none => .valueFloat (strtod tokenBuffer)
  | .valueFloat => .valueFloat (strtod tokenBuffer)

theorem length_scanNumberFrom {state : NumberState} {type type' : NumberType}
    {tokenBuffer tokenBuffer' : Bytes}
    (h : scanNumberFrom state type tokenBuffer unread = some (type', tokenBuffer', unread')) :
    unread'.length ≤ unread.length := by
  induction unread generalizing state type tokenBuffer with
  | nil =>
      unfold scanNumberFrom at h
      split_ifs at h
      obtain ⟨-, -, rfl⟩ := h
      exact Nat.le_refl _
  | cons current unread ih =>
      unfold scanNumberFrom at h
      split at h
      · exact Nat.le_succ_of_le (ih h)
      · split_ifs at h
        obtain ⟨-, -, rfl⟩ := h
        exact Nat.le_refl _

/-- A label that is not the end has a character to read. -/
theorem length_lt_scanNumberFrom {state : NumberState} {type type' : NumberType}
    {tokenBuffer tokenBuffer' : Bytes} (hdone : state.done = false)
    (h : scanNumberFrom state type tokenBuffer unread = some (type', tokenBuffer', unread')) :
    unread'.length < unread.length := by
  cases unread with
  | nil => exact absurd h (by simp [scanNumberFrom, hdone])
  | cons current unread =>
      simp only [scanNumberFrom, hdone] at h
      split at h
      · exact Nat.lt_succ_of_le (length_scanNumberFrom h)
      · exact absurd h (by simp)

/-! ## Tokens -/

/-- The loop of `scan_literal`: the characters after the first. -/
def scanLiteral : Bytes → Bytes → Option Bytes
  | [], unread => some unread
  | _ :: _, [] => none
  | expected :: literalText, current :: unread =>
      if current = expected then scanLiteral literalText unread else none

/-- `skip_bom`: what is left, if there is no byte order mark or the right one. -/
def skipBom : Bytes → Option Bytes
  | 0xEF :: unread =>
      match unread with
      | 0xBB :: 0xBF :: unread => some unread
      | _ => none
  | unread => some unread

/-- The characters `skip_whitespace` skips. -/
def isSpace (current : UInt8) : Bool :=
  current = 0x20 || current = 0x09 || current = 0x0A || current = 0x0D

/-- The structural characters in the `switch` of `scan`. -/
def structural (current : UInt8) : Option Token :=
  if current = 0x5B then some .beginArray
  else if current = 0x5D then some .endArray
  else if current = 0x7B then some .beginObject
  else if current = 0x7D then some .endObject
  else if current = 0x3A then some .nameSeparator
  else if current = 0x2C then some .valueSeparator
  else none

/-- The literals in the `switch` of `scan`: the characters that must follow the first. -/
def literal (current : UInt8) : Option (Bytes × Token) :=
  if current = 0x74 then some ([0x72, 0x75, 0x65], .literalTrue)
  else if current = 0x66 then some ([0x61, 0x6C, 0x73, 0x65], .literalFalse)
  else if current = 0x6E then some ([0x75, 0x6C, 0x6C], .literalNull)
  else none

/-- The `switch` of `scan`. -/
def scanToken (strtod : Strtod) (current : UInt8) (unread : Bytes) : Option (Token × Bytes) :=
  match structural current, literal current with
  | some token, _ => some (token, unread)
  | none, some (literalText, token) => (scanLiteral literalText unread).map (token, ·)
  | none, none =>
      if current = 0x22 then
        (scanString unread).map fun (tokenBuffer, unread) => (.valueString tokenBuffer, unread)
      else if current = 0x2D ∨ isDigit current then
        (scanNumberFrom .init .valueUnsigned [] (current :: unread)).map
          fun (type, tokenBuffer, unread) => (numberToken strtod type tokenBuffer, unread)
      -- a null byte ends the input
      else if current = 0x00 then some (.endOfInput, unread)
      else none

/-- `scan`. After `parse_error` nothing is read any more, so what is left then does not matter. -/
def scan (strtod : Strtod) (lexer : Lexer) : Token × Lexer :=
  match if lexer.fresh then skipBom lexer.unread else some lexer.unread with
  | none => (.parseError, { fresh := false, unread := [] })
  | some unread =>
    match unread.dropWhile isSpace with
    | [] => (.endOfInput, { fresh := false, unread := [] })
    | current :: unread =>
      match scanToken strtod current unread with
      | none => (.parseError, { fresh := false, unread := [] })
      | some (token, unread) => (token, { fresh := false, unread })

/-! What has been scanned is no longer unread, and every token but the last is made of bytes. -/

theorem length_scanString (h : scanString unread = some (added, unread')) :
    unread'.length ≤ unread.length := by
  refine scanStringLoop.run_satisfies (fun t => t.2.length ≤ unread.length)
    (fun r => ∀ buffer rest, r = some (buffer, rest) → rest.length ≤ unread.length) ?_
    (s := ([], unread)) (Nat.le_refl _) added unread' h
  rintro ⟨buffer, rest⟩ hle
  cases rest with
  | nil => simp [scanStringLoop, scanStringBody, Iteration.Satisfies]
  | cons current rest =>
      simp only [scanStringLoop, scanStringBody]
      split_ifs
      · rintro _ _ ⟨⟩
        exact Nat.le_of_succ_le hle
      · split
        · simp [Iteration.Satisfies]
        · next hcharacter =>
            exact (length_scanCharacter hcharacter).trans (Nat.le_of_succ_le hle)

theorem length_scanLiteral {literalText : Bytes}
    (h : scanLiteral literalText unread = some unread') :
    unread'.length ≤ unread.length := by
  induction literalText generalizing unread with
  | nil => exact Option.some.inj h ▸ Nat.le_refl _
  | cons expected literalText ih =>
      cases unread with
      | nil => exact absurd h (by simp [scanLiteral])
      | cons current unread =>
          simp only [scanLiteral] at h
          split_ifs at h
          exact Nat.le_succ_of_le (ih h)

theorem length_scanToken {strtod : Strtod} {current : UInt8} {token : Token}
    (h : scanToken strtod current unread = some (token, unread')) :
    unread'.length ≤ unread.length := by
  unfold scanToken at h
  split at h
  · obtain ⟨-, rfl⟩ := Prod.mk.inj (Option.some.inj h)
    exact Nat.le_refl _
  · obtain ⟨rest, hrest, hmap⟩ := Option.map_eq_some_iff.1 h
    obtain ⟨-, rfl⟩ := Prod.mk.inj hmap
    exact length_scanLiteral hrest
  · split_ifs at h
    · obtain ⟨⟨buffer, rest⟩, hrest, hmap⟩ := Option.map_eq_some_iff.1 h
      obtain ⟨-, rfl⟩ := Prod.mk.inj hmap
      exact length_scanString hrest
    · obtain ⟨⟨type, buffer, rest⟩, hrest, hmap⟩ := Option.map_eq_some_iff.1 h
      obtain ⟨-, rfl⟩ := Prod.mk.inj hmap
      exact Nat.le_of_lt_succ (length_lt_scanNumberFrom rfl hrest)
    · obtain ⟨-, rfl⟩ := Prod.mk.inj (Option.some.inj h)
      exact Nat.le_refl _

theorem length_skipBom (h : skipBom unread = some unread') : unread'.length ≤ unread.length := by
  unfold skipBom at h
  split at h
  · split at h
    · obtain rfl := Option.some.inj h
      simp only [List.length_cons]
      omega
    · exact absurd h (by simp)
  · exact Option.some.inj h ▸ Nat.le_refl _

/-- **Scanning makes progress**: a token that is not the last one takes a byte. -/
theorem length_scan (strtod : Strtod) (lexer : Lexer) :
    (lexer.scan strtod).2.unread.length + (lexer.scan strtod).1.pending ≤ lexer.unread.length := by
  unfold scan
  split
  · exact Nat.zero_le _
  · next unread hunread =>
      have hle : unread.length ≤ lexer.unread.length := by
        split_ifs at hunread
        · exact length_skipBom hunread
        · exact Option.some.inj hunread ▸ Nat.le_refl _
      have hspace := (List.dropWhile_suffix isSpace (l := unread)).length_le
      split
      · exact Nat.zero_le _
      · next current rest hdrop =>
          rw [hdrop, List.length_cons] at hspace
          split
          · exact Nat.zero_le _
          · next token unread' htoken =>
              have hrest := length_scanToken htoken
              have hone : token.pending ≤ 1 := by cases token <;> simp [Token.pending]
              dsimp only
              omega

end Lexer

end MarketFeed
