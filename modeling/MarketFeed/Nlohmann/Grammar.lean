import MarketFeed.Library.Utf8
import MarketFeed.Nlohmann.Lexer
import MarketFeed.Utils.Parser

set_option autoImplicit false

/-! # JSON texts

What a text means, said without a parser: the grammar of RFC 8259 over bytes, with the value that
each phrase denotes. It departs from the RFC where `json::parse` does so on purpose: the escape of a
surrogate must be one half of a pair, a byte order mark may come first, and a null byte ends the
text, whatever follows it.

A numeral that is too large for a `double` has no value, so a text that contains one denotes
nothing; `Numeral.value` tells the two apart. -/

namespace MarketFeed

namespace Grammar

/-- `ws` -/
def Space (w : Bytes) : Prop := ∀ b ∈ w, b = 0x20 ∨ b = 0x09 ∨ b = 0x0A ∨ b = 0x0D

/-! ## Numbers -/

/-- `DIGIT` -/
def IsDigit (b : UInt8) : Prop := 0x30 ≤ b ∧ b ≤ 0x39

instance decidableIsDigit (b : UInt8) : Decidable (IsDigit b) :=
  inferInstanceAs (Decidable (0x30 ≤ b ∧ b ≤ 0x39))

/-- `1*DIGIT` -/
def Digits (w : Bytes) : Prop := w ≠ [] ∧ ∀ b ∈ w, IsDigit b

/-- `int = zero / ( digit1-9 *DIGIT )` -/
inductive IntPart : Bytes → Prop
  | zero : IntPart [0x30]
  | digits {b : UInt8} {w : Bytes} (hfirst : IsDigit b) (hzero : b ≠ 0x30)
      (hrest : ∀ c ∈ w, IsDigit c) : IntPart (b :: w)

/-- `[ frac ]`, where `frac = decimal-point 1*DIGIT` -/
inductive FracPart : Bytes → Prop
  | absent : FracPart []
  | frac {w : Bytes} (hdigits : Digits w) : FracPart (0x2E :: w)

/-- `[ exp ]`, where `exp = e [ minus / plus ] 1*DIGIT` -/
inductive ExpPart : Bytes → Prop
  | absent : ExpPart []
  | exp {e : UInt8} {sign w : Bytes} (he : e = 0x65 ∨ e = 0x45)
      (hsign : sign = [] ∨ sign = [0x2B] ∨ sign = [0x2D]) (hdigits : Digits w) :
      ExpPart (e :: (sign ++ w))

/-- `number = [ minus ] int [ frac ] [ exp ]` -/
structure Numeral where
  negative : Bool
  int : Bytes
  frac : Bytes
  exp : Bytes
  int_ok : IntPart int
  frac_ok : FracPart frac
  exp_ok : ExpPart exp

namespace Numeral

/-- `[ minus ]` -/
def sign (n : Numeral) : Bytes := if n.negative then [0x2D] else []

def text (n : Numeral) : Bytes := n.sign ++ (n.int ++ (n.frac ++ n.exp))

/-- Before `rest` the numeral is complete: none that is longer begins with it and goes on like
    `rest`. -/
def Ends (n : Numeral) (rest : Bytes) : Prop :=
  ∀ c ∈ rest.head?, ∀ (n' : Numeral) (tail : Bytes), n'.text ≠ n.text ++ c :: tail

/-- An integer that fits in 64 bits is that integer, unsigned unless it has a sign, and every other
    numeral is a `double`, if there is one of that size. -/
def value (strtod : Strtod) (n : Numeral) : Option Json :=
  if n.frac = [] ∧ n.exp = [] ∧ n.negative = false ∧ Lexer.decimal n.int < 2 ^ 64 then
    some (.numberUnsigned (.ofNat (Lexer.decimal n.int)))
  else if n.frac = [] ∧ n.exp = [] ∧ n.negative = true ∧ Lexer.decimal n.int ≤ 2 ^ 63 then
    some (.numberInteger (.ofInt (-Lexer.decimal n.int)))
  else (strtod n.text).map .numberFloat

end Numeral

/-! ## Strings -/

/-- `HEXDIG`, with its value. -/
def HexDigit (b : UInt8) (d : ℕ) : Prop :=
  d < 16 ∧ (b.toNat = d.digitChar.toNat ∨ b.toNat = d.digitChar.toUpper.toNat)

/-- `4HEXDIG` -/
inductive Hex4 : Bytes → ℕ → Prop
  | mk {b₁ b₂ b₃ b₄ : UInt8} {d₁ d₂ d₃ d₄ : ℕ} (h₁ : HexDigit b₁ d₁) (h₂ : HexDigit b₂ d₂)
      (h₃ : HexDigit b₃ d₃) (h₄ : HexDigit b₄ d₄) :
      Hex4 [b₁, b₂, b₃, b₄] (d₁ * 0x1000 + d₂ * 0x100 + d₃ * 0x10 + d₄)

/-- What may follow a backslash but for `u`, and the code point it stands for. -/
def shortEscapes : List (UInt8 × ℕ) :=
  [(0x22, 0x22), (0x5C, 0x5C), (0x2F, 0x2F), (0x62, 0x08), (0x66, 0x0C), (0x6E, 0x0A), (0x72, 0x0D),
    (0x74, 0x09)]

/-- `char`: the bytes of one character of a string. -/
inductive CharText : Bytes → Char → Prop
  | unescaped {c : Char} (hcontrol : 0x20 ≤ c.toNat) (hquote : c.toNat ≠ 0x22)
      (hbackslash : c.toNat ≠ 0x5C) : CharText (String.utf8EncodeChar c) c
  | escape {b : UInt8} {n : ℕ} (h : (b, n) ∈ shortEscapes) : CharText [0x5C, b] (.ofNat n)
  | codeUnit {w : Bytes} {n : ℕ} (h : Hex4 w n) (hn : n < 0xD800 ∨ 0xDFFF < n) :
      CharText (0x5C :: 0x75 :: w) (.ofNat n)
  | surrogates {w w' : Bytes} {n n' : ℕ} (h : Hex4 w n) (h' : Hex4 w' n')
      (hn : 0xD800 ≤ n ∧ n ≤ 0xDBFF) (hn' : 0xDC00 ≤ n' ∧ n' ≤ 0xDFFF) :
      CharText (0x5C :: 0x75 :: (w ++ 0x5C :: 0x75 :: w'))
        (.ofNat (0x10000 + (n - 0xD800) * 0x400 + (n' - 0xDC00)))

/-- `*char` -/
inductive StringBody : Bytes → List Char → Prop
  | nil : StringBody [] []
  | cons {w ws : Bytes} {c : Char} {cs : List Char} (hchar : CharText w c)
      (hbody : StringBody ws cs) : StringBody (w ++ ws) (c :: cs)

/-- `string = quotation-mark *char quotation-mark` -/
inductive StringText : Bytes → String → Prop
  | mk {w : Bytes} {cs : List Char} (hbody : StringBody w cs) :
      StringText (0x22 :: (w ++ [0x22])) (.ofList cs)

/-! ## Values -/

/-- Insert a member in key order, or replace the one that has its key. -/
def insertMember (key : String) (v : Json) : List (String × Json) → List (String × Json)
  | [] => [(key, v)]
  | (k, w) :: rest =>
    if key = k then (k, v) :: rest
    else if key < k then (key, v) :: (k, w) :: rest
    else (k, w) :: insertMember key v rest

/-- The members of an object, from those in its text: in key order, the last one of each key. -/
def ofMembers (members : List (String × Json)) : List (String × Json) :=
  members.foldl (fun ms m => insertMember m.1 m.2 ms) []

/-- What a phrase of the grammar denotes: a value, the elements of an array or the members of an
    object. -/
inductive Meaning where
  | value (j : Json)
  | elements (elems : List Json)
  | members (members : List (String × Json))

/-- The phrases of the grammar and what they denote. -/
inductive Denotes (strtod : Strtod) : Bytes → Meaning → Prop
  | literalFalse : Denotes strtod [0x66, 0x61, 0x6C, 0x73, 0x65] (.value (.boolean false))
  | literalNull : Denotes strtod [0x6E, 0x75, 0x6C, 0x6C] (.value .null)
  | literalTrue : Denotes strtod [0x74, 0x72, 0x75, 0x65] (.value (.boolean true))
  | number {n : Numeral} {v : Json} (hvalue : n.value strtod = some v) :
      Denotes strtod n.text (.value v)
  | string {w : Bytes} {s : String} (hstring : StringText w s) :
      Denotes strtod w (.value (.string s))
  | emptyArray {s : Bytes} (hs : Space s) :
      Denotes strtod (0x5B :: (s ++ [0x5D])) (.value (.array []))
  | array {w s : Bytes} {elems : List Json} (helements : Denotes strtod w (.elements elems))
      (hs : Space s) : Denotes strtod (0x5B :: (w ++ (s ++ [0x5D]))) (.value (.array elems))
  | emptyObject {s : Bytes} (hs : Space s) :
      Denotes strtod (0x7B :: (s ++ [0x7D])) (.value (.object []))
  | object {w s : Bytes} {members : List (String × Json)}
      (hmembers : Denotes strtod w (.members members)) (hs : Space s) :
      Denotes strtod (0x7B :: (w ++ (s ++ [0x7D]))) (.value (.object (ofMembers members)))
  | element {s w : Bytes} {v : Json} (hs : Space s) (hvalue : Denotes strtod w (.value v)) :
      Denotes strtod (s ++ w) (.elements [v])
  | nextElement {ws s s' w : Bytes} {elems : List Json} {v : Json}
      (helements : Denotes strtod ws (.elements elems)) (hs : Space s) (hs' : Space s')
      (hvalue : Denotes strtod w (.value v)) :
      Denotes strtod (ws ++ (s ++ 0x2C :: (s' ++ w))) (.elements (elems ++ [v]))
  | member {s s' s'' k w : Bytes} {key : String} {v : Json} (hs : Space s) (hkey : StringText k key)
      (hs' : Space s') (hs'' : Space s'') (hvalue : Denotes strtod w (.value v)) :
      Denotes strtod (s ++ (k ++ (s' ++ 0x3A :: (s'' ++ w)))) (.members [(key, v)])
  | nextMember {ws t s s' s'' k w : Bytes} {members : List (String × Json)} {key : String}
      {v : Json}
      (hmembers : Denotes strtod ws (.members members)) (ht : Space t) (hs : Space s)
      (hkey : StringText k key) (hs' : Space s') (hs'' : Space s'')
      (hvalue : Denotes strtod w (.value v)) :
      Denotes strtod (ws ++ (t ++ 0x2C :: (s ++ (k ++ (s' ++ 0x3A :: (s'' ++ w))))))
        (.members (members ++ [(key, v)]))

/-- An optional byte order mark. -/
def Mark (w : Bytes) : Prop := w = [] ∨ w = [0xEF, 0xBB, 0xBF]

/-- What comes after the value: space, and then nothing or a null byte. -/
def Trail (w : Bytes) : Prop := ∃ s, Space s ∧ (w = s ∨ ∃ rest, w = s ++ 0x00 :: rest)

/-- A text and the document it denotes. -/
def TextOf (strtod : Strtod) (text : Bytes) (j : Json) : Prop :=
  ∃ mark s w trail, Mark mark ∧ Space s ∧ Denotes strtod w (.value j) ∧ Trail trail ∧
    text = mark ++ (s ++ (w ++ trail))

end Grammar

end MarketFeed
