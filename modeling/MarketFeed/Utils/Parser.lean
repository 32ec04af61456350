import MarketFeed.Basic
import Mathlib.Data.Rat.Defs

set_option autoImplicit false

/-! # JSON values and `parseJsonString` (`include/utils/parser.h`, `nlohmann/json.hpp`)

The part of the JSON library that the program calls. The text parser itself is a parameter
(`JsonLib.parse`), as is the one conversion C++ leaves undefined for some arguments, `double` to
`uint64_t` (`JsonLib.castFloat`). -/

namespace MarketFeed

/-- A parsed JSON document. The members of an object are in key order, as in `std::map`; a `double`
    is its exact value, since parsing never yields an infinity or a NaN. -/
inductive Json where
  | null
  | boolean (b : Bool)
  | numberUnsigned (n : UInt64)
  | numberInteger (n : Int64)
  | numberFloat (x : ℚ)
  | string (s : String)
  | array (elems : List Json)
  | object (members : List (String × Json))

/-- The exceptions of `json::parse`. -/
inductive ParseFailure where
  /-- `parse_error`: the text is not JSON. -/
  | parseError
  /-- `out_of_range`: a number overflows `double`. -/
  | outOfRange
deriving DecidableEq, Repr

/-- What the program relies on the JSON library and the compiler for. -/
structure JsonLib where
  /-- `json::parse` -/
  parse : Bytes → Except ParseFailure Json
  /-- `static_cast<uint64_t>` of a `double`, undefined in C++ outside `[0, 2^64)` -/
  castFloat : ℚ → UInt64

/-- A library to evaluate the model with: on `{}`, `{"U":7}`, `1e999` and texts that are not JSON it
    answers like the real one. -/
def JsonLib.sample : JsonLib where
  parse text :=
    if text = [0x7b, 0x7d] then .ok (.object [])
    else if text = [0x7b, 0x22, 0x55, 0x22, 0x3a, 0x37, 0x7d] then
      .ok (.object [("U", .numberUnsigned 7)])
    else if text = [0x31, 0x65, 0x39, 0x39, 0x39] then .error .outOfRange
    else .error .parseError
  castFloat x := UInt64.ofNat x.floor.toNat

namespace Json

/-- `type_name()` -/
def typeName : Json → String
  | .null => "null"
  | .boolean _ => "boolean"
  | .numberUnsigned _ | .numberInteger _ | .numberFloat _ => "number"
  | .string _ => "string"
  | .array _ => "array"
  | .object _ => "object"

/-- `std::map::emplace(key, nullptr)`: insert in key order unless the key is present. -/
def emplaceNull (key : String) : List (String × Json) → List (String × Json)
  | [] => [(key, .null)]
  | (k, v) :: rest =>
    if key = k then (k, v) :: rest
    else if key < k then (key, .null) :: (k, v) :: rest
    else (k, v) :: emplaceNull key rest

/-- The non-const `operator[](key)`: the document it leaves behind and the element it refers to. A
    null document becomes an object, and a missing key is inserted with the value null. -/
def subscript (j : Json) (key : String) : Except CppException (Json × Json) :=
  match j with
  | .null => .ok (.object [(key, .null)], .null)
  | .object members =>
      .ok (.object (emplaceNull key members), (members.lookup key).getD .null)
  | j =>
      .error (.typeError 305 ("cannot use operator[] with a string argument with " ++ j.typeName))

/-- The implicit conversion to `uint64_t` (`get_arithmetic_value`): any kind of number is cast, and
    a negative integer wraps. -/
def toUInt64 (lib : JsonLib) : Json → Except CppException UInt64
  | .numberUnsigned n => .ok n
  | .numberInteger n => .ok n.toUInt64
  | .numberFloat x => .ok (lib.castFloat x)
  | j => .error (.typeError 302 ("type must be number, but is " ++ j.typeName))

/-- The document is an object. -/
def IsObject : Json → Prop
  | .object _ => True
  | _ => False

/-- The value is a number of some kind. -/
def IsNumber : Json → Prop
  | .numberUnsigned _ | .numberInteger _ | .numberFloat _ => True
  | _ => False

/-- The document is an object with a number under `key`. -/
def HasNumber (key : String) : Json → Prop
  | .object members => ∃ v, members.lookup key = some v ∧ v.IsNumber
  | _ => False

theorem toUInt64_isOk_iff (lib : JsonLib) (j : Json) :
    (∃ n, j.toUInt64 lib = .ok n) ↔ j.IsNumber := by
  cases j <;> simp [toUInt64, IsNumber]

end Json

/-- `parseJsonString`: only `parse_error` is caught; the caught case yields the null value. -/
def parseJsonString (lib : JsonLib) (jsonString : Bytes) : Except CppException Json :=
  match lib.parse jsonString with
  | .ok j => .ok j
  | .error .parseError => .ok .null
  | .error .outOfRange => .error .outOfRange

/-- Whatever the text, only an overflowing number makes `parseJsonString` throw. -/
theorem parseJsonString_isOk_iff (lib : JsonLib) (text : Bytes) :
    (∃ data, parseJsonString lib text = .ok data) ↔ lib.parse text ≠ .error .outOfRange := by
  unfold parseJsonString
  split
  · next data hparse => simp [hparse]
  · next hparse => simp [hparse]
  · next hparse => simp [hparse]

end MarketFeed
