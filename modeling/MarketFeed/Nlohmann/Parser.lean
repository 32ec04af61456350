import MarketFeed.Library.Utf8
import MarketFeed.Nlohmann.Lexer
import MarketFeed.Utils.Parser

set_option autoImplicit false

/-! # The parser (`class parser` and `class json_sax_dom_parser`, `include/nlohmann/json.hpp`)

`parser` asks the scanner for one token at a time and calls back `json_sax_dom_parser`, which builds
the document. Neither of them recurses: the one keeps a stack of the containers it is in, the other
a stack of those it builds.

The parser is the one `json::parse` makes of a string: without a callback, with exceptions, without
comments and strict about the end. Its assertions are part of the model; `parse` is `none` where one
of them fails. -/

namespace MarketFeed

/-- The string in the token buffer, which holds UTF-8. -/
def ofTokenBuffer (tokenBuffer : Bytes) : String := .ofList (Utf8.decode tokenBuffer)

/-! ## `json_sax_dom_parser` -/

/-- What an entry of `ref_stack` points to. Of an object, `objectElement` is the key of the member
    whose value comes next. -/
inductive Container where
  | array (elems : List Json)
  | object (members : List (String × Json)) (objectElement : Option String)

/-- The document, and the containers under construction, innermost first. A container is put in its
    place here when it is complete. In the source it is there from the start, where nobody looks
    before it is complete. -/
structure DomParser where
  root : Json
  refStack : List Container

namespace DomParser

/-- `*object_element = v`, for the element with the given key. -/
def assign (key : String) (v : Json) : List (String × Json) → List (String × Json)
  | [] => []
  | (k, w) :: rest => if k = key then (k, v) :: rest else (k, w) :: assign key v rest

/-- `handle_value` -/
def handleValue (s : DomParser) (v : Json) : Option DomParser :=
  match s.refStack with
  | [] => some { s with root := v }
  | .array elems :: rest => some { s with refStack := .array (elems ++ [v]) :: rest }
  | .object members (some key) :: rest =>
      some { s with refStack := .object (assign key v members) (some key) :: rest }
  -- `JSON_ASSERT(object_element)`
  | .object _ none :: _ => none

def startObject (s : DomParser) : DomParser :=
  { s with refStack := .object [] none :: s.refStack }

/-- `key`: the member is there from now on, with the value null unless it was there before. -/
def key (s : DomParser) (val : String) : Option DomParser :=
  match s.refStack with
  | .object members _ :: rest =>
      some { s with refStack := .object (Json.emplaceNull val members) (some val) :: rest }
  -- `JSON_ASSERT(ref_stack.back()->is_object())`
  | _ => none

def endObject (s : DomParser) : Option DomParser :=
  match s.refStack with
  | .object members _ :: rest => { s with refStack := rest }.handleValue (.object members)
  | _ => none

def startArray (s : DomParser) : DomParser :=
  { s with refStack := .array [] :: s.refStack }

def endArray (s : DomParser) : Option DomParser :=
  match s.refStack with
  | .array elems :: rest => { s with refStack := rest }.handleValue (.array elems)
  | _ => none

end DomParser

/-! ## `parser` -/

/-- The members of a `parser` and the variables of `sax_parse_internal`. On `states`, innermost
    first, an array is true and an object is false. -/
structure Parser where
  lexer : Lexer
  lastToken : Token
  states : List Bool
  skipToStateEvaluation : Bool
  sax : DomParser

/-- How `sax_parse_internal` ends. -/
inductive SaxResult where
  /-- It returns true; the scanner is where the value ends, and `result` is the value. -/
  | parsed (lexer : Lexer) (result : Json)
  /-- It throws. -/
  | failure (f : ParseFailure)
  /-- An assertion fails. -/
  | assertion

namespace Parser

/-- `get_token` -/
def getToken (strtod : Strtod) (s : Parser) : Parser :=
  { s with lexer := (s.lexer.scan strtod).2, lastToken := (s.lexer.scan strtod).1 }

/-- A key, the colon after it and the token after that: what `sax_parse_internal` does when it
    expects a member, in either of two places. -/
def parseKey (strtod : Strtod) (states : List Bool) (s : Parser) : Iteration Parser SaxResult :=
  match s.lastToken with
  | .valueString tokenBuffer =>
      match s.sax.key (ofTokenBuffer tokenBuffer) with
      | none => .leave .assertion
      | some sax =>
          let s := { s with sax }.getToken strtod
          if s.lastToken = .nameSeparator then .again ({ s with states }.getToken strtod)
          else .leave (.failure .parseError)
  | _ => .leave (.failure .parseError)

/-- The second half of the loop of `sax_parse_internal`, after a value. -/
def evaluateState (strtod : Strtod) (s : Parser) : Iteration Parser SaxResult :=
  match s.states with
  | [] => .leave (.parsed s.lexer s.sax.root)
  | true :: states =>
      let s := s.getToken strtod
      if s.lastToken = .valueSeparator then .again (s.getToken strtod)
      else if s.lastToken = .endArray then
        match s.sax.endArray with
        | none => .leave .assertion
        | some sax => .again { s with sax, states, skipToStateEvaluation := true }
      else .leave (.failure .parseError)
  | false :: states =>
      let s := s.getToken strtod
      if s.lastToken = .valueSeparator then (s.getToken strtod).parseKey strtod s.states
      else if s.lastToken = .endObject then
        match s.sax.endObject with
        | none => .leave .assertion
        | some sax => .again { s with sax, states, skipToStateEvaluation := true }
      else .leave (.failure .parseError)

/-- A value without parts: one of the callbacks `null`, `boolean`, `number_…` and `string`. -/
def handleValue (strtod : Strtod) (s : Parser) (v : Json) : Iteration Parser SaxResult :=
  match s.sax.handleValue v with
  | none => .leave .assertion
  | some sax => { s with sax }.evaluateState strtod

/-- The loop of `sax_parse_internal`. -/
def saxParseBody (strtod : Strtod) (s : Parser) : Iteration Parser SaxResult :=
  if s.skipToStateEvaluation then { s with skipToStateEvaluation := false }.evaluateState strtod
  else
    match s.lastToken with
    | .beginObject =>
        let s := { s with sax := s.sax.startObject }.getToken strtod
        if s.lastToken = .endObject then
          match s.sax.endObject with
          | none => .leave .assertion
          | some sax => { s with sax }.evaluateState strtod
        else s.parseKey strtod (false :: s.states)
    | .beginArray =>
        let s := { s with sax := s.sax.startArray }.getToken strtod
        if s.lastToken = .endArray then
          match s.sax.endArray with
          | none => .leave .assertion
          | some sax => { s with sax }.evaluateState strtod
        else .again { s with states := true :: s.states }
    | .valueFloat none => .leave (.failure .outOfRange)
    | .valueFloat (some x) => s.handleValue strtod (.numberFloat x)
    | .literalFalse => s.handleValue strtod (.boolean false)
    | .literalNull => s.handleValue strtod .null
    | .literalTrue => s.handleValue strtod (.boolean true)
    | .valueInteger n => s.handleValue strtod (.numberInteger n)
    | .valueString tokenBuffer => s.handleValue strtod (.string (ofTokenBuffer tokenBuffer))
    | .valueUnsigned n => s.handleValue strtod (.numberUnsigned n)
    | .parseError | .endOfInput | .endArray | .endObject | .nameSeparator | .valueSeparator =>
        .leave (.failure .parseError)

/-! Every iteration takes a token, unless it is the last. -/

variable {strtod : Strtod} {s t : Parser}

/-- What is left to do: the unread bytes, and the last token unless it has been dealt with. -/
def left (s : Parser) : ℕ :=
  s.lexer.unread.length + if s.skipToStateEvaluation then 1 else s.lastToken.pending

theorem left_getToken (hskip : s.skipToStateEvaluation = false) :
    (s.getToken strtod).left ≤ s.lexer.unread.length := by
  have h := Lexer.length_scan strtod s.lexer
  simpa [left, getToken, hskip] using h

theorem length_getToken (strtod : Strtod) (s : Parser) :
    (s.getToken strtod).lexer.unread.length + (s.getToken strtod).lastToken.pending ≤
      s.lexer.unread.length :=
  Lexer.length_scan strtod s.lexer

theorem left_parseKey {states : List Bool} (hskip : s.skipToStateEvaluation = false)
    (h : s.parseKey strtod states = .again t) : t.left ≤ s.lexer.unread.length := by
  unfold parseKey at h
  split at h
  · split at h
    · exact absurd h (by simp)
    · next sax hsax =>
        have hfirst := length_getToken strtod { s with sax }
        dsimp only at h hfirst
        split_ifs at h
        obtain rfl := Iteration.again.inj h
        refine (left_getToken ?_).trans (Nat.le_trans (Nat.le_add_right _ _) hfirst)
        exact hskip
  · exact absurd h (by simp)

theorem left_evaluateState (hskip : s.skipToStateEvaluation = false)
    (h : s.evaluateState strtod = .again t) : t.left ≤ s.lexer.unread.length := by
  have hfirst := length_getToken strtod s
  unfold evaluateState at h
  split at h
  · exact absurd h (by simp)
  · dsimp only at h
    split_ifs at h with hcomma hend
    · obtain rfl := Iteration.again.inj h
      refine (left_getToken ?_).trans (Nat.le_trans (Nat.le_add_right _ _) hfirst)
      exact hskip
    · split at h
      · exact absurd h (by simp)
      · obtain rfl := Iteration.again.inj h
        rw [hend] at hfirst
        exact hfirst
  · dsimp only at h
    split_ifs at h with hcomma hend
    · have hsecond := length_getToken strtod (s.getToken strtod)
      have hkey := left_parseKey (s := (s.getToken strtod).getToken strtod) hskip h
      omega
    · split at h
      · exact absurd h (by simp)
      · obtain rfl := Iteration.again.inj h
        rw [hend] at hfirst
        exact hfirst

theorem left_handleValue {v : Json} (hskip : s.skipToStateEvaluation = false)
    (h : s.handleValue strtod v = .again t) : t.left ≤ s.lexer.unread.length := by
  unfold handleValue at h
  split at h
  · exact absurd h (by simp)
  · next sax hsax => exact left_evaluateState (s := { s with sax }) hskip h

theorem left_saxParseBody (h : s.saxParseBody strtod = .again t) : t.left < s.left := by
  unfold saxParseBody at h
  split at h
  · next hskip =>
      have hle := left_evaluateState (s := { s with skipToStateEvaluation := false }) rfl h
      simp only [left, hskip, if_true] at hle ⊢
      omega
  · next hskip =>
      rw [Bool.not_eq_true] at hskip
      have hlt (hpending : s.lastToken.pending = 1) (hle : t.left ≤ s.lexer.unread.length) :
          t.left < s.left := by
        simp only [left, hskip, hpending, Bool.false_eq_true, if_false] at hle ⊢
        omega
      split at h
      case h_1 htoken =>
          refine hlt (by rw [htoken]; rfl) ?_
          have hfirst := length_getToken strtod { s with sax := s.sax.startObject }
          dsimp only at h hfirst
          split_ifs at h
          · split at h
            · exact absurd h (by simp)
            · have hle := left_evaluateState (by exact hskip) h
              exact hle.trans (Nat.le_trans (Nat.le_add_right _ _) hfirst)
          · have hle := left_parseKey (by exact hskip) h
            exact hle.trans (Nat.le_trans (Nat.le_add_right _ _) hfirst)
      case h_2 htoken =>
          refine hlt (by rw [htoken]; rfl) ?_
          have hfirst := length_getToken strtod { s with sax := s.sax.startArray }
          dsimp only at h hfirst
          split_ifs at h
          · split at h
            · exact absurd h (by simp)
            · have hle := left_evaluateState (by exact hskip) h
              exact hle.trans (Nat.le_trans (Nat.le_add_right _ _) hfirst)
          · obtain rfl := Iteration.again.inj h
            simpa [left, getToken, hskip] using hfirst
      all_goals first
        | exact absurd h (by simp)
        | next htoken => exact hlt (by rw [htoken]; rfl) (left_handleValue hskip h)

/-- `sax_parse_internal` -/
def saxParseInternal (strtod : Strtod) : Loop Parser SaxResult where
  body := saxParseBody strtod
  variant := left
  decreases _ _ := left_saxParseBody

/-- The parser that has read its first token. -/
def new (strtod : Strtod) (text : Bytes) : Parser :=
  getToken strtod {
    lexer := { fresh := true, unread := text }
    lastToken := .endOfInput
    states := []
    skipToStateEvaluation := false
    sax := { root := .null, refStack := [] } }

/-- `parse`, strict about the end. -/
def parse (strtod : Strtod) (text : Bytes) : Option (Except ParseFailure Json) :=
  match (saxParseInternal strtod).run (new strtod text) with
  | .parsed lexer result =>
      if (lexer.scan strtod).1 = .endOfInput then some (.ok result)
      else some (.error .parseError)
  | .failure f => some (.error f)
  | .assertion => none

end Parser

end MarketFeed
