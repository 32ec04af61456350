import MarketFeed.Nlohmann.Places

set_option autoImplicit false

/-! # What is parsed denotes a document

The loop of `sax_parse_internal` keeps an invariant: what has been read leads to a place where a
value is expected, or to the end of one, and the stacks of the parser are the containers that are
open there. From it comes all that `parse` may come to: a document that the text denotes, an
exception, and for an `out_of_range` a numeral without a value at a place where a value is expected.
No assertion of the parser fails. -/

namespace MarketFeed

open Grammar Lexer

variable {strtod : Strtod} {text unread rest w s : Bytes} {token : Token} {v : Bytes} {j : Json}

/-! ## Tokens -/

/-- A token that is no number is taken with its lexeme. -/
theorem scan_lexeme_sound (hscan : scan strtod (begun unread) = (token, begun rest))
    (herror : token ≠ .parseError) (hend : token ≠ .endOfInput)
    (hunsigned : ∀ k, token ≠ .valueUnsigned k) (hinteger : ∀ k, token ≠ .valueInteger k)
    (hfloat : ∀ x, token ≠ .valueFloat x) :
    ∃ s w, Space s ∧ Lexeme w token ∧ unread = s ++ (w ++ rest) := by
  rcases scan_sound hscan herror with ⟨htoken, -⟩ | ⟨s, w, hs, hw, hunread⟩
  · exact absurd htoken hend
  · rcases hw.lexeme_or_null hunsigned hinteger hfloat with hlexeme | ⟨-, htoken⟩
    · exact ⟨s, w, hs, hlexeme, hunread⟩
    · exact absurd htoken hend

/-- Which token it is may be enough to know its lexeme. -/
theorem scan_structural_sound {b : UInt8} (hscan : scan strtod (begun unread) = (token, begun rest))
    (hb : structural b = some token) : ∃ s, Space s ∧ unread = s ++ b :: rest := by
  have hlexeme : ∀ w, Lexeme w token → w = [b] := by
    intro w hw
    unfold structural at hb
    split_ifs at hb with h₁ h₂ h₃ h₄ h₅ h₆ <;> obtain rfl := Option.some.inj hb <;> cases hw <;>
      simp only [*]
  unfold structural at hb
  obtain ⟨s, w, hs, hw, hunread⟩ : ∃ s w, Space s ∧ Lexeme w token ∧ unread = s ++ (w ++ rest) := by
    refine scan_lexeme_sound hscan ?_ ?_ ?_ ?_ ?_ <;>
      (split_ifs at hb <;> obtain rfl := Option.some.inj hb <;> simp)
  exact ⟨s, hs, by rw [hunread, hlexeme w hw]; rfl⟩

/-! ## The loop -/

/-- A value is expected where a numeral stands that has no value. -/
def Overflows (strtod : Strtod) (w : Bytes) : Prop :=
  ∃ (w' : Bytes) (stack : List Container) (s : Bytes) (n : Numeral) (rest : Bytes),
    Awaits strtod w' stack ∧ Space s ∧ n.value strtod = none ∧ n.Ends rest ∧
      w = w' ++ (s ++ (n.text ++ rest))

namespace Parser

/-- The invariant of the loop, over a text without a byte order mark. -/
inductive Inv (strtod : Strtod) (text : Bytes) : Parser → Prop
  | reading {w unread : Bytes} {stack : List Container} (h : Awaits strtod w stack)
      (htext : text = w ++ unread) :
      Inv strtod text (reading strtod unread (stack.map Container.isArray)
        { root := .null, refStack := stack })
  | evaluating {w unread : Bytes} {sax : DomParser} {token : Token} (h : Follows strtod w sax)
      (htext : text = w ++ unread) :
      Inv strtod text {
        lexer := begun unread
        lastToken := token
        states := sax.states
        skipToStateEvaluation := true
        sax }

/-- What the loop may come to. -/
def Post (strtod : Strtod) (text : Bytes) : SaxResult → Prop
  | .parsed lexer result => ∃ w unread, lexer = begun unread ∧ text = w ++ unread ∧
      Follows strtod w { root := result, refStack := [] }
  | .failure .parseError => True
  | .failure .outOfRange => Overflows strtod text
  | .assertion => False

variable {stack : List Container} {root : Json} {states states' : List Bool} {sax : DomParser}

/-- A key and a colon, where they are as good as a place where a value is expected. -/
theorem parseKey_satisfies (strtod : Strtod) (states' : List Bool)
    {members : List (String × Json)} {o : Option String}
    (hstates : states = (Container.object members o :: stack).map Container.isArray)
    (hplace : ∀ {s k s' rest : Bytes} {key : String}, Space s → StringText k key → Space s' →
      unread = s ++ (k ++ (s' ++ 0x3A :: rest)) → ∃ w, text = w ++ rest ∧
        Awaits strtod w (.object (Json.emplaceNull key members) (some key) :: stack)) :
    ((reading strtod unread states'
      { root := .null, refStack := .object members o :: stack }).parseKey strtod states).Satisfies
        (Inv strtod text) (Post strtod text) := by
  obtain ⟨token, rest, hscan⟩ := exists_scan strtod (begun unread)
  rw [reading_eq hscan]
  cases token
  case valueString tokenBuffer =>
    obtain ⟨s, w, hs, hw, rfl⟩ := scan_lexeme_sound hscan (by simp) (by simp) (by simp) (by simp)
      (by simp)
    obtain ⟨token', rest', hscan'⟩ := exists_scan strtod (begun rest)
    simp only [parseKey, DomParser.key, getToken, hscan']
    split_ifs with hcolon
    · obtain rfl := hcolon
      obtain ⟨s', hs', rfl⟩ := scan_structural_sound (b := 0x3A) hscan' rfl
      cases hw with
      | string hbody =>
          obtain ⟨w', rfl, hw'⟩ := hplace hs (.mk hbody) hs' rfl
          rw [ofTokenBuffer_encode, hstates]
          exact .reading hw' rfl
    · trivial
  all_goals trivial

theorem evaluateState_satisfies (h : Follows strtod w sax) (htext : text = w ++ unread) :
    (evaluateState strtod {
      lexer := begun unread
      lastToken := token
      states := sax.states
      skipToStateEvaluation := false
      sax }).Satisfies (Inv strtod text) (Post strtod text) := by
  subst htext
  obtain ⟨token', rest, hscan⟩ := exists_scan strtod (begun unread)
  obtain ⟨root, stack⟩ := sax
  rcases stack with _ | ⟨⟨elems⟩ | ⟨members, o⟩, stack⟩
  · exact ⟨w, unread, rfl, rfl, h⟩
  · simp only [evaluateState, DomParser.states, List.map_cons, Container.isArray, getToken, hscan]
    split_ifs with hcomma hend
    · obtain rfl := hcomma
      obtain ⟨s, hs, rfl⟩ := scan_structural_sound (b := 0x2C) hscan rfl
      obtain rfl := h.root_eq
      exact .reading (h.comma hs) (by simp)
    · obtain rfl := hend
      obtain ⟨s, hs, rfl⟩ := scan_structural_sound (b := 0x5D) hscan rfl
      obtain ⟨sax, hsax, hstates, hplace⟩ := h.endArray hs
      rw [hsax, ← hstates]
      exact .evaluating hplace (by simp)
    · trivial
  · simp only [evaluateState, DomParser.states, List.map_cons, Container.isArray, getToken, hscan]
    split_ifs with hcomma hend
    · obtain rfl := hcomma
      obtain ⟨t, ht, rfl⟩ := scan_structural_sound (b := 0x2C) hscan rfl
      obtain rfl := h.root_eq
      refine parseKey_satisfies strtod _ rfl ?_
      rintro s k s' rest key hs hkey hs' rfl
      exact ⟨_, by simp, h.key ht hs hkey hs'⟩
    · obtain rfl := hend
      obtain ⟨s, hs, rfl⟩ := scan_structural_sound (b := 0x7D) hscan rfl
      obtain ⟨sax, hsax, hstates, hplace⟩ := h.endObject hs
      rw [hsax, ← hstates]
      exact .evaluating hplace (by simp)
    · trivial

theorem handleValue_satisfies (h : Awaits strtod w stack) (hs : Space s)
    (hvalue : Denotes strtod v (.value j)) (htext : text = w ++ (s ++ (v ++ unread))) :
    (handleValue strtod {
      lexer := begun unread
      lastToken := token
      states := stack.map Container.isArray
      skipToStateEvaluation := false
      sax := { root := .null, refStack := stack } } j).Satisfies (Inv strtod text)
        (Post strtod text) := by
  obtain ⟨sax, hsax, hstates, hplace⟩ := h.handleValue hs hvalue
  simp only [Parser.handleValue, hsax, ← hstates]
  exact evaluateState_satisfies hplace (by simp [htext])

theorem saxParseBody_satisfies_scalar (h : Awaits strtod w stack) (hs : Space s)
    (hscan : scan strtod (begun unread) = (token, begun rest)) (hscalar : token.scalar = some j)
    (hvalue : Denotes strtod v (.value j)) (hunread : unread = s ++ (v ++ rest)) :
    (saxParseBody strtod (reading strtod unread (stack.map Container.isArray)
      { root := .null, refStack := stack })).Satisfies (Inv strtod (w ++ unread))
        (Post strtod (w ++ unread)) := by
  rw [reading_eq hscan, saxParseBody_scalar _ _ _ _ hscalar]
  exact handleValue_satisfies h hs hvalue (by rw [hunread])

theorem saxParseBody_satisfies_beginArray (h : Awaits strtod w stack) (hs : Space s)
    (hscan : scan strtod (begun unread) = (.beginArray, begun rest))
    (hunread : unread = s ++ ([0x5B] ++ rest)) :
    (saxParseBody strtod (reading strtod unread (stack.map Container.isArray)
      { root := .null, refStack := stack })).Satisfies (Inv strtod (w ++ unread))
        (Post strtod (w ++ unread)) := by
  obtain ⟨token, rest', hscan'⟩ := exists_scan strtod (begun rest)
  rw [reading_eq hscan]
  simp only [saxParseBody, getToken, hscan', Bool.false_eq_true, if_false]
  split_ifs with hend
  · obtain rfl := hend
    obtain ⟨s', hs', rfl⟩ := scan_structural_sound (b := 0x5D) hscan' rfl
    obtain ⟨sax, hsax, hstates, hplace⟩ := h.handleValue hs (.emptyArray hs')
    have hend : (DomParser.startArray { root := .null, refStack := stack }).endArray = some sax :=
      hsax
    rw [hend, ← hstates]
    exact evaluateState_satisfies hplace (by simp [hunread])
  · have hplace : Inv strtod (w ++ unread) (reading strtod rest _ _) :=
      .reading (h.container hs .array) (by simp [hunread])
    rw [reading_eq hscan'] at hplace
    exact hplace

theorem saxParseBody_satisfies_beginObject (h : Awaits strtod w stack) (hs : Space s)
    (hscan : scan strtod (begun unread) = (.beginObject, begun rest))
    (hunread : unread = s ++ ([0x7B] ++ rest)) :
    (saxParseBody strtod (reading strtod unread (stack.map Container.isArray)
      { root := .null, refStack := stack })).Satisfies (Inv strtod (w ++ unread))
        (Post strtod (w ++ unread)) := by
  obtain ⟨token, rest', hscan'⟩ := exists_scan strtod (begun rest)
  rw [reading_eq hscan]
  simp only [saxParseBody, getToken, hscan', Bool.false_eq_true, if_false]
  split_ifs with hend
  · obtain rfl := hend
    obtain ⟨s', hs', rfl⟩ := scan_structural_sound (b := 0x7D) hscan' rfl
    obtain ⟨sax, hsax, hstates, hplace⟩ := h.handleValue hs (.emptyObject hs')
    have hend : (DomParser.startObject { root := .null, refStack := stack }).endObject = some sax :=
      hsax
    rw [hend, ← hstates]
    exact evaluateState_satisfies hplace (by simp [hunread])
  · have hplace : ∀ {s' k s'' rest' : Bytes} {key : String}, Space s' → StringText k key →
        Space s'' → rest = s' ++ (k ++ (s'' ++ 0x3A :: rest')) → ∃ w', w ++ unread = w' ++ rest' ∧
          Awaits strtod w' (.object (Json.emplaceNull key []) (some key) :: stack) := by
      rintro s' k s'' rest' key hs' hkey hs'' rfl
      exact ⟨_, by simp [hunread], h.container hs (.object hs' hkey hs'')⟩
    have hkey := parseKey_satisfies strtod (stack.map Container.isArray) (o := none) rfl hplace
    rw [reading_eq hscan'] at hkey
    exact hkey

theorem saxParseBody_satisfies_reading (h : Awaits strtod w stack) :
    (saxParseBody strtod (reading strtod unread (stack.map Container.isArray)
      { root := .null, refStack := stack })).Satisfies (Inv strtod (w ++ unread))
        (Post strtod (w ++ unread)) := by
  obtain ⟨token, rest, hscan⟩ := exists_scan strtod (begun unread)
  by_cases herror : token = .parseError
  · rw [reading_eq hscan, herror]
    trivial
  rcases scan_sound hscan herror with ⟨rfl, -⟩ | ⟨s, v, hs, hv, hunread⟩
  · rw [reading_eq hscan]
    trivial
  cases hv with
  | null =>
      rw [reading_eq hscan]
      trivial
  | number n hends =>
      cases hvalue : n.value strtod with
      | some j =>
          have hscalar := (scalar_token strtod n).trans hvalue
          exact saxParseBody_satisfies_scalar h hs hscan hscalar (.number hvalue) hunread
      | none =>
          have hoverflows : Overflows strtod (w ++ unread) :=
            ⟨w, stack, s, n, rest, h, hs, hvalue, hends, by rw [hunread]; rfl⟩
          rw [reading_eq hscan, token_of_value_eq_none hvalue]
          exact hoverflows
  | lexeme hlexeme =>
      cases hlexeme with
      | literalTrue => exact saxParseBody_satisfies_scalar h hs hscan rfl .literalTrue hunread
      | literalFalse => exact saxParseBody_satisfies_scalar h hs hscan rfl .literalFalse hunread
      | literalNull => exact saxParseBody_satisfies_scalar h hs hscan rfl .literalNull hunread
      | string hbody =>
          refine saxParseBody_satisfies_scalar h hs hscan ?_ (.string (.mk hbody)) hunread
          rw [Token.scalar, ofTokenBuffer_encode]
      | beginArray => exact saxParseBody_satisfies_beginArray h hs hscan hunread
      | beginObject => exact saxParseBody_satisfies_beginObject h hs hscan hunread
      | _ =>
          rw [reading_eq hscan]
          trivial

/-- **Step lemma.** Every iteration keeps the invariant, or ends as it may. -/
theorem saxParseBody_satisfies {p : Parser} (h : Inv strtod text p) :
    (saxParseBody strtod p).Satisfies (Inv strtod text) (Post strtod text) := by
  cases h with
  | reading h htext =>
      rw [htext]
      exact saxParseBody_satisfies_reading h
  | evaluating h htext => exact evaluateState_satisfies h htext

/-- What the loop comes to, over a text without a byte order mark. -/
theorem run_reading (strtod : Strtod) (text : Bytes) :
    Post strtod text ((saxParseInternal strtod).run (reading strtod text [] noDocument)) :=
  (saxParseInternal strtod).run_satisfies (Inv strtod text) (Post strtod text)
    (fun _ => saxParseBody_satisfies) (.reading .document rfl)

end Parser

end MarketFeed
