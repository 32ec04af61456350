import MarketFeed.Nlohmann.Parser
import MarketFeed.Nlohmann.Tokens

set_option autoImplicit false

/-! # Whatever denotes a document is parsed

The parser meets the phrases of the grammar one after another. `reading` is the parser that has just
taken the first token of a value, `evaluating` the one that has the value behind it, and
`reads_of_denotes` is the induction on the phrase: from the one the loop comes to what it comes to
from the other, whatever is on the stacks. -/

namespace MarketFeed

open Grammar Lexer

variable {strtod : Strtod} {unread s w rest : Bytes} {token : Token} {v : Json}

/-! ## Scalars -/

/-- The value of a token that is a value without parts. -/
def Token.scalar : Token → Option Json
  | .literalTrue => some (.boolean true)
  | .literalFalse => some (.boolean false)
  | .literalNull => some .null
  | .valueString tokenBuffer => some (.string (ofTokenBuffer tokenBuffer))
  | .valueUnsigned n => some (.numberUnsigned n)
  | .valueInteger n => some (.numberInteger n)
  | .valueFloat x => x.map .numberFloat
  | _ => none

theorem ofTokenBuffer_encode (cs : List Char) : ofTokenBuffer (Utf8.encode cs) = .ofList cs := by
  rw [ofTokenBuffer, Utf8.decode_encode]

/-- The token of a numeral has its value. -/
theorem scalar_token (strtod : Strtod) (n : Numeral) :
    (n.token strtod).scalar = n.value strtod := by
  unfold Numeral.token Numeral.value
  split_ifs <;> rfl

/-- A numeral without a value is a number that is too large. -/
theorem token_of_value_eq_none {n : Numeral} (h : n.value strtod = none) :
    n.token strtod = .valueFloat none := by
  have hscalar := (scalar_token strtod n).trans h
  rcases token_cases strtod n with ⟨k, hk⟩ | ⟨k, hk⟩ | ⟨x, hx⟩
  · exact absurd hscalar (by simp [hk, Token.scalar])
  · exact absurd hscalar (by simp [hk, Token.scalar])
  · rw [hx] at hscalar ⊢
    exact congrArg _ (Option.map_eq_none_iff.1 hscalar)

/-! ## Members -/

/-- A member is inserted with the value null, and then its value is assigned. -/
theorem assign_emplaceNull (key : String) (v : Json) (members : List (String × Json)) :
    DomParser.assign key v (Json.emplaceNull key members) = insertMember key v members := by
  induction members with
  | nil => simp [Json.emplaceNull, DomParser.assign, insertMember]
  | cons member members ih =>
      obtain ⟨k, u⟩ := member
      unfold Json.emplaceNull insertMember
      split_ifs with heq hlt
      · simp [DomParser.assign, heq]
      · simp [DomParser.assign]
      · simp [DomParser.assign, Ne.symm heq, ih]

theorem ofMembers_concat (members : List (String × Json)) (key : String) (v : Json) :
    ofMembers (members ++ [(key, v)]) = insertMember key v (ofMembers members) :=
  List.foldl_append

/-! ## How phrases begin and end -/

/-- A number that comes before space and a character like a bracket cannot go on. -/
theorem stops_of_space {b : UInt8} (hs : Space s)
    (hb : ¬ IsDigit b ∧ b ≠ 0x2E ∧ b ≠ 0x65 ∧ b ≠ 0x45) : NumberState.Stops (s ++ b :: rest) := by
  intro c hc
  cases s with
  | nil => exact Option.some.inj hc ▸ hb
  | cons d s =>
      obtain rfl : d = c := Option.some.inj hc
      rcases hs d List.mem_cons_self with rfl | rfl | rfl | rfl <;> decide

/-- Space and a character that is neither space nor a closing bracket, nor the first of a byte order
    mark. -/
def Begins (w : Bytes) : Prop :=
  ∃ s b tail, Space s ∧ w = s ++ b :: tail ∧ Lexer.isSpace b = false ∧ b ≠ 0xEF ∧ b ≠ 0x5D ∧
    b ≠ 0x7D

theorem Begins.append (h : Begins w) (rest : Bytes) : Begins (w ++ rest) := by
  obtain ⟨s, b, tail, hs, rfl, hb⟩ := h
  exact ⟨s, b, tail ++ rest, hs, by simp, hb⟩

theorem Begins.of_space (h : Begins w) (hs : Space s) : Begins (s ++ w) := by
  obtain ⟨s', b, tail, hs', rfl, hb⟩ := h
  exact ⟨s ++ s', b, tail, List.forall_mem_append.2 ⟨hs, hs'⟩, by simp, hb⟩

theorem Grammar.Numeral.begins (n : Numeral) : Begins n.text := by
  obtain ⟨b, tail, htext, hb⟩ := exists_head n
  obtain ⟨hstructural, -, -, hbom, hspace⟩ := number_head hb
  refine ⟨[], b, tail, by simp [Space], htext, hspace, hbom, ?_, ?_⟩ <;> rintro rfl <;>
    exact absurd hstructural (by decide)

theorem Grammar.StringText.begins {key : String} (h : StringText w key) : Begins w := by
  obtain ⟨hbody⟩ := h
  exact ⟨[], 0x22, _, by simp [Space], rfl, by decide⟩

/-- Every phrase begins like that. -/
theorem Grammar.Denotes.begins {m : Meaning} (h : Denotes strtod w m) : Begins w := by
  have hspace : Space [] := by simp [Space]
  induction h with
  | @number n v hvalue => exact n.begins
  | string hstring => exact hstring.begins
  | element hs _ ih => exact ih.of_space hs
  | nextElement _ _ _ _ ih _ => exact ih.append _
  | member hs hkey _ _ _ ih => exact (hkey.begins.append _).of_space hs
  | nextMember _ _ _ _ _ _ _ ih _ => exact ih.append _
  | _ => exact ⟨[], _, _, hspace, rfl, by decide⟩

theorem scan_ne_of_begins (strtod : Strtod) (h : Begins unread) :
    (scan strtod (begun unread)).1 ≠ .endArray ∧ (scan strtod (begun unread)).1 ≠ .endObject := by
  obtain ⟨s, b, tail, hs, rfl, hspace, -, harray, hobject⟩ := h
  cases hscan : scanToken strtod b tail with
  | none =>
      unfold scan begun
      simp [dropWhile_space hs, hspace, hscan]
  | some taken =>
      obtain ⟨token, rest⟩ := taken
      rw [scan_of_scanToken hs hspace hscan]
      obtain ⟨w, hw, hsplit⟩ := scanToken_sound hscan
      constructor <;> rintro rfl <;>
        rcases hw.lexeme_or_null (by simp) (by simp) (by simp) with hlexeme | ⟨-, hend⟩
      · cases hlexeme
        exact harray (List.cons.inj hsplit).1
      · exact absurd hend (by simp)
      · cases hlexeme
        exact hobject (List.cons.inj hsplit).1
      · exact absurd hend (by simp)

/-! ## What the parser does with one token -/

/-- The document parser before anything is parsed. -/
def noDocument : DomParser where
  root := .null
  refStack := []

/-- One more container under construction. -/
def DomParser.push (container : Container) (sax : DomParser) : DomParser :=
  { sax with refStack := container :: sax.refStack }

namespace Parser

variable {states : List Bool} {sax sax' : DomParser}

/-- The parser that takes its next token off `unread`. -/
def reading (strtod : Strtod) (unread : Bytes) (states : List Bool) (sax : DomParser) : Parser :=
  getToken strtod {
    lexer := begun unread
    lastToken := .endOfInput
    states
    skipToStateEvaluation := false
    sax }

/-- The parser that has dealt with a value and has `unread` before it. -/
def evaluating (unread : Bytes) (states : List Bool) (sax : DomParser) : Parser where
  lexer := begun unread
  lastToken := .endOfInput
  states
  skipToStateEvaluation := true
  sax

theorem reading_eq (h : scan strtod (begun unread) = (token, begun rest)) :
    reading strtod unread states sax =
      { lexer := begun rest, lastToken := token, states, skipToStateEvaluation := false, sax } := by
  simp [reading, getToken, h]

/-- What comes after a value does not depend on the value's last token. -/
theorem finish_evaluateState (strtod : Strtod) (token : Token) :
    (saxParseInternal strtod).finish (evaluateState strtod
      { lexer := begun rest, lastToken := token, states, skipToStateEvaluation := false, sax }) =
      (saxParseInternal strtod).run (evaluating rest states sax) := by
  rw [Loop.run_eq]
  rcases states with _ | ⟨_ | _, states⟩ <;> rfl

theorem run_skip (strtod : Strtod) (token : Token) :
    (saxParseInternal strtod).run
      { lexer := begun rest, lastToken := token, states, skipToStateEvaluation := true, sax } =
      (saxParseInternal strtod).run (evaluating rest states sax) := by
  rw [Loop.run_eq]
  exact finish_evaluateState strtod token

theorem saxParseBody_scalar (strtod : Strtod) (lexer : Lexer) (states : List Bool)
    (sax : DomParser) (hscalar : token.scalar = some v) :
    saxParseBody strtod
      { lexer, lastToken := token, states, skipToStateEvaluation := false, sax } =
      handleValue strtod
        { lexer, lastToken := token, states, skipToStateEvaluation := false, sax } v := by
  cases token <;> simp only [Token.scalar, Option.some.injEq, reduceCtorEq] at hscalar
  case valueFloat x =>
    obtain ⟨y, rfl, rfl⟩ := Option.map_eq_some_iff.1 hscalar
    rfl
  all_goals
    subst hscalar
    rfl

theorem run_scalar (hscan : scan strtod (begun unread) = (token, begun rest))
    (hscalar : token.scalar = some v) (hsax : sax.handleValue v = some sax') :
    (saxParseInternal strtod).run (reading strtod unread states sax) =
      (saxParseInternal strtod).run (evaluating rest states sax') := by
  rw [reading_eq hscan, Loop.run_eq, ← finish_evaluateState strtod token]
  have hbody := saxParseBody_scalar strtod (begun rest) states sax hscalar
  rw [handleValue] at hbody
  simp only [hsax] at hbody
  exact congrArg _ hbody

theorem run_comma_array (hscan : scan strtod (begun unread) = (.valueSeparator, begun rest)) :
    (saxParseInternal strtod).run (evaluating unread (true :: states) sax) =
      (saxParseInternal strtod).run (reading strtod rest (true :: states) sax) := by
  refine Loop.run_of_again ?_
  simp [saxParseInternal, saxParseBody, evaluating, evaluateState, getToken, hscan, reading]

theorem run_endArray (hscan : scan strtod (begun unread) = (.endArray, begun rest))
    (hend : sax.endArray = some sax') :
    (saxParseInternal strtod).run (evaluating unread (true :: states) sax) =
      (saxParseInternal strtod).run (evaluating rest states sax') := by
  refine (Loop.run_of_again ?_).trans (run_skip strtod .endArray)
  simp [saxParseInternal, saxParseBody, evaluating, evaluateState, getToken, hscan, hend]

theorem run_comma_object (hscan : scan strtod (begun unread) = (.valueSeparator, begun rest)) :
    (saxParseInternal strtod).run (evaluating unread (false :: states) sax) =
      (saxParseInternal strtod).finish ((reading strtod rest (false :: states) sax).parseKey strtod
        (false :: states)) := by
  rw [Loop.run_eq]
  simp [saxParseInternal, saxParseBody, evaluating, evaluateState, getToken, hscan, reading]

theorem run_endObject (hscan : scan strtod (begun unread) = (.endObject, begun rest))
    (hend : sax.endObject = some sax') :
    (saxParseInternal strtod).run (evaluating unread (false :: states) sax) =
      (saxParseInternal strtod).run (evaluating rest states sax') := by
  refine (Loop.run_of_again ?_).trans (run_skip strtod .endObject)
  simp [saxParseInternal, saxParseBody, evaluating, evaluateState, getToken, hscan, hend]

theorem run_emptyArray (hopen : scan strtod (begun unread) = (.beginArray, begun w))
    (hclose : scan strtod (begun w) = (.endArray, begun rest))
    (hsax : sax.handleValue (.array []) = some sax') :
    (saxParseInternal strtod).run (reading strtod unread states sax) =
      (saxParseInternal strtod).run (evaluating rest states sax') := by
  rw [reading_eq hopen, Loop.run_eq, ← finish_evaluateState strtod .endArray]
  have hend : sax.startArray.endArray = some sax' := hsax
  simp [saxParseInternal, saxParseBody, getToken, hclose, hend]

theorem run_beginArray (hopen : scan strtod (begun unread) = (.beginArray, begun w))
    (hbegins : Begins w) :
    (saxParseInternal strtod).run (reading strtod unread states sax) =
      (saxParseInternal strtod).run (reading strtod w (true :: states) sax.startArray) := by
  rw [reading_eq hopen]
  refine Loop.run_of_again ?_
  simp [saxParseInternal, saxParseBody, getToken, reading, (scan_ne_of_begins strtod hbegins).1]

theorem run_emptyObject (hopen : scan strtod (begun unread) = (.beginObject, begun w))
    (hclose : scan strtod (begun w) = (.endObject, begun rest))
    (hsax : sax.handleValue (.object []) = some sax') :
    (saxParseInternal strtod).run (reading strtod unread states sax) =
      (saxParseInternal strtod).run (evaluating rest states sax') := by
  rw [reading_eq hopen, Loop.run_eq, ← finish_evaluateState strtod .endObject]
  have hend : sax.startObject.endObject = some sax' := hsax
  simp [saxParseInternal, saxParseBody, getToken, hclose, hend]

theorem run_beginObject (hopen : scan strtod (begun unread) = (.beginObject, begun w))
    (hbegins : Begins w) :
    (saxParseInternal strtod).run (reading strtod unread states sax) =
      (saxParseInternal strtod).finish ((reading strtod w states sax.startObject).parseKey strtod
        (false :: states)) := by
  rw [reading_eq hopen, Loop.run_eq]
  simp [saxParseInternal, saxParseBody, getToken, reading, (scan_ne_of_begins strtod hbegins).2]

theorem finish_parseKey {s s' k : Bytes} {key : String} {states' : List Bool} (hs : Space s)
    (hkey : StringText k key) (hs' : Space s') (hsax : sax.key key = some sax') :
    (saxParseInternal strtod).finish
        ((reading strtod (s ++ (k ++ (s' ++ 0x3A :: rest))) states' sax).parseKey strtod states) =
      (saxParseInternal strtod).run (reading strtod rest states sax') := by
  obtain ⟨hbody⟩ := hkey
  have hstring := scan_lexeme strtod (s' ++ 0x3A :: rest) hs (.string hbody)
  have hcolon : scan strtod (begun (s' ++ 0x3A :: rest)) = (.nameSeparator, begun rest) :=
    scan_structural strtod _ hs' .nameSeparator
  rw [reading_eq hstring]
  simp [parseKey, ofTokenBuffer_encode, hsax, getToken, hcolon, reading, Loop.finish]

/-! ## Phrases -/

/-- What the parser makes of a phrase, whatever is before and after it: a value comes to where
    `handleValue` puts it, and the elements of an array and the members of an object to the
    container under construction. -/
def Reads (strtod : Strtod) (w : Bytes) : Meaning → Prop
  | .value v => ∀ (s rest : Bytes) (states : List Bool) (sax sax' : DomParser), Space s →
      NumberState.Stops rest → sax.handleValue v = some sax' →
      (saxParseInternal strtod).run (reading strtod (s ++ (w ++ rest)) states sax) =
        (saxParseInternal strtod).run (evaluating rest states sax')
  | .elements elems => ∀ (rest : Bytes) (states : List Bool) (sax : DomParser),
      NumberState.Stops rest →
      (saxParseInternal strtod).run (reading strtod (w ++ rest) (true :: states) sax.startArray) =
        (saxParseInternal strtod).run (evaluating rest (true :: states) (sax.push (.array elems)))
  | .members members => ∀ (rest : Bytes) (states states' : List Bool) (sax : DomParser),
      NumberState.Stops rest → ∃ key,
      (saxParseInternal strtod).finish
          ((reading strtod (w ++ rest) states' sax.startObject).parseKey strtod (false :: states)) =
        (saxParseInternal strtod).run (evaluating rest (false :: states)
          (sax.push (.object (ofMembers members) (some key))))

/-- A member: its key is inserted, and its value goes there. -/
theorem Reads.member {s s' s'' k : Bytes} {key : String} {members : List (String × Json)}
    {objectElement : Option String} {states' : List Bool} (hvalue : Reads strtod w (.value v))
    (hs : Space s) (hkey : StringText k key) (hs' : Space s') (hs'' : Space s'')
    (hstops : NumberState.Stops rest) :
    (saxParseInternal strtod).finish ((reading strtod
        (s ++ (k ++ (s' ++ 0x3A :: (s'' ++ (w ++ rest))))) states'
        (sax.push (.object members objectElement))).parseKey strtod states) =
      (saxParseInternal strtod).run (evaluating rest states
        (sax.push (.object (insertMember key v members) (some key)))) := by
  rw [finish_parseKey hs hkey hs' rfl]
  refine hvalue s'' rest states _ _ hs'' hstops ?_
  simp [DomParser.handleValue, DomParser.push, assign_emplaceNull]

/-- **What the parser makes of a phrase**, by induction on the phrase. -/
theorem reads_of_denotes {m : Meaning} (h : Denotes strtod w m) : Reads strtod w m := by
  have hcomma : ¬ IsDigit 0x2C ∧ (0x2C : UInt8) ≠ 0x2E ∧ (0x2C : UInt8) ≠ 0x65 ∧
      (0x2C : UInt8) ≠ 0x45 := by decide
  have hbracket : ¬ IsDigit 0x5D ∧ (0x5D : UInt8) ≠ 0x2E ∧ (0x5D : UInt8) ≠ 0x65 ∧
      (0x5D : UInt8) ≠ 0x45 := by decide
  have hbrace : ¬ IsDigit 0x7D ∧ (0x7D : UInt8) ≠ 0x2E ∧ (0x7D : UInt8) ≠ 0x65 ∧
      (0x7D : UInt8) ≠ 0x45 := by decide
  induction h with
  | literalFalse =>
      intro s rest states sax sax' hs _ hsax
      exact run_scalar (scan_lexeme strtod _ hs .literalFalse) rfl hsax
  | literalNull =>
      intro s rest states sax sax' hs _ hsax
      exact run_scalar (scan_lexeme strtod _ hs .literalNull) rfl hsax
  | literalTrue =>
      intro s rest states sax sax' hs _ hsax
      exact run_scalar (scan_lexeme strtod _ hs .literalTrue) rfl hsax
  | @number n v hvalue =>
      intro s rest states sax sax' hs hstops hsax
      have hscalar := (scalar_token strtod n).trans hvalue
      exact run_scalar (scan_number hs n (n.ends_of_stops hstops)) hscalar hsax
  | string hstring =>
      intro s rest states sax sax' hs _ hsax
      obtain ⟨hbody⟩ := hstring
      refine run_scalar (scan_lexeme strtod _ hs (.string hbody)) ?_ hsax
      rw [Token.scalar, ofTokenBuffer_encode]
  | @emptyArray s' hs' =>
      intro s rest states sax sax' hs _ hsax
      have hopen := scan_structural strtod (s' ++ 0x5D :: rest) hs .beginArray
      rw [List.cons_append, List.append_assoc]
      exact run_emptyArray hopen (scan_structural strtod _ hs' .endArray) hsax
  | @array w s' elems helements hs' ih =>
      intro s rest states sax sax' hs _ hsax
      have hopen := scan_structural strtod (w ++ (s' ++ 0x5D :: rest)) hs .beginArray
      rw [List.cons_append, List.append_assoc, List.append_assoc, List.singleton_append,
        run_beginArray hopen (helements.begins.append _), ih _ _ _ (stops_of_space hs' hbracket)]
      exact run_endArray (scan_structural strtod _ hs' .endArray) hsax
  | @emptyObject s' hs' =>
      intro s rest states sax sax' hs _ hsax
      have hopen := scan_structural strtod (s' ++ 0x7D :: rest) hs .beginObject
      rw [List.cons_append, List.append_assoc]
      exact run_emptyObject hopen (scan_structural strtod _ hs' .endObject) hsax
  | @object w s' members hmembers hs' ih =>
      intro s rest states sax sax' hs _ hsax
      have hopen := scan_structural strtod (w ++ (s' ++ 0x7D :: rest)) hs .beginObject
      obtain ⟨key, hkey⟩ := ih (s' ++ 0x7D :: rest) states states sax (stops_of_space hs' hbrace)
      rw [List.cons_append, List.append_assoc, List.append_assoc, List.singleton_append,
        run_beginObject hopen (hmembers.begins.append _), hkey]
      exact run_endObject (scan_structural strtod _ hs' .endObject) hsax
  | element hs _ ih =>
      intro rest states sax hstops
      rw [List.append_assoc]
      exact ih _ rest _ _ _ hs hstops rfl
  | @nextElement ws s s' w elems v _ hs hs' _ ih ih' =>
      intro rest states sax hstops
      have hassoc : ws ++ (s ++ 0x2C :: (s' ++ w)) ++ rest =
          ws ++ (s ++ 0x2C :: (s' ++ (w ++ rest))) := by
        simp
      rw [hassoc, ih _ _ _ (stops_of_space hs hcomma),
        run_comma_array (scan_structural strtod _ hs .valueSeparator)]
      exact ih' _ rest _ _ _ hs' hstops rfl
  | @member s s' s'' k w key v hs hkey hs' hs'' _ ih =>
      intro rest states states' sax hstops
      have hassoc : s ++ (k ++ (s' ++ 0x3A :: (s'' ++ w))) ++ rest =
          s ++ (k ++ (s' ++ 0x3A :: (s'' ++ (w ++ rest)))) := by
        simp
      rw [hassoc]
      exact ⟨key, Reads.member ih hs hkey hs' hs'' hstops⟩
  | @nextMember ws t s s' s'' k w members key v _ ht hs hkey hs' hs'' _ ih ih' =>
      intro rest states states' sax hstops
      have hassoc : ws ++ (t ++ 0x2C :: (s ++ (k ++ (s' ++ 0x3A :: (s'' ++ w))))) ++ rest =
          ws ++ (t ++ 0x2C :: (s ++ (k ++ (s' ++ 0x3A :: (s'' ++ (w ++ rest)))))) := by
        simp
      obtain ⟨key', hkey'⟩ := ih (t ++ 0x2C :: (s ++ (k ++ (s' ++ 0x3A :: (s'' ++ (w ++ rest))))))
        states states' sax (stops_of_space ht hcomma)
      rw [hassoc, hkey', run_comma_object (scan_structural strtod _ ht .valueSeparator),
        ofMembers_concat]
      exact ⟨key, Reads.member ih' hs hkey hs' hs'' hstops⟩

end Parser

end MarketFeed
