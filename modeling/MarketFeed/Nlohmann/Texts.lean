import MarketFeed.Nlohmann.Sound

set_option autoImplicit false

/-! # What `json::parse` comes to

Completeness and soundness together: `parse` comes to the one document that the text denotes, to an
`out_of_range` where a numeral is too large at a place that is well formed up to there, and to a
`parse_error` for every other text. -/

namespace MarketFeed

open Grammar Lexer

variable {strtod : Strtod} {text unread rest w s v mark : Bytes} {j : Json}
  {stack : List Container}

/-- A text in which a numeral is too large, where a value is expected. -/
def OverflowsText (strtod : Strtod) (text : Bytes) : Prop :=
  ∃ mark w, Mark mark ∧ Overflows strtod w ∧ text = mark ++ w

/-! ## The beginning -/

/-- An array or object begins with its bracket. -/
theorem Opens.begins {c : Container} (h : Opens strtod v c) : Begins v := by
  cases h <;> exact ⟨[], _, _, by simp [Space], rfl, by decide⟩

theorem Awaits.begins (h : Awaits strtod w stack) (hbegins : Begins unread) :
    Begins (w ++ unread) := by
  induction h generalizing unread with
  | document => exact hbegins
  | container _ hs hopens ih =>
      rw [List.append_assoc, List.append_assoc]
      exact ih ((hopens.begins.append unread).of_space hs)

theorem Overflows.begins (h : Overflows strtod w) : Begins w := by
  obtain ⟨w', stack, s, n, rest, hw, hs, -, -, rfl⟩ := h
  exact hw.begins ((n.begins.append rest).of_space hs)

namespace Parser

/-- What comes before the document is skipped with its first token. -/
theorem new_eq (hmark : Mark mark) (h : Begins unread) :
    new strtod (mark ++ unread) = reading strtod unread [] noDocument := by
  have hscan : scan strtod { fresh := true, unread := mark ++ unread } =
      scan strtod (begun unread) := by
    rcases hmark with rfl | rfl
    · refine scan_fresh strtod ?_
      obtain ⟨s, b, tail, hs, rfl, -, hbom, -⟩ := h
      cases s with
      | nil => simpa using hbom
      | cons c s => rcases hs c List.mem_cons_self with rfl | rfl | rfl | rfl <;> simp
    · exact scan_bom strtod _
  simp [new, reading, getToken, hscan, noDocument]

theorem new_cases (strtod : Strtod) (text : Bytes) :
    (new strtod text).lastToken = .parseError ∨ ∃ mark unread, Mark mark ∧ text = mark ++ unread ∧
      new strtod text = reading strtod unread [] noDocument := by
  by_cases hhead : text.head? = some 0xEF
  · obtain ⟨tail, rfl⟩ := List.head?_eq_some_iff.1 hhead
    by_cases hbom : ∃ unread, tail = 0xBB :: 0xBF :: unread
    · obtain ⟨unread, rfl⟩ := hbom
      refine Or.inr ⟨[0xEF, 0xBB, 0xBF], unread, Or.inr rfl, rfl, ?_⟩
      simp [new, reading, getToken, scan_bom, noDocument]
    · have hskip : skipBom (0xEF :: tail) = none := by
        simp only [skipBom]
        split
        · next unread => exact absurd ⟨unread, rfl⟩ hbom
        · rfl
      refine Or.inl ?_
      simp [new, getToken, scan, hskip]
  · refine Or.inr ⟨[], text, Or.inl rfl, rfl, ?_⟩
    simp [new, reading, getToken, scan_fresh strtod hhead, noDocument]

/-! ## Reading up to a place -/

theorem run_opens {c : Container} {states : List Bool} (hs : Space s) (hopens : Opens strtod v c)
    (hbegins : Begins unread) :
    (saxParseInternal strtod).run (reading strtod (s ++ (v ++ unread)) states
      { root := .null, refStack := stack }) =
      (saxParseInternal strtod).run (reading strtod unread (c.isArray :: states)
        { root := .null, refStack := c :: stack }) := by
  cases hopens with
  | array => exact run_beginArray (scan_structural strtod _ hs .beginArray) hbegins
  | @nextElement w t elems helements ht =>
      have hopen := scan_structural strtod (w ++ (t ++ 0x2C :: unread)) hs .beginArray
      have hassoc : 0x5B :: (w ++ (t ++ [0x2C])) ++ unread =
          0x5B :: (w ++ (t ++ 0x2C :: unread)) := by
        simp
      rw [hassoc, run_beginArray hopen (helements.begins.append _),
        reads_of_denotes helements _ _ _ (stops_of_space ht (by decide))]
      exact run_comma_array (scan_structural strtod _ ht .valueSeparator)
  | @object t k t' key ht hkey ht' =>
      have hopen := scan_structural strtod (t ++ (k ++ (t' ++ 0x3A :: unread))) hs
        .beginObject
      have hassoc : 0x7B :: (t ++ (k ++ (t' ++ [0x3A]))) ++ unread =
          0x7B :: (t ++ (k ++ (t' ++ 0x3A :: unread))) := by
        simp
      rw [hassoc, run_beginObject hopen (hkey.begins.append _ |>.of_space ht)]
      exact finish_parseKey ht hkey ht' rfl
  | @nextMember w t t' k t'' members key hmembers ht ht' hkey ht'' =>
      have hopen := scan_structural strtod
        (w ++ (t ++ 0x2C :: (t' ++ (k ++ (t'' ++ 0x3A :: unread))))) hs .beginObject
      have hassoc : 0x7B :: (w ++ (t ++ 0x2C :: (t' ++ (k ++ (t'' ++ [0x3A]))))) ++ unread =
          0x7B :: (w ++ (t ++ 0x2C :: (t' ++ (k ++ (t'' ++ 0x3A :: unread))))) := by
        simp
      obtain ⟨key', hkey'⟩ := reads_of_denotes hmembers
        (t ++ 0x2C :: (t' ++ (k ++ (t'' ++ 0x3A :: unread)))) states states
        { root := .null, refStack := stack } (stops_of_space ht (by decide))
      rw [hassoc, run_beginObject hopen (hmembers.begins.append _), hkey',
        run_comma_object (scan_structural strtod _ ht .valueSeparator)]
      exact finish_parseKey ht' hkey ht'' rfl

/-- Whatever leads to a place where a value is expected is read up to there. -/
theorem run_awaits (h : Awaits strtod w stack) (hbegins : Begins unread) :
    (saxParseInternal strtod).run (reading strtod (w ++ unread) [] noDocument) =
      (saxParseInternal strtod).run (reading strtod unread (stack.map Container.isArray)
        { root := .null, refStack := stack }) := by
  induction h generalizing unread with
  | document => rfl
  | container _ hs hopens ih =>
      rw [List.append_assoc, List.append_assoc,
        ih ((hopens.begins.append unread).of_space hs)]
      exact run_opens hs hopens hbegins

/-- There a numeral that is too large ends the parser. -/
theorem run_overflows (h : Overflows strtod text) :
    (saxParseInternal strtod).run (reading strtod text [] noDocument) = .failure .outOfRange := by
  obtain ⟨w, stack, s, n, rest, hw, hs, hvalue, hends, rfl⟩ := h
  rw [run_awaits hw ((n.begins.append rest).of_space hs), reading_eq (scan_number hs n hends),
    token_of_value_eq_none hvalue]
  exact Loop.run_of_leave rfl

/-! ## Texts -/

theorem stops_of_trail {trail : Bytes} (h : Trail trail) : NumberState.Stops trail := by
  obtain ⟨s, hs, rfl | ⟨rest, rfl⟩⟩ := h
  · intro c hc
    rcases hs c (List.mem_of_mem_head? hc) with rfl | rfl | rfl | rfl <;> decide
  · exact stops_of_space hs (by decide)

theorem parse_of_textOf (h : TextOf strtod text j) : parse strtod text = some (.ok j) := by
  obtain ⟨mark, s, w, trail, hmark, hs, hw, htrail, rfl⟩ := h
  have hrun := reads_of_denotes hw s trail [] noDocument { noDocument with root := j } hs
    (stops_of_trail htrail) rfl
  have hparsed : (saxParseInternal strtod).run (evaluating trail [] { noDocument with root := j }) =
      .parsed (begun trail) j := Loop.run_of_leave rfl
  rw [parse, new_eq hmark ((hw.begins.append trail).of_space hs), hrun, hparsed]
  simp only [scan_trail strtod htrail, if_true]

theorem parse_of_overflowsText (h : OverflowsText strtod text) :
    parse strtod text = some (.error .outOfRange) := by
  obtain ⟨mark, w, hmark, hw, rfl⟩ := h
  rw [parse, new_eq hmark (Overflows.begins hw), run_overflows hw]

/-- What `parse` may come to, by the loop rule. -/
theorem parse_cases (strtod : Strtod) (text : Bytes) :
    (∃ j, parse strtod text = some (.ok j) ∧ TextOf strtod text j) ∨
      parse strtod text = some (.error .parseError) ∨
      (parse strtod text = some (.error .outOfRange) ∧ OverflowsText strtod text) := by
  rcases new_cases strtod text with htoken | ⟨mark, w, hmark, rfl, hnew⟩
  · refine Or.inr (Or.inl ?_)
    have hbody : saxParseBody strtod (new strtod text) = .leave (.failure .parseError) := by
      rw [saxParseBody, htoken]
      rfl
    rw [parse, Loop.run_of_leave hbody]
  have hpost := run_reading strtod w
  rw [← hnew] at hpost
  unfold parse
  cases hrun : (saxParseInternal strtod).run (new strtod (mark ++ w)) with
  | assertion =>
      rw [hrun] at hpost
      exact absurd hpost id
  | failure f =>
      rw [hrun] at hpost
      cases f with
      | parseError => exact Or.inr (Or.inl rfl)
      | outOfRange => exact Or.inr (Or.inr ⟨rfl, mark, w, hmark, hpost, rfl⟩)
  | parsed lexer result =>
      rw [hrun] at hpost
      obtain ⟨w', trail, rfl, rfl, hplace⟩ := hpost
      cases hplace with
      | @document s v _ hs hvalue =>
          dsimp only
          split_ifs with hend
          · exact Or.inl ⟨result, rfl, mark, s, v, trail, hmark, hs, hvalue, trail_of_scan hend,
              by simp⟩
          · exact Or.inr (Or.inl rfl)

theorem parse_eq_ok_iff (strtod : Strtod) (text : Bytes) (j : Json) :
    parse strtod text = some (.ok j) ↔ TextOf strtod text j := by
  refine ⟨fun h => ?_, parse_of_textOf⟩
  rcases parse_cases strtod text with ⟨j', h', htext⟩ | h' | ⟨h', -⟩ <;> rw [h] at h' <;> cases h'
  exact htext

theorem parse_eq_outOfRange_iff (strtod : Strtod) (text : Bytes) :
    parse strtod text = some (.error .outOfRange) ↔ OverflowsText strtod text := by
  refine ⟨fun h => ?_, parse_of_overflowsText⟩
  rcases parse_cases strtod text with ⟨j', h', -⟩ | h' | ⟨-, htext⟩
  · exact absurd (h.symm.trans h') (by simp)
  · exact absurd (h.symm.trans h') (by simp)
  · exact htext

/-- No assertion of the parser or of its DOM builder fails. -/
theorem isSome_parse (strtod : Strtod) (text : Bytes) : (parse strtod text).isSome := by
  rcases parse_cases strtod text with ⟨j, h, -⟩ | h | ⟨h, -⟩ <;> rw [h] <;> rfl

/-- **What `json::parse` makes of a text.** It returns a document exactly if the text denotes it:
    all the escapes, numbers, nesting and duplicate keys of the text as the grammar has them. It
    throws `out_of_range` exactly if a numeral that is too large stands where the text is still the
    beginning of a document, and `parse_error` on every other text: no text fails an assertion of
    the parser or of its DOM builder. -/
theorem parse_meets_grammar (strtod : Strtod) (text : Bytes) :
    (∀ j, parse strtod text = some (.ok j) ↔ TextOf strtod text j) ∧
      (parse strtod text = some (.error .outOfRange) ↔ OverflowsText strtod text) ∧
      (parse strtod text = some (.error .parseError) ↔
        (∀ j, ¬ TextOf strtod text j) ∧ ¬ OverflowsText strtod text) := by
  refine ⟨parse_eq_ok_iff strtod text, parse_eq_outOfRange_iff strtod text, fun h => ⟨?_, ?_⟩, ?_⟩
  · intro j htext
    exact absurd (h.symm.trans (parse_of_textOf htext)) (by simp)
  · intro htext
    exact absurd (h.symm.trans (parse_of_overflowsText htext)) (by simp)
  · rintro ⟨hnone, hnone'⟩
    rcases parse_cases strtod text with ⟨j, -, htext⟩ | h | ⟨-, htext⟩
    · exact absurd htext (hnone j)
    · exact h
    · exact absurd htext hnone'

/-- The grammar is not ambiguous. -/
theorem textOf_unique {j' : Json} (h : TextOf strtod text j) (h' : TextOf strtod text j') :
    j = j' :=
  Except.ok.inj (Option.some.inj ((parse_of_textOf h).symm.trans (parse_of_textOf h')))

end Parser

end MarketFeed
