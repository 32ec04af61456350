import MarketFeed.Nlohmann.Complete

set_option autoImplicit false

/-! # Where a document stands

A document is read from the left, and wherever the reading stands some arrays and objects are open.
`Awaits` says that a value is expected there, and `Follows` that a value has just ended, in terms of
the grammar and of the containers of `json_sax_dom_parser`. The lemmas say where the next token
leads from each. -/

namespace MarketFeed

open Grammar

variable {strtod : Strtod} {w s v s' k t : Bytes} {stack : List Container} {j root : Json}

/-! ## Places -/

/-- An array or object up to where its next value is expected, and how it is built there. -/
inductive Opens (strtod : Strtod) : Bytes → Container → Prop
  | array : Opens strtod [0x5B] (.array [])
  | nextElement {w s : Bytes} {elems : List Json} (helements : Denotes strtod w (.elements elems))
      (hs : Space s) : Opens strtod (0x5B :: (w ++ (s ++ [0x2C]))) (.array elems)
  | object {s k s' : Bytes} {key : String} (hs : Space s) (hkey : StringText k key)
      (hs' : Space s') :
      Opens strtod (0x7B :: (s ++ (k ++ (s' ++ [0x3A])))) (.object [(key, .null)] (some key))
  | nextMember {w t s k s' : Bytes} {members : List (String × Json)} {key : String}
      (hmembers : Denotes strtod w (.members members)) (ht : Space t) (hs : Space s)
      (hkey : StringText k key) (hs' : Space s') :
      Opens strtod (0x7B :: (w ++ (t ++ 0x2C :: (s ++ (k ++ (s' ++ [0x3A]))))))
        (.object (Json.emplaceNull key (ofMembers members)) (some key))

/-- An array or object up to the end of a value in it. -/
inductive Unclosed (strtod : Strtod) : Bytes → Container → Prop
  | elements {w : Bytes} {elems : List Json} (h : Denotes strtod w (.elements elems)) :
      Unclosed strtod (0x5B :: w) (.array elems)
  | members {w : Bytes} {members : List (String × Json)} (key : String)
      (h : Denotes strtod w (.members members)) :
      Unclosed strtod (0x7B :: w) (.object (ofMembers members) (some key))

/-- A document up to where a value is expected, and the containers that are open there, innermost
    first. -/
inductive Awaits (strtod : Strtod) : Bytes → List Container → Prop
  | document : Awaits strtod [] []
  | container {w s v : Bytes} {stack : List Container} {c : Container}
      (h : Awaits strtod w stack) (hs : Space s) (hopens : Opens strtod v c) :
      Awaits strtod (w ++ (s ++ v)) (c :: stack)

/-- A document up to the end of a value: of the document itself, or of one in a container. -/
inductive Follows (strtod : Strtod) : Bytes → DomParser → Prop
  | document {s w : Bytes} {j : Json} (hs : Space s) (hvalue : Denotes strtod w (.value j)) :
      Follows strtod (s ++ w) { root := j, refStack := [] }
  | container {w s v : Bytes} {stack : List Container} {c : Container}
      (h : Awaits strtod w stack) (hs : Space s) (hunclosed : Unclosed strtod v c) :
      Follows strtod (w ++ (s ++ v)) { root := .null, refStack := c :: stack }

/-! ## From place to place -/

/-- The entry of `states` for a container. -/
def Container.isArray : Container → Bool
  | .array _ => true
  | .object _ _ => false

/-- The arrays and objects that are open. -/
def DomParser.states (sax : DomParser) : List Bool := sax.refStack.map Container.isArray

/-- A value where one is expected. -/
theorem Awaits.handleValue (h : Awaits strtod w stack) (hs : Space s)
    (hvalue : Denotes strtod v (.value j)) :
    ∃ sax : DomParser, DomParser.handleValue { root := .null, refStack := stack } j = some sax ∧
      sax.states = stack.map Container.isArray ∧ Follows strtod (w ++ (s ++ v)) sax := by
  cases h with
  | document => exact ⟨_, rfl, rfl, by simpa using Follows.document hs hvalue⟩
  | @container w s₀ _ stack c h hs₀ hopens =>
      cases hopens with
      | array =>
          refine ⟨_, rfl, rfl, ?_⟩
          have hunclosed := Unclosed.elements (.element hs hvalue)
          simpa using Follows.container h hs₀ hunclosed
      | nextElement helements hcomma =>
          refine ⟨_, rfl, rfl, ?_⟩
          have hunclosed := Unclosed.elements (.nextElement helements hcomma hs hvalue)
          simpa using Follows.container h hs₀ hunclosed
      | @object s₁ k s₂ key hs₁ hkey hs₂ =>
          refine ⟨_, rfl, rfl, ?_⟩
          have hunclosed := Unclosed.members key (.member hs₁ hkey hs₂ hs hvalue)
          simpa [DomParser.assign, ofMembers, insertMember] using Follows.container h hs₀ hunclosed
      | @nextMember ws t s₁ k s₂ members key hmembers ht hs₁ hkey hs₂ =>
          refine ⟨_, rfl, rfl, ?_⟩
          have hunclosed := Unclosed.members key (.nextMember hmembers ht hs₁ hkey hs₂ hs hvalue)
          rw [ofMembers_concat] at hunclosed
          rw [assign_emplaceNull]
          simpa using Follows.container h hs₀ hunclosed

/-- In a container, the document is not there yet. -/
theorem Follows.root_eq {c : Container} (h : Follows strtod w { root, refStack := c :: stack }) :
    root = .null := by
  cases h with
  | container _ _ _ => rfl

theorem Follows.comma {elems : List Json}
    (h : Follows strtod w { root, refStack := .array elems :: stack }) (hs : Space s) :
    Awaits strtod (w ++ (s ++ [0x2C])) (.array elems :: stack) := by
  cases h with
  | container h hs₀ hunclosed =>
      cases hunclosed with
      | elements helements =>
          simpa using Awaits.container h hs₀ (.nextElement helements hs)

theorem Follows.endArray {elems : List Json}
    (h : Follows strtod w { root, refStack := .array elems :: stack }) (hs : Space s) :
    ∃ sax, DomParser.endArray { root, refStack := .array elems :: stack } = some sax ∧
      sax.states = stack.map Container.isArray ∧ Follows strtod (w ++ (s ++ [0x5D])) sax := by
  cases h with
  | container h hs₀ hunclosed =>
      cases hunclosed with
      | elements helements =>
          obtain ⟨sax, hsax, hstates, hfollows⟩ := h.handleValue hs₀ (.array helements hs)
          exact ⟨sax, hsax, hstates, by simpa using hfollows⟩

theorem Follows.key {members : List (String × Json)} {o : Option String} {key : String}
    (h : Follows strtod w { root, refStack := .object members o :: stack }) (ht : Space t)
    (hs : Space s) (hkey : StringText k key) (hs' : Space s') :
    Awaits strtod (w ++ (t ++ 0x2C :: (s ++ (k ++ (s' ++ [0x3A])))))
      (.object (Json.emplaceNull key members) (some key) :: stack) := by
  cases h with
  | container h hs₀ hunclosed =>
      cases hunclosed with
      | members _ hmembers =>
          simpa using Awaits.container h hs₀ (.nextMember hmembers ht hs hkey hs')

theorem Follows.endObject {members : List (String × Json)} {o : Option String}
    (h : Follows strtod w { root, refStack := .object members o :: stack }) (hs : Space s) :
    ∃ sax, DomParser.endObject { root, refStack := .object members o :: stack } = some sax ∧
      sax.states = stack.map Container.isArray ∧ Follows strtod (w ++ (s ++ [0x7D])) sax := by
  cases h with
  | container h hs₀ hunclosed =>
      cases hunclosed with
      | members _ hmembers =>
          obtain ⟨sax, hsax, hstates, hfollows⟩ := h.handleValue hs₀ (.object hmembers hs)
          exact ⟨sax, hsax, hstates, by simpa using hfollows⟩

end MarketFeed
