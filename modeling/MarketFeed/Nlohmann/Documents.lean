import MarketFeed.Common.Hash
import MarketFeed.Nlohmann.Texts
import Mathlib.Data.List.Induction

set_option autoImplicit false

/-! # The documents of `json::parse`

The modelled parser as the library that the rest of the program runs on, and what holds of every
document it returns: its objects are as `std::map` keeps them, however deep they lie. -/

namespace MarketFeed

open Grammar

variable {strtod : Strtod} {castFloat : ℚ → UInt64} {text w : Bytes} {j : Json}

/-! ## The library -/

/-- The library with the modelled parser. -/
def JsonLib.nlohmann (strtod : Strtod) (castFloat : ℚ → UInt64) : JsonLib where
  parse text := (Parser.parse strtod text).get (Parser.isSome_parse strtod text)
  castFloat

theorem JsonLib.parse_nlohmann {result : Except ParseFailure Json} :
    (nlohmann strtod castFloat).parse text = result ↔ Parser.parse strtod text = some result := by
  rw [← Option.some_get (Parser.isSome_parse strtod text), Option.some_inj]
  rfl

theorem JsonLib.parse_nlohmann_eq_ok_iff (strtod : Strtod) (castFloat : ℚ → UInt64) (text : Bytes)
    (j : Json) :
    (nlohmann strtod castFloat).parse text = .ok j ↔ TextOf strtod text j :=
  parse_nlohmann.trans (Parser.parse_eq_ok_iff strtod text j)

theorem JsonLib.parse_nlohmann_eq_outOfRange_iff (strtod : Strtod) (castFloat : ℚ → UInt64)
    (text : Bytes) :
    (nlohmann strtod castFloat).parse text = .error .outOfRange ↔ OverflowsText strtod text :=
  parse_nlohmann.trans (Parser.parse_eq_outOfRange_iff strtod text)

/-- What `parseJsonString` makes of a text: the document it denotes, or null if it denotes none. -/
theorem parseJsonString_nlohmann_eq_ok_iff :
    parseJsonString (.nlohmann strtod castFloat) text = .ok j ↔
      TextOf strtod text j ∨
        (j = .null ∧ (∀ i, ¬ TextOf strtod text i) ∧ ¬ OverflowsText strtod text) := by
  have hok (i : Json) : TextOf strtod text i ↔ _ :=
    (JsonLib.parse_nlohmann_eq_ok_iff strtod castFloat text i).symm
  have hrange := JsonLib.parse_nlohmann_eq_outOfRange_iff strtod castFloat text
  simp only [hok, ← hrange]
  unfold parseJsonString
  split
  · next i hparse => simp [hparse]
  · next hparse => simp [hparse, eq_comm]
  · next hparse => simp [hparse]

/-! ## Members -/

variable {key : String} {v : Json} {members : List (String × Json)}

theorem mem_insertMember {member : String × Json} (h : member ∈ insertMember key v members) :
    member = (key, v) ∨ member ∈ members := by
  induction members with
  | nil => exact Or.inl (List.mem_singleton.1 h)
  | cons first rest ih =>
      obtain ⟨k, u⟩ := first
      unfold insertMember at h
      split_ifs at h with heq hlt
      · rcases List.mem_cons.1 h with rfl | hrest
        · exact Or.inl (by rw [heq])
        · exact Or.inr (List.mem_cons_of_mem _ hrest)
      · exact List.mem_cons.1 h
      · rcases List.mem_cons.1 h with rfl | hrest
        · exact Or.inr List.mem_cons_self
        · exact (ih hrest).imp_right (List.mem_cons_of_mem _)

theorem pairwise_insertMember (hordered : members.Pairwise fun a b => a.1 < b.1) :
    (insertMember key v members).Pairwise fun a b => a.1 < b.1 := by
  induction members with
  | nil => exact List.pairwise_singleton _ _
  | cons member rest ih =>
      obtain ⟨k, u⟩ := member
      obtain ⟨hfirst, hrest⟩ := List.pairwise_cons.1 hordered
      unfold insertMember
      split_ifs with heq hlt
      · exact List.pairwise_cons.2 ⟨hfirst, hrest⟩
      · refine List.pairwise_cons.2 ⟨fun b hb => ?_, hordered⟩
        rcases List.mem_cons.1 hb with rfl | hb
        · exact hlt
        · exact hlt.trans (hfirst b hb)
      · refine List.pairwise_cons.2 ⟨fun b hb => ?_, ih hrest⟩
        rcases mem_insertMember hb with rfl | hb
        · exact lt_of_le_of_ne (not_lt.1 hlt) (Ne.symm heq)
        · exact hfirst b hb

theorem mem_ofMembers {member : String × Json} (h : member ∈ ofMembers members) :
    member ∈ members := by
  induction members using List.reverseRecOn with
  | nil => exact h
  | append_singleton members last ih =>
      rw [ofMembers_concat] at h
      rcases mem_insertMember h with rfl | hmem
      · exact List.mem_append_right _ (List.mem_singleton.2 rfl)
      · exact List.mem_append_left _ (ih hmem)

theorem pairwise_ofMembers (members : List (String × Json)) :
    (ofMembers members).Pairwise fun a b => a.1 < b.1 := by
  induction members using List.reverseRecOn with
  | nil => exact .nil
  | append_singleton members last ih =>
      rw [ofMembers_concat]
      exact pairwise_insertMember ih

/-! ## Documents -/

/-- A document contains itself, and what its elements or the values of its members contain. -/
inductive Json.Contains : Json → Json → Prop
  | self (j : Json) : Contains j j
  | element {elems : List Json} {elem part : Json} (hmem : elem ∈ elems)
      (h : Contains elem part) : Contains (.array elems) part
  | member {members : List (String × Json)} {m : String × Json} {part : Json} (hmem : m ∈ members)
      (h : Contains m.2 part) : Contains (.object members) part

/-- Every object in it is in order, however deep it lies. -/
def Json.DeeplyOrdered (j : Json) : Prop := ∀ part, j.Contains part → part.Ordered

theorem Json.deeplyOrdered_array {elems : List Json} (h : ∀ j ∈ elems, j.DeeplyOrdered) :
    (Json.array elems).DeeplyOrdered := by
  intro part hpart
  cases hpart with
  | self => trivial
  | element hmem hpart => exact h _ hmem _ hpart

theorem Json.deeplyOrdered_object (hordered : members.Pairwise fun a b => a.1 < b.1)
    (h : ∀ m ∈ members, m.2.DeeplyOrdered) : (Json.object members).DeeplyOrdered := by
  intro part hpart
  cases hpart with
  | self => exact hordered
  | member hmem hpart => exact h _ hmem _ hpart

/-- Every object in what a phrase denotes is in order. -/
def Grammar.Meaning.DeeplyOrdered : Meaning → Prop
  | .value j => j.DeeplyOrdered
  | .elements elems => ∀ j ∈ elems, j.DeeplyOrdered
  | .members members => ∀ m ∈ members, m.2.DeeplyOrdered

theorem Grammar.Denotes.deeplyOrdered {m : Meaning} (h : Denotes strtod w m) :
    m.DeeplyOrdered := by
  have hscalar {j : Json} (h : ∀ part, j.Contains part → part = j) (hj : j.Ordered) :
      j.DeeplyOrdered := fun part hpart => h part hpart ▸ hj
  induction h with
  | @number n v hvalue =>
      have hnumber : v.IsNumber := by
        unfold Numeral.value at hvalue
        split_ifs at hvalue
        · exact Option.some.inj hvalue ▸ trivial
        · exact Option.some.inj hvalue ▸ trivial
        · obtain ⟨x, -, rfl⟩ := Option.map_eq_some_iff.1 hvalue
          trivial
      cases v <;> first
        | exact absurd hnumber id
        | exact hscalar (fun _ hpart => by cases hpart; rfl) trivial
  | literalFalse | literalNull | literalTrue | string _ =>
      exact hscalar (fun _ hpart => by cases hpart; rfl) trivial
  | emptyArray _ => exact Json.deeplyOrdered_array (by simp)
  | array _ _ ih => exact Json.deeplyOrdered_array ih
  | emptyObject _ => exact Json.deeplyOrdered_object .nil (by simp)
  | object _ _ ih =>
      exact Json.deeplyOrdered_object (pairwise_ofMembers _) fun m hm => ih m (mem_ofMembers hm)
  | element _ _ ih => exact List.forall_mem_singleton.2 ih
  | nextElement _ _ _ _ ih ih' =>
      exact List.forall_mem_append.2 ⟨ih, List.forall_mem_singleton.2 ih'⟩
  | member _ _ _ _ _ ih => exact List.forall_mem_singleton.2 ih
  | nextMember _ _ _ _ _ _ _ ih ih' =>
      exact List.forall_mem_append.2 ⟨ih, List.forall_mem_singleton.2 ih'⟩

/-- **Every object of a parsed document is in order**, however deep it lies: its members are in
    strictly increasing key order, whatever the order and the repetitions in the text. -/
theorem Parser.deeplyOrdered_of_parse (strtod : Strtod) (text : Bytes) (j : Json)
    (h : parse strtod text = some (.ok j)) : j.DeeplyOrdered := by
  obtain ⟨_, _, _, _, -, -, hdenotes, -, -⟩ := (parse_eq_ok_iff strtod text j).1 h
  exact hdenotes.deeplyOrdered

/-- `{"b":{"d":1,"c":2},"a":3,"b":{"f":5,"e":6,"f":4}}` -/
def unordered : Bytes :=
  [0x7b, 0x22, 0x62, 0x22, 0x3a, 0x7b, 0x22, 0x64, 0x22, 0x3a, 0x31, 0x2c, 0x22, 0x63, 0x22, 0x3a,
    0x32, 0x7d, 0x2c, 0x22, 0x61, 0x22, 0x3a, 0x33, 0x2c, 0x22, 0x62, 0x22, 0x3a, 0x7b, 0x22, 0x66,
    0x22, 0x3a, 0x35, 0x2c, 0x22, 0x65, 0x22, 0x3a, 0x36, 0x2c, 0x22, 0x66, 0x22, 0x3a, 0x34, 0x7d,
    0x7d]

theorem Parser.deeplyOrdered_of_parse_unordered :
    (Json.object [("a", .numberUnsigned 3),
      ("b", .object [("e", .numberUnsigned 6), ("f", .numberUnsigned 4)])]).DeeplyOrdered :=
  deeplyOrdered_of_parse (fun _ => none) unordered _ rfl

/-! ## Order books -/

/-- A document that a text denotes. -/
def JsonDocument.ofText (h : TextOf strtod text j) : JsonDocument where
  json := j
  ordered := by
    obtain ⟨_, _, _, _, -, -, hdenotes, -, -⟩ := h
    exact hdenotes.deeplyOrdered j (.self j)

/-- **The hash of an order book is stable.** Whatever text an order book is made of, a second call
    of `hash` returns what the first has returned and changes nothing, though the first may insert a
    member. -/
theorem OrderBook.hash_hash_new (strtod : Strtod) (castFloat : ℚ → UInt64)
    (stdHash : String → UInt64) (order : SumOrder) (symbol : String) (text : Bytes)
    (book : OrderBook) (h : OrderBook.new (.nlohmann strtod castFloat) symbol text = .ok book) :
    hash (.nlohmann strtod castFloat) stdHash order
        (hash (.nlohmann strtod castFloat) stdHash order book).2 =
      hash (.nlohmann strtod castFloat) stdHash order book := by
  unfold OrderBook.new at h
  split at h
  · exact absurd h (by simp)
  · next data hdata =>
      obtain rfl := Except.ok.inj h
      rcases parseJsonString_nlohmann_eq_ok_iff.1 hdata with htext | ⟨rfl, -⟩
      · exact hash_hash _ stdHash order symbol (.ofText htext)
      · exact hash_hash _ stdHash order symbol ⟨.null, trivial⟩

/-- The text `{}`: the first call inserts `"U"`. -/
theorem OrderBook.hash_hash_new_empty :
    (hash (.nlohmann (fun _ => none) fun _ => 0) (fun _ => 0) ⟨true, true⟩
      ⟨"btcusdt", .object []⟩).2.data = .object [("U", .null)] ∧
    hash (.nlohmann (fun _ => none) fun _ => 0) (fun _ => 0) ⟨true, true⟩
        (hash (.nlohmann (fun _ => none) fun _ => 0) (fun _ => 0) ⟨true, true⟩
          ⟨"btcusdt", .object []⟩).2 =
      hash (.nlohmann (fun _ => none) fun _ => 0) (fun _ => 0) ⟨true, true⟩
        ⟨"btcusdt", .object []⟩ :=
  ⟨rfl, hash_hash_new (fun _ => none) (fun _ => 0) (fun _ => 0) ⟨true, true⟩ "btcusdt" [0x7b, 0x7d]
    _ rfl⟩

end MarketFeed
