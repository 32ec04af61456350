import MarketFeed.Common
import Mathlib.Data.String.Basic

set_option autoImplicit false

/-! # `OrderBook::hash` (`include/common.h`)

`hash` reads three members of the document with the subscript that is not `const`. That subscript
makes an object of a null document and inserts a key it does not find, with the value null, whose
conversion then throws: the caller sees a -1, and the insertion stays.

Which member is read first is not said: C++ evaluates the operands of each of the two `+` in an
order of the compiler's choice, and `SumOrder` is that choice.

`hash_data_eq_iff` says which documents `hash` leaves as they were. -/

namespace MarketFeed

/-! ## The members of an object -/

namespace Json

/-- The members of an object as `std::map` keeps them: in key order, each key once. -/
def Ordered : Json → Prop
  | .object members => members.Pairwise fun a b => a.1 < b.1
  | _ => True

variable {key key' : String} {members : List (String × Json)} {v : Json}

/-- A member with another key is not touched. -/
theorem lookup_emplaceNull_of_ne (h : key' ≠ key) :
    (emplaceNull key members).lookup key' = members.lookup key' := by
  induction members with
  | nil => simp [emplaceNull, List.lookup_cons, beq_eq_false_iff_ne.2 h]
  | cons member rest ih =>
      obtain ⟨k, w⟩ := member
      unfold emplaceNull
      split
      · rfl
      · split
        · rw [List.lookup_cons, beq_eq_false_iff_ne.2 h]
        · rw [List.lookup_cons, List.lookup_cons, ih]

theorem emplaceNull_of_lookup_eq_some (hordered : members.Pairwise fun a b => a.1 < b.1)
    (h : members.lookup key = some v) : emplaceNull key members = members := by
  induction members with
  | nil => exact absurd h (by simp)
  | cons member rest ih =>
      obtain ⟨k, w⟩ := member
      obtain ⟨hfirst, hrest⟩ := List.pairwise_cons.1 hordered
      unfold emplaceNull
      split
      · rfl
      · next hne =>
          rw [List.lookup_cons, beq_eq_false_iff_ne.2 hne] at h
          obtain ⟨before, after, rfl, -⟩ := List.lookup_eq_some_iff.1 h
          have hlt : k < key := hfirst (key, v) (by simp)
          rw [if_neg hlt.asymm, ih hrest h]

theorem lookup_emplaceNull_of_lookup_eq_none (h : members.lookup key = none) :
    (emplaceNull key members).lookup key = some .null := by
  induction members with
  | nil => simp [emplaceNull]
  | cons member rest ih =>
      obtain ⟨k, w⟩ := member
      rw [List.lookup_cons] at h
      split at h
      · exact absurd h (by simp)
      · next hk =>
          unfold emplaceNull
          rw [if_neg (beq_eq_false_iff_ne.1 hk)]
          split
          · simp
          · rw [List.lookup_cons, hk]
            exact ih h

theorem mem_emplaceNull {member : String × Json} (h : member ∈ emplaceNull key members) :
    member = (key, .null) ∨ member ∈ members := by
  induction members with
  | nil => exact Or.inl (List.mem_singleton.1 h)
  | cons first rest ih =>
      obtain ⟨k, w⟩ := first
      unfold emplaceNull at h
      split at h
      · exact Or.inr h
      · split at h
        · exact List.mem_cons.1 h
        · rcases List.mem_cons.1 h with rfl | hrest
          · exact Or.inr List.mem_cons_self
          · exact (ih hrest).imp_right (List.mem_cons_of_mem _)

theorem pairwise_emplaceNull (hordered : members.Pairwise fun a b => a.1 < b.1) :
    (emplaceNull key members).Pairwise fun a b => a.1 < b.1 := by
  induction members with
  | nil => exact List.pairwise_singleton _ _
  | cons member rest ih =>
      obtain ⟨k, w⟩ := member
      obtain ⟨hfirst, hrest⟩ := List.pairwise_cons.1 hordered
      unfold emplaceNull
      split
      · exact hordered
      · next hne =>
          split
          · next hlt =>
              refine List.pairwise_cons.2 ⟨fun b hb => ?_, hordered⟩
              rcases List.mem_cons.1 hb with rfl | hb
              · exact hlt
              · exact hlt.trans (hfirst b hb)
          · next hnot =>
              refine List.pairwise_cons.2 ⟨fun b hb => ?_, ih hrest⟩
              rcases mem_emplaceNull hb with rfl | hb
              · exact lt_of_le_of_ne (not_lt.1 hnot) (Ne.symm hne)
              · exact hfirst b hb

end Json

/-! ## The key and its digest -/

/-- `std::to_string(uint64_t)` -/
def stdToString (n : UInt64) : String := Nat.repr n.toNat

/-- A string operand: its value or the exception that its evaluation throws, with the order book it
    leaves behind. -/
abbrev Operand := OrderBook → Except CppException String × OrderBook

/-- Evaluate `x` and then `y`; an exception keeps what has been left behind so far. -/
def Operand.andThen (f : String → String → String) (x y : Operand) : Operand := fun book =>
  match x book with
  | (.error e, book) => (.error e, book)
  | (.ok a, book) =>
      match y book with
      | (.error e, book) => (.error e, book)
      | (.ok b, book) => (.ok (f a b), book)

/-- `left + right`, the one or the other being evaluated first. -/
def Operand.add (leftFirst : Bool) (left right : Operand) : Operand :=
  if leftFirst then .andThen (fun l r => l ++ r) left right
  else .andThen (fun r l => l ++ r) right left

/-- The order in which the operands of `U + u + pu` are evaluated. -/
structure SumOrder where
  /-- The operand with `"U"` before the one with `"u"`. -/
  uppercaseFirst : Bool
  /-- The sum of these two before the operand with `"pu"`. -/
  sumFirst : Bool
deriving DecidableEq, Repr

/-- The keys in the order in which they are read. -/
def SumOrder.keys (order : SumOrder) : List String :=
  let sum := if order.uppercaseFirst then ["U", "u"] else ["u", "U"]
  if order.sumFirst then sum ++ ["pu"] else "pu" :: sum

namespace OrderBook

/-- `std::to_string(uint64_t(this->data[key]))` -/
def memberToString (lib : JsonLib) (key : String) : Operand := fun book =>
  match book.data.subscript key with
  | .error e => (.error e, book)
  | .ok (data, element) => ((element.toUInt64 lib).map stdToString, { book with data })

/-- `hash_data` -/
def hashData (lib : JsonLib) (order : SumOrder) : Operand :=
  Operand.add order.sumFirst
    (Operand.add order.uppercaseFirst (memberToString lib "U") (memberToString lib "u"))
    (memberToString lib "pu")

/-- `int64_t OrderBook::hash()`, with the order book it leaves behind. `stdHash` is
    `std::hash<std::string>`. -/
def hash (lib : JsonLib) (stdHash : String → UInt64) (order : SumOrder) (book : OrderBook) :
    Int64 × OrderBook :=
  match hashData lib order book with
  | (.ok hashData, book) => ((stdHash hashData).toInt64, book)
  -- `catch (...)`
  | (.error _, book) => (-1, book)

end OrderBook

/-! ## What the evaluation reads -/

/-- Read some members as numbers, up to the first that throws. -/
def Json.readNumbers (lib : JsonLib) : List String → Json → Except CppException Unit × Json
  | [], data => (.ok (), data)
  | key :: keys, data =>
      match data.subscript key with
      | .error e => (.error e, data)
      | .ok (data, element) =>
          match element.toUInt64 lib with
          | .error e => (.error e, data)
          | .ok _ => readNumbers lib keys data

/-- The operand touches the document like a read of these members. -/
def Operand.Reads (lib : JsonLib) (x : Operand) (keys : List String) : Prop :=
  ∀ book, ((x book).1.map fun _ => ()) = (book.data.readNumbers lib keys).1 ∧
    (x book).2 = { book with data := (book.data.readNumbers lib keys).2 }

theorem Json.readNumbers_append (lib : JsonLib) (keys keys' : List String) (data : Json) :
    data.readNumbers lib (keys ++ keys') =
      match data.readNumbers lib keys with
      | (.error e, data) => (.error e, data)
      | (.ok _, data) => data.readNumbers lib keys' := by
  induction keys generalizing data with
  | nil => rfl
  | cons key keys ih =>
      rw [List.cons_append, readNumbers, readNumbers]
      split
      · rfl
      · split
        · rfl
        · exact ih _

theorem OrderBook.reads_memberToString (lib : JsonLib) (key : String) :
    (memberToString lib key).Reads lib [key] := by
  intro book
  unfold memberToString Json.readNumbers Json.readNumbers
  split
  · exact ⟨rfl, rfl⟩
  · next data element hsubscript =>
      cases helement : element.toUInt64 lib with
      | error e => exact ⟨rfl, rfl⟩
      | ok n => exact ⟨rfl, rfl⟩

/-- What is evaluated second is read of the document that the first has left behind, unless the
    first throws. -/
theorem Operand.Reads.andThen {lib : JsonLib} {x y : Operand} {keys keys' : List String}
    (hx : x.Reads lib keys) (hy : y.Reads lib keys') (f : String → String → String) :
    (Operand.andThen f x y).Reads lib (keys ++ keys') := by
  intro book
  obtain ⟨hresult, hbook⟩ := hx book
  rw [Json.readNumbers_append]
  unfold Operand.andThen
  generalize book.data.readNumbers lib keys = read at hresult hbook
  obtain ⟨result, data⟩ := read
  generalize x book = evaluated at hresult hbook
  obtain ⟨value, left⟩ := evaluated
  obtain rfl : left = { book with data } := hbook
  cases value with
  | error e =>
      obtain rfl : .error e = result := hresult
      exact ⟨rfl, rfl⟩
  | ok a =>
      obtain rfl : .ok () = result := hresult
      obtain ⟨hresult', hbook'⟩ := hy { book with data }
      dsimp only
      generalize y { book with data } = evaluated' at hresult' hbook' ⊢
      obtain ⟨value', left'⟩ := evaluated'
      cases value' with
      | error e => exact ⟨hresult', hbook'⟩
      | ok b => exact ⟨hresult', hbook'⟩

/-- A sum reads the members of the operand evaluated first, then those of the other. -/
theorem Operand.Reads.add {lib : JsonLib} {left right : Operand} {keys keys' : List String}
    (hleft : left.Reads lib keys) (hright : right.Reads lib keys') (leftFirst : Bool) :
    (Operand.add leftFirst left right).Reads lib
      (if leftFirst then keys ++ keys' else keys' ++ keys) := by
  cases leftFirst with
  | true => exact hleft.andThen hright _
  | false => exact hright.andThen hleft _

theorem OrderBook.reads_hashData (lib : JsonLib) (order : SumOrder) :
    (hashData lib order).Reads lib order.keys := by
  have h := ((reads_memberToString lib "U").add (reads_memberToString lib "u")
    order.uppercaseFirst).add (reads_memberToString lib "pu") order.sumFirst
  exact h

/-! ## Which documents are left as they were -/

namespace Json

/-- Every key that is reached is present, the ones before it having numbers. -/
def Present : List String → List (String × Json) → Prop
  | [], _ => True
  | key :: keys, members => ∃ v, members.lookup key = some v ∧ (v.IsNumber → Present keys members)

/-- A document that a read of some members does not change: an array or a scalar other than null, or
    an object in which every key that is reached is present. -/
def Unaffected (keys : List String) : Json → Prop
  | .null => False
  | .object members => Present keys members
  | _ => True

variable {lib : JsonLib} {keys : List String} {key : String} {members : List (String × Json)}
variable {v : Json}

theorem readNumbers_cons_of_lookup_eq_some
    (hordered : members.Pairwise fun a b => a.1 < b.1) (h : members.lookup key = some v) :
    (object members).readNumbers lib (key :: keys) =
      match v.toUInt64 lib with
      | .error e => (.error e, .object members)
      | .ok _ => (object members).readNumbers lib keys := by
  rw [readNumbers, subscript, emplaceNull_of_lookup_eq_some hordered h, h]
  rfl

theorem readNumbers_cons_of_lookup_eq_none (h : members.lookup key = none) :
    ((object members).readNumbers lib (key :: keys)).2 = .object (emplaceNull key members) := by
  rw [readNumbers, subscript, h]
  rfl

/-- What a read leaves behind: an object in order with the members that were there, and with every
    key that is reached. -/
theorem readNumbers_object (lib : JsonLib) (keys : List String)
    (hordered : members.Pairwise fun a b => a.1 < b.1) :
    ∃ members', ((object members).readNumbers lib keys).2 = .object members' ∧
      (members'.Pairwise fun a b => a.1 < b.1) ∧
      (∀ key v, members.lookup key = some v → members'.lookup key = some v) ∧
      Present keys members' := by
  induction keys with
  | nil => exact ⟨members, rfl, hordered, fun _ _ h => h, trivial⟩
  | cons key keys ih =>
      cases hlookup : members.lookup key with
      | none =>
          refine ⟨_, readNumbers_cons_of_lookup_eq_none hlookup, pairwise_emplaceNull hordered,
            fun key' v hv => ?_, .null, lookup_emplaceNull_of_lookup_eq_none hlookup, False.elim⟩
          have hne : key' ≠ key := by
            rintro rfl
            exact absurd (hlookup.symm.trans hv) (by simp)
          rw [lookup_emplaceNull_of_ne hne, hv]
      | some v =>
          rw [readNumbers_cons_of_lookup_eq_some hordered hlookup]
          cases hv : v.toUInt64 lib with
          | error e =>
              refine ⟨members, rfl, hordered, fun _ _ h => h, v, hlookup, fun hnumber => ?_⟩
              obtain ⟨n, hn⟩ := (toUInt64_isOk_iff lib v).2 hnumber
              exact absurd (hv.symm.trans hn) (by simp)
          | ok n =>
              obtain ⟨members', hread, hordered', hkept, hpresent⟩ := ih
              exact ⟨members', hread, hordered', hkept, v, hkept key v hlookup, fun _ => hpresent⟩

theorem readNumbers_of_present (lib : JsonLib)
    (hordered : members.Pairwise fun a b => a.1 < b.1) (h : Present keys members) :
    ((object members).readNumbers lib keys).2 = .object members := by
  induction keys with
  | nil => rfl
  | cons key keys ih =>
      obtain ⟨v, hlookup, hrest⟩ := h
      rw [readNumbers_cons_of_lookup_eq_some hordered hlookup]
      cases hv : v.toUInt64 lib with
      | error e => rfl
      | ok n => exact ih (hrest ((toUInt64_isOk_iff lib v).1 ⟨n, hv⟩))

/-- Of a document that is neither null nor an object the subscript takes no string. -/
theorem null_or_object_or_throws (data : Json) :
    data = .null ∨ (∃ members, data = .object members) ∨
      (∀ key, ∃ e, data.subscript key = .error e) ∧ ∀ keys, data.Unaffected keys := by
  cases data with
  | null => exact Or.inl rfl
  | object members => exact Or.inr (Or.inl ⟨members, rfl⟩)
  | boolean b => exact Or.inr (Or.inr ⟨fun _ => ⟨_, rfl⟩, fun _ => trivial⟩)
  | numberUnsigned n => exact Or.inr (Or.inr ⟨fun _ => ⟨_, rfl⟩, fun _ => trivial⟩)
  | numberInteger n => exact Or.inr (Or.inr ⟨fun _ => ⟨_, rfl⟩, fun _ => trivial⟩)
  | numberFloat x => exact Or.inr (Or.inr ⟨fun _ => ⟨_, rfl⟩, fun _ => trivial⟩)
  | string s => exact Or.inr (Or.inr ⟨fun _ => ⟨_, rfl⟩, fun _ => trivial⟩)
  | array elems => exact Or.inr (Or.inr ⟨fun _ => ⟨_, rfl⟩, fun _ => trivial⟩)

theorem readNumbers_of_throws {data : Json} (hthrows : ∀ key, ∃ e, data.subscript key = .error e)
    (keys : List String) : (data.readNumbers lib keys).2 = data := by
  cases keys with
  | nil => rfl
  | cons key keys =>
      obtain ⟨e, he⟩ := hthrows key
      rw [readNumbers, he]

/-- A read of at least one key leaves exactly the unaffected documents as they were. -/
theorem readNumbers_eq_iff (lib : JsonLib) {data : Json} (hordered : data.Ordered)
    (hkeys : keys ≠ []) : (data.readNumbers lib keys).2 = data ↔ data.Unaffected keys := by
  obtain ⟨key, keys, rfl⟩ := List.exists_cons_of_ne_nil hkeys
  rcases data.null_or_object_or_throws with rfl | ⟨members, rfl⟩ | ⟨hthrows, hunaffected⟩
  · simp [readNumbers, subscript, toUInt64, Unaffected]
  · constructor
    · intro hsame
      obtain ⟨members', hread, -, -, hpresent⟩ := readNumbers_object lib (key :: keys) hordered
      obtain rfl := Json.object.inj (hsame.symm.trans hread)
      exact hpresent
    · exact readNumbers_of_present lib hordered
  · exact iff_of_true (readNumbers_of_throws hthrows _) (hunaffected _)

theorem unaffected_readNumbers (lib : JsonLib) {data : Json} (hordered : data.Ordered)
    (hkeys : keys ≠ []) :
    (data.readNumbers lib keys).2.Ordered ∧ (data.readNumbers lib keys).2.Unaffected keys := by
  obtain ⟨key, keys, rfl⟩ := List.exists_cons_of_ne_nil hkeys
  rcases data.null_or_object_or_throws with rfl | ⟨members, rfl⟩ | ⟨hthrows, hunaffected⟩
  · exact ⟨List.pairwise_singleton _ _, .null, by simp, False.elim⟩
  · obtain ⟨members', hread, hordered', -, hpresent⟩ :=
      readNumbers_object lib (key :: keys) hordered
    rw [hread]
    exact ⟨hordered', hpresent⟩
  · rw [readNumbers_of_throws hthrows]
    exact ⟨hordered, hunaffected _⟩

theorem readNumbers_of_ok {data : Json} (hordered : data.Ordered)
    (h : (data.readNumbers lib keys).1 = .ok ()) : (data.readNumbers lib keys).2 = data := by
  cases keys with
  | nil => rfl
  | cons key keys =>
      rcases data.null_or_object_or_throws with rfl | ⟨members, rfl⟩ | ⟨hthrows, -⟩
      · exact absurd h (by simp [readNumbers, subscript, toUInt64])
      · refine readNumbers_of_present lib hordered ?_
        have hpresent : ∀ keys : List String, ((object members).readNumbers lib keys).1 = .ok () →
            Present keys members := by
          intro keys hok
          induction keys with
          | nil => trivial
          | cons key keys ih =>
              cases hlookup : members.lookup key with
              | none =>
                  exact absurd hok (by simp [readNumbers, subscript, hlookup, toUInt64])
              | some v =>
                  rw [readNumbers_cons_of_lookup_eq_some hordered hlookup] at hok
                  refine ⟨v, hlookup, fun hnumber => ih ?_⟩
                  obtain ⟨n, hn⟩ := (toUInt64_isOk_iff lib v).2 hnumber
                  rwa [hn] at hok
        exact hpresent _ h
      · exact readNumbers_of_throws hthrows _

/-- A second read finds and leaves what the first one has left. -/
theorem readNumbers_readNumbers (lib : JsonLib) {data : Json} (hordered : data.Ordered)
    (keys : List String) : (data.readNumbers lib keys).2.readNumbers lib keys =
      ((data.readNumbers lib keys).1, (data.readNumbers lib keys).2) := by
  cases keys with
  | nil => rfl
  | cons key keys =>
      rcases data.null_or_object_or_throws with rfl | ⟨members, rfl⟩ | ⟨hthrows, -⟩
      · simp [readNumbers, subscript, toUInt64, emplaceNull]
      · generalize key :: keys = all
        induction all with
        | nil => rfl
        | cons key keys ih =>
            cases hlookup : members.lookup key with
            | none =>
                have hinserted := lookup_emplaceNull_of_lookup_eq_none hlookup
                rw [readNumbers_cons_of_lookup_eq_none hlookup,
                  readNumbers_cons_of_lookup_eq_some (pairwise_emplaceNull hordered) hinserted]
                simp [readNumbers, subscript, hlookup, toUInt64]
            | some v =>
                rw [readNumbers_cons_of_lookup_eq_some hordered hlookup]
                cases hv : v.toUInt64 lib with
                | error e =>
                    rw [readNumbers_cons_of_lookup_eq_some hordered hlookup, hv]
                | ok n =>
                    obtain ⟨members', hread, hordered', hkept, -⟩ :=
                      readNumbers_object lib keys hordered
                    simp only
                    rw [hread] at ih ⊢
                    rw [readNumbers_cons_of_lookup_eq_some hordered' (hkept key v hlookup), hv]
                    exact ih
      · rw [readNumbers_of_throws hthrows]
        exact Prod.ext rfl (readNumbers_of_throws hthrows _)

end Json

/-- A document in the possession of the JSON library. -/
structure JsonDocument where
  json : Json
  ordered : json.Ordered

theorem SumOrder.keys_ne_nil (order : SumOrder) : order.keys ≠ [] := by
  obtain ⟨uppercaseFirst, sumFirst⟩ := order
  cases uppercaseFirst <;> cases sumFirst <;> simp [SumOrder.keys]

/-- Whichever key is read first, some order reads it first: only a document with all three keys is
    left as it was in every order. -/
theorem Json.unaffected_every_order_iff (members : List (String × Json)) :
    (∀ order : SumOrder, (Json.object members).Unaffected order.keys) ↔
      ∀ key ∈ ["U", "u", "pu"], ∃ v, members.lookup key = some v := by
  have hpresent : ∀ keys : List String, (∀ key ∈ keys, ∃ v, members.lookup key = some v) →
      Present keys members := by
    intro keys
    induction keys with
    | nil => exact fun _ => trivial
    | cons key keys ih =>
        intro hall
        obtain ⟨v, hv⟩ := hall key List.mem_cons_self
        exact ⟨v, hv, fun _ => ih fun key hkey => hall key (List.mem_cons_of_mem _ hkey)⟩
  have hsame : ∀ (order : SumOrder), ∀ key ∈ order.keys, key ∈ ["U", "u", "pu"] := by
    rintro ⟨uppercaseFirst, sumFirst⟩
    cases uppercaseFirst <;> cases sumFirst <;> decide
  constructor
  · intro hall
    obtain ⟨U, hU, -⟩ := hall ⟨true, true⟩
    obtain ⟨u, hu, -⟩ := hall ⟨false, true⟩
    obtain ⟨pu, hpu, -⟩ := hall ⟨true, false⟩
    simp [hU, hu, hpu]
  · exact fun hall order => hpresent _ fun key hkey => hall key (hsame order key hkey)

namespace OrderBook

variable (lib : JsonLib) (stdHash : String → UInt64) (order : SumOrder)

theorem snd_hash (book : OrderBook) : (hash lib stdHash order book).2 =
    { book with data := (book.data.readNumbers lib order.keys).2 } := by
  rw [← (reads_hashData lib order book).2]
  unfold hash
  split
  · next h => rw [h]
  · next h => rw [h]

/-- **When `hash` is an observation.** Whatever it returns, `hash` leaves the document as it was
    exactly if that is an array or a scalar other than null, or an object in which the first key of
    the order is present, the second too unless the value of the first is no number, and so on. -/
theorem hash_data_eq_iff (symbol : String) (document : JsonDocument) :
    (hash lib stdHash order { symbol, data := document.json }).2.data = document.json ↔
      document.json.Unaffected order.keys := by
  rw [snd_hash]
  exact Json.readNumbers_eq_iff lib document.ordered order.keys_ne_nil

/-- The text of the payload was not JSON, so the document is null: `hash` returns -1 and makes an
    object of it, whose member is the one the order reads first. -/
theorem hash_null :
    (hash .sample (fun _ => 0) ⟨true, true⟩ { symbol := "btcusdt", data := .null }).1 = -1 ∧
    (hash .sample (fun _ => 0) ⟨true, true⟩ { symbol := "btcusdt", data := .null }).2.data =
      .object [("U", .null)] ∧
    (hash .sample (fun _ => 0) ⟨false, false⟩ { symbol := "btcusdt", data := .null }).2.data =
      .object [("pu", .null)] ∧
    (hash .sample (fun _ => 0) ⟨true, true⟩ { symbol := "btcusdt", data := .null }).2.data ≠
      .null :=
  ⟨rfl, rfl, rfl, fun h => Json.noConfusion h⟩

theorem hash_hash_data (symbol : String) (document : JsonDocument) :
    (hash lib stdHash order (hash lib stdHash order { symbol, data := document.json }).2).2 =
      (hash lib stdHash order { symbol, data := document.json }).2 := by
  simp only [snd_hash]
  obtain ⟨hordered, hunaffected⟩ :=
    Json.unaffected_readNumbers lib document.ordered order.keys_ne_nil
  rw [(Json.readNumbers_eq_iff lib hordered order.keys_ne_nil).2 hunaffected]

theorem fst_hash_of_error {book : OrderBook} {e : CppException}
    (h : (book.data.readNumbers lib order.keys).1 = .error e) :
    (hash lib stdHash order book).1 = -1 := by
  obtain ⟨hresult, -⟩ := reads_hashData lib order book
  rw [h] at hresult
  unfold hash
  split
  · next hok =>
      rw [hok] at hresult
      exact absurd hresult (by simp [Except.map])
  · rfl

/-- A second call returns what the first has returned, and changes nothing. -/
theorem hash_hash (symbol : String) (document : JsonDocument) :
    hash lib stdHash order (hash lib stdHash order { symbol, data := document.json }).2 =
      hash lib stdHash order { symbol, data := document.json } := by
  refine Prod.ext ?_ (hash_hash_data lib stdHash order symbol document)
  have hagain := Json.readNumbers_readNumbers lib document.ordered order.keys
  rw [snd_hash]
  cases hread : (document.json.readNumbers lib order.keys).1 with
  | error e =>
      rw [hread] at hagain
      rw [fst_hash_of_error lib stdHash order (e := e) (congrArg Prod.fst hagain),
        fst_hash_of_error lib stdHash order hread]
  | ok u =>
      have hsame : (document.json.readNumbers lib order.keys).2 = document.json :=
        Json.readNumbers_of_ok document.ordered hread
      simp only [hsame]

end OrderBook

end MarketFeed
