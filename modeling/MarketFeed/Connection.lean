import MarketFeed.Cache.History

set_option autoImplicit false

/-! # `ConnectionHandler::on_data` (`include/connection.h`, `restapi.h`, `websocket.h`)

The two handlers differ in the source they tag their messages with, and that decides which documents
`encache` can digest. `on_data` has no exception handler of its own and runs inside
`io_context::run` of a feed thread, so what it throws ends the program.

`onData_eq` reduces `on_data` to the parsed document; `onData_harmless_iff` says exactly which
payloads, in which cache states, it survives without a trace. -/

namespace MarketFeed

open LockFreeQueue

/-- `Msg WebSocketHandler::parse(const std::string& data_str)` -/
def WebSocketHandler.parse (lib : JsonLib) (symbol : String) (dataStr : Bytes) :
    Except CppException Msg :=
  Msg.createMsg lib .webSocket .orderBook symbol dataStr

/-- `Msg RestApiHandler::parse(const std::string& data_str)` -/
def RestApiHandler.parse (lib : JsonLib) (symbol : String) (dataStr : Bytes) :
    Except CppException Msg :=
  Msg.createMsg lib .restApi .orderBook symbol dataStr

/-- A handler bound to a cache, with the `symbol_` it tags its messages with. -/
inductive ConnectionHandler where
  | restApi (symbol : String)
  | webSocket (symbol : String)
deriving DecidableEq, Repr

namespace ConnectionHandler

def symbol : ConnectionHandler → String
  | restApi symbol => symbol
  | webSocket symbol => symbol

def source : ConnectionHandler → MsgSource
  | restApi _ => .restApi
  | webSocket _ => .webSocket

/-- `virtual Msg parse(const std::string& data_str)` -/
def parse (lib : JsonLib) (h : ConnectionHandler) (dataStr : Bytes) : Except CppException Msg :=
  match h with
  | restApi symbol => RestApiHandler.parse lib symbol dataStr
  | webSocket symbol => WebSocketHandler.parse lib symbol dataStr

/-- `void on_data(const std::string& data_str)`, with the cache it leaves behind. -/
def onData (lib : JsonLib) (h : ConnectionHandler) (c : Cache) (dataStr : Bytes) :
    Except CppException Unit × Cache :=
  match h.parse lib dataStr with
  | .error e => (.error e, c)
  | .ok msg =>
      if msg.valid then ((c.encache lib msg).1.map fun _ => (), (c.encache lib msg).2)
      else (.ok (), c)

/-- The message the handler makes of a document. -/
def message (h : ConnectionHandler) (data : Json) : Msg where
  type := .orderBook
  source := h.source
  data := some { symbol := h.symbol, data }

variable {lib : JsonLib} {h : ConnectionHandler} {c : Cache} {payload : Bytes}

theorem parse_eq (lib : JsonLib) (h : ConnectionHandler) (payload : Bytes) :
    h.parse lib payload = (parseJsonString lib payload).map h.message := by
  have hcreate : ∀ source symbol, Msg.createMsg lib source .orderBook symbol payload
      = (parseJsonString lib payload).map fun data =>
        { type := .orderBook, source, data := some { symbol, data } } := by
    intro source symbol
    unfold Msg.createMsg OrderBook.new
    cases parseJsonString lib payload with
    | error e => rfl
    | ok data => rfl
  cases h with
  | restApi symbol => exact hcreate .restApi symbol
  | webSocket symbol => exact hcreate .webSocket symbol

/-- No document is invalid: `valid` never looks at it. -/
@[simp] theorem valid_message (h : ConnectionHandler) (data : Json) :
    (h.message data).valid = true := by
  cases h <;> rfl

theorem onData_eq (lib : JsonLib) (h : ConnectionHandler) (c : Cache) (payload : Bytes) :
    h.onData lib c payload =
      match parseJsonString lib payload with
      | .error e => (.error e, c)
      | .ok data =>
          ((c.encache lib (h.message data)).1.map fun _ => (),
            (c.encache lib (h.message data)).2) := by
  unfold onData
  rw [parse_eq]
  cases parseJsonString lib payload with
  | error e => rfl
  | ok data => exact if_pos (h.valid_message data)

/-! ## Which payloads are harmless -/

/-- The document is an object with the fields the source needs: `encache` reads `"U"` of a WebSocket
    message and nothing of a REST message. -/
def Needs (h : ConnectionHandler) (data : Json) : Prop :=
  match h with
  | restApi _ => data.IsObject
  | webSocket _ => data.HasNumber "U"

/-- The payload parses to a document with the fields its source needs. -/
def WellFormed (lib : JsonLib) (h : ConnectionHandler) (payload : Bytes) : Prop :=
  ∃ data, lib.parse payload = .ok data ∧ h.Needs data

/-- No exception leaves `on_data`, and a payload that is not well formed leaves the cache alone. -/
def Harmless (lib : JsonLib) (h : ConnectionHandler) (c : Cache) (payload : Bytes) : Prop :=
  (h.onData lib c payload).1 = .ok () ∧
    (¬ h.WellFormed lib payload → (h.onData lib c payload).2 = c)

/-- What `encache` needs of the document to return at all: of a REST document nothing, not even that
    it is one. -/
def Digests (h : ConnectionHandler) (data : Json) : Prop :=
  match h with
  | restApi _ => True
  | webSocket _ => data.HasNumber "U"

theorem rank_message_isOk_iff (lib : JsonLib) (h : ConnectionHandler) (data : Json) :
    (∃ id, (h.message data).rank lib = .ok id) ↔ h.Digests data := by
  cases h with
  | restApi symbol => exact iff_of_true ⟨none, rfl⟩ trivial
  | webSocket symbol =>
      refine Iff.trans ?_ (OrderBook.updateId_isOk_iff lib { symbol, data })
      cases hid : OrderBook.updateId lib { symbol, data } with
      | error e => simp [Msg.rank, message, source, ConnectionHandler.symbol, hid]
      | ok U => simp [Msg.rank, message, source, ConnectionHandler.symbol, hid]

/-- `on_data` returns exactly if the parser does not throw and `encache` digests what it returns. -/
theorem onData_ok_iff :
    (h.onData lib c payload).1 = .ok () ↔
      ∃ data, parseJsonString lib payload = .ok data ∧ h.Digests data := by
  rw [onData_eq]
  cases parseJsonString lib payload with
  | error e => simp
  | ok data =>
      have hmap : (c.encache lib (h.message data)).1.map (fun _ => ()) = .ok () ↔
          ∃ b, (c.encache lib (h.message data)).1 = .ok b := by
        simp [map_eq_ok_iff]
      show (c.encache lib (h.message data)).1.map (fun _ => ()) = .ok () ↔ _
      rw [hmap, Cache.encache_isOk_iff, rank_message_isOk_iff]
      simp

/-- A WebSocket handler survives exactly the well-formed payloads: a text that is not JSON becomes
    null, and null has no `"U"` to convert. -/
theorem onData_webSocket_ok_iff {symbol : String} :
    ((webSocket symbol).onData lib c payload).1 = .ok () ↔
      (webSocket symbol).WellFormed lib payload := by
  rw [onData_ok_iff]
  unfold WellFormed parseJsonString
  split
  · next data hparse => simp [hparse, Needs, Digests]
  · next hparse => simp [hparse, Digests, Json.HasNumber]
  · next hparse => simp [hparse]

/-- A REST handler puts whatever the parser returns into the queue. -/
theorem onData_restApi_eq {symbol : String} {data : Json}
    (hdata : parseJsonString lib payload = .ok data) :
    (restApi symbol).onData lib c payload
      = (.ok (), (c.enqueue ((restApi symbol).message data)).2) := by
  have hrank : ((restApi symbol).message data).rank lib = .ok none := rfl
  rw [onData_eq, hdata]
  simp only [Cache.encache_unranked hrank]
  rfl

/-- A REST handler leaves a reachable cache as it found it exactly if the queue was full. -/
theorem onData_restApi_snd_eq_iff {symbol : String} {data : Json} {d : ℕ} {held : List Msg}
    (hrep : c.cacheQueue.Represents d held) (hdata : parseJsonString lib payload = .ok data) :
    ((restApi symbol).onData lib c payload).2 = c ↔ c.cacheQueue.Full := by
  rw [onData_restApi_eq hdata, ← hrep.enqueue_snd_eq_iff_full ((restApi symbol).message data)]
  exact ⟨fun h => congrArg Cache.cacheQueue h, fun h => by unfold Cache.enqueue; rw [h]⟩

/-- **Which payloads are harmless.** In every reachable cache state, exactly the well-formed ones,
    and for a REST handler also those on which the parser does not throw while the queue is full. -/
theorem onData_harmless_iff (lib : JsonLib) (cap : Capacity) (u₀ : UInt64) (ops : List CacheOp)
    (h : ConnectionHandler) (payload : Bytes) :
    let c := (Cache.fresh cap u₀).after lib ops
    h.Harmless lib c payload ↔
      h.WellFormed lib payload ∨
        (h.source = .restApi ∧ lib.parse payload ≠ .error .outOfRange ∧ c.cacheQueue.Full) := by
  intro c
  have hrep := (Cache.represents_fresh lib cap u₀ ops).2
  cases h with
  | webSocket symbol =>
      unfold Harmless
      rw [onData_webSocket_ok_iff]
      constructor
      · exact fun hharmless => Or.inl hharmless.1
      · rintro (hwell | ⟨hsource, -⟩)
        · exact ⟨hwell, fun hnot => absurd hwell hnot⟩
        · exact absurd hsource (by simp [source])
  | restApi symbol =>
      have hparse : ((restApi symbol).onData lib c payload).1 = .ok () ↔
          lib.parse payload ≠ .error .outOfRange := by
        rw [onData_ok_iff, ← parseJsonString_isOk_iff]
        simp [Digests]
      have hwell : (restApi symbol).WellFormed lib payload →
          lib.parse payload ≠ .error .outOfRange := by
        rintro ⟨data, hdata, -⟩
        simp [hdata]
      unfold Harmless
      rw [hparse]
      constructor
      · rintro ⟨hreturns, hsame⟩
        by_cases hw : (restApi symbol).WellFormed lib payload
        · exact Or.inl hw
        · obtain ⟨data, hdata⟩ := (parseJsonString_isOk_iff lib payload).2 hreturns
          exact Or.inr ⟨rfl, hreturns, (onData_restApi_snd_eq_iff hrep hdata).1 (hsame hw)⟩
      · rintro (hw | ⟨-, hreturns, hfull⟩)
        · exact ⟨hwell hw, fun hnot => absurd hw hnot⟩
        · obtain ⟨data, hdata⟩ := (parseJsonString_isOk_iff lib payload).2 hreturns
          exact ⟨hreturns, fun _ => (onData_restApi_snd_eq_iff hrep hdata).2 hfull⟩

/-- An empty object from a WebSocket throws out of `on_data`; a text that is not JSON from a REST
    endpoint is queued as null. -/
theorem onData_harmless_fails :
    ((webSocket "btcusdt").onData .sample (.fresh .default 0) [0x7b, 0x7d]).1
        = .error (.typeError 302 "type must be number, but is null") ∧
      ¬ (webSocket "btcusdt").Harmless .sample (.fresh .default 0) [0x7b, 0x7d] ∧
      ((restApi "btcusdt").onData .sample (.fresh .default 0) []).2.decache.1
        = some ((restApi "btcusdt").message .null) ∧
      ¬ (restApi "btcusdt").Harmless .sample (.fresh .default 0) [] := by
  refine ⟨rfl, fun h => ?_, rfl, fun h => ?_⟩
  · have hthrows : ((webSocket "btcusdt").onData .sample (.fresh .default 0) [0x7b, 0x7d]).1
        = .error (.typeError 302 "type must be number, but is null") := rfl
    exact absurd (hthrows.symm.trans h.1) (by simp)
  · have hbad : ¬ (restApi "btcusdt").WellFormed .sample [] := by
      rintro ⟨data, hdata, -⟩
      exact absurd hdata (by simp [JsonLib.sample])
    have htail := congrArg (fun c : Cache => c.cacheQueue.tail) (h.2 hbad)
    exact absurd htail (by decide)

end ConnectionHandler

end MarketFeed
