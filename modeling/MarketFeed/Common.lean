import MarketFeed.Utils.Parser

set_option autoImplicit false

/-! # Order books and messages (`include/common.h`) -/

namespace MarketFeed

/-- `struct OrderBook`, the only kind of `BaseData`. -/
structure OrderBook where
  symbol : String
  data : Json

/-- `OrderBook(symbol, data)` parses its payload. -/
def OrderBook.new (lib : JsonLib) (symbol : String) (data : Bytes) :
    Except CppException OrderBook :=
  match parseJsonString lib data with
  | .error e => .error e
  | .ok data => .ok { symbol, data }

/-- `Msg::Type` -/
inductive MsgType where
  | none
  | orderBook
  | order
  | trade
  | account
  | position
deriving DecidableEq, Repr

/-- `Msg::Source` -/
inductive MsgSource where
  | none
  | restApi
  | webSocket
deriving DecidableEq, Repr

/-- `struct Msg`; `data` is a shared pointer, null by default. -/
structure Msg where
  type : MsgType := .none
  source : MsgSource := .none
  data : Option OrderBook := none

/-- The default-constructed message fills the slots of a new queue. -/
instance : Inhabited Msg := ⟨{}⟩

namespace Msg

/-- `Msg::createMsg` -/
def createMsg (lib : JsonLib) (source : MsgSource) (type : MsgType) (symbol : String)
    (data : Bytes) : Except CppException Msg :=
  if type = .orderBook then
    match OrderBook.new lib symbol data with
    | .error e => .error e
    | .ok book => .ok { type, source, data := some book }
  else .ok { type, source }

/-- `Msg::valid` looks at the tags and the pointer, not at the document behind it. -/
def valid (m : Msg) : Bool :=
  decide (m.type ≠ .none) && decide (m.source ≠ .none) && m.data.isSome

/-- The symbol of the order book a message carries. -/
def symbol (m : Msg) : Option String := m.data.map (·.symbol)

/-- A WebSocket order book of `symbol` with update id `U`. -/
def update (symbol : String) (U : UInt64) : Msg where
  type := .orderBook
  source := .webSocket
  data := some { symbol, data := .object [("U", .numberUnsigned U)] }

/-- A REST order book of `symbol`. -/
def snapshot (symbol : String) : Msg where
  type := .orderBook
  source := .restApi
  data := some { symbol, data := .object [] }

end Msg

end MarketFeed
