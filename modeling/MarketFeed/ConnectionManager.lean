import MarketFeed.Connection
import MarketFeed.RestApi
import MarketFeed.WebSocket

set_option autoImplicit false

/-! # `ConnectionManager` (`include/connection.h`, `src/connection.cpp`)

A manager creates its handlers in two counted loops, hands each of them its address through the
virtual `setEndpoint`, and binds all it holds to a cache. `RestApi.lean` and `WebSocket.lean` say
what a handler does once it runs; here are the members that it finds when it does.

`new_eq` is what the constructor leaves behind, replica by replica. -/

namespace MarketFeed

/-- A pointer to a `Cache`, by the number of the cache. -/
abbrev CacheId := ℕ

/-- A reference to an `asio::io_context`: an element of one of the vectors `Client::setup` makes. -/
structure IoContextRef where
  vector : ℕ
  index : ℕ
deriving DecidableEq, Repr

/-! ## The request -/

/-- `http::verb` -/
inductive HttpVerb where
  | unknown
  | get
deriving DecidableEq, Repr

/-- `http::field` -/
inductive HttpField where
  | host
  | accept
  | connection
deriving DecidableEq, Repr

/-- `http::request<http::string_body>`, its body being empty, by the calls that have made it: the
    arguments of the constructor, and those of `set`, oldest first. -/
structure HttpRequest where
  method : HttpVerb
  target : String
  version : ℕ
  sets : List (HttpField × String)
deriving DecidableEq, Repr

namespace HttpRequest

/-- `http::request<http::string_body>{method, target, version}` -/
def new (method : HttpVerb) (target : String) (version : ℕ) : HttpRequest :=
  { method, target, version, sets := [] }

def set (req : HttpRequest) (field : HttpField) (value : String) : HttpRequest :=
  { req with sets := req.sets ++ [(field, value)] }

end HttpRequest

/-- What is relied on of Boost.Beast, which is not modelled: a field has the value it was last set
    to. -/
structure HttpFields where
  /-- The value of a field of a request. -/
  get? : HttpRequest → HttpField → Option String
  get?_set : ∀ (req : HttpRequest) (field field' : HttpField) (value : String),
    get? (req.set field value) field' = if field' = field then some value else get? req field'

attribute [simp] HttpFields.get?_set

/-- Looking up the last call of `set`, to evaluate with. -/
def HttpFields.lastSet : HttpFields where
  get? req field := req.sets.reverse.lookup field
  get?_set req field field' value := by
    show (req.sets ++ [(field, value)]).reverse.lookup field' = _
    rw [List.reverse_append, List.reverse_singleton, List.singleton_append, List.lookup_cons]
    by_cases h : field' = field
    · simp [h]
    · simp [h, beq_eq_false_iff_ne.2 h]

/-! ## Handlers -/

/-- The members of `RestApiHandler`: those that polling changes, and those that it reads. -/
structure RestApiConnection extends RestApiHandler where
  host : String
  port : String
  endpoint : String
  /-- In seconds. -/
  pollingInterval : Int64
  req : HttpRequest

namespace RestApiConnection

/-- The constructor sets the polling interval to five seconds. -/
def new : RestApiConnection where
  toRestApiHandler := .init
  host := ""
  port := ""
  endpoint := ""
  pollingInterval := 5
  req := .new .unknown "" 11

/-- `RestApiHandler::setEndpoint` -/
def setEndpoint (h : RestApiConnection) (host port endpoint : String) : RestApiConnection :=
  let req := HttpRequest.new .get endpoint 11
  let req := req.set .host "fapi.binance.com"
  let req := req.set .accept "*/*"
  let req := req.set .connection "close"
  { h with host, port, endpoint, req }

/-- `setPollingInterval(std::chrono::seconds new_interval)` -/
def setPollingInterval (h : RestApiConnection) (newInterval : Int64) : RestApiConnection :=
  { h with pollingInterval := newInterval }

/-- The host and the service a poll asks the resolver for. -/
def query (h : RestApiConnection) : String × String := (h.host, h.port)

/-- The `Host` field is a constant. -/
theorem get?_host_req (http : HttpFields) (h : RestApiConnection) (host port endpoint : String)
    (interval : Int64) :
    http.get? ((h.setEndpoint host port endpoint).setPollingInterval interval).req .host
      = some "fapi.binance.com" := by
  simp [setEndpoint, setPollingInterval]

end RestApiConnection

/-- `WebSocketHandler::setEndpoint` -/
def WebSocketHandler.setEndpoint (h : WebSocketHandler) (host port endpoint : String) :
    WebSocketHandler :=
  { h with host, port, endpoint }

/-- The members of the class derived from `ConnectionHandler`. -/
inductive DerivedHandler where
  | restApi (h : RestApiConnection)
  | webSocket (h : WebSocketHandler)

namespace DerivedHandler

/-- `virtual void setEndpoint(host, port, endpoint)` -/
def setEndpoint (host port endpoint : String) : DerivedHandler → DerivedHandler
  | restApi h => restApi (h.setEndpoint host port endpoint)
  | webSocket h => webSocket (h.setEndpoint host port endpoint)

end DerivedHandler

/-- A handler in the possession of a manager, with the members of `ConnectionHandler`. -/
structure ManagedHandler where
  symbol : String
  ioContext : IoContextRef
  bufferQueue : Option CacheId
  derived : DerivedHandler

namespace ManagedHandler

/-- The constructor of `ConnectionHandler`: the cache is null. -/
def new (symbol : String) (ioContext : IoContextRef) (derived : DerivedHandler) : ManagedHandler :=
  { symbol, ioContext, bufferQueue := none, derived }

/-- `void ConnectionHandler::bind_cache(std::shared_ptr<Cache> buffer_queue)` -/
def bindCache (h : ManagedHandler) (bufferQueue : Option CacheId) : ManagedHandler :=
  { h with bufferQueue }

def setEndpoint (h : ManagedHandler) (host port endpoint : String) : ManagedHandler :=
  { h with derived := h.derived.setEndpoint host port endpoint }

/-- `std::dynamic_pointer_cast<RestApiHandler>(handler)->setPollingInterval(newInterval)`, on a
    handler that is one. -/
def setPollingInterval (h : ManagedHandler) (newInterval : Int64) : ManagedHandler :=
  match h.derived with
  | .restApi derived => { h with derived := .restApi (derived.setPollingInterval newInterval) }
  | .webSocket _ => h

/-- What `on_data` of the handler is called on. -/
def connectionHandler (h : ManagedHandler) : ConnectionHandler :=
  match h.derived with
  | .restApi _ => .restApi h.symbol
  | .webSocket _ => .webSocket h.symbol

@[simp] theorem symbol_connectionHandler (h : ManagedHandler) :
    h.connectionHandler.symbol = h.symbol := by
  unfold connectionHandler
  cases h.derived <;> rfl

end ManagedHandler

/-! ## The manager -/

structure ConnectionManager where
  symbol : String
  periodRestapi : Int32
  ioContext : IoContextRef
  handlers : List ManagedHandler
  buffer : Option CacheId

namespace ConnectionManager

/-- `ConnectionManager::createConnection` -/
def createConnection (m : ConnectionManager) (host port endpoint : String) (isWebsocket : Bool) :
    ConnectionManager :=
  if isWebsocket then
    let wsHandler := ManagedHandler.new m.symbol m.ioContext (.webSocket (.idle "" "" ""))
    let wsHandler := wsHandler.setEndpoint host port endpoint
    { m with handlers := m.handlers ++ [wsHandler] }
  else
    let restHandler := ManagedHandler.new m.symbol m.ioContext (.restApi .new)
    let restHandler := restHandler.setEndpoint host port endpoint
    let restHandler := restHandler.setPollingInterval m.periodRestapi.toInt64
    { m with handlers := m.handlers ++ [restHandler] }

/-- The members that the constructor initialises before its body. -/
def init (symbol : String) (ioContext : IoContextRef) (periodRestapi : Int32) :
    ConnectionManager :=
  { symbol, periodRestapi, ioContext, handlers := [], buffer := none }

/-- The constructor of `ConnectionManager`. -/
def new (symbol : String) (ioContext : IoContextRef) (hostRestapi portRestapi endpointRestapi
    hostWs portWs endpointWs : String) (replicasRestapi replicasWs periodRestapi : Int32) :
    ConnectionManager :=
  let m := init symbol ioContext periodRestapi
  let m := forInt replicasRestapi (fun _ m =>
    m.createConnection hostRestapi portRestapi endpointRestapi false) m
  forInt replicasWs (fun _ m => m.createConnection hostWs portWs endpointWs true) m

/-- `ConnectionManager::bind_cache` -/
def bindCache (m : ConnectionManager) (buffer : Option CacheId) : ConnectionManager :=
  { m with buffer, handlers := m.handlers.map (·.bindCache buffer) }

/-! ## What the constructor makes -/

/-- The handler `createConnection` adds. -/
def connection (m : ConnectionManager) (host port endpoint : String) (isWebsocket : Bool) :
    ManagedHandler where
  symbol := m.symbol
  ioContext := m.ioContext
  bufferQueue := none
  derived :=
    if isWebsocket then .webSocket (.idle host port endpoint)
    else .restApi ((RestApiConnection.new.setEndpoint host port endpoint).setPollingInterval
      m.periodRestapi.toInt64)

theorem createConnection_eq (m : ConnectionManager) (host port endpoint : String)
    (isWebsocket : Bool) : m.createConnection host port endpoint isWebsocket =
      { m with handlers := m.handlers ++ [m.connection host port endpoint isWebsocket] } := by
  cases isWebsocket <;> rfl

/-- A manager that holds some more handlers. -/
def append (m : ConnectionManager) (handlers : List ManagedHandler) : ConnectionManager :=
  { m with handlers := m.handlers ++ handlers }

/-- A counted loop around `createConnection` adds as many copies of one handler. -/
theorem forInt_createConnection (n : Int32) (m : ConnectionManager) (host port endpoint : String)
    (isWebsocket : Bool) :
    forInt n (fun _ m => m.createConnection host port endpoint isWebsocket) m =
      m.append (List.replicate n.toInt.toNat (m.connection host port endpoint isWebsocket)) := by
  refine forInt_rule (fun i m' => m' =
    m.append (List.replicate i (m.connection host port endpoint isWebsocket))) ?_ ?_
  · rw [List.replicate_zero, append, List.append_nil]
  · rintro i _ - rfl
    rw [createConnection_eq, List.replicate_succ', append, append, ← List.append_assoc]
    rfl

theorem append_append (m : ConnectionManager) (handlers handlers' : List ManagedHandler) :
    (m.append handlers).append handlers' = m.append (handlers ++ handlers') := by
  unfold append
  rw [List.append_assoc]

/-- **The replicas of a manager.** All REST handlers are alike, all WebSocket handlers are alike,
    and the REST handlers come first. -/
theorem new_eq (symbol : String) (ioContext : IoContextRef) (hostRestapi portRestapi endpointRestapi
    hostWs portWs endpointWs : String) (replicasRestapi replicasWs periodRestapi : Int32) :
    let m := init symbol ioContext periodRestapi
    new symbol ioContext hostRestapi portRestapi endpointRestapi hostWs portWs endpointWs
        replicasRestapi replicasWs periodRestapi =
      m.append (
        List.replicate replicasRestapi.toInt.toNat
          (m.connection hostRestapi portRestapi endpointRestapi false) ++
        List.replicate replicasWs.toInt.toNat (m.connection hostWs portWs endpointWs true)) := by
  intro m
  unfold new
  simp only [forInt_createConnection, append_append]
  rfl

end ConnectionManager

end MarketFeed
