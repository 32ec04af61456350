import MarketFeed.Config
import MarketFeed.ConnectionManager
import MarketFeed.Feed

set_option autoImplicit false

/-! # `Client` (`include/client.h`, `src/client.cpp`)

`setup` makes one `io_context` and one `ConnectionManager` for every subscription, and binds the
handlers of all of them and the consumer to the one cache the constructor has made.

`setup_wired_iff` says for which configurations each value arrives at the connection it is meant
for, and `accepted_subscribed` what that means for the feed: whatever the servers send, the cache
takes messages of subscribed symbols only. -/

namespace MarketFeed

/-- What `iocs_` points to: the vectors `setup` makes are numbered in their order. -/
structure IoContexts where
  vector : ℕ
  size : UInt64
deriving DecidableEq, Repr

/-- The virtual functions that `setup` binds to the consumer. -/
inductive ClientCallback where
  | onOrderBookWS
  | onOrderBookREST
deriving DecidableEq, Repr

/-- The members of `Consumer` that are bound before it runs. -/
structure ConsumerBinding where
  bufferQueue : Option CacheId
  callbackOnOrderBookWS : Option ClientCallback
  callbackOnOrderBookREST : Option ClientCallback
deriving DecidableEq, Repr

namespace ConsumerBinding

/-- The constructor of `Consumer` binds nothing. -/
def new : ConsumerBinding where
  bufferQueue := none
  callbackOnOrderBookWS := none
  callbackOnOrderBookREST := none

/-- `void Consumer::bind_cache(std::shared_ptr<Cache> buffer_queue)` -/
def bindCache (consumer : ConsumerBinding) (bufferQueue : Option CacheId) : ConsumerBinding :=
  { consumer with bufferQueue }

/-- `void Consumer::bind_callback_onOrderBook(callback, bool is_ws)` -/
def bindCallbackOnOrderBook (consumer : ConsumerBinding) (callback : ClientCallback)
    (isWs : Bool) : ConsumerBinding :=
  if isWs then { consumer with callbackOnOrderBookWS := some callback }
  else { consumer with callbackOnOrderBookREST := some callback }

end ConsumerBinding

/-- The exceptions that leave `setup`. -/
inductive SetupException where
  /-- `std::length_error`, from the constructor of `std::vector` -/
  | lengthError
deriving DecidableEq, Repr

/-- The members of `Client`, less its logger and what `run` adds. -/
structure Client where
  cfg : Config
  nInstrument : Int32
  iocs : Option IoContexts
  bufferQueue : Option CacheId
  connectionManagers : List ConnectionManager
  consumer : Option ConsumerBinding

namespace Client

/-- The constructor of `Client`: it makes a cache, and leaves in `n_instrument_` what the memory
    held. -/
def new (cfg : Config) (memory : Int32) (cache : CacheId) : Client where
  cfg := cfg
  nInstrument := memory
  iocs := none
  bufferQueue := some cache
  connectionManagers := []
  consumer := none

/-- `std::make_shared<std::vector<asio::io_context>>(n)`. How many elements a vector may have
    depends on their size, but `n` comes from an `int`: it is below 2^31, or above any limit. -/
def makeIoContexts (client : Client) (n : UInt64) : Except SetupException IoContexts :=
  if Int64.maxValue.toUInt64 < n then .error .lengthError
  else .ok { vector := client.iocs.elim 0 (·.vector + 1), size := n }

/-- `endpoint_restapi` -/
def endpointRestapi (subscription : Config.Subscription) : String :=
  "/fapi/v1/" ++ subscription.channel ++ "?symbol=" ++ subscription.symbol ++ "&limit=" ++
    subscription.limit

/-- `endpoint_ws` -/
def endpointWs (subscription : Config.Subscription) : String :=
  "/ws/" ++ subscription.symbol ++ "@" ++ subscription.channel ++ subscription.limit

/-- The manager `setup` makes for a subscription. -/
def connectionManager (client : Client) (iocs : IoContexts) (i : ℕ)
    (subscription : Config.Subscription) : ConnectionManager :=
  let connectionManager := ConnectionManager.new
    subscription.symbol
    { vector := iocs.vector, index := i }
    client.cfg.setup.hostRestapi client.cfg.setup.portRestapi (endpointRestapi subscription)
    client.cfg.setup.hostWs client.cfg.setup.portWs (endpointWs subscription)
    client.cfg.setup.replicasRestapi client.cfg.setup.replicasWs
    client.cfg.setup.periodRestapi
  connectionManager.bindCache client.bufferQueue

/-- The body of the loop over the subscriptions. -/
def setupInstrument (cfg : Config) (iocs : IoContexts) (i : ℕ) (client : Client) : Client :=
  match cfg.subscriptions[i]? with
  -- out of range: the counter stays below `size()`
  | none => client
  | some subscription =>
      let connectionManager := client.connectionManager iocs i subscription
      { client with connectionManagers := client.connectionManagers ++ [connectionManager] }

/-- `void Client::setup()`, with the client it leaves behind. -/
def setup (client : Client) : Except SetupException Unit × Client :=
  let cfg := client.cfg
  let client := { client with nInstrument := intOfSize (.ofNat cfg.subscriptions.length) }
  match client.makeIoContexts (sizeOfInt client.nInstrument) with
  | .error e => (.error e, client)
  | .ok iocs =>
      let client := { client with iocs := some iocs }
      let client := forInt client.nInstrument (setupInstrument cfg iocs) client
      let consumer := ConsumerBinding.new.bindCache client.bufferQueue
      let consumer := consumer.bindCallbackOnOrderBook .onOrderBookWS true
      let consumer := consumer.bindCallbackOnOrderBook .onOrderBookREST false
      (.ok (), { client with consumer := some consumer })

/-! ## What `setup` makes -/

/-- A client with some more managers. -/
def append (client : Client) (managers : List ConnectionManager) : Client :=
  { client with connectionManagers := client.connectionManagers ++ managers }

/-- The loop makes one manager for each subscription it reaches. -/
theorem forInt_setupInstrument (n : Int32) (cfg : Config) (iocs : IoContexts) (client : Client) :
    forInt n (setupInstrument cfg iocs) client =
      client.append ((cfg.subscriptions.take n.toInt.toNat).mapIdx
        (client.connectionManager iocs)) := by
  refine forInt_rule (fun i client' => client' = client.append
    ((cfg.subscriptions.take i).mapIdx (client.connectionManager iocs))) ?_ ?_
  · rw [List.take_zero, List.mapIdx_nil, append, List.append_nil]
  · rintro i _ - rfl
    rw [List.take_add_one, List.mapIdx_append]
    unfold setupInstrument
    cases hsub : cfg.subscriptions[i]? with
    | none => simp [append]
    | some subscription =>
        have hlt : i < cfg.subscriptions.length := (List.getElem?_eq_some_iff.1 hsub).1
        have hlength : (cfg.subscriptions.take i).length = i := by
          rw [List.length_take, Nat.min_eq_left hlt.le]
        rw [hlength]
        simp only [append, Option.toList_some, List.mapIdx_singleton, Nat.zero_add,
          List.append_assoc]
        rfl

/-- A count is a length error exactly if it is negative. -/
theorem makeIoContexts_eq (client : Client) (n : Int32) :
    client.makeIoContexts (sizeOfInt n) =
      if 0 ≤ n.toInt then
        .ok { vector := client.iocs.elim 0 (·.vector + 1), size := sizeOfInt n }
      else .error .lengthError := by
  have hmax : Int64.maxValue.toUInt64.toNat = 2 ^ 63 - 1 := rfl
  have hsize := toNat_sizeOfInt n
  have hlt := n.toInt_lt
  have hle := n.le_toInt
  unfold makeIoContexts
  split at hsize
  · next hn =>
      have hfits : ¬ Int64.maxValue.toUInt64 < sizeOfInt n := by
        rw [UInt64.lt_iff_toNat_lt]
        omega
      rw [if_neg hfits, if_pos hn]
  · next hn =>
      have hlong : Int64.maxValue.toUInt64 < sizeOfInt n := by
        rw [UInt64.lt_iff_toNat_lt]
        omega
      rw [if_pos hlong, if_neg hn]

/-- The consumer `setup` makes. -/
def consumerBinding (client : Client) : ConsumerBinding where
  bufferQueue := client.bufferQueue
  callbackOnOrderBookWS := some .onOrderBookWS
  callbackOnOrderBookREST := some .onOrderBookREST

/-- `setup`, where it returns: one manager for each of the first `n_instrument_` subscriptions, and
    a consumer bound to the cache. -/
theorem setup_ok {client client' : Client} (h : client.setup = (.ok (), client')) :
    let n := intOfSize (.ofNat client.cfg.subscriptions.length)
    ∃ iocs, client.makeIoContexts (sizeOfInt n) = .ok iocs ∧
      client' = { client.append ((client.cfg.subscriptions.take n.toInt.toNat).mapIdx
          (client.connectionManager iocs)) with
        nInstrument := n
        iocs := some iocs
        consumer := some client.consumerBinding } := by
  intro n
  unfold setup at h
  simp only [forInt_setupInstrument] at h
  split at h
  · exact absurd h (by simp)
  · next iocs hiocs => exact ⟨iocs, hiocs, (Prod.ext_iff.1 h).2.symm⟩

theorem setup_returns (client : Client) (h : client.cfg.subscriptions.length < 2 ^ 31) :
    ∃ client', client.setup = (.ok (), client') := by
  have hnonneg : 0 ≤ (intOfSize (.ofNat client.cfg.subscriptions.length)).toInt := by
    rw [toInt_intOfSize h]
    exact Int.natCast_nonneg _
  unfold setup
  simp only [makeIoContexts_eq, if_pos hnonneg]
  exact ⟨_, rfl⟩

theorem connectionManagers_setup {client client' : Client} (h : client.setup = (.ok (), client'))
    (hint : client.cfg.subscriptions.length < 2 ^ 31) :
    ∃ iocs, client'.connectionManagers = client.connectionManagers ++
      client.cfg.subscriptions.mapIdx (client.connectionManager iocs) := by
  obtain ⟨iocs, -, rfl⟩ := setup_ok h
  refine ⟨iocs, ?_⟩
  simp only [append, toInt_intOfSize hint, Int.toNat_natCast, List.take_length]

/-! ## From the configuration to the wire -/

variable (http : HttpFields) (setup : Config.Setup) (subscription : Config.Subscription)

/-- A REST handler that polls what the configuration and the subscription say, and names in its
    request the host it connects to. -/
def RestApiWired (h : ManagedHandler) : Prop :=
  ∃ connection, h.derived = .restApi connection ∧
    connection.query = (setup.hostRestapi, setup.portRestapi) ∧
    connection.pollingInterval.toInt = setup.periodRestapi.toInt ∧
    connection.req.target = "/fapi/v1/" ++ subscription.channel ++ "?symbol=" ++
      subscription.symbol ++ "&limit=" ++ subscription.limit ∧
    http.get? connection.req .host = some connection.host

/-- A WebSocket handler that opens the stream the configuration and the subscription say. -/
def WebSocketWired (h : ManagedHandler) : Prop :=
  ∃ session, h.derived = .webSocket session ∧ session.host = setup.hostWs ∧
    session.port = setup.portWs ∧
    session.endpoint = "/ws/" ++ subscription.symbol ++ "@" ++ subscription.channel ++
      subscription.limit

/-- The manager of a subscription: its REST handlers, then its WebSocket handlers, all carrying the
    symbol and bound to the cache. -/
structure ManagerWired (cache : CacheId) (m : ConnectionManager) : Prop where
  replicas : ∃ rest ws, m.handlers = rest ++ ws ∧
    (rest.length : ℤ) = max 0 setup.replicasRestapi.toInt ∧
    (ws.length : ℤ) = max 0 setup.replicasWs.toInt ∧
    (∀ h ∈ rest, RestApiWired http setup subscription h) ∧
    ∀ h ∈ ws, WebSocketWired setup subscription h
  bound : ∀ h ∈ m.handlers, h.symbol = subscription.symbol ∧ h.bufferQueue = some cache

/-- One manager for each subscription, all handlers bound to the cache of the consumer. -/
def Wired (cfg : Config) (client : Client) : Prop :=
  ∃ consumer cache, client.consumer = some consumer ∧ consumer.bufferQueue = some cache ∧
    client.connectionManagers.length = cfg.subscriptions.length ∧
    ∀ (i : ℕ) subscription m, cfg.subscriptions[i]? = some subscription →
      client.connectionManagers[i]? = some m → ManagerWired http cfg.setup subscription cache m

variable {http} {setup} {subscription}

/-- A new REST handler is as it should be exactly if it connects to the host its requests name. -/
theorem restApiWired_connection_iff {m : ConnectionManager}
    (hperiod : m.periodRestapi = setup.periodRestapi) (buffer : Option CacheId) :
    RestApiWired http setup subscription ((m.connection setup.hostRestapi setup.portRestapi
        (endpointRestapi subscription) false).bindCache buffer) ↔
      setup.hostRestapi = "fapi.binance.com" := by
  have hheader := RestApiConnection.get?_host_req http .new setup.hostRestapi setup.portRestapi
    (endpointRestapi subscription) m.periodRestapi.toInt64
  constructor
  · rintro ⟨connection, hderived, -, -, -, hhost⟩
    obtain rfl := DerivedHandler.restApi.inj hderived
    exact (Option.some.inj (hheader.symm.trans hhost)).symm
  · intro hhost
    refine ⟨_, rfl, rfl, ?_, rfl, hheader.trans (congrArg some hhost.symm)⟩
    exact (Int32.toInt_toInt64 _).trans (congrArg Int32.toInt hperiod)

theorem webSocketWired_connection (m : ConnectionManager) (buffer : Option CacheId) :
    WebSocketWired setup subscription ((m.connection setup.hostWs setup.portWs
      (endpointWs subscription) true).bindCache buffer) :=
  ⟨_, rfl, rfl, rfl, rfl⟩

/-- A manager made by `setup`: copies of one REST handler, then copies of one WebSocket handler. The
    latter is always as it should be, the former for one host. -/
theorem handlers_connectionManager (http : HttpFields) (client : Client) (iocs : IoContexts) (i : ℕ)
    (subscription : Config.Subscription) :
    ∃ rest ws, (client.connectionManager iocs i subscription).handlers =
        List.replicate client.cfg.setup.replicasRestapi.toInt.toNat rest ++
        List.replicate client.cfg.setup.replicasWs.toInt.toNat ws ∧
      (RestApiWired http client.cfg.setup subscription rest ↔
        client.cfg.setup.hostRestapi = "fapi.binance.com") ∧
      WebSocketWired client.cfg.setup subscription ws ∧
      ∀ h, h = rest ∨ h = ws → h.symbol = subscription.symbol ∧
        h.bufferQueue = client.bufferQueue ∧
        h.ioContext = { vector := iocs.vector, index := i } := by
  unfold connectionManager
  simp only [ConnectionManager.new_eq, ConnectionManager.bindCache, ConnectionManager.append,
    List.map_append, List.map_replicate]
  refine ⟨_, _, rfl, restApiWired_connection_iff rfl _, webSocketWired_connection _ _, ?_⟩
  rintro h (rfl | rfl)
  · exact ⟨rfl, rfl, rfl⟩
  · exact ⟨rfl, rfl, rfl⟩

theorem members_of_mem_handlers {client : Client} {iocs : IoContexts} {i : ℕ}
    {subscription : Config.Subscription} {h : ManagedHandler}
    (hh : h ∈ (client.connectionManager iocs i subscription).handlers) :
    h.symbol = subscription.symbol ∧ h.bufferQueue = client.bufferQueue ∧
      h.ioContext = { vector := iocs.vector, index := i } := by
  obtain ⟨rest, ws, hhandlers, -, -, hmembers⟩ :=
    client.handlers_connectionManager .lastSet iocs i subscription
  rw [hhandlers] at hh
  rcases List.mem_append.1 hh with hrest | hws
  · exact hmembers h (Or.inl (List.mem_replicate.1 hrest).2)
  · exact hmembers h (Or.inr (List.mem_replicate.1 hws).2)

/-- The manager of a subscription is as it should be exactly if it has no REST handlers, or they
    connect to the host that their requests name. -/
theorem managerWired_iff (http : HttpFields) (client : Client) (iocs : IoContexts) (i : ℕ)
    (subscription : Config.Subscription) {cache : CacheId}
    (hcache : client.bufferQueue = some cache) :
    ManagerWired http client.cfg.setup subscription cache
        (client.connectionManager iocs i subscription) ↔
      client.cfg.setup.replicasRestapi ≤ 0 ∨
        client.cfg.setup.hostRestapi = "fapi.binance.com" := by
  obtain ⟨rest, ws, hhandlers, hrest, hws, -⟩ :=
    client.handlers_connectionManager http iocs i subscription
  have hnone : client.cfg.setup.replicasRestapi ≤ 0 ↔
      client.cfg.setup.replicasRestapi.toInt.toNat = 0 := by
    rw [Int32.le_iff_toInt_le, Int32.toInt_zero]
    omega
  rw [← hrest, hnone]
  constructor
  · rintro ⟨⟨rest', ws', hsplit, hlength, -, hrest', -⟩, -⟩
    by_cases hzero : client.cfg.setup.replicasRestapi.toInt.toNat = 0
    · exact Or.inl hzero
    · have hfirst : rest' = List.replicate client.cfg.setup.replicasRestapi.toInt.toNat rest := by
        refine (List.append_inj (hsplit.symm.trans hhandlers) ?_).1
        rw [List.length_replicate]
        omega
      refine Or.inr (hrest' rest ?_)
      rw [hfirst]
      exact List.mem_replicate.2 ⟨hzero, rfl⟩
  · intro hright
    refine ⟨⟨_, _, hhandlers, ?_, ?_, fun h hh => ?_, fun h hh => ?_⟩, fun h hh => ?_⟩
    · rw [List.length_replicate]
      omega
    · rw [List.length_replicate]
      omega
    · obtain ⟨hsome, rfl⟩ := List.mem_replicate.1 hh
      exact hright.resolve_left hsome
    · exact (List.mem_replicate.1 hh).2 ▸ hws
    · obtain ⟨hsymbol, hbound, -⟩ := members_of_mem_handlers hh
      exact ⟨hsymbol, hbound.trans hcache⟩

theorem setup_new_ok {cfg : Config} {memory : Int32} {cache : CacheId} {client : Client}
    (h : (Client.new cfg memory cache).setup = (.ok (), client))
    (hint : cfg.subscriptions.length < 2 ^ 31) :
    client.consumer = some (Client.new cfg memory cache).consumerBinding ∧
      client.connectionManagers.length = cfg.subscriptions.length ∧
      ∃ iocs, ∀ i : ℕ, client.connectionManagers[i]? =
        cfg.subscriptions[i]?.map ((Client.new cfg memory cache).connectionManager iocs i) := by
  obtain ⟨iocs, hmade⟩ := connectionManagers_setup h hint
  have hall : client.connectionManagers =
      cfg.subscriptions.mapIdx ((Client.new cfg memory cache).connectionManager iocs) := hmade
  obtain ⟨_, -, rfl⟩ := setup_ok h
  refine ⟨rfl, ?_, iocs, fun i => ?_⟩
  · rw [hall, List.length_mapIdx]
  · rw [hall, List.getElem?_mapIdx]

/-- **From the configuration to the wire.** After `setup` every value of the configuration is where
    it belongs exactly if the number of subscriptions is an `int` and no REST handler connects to
    another host than the one `setEndpoint` names. -/
theorem setup_wired_iff (http : HttpFields) (cfg : Config) (memory : Int32) (cache : CacheId) :
    (∃ client, (Client.new cfg memory cache).setup = (.ok (), client) ∧ Wired http cfg client) ↔
      cfg.subscriptions.length < 2 ^ 31 ∧
        (cfg.subscriptions = [] ∨ cfg.setup.replicasRestapi ≤ 0 ∨
          cfg.setup.hostRestapi = "fapi.binance.com") := by
  constructor
  · rintro ⟨client, hsetup, consumer, cache', hconsumer, hcache, hlength, hmanagers⟩
    have hint : cfg.subscriptions.length < 2 ^ 31 := by
      obtain ⟨iocs, -, rfl⟩ := setup_ok hsetup
      -- the loop counter is an `int`, and there is no manager beyond it
      have hlt := (intOfSize (.ofNat cfg.subscriptions.length)).toInt_lt
      simp only [append, Client.new, List.nil_append, List.length_mapIdx, List.length_take]
        at hlength
      omega
    obtain ⟨hbinding, -, iocs, hmade⟩ := setup_new_ok hsetup hint
    obtain rfl := Option.some.inj (hbinding.symm.trans hconsumer)
    refine ⟨hint, ?_⟩
    cases hsubs : cfg.subscriptions with
    | nil => exact Or.inl rfl
    | cons subscription rest =>
        have hfirst : cfg.subscriptions[0]? = some subscription := by
          rw [hsubs]
          rfl
        have hwired := hmanagers 0 subscription _ hfirst ((hmade 0).trans (by rw [hfirst]; rfl))
        exact Or.inr ((managerWired_iff http (Client.new cfg memory cache) iocs 0 subscription
          hcache).1 hwired)
  · rintro ⟨hint, hhost⟩
    obtain ⟨client, hsetup⟩ := setup_returns (Client.new cfg memory cache) hint
    obtain ⟨hbinding, hlength, iocs, hmade⟩ := setup_new_ok hsetup hint
    refine ⟨client, hsetup, _, cache, hbinding, rfl, hlength, fun i subscription m hsub hm => ?_⟩
    have hne : cfg.subscriptions ≠ [] := by
      rintro hnil
      rw [hnil] at hsub
      exact absurd hsub (by simp)
    rw [hmade, hsub] at hm
    obtain rfl := Option.some.inj hm
    exact (managerWired_iff http (Client.new cfg memory cache) iocs i subscription rfl).2
      (hhost.resolve_left hne)

/-- A configuration for another host than the one `setEndpoint` names. -/
def testnet : Config where
  setup := {
    hostRestapi := "testnet.binancefuture.com"
    portRestapi := "443"
    hostWs := "stream.binancefuture.com"
    portWs := "443"
    replicasRestapi := 1
    replicasWs := 0
    periodRestapi := 1 }
  subscriptions := [⟨"btcusdt", "depth", "5"⟩]

/-- The REST handler connects to one host and sends a request for another. -/
theorem setup_testnet_not_wired : ∃ client m h connection,
    (Client.new testnet 0 0).setup = (.ok (), client) ∧ client.connectionManagers = [m] ∧
      m.handlers = [h] ∧ h.derived = .restApi connection ∧
      connection.query = ("testnet.binancefuture.com", "443") ∧
      HttpFields.lastSet.get? connection.req .host = some "fapi.binance.com" ∧
      ¬ Wired .lastSet testnet client := by
  refine ⟨_, _, _, _, rfl, rfl, rfl, rfl, rfl, rfl, ?_⟩
  rintro ⟨consumer, cache, hconsumer, hcache, -, hmanagers⟩
  obtain rfl := Option.some.inj hconsumer
  have hwired := hmanagers 0 _ _ rfl rfl
  have hright := (managerWired_iff .lastSet (Client.new testnet 0 0) ⟨0, 1⟩ 0
    ⟨"btcusdt", "depth", "5"⟩ hcache).1 hwired
  exact absurd hright (by decide)

/-! ## From the wire to the cache -/

/-- The handlers of all managers, as their `on_data` is called. -/
def receivers (client : Client) : List ConnectionHandler :=
  client.connectionManagers.flatMap fun m => m.handlers.map (·.connectionHandler)

/-- After `setup` every handler tags its messages with a subscribed symbol. -/
theorem subscribed_of_mem_receivers {cfg : Config} {memory : Int32} {cache : CacheId}
    {client : Client} (h : (Client.new cfg memory cache).setup = (.ok (), client)) :
    ∀ receiver ∈ client.receivers, ∃ subscription ∈ cfg.subscriptions,
      receiver.symbol = subscription.symbol := by
  intro receiver hreceiver
  obtain ⟨iocs, -, rfl⟩ := setup_ok h
  obtain ⟨m, hm, hreceiver⟩ := List.mem_flatMap.1 hreceiver
  obtain ⟨handler, hhandler, rfl⟩ := List.mem_map.1 hreceiver
  obtain ⟨i, hi, rfl⟩ := List.mem_mapIdx.1 hm
  refine ⟨_, List.mem_of_mem_take (List.getElem_mem hi), ?_⟩
  rw [ManagedHandler.symbol_connectionHandler]
  exact (members_of_mem_handlers hhandler).1

/-- **Only what was subscribed.** In every run of the feed of a client that has been set up,
    whatever its handlers receive, every message the cache accepts carries the symbol of a
    subscription. -/
theorem accepted_subscribed {lib : JsonLib} {cfg : Config} {memory : Int32} {cache : CacheId}
    {client : Client} {c : Cache} {acts : List FeedAction} {s : Feed}
    (hsetup : (Client.new cfg memory cache).setup = (.ok (), client))
    (hrun : Execution.run (Feed.step lib) (Feed.init c) acts = some s)
    (hacts : Execution.Along (Feed.step lib) (fun _ a => Feed.ReceivesAt client.receivers a)
      (Feed.init c) acts) :
    ∀ msg ∈ s.consumer.accepted, ∃ book, msg.data = some book ∧
      ∃ subscription ∈ cfg.subscriptions, book.symbol = subscription.symbol := by
  intro msg hmsg
  obtain ⟨h, hh, data, rfl⟩ := Feed.accepted_of_receivesAt hrun hacts msg hmsg
  exact ⟨_, rfl, subscribed_of_mem_receivers hsetup h hh⟩

end Client

end MarketFeed
