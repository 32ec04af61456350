import MarketFeed.Program

set_option autoImplicit false

/-! # From the wire to the callbacks

What holds in every run of a client that has been set up and started, whatever the servers send and
in whatever order the handlers of its connections and its consumer take their steps, each call of
`on_data` being one: where the order books of the callbacks come from
(`delivers_what_was_received`), and when the replicas of a stream are merged without loss
(`merges_streams`). -/

namespace MarketFeed

open Execution HighWater
open scoped List

/-! ## The program at its start -/

@[simp] theorem ManagedHandler.connectionHandler_run (h : ManagedHandler) :
    h.run.connectionHandler = h.connectionHandler := by
  obtain ⟨symbol, ioContext, bufferQueue, derived⟩ := h
  cases derived <;> rfl

theorem Client.idle_of_mem_handlers {client : Client} {iocs : IoContexts} {i : ℕ}
    {subscription : Config.Subscription} {h : ManagedHandler}
    (hh : h ∈ (client.connectionManager iocs i subscription).handlers) {w : WebSocketHandler}
    (hw : h.derived = .webSocket w) :
    ∃ host port endpoint, w = .idle host port endpoint := by
  unfold Client.connectionManager at hh
  simp only [ConnectionManager.new_eq, ConnectionManager.bindCache, ConnectionManager.append,
    List.map_append, List.map_replicate] at hh
  rcases List.mem_append.1 hh with hnone | hmade
  · exact absurd hnone List.not_mem_nil
  · rcases List.mem_append.1 hmade with hrest | hws
    · obtain ⟨-, rfl⟩ := List.mem_replicate.1 hrest
      exact absurd hw (by simp [ConnectionManager.connection, ManagedHandler.bindCache])
    · obtain ⟨-, rfl⟩ := List.mem_replicate.1 hws
      exact ⟨_, _, _, (DerivedHandler.webSocket.inj hw).symm⟩

/-- A client that has been set up: its handlers are bound to its cache and have not been started. -/
theorem Client.made_of_mem_managers {cfg : Config} {memory : Int32} {cache : CacheId}
    {client : Client} (hsetup : (Client.new cfg memory cache).setup = (.ok (), client))
    {m : ConnectionManager} (hm : m ∈ client.connectionManagers) {h : ManagedHandler}
    (hh : h ∈ m.handlers) :
    h.bufferQueue = some cache ∧
      ∀ w, h.derived = .webSocket w → ∃ host port endpoint, w = .idle host port endpoint := by
  obtain ⟨iocs, -, rfl⟩ := Client.setup_ok hsetup
  obtain ⟨j, hj, rfl⟩ := List.mem_mapIdx.1 hm
  exact ⟨(members_of_mem_handlers hh).2.1, fun w hw => idle_of_mem_handlers hh hw⟩

namespace Program

variable {lib : JsonLib} {callbacks : Callbacks} {u₀ : UInt64} {cfg : Config} {memory : Int32}
variable {cache : CacheId} {client : Client} {started : StartedClient}

theorem handlers_start (hclient : client.run = some started) :
    (start started u₀).handlers = client.receivers := by
  obtain rfl := Client.run_eq_some hclient
  unfold handlers start Client.receivers
  simp only [List.map_flatMap, List.map_map, List.flatMap_map, ConnectionManager.run]
  refine congrArg (client.connectionManagers.flatMap ·) (funext fun m => ?_)
  exact List.map_congr_left fun h _ => h.connectionHandler_run

/-- **A client that has been set up and started has the invariant.** -/
theorem inv_start (hsetup : (Client.new cfg memory cache).setup = (.ok (), client))
    (hclient : client.run = some started) : Inv lib u₀ (start started u₀) where
  accounted := by
    obtain rfl := Client.run_eq_some hclient
    intro i c hc
    obtain ⟨handler, hhandler, rfl⟩ := List.mem_map.1 (List.mem_of_getElem? hc)
    obtain ⟨running, hrunning, hmem⟩ := List.mem_flatMap.1 hhandler
    obtain ⟨m, hm, rfl⟩ := List.mem_map.1 hrunning
    obtain ⟨⟨symbol, ioContext, bufferQueue, derived⟩, hh, rfl⟩ := List.mem_map.1 hmem
    obtain ⟨rfl, hidle⟩ := Client.made_of_mem_managers hsetup hm hh
    have hbound := Option.some_ne_none cache
    cases derived with
    | restApi r => exact ⟨⟨hbound, fun w hw => DerivedHandler.noConfusion hw⟩, rfl⟩
    | webSocket w =>
        obtain ⟨host, port, endpoint, rfl⟩ := hidle w rfl
        refine ⟨⟨hbound, fun v hv => ?_⟩, rfl⟩
        obtain rfl := DerivedHandler.webSocket.inj hv
        exact ⟨WebSocketHandler.inv_run_idle host port endpoint, rfl⟩
  consumer := ⟨[], (Consumer.inv_init (LockFreeQueue.represents_ofCapacity .default)).run⟩
  filtered := by
    have hinit := Feed.filtered_init lib .default u₀
    exact ⟨hinit.accepted, hinit.ranked, hinit.mark, hinit.increasing, hinit.bounds⟩

/-! ## Runs of the program -/

variable {s s' : Program} {acts : List ProgramAction}

/-- **Run lemma.** The invariant holds in every run, and the handlers stay what they are. -/
theorem inv_run (hsetup : (Client.new cfg memory cache).setup = (.ok (), client))
    (hclient : client.run = some started)
    (hrun : Execution.run (step lib callbacks) (start started u₀) acts = some s) :
    Inv lib u₀ s ∧ s.handlers = client.receivers := by
  refine run_invariant (fun s => Inv lib u₀ s ∧ s.handlers = client.receivers) ?_
    ⟨inv_start hsetup hclient, handlers_start hclient⟩ hrun
  rintro s a s' ⟨h, hhandlers⟩ hs
  exact ⟨h.step hs, (handlers_step h.accounted hs).trans hhandlers⟩

/-- One subscription and two WebSocket replicas. -/
def twoReplicas : Config where
  setup := {
    hostRestapi := "fapi.binance.com"
    portRestapi := "443"
    hostWs := "fstream.binance.com"
    portWs := "443"
    replicasRestapi := 0
    replicasWs := 2
    periodRestapi := 1 }
  subscriptions := [⟨"btcusdt", "depth", "5"⟩]

/-- Connection `i` opens its session. -/
def openSession (i : ℕ) : List ProgramAction :=
  [.task, .complete (.resolve "fstream.binance.com" "443") .success [],
    .complete .connect .success [], .complete .sslHandshake .success [],
    .complete (.handshake "fstream.binance.com" "/ws/btcusdt@depth5") .success []].map
      fun a => .connection i (.webSocket a)

/-- Connection `i` reads the update `{"U":7}`. -/
def readUpdate (i : ℕ) : ProgramAction :=
  .connection i (.webSocket (.complete .read .success [0x7b, 0x22, 0x55, 0x22, 0x3a, 0x37, 0x7d]))

/-- Both replicas read the update before either of them passes it on. -/
def twoReplicasSchedule : List ProgramAction :=
  openSession 0 ++ openSession 1 ++ [readUpdate 0, readUpdate 1,
    .connection 1 (.webSocket .task), .connection 0 (.webSocket .task), .handle, .handle]

/-- The update id a payload carries. -/
def updateIdOf (lib : JsonLib) (handlers : List ConnectionHandler) (e : ℕ × Bytes) :
    Option UInt64 :=
  (reception handlers e).bind (Reception.updateId lib)

/-- The update ids of the payloads a record holds of connection `i`. -/
def streamOf (lib : JsonLib) (handlers : List ConnectionHandler) (i : ℕ)
    (record : List (ℕ × Bytes)) : List UInt64 :=
  (payloadsOf i record).filterMap fun payload => updateIdOf lib handlers (i, payload)

/-- The update id a payload carries, with the connection that received it. -/
def sent (lib : JsonLib) (handlers : List ConnectionHandler) (e : ℕ × Bytes) :
    Option (ℕ × UInt64) :=
  (updateIdOf lib handlers e).map (e.1, ·)

theorem sentKey_sent (handlers : List ConnectionHandler) :
    sentKey (sent lib handlers) = updateIdOf lib handlers := by
  funext e
  unfold sentKey sent
  cases updateIdOf lib handlers e <;> rfl

theorem sentBy_sent (handlers : List ConnectionHandler) (i : ℕ) (record : List (ℕ × Bytes)) :
    sentBy (sent lib handlers) i record = streamOf lib handlers i record := by
  unfold sentBy keys streamOf payloadsOf
  rw [List.filterMap_filterMap]
  congr 1
  funext ⟨j, payload⟩
  by_cases hij : j = i
  · subst hij
    cases hid : updateIdOf lib handlers (j, payload) <;> simp [sent, hid]
  · cases hid : updateIdOf lib handlers (j, payload) <;> simp [sent, hid, hij]

/-- A prefix of what a connection has received carries a prefix of its ids. -/
theorem streamOf_mono {handlers : List ConnectionHandler} {i : ℕ}
    {record record' : List (ℕ × Bytes)} (h : payloadsOf i record <+: payloadsOf i record') :
    streamOf lib handlers i record <+: streamOf lib handlers i record' :=
  h.filterMap _

theorem streamOf_eq_nil {handlers : List ConnectionHandler} {i : ℕ} (hi : handlers.length ≤ i)
    (record : List (ℕ × Bytes)) : streamOf lib handlers i record = [] := by
  refine List.filterMap_eq_nil_iff.2 fun payload _ => ?_
  rw [updateIdOf, reception, List.getElem?_eq_none hi]
  rfl

/-- While there is room, the cache takes every record of what the connections pass on. -/
theorem acceptedIds_eq_records (hinv : Inv lib u₀ (start started u₀))
    (hrun : Execution.run (step lib callbacks) (start started u₀) acts = some s)
    (hroom : Along (step lib callbacks) HasRoom (start started u₀) acts) :
    s.consumer.acceptedIds lib = records (updateIdOf lib s.handlers) u₀ s.passed := by
  have hboth : Inv lib u₀ s ∧ s.feed.TakesRecords lib u₀ := by
    refine run_invariant_along (fun s => Inv lib u₀ s ∧ s.feed.TakesRecords lib u₀) ?_
      ⟨hinv, rfl⟩ hroom hrun
    rintro s a s' ⟨h, hrecords⟩ hG hs
    refine ⟨h.step hs, ?_⟩
    cases feedSteps_of_step h.accounted hs with
    | quiet hsame hended => exact hsame ▸ hrecords
    | receive r hstep hended hreceive => exact hrecords.step h.filtered (hreceive hG) hstep
    | handle hstep hended =>
        have hfree : s.feed.HasRoom .handle := trivial
        exact hrecords.step h.filtered hfree hstep
  have hrecords := hboth.2
  unfold Feed.TakesRecords feed receptions at hrecords
  rw [records_filterMap] at hrecords
  exact hrecords

/-- **Replicas of one stream are merged.** Let every connection have received a prefix of one
    increasing sequence of update ids that starts above the initial mark, and let the queue have had
    room whenever `on_data` was called. In whatever order the connections took their steps, each
    call of `on_data` being one, and wherever they were cut off, the ids of the WebSocket callback
    are a prefix of the longest of the streams passed to `on_data`, and all of it when everything
    accepted has been dispatched. -/
theorem merges_streams (lib : JsonLib) (callbacks : Callbacks) (u₀ : UInt64)
    (cfg : Config) (memory : Int32) (cache : CacheId) (client : Client) (started : StartedClient)
    (acts : List ProgramAction) (s : Program)
    (hsetup : (Client.new cfg memory cache).setup = (.ok (), client))
    (hclient : client.run = some started)
    (hrun : Execution.run (step lib callbacks) (start started u₀) acts = some s)
    (S : List UInt64) (hS : S.Pairwise (· < ·)) (hU : ∀ U ∈ S, u₀ < U)
    (hstreams : ∀ i, streamOf lib client.receivers i s.received <+: S)
    (hroom : Along (step lib callbacks) HasRoom (start started u₀) acts) :
    ∃ merged ids : List UInt64,
      IsLongest (fun i => streamOf lib client.receivers i s.passed) merged ∧ merged <+: S ∧
        s.consumer.callsWS.map (OrderBook.updateId lib) = ids.map .ok ∧ ids <+: merged ∧
        (s.consumer.dispatched = s.consumer.accepted → ids = merged) := by
  obtain ⟨h, hhandlers⟩ := inv_run hsetup hclient hrun
  obtain ⟨held, hconsumer⟩ := h.consumer
  have hpassed : ∀ i, sentBy (sent lib client.receivers) i s.passed <+: S := by
    intro i
    rw [sentBy_sent]
    by_cases hi : i < s.connections.length
    · obtain ⟨-, hwaiting⟩ := h.accounted i _ (List.getElem?_eq_getElem hi)
      exact (streamOf_mono ⟨_, hwaiting.symm⟩).trans (hstreams i)
    · have hlength : client.receivers.length ≤ i := by
        rw [← hhandlers, handlers, List.length_map]
        exact Nat.not_lt.1 hi
      rw [streamOf_eq_nil hlength]
      exact List.nil_prefix
  have hmerged := records_isLongest hS hU s.passed hpassed
  simp only [sentBy_sent, sentKey_sent] at hmerged hpassed
  have haccepted := acceptedIds_eq_records (inv_start hsetup hclient) hrun hroom
  rw [hhandlers] at haccepted
  rw [← haccepted] at hmerged
  refine ⟨_, _, hmerged, hmerged.prefix_of hpassed,
    Feed.callsWS_updateId h.filtered hconsumer, ?_, ?_⟩
  · exact hconsumer.dispatched_prefix.filterMap _
  · exact fun hall => congrArg (List.filterMap (Msg.webSocketId lib)) hall

theorem merges_two_replicas : ∃ client started s merged,
    (Client.new twoReplicas 0 0).setup = (.ok (), client) ∧ client.run = some started ∧
      Execution.run (step .sample fun _ _ => .ok ()) (start started 0) twoReplicasSchedule
        = some s ∧
      IsLongest (fun i => streamOf .sample client.receivers i s.passed) merged ∧
      merged <+: [7] ∧ s.consumer.callsWS.map (OrderBook.updateId .sample) = [.ok 7] := by
  have hstreams : ∀ (client : Client) (s : Program), client.receivers =
        [.webSocket "btcusdt", .webSocket "btcusdt"] →
      s.received = [(0, [0x7b, 0x22, 0x55, 0x22, 0x3a, 0x37, 0x7d]),
        (1, [0x7b, 0x22, 0x55, 0x22, 0x3a, 0x37, 0x7d])] →
      ∀ i, streamOf .sample client.receivers i s.received <+: [7] := by
    intro client s hreceivers hreceived i
    rw [hreceivers, hreceived]
    match i with
    | 0 => exact ⟨[], rfl⟩
    | 1 => exact ⟨[], rfl⟩
    | i + 2 => exact ⟨[7], rfl⟩
  obtain ⟨merged, ids, hmerged, hgrown, -, -, -⟩ := merges_streams .sample (fun _ _ => .ok ()) 0
    twoReplicas 0 0 _ _ twoReplicasSchedule _ rfl rfl rfl [7] (by simp) (by simp)
    (hstreams _ _ rfl rfl) (by decide)
  exact ⟨_, _, _, merged, rfl, rfl, rfl, hmerged, hgrown, rfl⟩

end Program

end MarketFeed
