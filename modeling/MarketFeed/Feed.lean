import MarketFeed.Connection
import MarketFeed.Consumer

set_option autoImplicit false

/-! # From a payload to a callback

`Client::setup` binds the handlers of every instrument and the consumer to one cache. `Feed` is that
chain as a whole: payloads arrive at any handler in any order (`on_data`, one at a time), the
consumer's tasks run in between, and `received` records what arrived. An exception thrown by
`on_data` ends the program; the model goes on without its message, which only adds behaviour.

`Consumer.lean` already says where an accepted message goes (`run_consumer` carries that over), so
what is left is where it came from: `Feed.Genuine`. -/

namespace MarketFeed

open Execution LockFreeQueue

/-- A payload and the handler that received it. -/
structure Reception where
  handler : ConnectionHandler
  payload : Bytes

namespace Reception

/-- The payload is not JSON, and `parseJsonString` returns null for it. -/
def Unparsable (lib : JsonLib) (r : Reception) : Prop :=
  lib.parse r.payload = .error .parseError

/-- `Msg::valid()` passes the message made of the payload. -/
def Passes (lib : JsonLib) (r : Reception) : Prop :=
  ∃ msg, r.handler.parse lib r.payload = .ok msg ∧ msg.valid = true

/-- `valid` filters no payload that is not JSON. -/
theorem Unparsable.passes {lib : JsonLib} {r : Reception} (h : r.Unparsable lib) :
    r.Passes lib := by
  refine ⟨r.handler.message .null, ?_, r.handler.valid_message .null⟩
  rw [ConnectionHandler.parse_eq]
  unfold parseJsonString
  rw [h]
  rfl

end Reception

/-- The consumer with its cache, and everything received so far. -/
structure Feed where
  consumer : Consumer
  received : List Reception

/-- What can happen next. -/
inductive FeedAction where
  /-- A handler calls `on_data` with a payload. -/
  | receive (r : Reception)
  /-- Some thread calls `Consumer::run()`. -/
  | run
  /-- The consumer's `io_context` runs its first task. -/
  | handle

namespace Feed

def init (c : Cache) : Feed := { consumer := .init c, received := [] }

/-- `on_data`, with the consumer's record of what `encache` accepted. -/
def onData (lib : JsonLib) (consumer : Consumer) (r : Reception) : Consumer :=
  match r.handler.parse lib r.payload with
  | .error _ => consumer
  | .ok msg => if msg.valid then consumer.encache lib msg else consumer

def step (lib : JsonLib) (s : Feed) : FeedAction → Option Feed
  | .receive r => some { consumer := onData lib s.consumer r, received := s.received ++ [r] }
  | .run => some { s with consumer := s.consumer.run }
  | .handle => (s.consumer.step lib .handle).map fun consumer => { s with consumer }

variable {lib : JsonLib} {s s' : Feed} {a : FeedAction} {msg : Msg}

/-- `on_data` offers `encache` the parsed document, whatever it is. -/
theorem onData_eq (lib : JsonLib) (consumer : Consumer) (r : Reception) :
    onData lib consumer r =
      match parseJsonString lib r.payload with
      | .error _ => consumer
      | .ok data => consumer.encache lib (r.handler.message data) := by
  unfold onData
  rw [ConnectionHandler.parse_eq]
  cases parseJsonString lib r.payload with
  | error e => rfl
  | ok data => exact if_pos (r.handler.valid_message data)

/-- Seen from the consumer, a step of the feed is some thread calling `encache`, or nothing. -/
theorem step_consumer (hs : s.step lib a = some s') :
    ∃ acts, Execution.run (Consumer.step lib) s.consumer acts = some s'.consumer := by
  cases a with
  | receive r =>
      obtain rfl := Option.some.inj hs
      show ∃ acts, _ = some (onData lib s.consumer r)
      rw [onData_eq]
      cases parseJsonString lib r.payload with
      | error e => exact ⟨[], rfl⟩
      | ok data => exact ⟨[.encache (r.handler.message data)], rfl⟩
  | run =>
      obtain rfl := Option.some.inj hs
      exact ⟨[.run], rfl⟩
  | handle =>
      obtain ⟨t, ht, rfl⟩ := Option.map_eq_some_iff.1 hs
      exact ⟨[.handle], by rw [run_cons, ht]; rfl⟩

theorem run_consumer {c : Cache} {acts : List FeedAction}
    (hrun : Execution.run (step lib) (init c) acts = some s) :
    ∃ acts', Execution.run (Consumer.step lib) (.init c) acts' = some s.consumer := by
  have hstep : ∀ (s : Feed) (t : Consumer) (a : FeedAction) (s' : Feed), s.consumer = t →
      s.step lib a = some s' →
        ∃ acts t', Execution.run (Consumer.step lib) t acts = some t' ∧ s'.consumer = t' := by
    rintro s _ a s' rfl hs
    obtain ⟨acts, hacts⟩ := step_consumer hs
    exact ⟨acts, s'.consumer, hacts, rfl⟩
  obtain ⟨acts', t, hrun', rfl⟩ := run_simulates hstep rfl hrun
  exact ⟨acts', hrun'⟩

/-! ## Where a message comes from -/

/-- The message carries the document one received payload parses to, and the tags of the handler
    that received it. -/
def Genuine (lib : JsonLib) (s : Feed) (msg : Msg) : Prop :=
  ∃ r ∈ s.received, ∃ data, lib.parse r.payload = .ok data ∧ msg = r.handler.message data

/-- The order book carries the document one received payload of the given source parses to, and the
    symbol of the handler that received it. -/
def GenuineBook (lib : JsonLib) (s : Feed) (source : MsgSource) (book : OrderBook) : Prop :=
  ∃ r ∈ s.received, r.handler.source = source ∧
    lib.parse r.payload = .ok book.data ∧ book.symbol = r.handler.symbol

/-- A payload that is not JSON is refused all the same, unless it comes from a REST handler while
    the queue has room. -/
def Refuses (lib : JsonLib) (s : Feed) : FeedAction → Prop
  | .receive r => r.Unparsable lib → r.handler.source = .restApi →
      s.consumer.bufferQueue.cacheQueue.Full
  | _ => True

/-- What `on_data` queues of a payload is the document it parses to under the tags of its handler:
    of a payload that is not JSON, nothing. -/
def QueuesDocument (lib : JsonLib) (s : Feed) : FeedAction → Prop
  | .receive r => (onData lib s.consumer r).accepted = s.consumer.accepted ∨
      ∃ data, lib.parse r.payload = .ok data ∧
        (onData lib s.consumer r).accepted = s.consumer.accepted ++ [r.handler.message data]
  | _ => True

theorem Genuine.mono (h : Genuine lib s msg) (hsub : s.received ⊆ s'.received) :
    Genuine lib s' msg := by
  obtain ⟨r, hr, data, hdata, hmsg⟩ := h
  exact ⟨r, hsub hr, data, hdata, hmsg⟩

/-- What a step adds to the accepted messages comes from the payload it received. -/
theorem accepted_step (hs : s.step lib a = some s') :
    s.received ⊆ s'.received ∧
      ∀ msg ∈ s'.consumer.accepted, msg ∈ s.consumer.accepted ∨
        ∃ r data, a = .receive r ∧ msg = r.handler.message data := by
  cases a with
  | receive r =>
      obtain rfl := Option.some.inj hs
      refine ⟨List.subset_append_left _ _, fun msg hmsg => ?_⟩
      have hmsg' : msg ∈ (onData lib s.consumer r).accepted := hmsg
      rw [onData_eq] at hmsg'
      split at hmsg'
      · exact Or.inl hmsg'
      · next data hdata =>
          rcases List.mem_append.1 hmsg' with hold | hnew
          · exact Or.inl hold
          · split at hnew
            · exact Or.inr ⟨r, data, rfl, List.mem_singleton.1 hnew⟩
            · exact absurd hnew List.not_mem_nil
  | run =>
      obtain rfl := Option.some.inj hs
      exact ⟨List.Subset.refl _, fun msg hmsg => Or.inl hmsg⟩
  | handle =>
      obtain ⟨t, ht, rfl⟩ := Option.map_eq_some_iff.1 hs
      refine ⟨List.Subset.refl _, fun msg hmsg => Or.inl ?_⟩
      rwa [← Consumer.accepted_handle ht]

/-- A payload is received by one of the handlers. -/
def ReceivesAt (handlers : List ConnectionHandler) : FeedAction → Prop
  | .receive r => r.handler ∈ handlers
  | _ => True

/-- Where only some handlers receive, every accepted message carries the tags of one of them. -/
theorem accepted_of_receivesAt {handlers : List ConnectionHandler} {c : Cache}
    {acts : List FeedAction} (hrun : Execution.run (step lib) (init c) acts = some s)
    (hacts : Along (step lib) (fun _ a => ReceivesAt handlers a) (init c) acts) :
    ∀ msg ∈ s.consumer.accepted, ∃ h ∈ handlers, ∃ data, msg = h.message data := by
  refine run_invariant_along
    (fun s => ∀ msg ∈ s.consumer.accepted, ∃ h ∈ handlers, ∃ data, msg = h.message data)
    ?_ (fun _ hmsg => absurd hmsg List.not_mem_nil) hacts hrun
  intro s a s' h hG hs msg hmsg
  rcases (accepted_step hs).2 msg hmsg with hold | ⟨r, data, rfl, rfl⟩
  · exact h msg hold
  · exact ⟨r.handler, hG, data, rfl⟩

/-- The null document of a payload that is not JSON is queued exactly if the payload comes from a
    REST handler while the queue has room. -/
theorem accepted_onData_unparsable {r : Reception} (h : r.Unparsable lib) :
    (onData lib s.consumer r).accepted = s.consumer.accepted ++
      if r.handler.source = .restApi ∧ ¬ s.consumer.bufferQueue.cacheQueue.Full then
        [r.handler.message .null] else [] := by
  have hdata : parseJsonString lib r.payload = .ok .null := by
    unfold parseJsonString
    rw [h]
  have hrank : (∃ id, (r.handler.message .null).rank lib = .ok id ∧
      ∀ U ∈ id, s.consumer.bufferQueue.U < U) ↔ r.handler.source = .restApi := by
    cases r.handler with
    | restApi symbol => exact iff_of_true ⟨none, rfl, nofun⟩ rfl
    | webSocket symbol =>
        refine iff_of_false (fun ⟨id, hid, _⟩ => ?_) (by simp [ConnectionHandler.source])
        exact (ConnectionHandler.rank_message_isOk_iff lib (.webSocket symbol) .null).1 ⟨id, hid⟩
  rw [onData_eq, hdata]
  show s.consumer.accepted ++ _ = _
  simp only [Cache.encache_fst_eq_true_iff, hrank]

/-- **Step lemma.** What a step queues is as it should be exactly if it refuses what is not JSON. -/
theorem queuesDocument_iff_refuses : s.QueuesDocument lib a ↔ s.Refuses lib a := by
  cases a with
  | run => exact Iff.rfl
  | handle => exact Iff.rfl
  | receive r =>
      by_cases hbad : r.Unparsable lib
      · have hnone : ¬ ∃ data, lib.parse r.payload = .ok data ∧
            (onData lib s.consumer r).accepted =
              s.consumer.accepted ++ [r.handler.message data] := by
          rintro ⟨data, hdata, -⟩
          exact absurd (hbad.symm.trans hdata) (by simp)
        show _ ∨ _ ↔ _
        rw [or_iff_left hnone, accepted_onData_unparsable hbad, List.append_right_eq_self]
        simp [Refuses, hbad]
      · refine iff_of_true ?_ fun h => absurd h hbad
        cases hparse : lib.parse r.payload with
        | error e =>
            cases e with
            | parseError => exact absurd hparse hbad
            | outOfRange =>
                exact Or.inl (by rw [onData_eq, parseJsonString, hparse])
        | ok data =>
            have hqueued : (onData lib s.consumer r).accepted =
                (s.consumer.encache lib (r.handler.message data)).accepted := by
              rw [onData_eq, parseJsonString, hparse]
            unfold Consumer.encache at hqueued
            split_ifs at hqueued
            · exact Or.inr ⟨data, hparse, hqueued⟩
            · exact Or.inl (hqueued.trans (List.append_nil _))

theorem genuine_step (h : ∀ msg ∈ s.consumer.accepted, Genuine lib s msg)
    (hG : s.QueuesDocument lib a) (hs : s.step lib a = some s') :
    ∀ msg ∈ s'.consumer.accepted, Genuine lib s' msg := by
  have hold : ∀ msg ∈ s.consumer.accepted, Genuine lib s' msg :=
    fun msg hmsg => (h msg hmsg).mono (accepted_step hs).1
  cases a with
  | receive r =>
      obtain rfl := Option.some.inj hs
      have hr : r ∈ s.received ++ [r] := List.mem_append_right _ (List.mem_singleton.2 rfl)
      show ∀ msg ∈ (onData lib s.consumer r).accepted, _
      rcases hG with hsame | ⟨data, hparse, hqueued⟩
      · rw [hsame]
        exact hold
      · rw [hqueued]
        exact List.forall_mem_append.2
          ⟨hold, List.forall_mem_singleton.2 ⟨r, hr, data, hparse, rfl⟩⟩
  | run =>
      obtain rfl := Option.some.inj hs
      exact hold
  | handle =>
      obtain ⟨t, ht, rfl⟩ := Option.map_eq_some_iff.1 hs
      intro msg hmsg
      rw [Consumer.accepted_handle ht] at hmsg
      exact hold msg hmsg

theorem genuineBook_of_accepted {source : MsgSource} {books : List OrderBook} {msgs : List Msg}
    (hbooks : books.map some = Consumer.booksOf source msgs)
    (hmsgs : ∀ msg ∈ msgs, Genuine lib s msg) : ∀ book ∈ books, GenuineBook lib s source book := by
  intro book hbook
  have hmem : some book ∈ Consumer.booksOf source msgs :=
    hbooks ▸ List.mem_map.2 ⟨book, hbook, rfl⟩
  obtain ⟨msg, hmsg, hdata⟩ := List.mem_map.1 hmem
  obtain ⟨hin, hbookOf⟩ := List.mem_filter.1 hmsg
  obtain ⟨r, hr, data, hparse, rfl⟩ := hmsgs msg hin
  obtain rfl : { symbol := r.handler.symbol, data } = book := Option.some.inj hdata
  have hsource : r.handler.source = source := of_decide_eq_true hbookOf
  exact ⟨r, hr, hsource, hparse, rfl⟩

/-- Everything delivered or queued is genuine. -/
def Delivers (lib : JsonLib) (s : Feed) : Prop :=
  (∀ book ∈ s.consumer.callsWS, GenuineBook lib s .webSocket book) ∧
    (∀ book ∈ s.consumer.callsREST, GenuineBook lib s .restApi book) ∧
    ∀ msg ∈ s.consumer.accepted, Genuine lib s msg

/-- **Run lemma.** A feed that refuses what is not JSON delivers and queues genuine order books. -/
theorem delivers_of_refuses (cap : Capacity) (u₀ : UInt64) {acts : List FeedAction}
    (hrun : Execution.run (step lib) (init (.fresh cap u₀)) acts = some s)
    (hrefuses : Along (step lib) (Refuses lib) (init (.fresh cap u₀)) acts) : s.Delivers lib := by
  have hgenuine : ∀ msg ∈ s.consumer.accepted, Genuine lib s msg :=
    run_invariant_along (fun s => ∀ msg ∈ s.consumer.accepted, Genuine lib s msg)
      (fun _ _ _ h hG hs => genuine_step h (queuesDocument_iff_refuses.2 hG) hs)
      (fun _ hmsg => absurd hmsg List.not_mem_nil)
      hrefuses hrun
  obtain ⟨acts', hrun'⟩ := run_consumer hrun
  obtain ⟨held, hinv⟩ := Consumer.inv_run (represents_ofCapacity cap) hrun'
  have hdispatched : ∀ msg ∈ s.consumer.dispatched, Genuine lib s msg := by
    intro msg hmsg
    refine hgenuine msg ?_
    rw [hinv.accepted, hinv.decached]
    exact List.mem_append_left _ (List.mem_append_left _ hmsg)
  exact ⟨genuineBook_of_accepted hinv.callsWS hdispatched,
    genuineBook_of_accepted hinv.callsREST hdispatched, hgenuine⟩

theorem received_subset_run {acts : List FeedAction}
    (hrun : Execution.run (step lib) s acts = some s') : s.received ⊆ s'.received :=
  run_invariant (fun t => s.received ⊆ t.received)
    (fun _ _ _ h hs => List.Subset.trans h (accepted_step hs).1) (List.Subset.refl _) hrun

/-- A feed that only receives JSON has nothing to refuse. -/
theorem refuses_of_parsable {acts : List FeedAction}
    (hrun : Execution.run (step lib) s acts = some s')
    (hparsable : ∀ r ∈ s'.received, ¬ r.Unparsable lib) :
    Along (step lib) (Refuses lib) s acts := by
  induction acts generalizing s with
  | nil => trivial
  | cons a acts ih =>
      obtain ⟨t, ht, hrest⟩ := Option.bind_eq_some_iff.1 hrun
      refine ⟨?_, fun t' ht' => ih (Option.some.inj (ht.symm.trans ht') ▸ hrest)⟩
      cases a with
      | receive r =>
          obtain rfl := Option.some.inj ht
          have hr : r ∈ s.received ++ [r] := List.mem_append_right _ (List.mem_singleton.2 rfl)
          exact fun hbad => absurd hbad (hparsable r (received_subset_run hrest hr))
      | run => trivial
      | handle => trivial

/-- **When only real order books get through.** For every mix of handlers, payloads and consumer
    steps: what is delivered and queued is genuine and `valid` filters every payload that is not
    JSON exactly if none was received. What `on_data` queues of each payload is its document, and of
    a payload that is not JSON nothing, exactly if every such payload of a REST handler meets a full
    queue; and then what is delivered and queued is genuine. -/
theorem delivers_iff_parsable (lib : JsonLib) (cap : Capacity) (u₀ : UInt64)
    (acts : List FeedAction) (s : Feed)
    (hrun : Execution.run (step lib) (init (.fresh cap u₀)) acts = some s) :
    ((s.Delivers lib ∧ ∀ r ∈ s.received, r.Unparsable lib → ¬ r.Passes lib) ↔
        ∀ r ∈ s.received, ¬ r.Unparsable lib) ∧
      (Along (step lib) (QueuesDocument lib) (init (.fresh cap u₀)) acts ↔
        Along (step lib) (Refuses lib) (init (.fresh cap u₀)) acts) ∧
      (Along (step lib) (Refuses lib) (init (.fresh cap u₀)) acts → s.Delivers lib) := by
  refine ⟨⟨fun h r hr hbad => h.2 r hr hbad hbad.passes, fun hparsable => ?_⟩, ?_, ?_⟩
  · refine ⟨delivers_of_refuses cap u₀ hrun (refuses_of_parsable hrun hparsable), ?_⟩
    exact fun r hr hbad => absurd hbad (hparsable r hr)
  · have hsame : QueuesDocument lib = Refuses lib :=
      funext₂ fun _ _ => propext queuesDocument_iff_refuses
    rw [hsame]
  · exact delivers_of_refuses cap u₀ hrun

/-- One update all the way to the callback. -/
def updateSchedule : List FeedAction :=
  [.run, .receive ⟨.webSocket "btcusdt", [0x7b, 0x22, 0x55, 0x22, 0x3a, 0x37, 0x7d]⟩, .handle,
    .handle]

theorem delivers_iff_parsable_update :
    ∃ s, Execution.run (step .sample) (init (.fresh .default 0)) updateSchedule = some s ∧
      s.Delivers .sample ∧
      s.consumer.callsWS = [⟨"btcusdt", .object [("U", .numberUnsigned 7)]⟩] := by
  refine ⟨_, rfl, ?_, rfl⟩
  refine ((delivers_iff_parsable .sample .default 0 updateSchedule _ rfl).1.2 ?_).1
  intro r hr
  obtain rfl := List.mem_singleton.1 hr
  simp [Reception.Unparsable, JsonLib.sample]

/-- An empty REST response: its null document reaches the callback. -/
def emptyResponseSchedule : List FeedAction :=
  [.run, .receive ⟨.restApi "btcusdt", []⟩, .handle, .handle]

theorem delivers_null_document :
    ∃ s, Execution.run (step .sample) (init (.fresh .default 0)) emptyResponseSchedule = some s ∧
      s.consumer.callsREST = [⟨"btcusdt", .null⟩] ∧ ¬ s.Delivers .sample := by
  refine ⟨_, rfl, rfl, fun h => ?_⟩
  obtain ⟨r, hr, -, hparse, -⟩ := h.2.1 ⟨"btcusdt", .null⟩ (List.mem_singleton.2 rfl)
  obtain rfl := List.mem_singleton.1 hr
  exact absurd hparse (by simp [JsonLib.sample])

end Feed

end MarketFeed
