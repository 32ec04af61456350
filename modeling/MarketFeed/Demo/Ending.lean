import MarketFeed.Demo
import MarketFeed.RestApi.Response

set_option autoImplicit false

/-! # What the demo logs, and what ends it

With the parser in the model, the fate of the demo is a matter of the texts it receives:
`alive_and_logged` says which of them it survives, and what it logs meanwhile. One text that
does not denote an object with a number under `"E"` ends it as soon as the consumer has come to it
(`ends_within`), and every chunked response brings such a text (`chunked_response_is_deadly`).

The runs are those of `Program`: no two calls of `on_data` overlap. -/

namespace MarketFeed

open Execution Grammar

namespace DemoClient

variable {lib : JsonLib} {callback : ClientCallback} {book : OrderBook}

/-! ## Texts -/

variable {strtod : Strtod} {castFloat : ℚ → UInt64} {text : Bytes} {r : Reception} {data : Json}

/-- A text that `on_data` of its handler survives: from a WebSocket it denotes an object with a
    number under `"U"`, and from a REST endpoint no numeral in it is too large. -/
def Readable (strtod : Strtod) (r : Reception) : Prop :=
  match r.handler with
  | .restApi _ => ¬ OverflowsText strtod r.payload
  | .webSocket _ => ∃ data, TextOf strtod r.payload data ∧ data.HasNumber "U"

variable {files : String → Option IniFile} {memory : Config.Memory} {nInstrument : Int32}
variable {u₀ : UInt64} {cache : CacheId} {acts : List ProgramAction} {s₀ s s' : Program}

theorem inv_run (hmain : main files memory nInstrument u₀ cache = .ok s₀)
    (hrun : Execution.run (step lib) s₀ acts = some s) :
    Program.Inv lib u₀ s ∧ s.Lives lib (callbacks lib) := by
  obtain ⟨cfg, client, started, hsetup, hclient, rfl⟩ := main_eq_ok hmain
  refine run_invariant (fun s => Program.Inv lib u₀ s ∧ s.Lives lib (callbacks lib)) ?_
    ⟨Program.inv_start hsetup hclient, Program.lives_start started⟩ hrun
  rintro s a s' ⟨hinv, h⟩ hs
  exact ⟨hinv.step hs, h.step hinv hs⟩

/-- The files in `config/`. -/
def shippedFiles : String → Option IniFile :=
  Config.configFiles Config.shippedSetup Config.shippedSubscriptions

/-- A library to evaluate the demo with: it has no fractions. -/
def wholeNumbers : JsonLib := .nlohmann (fun _ => none) fun _ => 0

/-- A text the demo cannot take: it does not denote an object with a number under `"E"`. -/
def Deadly (strtod : Strtod) (text : Bytes) : Prop :=
  ∀ data, TextOf strtod text data → ¬ data.HasNumber "E"

/-- A digestible text that is new and finds room in the queue is accepted. -/
theorem message_mem_accepted {consumer : Consumer}
    (hdata : parseJsonString lib r.payload = .ok data)
    (hdigests : r.handler.Digests data)
    (hnew : ∀ U, r.updateId lib = some U → consumer.bufferQueue.U < U)
    (hroom : ¬ consumer.bufferQueue.cacheQueue.Full) :
    r.handler.message data ∈ (Feed.onData lib consumer r).accepted := by
  have hmsg : r.message lib = some (r.handler.message data) := by
    rw [Reception.message, hdata]
  obtain ⟨id, hrank⟩ := (r.handler.rank_message_isOk_iff lib data).2 hdigests
  have haccepted : (consumer.bufferQueue.encache lib (r.handler.message data)).1 = .ok true := by
    refine Cache.encache_fst_eq_true_iff.2 ⟨⟨id, hrank, fun U hU => hnew U ?_⟩, hroom⟩
    rw [Reception.updateId, hmsg, Option.bind_some, Msg.webSocketId_of_rank hrank]
    exact hU
  rw [Feed.onData_message, hmsg]
  exact List.mem_append_right _ (by rw [if_pos haccepted]; exact List.mem_singleton.2 rfl)

theorem book_mem_booksOf (callback : ClientCallback) {msgs : List Msg}
    (hsource : r.handler.source = Program.source callback) (hmem : r.handler.message data ∈ msgs) :
    some { symbol := r.handler.symbol, data } ∈
      Consumer.booksOf (Program.source callback) msgs := by
  refine List.mem_map.2 ⟨_, List.mem_filter.2 ⟨hmem, ?_⟩, rfl⟩
  simp [Msg.isBookOf, ConnectionHandler.message, hsource]

theorem onData_of_step {lib : JsonLib} {calls : Callbacks} {i : ℕ} {a : ConnectionAction}
    {c : Connection} {s t : Program} (h : s.Accounted) (hc : s.connections[i]? = some c)
    (hpayload : c.payload a = some text)
    (hstep : s.step lib calls (.connection i a) = some t) :
    t.consumer = Feed.onData lib s.consumer
        { handler := c.handler.connectionHandler, payload := text } ∧
      t.ended = s.failure lib { handler := c.handler.connectionHandler, payload := text } := by
  cases (Program.steps_of_step hstep).2 with
  | quiet hc' _ hnone =>
      obtain rfl := Option.some.inj (hc'.symm.trans hc)
      exact absurd (hnone.symm.trans hpayload) (by simp)
  | onData hc' _ hsome =>
      obtain rfl := Option.some.inj (hc'.symm.trans hc)
      obtain rfl := Option.some.inj (hsome.symm.trans hpayload)
      rw [Program.onData_of_bound (h i _ hc).1.bound]
      exact ⟨rfl, rfl⟩

/-- What is accepted of a deadly text is an order book on which its callback does not return. -/
theorem exists_deadly_book (hdeadly : Deadly strtod r.payload) {consumer : Consumer}
    (hdigestible : r.Digestible (.nlohmann strtod castFloat))
    (hnew : ∀ U, r.updateId (.nlohmann strtod castFloat) = some U → consumer.bufferQueue.U < U)
    (hroom : ¬ consumer.bufferQueue.cacheQueue.Full) : ∃ callback book,
      some book ∈ Consumer.booksOf (Program.source callback)
        (Feed.onData (.nlohmann strtod castFloat) consumer r).accepted ∧
      callbacks (.nlohmann strtod castFloat) callback book ≠ .ok () := by
  obtain ⟨data, hdata, hdigests⟩ := hdigestible
  have hmem := message_mem_accepted hdata hdigests hnew hroom
  obtain ⟨callback, hcallback⟩ : ∃ callback, r.handler.source = Program.source callback := by
    cases r.handler with
    | restApi symbol => exact ⟨.onOrderBookREST, rfl⟩
    | webSocket symbol => exact ⟨.onOrderBookWS, rfl⟩
  refine ⟨callback, _, book_mem_booksOf callback hcallback hmem, ?_⟩
  rw [ne_eq, callbacks_eq_ok_iff]
  rcases parseJsonString_nlohmann_eq_ok_iff.1 hdata with htext | ⟨rfl, -⟩
  · exact hdeadly data htext
  · exact id

/-- **How soon a deadly text ends the demo.** Take any state of a running demo in which a deadly
    text is passed to `on_data`, the queue has room, and the text's update id, if it comes from a
    WebSocket, is above the mark. However the run goes on, each call of `on_data` and each task
    being one step, the consumer does not run more tasks than it takes to hand on what is accepted
    by then, which are never more than 2048, and when it has run them the program has ended. -/
theorem ends_within (strtod : Strtod) (castFloat : ℚ → UInt64) (files : String → Option IniFile)
    (memory : Config.Memory) (nInstrument : Int32) (u₀ : UInt64) (cache : CacheId)
    (acts later : List ProgramAction) (s₀ s t s' : Program) (i : ℕ) (a : ConnectionAction)
    (c : Connection) (text : Bytes)
    (hmain : main files memory nInstrument u₀ cache = .ok s₀)
    (hrun : Execution.run (step (.nlohmann strtod castFloat)) s₀ acts = some s)
    (hc : s.connections[i]? = some c) (hpayload : c.payload a = some text)
    (hdeadly : Deadly strtod text) (hroom : ¬ s.consumer.bufferQueue.cacheQueue.Full)
    (hnew : ∀ U, Reception.updateId (.nlohmann strtod castFloat)
      { handler := c.handler.connectionHandler, payload := text } = some U →
        s.consumer.bufferQueue.U < U)
    (hstep : step (.nlohmann strtod castFloat) s (.connection i a) = some t)
    (hlater : Execution.run (step (.nlohmann strtod castFloat)) t later = some s') :
    t.tasksLeft ≤ 2048 ∧ Program.handles later ≤ t.tasksLeft ∧
      (t.tasksLeft ≤ Program.handles later → s'.ended ≠ none) := by
  obtain ⟨hinv, hlives⟩ := inv_run hmain hrun
  obtain ⟨hconsumer, hended⟩ := onData_of_step hinv.accounted hc hpayload hstep
  have hrun' : Execution.run (step (.nlohmann strtod castFloat)) s₀
      (acts ++ [.connection i a]) = some t := by
    rw [run_append, hrun]
    exact (run_cons ..).trans (by rw [hstep]; rfl)
  obtain ⟨cfg, client, started, hsetup, hclient, rfl⟩ := main_eq_ok hmain
  refine ⟨Program.tasksLeft_le (Program.inv_start hsetup hclient) hrun', ?_⟩
  have hinv' : Program.Inv (.nlohmann strtod castFloat) u₀ t := hinv.step hstep
  have hlives' := hlives.step hinv hstep
  by_cases halive : t.ended = none
  · rw [hended, Program.failure_eq_none_iff] at halive
    obtain ⟨callback, book, haccepted, hfails⟩ := exists_deadly_book hdeadly halive hnew hroom
    rw [← hconsumer] at haccepted
    exact ⟨Program.handles_le_tasksLeft hinv' hlives' haccepted hfails hlater,
      Program.ended_of_accepted hinv' hlives' haccepted hfails hlater⟩
  · -- `on_data` has thrown, and nothing follows
    cases later with
    | nil =>
        obtain rfl := Option.some.inj hlater
        exact ⟨Nat.zero_le _, fun _ => halive⟩
    | cons b later =>
        obtain ⟨u, hu, -⟩ := Option.bind_eq_some_iff.1 hlater
        exact absurd (Program.steps_of_step hu).1 halive

/-- An update without `"E"` ends the demo. -/
theorem ends_within_two_tasks : ∃ s₀ s c t s',
    main shippedFiles ⟨0, 0, 0⟩ 0 0 0 = .ok s₀ ∧
      Execution.run (step wholeNumbers) s₀ (Program.openSession 1 ++ [Program.readUpdate 1]) =
        some s ∧
      s.connections[1]? = some c ∧
      step wholeNumbers s (.connection 1 (.webSocket .task)) = some t ∧
      Execution.run (step wholeNumbers) t [.handle, .handle] = some s' ∧
      s'.ended = some .assertion ∧ Program.handles [.handle, .handle] ≤ t.tasksLeft := by
  refine ⟨_, _, _, _, _, rfl, rfl, rfl, rfl, rfl, rfl, ?_⟩
  refine (ends_within (fun _ => none) (fun _ => 0) shippedFiles ⟨0, 0, 0⟩ 0 0 0
    (Program.openSession 1 ++ [Program.readUpdate 1]) [.handle, .handle] _ _ _ _ 1
    (.webSocket .task) _ _ rfl rfl rfl rfl ?_ ?_ ?_ rfl rfl).2.1
  · intro data htext
    rw [← Parser.parse_eq_ok_iff] at htext
    cases htext
    rintro ⟨v, hv, -⟩
    cases hv
  · decide
  · rintro U ⟨⟩
    decide

/-- **A chunked response ends the demo.** Whatever the head, the chunks and the body of a chunked
    response, what `on_read` makes of it is deadly: `on_data` offers the queue an order book without
    a document, and on that the callback throws. -/
theorem chunked_response_is_deadly (strtod : Strtod) (castFloat : ℚ → UInt64) (r : ChunkedResponse)
    (symbol : String) (c : Cache) :
    ∃ text, RestApiHandler.onReadData .success r.wire = [text] ∧ Deadly strtod text ∧
      (ConnectionHandler.restApi symbol).onData (.nlohmann strtod castFloat) c text =
        (.ok (), (c.enqueue ((ConnectionHandler.restApi symbol).message .null)).2) ∧
      onOrderBookREST (.nlohmann strtod castFloat) { symbol, data := .null } =
        .error (.exception
          (.typeError 305 "cannot use operator[] with a string argument with null")) := by
  have hparse : Parser.parse strtod [cr] = some (.error .parseError) := rfl
  have hnull : parseJsonString (.nlohmann strtod castFloat) [cr] = .ok .null := by
    unfold parseJsonString
    rw [JsonLib.parse_nlohmann.2 hparse]
  refine ⟨[cr], ?_, fun data htext => ?_, ConnectionHandler.onData_restApi_eq hnull, rfl⟩
  · rw [RestApiHandler.onReadData, if_pos (Or.inl rfl), RestApiHandler.lineLoop_chunked]
  · rw [← Parser.parse_eq_ok_iff] at htext
    exact absurd (hparse.symm.trans htext) (by simp)

end DemoClient

end MarketFeed
