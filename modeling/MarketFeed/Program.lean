import MarketFeed.Client.Lifecycle
import MarketFeed.RestApi.Response
import MarketFeed.Feed.Delivery

set_option autoImplicit false

/-! # The running program

`Client::run` starts the handlers of every instrument and the consumer, and from there the program
is what their `io_context`s run: a completion handler or a task of a connection, or a task of the
consumer, in any order. A payload read by a connection waits in a task until `on_data` is called
with it; then it goes the way of `Feed.lean`.

Nothing catches an exception on these threads, so whatever leaves `on_data` or a callback ends the
program (`ended`), and no step follows. The calls on the cache are atomic here, each one a step
(`Program/Interleaving.lean` says what that leaves out), and the connections of one `io_context` are
not kept to its queue, which only adds orders. -/

namespace MarketFeed

open Execution
open scoped List

/-- What ends the program. -/
inductive Ending where
  /-- An exception leaves a task. -/
  | exception (e : CppException)
  /-- An assertion fails. -/
  | assertion
deriving DecidableEq, Repr

/-- What the callbacks of a client do with an order book: return, or end the program. -/
abbrev Callbacks := ClientCallback → OrderBook → Except Ending Unit

/-! ## Connections -/

/-- A handler that has been started, and the calls of `on_data` a REST handler has posted, oldest
    first. Those of a WebSocket handler are among its own tasks. -/
structure Connection where
  handler : ManagedHandler
  tasks : List Bytes

/-- What can happen next at a connection. -/
inductive ConnectionAction where
  /-- A step of a REST handler; where a read completes, `response` is what it has read. -/
  | restApi (a : RestAction) (response : Bytes)
  /-- The oldest call of `on_data` posted by a REST handler runs. -/
  | onData
  | webSocket (a : WebSocketAction)

/-- The payloads a step posts to `on_data`. -/
def ConnectionAction.arrivals : ConnectionAction → List Bytes
  | .restApi (.complete op error) response =>
      if op.stage = .read then RestApiHandler.onReadData error response else []
  | .webSocket (.complete .read .success data) => [data]
  | _ => []

/-- The payload a task of a session calls `on_data` with. -/
def WebSocketHandler.payload (s : WebSocketHandler) : WebSocketAction → Option Bytes
  | .task =>
      match s.tasks with
      | .onData dataStr :: _ => some dataStr
      | _ => none
  | .complete _ _ _ => none

namespace Connection

/-- The handler goes on. -/
def resume (c : Connection) (derived : DerivedHandler) : Connection :=
  { c with handler := { c.handler with derived } }

def step (c : Connection) : ConnectionAction → Option Connection
  | .restApi a response =>
      match c.handler.derived with
      | .restApi h => (h.toRestApiHandler.step a).map fun rest =>
          { c.resume (.restApi { h with toRestApiHandler := rest }) with
            tasks := c.tasks ++ (ConnectionAction.restApi a response).arrivals }
      | .webSocket _ => none
  | .onData =>
      match c.tasks with
      | [] => none
      | _ :: tasks => some { c with tasks }
  | .webSocket a =>
      match c.handler.derived with
      | .restApi _ => none
      | .webSocket h => (h.step a).map fun session => c.resume (.webSocket session)

/-- The payload a step calls `on_data` with. -/
def payload (c : Connection) : ConnectionAction → Option Bytes
  | .restApi _ _ => none
  | .onData => c.tasks.head?
  | .webSocket a =>
      match c.handler.derived with
      | .restApi _ => none
      | .webSocket h => h.payload a

/-- The payloads that wait for `on_data`, oldest first. -/
def waiting (c : Connection) : List Bytes :=
  match c.handler.derived with
  | .restApi _ => c.tasks
  | .webSocket h => WebSocketHandler.postedData h.tasks

/-- The handler is bound to a cache, and the session of a WebSocket handler keeps its invariant. -/
structure Inv (c : Connection) : Prop where
  bound : c.handler.bufferQueue ≠ none
  session : ∀ h, c.handler.derived = .webSocket h → h.Inv ∧ c.tasks = []

/-- What a handler keeps when it goes on: what its messages are tagged with, and its cache. -/
structure Same (c c' : Connection) : Prop where
  receiver : c'.handler.connectionHandler = c.handler.connectionHandler
  bufferQueue : c'.handler.bufferQueue = c.handler.bufferQueue

end Connection

/-- A step of a session records what it receives and what it passes on. -/
theorem WebSocketHandler.records_step {s s' : WebSocketHandler} {a : WebSocketAction}
    (hs : s.step a = some s') :
    s'.received = s.received ++ (ConnectionAction.webSocket a).arrivals ∧
      s'.passed = s.passed ++ (s.payload a).toList := by
  cases steps_of_step hs with
  | start htasks => simp [ConnectionAction.arrivals, payload, htasks, start]
  | onData htasks => simp [ConnectionAction.arrivals, payload, htasks]
  | @advance op data hop hread =>
      cases op with
      | read => exact absurd rfl hread
      | _ => simp [ConnectionAction.arrivals, payload, start, settle]
  | message data hop =>
      simp [ConnectionAction.arrivals, payload, start, takeMessage, settle]
  | @stop op error data buffer hop herror =>
      have harrivals : (ConnectionAction.webSocket (.complete op error data)).arrivals = [] := by
        cases op with
        | read => cases error with
          | success => exact absurd rfl herror
          | _ => rfl
        | _ => rfl
      simp [harrivals, payload, settle]

namespace Connection

variable {c c' : Connection} {a : ConnectionAction}

/-- **Step lemma.** A step of a connection moves payloads from what arrives to what waits, and from
    there to `on_data`, in their order. -/
theorem Inv.step (h : Inv c) (hs : c.step a = some c') :
    Inv c' ∧ Same c c' ∧ c.waiting ++ a.arrivals = (c.payload a).toList ++ c'.waiting := by
  obtain ⟨⟨symbol, ioContext, bufferQueue, derived⟩, tasks⟩ := c
  obtain ⟨hbound, hsession⟩ := h
  cases a with
  | restApi a response =>
      cases derived with
      | webSocket w => exact absurd hs (by simp [Connection.step])
      | restApi r =>
          obtain ⟨rest, -, rfl⟩ := Option.map_eq_some_iff.1 hs
          exact ⟨⟨hbound, fun _ hd => absurd hd (by simp [resume])⟩, ⟨rfl, rfl⟩, rfl⟩
  | onData =>
      cases tasks with
      | nil => exact absurd hs (by simp [Connection.step])
      | cons dataStr tasks =>
          obtain rfl := Option.some.inj hs
          cases derived with
          | webSocket w => exact absurd (hsession w rfl).2 (by simp)
          | restApi r =>
              exact ⟨⟨hbound, fun _ hd => absurd hd (by simp)⟩, ⟨rfl, rfl⟩, List.append_nil _⟩
  | webSocket a =>
      cases derived with
      | restApi r => exact absurd hs (by simp [Connection.step])
      | webSocket w =>
          obtain ⟨w', hw, rfl⟩ := Option.map_eq_some_iff.1 hs
          obtain ⟨hinv, htasks⟩ := hsession w rfl
          have hinv' := hinv.step hw
          obtain ⟨hreceived, hpassed⟩ := WebSocketHandler.records_step hw
          refine ⟨⟨hbound, fun v hv => ?_⟩, ⟨rfl, rfl⟩, ?_⟩
          · obtain rfl := DerivedHandler.webSocket.inj hv
            exact ⟨hinv', htasks⟩
          · rw [hinv'.accounted, hpassed, hinv.accounted, List.append_assoc, List.append_assoc]
              at hreceived
            exact (List.append_cancel_left hreceived).symm

end Connection

/-! ## The program -/

/-- The callback a task calls, and with what. -/
def Task.call : Task → Option (ClientCallback × OrderBook)
  | .poll => none
  | .deliver msg =>
      match msg.type, msg.source, msg.data with
      | .orderBook, .webSocket, some book => some (.onOrderBookWS, book)
      | .orderBook, .restApi, some book => some (.onOrderBookREST, book)
      | _, _, _ => none

/-- The call the consumer's next task makes. -/
def Consumer.nextCall (s : Consumer) : Option (ClientCallback × OrderBook) :=
  s.ioContext.head?.bind Task.call

/-- How that callback ends the program, if it does. -/
def Consumer.failure (callbacks : Callbacks) (s : Consumer) : Option Ending :=
  match s.nextCall with
  | none => none
  | some (callback, book) =>
      match callbacks callback book with
      | .ok () => none
      | .error ending => some ending

/-- The connections and the consumer of a running client, what has ended it, and what has happened
    so far: the payloads the connections have received, and those `on_data` was called with, each
    with the number of its connection. -/
structure Program where
  connections : List Connection
  consumer : Consumer
  ended : Option Ending
  received : List (ℕ × Bytes)
  passed : List (ℕ × Bytes)

/-- What can happen next. -/
inductive ProgramAction where
  | connection (i : ℕ) (a : ConnectionAction)
  /-- The consumer's `io_context` runs its first task. -/
  | handle

namespace Program

/-- The program when `Client::run` has started everything. The cache is the one the client's
    constructor makes, with whatever its memory held in `U_`. -/
def start (client : StartedClient) (u₀ : UInt64) : Program where
  connections := (client.connectionManagers.flatMap (·.handlers)).map fun handler =>
    { handler, tasks := [] }
  consumer := (Consumer.init (.fresh .default u₀)).run
  ended := none
  received := []
  passed := []

/-- `on_data` of connection `i` is called. A client makes one cache, so a handler that is bound is
    bound to the consumer's. -/
def onData (lib : JsonLib) (s : Program) (i : ℕ) (h : ManagedHandler) (payload : Bytes) : Program :=
  let s := { s with passed := s.passed ++ [(i, payload)] }
  match h.bufferQueue with
  -- `assert(buffer_queue_ != nullptr)`
  | none => { s with ended := some .assertion }
  | some _ =>
      { s with
        consumer := Feed.onData lib s.consumer { handler := h.connectionHandler, payload }
        ended :=
          match (h.connectionHandler.onData lib s.consumer.bufferQueue payload).1 with
          | .ok () => none
          | .error e => some (.exception e) }

/-- Connection `i` takes a step. -/
def advance (lib : JsonLib) (s : Program) (i : ℕ) (a : ConnectionAction) (c c' : Connection) :
    Program :=
  let s := { s with
    connections := s.connections.set i c'
    received := s.received ++ a.arrivals.map (i, ·) }
  match c.payload a with
  | none => s
  | some payload => s.onData lib i c.handler payload

def step (lib : JsonLib) (callbacks : Callbacks) (s : Program) (a : ProgramAction) :
    Option Program :=
  if s.ended = none then
    match a with
    | .connection i a =>
        s.connections[i]?.bind fun c => (c.step a).map fun c' => s.advance lib i a c c'
    | .handle => (s.consumer.step lib .handle).map fun consumer =>
        { s with consumer, ended := s.consumer.failure callbacks }
  else none

/-- What a record holds of connection `i`. -/
def payloadsOf (i : ℕ) (record : List (ℕ × Bytes)) : List Bytes :=
  record.filterMap fun e => if e.1 = i then some e.2 else none

/-- What `on_data` of each connection is called on. -/
def handlers (s : Program) : List ConnectionHandler :=
  s.connections.map (·.handler.connectionHandler)

/-- A payload passed to `on_data`, with the handler it is passed to. -/
def reception (handlers : List ConnectionHandler) (e : ℕ × Bytes) : Option Reception :=
  handlers[e.1]?.map fun handler => { handler, payload := e.2 }

/-- The calls of `on_data`, in the order in which they came. -/
def receptions (s : Program) : List Reception := s.passed.filterMap (reception s.handlers)

/-- The program, seen from the cache: payloads, whoever receives them, and the consumer. -/
def feed (s : Program) : Feed where
  consumer := s.consumer
  received := s.receptions

/-- The queue has room whenever `on_data` is called. -/
def HasRoom (s : Program) : ProgramAction → Prop
  | .connection i a => ∀ c ∈ s.connections[i]?, c.payload a ≠ none →
      ¬ s.consumer.bufferQueue.cacheQueue.Full
  | .handle => True

instance decidableHasRoom (s : Program) : ∀ a, Decidable (s.HasRoom a)
  | .connection i a =>
      inferInstanceAs (Decidable (∀ c ∈ s.connections[i]?, c.payload a ≠ none →
        ¬ s.consumer.bufferQueue.cacheQueue.Full))
  | .handle => isTrue trivial

variable {lib : JsonLib} {callbacks : Callbacks} {s s' : Program} {a : ProgramAction}

/-! ## What one step can do -/

/-- How `on_data` of a handler ends the program, if it does. -/
def failure (lib : JsonLib) (s : Program) (r : Reception) : Option Ending :=
  match (r.handler.onData lib s.consumer.bufferQueue r.payload).1 with
  | .ok () => none
  | .error e => some (.exception e)

/-- In a handler that is bound the assertion holds. -/
theorem onData_of_bound {h : ManagedHandler} (hbound : h.bufferQueue ≠ none) (lib : JsonLib)
    (s : Program) (i : ℕ) (payload : Bytes) :
    s.onData lib i h payload = { s with
      consumer := Feed.onData lib s.consumer { handler := h.connectionHandler, payload }
      ended := s.failure lib { handler := h.connectionHandler, payload }
      passed := s.passed ++ [(i, payload)] } := by
  obtain ⟨cache, hcache⟩ := Option.ne_none_iff_exists'.1 hbound
  unfold onData
  rw [hcache]
  rfl

/-- Every step: a connection goes on, and may call `on_data`, or a task of the consumer runs. -/
inductive Steps (lib : JsonLib) (callbacks : Callbacks) (s : Program) :
    ProgramAction → Program → Prop
  | quiet {i : ℕ} {a : ConnectionAction} {c c' : Connection} (hc : s.connections[i]? = some c)
      (hstep : c.step a = some c') (hpayload : c.payload a = none) :
      Steps lib callbacks s (.connection i a) { s with
        connections := s.connections.set i c'
        received := s.received ++ a.arrivals.map (i, ·) }
  | onData {i : ℕ} {a : ConnectionAction} {c c' : Connection} {payload : Bytes}
      (hc : s.connections[i]? = some c) (hstep : c.step a = some c')
      (hpayload : c.payload a = some payload) :
      Steps lib callbacks s (.connection i a) ({ s with
        connections := s.connections.set i c'
        received := s.received ++ a.arrivals.map (i, ·) }.onData lib i c.handler payload)
  | handle {consumer : Consumer} (hstep : s.consumer.step lib .handle = some consumer) :
      Steps lib callbacks s .handle
        { s with consumer, ended := s.consumer.failure callbacks }

theorem steps_of_step (hs : s.step lib callbacks a = some s') :
    s.ended = none ∧ Steps lib callbacks s a s' := by
  unfold step at hs
  split at hs
  · next hended =>
      refine ⟨hended, ?_⟩
      cases a with
      | connection i a =>
          obtain ⟨c, hc, hmap⟩ := Option.bind_eq_some_iff.1 hs
          obtain ⟨c', hstep, rfl⟩ := Option.map_eq_some_iff.1 hmap
          unfold advance
          cases hpayload : c.payload a with
          | none => exact .quiet hc hstep hpayload
          | some payload => exact .onData hc hstep hpayload
      | handle =>
          obtain ⟨consumer, hstep, rfl⟩ := Option.map_eq_some_iff.1 hs
          exact .handle hstep
  · exact absurd hs (by simp)

/-! ## What holds of the connections -/

/-- Every connection keeps its invariant, and what it has received and not passed on waits. -/
def Accounted (s : Program) : Prop :=
  ∀ (i : ℕ) c, s.connections[i]? = some c →
    c.Inv ∧ payloadsOf i s.received = payloadsOf i s.passed ++ c.waiting

theorem payloadsOf_append (i : ℕ) (record record' : List (ℕ × Bytes)) :
    payloadsOf i (record ++ record') = payloadsOf i record ++ payloadsOf i record' :=
  List.filterMap_append

theorem payloadsOf_map (i j : ℕ) (payloads : List Bytes) :
    payloadsOf j (payloads.map (i, ·)) = if i = j then payloads else [] := by
  unfold payloadsOf
  rw [List.filterMap_map]
  by_cases h : i = j
  · simp [h]
  · simp [h]

/-- A connection that has gone on, in the place it had. -/
theorem Accounted.set (h : s.Accounted) {i : ℕ} {a : ConnectionAction} {c c' : Connection}
    (hc : s.connections[i]? = some c) (hstep : c.step a = some c') (consumer : Consumer)
    (ended : Option Ending) :
    Accounted
      { connections := s.connections.set i c'
        consumer
        ended
        received := s.received ++ a.arrivals.map (i, ·)
        passed := s.passed ++ (c.payload a).toList.map (i, ·) } := by
  intro j d hd
  obtain ⟨hinv, hwaiting⟩ := h i c hc
  obtain ⟨hinv', -, hmoved⟩ := hinv.step hstep
  show d.Inv ∧ payloadsOf j (s.received ++ _) = payloadsOf j (s.passed ++ _) ++ d.waiting
  rw [payloadsOf_append, payloadsOf_append, payloadsOf_map, payloadsOf_map]
  by_cases hij : i = j
  · subst hij
    rw [List.getElem?_set_self (List.getElem?_eq_some_iff.1 hc).1] at hd
    obtain rfl := Option.some.inj hd
    rw [if_pos rfl, if_pos rfl, hwaiting, List.append_assoc, hmoved, List.append_assoc]
    exact ⟨hinv', rfl⟩
  · rw [List.getElem?_set_ne hij] at hd
    rw [if_neg hij, if_neg hij, List.append_nil, List.append_nil]
    exact h j d hd

/-- **Step lemma.** A payload that a step receives or takes up waits at its connection or has been
    passed to `on_data`. -/
theorem Accounted.step (h : s.Accounted) (hs : s.step lib callbacks a = some s') :
    s'.Accounted := by
  cases (steps_of_step hs).2 with
  | @quiet i a c c' hc hstep hpayload =>
      have hset := h.set hc hstep s.consumer s.ended
      rw [hpayload] at hset
      simpa using hset
  | @onData i a c c' payload hc hstep hpayload =>
      rw [onData_of_bound (h i c hc).1.bound]
      have hset := h.set hc hstep
      rw [hpayload] at hset
      exact hset _ _
  | handle hstep => exact h

theorem Accounted.handlers_set (h : s.Accounted) {i : ℕ} {a : ConnectionAction}
    {c c' : Connection} (hc : s.connections[i]? = some c) (hstep : c.step a = some c') :
    (s.connections.set i c').map (·.handler.connectionHandler) = s.handlers := by
  obtain ⟨-, hsame, -⟩ := (h i c hc).1.step hstep
  have hget : s.handlers[i]? = some c.handler.connectionHandler := by
    rw [handlers, List.getElem?_map, hc]
    rfl
  obtain ⟨hlt, hget⟩ := List.getElem?_eq_some_iff.1 hget
  rw [List.map_set, hsame.receiver, ← hget]
  exact List.set_getElem_self hlt

theorem handlers_step (h : s.Accounted) (hs : s.step lib callbacks a = some s') :
    s'.handlers = s.handlers := by
  cases (steps_of_step hs).2 with
  | quiet hc hstep hpayload => exact h.handlers_set hc hstep
  | @onData i a c c' payload hc hstep hpayload =>
      rw [onData_of_bound (h i c hc).1.bound]
      exact h.handlers_set hc hstep
  | handle hstep => rfl

/-! ## The program and the feed -/

/-- What a step of the program is, seen from the cache, and whether it ends the program. -/
inductive FeedSteps (lib : JsonLib) (callbacks : Callbacks) (s : Program) :
    ProgramAction → Program → Prop
  | quiet {i : ℕ} {a : ConnectionAction} {s' : Program} (hsame : s'.feed = s.feed)
      (hended : s'.ended = none) : FeedSteps lib callbacks s (.connection i a) s'
  | receive {i : ℕ} {a : ConnectionAction} {s' : Program} (r : Reception)
      (hstep : s.feed.step lib (.receive r) = some s'.feed) (hended : s'.ended = s.failure lib r)
      (hroom : s.HasRoom (.connection i a) → s.feed.HasRoom (.receive r)) :
      FeedSteps lib callbacks s (.connection i a) s'
  | handle {s' : Program} (hstep : s.feed.step lib .handle = some s'.feed)
      (hended : s'.ended = s.consumer.failure callbacks) : FeedSteps lib callbacks s .handle s'

/-- **The program refines the feed.** A step of a connection is a payload received or nothing, and a
    task of the consumer is that task. -/
theorem feedSteps_of_step (h : s.Accounted) (hs : s.step lib callbacks a = some s') :
    FeedSteps lib callbacks s a s' := by
  have hhandlers := handlers_step h hs
  obtain ⟨hended, hsteps⟩ := steps_of_step hs
  cases hsteps with
  | quiet hc hstep hpayload =>
      refine .quiet ?_ hended
      unfold feed receptions
      rw [hhandlers]
  | @onData i a c c' payload hc hstep hpayload =>
      rw [onData_of_bound (h i c hc).1.bound] at hhandlers ⊢
      have hreception : reception s.handlers (i, payload) =
          some { handler := c.handler.connectionHandler, payload } := by
        rw [reception, handlers, List.getElem?_map, hc]
        rfl
      refine .receive { handler := c.handler.connectionHandler, payload } ?_ rfl ?_
      · unfold feed receptions
        rw [hhandlers, List.filterMap_append, List.filterMap_cons_some hreception]
        rfl
      · exact fun hroom => hroom c hc (by rw [hpayload]; exact Option.some_ne_none _)
  | @handle consumer hstep =>
      refine .handle ?_ rfl
      show (s.consumer.step lib .handle).map _ = _
      rw [hstep]
      rfl

/-- The invariant of a running program. -/
structure Inv (lib : JsonLib) (u₀ : UInt64) (s : Program) : Prop where
  accounted : s.Accounted
  consumer : ∃ held, Consumer.Inv s.consumer held
  filtered : s.feed.Filtered lib u₀

variable {u₀ : UInt64}

/-- **Step lemma.** Every step keeps the invariant. -/
theorem Inv.step (h : Inv lib u₀ s) (hs : s.step lib callbacks a = some s') : Inv lib u₀ s' := by
  have hfeed : ∀ {b : FeedAction}, s.feed.step lib b = some s'.feed →
      (∃ held, Consumer.Inv s'.consumer held) ∧ s'.feed.Filtered lib u₀ := by
    intro b hb
    obtain ⟨acts, hacts⟩ := Feed.step_consumer hb
    refine ⟨?_, h.filtered.step hb⟩
    exact run_invariant (fun t => ∃ held, Consumer.Inv t held)
      (fun _ _ _ ⟨_, h⟩ hs => h.step hs) h.consumer hacts
  cases feedSteps_of_step h.accounted hs with
  | quiet hsame hended =>
      have hconsumer : s'.consumer = s.consumer := congrArg Feed.consumer hsame
      exact ⟨h.accounted.step hs, hconsumer ▸ h.consumer, hsame ▸ h.filtered⟩
  | receive r hstep hended hroom => exact ⟨h.accounted.step hs, (hfeed hstep).1, (hfeed hstep).2⟩
  | handle hstep hended => exact ⟨h.accounted.step hs, (hfeed hstep).1, (hfeed hstep).2⟩

end Program

end MarketFeed
