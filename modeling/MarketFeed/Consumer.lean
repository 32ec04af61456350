import MarketFeed.Cache.History
import MarketFeed.Library.Execution

set_option autoImplicit false

/-! # `Consumer` (`include/consumer.h`, `src/consumer.cpp`)

`Consumer::run` posts a poll task; a poll task moves one message from the cache into a delivery task
and posts itself again. The `io_context` is single-threaded and runs posted handlers in FIFO order,
so it is a list of tasks, and a step runs its first task to the end. Feed threads call `encache`
between tasks, and further poll loops may be started at any time.

The history variables `accepted`, `decached` and `dispatched` follow a message on its way, and
`Consumer.Inv` says where every message is: in the ring, in one delivery task, or dispatched. -/

namespace MarketFeed

open Execution LockFreeQueue

/-- What `Consumer::run` posts to the `io_context`. -/
inductive Task where
  | poll
  | deliver (msg : Msg)

/-- The message a task holds. -/
def Task.message : Task → Option Msg
  | .poll => none
  | .deliver msg => some msg

/-- The members of `Consumer` (a callback is bound or not), the tasks of its `io_context`, and what
    has happened so far: the messages `encache` accepted, `decache` returned and `onData` was called
    with, and the order books the two callbacks received. -/
structure Consumer where
  bufferQueue : Cache
  callbackWS : Bool
  callbackREST : Bool
  ioContext : List Task
  accepted : List Msg
  decached : List Msg
  dispatched : List Msg
  callsWS : List OrderBook
  callsREST : List OrderBook

/-- What can happen next. -/
inductive ConsumerAction where
  /-- Some thread calls `Consumer::run()`. -/
  | run
  /-- A feed thread calls `encache(msg)`. -/
  | encache (msg : Msg)
  /-- The `io_context` runs its first task. -/
  | handle

namespace Consumer

/-- As `Client::setup` leaves it: both callbacks bound, nothing posted. -/
def init (bufferQueue : Cache) : Consumer where
  bufferQueue
  callbackWS := true
  callbackREST := true
  ioContext := []
  accepted := []
  decached := []
  dispatched := []
  callsWS := []
  callsREST := []

/-- `asio::post(io_context_, task)` -/
def post (s : Consumer) (task : Task) : Consumer := { s with ioContext := s.ioContext ++ [task] }

/-- `void Consumer::run()` -/
def run (s : Consumer) : Consumer := s.post .poll

/-- The body of the task that `run` posts. -/
def poll (s : Consumer) : Consumer :=
  match s.bufferQueue.decache with
  | (some msg, bufferQueue) =>
      -- the delivery is posted ahead of the next poll
      ({ s with bufferQueue, decached := s.decached ++ [msg] }.post (.deliver msg)).run
  | (none, bufferQueue) => { s with bufferQueue }.run

/-- `*std::dynamic_pointer_cast<OrderBook>(data)` -/
def deref (data : Option OrderBook) : Except CppException OrderBook :=
  match data with
  | none => .error .nullDereference
  | some book => .ok book

/-- `void Consumer::onData(const Msg& msg)`, the callbacks returning normally. -/
def onData (s : Consumer) (msg : Msg) : Except CppException Consumer :=
  match msg.type with
  | .orderBook => do
      let mut s := s
      if msg.source = .webSocket then
        if s.callbackWS then
          let book ← deref msg.data
          s := { s with callsWS := s.callsWS ++ [book] }
      if msg.source = .restApi then
        if s.callbackREST then
          let book ← deref msg.data
          s := { s with callsREST := s.callsREST ++ [book] }
      return s
  | _ => .ok s

/-- A feed thread calls `encache`; an exception leaves through the feed thread. -/
def encache (lib : JsonLib) (s : Consumer) (msg : Msg) : Consumer :=
  { s with
    bufferQueue := (s.bufferQueue.encache lib msg).2
    accepted := s.accepted ++ if (s.bufferQueue.encache lib msg).1 = .ok true then [msg] else [] }

def step (lib : JsonLib) (s : Consumer) : ConsumerAction → Option Consumer
  | .run => some s.run
  | .encache msg => some (s.encache lib msg)
  | .handle =>
      match s.ioContext with
      | [] => none
      | .poll :: rest => some { s with ioContext := rest }.poll
      | .deliver msg :: rest =>
          ({ s with ioContext := rest, dispatched := s.dispatched ++ [msg] }.onData msg).toOption

end Consumer

/-- An order book of the given source. -/
def Msg.isBookOf (source : MsgSource) (m : Msg) : Bool :=
  decide (m.type = .orderBook) && decide (m.source = source)

namespace Consumer

variable {lib : JsonLib} {s s' : Consumer} {a : ConsumerAction} {msg : Msg}

/-- A message that is not an order book changes nothing. -/
theorem onData_of_type_ne (h : msg.type ≠ .orderBook) : s.onData msg = .ok s := by
  unfold onData
  split
  · next htype => exact absurd htype h
  · rfl

theorem onData_ok {book : OrderBook} (hws : s.callbackWS = true) (hrest : s.callbackREST = true)
    (hdata : msg.data = some book) :
    s.onData msg = .ok { s with
      callsWS := s.callsWS ++ if msg.isBookOf .webSocket then [book] else []
      callsREST := s.callsREST ++ if msg.isBookOf .restApi then [book] else [] } := by
  by_cases htype : msg.type = .orderBook
  · obtain ⟨bufferQueue, callbackWS, callbackREST⟩ := s
    obtain ⟨type, source, data⟩ := msg
    subst hws hrest hdata htype
    cases source with
    | none => simp [onData, Msg.isBookOf, pure, Except.pure]
    | restApi => simp [onData, Msg.isBookOf, deref]
    | webSocket => simp [onData, Msg.isBookOf, deref]
  · rw [onData_of_type_ne htype]
    simp [Msg.isBookOf, htype]

/-- `onData` changes nothing but what the callbacks have received. -/
theorem onData_frame (h : s.onData msg = .ok s') :
    ∃ callsWS callsREST, s' = { s with callsWS, callsREST } := by
  by_cases htype : msg.type = .orderBook
  · obtain ⟨bufferQueue, callbackWS, callbackREST⟩ := s
    obtain ⟨type, source, data⟩ := msg
    subst htype
    cases source with
    | none => exact ⟨_, _, (Except.ok.inj h).symm⟩
    | restApi =>
        cases callbackREST with
        | false => exact ⟨_, _, (Except.ok.inj h).symm⟩
        | true =>
            cases data with
            | none => exact absurd h (by simp [onData, deref, bind, Except.bind])
            | some book => exact ⟨_, _, (Except.ok.inj h).symm⟩
    | webSocket =>
        cases callbackWS with
        | false => exact ⟨_, _, (Except.ok.inj h).symm⟩
        | true =>
            cases data with
            | none => exact absurd h (by simp [onData, deref, bind, Except.bind])
            | some book => exact ⟨_, _, (Except.ok.inj h).symm⟩
  · rw [onData_of_type_ne htype] at h
    exact ⟨_, _, (Except.ok.inj h).symm⟩

theorem accepted_handle (h : s.step lib .handle = some s') : s'.accepted = s.accepted := by
  simp only [step] at h
  split at h
  · exact absurd h (by simp)
  · next rest hioc =>
      obtain rfl := Option.some.inj h
      unfold poll
      split <;> rfl
  · next msg rest hioc =>
      cases hdata : Consumer.onData { s with
          ioContext := rest, dispatched := s.dispatched ++ [msg] } msg with
      | error e => exact absurd (hdata ▸ h) (by simp [Except.toOption])
      | ok t =>
          obtain ⟨callsWS, callsREST, rfl⟩ := onData_frame hdata
          rw [hdata] at h
          exact Option.some.inj h ▸ rfl

/-! ## Where every message is -/

/-- The messages held by posted delivery tasks, in the order the tasks will run. -/
def inFlight (s : Consumer) : List Msg := s.ioContext.filterMap Task.message

/-- The documents of the order books of one source. -/
def booksOf (source : MsgSource) (msgs : List Msg) : List (Option OrderBook) :=
  (msgs.filter (Msg.isBookOf source)).map (·.data)

/-- Every accepted message is dispatched, in one delivery task, or in the ring (`held`), in this
    order, and the callbacks have received what was dispatched. -/
structure Inv (s : Consumer) (held : List Msg) : Prop where
  ring : s.bufferQueue.cacheQueue.Represents s.decached.length held
  accepted : s.accepted = s.decached ++ held
  decached : s.decached = s.dispatched ++ s.inFlight
  documents : ∀ msg ∈ s.accepted, msg.data.isSome
  boundWS : s.callbackWS = true
  boundREST : s.callbackREST = true
  callsWS : s.callsWS.map some = booksOf .webSocket s.dispatched
  callsREST : s.callsREST.map some = booksOf .restApi s.dispatched

variable {held : List Msg}

theorem inv_init {c : Cache} (h : c.cacheQueue.Represents 0 []) : Inv (init c) [] where
  ring := h
  accepted := rfl
  decached := rfl
  documents := fun _ hmsg => absurd hmsg List.not_mem_nil
  boundWS := rfl
  boundREST := rfl
  callsWS := rfl
  callsREST := rfl

@[simp] theorem inFlight_post (task : Task) :
    (s.post task).inFlight = s.inFlight ++ task.message.toList := by
  unfold inFlight post
  cases task <;> simp [Task.message]

theorem inFlight_cons {task : Task} {rest : List Task} (h : s.ioContext = task :: rest) :
    s.inFlight = task.message.toList ++ rest.filterMap Task.message := by
  unfold inFlight
  rw [h]
  cases task <;> rfl

theorem booksOf_concat {book : OrderBook} (source : MsgSource) (msgs : List Msg)
    (hdata : msg.data = some book) :
    booksOf source (msgs ++ [msg])
      = booksOf source msgs ++ (if msg.isBookOf source then [book] else []).map some := by
  unfold booksOf
  by_cases h : msg.isBookOf source
  · simp [h, hdata]
  · simp [h]

theorem Inv.run (h : Inv s held) : Inv s.run held where
  ring := h.ring
  accepted := h.accepted
  decached := by
    have hnone : s.run.inFlight = s.inFlight := by simp [Consumer.run, Task.message]
    rw [hnone]
    exact h.decached
  documents := h.documents
  boundWS := h.boundWS
  boundREST := h.boundREST
  callsWS := h.callsWS
  callsREST := h.callsREST

/-- `encache` moves an accepted message into the ring. -/
theorem Inv.encache (h : Inv s held) (lib : JsonLib) (msg : Msg) :
    ∃ held', Inv (s.encache lib msg) held' := by
  refine ⟨_, ⟨Cache.represents_encache h.ring msg, ?_, h.decached, ?_, h.boundWS, h.boundREST,
    h.callsWS, h.callsREST⟩⟩
  · show s.accepted ++ _ = s.decached ++ (held ++ _)
    rw [h.accepted, List.append_assoc]
  · intro m hm
    rcases List.mem_append.1 hm with hm | hm
    · exact h.documents m hm
    · split at hm
      · next hacc =>
          rw [List.mem_singleton.1 hm]
          exact Cache.isSome_of_encache hacc
      · exact absurd hm List.not_mem_nil

theorem Inv.poll (h : Inv s held) : ∃ held', Inv s.poll held' := by
  obtain ⟨hres, hring⟩ := Cache.represents_decache h.ring
  unfold Consumer.poll
  split
  · next msg bufferQueue hdec =>
      rw [hdec] at hres hring
      obtain ⟨rest, rfl⟩ := List.head?_eq_some_iff.1 hres.symm
      refine ⟨rest, Inv.run ⟨?_, ?_, ?_, h.documents, h.boundWS, h.boundREST, h.callsWS,
        h.callsREST⟩⟩
      · show bufferQueue.cacheQueue.Represents (s.decached ++ [msg]).length rest
        rw [List.length_append]
        exact hring
      · show s.accepted = (s.decached ++ [msg]) ++ rest
        rw [h.accepted, List.append_assoc]
        rfl
      · rw [inFlight_post]
        show s.decached ++ [msg] = s.dispatched ++ (s.inFlight ++ [msg])
        rw [h.decached, List.append_assoc]
  · next bufferQueue hdec =>
      rw [hdec] at hres hring
      obtain rfl : held = [] := List.head?_eq_none_iff.1 hres.symm
      exact ⟨[], Inv.run ⟨hring, h.accepted, h.decached, h.documents, h.boundWS, h.boundREST,
        h.callsWS, h.callsREST⟩⟩

theorem Inv.deliver {rest : List Task} (h : Inv s held)
    (hioc : s.ioContext = .deliver msg :: rest) :
    ∃ s', ({ s with ioContext := rest, dispatched := s.dispatched ++ [msg] }.onData msg) = .ok s' ∧
      Inv s' held := by
  have hdec : s.decached = (s.dispatched ++ [msg]) ++ rest.filterMap Task.message := by
    rw [h.decached, inFlight_cons hioc, List.append_assoc]
    rfl
  have hmem : msg ∈ s.accepted := by
    rw [h.accepted, hdec]
    simp
  obtain ⟨book, hdata⟩ := Option.isSome_iff_exists.1 (h.documents msg hmem)
  refine ⟨_, onData_ok h.boundWS h.boundREST hdata, ?_⟩
  refine ⟨h.ring, h.accepted, hdec, h.documents, h.boundWS, h.boundREST, ?_, ?_⟩
  · show (s.callsWS ++ _).map some = booksOf .webSocket (s.dispatched ++ [msg])
    rw [booksOf_concat _ _ hdata, List.map_append, h.callsWS]
  · show (s.callsREST ++ _).map some = booksOf .restApi (s.dispatched ++ [msg])
    rw [booksOf_concat _ _ hdata, List.map_append, h.callsREST]

/-- **Step lemma.** Every step keeps every message where the invariant says it is. -/
theorem Inv.step (h : Inv s held) (hs : s.step lib a = some s') : ∃ held', Inv s' held' := by
  cases a with
  | run =>
      obtain rfl := Option.some.inj hs
      exact ⟨held, h.run⟩
  | encache msg =>
      obtain rfl := Option.some.inj hs
      exact h.encache lib msg
  | handle =>
      simp only [Consumer.step] at hs
      split at hs
      · exact absurd hs (by simp)
      · next rest hioc =>
          obtain rfl := Option.some.inj hs
          have hrest : Inv { s with ioContext := rest } held := by
            have hflight := inFlight_cons hioc
            exact { h with decached := h.decached.trans (congrArg (s.dispatched ++ ·) hflight) }
          exact hrest.poll
      · next msg rest hioc =>
          obtain ⟨t, hdata, ht⟩ := h.deliver hioc
          rw [hdata] at hs
          exact ⟨held, Option.some.inj hs ▸ ht⟩

/-- A posted task can always be run to its end. -/
theorem Inv.handle_enabled (h : Inv s held) (lib : JsonLib) (hne : s.ioContext ≠ []) :
    ∃ s', s.step lib .handle = some s' := by
  obtain ⟨task, rest, hioc⟩ := List.exists_cons_of_ne_nil hne
  unfold Consumer.step
  rw [hioc]
  cases task with
  | poll => exact ⟨_, rfl⟩
  | deliver msg =>
      obtain ⟨t, hdata, -⟩ := h.deliver hioc
      exact ⟨t, congrArg Except.toOption hdata⟩

/-- **Run lemma.** The invariant holds after every interleaving. -/
theorem inv_run {c : Cache} (hc : c.cacheQueue.Represents 0 []) {acts : List ConsumerAction}
    (hrun : Execution.run (step lib) (init c) acts = some s) : ∃ held, Inv s held :=
  run_invariant (fun s => ∃ held, Inv s held) (fun _ _ _ ⟨_, h⟩ hs => h.step hs)
    ⟨[], inv_init hc⟩ hrun

/-- **Ordered delivery, exactly once.** However `run` calls, `encache` calls and the tasks of the
    `io_context` interleave: the messages handed to `onData` are a prefix of the messages decached,
    those a prefix of the messages accepted; each decached message not yet dispatched is held by one
    posted task, in order; each callback has received exactly the order books of its source, in the
    order of dispatch; and no task ever throws. -/
theorem delivers_in_order (lib : JsonLib) (cap : Capacity) (u₀ : UInt64)
    (acts : List ConsumerAction) (s : Consumer)
    (hrun : Execution.run (step lib) (init (.fresh cap u₀)) acts = some s) :
    s.dispatched <+: s.decached ∧ s.decached <+: s.accepted ∧
      s.decached = s.dispatched ++ s.ioContext.filterMap Task.message ∧
      s.callsWS.map some = (s.dispatched.filter (Msg.isBookOf .webSocket)).map (·.data) ∧
      s.callsREST.map some = (s.dispatched.filter (Msg.isBookOf .restApi)).map (·.data) ∧
      (s.ioContext ≠ [] → ∃ s', s.step lib .handle = some s') := by
  obtain ⟨held, h⟩ := inv_run (represents_ofCapacity cap) hrun
  refine ⟨⟨_, h.decached.symm⟩, ⟨_, h.accepted.symm⟩, h.decached, h.callsWS, h.callsREST, ?_⟩
  exact h.handle_enabled lib

/-- Two poll loops, and one message of each source. -/
def twoLoopsSchedule : List ConsumerAction :=
  [.run, .encache (.update "btcusdt" 7), .run, .encache (.snapshot "btcusdt"), .handle, .handle,
    .handle, .handle, .handle]

theorem delivers_in_order_two_loops :
    ∃ s, Execution.run (step .sample) (init (.fresh .default 0)) twoLoopsSchedule = some s ∧
      s.dispatched <+: s.decached ∧
      s.dispatched = [.update "btcusdt" 7, .snapshot "btcusdt"] := by
  refine ⟨_, rfl, ?_, rfl⟩
  exact (delivers_in_order .sample .default 0 twoLoopsSchedule _ rfl).1

end Consumer

end MarketFeed
