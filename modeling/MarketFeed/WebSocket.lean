import MarketFeed.Basic
import MarketFeed.Library.Execution

set_option autoImplicit false

/-! # `WebSocketHandler` (`include/websocket.h`, `src/websocket.cpp`)

`run` posts a handler that starts a resolve. From there each completion handler starts the next
operation, up to the read, whose handler starts another read; an error ends the session. A message
is copied out of `buffer` and posted to the `io_context`, so payloads may wait there while later
reads complete.

`received` and `passed` are history variables: the payloads `async_read` has put into the buffer,
and those `on_data` has been called with. -/

namespace MarketFeed

open Execution

/-- The asynchronous operations of a session, with the members they are given. -/
inductive WebSocketOperation where
  | resolve (host port : String)
  | connect
  | sslHandshake
  | handshake (host endpoint : String)
  | read
deriving DecidableEq, Repr

/-- A handler posted to the `io_context`. -/
inductive WebSocketTask where
  /-- The handler `run` posts. -/
  | start
  | onData (dataStr : Bytes)
deriving DecidableEq, Repr

/-- What the trace records: an operation is started over the contents of `buffer`, or its handler is
    called. -/
inductive WebSocketEvent where
  | started (op : WebSocketOperation) (buffer : Bytes)
  | completed (op : WebSocketOperation) (error : ErrorCode)
deriving DecidableEq, Repr

/-- The members of `WebSocketHandler` a session uses, and what the `io_context` holds for it. -/
structure WebSocketHandler where
  host : String
  port : String
  endpoint : String
  buffer : Bytes
  /-- Operations started whose handler has not been called. -/
  pending : List WebSocketOperation
  /-- Posted handlers, oldest first. -/
  tasks : List WebSocketTask
  received : List Bytes
  passed : List Bytes
  trace : List WebSocketEvent

/-- What can happen next. -/
inductive WebSocketAction where
  /-- The oldest posted handler runs. -/
  | task
  /-- The handler of a pending operation is called. A read has put `data` into `buffer` by then: the
      whole message, or on an error perhaps a part of it. -/
  | complete (op : WebSocketOperation) (error : ErrorCode) (data : Bytes)

namespace WebSocketHandler

/-- A handler whose endpoint has been set and on which nothing has been started. -/
def idle (host port endpoint : String) : WebSocketHandler where
  host := host
  port := port
  endpoint := endpoint
  buffer := []
  pending := []
  tasks := []
  received := []
  passed := []
  trace := []

/-- `asio::post` -/
def post (s : WebSocketHandler) (task : WebSocketTask) : WebSocketHandler :=
  { s with tasks := s.tasks ++ [task] }

/-- Start an asynchronous operation. -/
def start (s : WebSocketHandler) (op : WebSocketOperation) : WebSocketHandler :=
  { s with pending := s.pending ++ [op], trace := s.trace ++ [.started op s.buffer] }

/-- `void WebSocketHandler::run()` -/
def run (s : WebSocketHandler) : WebSocketHandler := s.post .start

/-- The handler `run` posts. -/
def onStart (s : WebSocketHandler) : WebSocketHandler := s.start (.resolve s.host s.port)

/-- What the handlers of the first three stages have in common: if there was no error, start the
    next operation. -/
def onCompletion (next : WebSocketOperation) (s : WebSocketHandler) (error : ErrorCode) :
    WebSocketHandler :=
  if error = .success then s.start next else s

/-- `on_resolve` starts `async_connect`. -/
def onResolve := onCompletion .connect

/-- `on_connect` starts the TLS handshake. -/
def onConnect := onCompletion .sslHandshake

/-- `on_ssl_handshake` starts the WebSocket handshake with `host_` and `endpoint_`. -/
def onSslHandshake (s : WebSocketHandler) (error : ErrorCode) : WebSocketHandler :=
  onCompletion (.handshake s.host s.endpoint) s error

/-- `void WebSocketHandler::do_read()` -/
def doRead (s : WebSocketHandler) : WebSocketHandler := s.start .read

/-- `on_handshake` -/
def onHandshake (s : WebSocketHandler) (error : ErrorCode) : WebSocketHandler :=
  if error = .success then s.doRead else s

/-- `on_read` -/
def onRead (s : WebSocketHandler) (error : ErrorCode) : WebSocketHandler :=
  if error = .success then
    let dataStr := s.buffer
    -- `buffer.consume(buffer.size())`
    let s := { s with buffer := s.buffer.drop s.buffer.length }
    (s.post (.onData dataStr)).start .read
  else s

/-- The operation is over. -/
def settle (s : WebSocketHandler) (op : WebSocketOperation) (error : ErrorCode) :
    WebSocketHandler :=
  { s with pending := s.pending.erase op, trace := s.trace ++ [.completed op error] }

/-- What `async_read` has done by the time its handler is called. -/
def receive (s : WebSocketHandler) (error : ErrorCode) (data : Bytes) : WebSocketHandler :=
  { s with
    buffer := s.buffer ++ data
    received := s.received ++ if error = .success then [data] else [] }

/-- The handler of a pending operation is called. -/
def complete (s : WebSocketHandler) (op : WebSocketOperation) (error : ErrorCode) (data : Bytes) :
    WebSocketHandler :=
  let s := s.settle op error
  match op with
  | .resolve _ _ => s.onResolve error
  | .connect => s.onConnect error
  | .sslHandshake => s.onSslHandshake error
  | .handshake _ _ => s.onHandshake error
  | .read => (s.receive error data).onRead error

/-- A posted handler runs. -/
def runTask (s : WebSocketHandler) : WebSocketTask → WebSocketHandler
  | .start => s.onStart
  | .onData dataStr => { s with passed := s.passed ++ [dataStr] }

def step (s : WebSocketHandler) : WebSocketAction → Option WebSocketHandler
  | .task =>
      match s.tasks with
      | [] => none
      | task :: tasks => some ({ s with tasks }.runTask task)
  | .complete op error data => if op ∈ s.pending then some (s.complete op error data) else none

/-! ## What one step can do -/

/-- The operation that follows a successful one. -/
def next (s : WebSocketHandler) : WebSocketOperation → WebSocketOperation
  | .resolve _ _ => .connect
  | .connect => .sslHandshake
  | .sslHandshake => .handshake s.host s.endpoint
  | .handshake _ _ => .read
  | .read => .read

/-- A message has come in and has been moved from the buffer to the posted handlers. -/
def takeMessage (s : WebSocketHandler) (data : Bytes) : WebSocketHandler :=
  { s with
    buffer := []
    tasks := s.tasks ++ [.onData (s.buffer ++ data)]
    received := s.received ++ [data] }

/-- Every step: it starts the session, passes on a payload, advances to the next stage, takes a
    message out of the buffer, or ends the session. -/
inductive Steps (s : WebSocketHandler) : WebSocketAction → WebSocketHandler → Prop
  | start {tasks : List WebSocketTask} (htasks : s.tasks = .start :: tasks) :
      Steps s .task ({ s with tasks }.start (.resolve s.host s.port))
  | onData {dataStr : Bytes} {tasks : List WebSocketTask}
      (htasks : s.tasks = .onData dataStr :: tasks) :
      Steps s .task { s with tasks, passed := s.passed ++ [dataStr] }
  | advance {op : WebSocketOperation} (data : Bytes) (hop : op ∈ s.pending) (hread : op ≠ .read) :
      Steps s (.complete op .success data) ((s.settle op .success).start (s.next op))
  | message (data : Bytes) (hop : .read ∈ s.pending) :
      Steps s (.complete .read .success data)
        (((s.settle .read .success).takeMessage data).start .read)
  | stop {op : WebSocketOperation} {error : ErrorCode} {data : Bytes} (buffer : Bytes)
      (hop : op ∈ s.pending) (herror : error ≠ .success) :
      Steps s (.complete op error data) { s.settle op error with buffer }

theorem complete_success_of_ne_read (s : WebSocketHandler) {op : WebSocketOperation}
    (hread : op ≠ .read) (data : Bytes) :
    s.complete op .success data = (s.settle op .success).start (s.next op) := by
  cases op with
  | resolve host port => rfl
  | connect => rfl
  | sslHandshake => rfl
  | handshake host endpoint => rfl
  | read => exact absurd rfl hread

theorem complete_read_success (s : WebSocketHandler) (data : Bytes) :
    s.complete .read .success data
      = ((s.settle .read .success).takeMessage data).start .read := by
  unfold complete onRead receive
  simp only [if_pos, List.drop_length]
  rfl

theorem complete_error (s : WebSocketHandler) (op : WebSocketOperation) {error : ErrorCode}
    (herror : error ≠ .success) (data : Bytes) :
    ∃ buffer, s.complete op error data = { s.settle op error with buffer } := by
  cases op with
  | resolve host port => exact ⟨s.buffer, if_neg herror⟩
  | connect => exact ⟨s.buffer, if_neg herror⟩
  | sslHandshake => exact ⟨s.buffer, if_neg herror⟩
  | handshake host endpoint => exact ⟨s.buffer, if_neg herror⟩
  | read =>
      refine ⟨s.buffer ++ data, (if_neg herror).trans ?_⟩
      unfold receive
      rw [if_neg herror, List.append_nil]
      rfl

theorem steps_of_step {s s' : WebSocketHandler} {a : WebSocketAction} (h : s.step a = some s') :
    Steps s a s' := by
  cases a with
  | task =>
      simp only [step] at h
      split at h
      · exact absurd h (by simp)
      · next task tasks htasks =>
          obtain rfl := Option.some.inj h
          cases task with
          | start => exact .start htasks
          | onData dataStr => exact .onData htasks
  | complete op error data =>
      simp only [step] at h
      split at h
      · next hop =>
          obtain rfl := Option.some.inj h
          by_cases herror : error = .success
          · subst herror
            by_cases hread : op = .read
            · subst hread
              rw [complete_read_success]
              exact .message data hop
            · rw [complete_success_of_ne_read s hread]
              exact .advance data hop hread
          · obtain ⟨buffer, hstop⟩ := s.complete_error op herror data
            rw [hstop]
            exact .stop buffer hop herror
      · exact absurd h (by simp)

/-! ## What holds at every moment -/

/-- The payloads held by posted handlers, oldest first. -/
def postedData (tasks : List WebSocketTask) : List Bytes :=
  tasks.filterMap fun | .onData dataStr => some dataStr | .start => none

/-- `e` may come after `before`: an operation is started first of all, or as the next stage after
    the success of the one before it; a handler is called after its operation was started. -/
def Follows (s : WebSocketHandler) (before : List WebSocketEvent) : WebSocketEvent → Prop
  | .started op _ => (before = [] ∧ op = .resolve s.host s.port) ∨
      ∃ prev, before.getLast? = some (.completed prev .success) ∧ op = s.next prev
  | .completed op _ => ∃ buffer, before.getLast? = some (.started op buffer)

/-- No handler has been called with an error. -/
def Clean (trace : List WebSocketEvent) : Prop :=
  ∀ op error, .completed op error ∈ trace → error = .success

/-- What the record of a session shows at every moment. -/
structure Recorded (s : WebSocketHandler) : Prop where
  ordered : AtEach s.Follows s.trace
  /-- Nothing comes after an error. -/
  stops : AtEach (fun before _ => Clean before) s.trace
  emptyBuffer : ∀ buffer, .started .read buffer ∈ s.trace → buffer = []
  /-- What has been received and not passed on is held by one posted handler each. -/
  accounted : s.received = s.passed ++ postedData s.tasks

/-- The guarantees of a session. -/
structure Sound (s : WebSocketHandler) : Prop extends Recorded s where
  onePending : s.pending.length ≤ 1
  passed : s.passed <+: s.received

/-- Where a session stands: not begun, with one operation under way, or over. -/
inductive Phase (s : WebSocketHandler) : Prop
  | posted (htasks : s.tasks = [.start]) (hpending : s.pending = []) (htrace : s.trace = [])
      (hbuffer : s.buffer = [])
  | busy (op : WebSocketOperation) (hpending : s.pending = [op])
      (hlast : ∃ buffer, s.trace.getLast? = some (.started op buffer)) (hclean : Clean s.trace)
      (hbuffer : s.buffer = []) (htasks : .start ∉ s.tasks)
  | stopped (hpending : s.pending = []) (htasks : .start ∉ s.tasks)

/-- The invariant of a session. -/
structure Inv (s : WebSocketHandler) : Prop extends Recorded s where
  phase : s.Phase

/-- What holds between the end of an operation and the start of the next. -/
structure Settled (s : WebSocketHandler) (op : WebSocketOperation) (error : ErrorCode) : Prop
    extends Recorded s where
  pending : s.pending = []
  last : s.trace.getLast? = some (.completed op error)
  clean : error = .success → Clean s.trace
  buffer : s.buffer = []
  tasks : .start ∉ s.tasks

variable {s s' : WebSocketHandler} {op : WebSocketOperation} {error : ErrorCode}

theorem Clean.started {trace : List WebSocketEvent} (h : Clean trace) (op : WebSocketOperation)
    (buffer : Bytes) : Clean (trace ++ [.started op buffer]) := by
  intro op' error hmem
  rcases List.mem_append.1 hmem with hold | hnew
  · exact h op' error hold
  · exact absurd hnew (by simp)

theorem postedData_concat (tasks : List WebSocketTask) (dataStr : Bytes) :
    postedData (tasks ++ [.onData dataStr]) = postedData tasks ++ [dataStr] := by
  unfold postedData
  rw [List.filterMap_append]
  rfl

theorem Inv.sound (h : Inv s) : s.Sound where
  toRecorded := h.toRecorded
  onePending := by
    cases h.phase with
    | posted htasks hpending htrace hbuffer => simp [hpending]
    | busy op hpending hlast hclean hbuffer htasks => simp [hpending]
    | stopped hpending htasks => simp [hpending]
  passed := ⟨_, h.accounted.symm⟩

theorem inv_run_idle (host port endpoint : String) : Inv (idle host port endpoint).run where
  phase := .posted rfl rfl rfl rfl
  ordered := atEach_nil _
  stops := atEach_nil _
  emptyBuffer _ h := absurd h List.not_mem_nil
  accounted := rfl

/-- An operation that ends was the only one under way. -/
theorem Inv.settle (h : Inv s) (hop : op ∈ s.pending) (error : ErrorCode) :
    Settled (s.settle op error) op error := by
  cases h.phase with
  | posted htasks hpending htrace hbuffer =>
      rw [hpending] at hop
      exact absurd hop List.not_mem_nil
  | stopped hpending htasks =>
      rw [hpending] at hop
      exact absurd hop List.not_mem_nil
  | busy op' hpending hlast hclean hbuffer htasks =>
      obtain rfl : op = op' := List.mem_singleton.1 (hpending ▸ hop)
      refine
        { ordered := atEach_concat.2 ⟨h.ordered, hlast⟩
          stops := atEach_concat.2 ⟨h.stops, hclean⟩
          emptyBuffer := ?_
          accounted := h.accounted
          pending := ?_
          last := List.getLast?_concat
          clean := ?_
          buffer := hbuffer
          tasks := htasks }
      · intro buffer hmem
        rcases List.mem_append.1 hmem with hold | hnew
        · exact h.emptyBuffer buffer hold
        · exact absurd hnew (by simp)
      · show s.pending.erase op = []
        rw [hpending, List.erase_cons_head]
      · rintro rfl op' error' hmem
        rcases List.mem_append.1 hmem with hold | hnew
        · exact hclean op' error' hold
        · exact (by simpa using hnew : op' = op ∧ error' = .success).2

theorem Settled.stop (h : Settled s op error) (buffer : Bytes) : Inv { s with buffer } where
  toRecorded := { h with }
  phase := .stopped h.pending h.tasks

theorem Recorded.start (h : Recorded s) (hfollows : s.Follows s.trace (.started op s.buffer))
    (hclean : Clean s.trace) (hbuffer : s.buffer = []) : Recorded (s.start op) where
  ordered := atEach_concat.2 ⟨h.ordered, hfollows⟩
  stops := atEach_concat.2 ⟨h.stops, hclean⟩
  emptyBuffer buffer hmem := by
    rcases List.mem_append.1 hmem with hold | hnew
    · exact h.emptyBuffer buffer hold
    · obtain ⟨-, rfl⟩ : _ ∧ buffer = s.buffer := by simpa using hnew
      exact hbuffer
  accounted := h.accounted

theorem phase_start (s : WebSocketHandler) (op : WebSocketOperation) (hpending : s.pending = [])
    (hclean : Clean s.trace) (hbuffer : s.buffer = []) (htasks : .start ∉ s.tasks) :
    Phase (s.start op) :=
  .busy op (by rw [WebSocketHandler.start, hpending, List.nil_append]) ⟨_, List.getLast?_concat⟩
    (hclean.started _ _) hbuffer htasks

theorem Settled.start (h : Settled s op .success) : Inv (s.start (s.next op)) where
  toRecorded := h.toRecorded.start (Or.inr ⟨op, h.last, rfl⟩) (h.clean rfl) h.buffer
  phase := phase_start s _ h.pending (h.clean rfl) h.buffer h.tasks

/-- Moving a message out of the empty buffer adds exactly its payload to the posted handlers. -/
theorem Settled.takeMessage (h : Settled s op error) (data : Bytes) :
    Settled (s.takeMessage data) op error where
  pending := h.pending
  last := h.last
  clean := h.clean
  buffer := rfl
  tasks hmem := by
    rcases List.mem_append.1 hmem with hold | hnew
    · exact h.tasks hold
    · exact absurd hnew (by simp)
  ordered := h.ordered
  stops := h.stops
  emptyBuffer := h.emptyBuffer
  accounted := by
    show s.received ++ [data] = s.passed ++ postedData (s.tasks ++ [.onData (s.buffer ++ data)])
    rw [h.buffer, List.nil_append, postedData_concat, h.accounted, List.append_assoc]

/-- The posted handler that starts the session is the only one, and runs first. -/
theorem Inv.startSession (h : Inv s) {tasks : List WebSocketTask}
    (htasks : s.tasks = .start :: tasks) :
    Inv ({ s with tasks }.start (.resolve s.host s.port)) := by
  cases h.phase with
  | posted honly hpending htrace hbuffer =>
      obtain rfl : tasks = [] := (List.cons_eq_cons.1 (htasks.symm.trans honly)).2
      have hclean : Clean s.trace := by
        rw [htrace]
        exact fun _ _ hmem => absurd hmem List.not_mem_nil
      have hrecorded : Recorded { s with tasks := [] } :=
        { h with accounted := h.accounted.trans (by rw [honly]; rfl) }
      exact
        { toRecorded := hrecorded.start (Or.inl ⟨htrace, rfl⟩) hclean hbuffer
          phase := phase_start { s with tasks := [] } _ hpending hclean hbuffer List.not_mem_nil }
  | busy op hpending hlast hclean hbuffer hnone =>
      rw [htasks] at hnone
      exact absurd List.mem_cons_self hnone
  | stopped hpending hnone =>
      rw [htasks] at hnone
      exact absurd List.mem_cons_self hnone

/-- A payload that is passed on moves from the posted handlers to the strings passed. -/
theorem Inv.pass (h : Inv s) {dataStr : Bytes} {tasks : List WebSocketTask}
    (htasks : s.tasks = .onData dataStr :: tasks) :
    Inv { s with tasks, passed := s.passed ++ [dataStr] } where
  phase := by
    have hsub : .start ∉ s.tasks → .start ∉ tasks := by
      rw [htasks]
      exact fun hnone hmem => hnone (List.mem_cons_of_mem _ hmem)
    cases h.phase with
    | posted honly hpending htrace hbuffer => exact absurd (htasks.symm.trans honly) (by simp)
    | busy op hpending hlast hclean hbuffer hnone =>
        exact .busy op hpending hlast hclean hbuffer (hsub hnone)
    | stopped hpending hnone => exact .stopped hpending (hsub hnone)
  ordered := h.ordered
  stops := h.stops
  emptyBuffer := h.emptyBuffer
  accounted := by
    show s.received = (s.passed ++ [dataStr]) ++ postedData tasks
    rw [h.accounted, htasks, List.append_assoc]
    rfl

/-- **Step lemma.** Every step keeps the invariant. -/
theorem Inv.step {a : WebSocketAction} (h : Inv s) (hs : s.step a = some s') : Inv s' := by
  cases steps_of_step hs with
  | start htasks => exact h.startSession htasks
  | onData htasks => exact h.pass htasks
  | advance data hop hread => exact (h.settle hop .success).start
  | message data hop => exact ((h.settle hop .success).takeMessage data).start
  | @stop op error data buffer hop herror => exact (h.settle hop error).stop buffer

/-- **A WebSocket session.** For every order of completions, with any error codes and messages, and
    of the posted handlers: at every moment at most one operation is pending, the stages have come
    in their order and stopped at the first error, every read was started over an empty buffer, and
    the strings passed to `on_data` are a prefix of the payloads received, the rest being held by
    the posted handlers. -/
theorem session_sound (host port endpoint : String) (acts : List WebSocketAction)
    (s : WebSocketHandler)
    (hrun : Execution.run step (idle host port endpoint).run acts = some s) : s.Sound :=
  (run_invariant Inv (fun _ _ _ h hs => h.step hs) (inv_run_idle host port endpoint) hrun).sound

/-- Two messages are read before the first one is passed on; then the server closes. -/
def twoMessages : List WebSocketAction :=
  [.task, .complete (.resolve "fstream.binance.com" "443") .success [],
    .complete .connect .success [], .complete .sslHandshake .success [],
    .complete (.handshake "fstream.binance.com" "/ws/btcusdt@depth5") .success [],
    .complete .read .success [1], .complete .read .success [2], .task,
    .complete .read (.other 1) [3]]

theorem session_sound_two_messages : ∃ s,
    Execution.run step (idle "fstream.binance.com" "443" "/ws/btcusdt@depth5").run twoMessages
        = some s ∧
      s.Sound ∧ s.received = [[1], [2]] ∧ s.passed = [[1]] ∧ s.tasks = [.onData [2]] := by
  refine ⟨_, rfl, ?_, rfl, rfl, rfl⟩
  exact session_sound "fstream.binance.com" "443" "/ws/btcusdt@depth5" twoMessages _ rfl

end WebSocketHandler

end MarketFeed
