import MarketFeed.Program.Delivery

set_option autoImplicit false

/-! # How long the program lives, and what it does while it lives

An exception in `on_data` or in a callback ends the program, and nothing else does: `alive_iff` says
that it is alive exactly as long as every payload has been digestible and every callback has
returned. While it lives, every accepted message reaches its callback within a fixed number of the
consumer's tasks (`called_within`).

All this is about runs of `Program`, in which a call of `on_data` is one step, as is a task of the
consumer. Where one thread runs every connection nothing else happens to the cache; feeds that
overlap inside `encache` may lose what was accepted (`Interleaving.lean`). -/

namespace MarketFeed

open Execution

/-! ## Calls of the callbacks -/

namespace Consumer

variable {lib : JsonLib} {s s' : Consumer} {held : List Msg}

/-- The order books a callback has been called with. -/
def calls (s : Consumer) : ClientCallback → List OrderBook
  | .onOrderBookWS => s.callsWS
  | .onOrderBookREST => s.callsREST

/-- What a call, if there is one, adds to those of a callback. -/
def callOf (callback : ClientCallback) : Option (ClientCallback × OrderBook) → List OrderBook
  | none => []
  | some (callback', book) => if callback' = callback then [book] else []

/-- A delivery calls the callback of its source. -/
theorem calls_onData {msg : Msg} {book : OrderBook} (hdata : msg.data = some book)
    (callback : ClientCallback) :
    calls { s with
        callsWS := s.callsWS ++ if msg.isBookOf .webSocket then [book] else []
        callsREST := s.callsREST ++ if msg.isBookOf .restApi then [book] else [] } callback =
      s.calls callback ++ callOf callback (Task.deliver msg).call := by
  obtain ⟨type, source, data⟩ := msg
  subst hdata
  cases type <;> cases source <;> cases callback <;> simp [calls, callOf, Task.call, Msg.isBookOf]

/-- **What a task does to the calls.** -/
theorem Inv.calls_handle (h : Inv s held) (hs : s.step lib .handle = some s')
    (callback : ClientCallback) :
    s'.calls callback = s.calls callback ++ callOf callback s.nextCall := by
  unfold nextCall
  simp only [Consumer.step] at hs
  split at hs
  · exact absurd hs (by simp)
  · next rest hioc =>
      obtain rfl := Option.some.inj hs
      have hsame : ({ s with ioContext := rest }.poll).calls callback = s.calls callback := by
        unfold Consumer.poll
        split
        · cases callback <;> rfl
        · cases callback <;> rfl
      rw [hsame, hioc]
      exact (List.append_nil _).symm
  · next msg rest hioc =>
      have hmem : msg ∈ s.accepted := by
        rw [h.accepted, h.decached, inFlight_cons hioc]
        simp [Task.message]
      obtain ⟨book, hdata⟩ := Option.isSome_iff_exists.1 (h.documents msg hmem)
      have hok := onData_ok
        (s := { s with ioContext := rest, dispatched := s.dispatched ++ [msg] })
        h.boundWS h.boundREST hdata
      rw [hok] at hs
      obtain rfl := Option.some.inj hs
      rw [hioc]
      exact calls_onData hdata callback

theorem calls_feedOnData (lib : JsonLib) (s : Consumer) (r : Reception)
    (callback : ClientCallback) : (Feed.onData lib s r).calls callback = s.calls callback := by
  rw [Feed.onData_message]
  cases r.message lib <;> cases callback <;> rfl

end Consumer

/-! ## What ends the program -/

/-- `on_data` returns, whatever the cache holds. -/
def Reception.Digestible (lib : JsonLib) (r : Reception) : Prop :=
  ∃ data, parseJsonString lib r.payload = .ok data ∧ r.handler.Digests data

/-- What `on_data` throws does not depend on the cache. -/
theorem ConnectionHandler.onData_error {lib : JsonLib} {h : ConnectionHandler} {c : Cache}
    {payload : Bytes} {e : CppException} (herror : (h.onData lib c payload).1 = .error e)
    (c' : Cache) : (h.onData lib c' payload).1 = .error e := by
  rw [onData_eq] at herror ⊢
  cases hdata : parseJsonString lib payload with
  | error e' =>
      rw [hdata] at herror
      exact herror
  | ok data =>
      rw [hdata] at herror
      cases hrank : (h.message data).rank lib with
      | error e' =>
          simp only [Cache.encache_error hrank] at herror ⊢
          exact herror
      | ok id =>
          obtain ⟨b, hb⟩ := (Cache.encache_isOk_iff (c := c)).2 ⟨id, hrank⟩
          simp only [hb] at herror
          exact absurd herror (by simp [Except.map])

namespace Program

variable {lib : JsonLib} {callbacks : Callbacks} {u₀ : UInt64} {s s' : Program}
variable {a : ProgramAction}

/-- Everything has gone well so far: `on_data` digests what it was called with, and the callbacks
    return on what they were called with. -/
structure Healthy (lib : JsonLib) (callbacks : Callbacks) (s : Program) : Prop where
  receptions : ∀ r ∈ s.receptions, r.Digestible lib
  calls : ∀ callback, ∀ book ∈ s.consumer.calls callback, callbacks callback book = .ok ()

/-- What ends the program is the last call of `on_data` or the last call of a callback. -/
inductive EndedBy (lib : JsonLib) (callbacks : Callbacks) (s : Program) : Ending → Prop
  | onData {r : Reception} {e : CppException} (hlast : s.receptions.getLast? = some r)
      (herror : ∀ c, (r.handler.onData lib c r.payload).1 = .error e) :
      EndedBy lib callbacks s (.exception e)
  | callback {callback : ClientCallback} {book : OrderBook} {ending : Ending}
      (hlast : (s.consumer.calls callback).getLast? = some book)
      (herror : callbacks callback book = .error ending) : EndedBy lib callbacks s ending

/-- The program is alive exactly if everything has gone well, and what has ended it was last. -/
structure Lives (lib : JsonLib) (callbacks : Callbacks) (s : Program) : Prop where
  alive_iff : s.ended = none ↔ s.Healthy lib callbacks
  endedBy : ∀ ending, s.ended = some ending → s.EndedBy lib callbacks ending

/-- `on_data` ends the program exactly if it cannot digest its payload. -/
theorem failure_eq_none_iff (s : Program) (r : Reception) :
    s.failure lib r = none ↔ r.Digestible lib := by
  unfold failure Reception.Digestible
  rw [← ConnectionHandler.onData_ok_iff (c := s.consumer.bufferQueue)]
  split
  · next hok => exact iff_of_true rfl hok
  · next e herror => exact iff_of_false (by simp) (by simp [herror])

/-- A task of the consumer ends the program exactly if the callback it calls does. -/
theorem failure_consumer_eq_none_iff (consumer : Consumer) :
    consumer.failure callbacks = none ↔
      ∀ callback, ∀ book ∈ Consumer.callOf callback consumer.nextCall,
        callbacks callback book = .ok () := by
  unfold Consumer.failure
  cases consumer.nextCall with
  | none => simp [Consumer.callOf]
  | some call =>
      obtain ⟨callback, book⟩ := call
      cases hcall : callbacks callback book with
      | ok u => simp [Consumer.callOf, hcall]
      | error ending => simp [Consumer.callOf, hcall]

/-- **Step lemma.** While the program lives, a step either keeps it healthy or ends it. -/
theorem Lives.step (h : s.Lives lib callbacks) (hinv : Inv lib u₀ s)
    (hs : s.step lib callbacks a = some s') : s'.Lives lib callbacks := by
  have hhealthy := h.alive_iff.1 (steps_of_step hs).1
  cases feedSteps_of_step hinv.accounted hs with
  | quiet hsame hended =>
      have hreceptions : s'.receptions = s.receptions := congrArg Feed.received hsame
      have hconsumer : s'.consumer = s.consumer := congrArg Feed.consumer hsame
      refine ⟨iff_of_true hended ⟨?_, ?_⟩, fun ending he => absurd (hended.symm.trans he) (by simp)⟩
      · rw [hreceptions]
        exact hhealthy.receptions
      · rw [hconsumer]
        exact hhealthy.calls
  | receive r hstep hended hroom =>
      have hreceptions : s.receptions ++ [r] = s'.receptions :=
        congrArg Feed.received (Option.some.inj hstep)
      have hconsumer : Feed.onData lib s.consumer r = s'.consumer :=
        congrArg Feed.consumer (Option.some.inj hstep)
      refine ⟨?_, fun ending he => ?_⟩
      · rw [hended, failure_eq_none_iff]
        constructor
        · refine fun hr => ⟨?_, ?_⟩
          · rw [← hreceptions]
            exact List.forall_mem_append.2 ⟨hhealthy.receptions, List.forall_mem_singleton.2 hr⟩
          · rw [← hconsumer]
            intro callback
            rw [Consumer.calls_feedOnData]
            exact hhealthy.calls callback
        · intro hhealthy'
          refine hhealthy'.receptions r ?_
          rw [← hreceptions]
          exact List.mem_append_right _ (List.mem_singleton.2 rfl)
      · rw [hended] at he
        unfold failure at he
        split at he
        · exact absurd he (by simp)
        · next e herror =>
            obtain rfl := Option.some.inj he
            refine .onData (r := r) ?_ (ConnectionHandler.onData_error herror)
            rw [← hreceptions]
            exact List.getLast?_concat
  | handle hstep hended =>
      obtain ⟨consumer, hconsumer, hfeed⟩ := Option.map_eq_some_iff.1 hstep
      have hreceptions : s.receptions = s'.receptions := congrArg Feed.received hfeed
      obtain rfl : consumer = s'.consumer := congrArg Feed.consumer hfeed
      obtain ⟨held, hheld⟩ := hinv.consumer
      have hcalls := hheld.calls_handle hconsumer
      refine ⟨?_, fun ending he => ?_⟩
      · rw [hended, failure_consumer_eq_none_iff]
        constructor
        · refine fun hreturn => ⟨hreceptions ▸ hhealthy.receptions, fun callback => ?_⟩
          rw [hcalls]
          exact List.forall_mem_append.2 ⟨hhealthy.calls callback, hreturn callback⟩
        · intro hhealthy' callback book hbook
          refine hhealthy'.calls callback book ?_
          rw [hcalls]
          exact List.mem_append_right _ hbook
      · rw [hended] at he
        unfold Consumer.failure at he
        split at he
        · exact absurd he (by simp)
        · next callback book hcall =>
            split at he
            · exact absurd he (by simp)
            · next ending' herror =>
                obtain rfl := Option.some.inj he
                refine .callback ?_ herror
                rw [hcalls, hcall, Consumer.callOf, if_pos rfl]
                exact List.getLast?_concat

/-! ## Runs of the program -/

variable {acts later : List ProgramAction} {started : StartedClient}

theorem lives_start (started : StartedClient) : (start started u₀).Lives lib callbacks where
  alive_iff := by
    refine iff_of_true rfl ⟨fun r hr => absurd hr List.not_mem_nil, fun callback book hbook => ?_⟩
    cases callback <;> exact absurd hbook List.not_mem_nil
  endedBy _ he := absurd he (by simp [start])

/-- **How long the program lives.** In every run of a client that has been set up and started, each
    call of `on_data` and each task of the consumer being one step, with any callbacks: the program
    is alive exactly if every payload `on_data` was called with is digestible and every call of a
    callback has returned; and what has ended it is the last call of `on_data`, by the exception it
    throws, or the last call of a callback. -/
theorem alive_iff (lib : JsonLib) (callbacks : Callbacks) (u₀ : UInt64)
    (cfg : Config) (memory : Int32) (cache : CacheId) (client : Client) (started : StartedClient)
    (acts : List ProgramAction) (s : Program)
    (hsetup : (Client.new cfg memory cache).setup = (.ok (), client))
    (hclient : client.run = some started)
    (hrun : Execution.run (step lib callbacks) (start started u₀) acts = some s) :
    (s.ended = none ↔ s.Healthy lib callbacks) ∧
      ∀ ending, s.ended = some ending → s.EndedBy lib callbacks ending := by
  have hboth : Inv lib u₀ s ∧ s.Lives lib callbacks := by
    refine run_invariant (fun s => Inv lib u₀ s ∧ s.Lives lib callbacks) ?_
      ⟨inv_start hsetup hclient, lives_start started⟩ hrun
    rintro s a s' ⟨hinv, h⟩ hs
    exact ⟨hinv.step hs, h.step hinv hs⟩
  exact ⟨hboth.2.alive_iff, hboth.2.endedBy⟩

/-- A replica sends the empty object, which has no `"U"`. -/
def emptyObjectSchedule : List ProgramAction :=
  openSession 0 ++ [.connection 0 (.webSocket (.complete .read .success [0x7b, 0x7d])),
    .connection 0 (.webSocket .task)]

theorem alive_iff_empty_object : ∃ client started s,
    (Client.new twoReplicas 0 0).setup = (.ok (), client) ∧ client.run = some started ∧
      Execution.run (step .sample fun _ _ => .ok ()) (start started 0) emptyObjectSchedule
        = some s ∧
      s.ended = some (.exception (.typeError 302 "type must be number, but is null")) ∧
      ¬ s.Healthy .sample fun _ _ => .ok () := by
  refine ⟨_, _, _, rfl, rfl, rfl, rfl, fun hhealthy => ?_⟩
  have halive := (alive_iff .sample (fun _ _ => .ok ()) 0 twoReplicas 0 0 _ _ emptyObjectSchedule _
    rfl rfl rfl).1.2 hhealthy
  exact absurd halive (by decide)

/-! ## Every accepted message is handed on -/

/-- How many tasks of the consumer have run. -/
def handles (acts : List ProgramAction) : ℕ :=
  acts.countP fun | .handle => true | .connection _ _ => false

theorem handles_cons (a : ProgramAction) (acts : List ProgramAction) :
    handles (a :: acts) = handles acts + handles [a] := by
  unfold handles
  rw [← List.singleton_append, List.countP_append, Nat.add_comm]

/-- Seen from the consumer, a step is a call of `encache`, a task, or nothing. -/
theorem consumer_step (h : Inv lib u₀ s) (hs : s.step lib callbacks a = some s') :
    ∃ acts, Execution.run (Consumer.step lib) s.consumer acts = some s'.consumer ∧
      Consumer.runs acts = 0 ∧ Consumer.handles acts = handles [a] := by
  cases feedSteps_of_step h.accounted hs with
  | quiet hsame hended => exact ⟨[], congrArg some (congrArg Feed.consumer hsame).symm, rfl, rfl⟩
  | receive r hstep hended hroom =>
      obtain ⟨acts, hacts, hruns, hhandles⟩ := Feed.exists_run_onData lib s.consumer r
      have hconsumer : Feed.onData lib s.consumer r = s'.consumer :=
        congrArg Feed.consumer (Option.some.inj hstep)
      exact ⟨acts, hconsumer ▸ hacts, hruns, hhandles⟩
  | handle hstep hended =>
      obtain ⟨consumer, hconsumer, hfeed⟩ := Option.map_eq_some_iff.1 hstep
      obtain rfl : consumer = s'.consumer := congrArg Feed.consumer hfeed
      have hconsumer : s.consumer.step lib .handle = some s'.consumer := hconsumer
      exact ⟨[.handle], by rw [run_cons, hconsumer]; rfl, rfl, rfl⟩

theorem consumer_run (h : Inv lib u₀ s)
    (hrun : Execution.run (step lib callbacks) s acts = some s') :
    ∃ acts', Execution.run (Consumer.step lib) s.consumer acts' = some s'.consumer ∧
      Consumer.runs acts' = 0 ∧ Consumer.handles acts' = handles acts := by
  induction acts generalizing s with
  | nil =>
      obtain rfl := Option.some.inj hrun
      exact ⟨[], rfl, rfl, rfl⟩
  | cons a acts ih =>
      obtain ⟨t, ht, hrest⟩ := Option.bind_eq_some_iff.1 hrun
      obtain ⟨before, hbefore, hruns, hhandles⟩ := consumer_step h ht
      obtain ⟨after, hafter, hruns', hhandles'⟩ := ih (h.step ht) hrest
      refine ⟨before ++ after, ?_, ?_, ?_⟩
      · rw [run_append, hbefore]
        exact hafter
      · rw [Consumer.runs, List.countP_append]
        exact (congrArg₂ (· + ·) hruns hruns').trans rfl
      · rw [Consumer.handles, List.countP_append, handles_cons, Nat.add_comm]
        exact congrArg₂ (· + ·) hhandles' hhandles

theorem booksOf_mono {source : MsgSource} {msgs msgs' : List Msg} (h : msgs <+: msgs') :
    Consumer.booksOf source msgs <+: Consumer.booksOf source msgs' :=
  (h.filter _).map _

/-- How many tasks of the consumer hand on everything accepted so far: two for every message that is
    in the queue, and one for every task posted already. -/
def tasksLeft (s : Program) : ℕ :=
  2 * (s.consumer.accepted.length - s.consumer.decached.length) + s.consumer.ioContext.length

/-- Seen from the consumer, the program has started one poll loop. -/
theorem consumer_run_start (hinv : Inv lib u₀ (start started u₀))
    (hrun : Execution.run (step lib callbacks) (start started u₀) acts = some s) :
    ∃ acts', Execution.run (Consumer.step lib) (.init (.fresh .default u₀)) acts' =
      some s.consumer ∧ Consumer.runs acts' = 1 := by
  obtain ⟨before, hbefore, hruns, -⟩ := consumer_run hinv hrun
  refine ⟨.run :: before, hbefore, ?_⟩
  rw [Consumer.runs_cons, hruns]
  rfl

theorem tasksLeft_le (hinv : Inv lib u₀ (start started u₀))
    (hrun : Execution.run (step lib callbacks) (start started u₀) acts = some s) :
    s.tasksLeft ≤ 2048 := by
  obtain ⟨acts', hacts, hruns⟩ := consumer_run_start hinv hrun
  obtain ⟨held, hheld⟩ := (run_invariant (Inv lib u₀) (fun _ _ _ h hs => h.step hs) hinv
    hrun).consumer
  have hposted := Consumer.loops_run (LockFreeQueue.represents_ofCapacity .default) hacts
  have hpolls := hposted.polls
  have hflight := hposted.inFlight_length_le
  have hcapacity := Consumer.accepted_lt_run hheld hacts
  rw [hruns] at hpolls hflight
  have hdefault : LockFreeQueue.Capacity.default.1.toNat = 1024 := rfl
  unfold tasksLeft
  omega

/-- After as many tasks, everything accepted before has been dispatched. -/
theorem accepted_prefix_dispatched (hinv : Inv lib u₀ s)
    (hlater : Execution.run (step lib callbacks) s later = some s')
    (hle : s.tasksLeft ≤ handles later) : s.consumer.accepted <+: s'.consumer.dispatched := by
  obtain ⟨after, hafter, hruns, hhandles⟩ := consumer_run hinv hlater
  obtain ⟨held, hheld⟩ := hinv.consumer
  exact Consumer.accepted_prefix_dispatched hheld hafter (by rw [hruns, hhandles]; exact hle)

/-- **Every accepted message is handed on, and soon.** Take any state of a running client and any
    continuation of its run, each call of `on_data` and each task being one step: when the consumer
    has run two tasks for every message that is in the queue and one for every task posted already,
    of which there are never more than 2048 together, the callbacks have been called with everything
    accepted by then. -/
theorem called_within (lib : JsonLib) (callbacks : Callbacks) (u₀ : UInt64)
    (cfg : Config) (memory : Int32) (cache : CacheId) (client : Client) (started : StartedClient)
    (acts later : List ProgramAction) (s s' : Program)
    (hsetup : (Client.new cfg memory cache).setup = (.ok (), client))
    (hclient : client.run = some started)
    (hrun : Execution.run (step lib callbacks) (start started u₀) acts = some s)
    (hlater : Execution.run (step lib callbacks) s later = some s') :
    let tasks := 2 * (s.consumer.accepted.length - s.consumer.decached.length) +
      s.consumer.ioContext.length
    tasks ≤ 2048 ∧ (tasks ≤ handles later →
      Consumer.booksOf .webSocket s.consumer.accepted <+: s'.consumer.callsWS.map some ∧
        Consumer.booksOf .restApi s.consumer.accepted <+: s'.consumer.callsREST.map some) := by
  intro tasks
  refine ⟨tasksLeft_le (inv_start hsetup hclient) hrun, fun hle => ?_⟩
  have hinv := (inv_run hsetup hclient hrun).1
  have hgrown := accepted_prefix_dispatched hinv hlater hle
  obtain ⟨held, hheld⟩ := (run_invariant (Inv lib u₀) (fun _ _ _ h hs => h.step hs) hinv
    hlater).consumer
  rw [hheld.callsWS, hheld.callsREST]
  exact ⟨booksOf_mono hgrown, booksOf_mono hgrown⟩

/-- Both replicas pass on the update, and the consumer has not run yet. -/
def passedSchedule : List ProgramAction :=
  openSession 0 ++ openSession 1 ++ [readUpdate 0, readUpdate 1,
    .connection 1 (.webSocket .task), .connection 0 (.webSocket .task)]

/-- Three tasks: a poll, the delivery, and the next poll. -/
theorem called_within_three_tasks : ∃ client started s s',
    (Client.new twoReplicas 0 0).setup = (.ok (), client) ∧ client.run = some started ∧
      Execution.run (step .sample fun _ _ => .ok ()) (start started 0) passedSchedule = some s ∧
      Execution.run (step .sample fun _ _ => .ok ()) s [.handle, .handle, .handle] = some s' ∧
      Consumer.booksOf .webSocket s.consumer.accepted <+: s'.consumer.callsWS.map some ∧
      s.consumer.accepted = [.update "btcusdt" 7] := by
  refine ⟨_, _, _, _, rfl, rfl, rfl, rfl, ?_, rfl⟩
  exact ((called_within .sample (fun _ _ => .ok ()) 0 twoReplicas 0 0 _ _ passedSchedule
    [.handle, .handle, .handle] _ _ rfl rfl rfl rfl).2 (by decide)).1

/-! ## Messages that end the program -/

/-- The source of the order books a callback is called with. -/
def source : ClientCallback → MsgSource
  | .onOrderBookWS => .webSocket
  | .onOrderBookREST => .restApi

theorem calls_eq_booksOf {consumer : Consumer} {held : List Msg} (h : Consumer.Inv consumer held)
    (callback : ClientCallback) : (consumer.calls callback).map some =
      Consumer.booksOf (source callback) consumer.dispatched := by
  cases callback with
  | onOrderBookWS => exact h.callsWS
  | onOrderBookREST => exact h.callsREST

/-- An accepted message on which its callback does not return has ended the program when everything
    accepted has been handed on. -/
theorem ended_of_accepted (hinv : Inv lib u₀ s) (h : s.Lives lib callbacks)
    {callback : ClientCallback} {book : OrderBook}
    (haccepted : some book ∈ Consumer.booksOf (source callback) s.consumer.accepted)
    (hfails : callbacks callback book ≠ .ok ())
    (hlater : Execution.run (step lib callbacks) s later = some s')
    (hle : s.tasksLeft ≤ handles later) : s'.ended ≠ none := by
  have hboth : Inv lib u₀ s' ∧ s'.Lives lib callbacks :=
    run_invariant (fun s => Inv lib u₀ s ∧ s.Lives lib callbacks)
      (fun _ _ _ ⟨hinv, h⟩ hs => ⟨hinv.step hs, h.step hinv hs⟩) ⟨hinv, h⟩ hlater
  obtain ⟨held, hheld⟩ := hboth.1.consumer
  have hgrown : Consumer.booksOf (source callback) s.consumer.accepted <+:
      Consumer.booksOf (source callback) s'.consumer.dispatched :=
    booksOf_mono (accepted_prefix_dispatched hinv hlater hle)
  rw [← calls_eq_booksOf hheld] at hgrown
  obtain ⟨called, hcalled, heq⟩ := List.mem_map.1 (hgrown.subset haccepted)
  obtain rfl := Option.some.inj heq
  intro hended
  exact hfails ((hboth.2.alive_iff.1 hended).calls callback called hcalled)

theorem handles_le_tasksLeft (hinv : Inv lib u₀ s) (h : s.Lives lib callbacks)
    {callback : ClientCallback} {book : OrderBook}
    (haccepted : some book ∈ Consumer.booksOf (source callback) s.consumer.accepted)
    (hfails : callbacks callback book ≠ .ok ())
    (hlater : Execution.run (step lib callbacks) s later = some s') :
    handles later ≤ s.tasksLeft := by
  rcases List.eq_nil_or_concat later with rfl | ⟨init, a, rfl⟩
  · exact Nat.zero_le _
  · rw [List.concat_eq_append, run_append] at hlater
    obtain ⟨t, ht, hlast⟩ := Option.bind_eq_some_iff.1 hlater
    have hlt : ¬ s.tasksLeft ≤ handles init := by
      intro hle
      obtain ⟨t', hstep, -⟩ := Option.bind_eq_some_iff.1 hlast
      exact ended_of_accepted hinv h haccepted hfails ht hle (steps_of_step hstep).1
    have hone : handles [a] ≤ 1 := List.countP_le_length
    rw [List.concat_eq_append, handles, List.countP_append]
    exact (Nat.add_le_add_left hone _).trans (Nat.not_le.1 hlt)

end Program

end MarketFeed
