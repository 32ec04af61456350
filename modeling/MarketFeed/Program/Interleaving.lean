import MarketFeed.Cache.Calls
import MarketFeed.Consumer.Progress
import MarketFeed.Program.Delivery

set_option autoImplicit false

/-! # The program among its interleavings

`Program.step` makes every call of `on_data` and every task of the consumer in one step. What its
runs do to the cache is what whole calls do, and those are among the interleavings of the accesses
of the threads that `Client::run` starts (`interleaves`). The other interleavings are runs of
`SharedCache` and not of `Program`: with one feed thread they do to the cache what whole calls do as
well (`SharedCache.exists_calls`), with more they may lose messages. -/

namespace MarketFeed

open Execution

namespace Program

variable {ι : Type*} {lib : JsonLib} {callbacks : Callbacks} {u₀ : UInt64} {thread : ℕ → ι}
  {s s' : Program} {a : ProgramAction}

/-- The call of `encache` that `on_data` makes, by the thread of its connection. -/
def offer (lib : JsonLib) (handlers : List ConnectionHandler) (thread : ℕ → ι) (e : ℕ × Bytes) :
    Option (ι × Msg) :=
  (reception handlers e).bind fun r => (r.message lib).map (thread e.1, ·)

/-- The program has done to its cache what the whole calls `calls` do. -/
structure MadeOf (lib : JsonLib) (u₀ : UInt64) (thread : ℕ → ι) (s : Program)
    (calls : List (CacheCall ι)) : Prop where
  offered : calls.filterMap CacheCall.offer = s.passed.filterMap (offer lib s.handlers thread)
  cache : s.consumer.bufferQueue = (Cache.fresh .default u₀).after lib (calls.map CacheCall.op)
  accepted : s.consumer.accepted
    = accepted ((Cache.fresh .default u₀).log lib (calls.map CacheCall.op))
  decached : s.consumer.decached
    = decached ((Cache.fresh .default u₀).log lib (calls.map CacheCall.op))

theorem madeOf_start (started : StartedClient) : (start started u₀).MadeOf lib u₀ thread [] where
  offered := rfl
  cache := rfl
  accepted := rfl
  decached := rfl

variable {calls : List (CacheCall ι)}

theorem MadeOf.same (h : s.MadeOf lib u₀ thread calls)
    (hpassed : s'.passed.filterMap (offer lib s'.handlers thread)
      = s.passed.filterMap (offer lib s.handlers thread))
    (hcache : s'.consumer.bufferQueue = s.consumer.bufferQueue)
    (haccepted : s'.consumer.accepted = s.consumer.accepted)
    (hdecached : s'.consumer.decached = s.consumer.decached) :
    s'.MadeOf lib u₀ thread calls where
  offered := h.offered.trans hpassed.symm
  cache := hcache.trans h.cache
  accepted := haccepted.trans h.accepted
  decached := hdecached.trans h.decached

theorem MadeOf.concat (h : s.MadeOf lib u₀ thread calls) (call : CacheCall ι)
    (hpassed : s'.passed.filterMap (offer lib s'.handlers thread)
      = s.passed.filterMap (offer lib s.handlers thread) ++ call.offer.toList)
    (hcache : s'.consumer.bufferQueue = (s.consumer.bufferQueue.perform lib call.op).2)
    (haccepted : s'.consumer.accepted = s.consumer.accepted ++
      MarketFeed.accepted [(s.consumer.bufferQueue.perform lib call.op).1])
    (hdecached : s'.consumer.decached = s.consumer.decached ++
      MarketFeed.decached [(s.consumer.bufferQueue.perform lib call.op).1]) :
    s'.MadeOf lib u₀ thread (calls ++ [call]) := by
  have hcalls : (calls ++ [call]).map CacheCall.op = calls.map CacheCall.op ++ [call.op] := by
    rw [List.map_append, List.map_singleton]
  refine ⟨?_, ?_, ?_, ?_⟩
  · rw [hpassed, ← h.offered, List.filterMap_append]
    cases call <;> rfl
  · rw [hcalls, Cache.after_concat, ← h.cache]
    exact hcache
  · rw [hcalls, Cache.log_concat, accepted_append, ← h.cache, ← h.accepted]
    exact haccepted
  · rw [hcalls, Cache.log_concat, decached_append, ← h.cache, ← h.decached]
    exact hdecached

/-- **Step lemma.** A step does to the cache what one more whole call does, or nothing. -/
theorem MadeOf.step (h : s.MadeOf lib u₀ thread calls) (haccounted : s.Accounted)
    (hs : s.step lib callbacks a = some s') : ∃ calls', s'.MadeOf lib u₀ thread calls' := by
  cases (steps_of_step hs).2 with
  | quiet hc hstep hpayload =>
      refine ⟨calls, h.same ?_ rfl rfl rfl⟩
      exact congrArg (fun handlers => s.passed.filterMap (offer lib handlers thread))
        (haccounted.handlers_set hc hstep)
  | @onData i a c c' payload hc hstep hpayload =>
      rw [onData_of_bound (haccounted i c hc).1.bound, Feed.onData_message]
      let r : Reception := { handler := c.handler.connectionHandler, payload }
      have hoffer : offer lib s.handlers thread (i, payload)
          = (r.message lib).map (thread i, ·) := by
        rw [offer, reception, handlers, List.getElem?_map, hc]
        rfl
      have hpassed : (s.passed ++ [(i, payload)]).filterMap (offer lib
          ((s.connections.set i c').map (·.handler.connectionHandler)) thread)
          = s.passed.filterMap (offer lib s.handlers thread) ++
            ((r.message lib).map (thread i, ·)).toList := by
        rw [haccounted.handlers_set hc hstep, List.filterMap_append, ← hoffer]
        cases hcase : offer lib s.handlers thread (i, payload) <;> simp [hcase]
      cases hmessage : r.message lib with
      | none =>
          rw [hmessage] at hpassed
          exact ⟨calls, h.same (hpassed.trans (List.append_nil _)) rfl rfl rfl⟩
      | some msg =>
          rw [hmessage] at hpassed
          refine ⟨_, h.concat (.encache (thread i) msg) hpassed rfl ?_ (List.append_nil _).symm⟩
          exact congrArg _ (accepted_encache msg _).symm
  | @handle consumer hstep =>
      have haccepted := Consumer.accepted_handle hstep
      rcases Consumer.bufferQueue_handle hstep with ⟨hcache, hdecached⟩ | ⟨hcache, hdecached⟩
      · exact ⟨calls, h.same rfl hcache haccepted hdecached⟩
      · refine ⟨_, h.concat .decache (List.append_nil _).symm hcache ?_ ?_⟩
        · exact haccepted.trans (List.append_nil _).symm
        · exact hdecached.trans (congrArg _ (decached_decache _).symm)

variable {cfg : Config} {memory : Int32} {cache : CacheId} {client : Client}
  {started : StartedClient} {acts : List ProgramAction}

/-- **Run lemma.** What a run does to the cache, some sequence of whole calls does. -/
theorem madeOf_run (hsetup : (Client.new cfg memory cache).setup = (.ok (), client))
    (hclient : client.run = some started)
    (hrun : Execution.run (step lib callbacks) (start started u₀) acts = some s) :
    ∃ calls, s.MadeOf lib u₀ thread calls := by
  have hboth : s.Accounted ∧ ∃ calls, s.MadeOf lib u₀ thread calls := by
    have hinv : Inv lib u₀ (start started u₀) := inv_start hsetup hclient
    refine run_invariant
      (fun s : Program => s.Accounted ∧ ∃ calls, s.MadeOf lib u₀ thread calls) ?_
      ⟨hinv.accounted, [], madeOf_start started⟩ hrun
    rintro s a s' ⟨haccounted, calls, h⟩ hs
    exact ⟨haccounted.step hs, h.step haccounted hs⟩
  exact hboth.2

/-- **The program is one of its interleavings.** Let any threads run the connections. For every run
    of a client that has been set up and started there is an interleaving of the accesses of these
    threads and the consumer to one cache that leaves no thread inside a call, in which each thread
    makes the calls of `encache` that the payloads passed to its connections make, all in the same
    order, and which leaves the same cache with the same messages accepted and returned. -/
theorem interleaves [DecidableEq ι] (lib : JsonLib) (callbacks : Callbacks) (u₀ : UInt64)
    (cfg : Config) (memory : Int32) (cache : CacheId) (client : Client) (started : StartedClient)
    (thread : ℕ → ι) (acts : List ProgramAction) (s : Program)
    (hsetup : (Client.new cfg memory cache).setup = (.ok (), client))
    (hclient : client.run = some started)
    (hrun : Execution.run (step lib callbacks) (start started u₀) acts = some s) :
    ∃ accesses, ∃ shared : SharedCache ι,
      Execution.run (SharedCache.step lib) (.init .default u₀) accesses = some shared ∧
      shared.Idle ∧
      SharedCache.called accesses = s.passed.filterMap (offer lib client.receivers thread) ∧
      shared.toCache = s.consumer.bufferQueue ∧
      shared.acceptedMsgs = s.consumer.accepted ∧
      shared.returnedMsgs = s.consumer.decached := by
  obtain ⟨calls, h⟩ : ∃ calls, s.MadeOf lib u₀ thread calls := madeOf_run hsetup hclient hrun
  obtain ⟨accesses, shared, haccesses, hidle, hcalled, hcache, haccepted, hreturned⟩ :=
    SharedCache.run_calls lib .default u₀ calls
  refine ⟨accesses, shared, haccesses, hidle, ?_, hcache.trans h.cache.symm,
    haccepted.trans h.accepted.symm, hreturned.trans h.decached.symm⟩
  rw [hcalled, h.offered, (inv_run hsetup hclient hrun).2]

/-- Two replicas, run by a thread each, pass on the same update. -/
theorem interleaves_two_replicas : ∃ client started s,
    (Client.new twoReplicas 0 0).setup = (.ok (), client) ∧ client.run = some started ∧
    Execution.run (step .sample fun _ _ => .ok ()) (start started 0) twoReplicasSchedule = some s ∧
    ∃ accesses, ∃ shared : SharedCache ℕ,
      Execution.run (SharedCache.step .sample) (.init .default 0) accesses = some shared ∧
      (SharedCache.called accesses).map Prod.fst = [1, 0] ∧ shared.acceptedMsgs.length = 1 := by
  refine ⟨_, _, _, rfl, rfl, rfl, ?_⟩
  obtain ⟨accesses, shared, hrun, -, hcalled, -, haccepted, -⟩ :=
    interleaves .sample (fun _ _ => .ok ()) 0 twoReplicas 0 0 _ _ id twoReplicasSchedule _
      rfl rfl rfl
  exact ⟨accesses, shared, hrun, congrArg _ hcalled, congrArg _ haccepted⟩

end Program

end MarketFeed
