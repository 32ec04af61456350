import MarketFeed.Cache.History
import MarketFeed.Cache.Shared

set_option autoImplicit false

/-! # Whole calls and their accesses

The rest of the development takes a call of `encache` or `decache` as one step. This file says what
that leaves out. Nothing of it is invented: whatever threads make them, whole calls are one of the
interleavings of `Shared.lean` (`run_calls`). And with one feed thread nothing is left out: whatever
its accesses and those of the consumer are interleaved to, some sequence of whole calls does the
same (`exists_calls`). With two feed threads it is not so (`exactlyOnce_lost_race`). -/

namespace MarketFeed

open BoundedFifo Execution LockFreeQueue

variable {ι : Type*}

/-- The message a call passes to `encache`. -/
def CacheOp.message : CacheOp → Option Msg
  | .encache msg => some msg
  | .decache => none

/-- A whole call, of `encache` with the thread that makes it. -/
inductive CacheCall (ι : Type*) where
  | encache (p : ι) (msg : Msg)
  | decache

/-- The call, whoever makes it. -/
def CacheCall.op : CacheCall ι → CacheOp
  | .encache _ msg => .encache msg
  | .decache => .decache

/-- The message a call passes to `encache`, with the thread. -/
def CacheCall.offer : CacheCall ι → Option (ι × Msg)
  | .encache p msg => some (p, msg)
  | .decache => none

namespace SharedCache

/-- The calls of `encache` the threads have made, each with its thread. -/
def called (acts : List (SharedAction ι)) : List (ι × Msg) :=
  acts.filterMap fun | .call p msg => some (p, msg) | _ => none

theorem called_append (acts acts' : List (SharedAction ι)) :
    called (acts ++ acts') = called acts ++ called acts' := List.filterMap_append

@[simp] theorem called_replicate_produce (n : ℕ) (p : ι) :
    called (List.replicate n (.produce p)) = [] := by simp [called]

@[simp] theorem called_replicate_consume (n : ℕ) :
    called (List.replicate n (.consume : SharedAction ι)) = [] := by simp [called]

variable [DecidableEq ι] {lib : JsonLib} {s s' : SharedCache ι}

/-! ## A whole call is an interleaving -/

/-- No thread is inside a call. -/
structure Idle (s : SharedCache ι) : Prop where
  producer : ∀ p, s.producer p = .idle
  queue : ∀ p, s.queue.producer p = .idle
  consumer : s.queue.consumer = .idle

/-- From one idle state to another with the effect of one whole call. -/
structure Performs (lib : JsonLib) (s : SharedCache ι) (op : CacheOp) (s' : SharedCache ι) :
    Prop where
  idle : s'.Idle
  cache : s'.toCache = (s.toCache.perform lib op).2
  accepted : s'.acceptedMsgs = s.acceptedMsgs ++ accepted [(s.toCache.perform lib op).1]
  returned : s'.returnedMsgs = s.returnedMsgs ++ decached [(s.toCache.perform lib op).1]

/-- The access that ends the `enqueue` of a thread ends its `encache`. -/
theorem step_produce_return {p : ι} {queue : QueueState ι Msg} (hpc : s.producer p = .enqueue)
    (hqueue : s.queue.step (.produce p) = some queue) (hidle : queue.producer p = .idle) :
    s.step lib (.produce p) = some { s.setProducer p .idle with queue } := by
  simp only [step, produce, hpc, hqueue, Option.map_some, hidle]

theorem step_produce_stay {p : ι} {queue : QueueState ι Msg} (hpc : s.producer p = .enqueue)
    (hqueue : s.queue.step (.produce p) = some queue) (hbusy : queue.producer p ≠ .idle) :
    s.step lib (.produce p) = some { s with queue } := by
  simp only [step, produce, hpc, hqueue, Option.map_some]

/-- Inside `enqueue` the accesses of a thread are those of the queue. -/
theorem run_produce (lib : JsonLib) {n : ℕ} {s : SharedCache ι} {p : ι} {queue : QueueState ι Msg}
    (hpc : s.producer p = .enqueue) (hbusy : s.queue.producer p ≠ .idle)
    (hrun : run QueueState.step s.queue (List.replicate n (.produce p)) = some queue)
    (hidle : queue.producer p = .idle) :
    run (step lib) s (List.replicate n (.produce p))
      = some { s.setProducer p .idle with queue } := by
  induction n generalizing s with
  | zero => exact absurd (Option.some.inj hrun ▸ hidle) hbusy
  | succ n ih =>
      rw [List.replicate_succ, run_cons] at hrun ⊢
      obtain ⟨q, hq, hrest⟩ := Option.bind_eq_some_iff.1 hrun
      by_cases hdone : q.producer p = .idle
      · -- an idle thread has no next access, so this was the last one
        cases n with
        | zero =>
            obtain rfl := Option.some.inj hrest
            rw [step_produce_return hpc hq hdone]
            rfl
        | succ n => exact absurd hrest (by simp [List.replicate_succ, QueueState.step,
            QueueState.produce, hdone])
      · rw [step_produce_stay hpc hq hdone, Option.bind_some]
        exact ih hpc hdone hrest

theorem pushed_enqueue (trace : List (FifoEvent Msg)) (c : Cache) (msg : Msg) :
    pushed (trace ++ [if (c.cacheQueue.enqueue msg).1 then .push msg else .pushFull msg])
      = pushed trace ++ if (c.enqueue msg).1 = .ok true then [msg] else [] := by
  simp only [Cache.enqueue_fst_eq_true_iff, LockFreeQueue.enqueue_fst_eq_true_iff]
  split
  · exact pushed_concat_push _ _
  · exact (pushed_concat_pushFull _ _).trans (List.append_nil _).symm

theorem popped_enqueue (trace : List (FifoEvent Msg)) (q : LockFreeQueue Msg) (msg : Msg) :
    popped (trace ++ [if (q.enqueue msg).1 then .push msg else .pushFull msg]) = popped trace := by
  split
  · exact popped_concat_push _ _
  · exact popped_concat_pushFull _ _

/-- The accesses of one `enqueue`, made without interruption, are the whole `enqueue`. -/
theorem run_enqueue (lib : JsonLib) {s : SharedCache ι} {p : ι} {msg : Msg}
    (hpc : s.producer p = .loadTail msg) (hidle : s.queue.producer p = .idle) :
    ∃ n s', run (step lib) s (List.replicate n (.produce p)) = some s' ∧
      s'.producer = Function.update s.producer p .idle ∧
      s'.queue.producer = s.queue.producer ∧ s'.queue.consumer = s.queue.consumer ∧
      s'.toCache = (s.toCache.enqueue msg).2 ∧
      s'.acceptedMsgs
        = s.acceptedMsgs ++ (if (s.toCache.enqueue msg).1 = .ok true then [msg] else []) ∧
      s'.returnedMsgs = s.returnedMsgs := by
  obtain ⟨n, queue, hrun, hqueue, hprod, hcons, htrace⟩ := s.queue.run_enqueue hidle msg
  rw [run_cons] at hrun
  obtain ⟨q, hq, hrest⟩ := Option.bind_eq_some_iff.1 hrun
  have hbusy : q.producer p ≠ .idle := by
    simp only [QueueState.step, hidle, Option.some.injEq] at hq
    simp [← hq, QueueState.setProducer]
  let s₁ : SharedCache ι := { s.setProducer p .enqueue with queue := q }
  have hstep : s.step lib (.produce p) = some s₁ := by
    simp only [step, produce, hpc, hq, Option.map_some, s₁]
  refine ⟨n + 1, { s₁.setProducer p .idle with queue }, ?_, ?_, hprod, hcons,
    congrArg (Cache.mk s.U) hqueue, ?_, ?_⟩
  · rw [List.replicate_succ, run_cons, hstep, Option.bind_some]
    exact run_produce lib (Function.update_self p _ s.producer) hbusy hrest (hprod ▸ hidle)
  · exact Function.update_idem ..
  · exact (congrArg pushed htrace).trans (pushed_enqueue s.queue.trace s.toCache msg)
  · exact (congrArg popped htrace).trans (popped_enqueue ..)

theorem Idle.of_update (h : s.Idle) {p : ι}
    (hproducer : s'.producer = Function.update s.producer p .idle)
    (hqueue : s'.queue.producer = s.queue.producer)
    (hconsumer : s'.queue.consumer = s.queue.consumer) : s'.Idle where
  producer p' := by
    rw [hproducer, Function.update_eq_self_iff.2 (h.producer p).symm]
    exact h.producer p'
  queue p' := (congrFun hqueue p').trans (h.queue p')
  consumer := hconsumer.trans h.consumer

omit [DecidableEq ι] in
theorem performs_encache {msg : Msg} (hidle : s'.Idle)
    (hcache : s'.toCache = (s.toCache.encache lib msg).2)
    (haccepted : s'.acceptedMsgs
      = s.acceptedMsgs ++ if (s.toCache.encache lib msg).1 = .ok true then [msg] else [])
    (hreturned : s'.returnedMsgs = s.returnedMsgs) : s.Performs lib (.encache msg) s' where
  idle := hidle
  cache := hcache
  accepted := haccepted.trans (congrArg _ (accepted_encache msg _).symm)
  returned := hreturned.trans (List.append_nil _).symm

/-- The accesses of one `encache`, made without interruption, are the whole `encache`. -/
theorem run_encache (lib : JsonLib) (h : s.Idle) (p : ι) (msg : Msg) :
    ∃ n s', run (step lib) s (.call p msg :: List.replicate n (.produce p)) = some s' ∧
      s.Performs lib (.encache msg) s' := by
  rcases Cache.encache_cases lib s.toCache msg with ⟨e, hrank, heq⟩ | ⟨hrank, heq⟩ |
    ⟨U, hrank, hle, heq⟩ | ⟨U, hrank, hlt, heq⟩
  · refine ⟨0, s, ?_, performs_encache h (by rw [heq]) (by simp [heq]) rfl⟩
    simp [step, h.producer p, hrank]
  · -- straight to `enqueue`
    have hcall : s.step lib (.call p msg) = some (s.setProducer p (.loadTail msg)) := by
      simp only [step, h.producer p, hrank]
    obtain ⟨n, s', hrun, hprod, hqueue, hcons, hcache, haccepted, hreturned⟩ :=
      run_enqueue lib (s := s.setProducer p (.loadTail msg)) (Function.update_self ..) (h.queue p)
    refine ⟨n, s', by rw [run_cons, hcall, Option.bind_some, hrun],
      performs_encache ?_ ?_ ?_ hreturned⟩
    · exact h.of_update (hprod.trans (Function.update_idem ..)) hqueue hcons
    · rw [heq]
      exact hcache
    · rw [heq]
      exact haccepted
  · -- the load of `U_` is the last access
    have hle : U ≤ s.U := hle
    refine ⟨1, s.setProducer p .idle, ?_, performs_encache (h.of_update rfl rfl rfl) ?_ ?_ rfl⟩
    · simp [step, produce, setProducer, h.producer p, hrank, hle]
    · rw [heq]
      rfl
    · rw [heq]
      exact (List.append_nil _).symm
  · -- load `U_`, store `U_`, then `enqueue`
    have hnle : ¬ U ≤ s.U := not_le.2 hlt
    have hcall : s.step lib (.call p msg) = some (s.setProducer p (.loadU msg U)) := by
      simp only [step, h.producer p, hrank]
    have hload : (s.setProducer p (.loadU msg U)).step lib (.produce p)
        = some (s.setProducer p (.storeU msg U)) := by
      simp [step, produce, setProducer, hnle]
    have hstore : (s.setProducer p (.storeU msg U)).step lib (.produce p)
        = some { s.setProducer p (.loadTail msg) with U } := by
      simp [step, produce, setProducer]
    obtain ⟨n, s', hrun, hprod, hqueue, hcons, hcache, haccepted, hreturned⟩ := run_enqueue lib
      (s := { s.setProducer p (.loadTail msg) with U }) (Function.update_self ..) (h.queue p)
    refine ⟨n + 2, s', ?_, performs_encache ?_ ?_ ?_ hreturned⟩
    · rw [run_cons, hcall, Option.bind_some, List.replicate_succ, run_cons, hload,
        Option.bind_some, List.replicate_succ, run_cons, hstore, Option.bind_some, hrun]
    · exact h.of_update (hprod.trans (Function.update_idem ..)) hqueue hcons
    · rw [heq]
      exact hcache
    · rw [heq]
      exact haccepted

/-- Inside `decache` the accesses of the consumer are those of the queue. -/
theorem run_consume (lib : JsonLib) {n : ℕ} {s : SharedCache ι} {queue : QueueState ι Msg}
    (hrun : run QueueState.step s.queue (List.replicate n .consume) = some queue) :
    run (step lib) s (List.replicate n .consume) = some { s with queue } := by
  induction n generalizing s with
  | zero => exact congrArg (fun queue => some { s with queue }) (Option.some.inj hrun)
  | succ n ih =>
      rw [List.replicate_succ, run_cons] at hrun ⊢
      obtain ⟨q, hq, hrest⟩ := Option.bind_eq_some_iff.1 hrun
      have hstep : s.step lib .consume = some { s with queue := q } := by
        simp only [step, hq, Option.map_some]
      rw [hstep, Option.bind_some]
      exact ih hrest

theorem run_decache (lib : JsonLib) (h : s.Idle) :
    ∃ n s', run (step lib) s (List.replicate n .consume) = some s' ∧
      s.Performs lib .decache s' := by
  obtain ⟨n, queue, hrun, hqueue, hprod, hcons, htrace⟩ := s.queue.run_dequeue h.consumer
  refine ⟨n, { s with queue }, run_consume lib hrun,
    ⟨h.producer, fun p => (congrFun hprod p).trans (h.queue p), hcons⟩,
    congrArg (Cache.mk s.U) hqueue, ?_, ?_⟩
  · show pushed queue.trace = s.acceptedMsgs ++ []
    rw [htrace, List.append_nil]
    split
    · exact pushed_concat_pop _ _
    · exact pushed_concat_popEmpty _
  · show popped queue.trace = s.returnedMsgs ++ decached [.decache s.queue.queue.dequeue.1]
    rw [htrace, decached_decache]
    split
    · next item hitem =>
        rw [hitem]
        exact popped_concat_pop _ _
    · next hnone =>
        rw [hnone]
        exact (popped_concat_popEmpty _).trans (List.append_nil _).symm

/-- **Whole calls are an interleaving.** Whatever threads make them, calls of `encache` and
    `decache` one after the other are among the interleavings of their accesses. -/
theorem run_calls (lib : JsonLib) (cap : Capacity) (u₀ : UInt64) (calls : List (CacheCall ι)) :
    ∃ acts, ∃ s : SharedCache ι, run (step lib) (init cap u₀) acts = some s ∧ s.Idle ∧
      called acts = calls.filterMap CacheCall.offer ∧
      s.toCache = (Cache.fresh cap u₀).after lib (calls.map CacheCall.op) ∧
      s.acceptedMsgs = accepted ((Cache.fresh cap u₀).log lib (calls.map CacheCall.op)) ∧
      s.returnedMsgs = decached ((Cache.fresh cap u₀).log lib (calls.map CacheCall.op)) := by
  induction calls using List.reverseRecOn with
  | nil => exact ⟨[], init cap u₀, rfl, ⟨fun _ => rfl, fun _ => rfl, rfl⟩, rfl, rfl, rfl, rfl⟩
  | append_singleton calls call ih =>
      obtain ⟨acts, s, hrun, hidle, hcalled, hcache, haccepted, hreturned⟩ := ih
      obtain ⟨acts', s', hrun', hcalled', h⟩ : ∃ acts' s', run (step lib) s acts' = some s' ∧
          called acts' = [call].filterMap CacheCall.offer ∧ s.Performs lib call.op s' := by
        cases call with
        | encache p msg =>
            obtain ⟨n, s', hrun, h⟩ := run_encache lib hidle p msg
            exact ⟨_, s', hrun, congrArg ((p, msg) :: ·) (called_replicate_produce n p), h⟩
        | decache =>
            obtain ⟨n, s', hrun, h⟩ := run_decache lib hidle
            exact ⟨_, s', hrun, called_replicate_consume n, h⟩
      refine ⟨acts ++ acts', s', by rw [run_append, hrun, Option.bind_some, hrun'], h.idle, ?_⟩
      rw [List.filterMap_append, ← hcalled, ← hcalled', List.map_append, List.map_singleton,
        Cache.after_concat, Cache.log_concat, accepted_append, decached_append, ← hcache,
        ← haccepted, ← hreturned]
      exact ⟨called_append acts acts', h.cache, h.accepted, h.returned⟩

/-! ## With one feed thread an interleaving is whole calls

Beside the run goes a sequence of whole calls. A call of `encache` joins it when it returns, a call
of `decache` too, so at most one message has been passed to `encache` and is not in it. -/

/-- The check of its id lets `msg` through and moves the mark from `u` to `U`. -/
inductive Admits (lib : JsonLib) (msg : Msg) (u : UInt64) : UInt64 → Prop
  | unranked (hrank : msg.rank lib = .ok none) : Admits lib msg u u
  | fresh {U : UInt64} (hrank : msg.rank lib = .ok (some U)) (hlt : u < U) : Admits lib msg u U

/-- What is left of the call is `enqueue`. -/
theorem Admits.encache_eq {c : Cache} {msg : Msg} {U : UInt64} (h : Admits lib msg c.U U) :
    c.encache lib msg = { c with U }.enqueue msg := by
  cases h with
  | unranked hrank => exact Cache.encache_unranked hrank
  | fresh hrank hlt => exact Cache.encache_fresh hrank hlt

/-- How far the queue is ahead of `q`, which has not seen the `enqueue` of `msg` yet. -/
def InEnqueue (q q' : LockFreeQueue Msg) (msg : Msg) : EnqueuePc Msg → Prop
  | .idle => False
  | .loadHead item _ => item = msg ∧ q' = q
  | .writeSlot item _ _ => item = msg ∧ q' = q
  | .storeTail item tail _ => item = msg ∧ q' = { q with buffer := q.buffer.set tail.toNat msg }

/-- How far the cache `d` is ahead of `c`, which has seen the whole calls but not that of the
    message `pending`. -/
def InCall (lib : JsonLib) (c d : Cache) (inQueue : EnqueuePc Msg) (pending : List Msg) :
    EncachePc → Prop
  | .idle => inQueue = .idle ∧ d = c ∧ pending = []
  | .loadU msg U => inQueue = .idle ∧ d = c ∧ pending = [msg] ∧ msg.rank lib = .ok (some U)
  | .storeU msg U =>
      inQueue = .idle ∧ d = c ∧ pending = [msg] ∧ msg.rank lib = .ok (some U) ∧ c.U < U
  | .loadTail msg =>
      inQueue = .idle ∧ d.cacheQueue = c.cacheQueue ∧ pending = [msg] ∧ Admits lib msg c.U d.U
  | .enqueue => ∃ msg, InEnqueue c.cacheQueue d.cacheQueue msg inQueue ∧ pending = [msg] ∧
      Admits lib msg c.U d.U

/-- The run is as far as the whole calls `ops`, but for the call of the message `pending`. -/
structure Follows (lib : JsonLib) (cap : Capacity) (u₀ : UInt64) (acts : List (SharedAction Unit))
    (s : SharedCache Unit) (ops : List CacheOp) (pending : List Msg) : Prop where
  called : (called acts).map Prod.snd = ops.filterMap CacheOp.message ++ pending
  accepted : s.acceptedMsgs = accepted ((Cache.fresh cap u₀).log lib ops)
  returned : s.returnedMsgs = decached ((Cache.fresh cap u₀).log lib ops)
  inCall : InCall lib ((Cache.fresh cap u₀).after lib ops) s.toCache (s.queue.producer ()) pending
    (s.producer ())

section Follows

variable {s s' : SharedCache Unit} {cap : Capacity} {u₀ : UInt64} {a : SharedAction Unit}
  {acts : List (SharedAction Unit)} {ops : List CacheOp} {pending : List Msg} {held : List Msg}

theorem follows_init : Follows lib cap u₀ [] (init cap u₀) [] [] where
  called := rfl
  accepted := rfl
  returned := rfl
  inCall := ⟨rfl, rfl, rfl⟩

/-- A call of `encache` returns and joins the whole calls. -/
theorem Follows.encache {msg : Msg} (h : Follows lib cap u₀ acts s ops pending)
    (hcalled : (SharedCache.called (acts ++ [a])).map Prod.snd
      = ops.filterMap CacheOp.message ++ [msg])
    (haccepted : s'.acceptedMsgs = s.acceptedMsgs ++
      if (((Cache.fresh cap u₀).after lib ops).encache lib msg).1 = .ok true then [msg] else [])
    (hreturned : s'.returnedMsgs = s.returnedMsgs) (hidle : s'.producer () = .idle)
    (hqueue : s'.queue.producer () = .idle)
    (hcache : s'.toCache = (((Cache.fresh cap u₀).after lib ops).encache lib msg).2) :
    Follows lib cap u₀ (acts ++ [a]) s' (ops ++ [.encache msg]) [] where
  called := by
    rw [hcalled, List.append_nil, List.filterMap_append]
    rfl
  accepted := by rw [haccepted, h.accepted, Cache.accepted_log_encache]
  returned := by
    rw [hreturned, h.returned, Cache.log_concat, decached_append]
    exact (List.append_nil _).symm
  inCall := by
    rw [hidle, Cache.after_concat]
    exact ⟨hqueue, hcache, rfl⟩

theorem Follows.decache {result : Option Msg} {c : Cache}
    (h : Follows lib cap u₀ acts s ops pending)
    (hdecache : ((Cache.fresh cap u₀).after lib ops).decache = (result, c))
    (haccepted : s'.acceptedMsgs = s.acceptedMsgs)
    (hreturned : s'.returnedMsgs = s.returnedMsgs ++ result.toList)
    (hinCall : InCall lib c s'.toCache (s'.queue.producer ()) pending (s'.producer ())) :
    Follows lib cap u₀ (acts ++ [.consume]) s' (ops ++ [.decache]) pending where
  called := by
    rw [called_append, List.map_append, h.called, List.filterMap_append, List.append_assoc,
      List.append_assoc]
    exact congrArg _ (List.append_nil pending)
  accepted := by rw [haccepted, h.accepted, Cache.accepted_log_decache]
  returned := by
    rw [hreturned, h.returned, Cache.log_concat, decached_append, Cache.perform, hdecache,
      decached_decache]
  inCall := by
    rw [Cache.after_concat, Cache.perform, hdecache]
    exact hinCall

theorem Follows.call {msg : Msg} (h : Follows lib cap u₀ acts s ops pending)
    (hs : s.step lib (.call () msg) = some s') :
    ∃ ops' pending', Follows lib cap u₀ (acts ++ [.call () msg]) s' ops' pending' := by
  have hin := h.inCall
  simp only [step] at hs
  split at hs
  · next hpc =>
      rw [hpc] at hin
      obtain ⟨hqueue, hcache, rfl⟩ := hin
      have hcalled : (SharedCache.called (acts ++ [.call () msg])).map Prod.snd
          = ops.filterMap CacheOp.message ++ [msg] := by
        simpa [SharedCache.called] using h.called
      split at hs
      · next e hrank =>
          obtain rfl := Option.some.inj hs
          have hthrow : ((Cache.fresh cap u₀).after lib ops).encache lib msg
              = (.error e, (Cache.fresh cap u₀).after lib ops) := Cache.encache_error hrank
          refine ⟨_, _, h.encache hcalled ?_ rfl hpc hqueue ?_⟩
          · simp [hthrow]
          · rw [hthrow]
            exact hcache
      · next hrank =>
          obtain rfl := Option.some.inj hs
          refine ⟨ops, [msg], hcalled, h.accepted, h.returned, ?_⟩
          rw [setProducer_producer]
          exact ⟨hqueue, congrArg Cache.cacheQueue hcache, rfl,
            congrArg Cache.U hcache ▸ .unranked hrank⟩
      · next U hrank =>
          obtain rfl := Option.some.inj hs
          refine ⟨ops, [msg], hcalled, h.accepted, h.returned, ?_⟩
          rw [setProducer_producer]
          exact ⟨hqueue, hcache, rfl, hrank⟩
  · exact absurd hs (by simp)

/-- Inside `enqueue` the feed thread stays or the whole `enqueue` has been done. -/
theorem InEnqueue.step {q : LockFreeQueue Msg} {msg : Msg} {t t' : QueueState Unit Msg}
    (h : InEnqueue q t.queue msg (t.producer ())) (hinv : QueueState.SpscInv cap t held)
    (hs : t.step (.produce ()) = some t') :
    (InEnqueue q t'.queue msg (t'.producer ()) ∧ t'.trace = t.trace) ∨
      (t'.producer () = .idle ∧ t'.queue = (q.enqueue msg).2 ∧
        t'.trace = t.trace ++ [if (q.enqueue msg).1 then .push msg else .pushFull msg]) := by
  have hprod := hinv.producers ()
  have hcur := hinv.current ()
  cases QueueState.steps_of_step hs with
  | @full _ item tail hpc hfull =>
      rw [hpc] at h hcur
      obtain ⟨rfl, hq⟩ := h
      obtain rfl : tail = t.queue.tail := hcur
      rw [hq] at hfull
      rw [LockFreeQueue.enqueue_full hfull]
      exact Or.inr ⟨by simp [QueueState.setProducer], hq, rfl⟩
  | @checked _ item tail hpc hroom =>
      rw [hpc] at h
      refine Or.inl ⟨?_, rfl⟩
      simpa [QueueState.setProducer, InEnqueue] using h
  | @write _ item tail nextTail hpc =>
      rw [hpc] at h
      obtain ⟨rfl, hq⟩ := h
      refine Or.inl ⟨?_, rfl⟩
      simp [QueueState.setProducer, InEnqueue, hq]
  | @publish _ item tail nextTail hpc =>
      rw [hpc] at h hprod
      obtain ⟨rfl, hq⟩ := h
      obtain ⟨rfl, rfl, hroom, -⟩ := hprod
      have htail : t.queue.tail = q.tail := by rw [hq]
      rw [htail] at hq
      have hfull : ¬ q.Full := fun hfull =>
        absurd (hinv.repr.full_iff.1 (hq.symm ▸ hfull)) hroom.ne
      rw [LockFreeQueue.enqueue_not_full hfull]
      refine Or.inr ⟨by simp [QueueState.setProducer], ?_, rfl⟩
      rw [hq]
      rfl

theorem Follows.produce (h : Follows lib cap u₀ acts s ops pending)
    (hinv : QueueState.SpscInv cap s.queue held) (hs : s.step lib (.produce ()) = some s') :
    ∃ ops' pending', Follows lib cap u₀ (acts ++ [.produce ()]) s' ops' pending' := by
  have hin := h.inCall
  have hcalled : (SharedCache.called (acts ++ [.produce ()])).map Prod.snd
      = ops.filterMap CacheOp.message ++ pending := by
    simpa [SharedCache.called] using h.called
  cases hpc : s.producer () with
  | idle => exact absurd hs (by simp [step, SharedCache.produce, hpc])
  | loadU msg U =>
      rw [hpc] at hin
      obtain ⟨hqueue, hcache, rfl, hrank⟩ := hin
      simp only [step, SharedCache.produce, hpc, Option.some.injEq] at hs
      subst hs
      by_cases hle : U ≤ s.U
      · -- a stale id: the call returns here
        rw [if_pos hle]
        have hstale : ((Cache.fresh cap u₀).after lib ops).encache lib msg
            = (.ok false, (Cache.fresh cap u₀).after lib ops) :=
          Cache.encache_stale hrank (hcache ▸ hle)
        refine ⟨_, _, h.encache hcalled ?_ rfl (setProducer_producer ..) hqueue ?_⟩
        · simp [hstale, setProducer]
        · rw [hstale]
          exact hcache
      · rw [if_neg hle]
        refine ⟨ops, [msg], hcalled, h.accepted, h.returned, ?_⟩
        rw [setProducer_producer]
        exact ⟨hqueue, hcache, rfl, hrank, hcache ▸ not_le.1 hle⟩
  | storeU msg U =>
      rw [hpc] at hin
      obtain ⟨hqueue, hcache, rfl, hrank, hlt⟩ := hin
      simp only [step, SharedCache.produce, hpc, Option.some.injEq] at hs
      subst hs
      refine ⟨ops, [msg], hcalled, h.accepted, h.returned, ?_⟩
      show InCall lib _ _ _ _ ((s.setProducer () (.loadTail msg)).producer ())
      rw [setProducer_producer]
      have hqueue' : s.queue.queue = _ := congrArg Cache.cacheQueue hcache
      exact ⟨hqueue, hqueue', rfl, .fresh hrank hlt⟩
  | loadTail msg =>
      rw [hpc] at hin
      obtain ⟨hqueue, hcache, rfl, hadmits⟩ := hin
      simp only [step, SharedCache.produce, hpc] at hs
      obtain ⟨queue, hstep, rfl⟩ := Option.map_eq_some_iff.1 hs
      cases QueueState.steps_of_step hstep with
      | call hidle =>
          refine ⟨ops, [msg], hcalled, h.accepted, h.returned, ?_⟩
          show InCall lib _ _ _ _ ((s.setProducer () .enqueue).producer ())
          rw [setProducer_producer]
          refine ⟨msg, ?_, rfl, hadmits⟩
          rw [show (s.queue.setProducer () (.loadHead msg s.queue.queue.tail)).producer ()
            = .loadHead msg s.queue.queue.tail by simp [QueueState.setProducer]]
          exact ⟨rfl, hcache⟩
  | enqueue =>
      rw [hpc] at hin
      obtain ⟨msg, hinq, rfl, hadmits⟩ := hin
      obtain ⟨queue, hqueue⟩ : ∃ queue, s.queue.step (.produce ()) = some queue := by
        simp only [step, SharedCache.produce, hpc] at hs
        obtain ⟨queue, hqueue, -⟩ := Option.map_eq_some_iff.1 hs
        exact ⟨queue, hqueue⟩
      rcases hinq.step hinv hqueue with ⟨hin', htrace⟩ | ⟨hidle, hq, htrace⟩
      · have hbusy : queue.producer () ≠ .idle := fun hidle => by
          rw [hidle] at hin'
          exact hin'
        obtain rfl := Option.some.inj ((step_produce_stay hpc hqueue hbusy).symm.trans hs)
        refine ⟨ops, [msg], hcalled, ?_, ?_, ?_⟩
        · exact (congrArg pushed htrace).trans h.accepted
        · exact (congrArg popped htrace).trans h.returned
        · show InCall lib _ _ _ _ (s.producer ())
          rw [hpc]
          exact ⟨msg, hin', rfl, hadmits⟩
      · obtain rfl := Option.some.inj ((step_produce_return hpc hqueue hidle).symm.trans hs)
        have heq := hadmits.encache_eq
        refine ⟨_, _, h.encache hcalled ?_ ?_ (by simp [setProducer]) hidle ?_⟩
        · rw [heq, ← pushed_enqueue, ← htrace]
        · exact (congrArg popped htrace).trans (popped_enqueue ..)
        · rw [heq]
          exact congrArg (Cache.mk s.U) hq

/-- The whole calls leave in the queue what the queue of the run holds. -/
theorem Follows.represents (h : Follows lib cap u₀ acts s ops pending)
    (hbal : Balanced s.queue.trace held) :
    ∃ d, ((Cache.fresh cap u₀).after lib ops).cacheQueue.Represents d held := by
  obtain ⟨hqueued, hrep⟩ := Cache.represents_fresh lib cap u₀ ops
  have hpushed : s.acceptedMsgs = s.returnedMsgs ++ held := hbal
  rw [h.accepted, h.returned, ← hqueued] at hpushed
  rw [List.append_cancel_left hpushed] at hrep
  exact ⟨_, hrep⟩

theorem InCall.length_le {c d : Cache} {inQueue : EnqueuePc Msg} {pc : EncachePc}
    (h : InCall lib c d inQueue pending pc) : pending.length ≤ 1 := by
  cases pc with
  | idle =>
      obtain ⟨-, -, rfl⟩ := h
      exact Nat.zero_le _
  | loadU msg U =>
      obtain ⟨-, -, rfl, -⟩ := h
      exact le_rfl
  | storeU msg U =>
      obtain ⟨-, -, rfl, -⟩ := h
      exact le_rfl
  | loadTail msg =>
      obtain ⟨-, -, rfl, -⟩ := h
      exact le_rfl
  | enqueue =>
      obtain ⟨msg, -, rfl, -⟩ := h
      exact le_rfl

/-- Taking out the oldest message keeps the distance between the cache and the whole calls. -/
theorem InCall.decache {c d : Cache} {inQueue : EnqueuePc Msg} {pc : EncachePc}
    (h : InCall lib c d inQueue pending pc) (hne : ¬ c.cacheQueue.Empty) :
    InCall lib c.decache.2
      { d with cacheQueue := { d.cacheQueue with head := d.cacheQueue.advance d.cacheQueue.head } }
      inQueue pending pc := by
  have hc : c.decache.2 = { c with
      cacheQueue := { c.cacheQueue with head := c.cacheQueue.advance c.cacheQueue.head } } := by
    unfold Cache.decache LockFreeQueue.dequeue
    rw [if_neg hne]
  rw [hc]
  cases pc with
  | idle =>
      obtain ⟨hqueue, rfl, hpending⟩ := h
      exact ⟨hqueue, rfl, hpending⟩
  | loadU msg U =>
      obtain ⟨hqueue, rfl, hpending, hrank⟩ := h
      exact ⟨hqueue, rfl, hpending, hrank⟩
  | storeU msg U =>
      obtain ⟨hqueue, rfl, hpending, hrank, hlt⟩ := h
      exact ⟨hqueue, rfl, hpending, hrank, hlt⟩
  | loadTail msg =>
      obtain ⟨hqueue, hcache, hpending, hadmits⟩ := h
      refine ⟨hqueue, ?_, hpending, hadmits⟩
      rw [hcache]
  | enqueue =>
      obtain ⟨msg, hin, hpending, hadmits⟩ := h
      refine ⟨msg, ?_, hpending, hadmits⟩
      cases inQueue with
      | idle => exact hin
      | loadHead item tail => exact ⟨hin.1, by rw [hin.2]⟩
      | writeSlot item tail nextTail => exact ⟨hin.1, by rw [hin.2]⟩
      | storeTail item tail nextTail =>
          refine ⟨hin.1, ?_⟩
          rw [hin.2]
          rfl

theorem Follows.consume (h : Follows lib cap u₀ acts s ops pending)
    (hinv : QueueState.SpscInv cap s.queue held) (hs : s.step lib .consume = some s') :
    ∃ ops' pending', Follows lib cap u₀ (acts ++ [.consume]) s' ops' pending' := by
  have hcalled : (SharedCache.called (acts ++ [.consume])).map Prod.snd
      = ops.filterMap CacheOp.message ++ pending := by
    simpa [SharedCache.called] using h.called
  have hcons := hinv.consumer
  obtain ⟨d, hrep⟩ := h.represents hinv.balanced
  simp only [step] at hs
  obtain ⟨queue, hqueue, rfl⟩ := Option.map_eq_some_iff.1 hs
  cases QueueState.steps_of_step hqueue with
  | start hpc => exact ⟨ops, pending, hcalled, h.accepted, h.returned, h.inCall⟩
  | nonempty hpc hne => exact ⟨ops, pending, hcalled, h.accepted, h.returned, h.inCall⟩
  | read hpc => exact ⟨ops, pending, hcalled, h.accepted, h.returned, h.inCall⟩
  | @empty head hpc hempty =>
      rw [hpc] at hcons
      obtain rfl : held = [] := hinv.repr.empty_iff.1 (hcons.symm.trans hempty)
      have hdecache : ((Cache.fresh cap u₀).after lib ops).decache
          = (none, (Cache.fresh cap u₀).after lib ops) := by
        unfold Cache.decache
        rw [hrep.dequeue_empty]
      exact ⟨_, _, h.decache hdecache (pushed_concat_popEmpty _)
        ((popped_concat_popEmpty _).trans (List.append_nil _).symm) h.inCall⟩
  | @release head item hpc =>
      rw [hpc] at hcons
      obtain ⟨rfl, hhead⟩ := hcons
      obtain ⟨hresult, -⟩ := Cache.represents_decache hrep
      have hne : ¬ ((Cache.fresh cap u₀).after lib ops).cacheQueue.Empty := by
        rw [hrep.empty_iff]
        rintro rfl
        exact absurd hhead (by simp)
      exact ⟨_, _, h.decache (Prod.ext (hresult.trans hhead) rfl) (pushed_concat_pop _ _)
        (popped_concat_pop _ _) (h.inCall.decache hne)⟩

/-- **Step lemma.** With one feed thread every access keeps the run beside whole calls. -/
theorem Follows.step (h : Follows lib cap u₀ acts s ops pending)
    (hinv : QueueState.SpscInv cap s.queue held) (hs : s.step lib a = some s') :
    ∃ ops' pending', Follows lib cap u₀ (acts ++ [a]) s' ops' pending' := by
  cases a with
  | call p msg => exact h.call hs
  | produce p => exact h.produce hinv hs
  | consume => exact h.consume hinv hs

/-- **Run lemma.** So every run goes beside some whole calls. -/
theorem follows_run (hrun : run (step lib) (init cap u₀) acts = some s) :
    ∃ ops pending, Follows lib cap u₀ acts s ops pending := by
  have hboth : (∃ ops pending, Follows lib cap u₀ acts s ops pending) ∧
      ∃ held, QueueState.SpscInv cap s.queue held := by
    refine run_invariant_history
      (fun acts s => (∃ ops pending, Follows lib cap u₀ acts s ops pending) ∧
        ∃ held, QueueState.SpscInv cap s.queue held) ?_
      ⟨⟨[], [], follows_init⟩, [], QueueState.spscInv_init cap⟩ hrun
    rintro acts s a t ⟨⟨ops, pending, h⟩, held, hinv⟩ hs
    exact ⟨h.step hinv hs, spscInv_step ⟨held, hinv⟩ hs⟩
  exact hboth.1

end Follows

/-- **With one feed thread calls are atomic.** However the accesses of one feed thread and of the
    consumer are interleaved, some sequence of whole calls of `encache` and `decache` has accepted
    and returned the same messages. It makes the calls of `encache` in their order, all but the last
    if that has not returned, and if it has, leaves the same cache. -/
theorem exists_calls (lib : JsonLib) (cap : Capacity) (u₀ : UInt64)
    (acts : List (SharedAction Unit)) (s : SharedCache Unit)
    (hrun : run (step lib) (init cap u₀) acts = some s) :
    ∃ ops pending, (called acts).map Prod.snd = ops.filterMap CacheOp.message ++ pending ∧
      pending.length ≤ 1 ∧
      s.acceptedMsgs = accepted ((Cache.fresh cap u₀).log lib ops) ∧
      s.returnedMsgs = decached ((Cache.fresh cap u₀).log lib ops) ∧
      (s.producer () = .idle →
        pending = [] ∧ s.toCache = (Cache.fresh cap u₀).after lib ops) := by
  obtain ⟨ops, pending, h⟩ := follows_run hrun
  refine ⟨ops, pending, h.called, h.inCall.length_le, h.accepted, h.returned, fun hidle => ?_⟩
  have hin := h.inCall
  rw [hidle] at hin
  exact ⟨hin.2.2, hin.2.1⟩

/-- A snapshot is encached while the consumer is already inside `decache`. -/
def overlapSchedule : List (SharedAction Unit) :=
  [.call () (.snapshot "btcusdt"), .produce (), .consume, .produce (), .produce (), .produce (),
    .consume, .consume, .consume]

theorem exists_calls_overlap :
    ∃ s : SharedCache Unit, run (step .sample) (init .default 0) overlapSchedule = some s ∧
      s.returnedMsgs = [.snapshot "btcusdt"] ∧
      ∃ ops, ops.filterMap CacheOp.message = [.snapshot "btcusdt"] ∧
        s.toCache = (Cache.fresh .default 0).after .sample ops := by
  refine ⟨_, rfl, rfl, ?_⟩
  obtain ⟨ops, pending, hcalled, -, -, -, hidle⟩ :=
    exists_calls .sample .default 0 overlapSchedule _ rfl
  obtain ⟨rfl, hcache⟩ := hidle rfl
  exact ⟨ops, (hcalled.trans (List.append_nil _)).symm, hcache⟩

end SharedCache

end MarketFeed
