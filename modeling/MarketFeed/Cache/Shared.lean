import MarketFeed.Cache
import MarketFeed.Utils.QueueSpsc
import Mathlib.Data.List.Perm.Subperm

set_option autoImplicit false

/-! # One cache, many feed threads

`Client::setup` hands one cache to every connection manager and `Client::run` starts a thread for
each, so `encache` runs in several threads `ι` at once, over a queue written for one producer, and
`Cache::mutex_` is never taken. `SharedCache.step` interleaves their accesses: the read and the
write of `U_`, and inside `enqueue` the accesses of `QueueSteps.lean`.

Messages are lost when two threads are between the load and the store of `tail_` together. As long
as every slot write meets `SafeWrite` the queue delivers each accepted message exactly once
(`exactlyOnce_of_safeWrite`), which one thread alone always does (`exactlyOnce_of_subsingleton`). -/

namespace MarketFeed

open BoundedFifo Execution LockFreeQueue

variable {ι : Type*}

/-- Where a thread stands inside `encache(msg)`: named after its next access. -/
inductive EncachePc where
  | idle
  | loadU (msg : Msg) (U : UInt64)
  | storeU (msg : Msg) (U : UInt64)
  | loadTail (msg : Msg)
  /-- Inside `enqueue`, past the load of `tail_`. -/
  | enqueue

/-- The shared cache and the threads that use it. -/
structure SharedCache (ι : Type*) where
  U : UInt64
  queue : QueueState ι Msg
  producer : ι → EncachePc

/-- A scheduling decision. -/
inductive SharedAction (ι : Type*) where
  /-- Thread `p` calls `encache(msg)` and reads the message, which is its own. -/
  | call (p : ι) (msg : Msg)
  /-- Thread `p` makes its next shared access inside `encache`. -/
  | produce (p : ι)
  /-- The consumer makes its next access inside `decache`. -/
  | consume

namespace SharedCache

/-- A new cache whose memory held `u₀`, no thread inside a call. -/
def init (cap : Capacity) (u₀ : UInt64) : SharedCache ι where
  U := u₀
  queue := .init cap
  producer _ := .idle

/-- The cache as one thread sees it between calls. -/
def toCache (s : SharedCache ι) : Cache := { U := s.U, cacheQueue := s.queue.queue }

variable [DecidableEq ι]

/-- Set the program counter of thread `p`. -/
def setProducer (s : SharedCache ι) (p : ι) (pc : EncachePc) : SharedCache ι :=
  { s with producer := Function.update s.producer p pc }

@[simp] theorem setProducer_producer (s : SharedCache ι) (p : ι) (pc : EncachePc) :
    (s.setProducer p pc).producer p = pc := by simp [setProducer]

/-- The next shared access of thread `p` inside `encache`. -/
def produce (s : SharedCache ι) (p : ι) : Option (SharedCache ι) :=
  match s.producer p with
  | .idle => none
  | .loadU msg U => some (s.setProducer p (if U ≤ s.U then .idle else .storeU msg U))
  | .storeU msg U => some { s.setProducer p (.loadTail msg) with U }
  | .loadTail msg =>
      (s.queue.step (.call p msg)).map fun queue => { s.setProducer p .enqueue with queue }
  | .enqueue =>
      (s.queue.step (.produce p)).map fun queue =>
        match queue.producer p with
        | .idle => { s.setProducer p .idle with queue }
        | _ => { s with queue }

def step (lib : JsonLib) (s : SharedCache ι) : SharedAction ι → Option (SharedCache ι)
  | .call p msg =>
      match s.producer p with
      | .idle =>
          match msg.rank lib with
          | .error _ => some s
          | .ok none => some (s.setProducer p (.loadTail msg))
          | .ok (some U) => some (s.setProducer p (.loadU msg U))
      | _ => none
  | .produce p => s.produce p
  | .consume => (s.queue.step .consume).map fun queue => { s with queue }

/-- The messages `encache` returned true for, in the order of their tail stores. -/
abbrev acceptedMsgs (s : SharedCache ι) : List Msg := pushed s.queue.trace

/-- The messages `decache` returned. -/
abbrev returnedMsgs (s : SharedCache ι) : List Msg := popped s.queue.trace

/-- Every returned message is a different accepted one, and once the queue is drained every accepted
    message has been returned exactly once. -/
def ExactlyOnce (s : SharedCache ι) : Prop :=
  s.returnedMsgs.Subperm s.acceptedMsgs ∧
    (s.queue.queue.Empty → s.returnedMsgs.Perm s.acceptedMsgs)

/-- A slot write of `a` goes to the free slot of a queue with room, and no other thread has written
    that slot and not yet stored `tail_`. -/
def SafeWrite (s : SharedCache ι) : SharedAction ι → Prop
  | .produce p => s.queue.SafeWrite (.produce p)
  | _ => True

instance [Fintype ι] (s : SharedCache ι) : ∀ a, Decidable (s.SafeWrite a)
  | .produce p => inferInstanceAs (Decidable (s.queue.SafeWrite (.produce p)))
  | .call _ _ => isTrue trivial
  | .consume => isTrue trivial

variable {lib : JsonLib} {s s' : SharedCache ι} {a : SharedAction ι}

/-- A step of the cache makes at most one step of the queue, and a safe step of the cache a safe
    step of the queue. -/
theorem queue_step (hs : s.step lib a = some s') :
    s'.queue = s.queue ∨
      ∃ b, s.queue.step b = some s'.queue ∧ (s.SafeWrite a → s.queue.SafeWrite b) := by
  cases a with
  | call p msg =>
      -- the call itself reads only its own message
      left
      simp only [step] at hs
      split at hs
      · split at hs
        · exact Option.some.inj hs ▸ rfl
        · exact Option.some.inj hs ▸ rfl
        · exact Option.some.inj hs ▸ rfl
      · exact absurd hs (by simp)
  | produce p =>
      simp only [step, produce] at hs
      split at hs
      · exact absurd hs (by simp)
      · exact Or.inl (Option.some.inj hs ▸ rfl)
      · exact Or.inl (Option.some.inj hs ▸ rfl)
      · next msg hpc =>
          obtain ⟨queue, hqueue, rfl⟩ := Option.map_eq_some_iff.1 hs
          exact Or.inr ⟨.call p msg, hqueue, fun _ => trivial⟩
      · obtain ⟨queue, hqueue, rfl⟩ := Option.map_eq_some_iff.1 hs
        refine Or.inr ⟨.produce p, ?_, id⟩
        split
        · exact hqueue
        · exact hqueue
  | consume =>
      simp only [step] at hs
      obtain ⟨queue, hqueue, rfl⟩ := Option.map_eq_some_iff.1 hs
      exact Or.inr ⟨.consume, hqueue, fun _ => trivial⟩

/-- What the safe steps of the queue keep, the safe steps of the cache keep. -/
theorem queue_invariant {J : QueueState ι Msg → Prop}
    (hstep : ∀ q b q', J q → q.SafeWrite b → q.step b = some q' → J q') (h : J s.queue)
    (hsafe : s.SafeWrite a) (hs : s.step lib a = some s') : J s'.queue := by
  rcases queue_step hs with hqueue | ⟨b, hqueue, hb⟩
  · rw [hqueue]
    exact h
  · exact hstep s.queue b s'.queue h (hb hsafe) hqueue

omit [DecidableEq ι] in
theorem exactlyOnce_of_inv {cap : Capacity} {held : List Msg}
    (h : QueueState.Inv cap s.queue held) : s.ExactlyOnce := by
  have hbal : s.acceptedMsgs = s.returnedMsgs ++ held := h.balanced
  refine ⟨?_, fun hempty => ?_⟩
  · rw [hbal]
    exact (List.prefix_append _ _).sublist.subperm
  · rw [hbal, h.repr.empty_iff.1 hempty, List.append_nil]

/-- **Exactly-once delivery, as far as it goes.** In every run of any number of feed threads and the
    consumer whose slot writes are all safe, every returned message is a different accepted one, and
    whenever the queue is drained all accepted messages have been returned. -/
theorem exactlyOnce_of_safeWrite (lib : JsonLib) (cap : Capacity) (u₀ : UInt64)
    (acts : List (SharedAction ι)) (s : SharedCache ι)
    (hrun : run (step lib) (init cap u₀) acts = some s)
    (hsafe : Along (step lib) SafeWrite (init cap u₀) acts) : s.ExactlyOnce := by
  have hinv : ∃ held, QueueState.Inv cap s.queue held := by
    refine run_invariant_along (fun s => ∃ held, QueueState.Inv cap s.queue held) ?_
      ⟨[], QueueState.inv_init cap⟩ hsafe hrun
    intro s a t hs hG hst
    refine queue_invariant (J := fun q => ∃ held, QueueState.Inv cap q held) ?_ hs hG hst
    rintro q b q' ⟨held, h⟩ hb hq
    obtain ⟨held', h', -⟩ := h.step hb hq
    exact ⟨held', h'⟩
  obtain ⟨held, h⟩ := hinv
  exact exactlyOnce_of_inv h

/-- Two feed threads, one after the other, and a consumer that drains the queue. -/
def turnsSchedule : List (SharedAction (Fin 2)) :=
  .call 0 (.snapshot "btcusdt") :: List.replicate 4 (.produce 0) ++
    .call 1 (.snapshot "ethusdt") :: List.replicate 4 (.produce 1) ++ List.replicate 8 .consume

theorem exactlyOnce_of_safeWrite_turns :
    ∃ s : SharedCache (Fin 2), run (step .sample) (init .default 0) turnsSchedule = some s ∧
      s.ExactlyOnce ∧ s.returnedMsgs = [.snapshot "btcusdt", .snapshot "ethusdt"] := by
  refine ⟨_, rfl, exactlyOnce_of_safeWrite .sample .default 0 turnsSchedule _ rfl ?_, rfl⟩
  decide

/-- Two feed threads that both load `tail_` before either stores it. -/
def raceSchedule : List (SharedAction (Fin 2)) :=
  [.call 0 (.snapshot "btcusdt"), .call 1 (.snapshot "ethusdt"),
    .produce 0, .produce 1, .produce 0, .produce 1, .produce 0, .produce 1, .produce 0, .produce 1,
    .consume, .consume, .consume, .consume]

/-- Both threads write slot 0 and both calls return true: the first message is overwritten. -/
theorem exactlyOnce_lost_race :
    ∃ s : SharedCache (Fin 2), run (step .sample) (init .default 0) raceSchedule = some s ∧
      s.acceptedMsgs = [.snapshot "btcusdt", .snapshot "ethusdt"] ∧
      s.returnedMsgs = [.snapshot "ethusdt"] ∧ s.queue.queue.Empty ∧ ¬ s.ExactlyOnce := by
  refine ⟨_, rfl, rfl, rfl, rfl, fun h => ?_⟩
  have hlen := (h.2 rfl).length_eq
  exact absurd hlen (by decide)

/-- One feed thread alone always writes the free slot, so the queue keeps its invariant. -/
theorem spscInv_step [Subsingleton ι] {cap : Capacity}
    (h : ∃ held, QueueState.SpscInv cap s.queue held) (hs : s.step lib a = some s') :
    ∃ held, QueueState.SpscInv cap s'.queue held := by
  have hsafe : s.SafeWrite a := by
    obtain ⟨held, h⟩ := h
    cases a with
    | call p msg => trivial
    | produce p => exact h.safeWrite (.produce p)
    | consume => trivial
  refine queue_invariant (J := fun q => ∃ held, QueueState.SpscInv cap q held) ?_ h hsafe hs
  rintro q b q' ⟨held, h⟩ - hq
  obtain ⟨held', h', -⟩ := h.step hq
  exact ⟨held', h'⟩

/-- One feed thread alone loses nothing. -/
theorem exactlyOnce_of_subsingleton [Subsingleton ι] (lib : JsonLib) (cap : Capacity) (u₀ : UInt64)
    (acts : List (SharedAction ι)) (s : SharedCache ι)
    (hrun : run (step lib) (init cap u₀) acts = some s) : s.ExactlyOnce := by
  obtain ⟨held, h⟩ := run_invariant (fun s => ∃ held, QueueState.SpscInv cap s.queue held)
    (fun _ _ _ h hs => spscInv_step h hs) ⟨[], QueueState.spscInv_init cap⟩ hrun
  exact exactlyOnce_of_inv h.toInv

end SharedCache

end MarketFeed
