import MarketFeed.Consumer
import MarketFeed.Cache.Symbols

set_option autoImplicit false

/-! # How long a message waits

A poll task posts a delivery and itself, and the `io_context` runs its tasks in the order in which
they were posted. So between two polls there is at most one delivery (`Alternates`), and a poll loop
adds at most one message to those on their way.

`dispatches_within` bounds the tasks that run before a message accepted by the cache reaches its
callback, whatever other threads do in the meantime: two for every message in front of it and
itself, and one for every task posted already. -/

namespace MarketFeed

open Execution LockFreeQueue

/-- Somebody calls `Consumer::run()`. -/
def ConsumerAction.isRun : ConsumerAction → Bool
  | .run => true
  | _ => false

/-- The `io_context` runs a task. -/
def ConsumerAction.isHandle : ConsumerAction → Bool
  | .handle => true
  | _ => false

namespace Consumer

/-- How often `Consumer::run()` was called. -/
def runs (acts : List ConsumerAction) : ℕ := acts.countP ConsumerAction.isRun

/-- How many tasks the `io_context` has run. -/
def handles (acts : List ConsumerAction) : ℕ := acts.countP ConsumerAction.isHandle

theorem runs_cons (a : ConsumerAction) (acts : List ConsumerAction) :
    runs (a :: acts) = runs acts + if a.isRun then 1 else 0 := List.countP_cons

theorem handles_cons (a : ConsumerAction) (acts : List ConsumerAction) :
    handles (a :: acts) = handles acts + if a.isHandle then 1 else 0 := List.countP_cons

theorem runs_concat (acts : List ConsumerAction) (a : ConsumerAction) :
    runs (acts ++ [a]) = runs acts + if a.isRun then 1 else 0 := by
  rw [runs, List.countP_append, List.countP_singleton]
  rfl

variable {lib : JsonLib} {s s' : Consumer} {a : ConsumerAction} {held : List Msg}

/-! ## What one task does -/

/-- The first task polls, or hands its message to a callback. -/
theorem handle_cases (hs : s.step lib .handle = some s') :
    (∃ rest, s.ioContext = .poll :: rest ∧ s' = { s with ioContext := rest }.poll) ∨
      ∃ msg rest callsWS callsREST, s.ioContext = .deliver msg :: rest ∧ s' = { s with
        ioContext := rest
        dispatched := s.dispatched ++ [msg]
        callsWS := callsWS
        callsREST := callsREST } := by
  simp only [Consumer.step] at hs
  split at hs
  · exact absurd hs (by simp)
  · next rest hioc => exact Or.inl ⟨rest, hioc, (Option.some.inj hs).symm⟩
  · next msg rest hioc =>
      cases hdata : Consumer.onData
          { s with ioContext := rest, dispatched := s.dispatched ++ [msg] } msg with
      | error e =>
          rw [hdata] at hs
          exact absurd hs (by simp [Except.toOption])
      | ok t =>
          rw [hdata] at hs
          obtain rfl := Option.some.inj hs
          obtain ⟨callsWS, callsREST, rfl⟩ := onData_frame hdata
          exact Or.inr ⟨msg, rest, callsWS, callsREST, hioc, rfl⟩

/-- A task that runs does nothing to the cache, or makes one call of `decache`. -/
theorem bufferQueue_handle (hs : s.step lib .handle = some s') :
    (s'.bufferQueue = s.bufferQueue ∧ s'.decached = s.decached) ∨
      (s'.bufferQueue = s.bufferQueue.decache.2 ∧
        s'.decached = s.decached ++ s.bufferQueue.decache.1.toList) := by
  rcases handle_cases hs with ⟨rest, -, rfl⟩ | ⟨msg, rest, callsWS, callsREST, -, rfl⟩
  · refine Or.inr ?_
    unfold Consumer.poll
    split
    · next msg bufferQueue hdec =>
        have hdec : s.bufferQueue.decache = (some msg, bufferQueue) := hdec
        rw [hdec]
        exact ⟨rfl, rfl⟩
    · next bufferQueue hdec =>
        have hdec : s.bufferQueue.decache = (none, bufferQueue) := hdec
        rw [hdec]
        exact ⟨rfl, (List.append_nil _).symm⟩
  · exact Or.inl ⟨rfl, rfl⟩

/-- A task that runs is a poll that finds the queue empty, a poll that takes the oldest message, or
    a delivery. -/
inductive Handles (s s' : Consumer) (held held' : List Msg) : Prop
  | idle {rest : List Task} (hioc : s.ioContext = .poll :: rest) (hheld : held = [])
      (hheld' : held' = []) (hioc' : s'.ioContext = rest ++ [.poll])
      (hdecached : s'.decached = s.decached) (hdispatched : s'.dispatched = s.dispatched)
  | poll {msg : Msg} {rest : List Task} (hioc : s.ioContext = .poll :: rest)
      (hheld : held = msg :: held') (hioc' : s'.ioContext = rest ++ [.deliver msg, .poll])
      (hdecached : s'.decached = s.decached ++ [msg]) (hdispatched : s'.dispatched = s.dispatched)
  | deliver {msg : Msg} {rest : List Task} (hioc : s.ioContext = .deliver msg :: rest)
      (hheld : held' = held) (hioc' : s'.ioContext = rest) (hdecached : s'.decached = s.decached)
      (hdispatched : s'.dispatched = s.dispatched ++ [msg])

/-- Every task of a reachable consumer is one of these. -/
theorem Inv.handles (h : Inv s held) (hs : s.step lib .handle = some s') :
    ∃ held', Inv s' held' ∧ Handles s s' held held' := by
  obtain ⟨held', h'⟩ := h.step hs
  refine ⟨held', h', ?_⟩
  have haccepted := accepted_handle hs
  rw [h.accepted, h'.accepted] at haccepted
  rcases handle_cases hs with ⟨rest, hioc, rfl⟩ | ⟨msg, rest, callsWS, callsREST, hioc, rfl⟩
  · obtain ⟨hres, -⟩ := Cache.represents_decache h.ring
    rcases hdec : s.bufferQueue.decache with ⟨result, bufferQueue⟩
    rw [hdec] at hres
    unfold Consumer.poll at haccepted ⊢
    simp only [hdec] at haccepted ⊢
    cases result with
    | none =>
        obtain rfl : held = [] := List.head?_eq_none_iff.1 hres.symm
        exact .idle hioc rfl (List.append_cancel_left haccepted) rfl rfl rfl
    | some msg =>
        obtain ⟨tail, rfl⟩ := List.head?_eq_some_iff.1 hres.symm
        have haccepted : (s.decached ++ [msg]) ++ held' = s.decached ++ msg :: tail := haccepted
        obtain rfl : held' = tail := by simpa using haccepted
        exact .poll hioc rfl (by simp [post, Consumer.run]) rfl rfl
  · exact .deliver hioc (List.append_cancel_left haccepted) rfl rfl rfl

/-! ## Poll loops -/

/-- Every delivery is followed by a poll. -/
inductive Alternates : List Task → Prop
  | nil : Alternates []
  | poll {tasks : List Task} (h : Alternates tasks) : Alternates (.poll :: tasks)
  | deliver {tasks : List Task} (msg : Msg) (h : Alternates tasks) :
      Alternates (.deliver msg :: .poll :: tasks)

namespace Alternates

variable {tasks tasks' : List Task}

theorem append (h : Alternates tasks) (h' : Alternates tasks') : Alternates (tasks ++ tasks') := by
  induction h with
  | nil => exact h'
  | poll h ih => exact .poll ih
  | deliver msg h ih => exact .deliver msg ih

theorem tail {task : Task} (h : Alternates (task :: tasks)) : Alternates tasks := by
  cases h with
  | poll h => exact h
  | deliver msg h => exact .poll h

/-- There are at least as many polls as deliveries. -/
theorem length_le (h : Alternates tasks) :
    2 * (tasks.filterMap Task.message).length ≤ tasks.length := by
  induction h with
  | nil => exact Nat.le_refl _
  | poll h ih =>
      simp only [List.filterMap_cons, Task.message, List.length_cons]
      omega
  | deliver msg h ih =>
      simp only [List.filterMap_cons, Task.message, List.length_cons]
      omega

end Alternates

/-- What the posted tasks are after some actions: one poll for every call of `run`, and the
    deliveries between them. -/
structure Loops (done : List ConsumerAction) (s : Consumer) : Prop where
  alternates : Alternates s.ioContext
  polls : s.ioContext.length = runs done + s.inFlight.length

/-- **Step lemma.** A task that runs posts as many polls as it removes. -/
theorem Loops.step {done : List ConsumerAction} (h : Loops done s) (hinv : Inv s held)
    (hs : s.step lib a = some s') : Loops (done ++ [a]) s' := by
  cases a with
  | run =>
      obtain rfl := Option.some.inj hs
      refine ⟨h.alternates.append (.poll .nil), ?_⟩
      have hlength := h.polls
      have hflight : s.run.inFlight = s.inFlight := by simp [Consumer.run, Task.message]
      rw [hflight, runs_concat]
      show (s.ioContext ++ [Task.poll]).length = _
      rw [List.length_append, hlength, List.length_singleton]
      simp only [ConsumerAction.isRun, if_true]
      omega
  | encache msg =>
      obtain rfl := Option.some.inj hs
      refine ⟨h.alternates, ?_⟩
      rw [runs_concat]
      exact h.polls
  | handle =>
      have hruns : runs (done ++ [.handle]) = runs done := runs_concat done .handle
      have halternates := h.alternates
      have hlength := h.polls
      unfold inFlight at hlength
      obtain ⟨held', -, hcase⟩ := hinv.handles hs
      cases hcase with
      | @idle rest hioc hheld hheld' hioc' hdecached hdispatched =>
          rw [hioc] at halternates hlength
          refine ⟨hioc' ▸ halternates.tail.append (.poll .nil), ?_⟩
          rw [hruns, inFlight, hioc']
          simp [List.filterMap_cons, Task.message] at hlength ⊢
          omega
      | @poll msg rest hioc hheld hioc' hdecached hdispatched =>
          rw [hioc] at halternates hlength
          refine ⟨hioc' ▸ halternates.tail.append (.deliver msg .nil), ?_⟩
          rw [hruns, inFlight, hioc']
          simp [List.filterMap_cons, Task.message] at hlength ⊢
          omega
      | @deliver msg rest hioc hheld hioc' hdecached hdispatched =>
          rw [hioc] at halternates hlength
          refine ⟨hioc' ▸ halternates.tail, ?_⟩
          rw [hruns, inFlight, hioc']
          simp [Task.message] at hlength
          omega

/-- **Run lemma.** However many poll loops are started and whenever. -/
theorem loops_run {c : Cache} (hc : c.cacheQueue.Represents 0 []) {acts : List ConsumerAction}
    (hrun : Execution.run (step lib) (init c) acts = some s) : Loops acts s := by
  have hboth : Loops acts s ∧ ∃ held, Inv s held := by
    refine run_invariant_history (fun done s => Loops done s ∧ ∃ held, Inv s held) ?_
      ⟨⟨.nil, rfl⟩, [], inv_init hc⟩ hrun
    rintro done s a t ⟨h, held, hinv⟩ hs
    exact ⟨h.step hinv hs, hinv.step hs⟩
  exact hboth.1

/-! ## Waiting -/

/-- The first `target` messages accepted will have been dispatched when `bound` more tasks have run:
    those still in the queue are two tasks each, and the rest is behind tasks already posted. -/
inductive Due (target bound : ℕ) (s : Consumer) : Prop
  | posted (front back : List Task) (hioc : s.ioContext = front ++ back)
      (hlength : front.length ≤ bound)
      (htarget : target ≤ s.dispatched.length + (front.filterMap Task.message).length)
  | queued (hqueued : s.decached.length < target) (haccepted : target ≤ s.accepted.length)
      (hbound : 2 * (target - s.decached.length) + s.ioContext.length ≤ bound)

variable {target bound : ℕ}

/-- No more tasks are needed for what has been dispatched. -/
theorem Due.dispatched (h : Due target 0 s) : target ≤ s.dispatched.length := by
  cases h with
  | posted front back hioc hlength htarget =>
      obtain rfl := List.length_eq_zero_iff.1 (Nat.le_zero.1 hlength)
      exact htarget
  | queued hqueued haccepted hbound => omega

theorem Due.mono {bound' : ℕ} (h : Due target bound s) (hle : bound ≤ bound') :
    Due target bound' s := by
  cases h with
  | posted front back hioc hlength htarget =>
      exact .posted front back hioc (hlength.trans hle) htarget
  | queued hqueued haccepted hbound => exact .queued hqueued haccepted (hbound.trans hle)

theorem Due.handle (h : Due target (bound + 1) s) (hinv : Inv s held)
    (hs : s.step lib .handle = some s') : Due target bound s' := by
  obtain ⟨held', hinv', hcase⟩ := hinv.handles hs
  cases h with
  | posted front back hioc hlength htarget =>
      cases front with
      | nil =>
          refine .posted [] s'.ioContext rfl (Nat.zero_le _) (htarget.trans ?_)
          cases hcase with
          | idle _ _ _ _ _ hdispatched => rw [hdispatched]
          | poll _ _ _ _ hdispatched => rw [hdispatched]
          | deliver _ _ _ _ hdispatched =>
              rw [hdispatched, List.length_append]
              exact Nat.le_add_right_of_le (Nat.le_add_right _ _)
      | cons task front =>
          rw [List.cons_append] at hioc
          rw [List.length_cons] at hlength
          cases hcase with
          | @idle rest hpoll _ _ hioc' _ hdispatched =>
              obtain ⟨rfl, rfl⟩ := List.cons_eq_cons.1 (hioc.symm.trans hpoll)
              refine .posted front (back ++ [.poll]) (by rw [hioc', List.append_assoc])
                (Nat.le_of_succ_le_succ hlength) ?_
              rw [hdispatched]
              exact htarget
          | @poll msg rest hpoll _ hioc' _ hdispatched =>
              obtain ⟨rfl, rfl⟩ := List.cons_eq_cons.1 (hioc.symm.trans hpoll)
              refine .posted front (back ++ [.deliver msg, .poll])
                (by rw [hioc', List.append_assoc]) (Nat.le_of_succ_le_succ hlength) ?_
              rw [hdispatched]
              exact htarget
          | @deliver msg rest hdeliver _ hioc' _ hdispatched =>
              obtain ⟨rfl, rfl⟩ := List.cons_eq_cons.1 (hioc.symm.trans hdeliver)
              refine .posted front back hioc' (Nat.le_of_succ_le_succ hlength) ?_
              rw [hdispatched, List.length_append]
              simp [Task.message] at htarget ⊢
              omega
  | queued hqueued haccepted hbound =>
      have haccepted' : target ≤ s'.accepted.length := by rwa [accepted_handle hs]
      cases hcase with
      | @idle rest hpoll hheld _ _ _ _ =>
          -- the target is in the queue, so a poll finds it
          rw [hinv.accepted, hheld, List.append_nil] at haccepted
          omega
      | @poll msg rest hpoll hheld hioc' hdecached hdispatched =>
          have hlength' : s'.decached.length = s.decached.length + 1 := by
            rw [hdecached, List.length_append, List.length_singleton]
          rw [hpoll, List.length_cons] at hbound
          by_cases hlast : s'.decached.length < target
          · refine .queued hlast haccepted' ?_
            rw [hioc', List.length_append]
            simp only [List.length_cons, List.length_nil]
            omega
          · -- the poll has just posted the delivery of the last one
            refine .posted (rest ++ [.deliver msg]) [.poll] (by rw [hioc']; simp) ?_ ?_
            · rw [List.length_append, List.length_singleton]
              omega
            · have hflight := congrArg List.length hinv'.decached
              rw [inFlight, hioc', List.length_append] at hflight
              simp [List.filterMap_cons, Task.message] at hflight ⊢
              omega
      | @deliver msg rest hdeliver hheld hioc' hdecached hdispatched =>
          rw [hdeliver, List.length_cons] at hbound
          refine .queued (hdecached ▸ hqueued) haccepted' ?_
          rw [hdecached, hioc']
          omega

theorem Due.run (h : Due target bound s) : Due target (bound + 1) s.run := by
  cases h with
  | posted front back hioc hlength htarget =>
      refine .posted front (back ++ [.poll]) ?_ (Nat.le_succ_of_le hlength) htarget
      show s.ioContext ++ [.poll] = _
      rw [hioc, List.append_assoc]
  | queued hqueued haccepted hbound =>
      refine .queued hqueued haccepted ?_
      show 2 * _ + (s.ioContext ++ [Task.poll]).length ≤ _
      rw [List.length_append, List.length_singleton]
      exact Nat.succ_le_succ hbound

theorem Due.encache (h : Due target bound s) (msg : Msg) :
    Due target bound (s.encache lib msg) := by
  cases h with
  | posted front back hioc hlength htarget => exact .posted front back hioc hlength htarget
  | queued hqueued haccepted hbound =>
      refine .queued hqueued (haccepted.trans ?_) hbound
      show _ ≤ (s.accepted ++ _).length
      rw [List.length_append]
      exact Nat.le_add_right _ _

theorem dispatched_prefix_step (hinv : Inv s held) (hs : s.step lib a = some s') :
    s.dispatched <+: s'.dispatched := by
  cases a with
  | run => exact Option.some.inj hs ▸ List.prefix_refl _
  | encache msg => exact Option.some.inj hs ▸ List.prefix_refl _
  | handle =>
      obtain ⟨held', -, hcase⟩ := hinv.handles hs
      cases hcase with
      | idle _ _ _ _ _ hdispatched => exact hdispatched ▸ List.prefix_refl _
      | poll _ _ _ _ hdispatched => exact hdispatched ▸ List.prefix_refl _
      | deliver _ _ _ _ hdispatched => exact hdispatched ▸ List.prefix_append _ _

theorem dispatched_prefix_run {acts : List ConsumerAction} (hinv : Inv s held)
    (hrun : Execution.run (step lib) s acts = some s') : s.dispatched <+: s'.dispatched := by
  refine (run_invariant (fun t => s.dispatched <+: t.dispatched ∧ ∃ held, Inv t held) ?_
    ⟨List.prefix_refl _, held, hinv⟩ hrun).1
  rintro t a t' ⟨hgrown, held, ht⟩ hs
  exact ⟨hgrown.trans (dispatched_prefix_step ht hs), ht.step hs⟩

theorem Due.run_dispatched {acts : List ConsumerAction} (h : Due target bound s)
    (hinv : Inv s held) (hrun : Execution.run (step lib) s acts = some s')
    (hhandles : bound + runs acts ≤ handles acts) : target ≤ s'.dispatched.length := by
  induction acts generalizing s bound held with
  | nil =>
      obtain rfl := Option.some.inj hrun
      exact (h.mono (Nat.le_of_add_right_le hhandles)).dispatched
  | cons a acts ih =>
      cases bound with
      | zero => exact h.dispatched.trans (dispatched_prefix_run hinv hrun).length_le
      | succ bound =>
          obtain ⟨t, ht, hrest⟩ := Option.bind_eq_some_iff.1 hrun
          obtain ⟨held', ht'⟩ := hinv.step ht
          rw [runs_cons, handles_cons] at hhandles
          cases a with
          | run =>
              obtain rfl := Option.some.inj ht
              refine ih h.run ht' hrest ?_
              simp [ConsumerAction.isRun, ConsumerAction.isHandle] at hhandles
              omega
          | encache msg =>
              obtain rfl := Option.some.inj ht
              refine ih (h.encache msg) ht' hrest ?_
              simpa [ConsumerAction.isRun, ConsumerAction.isHandle] using hhandles
          | handle =>
              refine ih (h.handle hinv ht) ht' hrest ?_
              simp [ConsumerAction.isRun, ConsumerAction.isHandle] at hhandles
              omega

/-- What has been accepted is due in two tasks for every message in the queue, and one for every
    task posted. -/
theorem Inv.due (h : Inv s held) :
    Due s.accepted.length (2 * held.length + s.ioContext.length) s := by
  have haccepted := congrArg List.length h.accepted
  rw [List.length_append] at haccepted
  by_cases hqueued : s.decached.length < s.accepted.length
  · exact .queued hqueued (Nat.le_refl _) (by omega)
  · refine .posted s.ioContext [] (List.append_nil _).symm (by omega) ?_
    have hflight := congrArg List.length h.decached
    rw [List.length_append, inFlight] at hflight
    omega

theorem capacity_step (hs : s.step lib a = some s') :
    s'.bufferQueue.cacheQueue.capacity = s.bufferQueue.cacheQueue.capacity := by
  cases a with
  | run => exact Option.some.inj hs ▸ rfl
  | encache msg => exact Option.some.inj hs ▸ Cache.capacity_encache msg
  | handle =>
      rcases bufferQueue_handle hs with ⟨hsame, -⟩ | ⟨hdecache, -⟩
      · rw [hsame]
      · rw [hdecache]
        exact LockFreeQueue.capacity_dequeue _

theorem accepted_lt_run {cap : Capacity} {u₀ : UInt64} {acts : List ConsumerAction}
    (hinv : Inv s held) (hrun : Execution.run (step lib) (init (.fresh cap u₀)) acts = some s) :
    s.accepted.length < s.decached.length + cap.1.toNat := by
  have hcapacity : s.bufferQueue.cacheQueue.capacity = cap.1 :=
    run_invariant (fun t => t.bufferQueue.cacheQueue.capacity = cap.1)
      (fun _ _ _ h hs => (capacity_step hs).trans h) rfl hrun
  have hroom := hinv.ring.room
  rw [hcapacity] at hroom
  rw [hinv.accepted, List.length_append]
  omega

theorem accepted_prefix_step (hs : s.step lib a = some s') : s.accepted <+: s'.accepted := by
  cases a with
  | run => exact Option.some.inj hs ▸ List.prefix_refl _
  | encache msg => exact Option.some.inj hs ▸ List.prefix_append _ _
  | handle => exact accepted_handle hs ▸ List.prefix_refl _

theorem Inv.dispatched_prefix (h : Inv s held) : s.dispatched <+: s.accepted := by
  rw [h.accepted, h.decached, List.append_assoc]
  exact List.prefix_append _ _

/-- Once as many tasks have run, everything accepted before has been dispatched. -/
theorem accepted_prefix_dispatched {later : List ConsumerAction} (h : Inv s held)
    (hlater : Execution.run (step lib) s later = some s')
    (hhandles : 2 * (s.accepted.length - s.decached.length) + s.ioContext.length + runs later
      ≤ handles later) : s.accepted <+: s'.dispatched := by
  obtain ⟨held', h'⟩ := run_invariant (fun t => ∃ held, Inv t held)
    (fun _ _ _ ⟨_, h⟩ hs => h.step hs) ⟨held, h⟩ hlater
  have haccepted := congrArg List.length h.accepted
  rw [List.length_append] at haccepted
  have hdue := h.due.run_dispatched h hlater (by omega)
  have hgrown : s.accepted <+: s'.accepted :=
    run_record_mono (fun _ _ _ => accepted_prefix_step) hlater
  exact List.prefix_of_prefix_length_le hgrown h'.dispatched_prefix hdue

/-- There are at most as many deliveries posted as poll loops. -/
theorem Loops.inFlight_length_le {done : List ConsumerAction} (h : Loops done s) :
    s.inFlight.length ≤ runs done := by
  have hflight := h.alternates.length_le
  have hpolls := h.polls
  unfold inFlight at hpolls ⊢
  omega

/-- **Bounded waiting.** In every reachable state there is one posted poll for every call of `run`
    and at most as many deliveries. From there on, however further calls of `encache` and `run` come
    between the tasks: everything accepted so far has been dispatched when as many tasks have run as
    there are tasks posted and, twice, messages queued, and one more for every further `run`. -/
theorem dispatches_within (lib : JsonLib) (cap : Capacity) (u₀ : UInt64)
    (acts later : List ConsumerAction) (s s' : Consumer)
    (hrun : Execution.run (step lib) (init (.fresh cap u₀)) acts = some s)
    (hlater : Execution.run (step lib) s later = some s') :
    s.ioContext.length = runs acts + s.inFlight.length ∧ s.inFlight.length ≤ runs acts ∧
      s.accepted.length < s.decached.length + cap.1.toNat ∧
      (2 * (s.accepted.length - s.decached.length) + s.ioContext.length + runs later
        ≤ handles later → s.accepted <+: s'.dispatched) := by
  have hempty : (Cache.fresh cap u₀).cacheQueue.Represents 0 [] := represents_ofCapacity cap
  obtain ⟨held, h⟩ := inv_run hempty hrun
  have hloops := loops_run hempty hrun
  exact ⟨hloops.polls, hloops.inFlight_length_le, accepted_lt_run h hrun,
    accepted_prefix_dispatched h hlater⟩

/-- One poll loop and two updates. -/
def twoUpdates : List ConsumerAction :=
  [.run, .encache (.update "btcusdt" 1), .encache (.update "btcusdt" 2)]

/-- Five tasks, and one more update between them. -/
def fiveTasks : List ConsumerAction :=
  [.handle, .encache (.update "btcusdt" 3), .handle, .handle, .handle, .handle]

theorem dispatches_within_one_loop : ∃ s s',
    Execution.run (step .sample) (init (.fresh .default 0)) twoUpdates = some s ∧
      Execution.run (step .sample) s fiveTasks = some s' ∧ s.ioContext.length = 1 ∧
      s.accepted = [.update "btcusdt" 1, .update "btcusdt" 2] ∧
      s.accepted <+: s'.dispatched := by
  refine ⟨_, _, rfl, rfl, rfl, rfl, ?_⟩
  exact (dispatches_within .sample .default 0 twoUpdates fiveTasks _ _ rfl rfl).2.2.2 (by decide)

end Consumer

end MarketFeed
