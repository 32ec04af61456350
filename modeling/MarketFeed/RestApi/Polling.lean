import MarketFeed.ConnectionManager

set_option autoImplicit false

/-! # The polling timer of a `RestApiHandler`

`run` arms the timer and hangs on it a handler that calls `run` again. `expires_after` cancels the
waits that are armed, but neither the handlers of cancelled waits nor those of elapsed ones leave
the `io_context` at once, so after several external calls of `run` the handlers of several chains
are under way together.

`Waits.Steps` says what a step does to the waits, whatever it does to the polls. `waits_add_aborts`
counts them, and `polling_survives` is what keeps the polling alive. -/

namespace MarketFeed

open Execution

/-! ## What one step does to the waits -/

/-- The waits of a handler: armed on its timer, elapsed and cancelled. -/
structure Waits where
  armed : ℕ
  expired : ℕ
  cancelled : ℕ
deriving DecidableEq, Repr

namespace Waits

/-- Every step: `run` cancels what is armed and arms one wait, be it called from outside or by the
    handler of an elapsed wait, and network completions touch nothing. -/
inductive Steps (w : Waits) : RestAction → Waits → Prop
  | run : Steps w .run { w with armed := 1, cancelled := w.cancelled + w.armed }
  | fire (h : 0 < w.armed) :
      Steps w .fire { w with armed := w.armed - 1, expired := w.expired + 1 }
  | expire (h : 0 < w.expired) :
      Steps w .expire
        { armed := 1, expired := w.expired - 1, cancelled := w.cancelled + w.armed }
  | abort (h : 0 < w.cancelled) : Steps w .abort { w with cancelled := w.cancelled - 1 }
  | complete (op : Operation) (error : ErrorCode) : Steps w (.complete op error) w

/-- The timer has at most one armed wait. -/
def AtMostOneArmed (w : Waits) : Prop := w.armed ≤ 1

/-- A poll is to come: a wait is armed, or has elapsed and its handler has not run. -/
def Alive (w : Waits) : Prop := 0 < w.armed ∨ 0 < w.expired

theorem AtMostOneArmed.step {w w' : Waits} {a : RestAction} (h : w.AtMostOneArmed)
    (hs : w.Steps a w') : w'.AtMostOneArmed := by
  cases hs with
  | run => exact Nat.le_refl 1
  | fire hpos => exact Nat.le_trans (Nat.sub_le _ _) h
  | expire hpos => exact Nat.le_refl 1
  | abort hpos => exact h
  | complete op error => exact h

/-- An elapsed wait is one whose handler has not run, and that handler arms another. -/
theorem Alive.step {w w' : Waits} {a : RestAction} (h : w.Alive) (hs : w.Steps a w') :
    w'.Alive := by
  cases hs with
  | run => exact Or.inl Nat.one_pos
  | fire hpos => exact Or.inr (Nat.succ_pos _)
  | expire hpos => exact Or.inl Nat.one_pos
  | abort hpos => exact h
  | complete op error => exact h

end Waits

namespace RestApiHandler

def waits (s : RestApiHandler) : Waits where
  armed := s.armed
  expired := s.expired
  cancelled := s.cancelled

/-- The handlers of the network operations do not know the timer. -/
theorem waits_complete (s : RestApiHandler) (op : Operation) (error : ErrorCode) :
    (s.complete op error).waits = s.waits := by
  cases hnext : op.stage.next with
  | some next =>
      rw [complete_of_next hnext]
      unfold onCompletion
      split <;> rfl
  | none =>
      have hread : op.stage = .read := by
        cases hstage : op.stage <;> simp [hstage, Stage.next] at hnext ⊢
      unfold complete onRead
      simp only [hread]
      split <;> rfl

/-- **Inversion.** What a step of the handler does to its waits. -/
theorem waits_step {s s' : RestApiHandler} {a : RestAction} (h : s.step a = some s') :
    s.waits.Steps a s'.waits := by
  cases a with
  | run => exact Option.some.inj h ▸ .run
  | fire =>
      obtain ⟨hpos, hs⟩ := Option.ite_none_right_eq_some.1 h
      exact Option.some.inj hs ▸ .fire hpos
  | expire =>
      obtain ⟨hpos, hs⟩ := Option.ite_none_right_eq_some.1 h
      exact Option.some.inj hs ▸ .expire hpos
  | abort =>
      obtain ⟨hpos, hs⟩ := Option.ite_none_right_eq_some.1 h
      exact Option.some.inj hs ▸ .abort hpos
  | complete op error =>
      obtain ⟨hop, hs⟩ := Option.ite_none_right_eq_some.1 h
      rw [← Option.some.inj hs, waits_complete]
      exact .complete op error

end RestApiHandler

/-! ## Runs of a handler that somebody configures -/

/-- A REST handler and the interval that `run` last loaded. -/
structure PollingHandler extends RestApiConnection where
  /-- The argument of `timer_.expires_after`, once it has been called. -/
  expiry : Option Int64

/-- What can happen to a handler: what happens to its polls, and a change of its interval. -/
inductive PollingAction where
  | handler (a : RestAction)
  | setPollingInterval (newInterval : Int64)

namespace PollingAction

/-- Somebody calls `run()`. -/
def IsRun : PollingAction → Bool
  | handler .run => true
  | _ => false

/-- The handler of a cancelled wait runs. -/
def IsAbort : PollingAction → Bool
  | handler .abort => true
  | _ => false

end PollingAction

/-- The waits whose handlers have not run. -/
def Waits.total (w : Waits) : ℕ := w.armed + w.expired + w.cancelled

/-- A call of `run` from outside adds a wait, and the handler of a cancelled wait removes one. The
    handler of an elapsed wait replaces its own. -/
theorem Waits.Steps.total_add {w w' : Waits} {r : RestAction} (hs : w.Steps r w') :
    w'.total + (if PollingAction.IsAbort (.handler r) then 1 else 0) =
      w.total + (if PollingAction.IsRun (.handler r) then 1 else 0) := by
  unfold Waits.total
  cases hs with
  | run =>
      simp only [PollingAction.IsAbort, PollingAction.IsRun, if_true, Bool.false_eq_true, if_false]
      omega
  | fire hpos =>
      simp only [PollingAction.IsAbort, PollingAction.IsRun, Bool.false_eq_true, if_false]
      omega
  | expire hpos =>
      simp only [PollingAction.IsAbort, PollingAction.IsRun, Bool.false_eq_true, if_false]
      omega
  | abort hpos =>
      simp only [PollingAction.IsAbort, PollingAction.IsRun, if_true, Bool.false_eq_true, if_false]
      omega
  | complete op error => rfl

namespace PollingHandler

/-- A handler as `createConnection` makes it. -/
def init (host port endpoint : String) (interval : Int64) : PollingHandler where
  toRestApiConnection :=
    (RestApiConnection.new.setEndpoint host port endpoint).setPollingInterval interval
  expiry := none

/-- `timer_.expires_after(polling_interval_.load())`: called by `run`, and by the handler of an
    elapsed wait, which calls `run`. -/
def loadInterval (s : PollingHandler) : RestAction → Option Int64
  | .run => some s.pollingInterval
  | .expire => some s.pollingInterval
  | .fire => s.expiry
  | .abort => s.expiry
  | .complete _ _ => s.expiry

def step (s : PollingHandler) : PollingAction → Option PollingHandler
  | .handler a => (s.toRestApiHandler.step a).map fun handler =>
      { s with toRestApiHandler := handler, expiry := s.loadInterval a }
  | .setPollingInterval newInterval =>
      some { s with
        toRestApiConnection := s.toRestApiConnection.setPollingInterval newInterval }

variable {s s' : PollingHandler} {acts : List PollingAction}
variable {host port endpoint : String} {interval : Int64}

/-- **Inversion.** A step is one of the waits, or changes the interval and no wait. -/
theorem waits_step {a : PollingAction} (h : s.step a = some s') :
    (∃ r, a = .handler r ∧ s.waits.Steps r s'.waits) ∨
      (∃ newInterval, a = .setPollingInterval newInterval) ∧ s'.waits = s.waits := by
  cases a with
  | handler r =>
      obtain ⟨handler, hstep, rfl⟩ := Option.map_eq_some_iff.1 h
      exact Or.inl ⟨r, rfl, RestApiHandler.waits_step hstep⟩
  | setPollingInterval newInterval =>
      obtain rfl := Option.some.inj h
      exact Or.inr ⟨⟨newInterval, rfl⟩, rfl⟩

theorem run_waits_invariant (P : Waits → Prop)
    (hstep : ∀ w w' r, P w → w.Steps r w' → P w') (hs : P s.waits)
    (hrun : Execution.run step s acts = some s') : P s'.waits := by
  refine run_invariant (fun t => P t.waits) (fun t a t' hP ht => ?_) hs hrun
  rcases waits_step ht with ⟨r, -, hr⟩ | ⟨-, hsame⟩
  · exact hstep _ _ _ hP hr
  · rw [hsame]
    exact hP

/-- **The waits are as many as the calls.** Every wait was armed by an external call of `run`, or by
    the handler of an elapsed wait in its place: the waits whose handlers have not run and those
    whose cancellation has been handled are together as many as the external calls. -/
theorem waits_add_aborts
    (hrun : Execution.run step (init host port endpoint interval) acts = some s) :
    s.waits.total + acts.countP PollingAction.IsAbort = acts.countP PollingAction.IsRun := by
  refine run_invariant_history (fun acts t => t.waits.total + acts.countP PollingAction.IsAbort =
    acts.countP PollingAction.IsRun) ?_ rfl hrun
  intro acts t a u hbefore hu
  rw [List.countP_append, List.countP_append, List.countP_singleton, List.countP_singleton]
  rcases waits_step hu with ⟨r, rfl, hr⟩ | ⟨⟨newInterval, rfl⟩, hsame⟩
  · have htotal := hr.total_add
    omega
  · rw [hsame]
    simp only [PollingAction.IsAbort, PollingAction.IsRun, Bool.false_eq_true, if_false]
    omega

/-- Nothing but `setPollingInterval` changes the interval, and every wait is armed for one that the
    handler was made with or that somebody has set. -/
theorem interval_mem
    (hrun : Execution.run step (init host port endpoint interval) acts = some s) :
    ∀ i, s.pollingInterval = i ∨ s.expiry = some i →
      i = interval ∨ .setPollingInterval i ∈ acts := by
  refine run_invariant_history (fun acts t => ∀ i, t.pollingInterval = i ∨ t.expiry = some i →
    i = interval ∨ .setPollingInterval i ∈ acts) ?_ ?_ hrun
  · intro acts t a u hbefore hu i hi
    have hold : t.pollingInterval = i ∨ t.expiry = some i →
        i = interval ∨ .setPollingInterval i ∈ acts ++ [a] := fun h =>
      (hbefore i h).imp_right (List.mem_append_left _)
    cases a with
    | handler r =>
        obtain ⟨handler, -, rfl⟩ := Option.map_eq_some_iff.1 hu
        refine hold (hi.elim Or.inl fun hexpiry => ?_)
        cases r with
        | run => exact Or.inl (Option.some.inj hexpiry)
        | expire => exact Or.inl (Option.some.inj hexpiry)
        | fire => exact Or.inr hexpiry
        | abort => exact Or.inr hexpiry
        | complete op error => exact Or.inr hexpiry
    | setPollingInterval newInterval =>
        obtain rfl := Option.some.inj hu
        rcases hi with rfl | hexpiry
        · exact Or.inr (List.mem_append_right _ (List.mem_singleton.2 rfl))
        · exact hold (Or.inr hexpiry)
  · rintro i (rfl | hexpiry)
    · exact Or.inl rfl
    · exact absurd hexpiry (by simp [init])

theorem exists_poll_of_expired (h : 0 < s.expired) :
    ∃ s', s.step (.handler .expire) = some s' ∧ s'.socket = s.socket + 1 ∧
      { poll := s.socket + 1, stage := .resolve, socket := none } ∈ s'.pending := by
  have hstep : s.toRestApiHandler.step .expire =
      some ({ s.toRestApiHandler with expired := s.expired - 1 }.onTimer .success) := if_pos h
  refine ⟨_, by rw [step, hstep, Option.map_some], rfl, ?_⟩
  exact List.mem_append_right _ (List.mem_singleton.2 rfl)

/-- From a state in which a poll is to come, the timer alone brings the next one, whatever the
    network does meanwhile. -/
theorem exists_next_poll (h : s.waits.Alive) :
    ∃ acts s', Execution.run step s acts = some s' ∧ s'.socket = s.socket + 1 ∧
      { poll := s.socket + 1, stage := .resolve, socket := none } ∈ s'.pending := by
  rcases h with harmed | hexpired
  · have hfire : s.step (.handler .fire) = some { s with
        armed := s.armed - 1, expired := s.expired + 1 } := by
      have hstep : s.toRestApiHandler.step .fire = some { s.toRestApiHandler with
        armed := s.armed - 1, expired := s.expired + 1 } := if_pos harmed
      rw [step, hstep]
      rfl
    obtain ⟨s', hs', hpoll⟩ := exists_poll_of_expired
      (s := { s with armed := s.armed - 1, expired := s.expired + 1 }) (Nat.succ_pos _)
    exact ⟨[.handler .fire, .handler .expire], s', by simp [hfire, hs'], hpoll⟩
  · obtain ⟨s', hs', hpoll⟩ := exists_poll_of_expired hexpired
    exact ⟨[.handler .expire], s', by simp [hs'], hpoll⟩

/-- **Polling survives, and never doubles.** In every run of a handler, whatever the network does
    and whoever changes the interval, at most one wait is armed at any time, and from the first
    `run()` on a wait is armed, or has elapsed and its handler has not run. -/
theorem polling_survives (host port endpoint : String) (interval : Int64)
    (acts : List PollingAction) (s : PollingHandler)
    (hrun : Execution.run step (init host port endpoint interval) acts = some s) :
    s.armed ≤ 1 ∧ (.handler .run ∈ acts → 0 < s.armed ∨ 0 < s.expired) := by
  refine ⟨?_, fun hfirst => ?_⟩
  · have hnone : (init host port endpoint interval).waits.AtMostOneArmed := Nat.zero_le 1
    exact run_waits_invariant Waits.AtMostOneArmed (fun _ _ _ h hs => h.step hs) hnone hrun
  · obtain ⟨before, after, rfl⟩ := List.append_of_mem hfirst
    rw [run_append] at hrun
    obtain ⟨t, -, hafter⟩ := Option.bind_eq_some_iff.1 hrun
    -- the first `run` arms a wait, whatever the state
    obtain ⟨u, hu, hrest⟩ := Option.bind_eq_some_iff.1 hafter
    have halive : u.waits.Alive := Option.some.inj hu ▸ Or.inl Nat.one_pos
    exact run_waits_invariant Waits.Alive (fun _ _ _ h hs => h.step hs) halive hrest

/-- Somebody calls `run` again while the handler of the first wait is on its way. -/
theorem polling_survives_second_run :
    ∃ s, Execution.run step (init "fapi.binance.com" "443" "/fapi/v1/depth" 1)
        [.handler .run, .handler .fire, .handler .run, .setPollingInterval 2, .handler .expire] =
          some s ∧
      s.waits = ⟨1, 0, 1⟩ ∧ s.armed ≤ 1 ∧ (0 < s.armed ∨ 0 < s.expired) := by
  have h := polling_survives "fapi.binance.com" "443" "/fapi/v1/depth" 1
    [.handler .run, .handler .fire, .handler .run, .setPollingInterval 2, .handler .expire] _ rfl
  exact ⟨_, rfl, rfl, h.1, h.2 List.mem_cons_self⟩

end PollingHandler

end MarketFeed
