import MarketFeed.Basic
import MarketFeed.Library.Execution
import Mathlib.Data.List.Nodup

set_option autoImplicit false

/-! # `RestApiHandler` (`include/restapi.h`, `src/restapi.cpp`)

Every expiry of the timer starts a poll: it puts a fresh socket into the member `socket_`, starts a
resolve and arms the timer again. The completion handlers carry a poll through its stages, and each
of them is called with the socket that `socket_` points to *when the completion is handled*, not
with the one the operation ran on.

Sockets are numbered in the order of their creation, 0 being the one the constructor makes, so the
poll that creates socket `k` is poll `k`. `trace` records the operations started and succeeded. A
timer handler, like a completion, may wait in the `io_context` before it runs. -/

namespace MarketFeed

open Execution

/-- The asynchronous operations of a poll. -/
inductive Stage where
  | resolve
  | connect
  | handshake
  | write
  | read
deriving DecidableEq, Repr

namespace Stage

/-- The operation started by the completion handler of a successful one. -/
def next : Stage → Option Stage
  | resolve => some connect
  | connect => some handshake
  | handshake => some write
  | write => some read
  | read => none

/-- The stage that must have succeeded on a socket before this one makes sense on it. -/
def preceding : Stage → Option Stage
  | resolve => none
  | connect => none
  | handshake => some connect
  | write => some handshake
  | read => some write

theorem preceding_next {stage stage' : Stage} (h : stage.next = some stage') :
    stage'.preceding = if stage = .resolve then none else some stage := by
  cases stage with
  | resolve => exact Option.some.inj h ▸ rfl
  | connect => exact Option.some.inj h ▸ rfl
  | handshake => exact Option.some.inj h ▸ rfl
  | write => exact Option.some.inj h ▸ rfl
  | read => exact absurd h (by simp [next])

theorem ne_resolve_of_next {stage stage' : Stage} (h : stage.next = some stage') :
    stage' ≠ .resolve := by
  rintro rfl
  cases stage <;> simp [next] at h

theorem ne_read_of_next {stage stage' : Stage} (h : stage.next = some stage') : stage ≠ .read := by
  rintro rfl
  exact absurd h (by simp [next])

end Stage

/-- An operation, the poll whose handlers started it, and the socket it runs on; a resolve runs on
    none. -/
structure Operation where
  poll : ℕ
  stage : Stage
  socket : Option ℕ
deriving DecidableEq, Repr

/-- What the trace records. -/
inductive NetEvent where
  | started (op : Operation)
  | succeeded (op : Operation)
deriving DecidableEq, Repr

/-- The members of `RestApiHandler` that polling changes, and what the `io_context` holds for it. -/
structure RestApiHandler where
  /-- The socket `socket_` points to. -/
  socket : ℕ
  /-- Waits armed on `timer_`. -/
  armed : ℕ
  /-- Handlers of elapsed waits that have not run yet. -/
  expired : ℕ
  /-- Handlers of cancelled waits that have not run yet. -/
  cancelled : ℕ
  pending : List Operation
  /-- The reads whose response `on_read` has posted to `on_data`. -/
  posted : List Operation
  trace : List NetEvent

/-- What can happen next. -/
inductive RestAction where
  /-- Somebody calls `RestApiHandler::run()`. -/
  | run
  /-- An armed wait elapses. -/
  | fire
  /-- The handler of an elapsed wait runs. -/
  | expire
  /-- The handler of a cancelled wait runs. -/
  | abort
  /-- The completion handler of a pending operation runs. -/
  | complete (op : Operation) (error : ErrorCode)

namespace RestApiHandler

/-- The constructor makes one socket and starts nothing. -/
def init : RestApiHandler where
  socket := 0
  armed := 0
  expired := 0
  cancelled := 0
  pending := []
  posted := []
  trace := []

/-- Start an asynchronous operation. -/
def start (s : RestApiHandler) (op : Operation) : RestApiHandler :=
  { s with pending := s.pending ++ [op], trace := s.trace ++ [.started op] }

/-- `void RestApiHandler::run()`: `expires_after` cancels the waits already armed. -/
def run (s : RestApiHandler) : RestApiHandler :=
  { s with armed := 1, cancelled := s.cancelled + s.armed }

/-- The handler that `run` hangs on the timer. -/
def onTimer (s : RestApiHandler) (ec : ErrorCode) : RestApiHandler :=
  if ec = .success then
    -- an earlier poll may still be under way; from here on its handlers get this socket too
    let poll := s.socket + 1
    ({ s with socket := poll }.start { poll, stage := .resolve, socket := none }).run
  else s

/-- What the handlers of the first four stages have in common: if there was no error, start the next
    operation on the socket they are given. -/
def onCompletion (next : Stage) (s : RestApiHandler) (poll : ℕ) (error : ErrorCode) (socket : ℕ) :
    RestApiHandler :=
  if error = .success then s.start { poll, stage := next, socket := some socket } else s

/-- `on_resolve` starts `async_connect`. -/
def onResolve := onCompletion .connect

/-- `on_connect` starts `async_handshake`. -/
def onConnect := onCompletion .handshake

/-- `on_handshake` starts `async_write`. -/
def onHandshake := onCompletion .write

/-- `on_write` starts `async_read_until`. -/
def onWrite := onCompletion .read

/-- `on_read` posts the response and starts nothing. -/
def onRead (s : RestApiHandler) (op : Operation) (error : ErrorCode) : RestApiHandler :=
  if error = .success ∨ error = .eof then { s with posted := s.posted ++ [op] } else s

/-- The operation is over. -/
def settle (s : RestApiHandler) (op : Operation) (error : ErrorCode) : RestApiHandler :=
  { s with
    pending := s.pending.erase op
    trace := s.trace ++ if error = .success then [.succeeded op] else [] }

/-- The lambda given to the operation passes on the error and `this->socket_`. -/
def complete (s : RestApiHandler) (op : Operation) (error : ErrorCode) : RestApiHandler :=
  let s := s.settle op error
  -- `s.socket` is read now, not when the operation was started
  match op.stage with
  | .resolve => s.onResolve op.poll error s.socket
  | .connect => s.onConnect op.poll error s.socket
  | .handshake => s.onHandshake op.poll error s.socket
  | .write => s.onWrite op.poll error s.socket
  | .read => s.onRead op error

def step (s : RestApiHandler) : RestAction → Option RestApiHandler
  | .run => some s.run
  | .fire => if 0 < s.armed then
      some { s with armed := s.armed - 1, expired := s.expired + 1 } else none
  | .expire => if 0 < s.expired then
      some ({ s with expired := s.expired - 1 }.onTimer .success) else none
  | .abort => if 0 < s.cancelled then
      some ({ s with cancelled := s.cancelled - 1 }.onTimer .operationAborted) else none
  | .complete op error => if op ∈ s.pending then some (s.complete op error) else none

/-! ## What one step can do -/

/-- Every step: it moves only the timer, starts a poll, advances one, or ends one. -/
inductive Steps (s : RestApiHandler) : RestAction → RestApiHandler → Prop
  | timer {a : RestAction} (armed expired cancelled : ℕ)
      (ha : ∀ op error, a ≠ .complete op error) :
      Steps s a { s with armed, expired, cancelled }
  | poll (armed expired cancelled : ℕ) :
      Steps s .expire ({ s with armed, expired, cancelled, socket := s.socket + 1 }.start
        { poll := s.socket + 1, stage := .resolve, socket := none })
  | advance {op : Operation} {next : Stage} (hop : op ∈ s.pending)
      (hnext : op.stage.next = some next) :
      Steps s (.complete op .success) ((s.settle op .success).start
        { poll := op.poll, stage := next, socket := some s.socket })
  | stop {op : Operation} {error : ErrorCode} (posted : List Operation) (hop : op ∈ s.pending)
      (hstop : error ≠ .success ∨ op.stage = .read) :
      Steps s (.complete op error) { s.settle op error with posted }

theorem complete_of_next {s : RestApiHandler} {op : Operation} {next : Stage}
    (h : op.stage.next = some next) (error : ErrorCode) :
    s.complete op error = (s.settle op error).onCompletion next op.poll error s.socket := by
  unfold complete
  cases hstage : op.stage with
  | resolve => rw [hstage] at h; exact Option.some.inj h ▸ rfl
  | connect => rw [hstage] at h; exact Option.some.inj h ▸ rfl
  | handshake => rw [hstage] at h; exact Option.some.inj h ▸ rfl
  | write => rw [hstage] at h; exact Option.some.inj h ▸ rfl
  | read => rw [hstage] at h; exact absurd h (by simp [Stage.next])

theorem steps_of_step {s s' : RestApiHandler} {a : RestAction} (h : s.step a = some s') :
    Steps s a s' := by
  cases a with
  | run => exact Option.some.inj h ▸ .timer _ _ _ (by simp)
  | fire =>
      simp only [step] at h
      split at h
      · exact Option.some.inj h ▸ .timer _ _ _ (by simp)
      · exact absurd h (by simp)
  | expire =>
      simp only [step] at h
      split at h
      · exact Option.some.inj h ▸ .poll _ _ _
      · exact absurd h (by simp)
  | abort =>
      simp only [step] at h
      split at h
      · exact Option.some.inj h ▸ .timer _ _ _ (by simp)
      · exact absurd h (by simp)
  | complete op error =>
      simp only [step] at h
      split at h
      · next hop =>
          obtain rfl := Option.some.inj h
          cases hnext : op.stage.next with
          | some next =>
              rw [complete_of_next hnext]
              unfold onCompletion
              split
              · next hok =>
                  subst hok
                  exact .advance hop hnext
              · next herr => exact .stop _ hop (Or.inl herr)
          | none =>
              have hread : op.stage = .read := by
                cases hstage : op.stage <;> simp [hstage, Stage.next] at hnext ⊢
              unfold complete onRead
              simp only [hread]
              split
              · exact .stop _ hop (Or.inr hread)
              · exact .stop _ hop (Or.inr hread)
      · exact absurd h (by simp)

/-! ## Polls that do not mix -/

/-- Every operation a poll has started runs on the poll's own socket. -/
def OwnSockets (s : RestApiHandler) : Prop :=
  ∀ op, .started op ∈ s.trace → ∀ socket, op.socket = some socket → socket = op.poll

/-- Every handshake, write and read was started on a socket on which the preceding stage had
    succeeded. -/
def Staged (s : RestApiHandler) : Prop :=
  AtEach (fun before e => ∀ op stage, e = .started op → op.stage.preceding = some stage →
    ∃ poll, .succeeded { poll, stage, socket := op.socket } ∈ before) s.trace

/-- No socket has two operations pending. -/
def OnePending (s : RestApiHandler) : Prop :=
  ∀ socket, (s.pending.filter fun op => op.socket = some socket).length ≤ 1

/-- The completion handled, if it starts anything, belongs to the latest poll. -/
def Latest (s : RestApiHandler) : RestAction → Prop
  | .complete op error => error = .success → op.stage ≠ .read → op.poll = s.socket
  | _ => True

instance (s : RestApiHandler) : ∀ a, Decidable (s.Latest a)
  | .complete op error =>
      inferInstanceAs (Decidable (error = .success → op.stage ≠ .read → op.poll = s.socket))
  | .run => isTrue trivial
  | .fire => isTrue trivial
  | .expire => isTrue trivial
  | .abort => isTrue trivial

/-- What holds as long as only the latest poll advances. -/
structure Inv (s : RestApiHandler) : Prop where
  own : ∀ op ∈ s.pending, op.socket = if op.stage = .resolve then none else some op.poll
  known : ∀ op ∈ s.pending, op.poll ≤ s.socket
  distinct : (s.pending.map (·.poll)).Nodup
  ownSockets : s.OwnSockets
  staged : s.Staged

theorem inv_init : Inv init where
  own _ h := absurd h List.not_mem_nil
  known _ h := absurd h List.not_mem_nil
  distinct := List.nodup_nil
  ownSockets _ h := absurd h List.not_mem_nil
  staged := atEach_nil _

/-- One poll has at most one operation pending, so its socket has at most one too. -/
theorem Inv.onePending {s : RestApiHandler} (h : Inv s) : s.OnePending := by
  intro socket
  have hpoll : ∀ op ∈ s.pending.filter (fun op => op.socket = some socket), op.poll = socket := by
    intro op hop
    obtain ⟨hmem, hsocket⟩ := List.mem_filter.1 hop
    have hsocket : op.socket = some socket := of_decide_eq_true hsocket
    rw [h.own op hmem] at hsocket
    split at hsocket
    · exact absurd hsocket (by simp)
    · exact Option.some.inj hsocket
  have hnodup := (List.filter_sublist (p := fun op : Operation => op.socket = some socket)
    (l := s.pending)).map (·.poll) |>.nodup h.distinct
  have hrep := List.eq_replicate_iff.2 ⟨List.length_map _, fun k hk => by
    obtain ⟨op, hop, rfl⟩ := List.mem_map.1 hk
    exact hpoll op hop⟩
  rw [hrep] at hnodup
  exact List.nodup_replicate.1 hnodup

theorem Inv.start {s : RestApiHandler} (h : Inv s) {op : Operation}
    (hown : op.socket = if op.stage = .resolve then none else some op.poll)
    (hknown : op.poll ≤ s.socket) (hidle : op.poll ∉ s.pending.map (·.poll))
    (hstaged : ∀ stage, op.stage.preceding = some stage →
      ∃ poll, .succeeded { poll, stage, socket := op.socket } ∈ s.trace) : Inv (s.start op) where
  own op' hop' := by
    rcases List.mem_append.1 hop' with hold | hnew
    · exact h.own op' hold
    · rw [List.mem_singleton.1 hnew]
      exact hown
  known op' hop' := by
    rcases List.mem_append.1 hop' with hold | hnew
    · exact h.known op' hold
    · rw [List.mem_singleton.1 hnew]
      exact hknown
  distinct := by
    show ((s.pending ++ [op]).map (·.poll)).Nodup
    rw [List.map_append]
    refine List.nodup_append.2 ⟨h.distinct, List.nodup_singleton _, ?_⟩
    rintro poll hpoll _ hnew rfl
    rw [List.map_singleton, List.mem_singleton] at hnew
    exact hidle (hnew ▸ hpoll)
  ownSockets op' hop' socket hsocket := by
    rcases List.mem_append.1 hop' with hold | hnew
    · exact h.ownSockets op' hold socket hsocket
    · obtain rfl : op' = op := by simpa using hnew
      rw [hown] at hsocket
      split at hsocket
      · exact absurd hsocket (by simp)
      · exact (Option.some.inj hsocket).symm
  staged := by
    refine atEach_concat.2 ⟨h.staged, ?_⟩
    rintro op' stage he hprec
    obtain rfl : op = op' := by simpa using he
    exact hstaged stage hprec

theorem Inv.settle {s : RestApiHandler} (h : Inv s) (op : Operation) (error : ErrorCode) :
    Inv (s.settle op error) where
  own op' hop' := h.own op' (List.mem_of_mem_erase hop')
  known op' hop' := h.known op' (List.mem_of_mem_erase hop')
  distinct := (List.erase_sublist.map _).nodup h.distinct
  ownSockets op' hop' := by
    refine h.ownSockets op' ?_
    rcases List.mem_append.1 hop' with hold | hnew
    · exact hold
    · split at hnew
      · exact absurd hnew (by simp)
      · exact absurd hnew List.not_mem_nil
  staged := by
    show AtEach _ (s.trace ++ _)
    split
    · refine atEach_concat.2 ⟨h.staged, ?_⟩
      intro op' stage he
      exact absurd he (by simp)
    · rw [List.append_nil]
      exact h.staged

theorem Inv.idle_settle {s : RestApiHandler} (h : Inv s) {op : Operation} (hop : op ∈ s.pending)
    (error : ErrorCode) : op.poll ∉ (s.settle op error).pending.map (·.poll) := by
  have hperm := (List.perm_cons_erase hop).map (·.poll)
  have hnodup := hperm.nodup_iff.1 h.distinct
  exact (List.nodup_cons.1 hnodup).1

/-- **Step lemma.** As long as only the latest poll advances, operations stay with their poll. -/
theorem Inv.step {s s' : RestApiHandler} {a : RestAction} (h : Inv s) (hG : s.Latest a)
    (hs : s.step a = some s') : Inv s' := by
  cases steps_of_step hs with
  | timer armed expired cancelled ha =>
      exact ⟨h.own, h.known, h.distinct, h.ownSockets, h.staged⟩
  | poll armed expired cancelled =>
      have hfresh : Inv { s with armed, expired, cancelled, socket := s.socket + 1 } :=
        ⟨h.own, fun op hop => Nat.le_succ_of_le (h.known op hop), h.distinct, h.ownSockets,
          h.staged⟩
      refine hfresh.start rfl (Nat.le_refl _) ?_
        (fun stage hprec => absurd hprec (by simp [Stage.preceding]))
      intro hmem
      obtain ⟨op, hop, hpoll⟩ := List.mem_map.1 hmem
      have hle := h.known op hop
      have hpoll : op.poll = s.socket + 1 := hpoll
      omega
  | @advance op next hop hnext =>
      have hlatest : op.poll = s.socket := hG rfl (Stage.ne_read_of_next hnext)
      refine (h.settle op .success).start ?_ (Nat.le_of_eq hlatest) (h.idle_settle hop .success) ?_
      · rw [if_neg (Stage.ne_resolve_of_next hnext), hlatest]
      · intro stage hprec
        rw [Stage.preceding_next hnext] at hprec
        split at hprec
        · exact absurd hprec (by simp)
        · next hresolve =>
            -- the operation just settled is the preceding stage on this socket
            obtain rfl := Option.some.inj hprec
            have hown := h.own op hop
            rw [if_neg hresolve, hlatest] at hown
            refine ⟨op.poll, List.mem_append_right _ (List.mem_singleton.2 ?_)⟩
            rw [← hown]
  | @stop op error posted hop hstop =>
      have h' := h.settle op error
      exact ⟨h'.own, h'.known, h'.distinct, h'.ownSockets, h'.staged⟩

theorem trace_prefix_step {s s' : RestApiHandler} {a : RestAction} (hs : s.step a = some s') :
    s.trace <+: s'.trace := by
  cases steps_of_step hs with
  | timer armed expired cancelled ha => exact List.prefix_refl _
  | poll armed expired cancelled => exact List.prefix_append _ _
  | advance hop hnext => exact (List.prefix_append _ _).trans (List.prefix_append _ _)
  | stop posted hop hstop => exact List.prefix_append _ _

/-- A run all of whose operations run on their own socket has advanced only latest polls. -/
theorem along_latest_of_ownSockets {s s' : RestApiHandler} {acts : List RestAction}
    (hrun : Execution.run step s acts = some s') (hown : s'.OwnSockets) :
    Along step Latest s acts := by
  induction acts generalizing s with
  | nil => trivial
  | cons a acts ih =>
      obtain ⟨t, ht, hrest⟩ := Option.bind_eq_some_iff.1 hrun
      refine ⟨?_, fun t' ht' => ih (Option.some.inj (ht.symm.trans ht') ▸ hrest)⟩
      have hsub : t.trace <+: s'.trace :=
        run_record_mono (fun _ _ _ => trace_prefix_step) hrest
      cases steps_of_step ht with
      | timer armed expired cancelled ha =>
          cases a with
          | complete op error => exact absurd rfl (ha op error)
          | run => trivial
          | fire => trivial
          | expire => trivial
          | abort => trivial
      | poll armed expired cancelled => trivial
      | @advance op next hop hnext =>
          intro _ _
          have hmem : NetEvent.started { poll := op.poll, stage := next, socket := some s.socket } ∈
              ((s.settle op .success).start
                { poll := op.poll, stage := next, socket := some s.socket }).trace :=
            List.mem_append_right _ (List.mem_singleton.2 rfl)
          exact (hown _ (hsub.subset hmem) s.socket rfl).symm
      | stop posted hop hstop =>
          intro hok hread
          rcases hstop with herr | hread'
          · exact absurd hok herr
          · exact absurd hread' hread

/-- **When polls do not mix.** In every interleaving of the timer with the completions of all polls:
    every operation runs on the socket of the poll that started it, handshakes, writes and reads
    follow the preceding stage on the same socket, and no socket has two operations pending, exactly
    if every successful resolve, connect, handshake and write is handled before the next poll
    starts. -/
theorem polls_do_not_mix_iff (acts : List RestAction) (s : RestApiHandler)
    (hrun : Execution.run step init acts = some s) :
    (s.OwnSockets ∧ s.Staged ∧ s.OnePending) ↔ Along step Latest init acts := by
  refine ⟨fun h => along_latest_of_ownSockets hrun h.1, fun hlatest => ?_⟩
  have h : Inv s :=
    run_invariant_along Inv (fun _ _ _ h hG hs => h.step hG hs) inv_init hlatest hrun
  exact ⟨h.ownSockets, h.staged, h.onePending⟩

/-- One poll through all its stages, the timer expiring again before its response is read. -/
def onePollSchedule : List RestAction :=
  [.run, .fire, .expire, .complete ⟨1, .resolve, none⟩ .success,
    .complete ⟨1, .connect, some 1⟩ .success, .complete ⟨1, .handshake, some 1⟩ .success,
    .complete ⟨1, .write, some 1⟩ .success, .fire, .expire, .complete ⟨1, .read, some 1⟩ .eof]

theorem polls_do_not_mix_one_poll :
    ∃ s, Execution.run step init onePollSchedule = some s ∧
      (s.OwnSockets ∧ s.Staged ∧ s.OnePending) ∧ s.posted = [⟨1, .read, some 1⟩] := by
  refine ⟨_, rfl, (polls_do_not_mix_iff onePollSchedule _ rfl).2 ?_, rfl⟩
  decide

/-- The second poll starts while the first is connecting, whose completion is handled next. -/
def overlappingPollsSchedule : List RestAction :=
  [.run, .fire, .expire, .complete ⟨1, .resolve, none⟩ .success, .fire, .expire,
    .complete ⟨1, .connect, some 1⟩ .success, .complete ⟨2, .resolve, none⟩ .success]

/-- The first poll starts its handshake on the second poll's socket, which is not connected, and the
    second poll connects that socket meanwhile. -/
theorem polls_mix :
    ∃ s, Execution.run step init overlappingPollsSchedule = some s ∧
      s.pending = [⟨1, .handshake, some 2⟩, ⟨2, .connect, some 2⟩] ∧
      ¬ s.OwnSockets ∧ ¬ s.Staged ∧ ¬ s.OnePending := by
  refine ⟨_, rfl, rfl, fun h => ?_, fun h => ?_, fun h => ?_⟩
  · have hsocket := h ⟨1, .handshake, some 2⟩ (by decide) 2 rfl
    exact absurd hsocket (by decide)
  · have hconnected := h
      [.started ⟨1, .resolve, none⟩, .succeeded ⟨1, .resolve, none⟩, .started ⟨1, .connect, some 1⟩,
        .started ⟨2, .resolve, none⟩, .succeeded ⟨1, .connect, some 1⟩]
      (.started ⟨1, .handshake, some 2⟩)
      [.succeeded ⟨2, .resolve, none⟩, .started ⟨2, .connect, some 2⟩] rfl _ .connect rfl rfl
    simp at hconnected
  · exact absurd (h 2) (by decide)

end RestApiHandler

end MarketFeed
