import MarketFeed.Cache
import Mathlib.Data.List.Induction

set_option autoImplicit false

/-! # Histories of one cache

A sequence of `encache` and `decache` calls on one `Cache`, the results they return (`Cache.log`)
and the cache they leave (`Cache.after`). Two facts carry the whole history: the mark is the maximum
of every WebSocket id offered so far (`U_after`), and the ring holds what was accepted and not yet
taken out (`represents_after`). -/

namespace MarketFeed

open HighWater LockFreeQueue

/-- A call on the cache. -/
inductive CacheOp where
  | encache (msg : Msg)
  | decache

/-- A call with the result it returned. -/
inductive CacheEvent where
  | encache (msg : Msg) (result : Except CppException Bool)
  | decache (result : Option Msg)

/-- The update id a call offers to the mark. -/
def CacheOp.webSocketId (lib : JsonLib) : CacheOp → Option UInt64
  | .encache msg => msg.webSocketId lib
  | .decache => none

/-- The ids of the WebSocket messages passed to `encache`, in order. -/
abbrev webSocketIds (lib : JsonLib) (ops : List CacheOp) : List UInt64 :=
  keys (CacheOp.webSocketId lib) ops

/-- The messages `encache` returned true for. -/
def accepted (log : List CacheEvent) : List Msg :=
  log.filterMap fun | .encache msg (.ok true) => some msg | _ => none

/-- The messages `decache` returned. -/
def decached (log : List CacheEvent) : List Msg :=
  log.filterMap fun | .decache result => result | _ => none

/-- The accepted messages not yet returned by `decache`. -/
def queued (log : List CacheEvent) : List Msg := (accepted log).drop (decached log).length

theorem accepted_append (log log' : List CacheEvent) :
    accepted (log ++ log') = accepted log ++ accepted log' := List.filterMap_append

theorem decached_append (log log' : List CacheEvent) :
    decached (log ++ log') = decached log ++ decached log' := List.filterMap_append

theorem accepted_encache (msg : Msg) (result : Except CppException Bool) :
    accepted [.encache msg result] = if result = .ok true then [msg] else [] := by
  match result with
  | .ok true => rfl
  | .ok false => rfl
  | .error e => rfl

theorem decached_decache (result : Option Msg) : decached [.decache result] = result.toList := by
  cases result <;> rfl

namespace Cache

/-- A newly constructed cache of power-of-two capacity whose memory held `u₀`. -/
def fresh (cap : Capacity) (u₀ : UInt64) : Cache := { U := u₀, cacheQueue := .ofCapacity cap }

theorem new_eq_fresh (cap : Capacity) {capacity : Int32} (h : sizeOfInt capacity = cap.1)
    (memory : UInt64) : Cache.new memory capacity = .ok (fresh cap memory) := by
  unfold Cache.new
  rw [h, LockFreeQueue.new_capacity]
  rfl

/-- One call. -/
def perform (lib : JsonLib) (c : Cache) : CacheOp → CacheEvent × Cache
  | .encache msg => (.encache msg (c.encache lib msg).1, (c.encache lib msg).2)
  | .decache => (.decache c.decache.1, c.decache.2)

/-- The cache after a sequence of calls. -/
def after (lib : JsonLib) (c : Cache) (ops : List CacheOp) : Cache :=
  ops.foldl (fun c op => (c.perform lib op).2) c

/-- The calls of a sequence with their results. -/
def log (lib : JsonLib) (c : Cache) : List CacheOp → List CacheEvent
  | [] => []
  | op :: ops => (c.perform lib op).1 :: (c.perform lib op).2.log lib ops

variable {lib : JsonLib} {c : Cache}

@[simp] theorem after_nil : c.after lib [] = c := rfl

@[simp] theorem log_nil : c.log lib [] = [] := rfl

theorem after_cons (op : CacheOp) (ops : List CacheOp) :
    c.after lib (op :: ops) = (c.perform lib op).2.after lib ops := rfl

theorem after_concat (ops : List CacheOp) (op : CacheOp) :
    c.after lib (ops ++ [op]) = ((c.after lib ops).perform lib op).2 := by
  unfold after
  rw [List.foldl_append, List.foldl_cons, List.foldl_nil]

theorem log_concat (ops : List CacheOp) (op : CacheOp) :
    c.log lib (ops ++ [op]) = c.log lib ops ++ [((c.after lib ops).perform lib op).1] := by
  induction ops generalizing c with
  | nil => rfl
  | cons o ops ih => rw [List.cons_append, log, log, ih, after_cons, List.cons_append]

/-! ## The mark -/

theorem U_perform (op : CacheOp) :
    (c.perform lib op).2.U = raise (CacheOp.webSocketId lib) c.U op := by
  cases op with
  | encache msg => exact U_encache
  | decache => rfl

/-- The mark after a history is the maximum of its start and every WebSocket id offered. -/
theorem U_after (ops : List CacheOp) :
    (c.after lib ops).U = mark (CacheOp.webSocketId lib) c.U ops := by
  induction ops using List.reverseRecOn with
  | nil => rfl
  | append_singleton ops op ih => rw [after_concat, U_perform, mark_concat, ih]

/-! ## The ring -/

/-- `encache` appends its message to the ring exactly when it returns true. -/
theorem represents_encache {d : ℕ} {held : List Msg} (h : c.cacheQueue.Represents d held)
    (msg : Msg) : (c.encache lib msg).2.cacheQueue.Represents d
      (held ++ if (c.encache lib msg).1 = .ok true then [msg] else []) := by
  rw [cacheQueue_encache]
  by_cases hacc : (c.encache lib msg).1 = .ok true
  · have hroom : held.length + 1 < c.cacheQueue.capacity.toNat :=
      Nat.lt_of_le_of_ne h.room fun he => (encache_fst_eq_true_iff.1 hacc).2 (h.full_iff.2 he)
    rw [if_pos hacc, if_pos hacc]
    exact (h.enqueue_room hroom msg).2
  · rw [if_neg hacc, if_neg hacc, List.append_nil]
    exact h

theorem represents_decache {d : ℕ} {held : List Msg} (h : c.cacheQueue.Represents d held) :
    c.decache.1 = held.head? ∧
      c.decache.2.cacheQueue.Represents (d + held.head?.toList.length) held.tail := by
  unfold decache
  cases held with
  | nil =>
      rw [h.dequeue_empty]
      exact ⟨rfl, h⟩
  | cons msg rest =>
      obtain ⟨hres, hrep⟩ := h.dequeue_cons
      exact ⟨hres, hrep⟩

theorem represents_perform (lib : JsonLib) {d : ℕ} {held : List Msg}
    (h : c.cacheQueue.Represents d held) (op : CacheOp) : ∃ held',
      held ++ accepted [(c.perform lib op).1] = decached [(c.perform lib op).1] ++ held' ∧
      (c.perform lib op).2.cacheQueue.Represents (d + (decached [(c.perform lib op).1]).length)
        held' := by
  cases op with
  | encache msg => exact ⟨_, congrArg _ (accepted_encache msg _), represents_encache h msg⟩
  | decache =>
      obtain ⟨hres, hrep⟩ := represents_decache h
      refine ⟨held.tail, ?_, ?_⟩
      · show held ++ [] = decached [.decache c.decache.1] ++ held.tail
        rw [hres, decached_decache, List.append_nil]
        cases held <;> rfl
      · show c.decache.2.cacheQueue.Represents (d + (decached [.decache c.decache.1]).length) _
        rw [hres, decached_decache]
        exact hrep

/-- The ring holds what was held before or accepted since, less what was returned. -/
theorem represents_after (lib : JsonLib) {d : ℕ} {held : List Msg}
    (h : c.cacheQueue.Represents d held) (ops : List CacheOp) : ∃ held',
      held ++ accepted (c.log lib ops) = decached (c.log lib ops) ++ held' ∧
      (c.after lib ops).cacheQueue.Represents (d + (decached (c.log lib ops)).length) held' := by
  induction ops using List.reverseRecOn with
  | nil => exact ⟨held, List.append_nil _, h⟩
  | append_singleton ops op ih =>
      obtain ⟨held₁, hbal₁, hrep₁⟩ := ih
      obtain ⟨held₂, hbal₂, hrep₂⟩ := represents_perform lib hrep₁ op
      refine ⟨held₂, ?_, ?_⟩
      · rw [log_concat, accepted_append, decached_append, ← List.append_assoc, hbal₁,
          List.append_assoc, hbal₂, List.append_assoc]
      · rw [log_concat, after_concat, decached_append, List.length_append, ← Nat.add_assoc]
        exact hrep₂

/-- In a fresh cache the ring holds exactly the queued messages. -/
theorem represents_fresh (lib : JsonLib) (cap : Capacity) (u₀ : UInt64) (ops : List CacheOp) :
    decached ((fresh cap u₀).log lib ops) ++ queued ((fresh cap u₀).log lib ops)
        = accepted ((fresh cap u₀).log lib ops) ∧
      ((fresh cap u₀).after lib ops).cacheQueue.Represents
        (decached ((fresh cap u₀).log lib ops)).length (queued ((fresh cap u₀).log lib ops)) := by
  have hinit : (fresh cap u₀).cacheQueue.Represents 0 [] := represents_ofCapacity cap
  obtain ⟨held, hbal, hrep⟩ := represents_after lib hinit ops
  rw [List.nil_append] at hbal
  have hq : queued ((fresh cap u₀).log lib ops) = held := by
    unfold queued
    rw [hbal, List.drop_left]
  rw [hq]
  rw [Nat.zero_add] at hrep
  exact ⟨hbal.symm, hrep⟩

@[simp] theorem capacity_perform (op : CacheOp) :
    (c.perform lib op).2.cacheQueue.capacity = c.cacheQueue.capacity := by
  cases op with
  | encache msg =>
      show (c.encache lib msg).2.cacheQueue.capacity = _
      rw [cacheQueue_encache]
      split
      · exact LockFreeQueue.capacity_enqueue _ _
      · rfl
  | decache => exact LockFreeQueue.capacity_dequeue _

theorem capacity_after (ops : List CacheOp) :
    (c.after lib ops).cacheQueue.capacity = c.cacheQueue.capacity := by
  induction ops using List.reverseRecOn with
  | nil => rfl
  | append_singleton ops op ih => rw [after_concat, capacity_perform, ih]

/-! ## Accepted ids -/

theorem accepted_log_encache (ops : List CacheOp) (msg : Msg) :
    accepted (c.log lib (ops ++ [.encache msg])) = accepted (c.log lib ops) ++
      if ((c.after lib ops).encache lib msg).1 = .ok true then [msg] else [] := by
  rw [log_concat, accepted_append]
  exact congrArg _ (accepted_encache msg _)

theorem accepted_log_decache (ops : List CacheOp) :
    accepted (c.log lib (ops ++ [.decache])) = accepted (c.log lib ops) := by
  rw [log_concat, accepted_append]
  exact List.append_nil _

/-- The ids of the accepted messages, in the order of acceptance. -/
abbrev acceptedIds (lib : JsonLib) (c : Cache) (ops : List CacheOp) : List UInt64 :=
  keys (Msg.webSocketId lib) (accepted (c.log lib ops))

/-- The WebSocket ids of the accepted messages increase strictly and stay at or below the mark. -/
theorem acceptedIds_increasing (ops : List CacheOp) :
    (c.acceptedIds lib ops).Pairwise (· < ·) ∧
      ∀ U ∈ c.acceptedIds lib ops, U ≤ (c.after lib ops).U := by
  induction ops using List.reverseRecOn with
  | nil => exact ⟨List.Pairwise.nil, fun U hU => absurd hU (by simp [accepted, keys])⟩
  | append_singleton ops op ih =>
      obtain ⟨hpair, hbound⟩ := ih
      have hmark : (c.after lib (ops ++ [op])).U
          = raise (CacheOp.webSocketId lib) (c.after lib ops).U op := by
        rw [after_concat, U_perform]
      have hmono : (c.after lib ops).U ≤ (c.after lib (ops ++ [op])).U :=
        hmark ▸ le_raise (CacheOp.webSocketId lib) _ op
      have hbound' := fun U hU => (hbound U hU).trans hmono
      cases op with
      | decache =>
          unfold acceptedIds
          rw [accepted_log_decache]
          exact ⟨hpair, hbound'⟩
      | encache msg =>
          unfold acceptedIds
          rw [accepted_log_encache]
          split
          · next hacc =>
              obtain ⟨⟨id, hrank, hlt⟩, -⟩ := encache_fst_eq_true_iff.1 hacc
              have hid := Msg.webSocketId_of_rank hrank
              cases id with
              | none =>
                  rw [keys_concat_none _ _ hid]
                  exact ⟨hpair, hbound'⟩
              | some U =>
                  -- an accepted id is above the mark, hence above every id accepted before
                  have habove : (c.after lib ops).U < U := hlt U rfl
                  rw [keys_concat_some _ _ hid]
                  refine ⟨List.pairwise_append.2 ⟨hpair, List.pairwise_singleton _ _, ?_⟩, ?_⟩
                  · intro V hV W hW
                    rw [List.mem_singleton.1 hW]
                    exact (hbound V hV).trans_lt habove
                  · intro V hV
                    rcases List.mem_append.1 hV with hV | hV
                    · exact hbound' V hV
                    · rw [List.mem_singleton.1 hV, hmark]
                      exact key_le_raise (CacheOp.webSocketId lib) hid
          · rw [List.append_nil]
            exact ⟨hpair, hbound'⟩

/-- **History of the cache.** For every initial mark and every sequence of calls: the mark is the
    maximum of the initial one and every WebSocket id offered; `encache` of a WebSocket message
    returns true exactly when its id is above all of these and the queue has room, `encache` of a
    REST message exactly when the queue has room; the ring holds what was accepted and not yet
    returned; and the WebSocket ids returned and still queued increase strictly. -/
theorem encache_history (lib : JsonLib) (cap : Capacity) (u₀ : UInt64) (ops : List CacheOp) :
    let c := (fresh cap u₀).after lib ops
    let log := (fresh cap u₀).log lib ops
    c.U = (webSocketIds lib ops).foldl max u₀ ∧
      (∀ msg U, msg.webSocketId lib = some U →
        ((c.encache lib msg).1 = .ok true ↔
          (u₀ < U ∧ ∀ V ∈ webSocketIds lib ops, V < U) ∧
            (queued log).length < cap.1.toNat - 1)) ∧
      (∀ msg : Msg, msg.IsRestBook →
        ((c.encache lib msg).1 = .ok true ↔ (queued log).length < cap.1.toNat - 1)) ∧
      decached log ++ queued log = accepted log ∧
      c.cacheQueue.Represents (decached log).length (queued log) ∧
      (keys (Msg.webSocketId lib) (decached log ++ queued log)).Pairwise (· < ·) := by
  intro c log
  obtain ⟨hbal, hrep⟩ : decached log ++ queued log = accepted log ∧
      c.cacheQueue.Represents (decached log).length (queued log) := represents_fresh lib cap u₀ ops
  have hroom : ¬ c.cacheQueue.Full ↔ (queued log).length < cap.1.toNat - 1 := by
    have hcap : c.cacheQueue.capacity.toNat = cap.1.toNat :=
      congrArg UInt64.toNat (capacity_after ops)
    have hlt := hrep.room
    rw [hrep.full_iff]
    omega
  refine ⟨?_, fun msg U hid => ?_, fun msg hrest => ?_, hbal, hrep, ?_⟩
  · rw [U_after, mark_eq_foldl_max]
    rfl
  · rw [encache_fst_eq_true_iff, hroom, ← mark_lt_iff]
    simp [Msg.rank_of_webSocketId hid, c, U_after, fresh]
  · rw [encache_fst_eq_true_iff, hroom]
    simp [Msg.rank_of_isRestBook hrest]
  · rw [hbal]
    exact (acceptedIds_increasing ops).1

end Cache

end MarketFeed
