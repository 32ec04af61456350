import MarketFeed.Cache.History

set_option autoImplicit false

/-! # The mark under back-pressure

`encache` raises the mark before it knows that the queue has room. So an update refused by a full
queue is remembered as if it had been delivered, and the copies that the other replicas bring are
refused as duplicates (`encache_atomic_iff`). -/

namespace MarketFeed

open HighWater LockFreeQueue

namespace Cache

variable {lib : JsonLib}

/-- `encache` refuses the message, and for no other reason than the full queue. -/
def RefusedFull (lib : JsonLib) (c : Cache) (msg : Msg) : Prop :=
  c.cacheQueue.Full ∧ ∃ id, msg.rank lib = .ok id ∧ ∀ U ∈ id, c.U < U

/-- No update newer than `msg` was accepted. -/
def NoneNewer (lib : JsonLib) (msg : Msg) (log : List CacheEvent) : Prop :=
  ∀ U, msg.webSocketId lib = some U → ∀ V ∈ keys (Msg.webSocketId lib) (accepted log), V ≤ U

/-- `encache` of `msg` is all or nothing: unless it returns true it leaves the cache as it was, and
    a message refused only because the queue was full is accepted when it comes again, the queue has
    room again and nothing newer has been accepted. -/
def Atomic (lib : JsonLib) (c : Cache) (msg : Msg) : Prop :=
  ((c.encache lib msg).1 ≠ .ok true → (c.encache lib msg).2 = c) ∧
    (RefusedFull lib c msg → ∀ ops,
      ¬ ((c.encache lib msg).2.after lib ops).cacheQueue.Full →
      NoneNewer lib msg ((c.encache lib msg).2.log lib ops) →
      (((c.encache lib msg).2.after lib ops).encache lib msg).1 = .ok true)

/-- A message without an update id is accepted whenever there is room. -/
theorem encache_unranked_room {c : Cache} {msg : Msg} (hrank : msg.rank lib = .ok none)
    (hroom : ¬ c.cacheQueue.Full) : (c.encache lib msg).1 = .ok true :=
  encache_fst_eq_true_iff.2 ⟨⟨none, hrank, nofun⟩, hroom⟩

/-- **When `encache` is atomic.** In every reachable state of a cache it is, except for a WebSocket
    update whose id is above the mark while the queue is full. -/
theorem encache_atomic_iff (lib : JsonLib) (cap : Capacity) (u₀ : UInt64) (ops : List CacheOp)
    (msg : Msg) :
    let c := (fresh cap u₀).after lib ops
    Atomic lib c msg ↔ ¬ ∃ U, msg.webSocketId lib = some U ∧ c.U < U ∧ c.cacheQueue.Full := by
  intro c
  constructor
  · rintro ⟨hunchanged, -⟩ ⟨U, hid, hlt, hfull⟩
    have hfull' : ({ c with U := U } : Cache).cacheQueue.Full := hfull
    rw [encache_fresh (Msg.rank_of_webSocketId hid) hlt, enqueue_full hfull'] at hunchanged
    have hU : U = c.U := congrArg Cache.U (hunchanged (by simp))
    exact absurd hlt (hU ▸ lt_irrefl U)
  · intro hcond
    rcases encache_cases lib c msg with ⟨e, hrank, heq⟩ | ⟨hrank, heq⟩ | ⟨U, hrank, hle, heq⟩ |
      ⟨U, hrank, hlt, heq⟩
    · refine ⟨fun _ => by rw [heq], fun ⟨_, id, hid, _⟩ => ?_⟩
      exact absurd (hrank.symm.trans hid) (by simp)
    · refine ⟨fun hres => ?_, fun _ ops hroom _ => encache_unranked_room hrank hroom⟩
      rw [heq] at hres ⊢
      rw [ne_eq, enqueue_fst_eq_true_iff, not_not] at hres
      rw [enqueue_full hres]
    · refine ⟨fun _ => by rw [heq], fun ⟨_, id, hid, hlt⟩ => ?_⟩
      obtain rfl := Except.ok.inj (hrank.symm.trans hid)
      exact absurd (hlt U rfl) (not_lt.2 hle)
    · -- above the mark, so by the condition the queue has room and the message is accepted
      have hroom : ¬ c.cacheQueue.Full :=
        fun hfull => hcond ⟨U, Msg.webSocketId_of_rank hrank, hlt, hfull⟩
      refine ⟨fun hres => ?_, fun ⟨hfull, _⟩ => absurd hfull hroom⟩
      rw [heq, ne_eq, enqueue_fst_eq_true_iff, not_not] at hres
      exact absurd hres hroom

/-- A full queue of one: the update with id 7 is refused, and refused again once there is room. -/
theorem encache_atomic_refused :
    let full := ((fresh ⟨2, 1, rfl⟩ 0).encache .sample (.update "btcusdt" 5)).2
    let refused := (full.encache .sample (.update "btcusdt" 7)).2
    (full.encache .sample (.update "btcusdt" 7)).1 = .ok false ∧ full.U = 5 ∧ refused.U = 7 ∧
      ((refused.after .sample [.decache]).encache .sample (.update "btcusdt" 7)).1 = .ok false ∧
      ¬ Atomic .sample full (.update "btcusdt" 7) := by
  refine ⟨rfl, rfl, rfl, rfl, fun h => ?_⟩
  exact absurd (congrArg Cache.U (h.1 (by decide))) (by decide)

end Cache

end MarketFeed
