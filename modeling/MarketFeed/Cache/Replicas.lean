import MarketFeed.Cache.Symbols

set_option autoImplicit false

/-! # Replicas

`ConnectionManager` opens several connections to the same stream and lets the cache sort out what
they have in common. WebSocket replicas go through the mark, which merges any interleaving of them
into the longest of the streams they deliver (`accepted_merges_replicas`). REST replicas go past it,
so a snapshot that comes twice is queued twice (`encache_again_iff`). -/

namespace MarketFeed

open Execution HighWater LockFreeQueue

/-! ## WebSocket replicas -/

/-- A call on the cache: by WebSocket replica `p`, by a REST handler or by the consumer. -/
inductive ReplicaOp (ι : Type*) where
  | update (p : ι) (msg : Msg)
  | snapshot (msg : Msg) (hsource : msg.source = .restApi)
  | decache

namespace ReplicaOp

variable {ι : Type*}

/-- The call, whoever makes it. -/
def call : ReplicaOp ι → CacheOp
  | update _ msg => .encache msg
  | snapshot msg _ => .encache msg
  | decache => .decache

/-- The update id delivered by a call, with the replica that delivers it. -/
def sent (lib : JsonLib) : ReplicaOp ι → Option (ι × UInt64)
  | update p msg => (msg.webSocketId lib).map (p, ·)
  | snapshot _ _ => none
  | decache => none

theorem webSocketId_call (lib : JsonLib) (op : ReplicaOp ι) :
    op.call.webSocketId lib = sentKey (sent lib) op := by
  cases op with
  | update p msg =>
      show msg.webSocketId lib = ((msg.webSocketId lib).map (p, ·)).map Prod.snd
      cases msg.webSocketId lib <;> rfl
  | snapshot msg hsource =>
      cases hid : msg.webSocketId lib with
      | none => exact hid
      | some U =>
          have hws := (Msg.webSocketId_eq_some_iff.1 hid).1
          exact absurd (hsource.symm.trans hws) (by decide)
  | decache => rfl

/-- The update ids replica `p` delivers, in order. -/
abbrev delivered [DecidableEq ι] (lib : JsonLib) (ops : List (ReplicaOp ι)) (p : ι) :
    List UInt64 := sentBy (sent lib) p ops

end ReplicaOp

namespace Cache

variable {lib : JsonLib} {c : Cache}

/-- With room in the queue, an update is accepted exactly if its id is above the mark. -/
theorem acceptedIds_encache {ops : List CacheOp} (hroom : ¬ (c.after lib ops).cacheQueue.Full)
    (msg : Msg) : c.acceptedIds lib (ops ++ [.encache msg]) = c.acceptedIds lib ops ++
      (msg.webSocketId lib).toList.filter ((c.after lib ops).U < ·) := by
  unfold acceptedIds
  rw [accepted_log_encache]
  cases hrank : msg.rank lib with
  | error e =>
      rw [encache_error hrank, Msg.webSocketId_of_rank_error hrank]
      simp
  | ok id =>
      have hid := Msg.webSocketId_of_rank hrank
      rw [hid]
      cases id with
      | none =>
          rw [encache_fst_unranked hrank, if_pos (by simp [hroom]), keys_concat_none _ _ hid]
          simp
      | some U =>
          rw [encache_fst_ranked hrank]
          by_cases hlt : (c.after lib ops).U < U
          · rw [if_pos (by simp [hlt, hroom]), keys_concat_some _ _ hid]
            simp [hlt]
          · simp [hlt]

/-- While the queue has room, the ids accepted are the ids above the mark. -/
theorem acceptedIds_eq_records {ops : List CacheOp} (hroom : NeverFull lib c ops) :
    c.acceptedIds lib ops = records (CacheOp.webSocketId lib) c.U ops := by
  induction ops using List.reverseRecOn with
  | nil => rfl
  | append_singleton ops op ih =>
      obtain ⟨hpre, hlast⟩ := atEach_concat.1 hroom
      rw [records_concat, ← ih hpre, ← U_after]
      cases op with
      | encache msg => exact acceptedIds_encache (hlast (encache_ne_decache msg)) msg
      | decache =>
          unfold acceptedIds
          rw [accepted_log_decache]
          exact (List.append_nil _).symm

/-- **Replicas merge without loss or duplication.** Let any number of replicas each deliver a prefix
    of one increasing sequence of update ids, interleaved in any way with each other, with REST
    snapshots and with `decache` calls. Started in any reachable state with a mark below the first
    id, and with a queue that is never full at an `encache`, the cache accepts exactly the longest
    prefix delivered. -/
theorem accepted_merges_replicas {ι : Type*} [DecidableEq ι] (lib : JsonLib) (cap : Capacity)
    (u₀ : UInt64) (before : List CacheOp) (S : List UInt64) (hS : S.Pairwise (· < ·))
    (hU : ∀ U ∈ S.head?, ((fresh cap u₀).after lib before).U < U) (ops : List (ReplicaOp ι))
    (hdelivered : ∀ p, ReplicaOp.delivered lib ops p <+: S)
    (hroom : NeverFull lib ((fresh cap u₀).after lib before) (ops.map ReplicaOp.call)) :
    let accepted := ((fresh cap u₀).after lib before).acceptedIds lib (ops.map ReplicaOp.call)
    IsLongest (ReplicaOp.delivered lib ops) accepted ∧ accepted <+: S ∧
      accepted.Pairwise (· < ·) := by
  generalize (fresh cap u₀).after lib before = c at hU hroom ⊢
  intro accepted
  have habove : ∀ U ∈ S, c.U < U := by
    intro U hmem
    obtain ⟨first, rest, rfl⟩ := List.exists_cons_of_ne_nil (List.ne_nil_of_mem hmem)
    have hfirst : c.U < first := hU first rfl
    rcases List.mem_cons.1 hmem with rfl | hrest
    · exact hfirst
    · exact hfirst.trans (List.rel_of_pairwise_cons hS hrest)
  have hlongest : IsLongest (ReplicaOp.delivered lib ops) accepted := by
    have hrecords : accepted = records (sentKey (ReplicaOp.sent lib)) c.U ops := by
      rw [← funext (ReplicaOp.webSocketId_call lib), ← records_map]
      exact acceptedIds_eq_records hroom
    rw [hrecords]
    exact records_isLongest hS habove ops hdelivered
  have hprefix := hlongest.prefix_of hdelivered
  exact ⟨hlongest, hprefix, hS.sublist hprefix.sublist⟩

/-- Two replicas of the updates 1, 2, 3 of one symbol, the first cut off after 2. -/
def twoReplicas : List (ReplicaOp Bool) :=
  [.update false (.update "btcusdt" 1), .update true (.update "btcusdt" 1),
    .snapshot (.snapshot "btcusdt") rfl, .update false (.update "btcusdt" 2), .decache,
    .update true (.update "btcusdt" 2), .update true (.update "btcusdt" 3)]

theorem accepted_merges_two_replicas :
    (fresh .default 0).acceptedIds .sample (twoReplicas.map ReplicaOp.call) <+: [1, 2, 3] ∧
      (fresh .default 0).acceptedIds .sample (twoReplicas.map ReplicaOp.call) = [1, 2, 3] := by
  refine ⟨?_, by decide⟩
  exact (accepted_merges_replicas .sample .default 0 [] [1, 2, 3] (by decide)
    (fun _ hU => Option.some.inj hU ▸ (by decide : (0 : UInt64) < 1)) twoReplicas (by decide)
    (by decide)).2.1

/-! ## REST replicas -/

/-- Once a WebSocket message has been offered, the mark is at its id or above. -/
theorem le_U_after_encache {msg : Msg} {U : UInt64} (hid : msg.webSocketId lib = some U)
    (before later : List CacheOp) :
    U ≤ (c.after lib (before ++ .encache msg :: later)).U := by
  by_contra hlt
  rw [U_after, not_le, mark_lt_iff] at hlt
  refine lt_irrefl U (hlt.2 U (List.mem_filterMap.2 ⟨.encache msg, ?_, hid⟩))
  exact List.mem_append_right _ List.mem_cons_self

/-- **When a message is deduplicated.** Of a message that was accepted, every later `encache`
    returns false and leaves the cache unchanged exactly if it came over a WebSocket, or finds the
    queue full. -/
theorem encache_again_iff (lib : JsonLib) (cap : Capacity) (u₀ : UInt64)
    (before later : List CacheOp) (msg : Msg)
    (haccepted : (((fresh cap u₀).after lib before).encache lib msg).1 = .ok true) :
    let again := (fresh cap u₀).after lib (before ++ .encache msg :: later)
    again.encache lib msg = (.ok false, again) ↔
      msg.source = .webSocket ∨ again.cacheQueue.Full := by
  intro again
  obtain ⟨⟨id, hrank, -⟩, -⟩ := encache_fst_eq_true_iff.1 haccepted
  have hid := Msg.webSocketId_of_rank hrank
  cases id with
  | some U =>
      have hsource := (Msg.webSocketId_eq_some_iff.1 hid).1
      exact iff_of_true (encache_stale hrank (le_U_after_encache hid before later))
        (Or.inl hsource)
  | none =>
      rw [encache_unranked hrank, or_iff_right (Msg.source_ne_of_rank hrank)]
      constructor
      · intro heq
        by_contra hroom
        have htrue : (again.enqueue msg).1 = .ok true := enqueue_fst_eq_true_iff.2 hroom
        rw [heq] at htrue
        simp at htrue
      · exact enqueue_full

/-- An update that comes again after it has been consumed is refused. -/
theorem encache_again_update :
    let again := (fresh .default 0).after .sample [.encache (.update "btcusdt" 7), .decache]
    again.encache .sample (.update "btcusdt" 7) = (.ok false, again) :=
  (encache_again_iff .sample .default 0 [] [.decache] (.update "btcusdt" 7) rfl).2
    (Or.inl rfl)

/-- Two REST replicas deliver the same snapshot: both are queued. -/
theorem encache_again_snapshot :
    let again := (fresh .default 0).after .sample [.encache (.snapshot "btcusdt")]
    accepted ((fresh .default 0).log .sample [.encache (.snapshot "btcusdt")])
        = [.snapshot "btcusdt"] ∧
      (again.encache .sample (.snapshot "btcusdt")).1 = .ok true ∧
      (again.encache .sample (.snapshot "btcusdt")).2.cacheQueue.size = 2 ∧
      ¬ again.encache .sample (.snapshot "btcusdt") = (.ok false, again) := by
  refine ⟨rfl, rfl, rfl, fun h => ?_⟩
  exact absurd (congrArg (fun r => r.2.cacheQueue.size) h) (by decide)

end Cache

end MarketFeed
