import MarketFeed.Cache.History
import MarketFeed.Library.Execution

set_option autoImplicit false

/-! # One mark for all symbols

`Client::setup` binds one cache to every instrument, so the ids of all symbols share one mark. A
run on the full stream is compared with the run on one symbol's calls alone: the symbol's messages
get the same results in both exactly when no id that is new for its symbol lies at or below an id of
another symbol (`results_restrict_iff`). -/

namespace MarketFeed

open Execution HighWater LockFreeQueue

/-- The symbol of the order book passed to `encache`. -/
def CacheOp.symbol : CacheOp → Option String
  | .encache msg => msg.symbol
  | .decache => none

/-- The calls left when only the messages of symbol `s` are submitted; `decache` calls stay. -/
def restrict (s : String) (ops : List CacheOp) : List CacheOp :=
  ops.filter fun | .encache msg => decide (msg.symbol = some s) | .decache => true

/-- The messages of symbol `s` passed to `encache`, each with the result it got. -/
def resultsOf (s : String) (log : List CacheEvent) : List (Msg × Except CppException Bool) :=
  log.filterMap fun
    | .encache msg result => if msg.symbol = some s then some (msg, result) else none
    | .decache _ => none

/-- The queue is not full when `encache` is called. -/
def NeverFull (lib : JsonLib) (c : Cache) (ops : List CacheOp) : Prop :=
  AtEach (fun pre op => op ≠ .decache → ¬ (c.after lib pre).cacheQueue.Full) ops

theorem encache_ne_decache (msg : Msg) : CacheOp.encache msg ≠ .decache := by simp

instance decidableNeDecache : ∀ op : CacheOp, Decidable (op ≠ .decache)
  | .encache _ => isTrue (encache_ne_decache _)
  | .decache => isFalse (· rfl)

instance decidableNeverFull (lib : JsonLib) (c : Cache) (ops : List CacheOp) :
    Decidable (NeverFull lib c ops) := inferInstanceAs (Decidable (AtEach _ ops))

/-- Every WebSocket id above the initial mark and above all earlier ids of its own symbol is above
    all earlier ids of every symbol. -/
def CrossSymbolOrder (lib : JsonLib) (u₀ : UInt64) (ops : List CacheOp) : Prop :=
  AtEach (fun pre op => ∀ s U, op.symbol = some s → op.webSocketId lib = some U →
    u₀ < U → (∀ V ∈ webSocketIds lib (restrict s pre), V < U) →
      ∀ V ∈ webSocketIds lib pre, V < U) ops

/-! ## Restriction -/

theorem restrict_concat_encache (s : String) (ops : List CacheOp) (msg : Msg) :
    restrict s (ops ++ [.encache msg]) = restrict s ops ++
      if msg.symbol = some s then [.encache msg] else [] := by
  unfold restrict
  rw [List.filter_append]
  by_cases h : msg.symbol = some s <;> simp [h]

theorem restrict_concat_decache (s : String) (ops : List CacheOp) :
    restrict s (ops ++ [.decache]) = restrict s ops ++ [.decache] := by
  unfold restrict
  rw [List.filter_append]
  rfl

theorem webSocketIds_restrict_subset (lib : JsonLib) (s : String) (ops : List CacheOp) :
    webSocketIds lib (restrict s ops) ⊆ webSocketIds lib ops := by
  intro U hU
  obtain ⟨op, hop, hid⟩ := List.mem_filterMap.1 hU
  exact List.mem_filterMap.2 ⟨op, List.mem_of_mem_filter hop, hid⟩

theorem resultsOf_append (s : String) (log log' : List CacheEvent) :
    resultsOf s (log ++ log') = resultsOf s log ++ resultsOf s log' := List.filterMap_append

namespace Cache

variable {lib : JsonLib} {c : Cache} {s : String}

theorem resultsOf_log_encache_other {msg : Msg} (hmsg : msg.symbol ≠ some s)
    (ops : List CacheOp) :
    resultsOf s (c.log lib (ops ++ [.encache msg])) = resultsOf s (c.log lib ops) := by
  rw [log_concat, resultsOf_append]
  simp [perform, resultsOf, hmsg]

theorem resultsOf_log_encache {msg : Msg} (hmsg : msg.symbol = some s)
    (ops : List CacheOp) :
    resultsOf s (c.log lib (ops ++ [.encache msg]))
      = resultsOf s (c.log lib ops) ++ [(msg, ((c.after lib ops).encache lib msg).1)] := by
  rw [log_concat, resultsOf_append]
  simp [perform, resultsOf, hmsg]

theorem resultsOf_log_decache (ops : List CacheOp) :
    resultsOf s (c.log lib (ops ++ [.decache])) = resultsOf s (c.log lib ops) := by
  rw [log_concat, resultsOf_append]
  exact List.append_nil _

/-! ## Two runs in step -/

/-- `r` has the capacity of `g` and holds no more than it. -/
def Within (r g : Cache) : Prop :=
  r.cacheQueue.capacity = g.cacheQueue.capacity ∧
    ∃ dr heldr dg heldg, r.cacheQueue.Represents dr heldr ∧ g.cacheQueue.Represents dg heldg ∧
      heldr.length ≤ heldg.length

variable {r g : Cache}

theorem Within.not_full (h : Within r g) (hg : ¬ g.cacheQueue.Full) : ¬ r.cacheQueue.Full := by
  obtain ⟨hcap, dr, heldr, dg, heldg, hr, hg', hle⟩ := h
  rw [hg'.full_iff] at hg
  have hroom := hg'.room
  rw [hr.full_iff, hcap]
  omega

theorem Within.decache (h : Within r g) : Within r.decache.2 g.decache.2 := by
  obtain ⟨hcap, dr, heldr, dg, heldg, hr, hg, hle⟩ := h
  refine ⟨?_, _, _, _, _, (represents_decache hr).2, (represents_decache hg).2, ?_⟩
  · exact (capacity_dequeue _).trans (hcap.trans (capacity_dequeue _).symm)
  · rw [List.length_tail, List.length_tail]
    omega

theorem capacity_encache (msg : Msg) :
    (c.encache lib msg).2.cacheQueue.capacity = c.cacheQueue.capacity := by
  show (c.perform lib (.encache msg)).2.cacheQueue.capacity = _
  exact capacity_perform _

/-- A message of another symbol can only add to the full run. -/
theorem Within.encache_right (h : Within r g) (msg : Msg) : Within r (g.encache lib msg).2 := by
  obtain ⟨hcap, dr, heldr, dg, heldg, hr, hg, hle⟩ := h
  refine ⟨hcap.trans (capacity_encache msg).symm, _, _, _, _, hr, represents_encache hg msg, ?_⟩
  rw [List.length_append]
  exact Nat.le_add_right_of_le hle

theorem Within.encache_both (h : Within r g) {msg : Msg}
    (hres : (g.encache lib msg).1 = (r.encache lib msg).1) :
    Within (r.encache lib msg).2 (g.encache lib msg).2 := by
  obtain ⟨hcap, dr, heldr, dg, heldg, hr, hg, hle⟩ := h
  refine ⟨?_, _, _, _, _, represents_encache hr msg, represents_encache hg msg, ?_⟩
  · exact (capacity_encache msg).trans (hcap.trans (capacity_encache msg).symm)
  · rw [hres, List.length_append, List.length_append]
    exact Nat.add_le_add_right hle _

/-- With room in both, a message gets the same result in both runs exactly when an id above the
    lower mark is above the higher one. -/
theorem encache_fst_eq_iff {msg : Msg} (hU : r.U ≤ g.U) (hr : ¬ r.cacheQueue.Full)
    (hg : ¬ g.cacheQueue.Full) :
    (g.encache lib msg).1 = (r.encache lib msg).1 ↔
      ∀ U, msg.webSocketId lib = some U → r.U < U → g.U < U := by
  cases hrank : msg.rank lib with
  | error e =>
      simp [encache_error hrank, Msg.webSocketId_of_rank_error hrank]
  | ok id =>
      rw [Msg.webSocketId_of_rank hrank]
      cases id with
      | none => simp [encache_fst_unranked hrank, hr, hg]
      | some U =>
          rw [encache_fst_ranked hrank, encache_fst_ranked hrank]
          have hback : g.U < U → r.U < U := hU.trans_lt
          simp only [hr, hg, not_false_eq_true, and_true, Except.ok.injEq, decide_eq_decide,
            Option.some.injEq, forall_eq']
          exact ⟨Iff.mpr, fun h => ⟨hback, h⟩⟩

/-- `encache_fst_eq_iff` for the two runs after `ops`, with the marks spelled out. -/
theorem encache_fst_eq_iff_ids {msg : Msg} (hmsg : msg.symbol = some s) {ops : List CacheOp}
    (hg : ¬ (c.after lib ops).cacheQueue.Full)
    (hwithin : Within (c.after lib (restrict s ops)) (c.after lib ops)) :
    ((c.after lib ops).encache lib msg).1 = ((c.after lib (restrict s ops)).encache lib msg).1 ↔
      ∀ U, CacheOp.symbol (.encache msg) = some s →
        CacheOp.webSocketId lib (.encache msg) = some U →
        c.U < U → (∀ V ∈ webSocketIds lib (restrict s ops), V < U) →
          ∀ V ∈ webSocketIds lib ops, V < U := by
  have hU : (c.after lib (restrict s ops)).U ≤ (c.after lib ops).U := by
    rw [U_after, U_after]
    exact mark_le_mark_of_subset _ (webSocketIds_restrict_subset lib s ops)
  rw [encache_fst_eq_iff hU (hwithin.not_full hg) hg]
  simp only [U_after, mark_lt_iff]
  constructor
  · exact fun h U _ hid hu hs => (h U hid ⟨hu, hs⟩).2
  · exact fun h U hid hu => ⟨hu.1, h U hmsg hid hu.1 hu.2⟩

/-- The restricted run agrees with the full run on symbol `s` exactly when `s`'s ids are ordered
    against the other symbols' ids; as long as it does, it never holds more. -/
theorem results_restrict_iff_of_symbol {d : ℕ} {held : List Msg}
    (hc : c.cacheQueue.Represents d held) (s : String) (ops : List CacheOp)
    (hroom : NeverFull lib c ops) :
    (resultsOf s (c.log lib ops) = resultsOf s (c.log lib (restrict s ops)) ↔
      AtEach (fun pre op => ∀ U, op.symbol = some s → op.webSocketId lib = some U →
        c.U < U → (∀ V ∈ webSocketIds lib (restrict s pre), V < U) →
          ∀ V ∈ webSocketIds lib pre, V < U) ops) ∧
    (resultsOf s (c.log lib ops) = resultsOf s (c.log lib (restrict s ops)) →
      Within (c.after lib (restrict s ops)) (c.after lib ops)) := by
  induction ops using List.reverseRecOn with
  | nil =>
      refine ⟨⟨fun _ => atEach_nil _, fun _ => rfl⟩, fun _ => ?_⟩
      exact ⟨rfl, d, held, d, held, hc, hc, Nat.le_refl _⟩
  | append_singleton ops op ih =>
      obtain ⟨hpre, hlast⟩ := atEach_concat.1 hroom
      obtain ⟨ihiff, ihwithin⟩ := ih hpre
      cases op with
      | decache =>
          rw [restrict_concat_decache, resultsOf_log_decache, resultsOf_log_decache, after_concat,
            after_concat, atEach_concat]
          refine ⟨ihiff.trans (iff_self_and.2 fun _ U hsym => ?_),
            fun heq => (ihwithin heq).decache⟩
          exact absurd hsym (by simp [CacheOp.symbol])
      | encache msg =>
          rw [restrict_concat_encache, after_concat, atEach_concat]
          by_cases hmsg : msg.symbol = some s
          · -- the message is submitted in both runs
            rw [if_pos hmsg, resultsOf_log_encache hmsg, resultsOf_log_encache hmsg, after_concat]
            have hlaststep := encache_fst_eq_iff_ids hmsg (hlast (encache_ne_decache msg))
            constructor
            · rw [List.append_singleton_inj]
              constructor
              · rintro ⟨heq, hres⟩
                exact ⟨ihiff.1 heq, (hlaststep (ihwithin heq)).1 (Prod.ext_iff.1 hres).2⟩
              · rintro ⟨horder, hids⟩
                have heq := ihiff.2 horder
                exact ⟨heq, Prod.ext rfl ((hlaststep (ihwithin heq)).2 hids)⟩
            · intro heq
              obtain ⟨heq, hres⟩ := List.append_singleton_inj.1 heq
              exact (ihwithin heq).encache_both (Prod.ext_iff.1 hres).2
          · -- the message is submitted in the full run only
            rw [if_neg hmsg, List.append_nil, resultsOf_log_encache_other hmsg]
            refine ⟨ihiff.trans (iff_self_and.2 fun _ U hsym => absurd hsym hmsg),
              fun heq => (ihwithin heq).encache_right msg⟩

/-- **When deduplication is per symbol.** In a reachable cache and a run whose queue is never full
    at an `encache`, every symbol gets the results it would get alone exactly when every id that is
    new for its symbol is above all earlier ids of the other symbols. -/
theorem results_restrict_iff (lib : JsonLib) (cap : Capacity) (u₀ : UInt64)
    (before ops : List CacheOp) (hroom : NeverFull lib ((fresh cap u₀).after lib before) ops) :
    let c := (fresh cap u₀).after lib before
    (∀ s, resultsOf s (c.log lib ops) = resultsOf s (c.log lib (restrict s ops))) ↔
      CrossSymbolOrder lib c.U ops := by
  intro c
  have hrep := (represents_fresh lib cap u₀ before).2
  have hiff := fun s => (results_restrict_iff_of_symbol hrep s ops hroom).1
  constructor
  · exact fun h pre op post hsplit s U hsym hid =>
      (hiff s).1 (h s) pre op post hsplit U hsym hid
  · exact fun h s => (hiff s).2 fun pre op post hsplit U hsym hid =>
      h pre op post hsplit s U hsym hid

theorem neverFull_one_update :
    NeverFull .sample (fresh .default 0) [.encache (.update "btcusdt" 100)] :=
  atEach_singleton.2 fun _ => by decide

theorem results_restrict_one_update :
    resultsOf "btcusdt" ((fresh .default 0).log .sample [.encache (.update "btcusdt" 100)])
      = resultsOf "btcusdt" ((fresh .default 0).log .sample
          (restrict "btcusdt" [.encache (.update "btcusdt" 100)])) := by
  refine (results_restrict_iff .sample .default 0 [] _ neverFull_one_update).2 ?_ "btcusdt"
  exact atEach_singleton.2 fun s U _ _ _ _ V hV => absurd hV List.not_mem_nil

/-- An update of one symbol, then the first update of another with a lower id. -/
def starvingOps : List CacheOp :=
  [.encache (.update "btcusdt" 100), .encache (.update "ethusdt" 50)]

/-- Alone, the second symbol's first update is accepted; after the other symbol's, it is dropped. -/
theorem results_restrict_starved :
    NeverFull .sample (fresh .default 0) starvingOps ∧
      resultsOf "ethusdt" ((fresh .default 0).log .sample starvingOps)
        ≠ resultsOf "ethusdt"
          ((fresh .default 0).log .sample (restrict "ethusdt" starvingOps)) := by
  refine ⟨?_, fun h => ?_⟩
  · show AtEach _ ([CacheOp.encache (.update "btcusdt" 100)] ++ [.encache (.update "ethusdt" 50)])
    exact atEach_concat.2 ⟨neverFull_one_update, fun _ => by decide⟩
  · have hfull : resultsOf "ethusdt" ((fresh .default 0).log .sample starvingOps)
        = [(.update "ethusdt" 50, .ok false)] := rfl
    have halone : resultsOf "ethusdt"
          ((fresh .default 0).log .sample (restrict "ethusdt" starvingOps))
        = [(.update "ethusdt" 50, .ok true)] := rfl
    rw [hfull, halone] at h
    simp at h

end Cache

end MarketFeed
