import MarketFeed.Cache.Symbols

set_option autoImplicit false

/-! # Update ids that are no update ids

`encache` reads `"U"` through the implicit conversion of the JSON library, which takes any kind of
number: a negative integer wraps, a fraction is truncated. Such a value moves the mark like a
genuine id, and the genuine updates below it are lost (`onlyGenuine_iff`). -/

namespace MarketFeed

open Execution HighWater LockFreeQueue

/-- A JSON integer that is not negative, whichever way the library stores it. -/
def Json.natural : Json → Option UInt64
  | .numberUnsigned n => some n
  | .numberInteger n => if 0 ≤ n then some n.toUInt64 else none
  | _ => none

theorem Json.toUInt64_of_natural (lib : JsonLib) {j : Json} {n : UInt64}
    (h : j.natural = some n) : j.toUInt64 lib = .ok n := by
  unfold Json.natural at h
  split at h
  · exact congrArg Except.ok (Option.some.inj h)
  · split at h
    · exact congrArg Except.ok (Option.some.inj h)
    · exact absurd h (by simp)
  · exact absurd h (by simp)

/-- The update id of a WebSocket order book, if it is a non-negative integer. -/
def Msg.genuineId (m : Msg) : Option UInt64 :=
  match m.source, m.data with
  | .webSocket, some { data := .object members, .. } => (members.lookup "U").bind Json.natural
  | _, _ => none

/-- The genuine update id a call offers to the mark. -/
def CacheOp.genuineId : CacheOp → Option UInt64
  | .encache msg => msg.genuineId
  | .decache => none

/-- The genuine ids among the WebSocket messages passed to `encache`, in order. -/
abbrev genuineIds (ops : List CacheOp) : List UInt64 := keys CacheOp.genuineId ops

/-- A genuine id is the one `encache` reads. -/
theorem Msg.webSocketId_of_genuineId (lib : JsonLib) {m : Msg} {U : UInt64}
    (h : m.genuineId = some U) : m.webSocketId lib = some U := by
  unfold Msg.genuineId at h
  split at h
  · next symbol members hsource hdata =>
      obtain ⟨value, hlookup, hvalue⟩ := Option.bind_eq_some_iff.1 h
      refine Msg.webSocketId_eq_some_iff.2 ⟨hsource, _, hdata, ?_⟩
      show ((members.lookup "U").getD .null).toUInt64 lib = .ok U
      rw [hlookup]
      exact Json.toUInt64_of_natural lib hvalue
  · exact absurd h (by simp)

theorem CacheOp.webSocketId_of_genuineId (lib : JsonLib) (op : CacheOp) (U : UInt64)
    (h : op.genuineId = some U) : op.webSocketId lib = some U := by
  cases op with
  | encache msg => exact Msg.webSocketId_of_genuineId lib h
  | decache => exact absurd h (by simp [CacheOp.genuineId])

namespace Cache

variable {lib : JsonLib} {c : Cache}

/-- Only genuine ids count: a WebSocket message without one is rejected and changes nothing, and one
    whose id is above every genuine id before it is accepted. -/
def OnlyGenuine (lib : JsonLib) (c : Cache) (pre : List CacheOp) (op : CacheOp) : Prop :=
  ∀ msg, op = .encache msg → msg.source = .webSocket →
    (msg.genuineId = none → ((c.after lib pre).encache lib msg).1 ≠ .ok true ∧
      ((c.after lib pre).encache lib msg).2 = c.after lib pre) ∧
    ∀ U, msg.genuineId = some U → (∀ V ∈ genuineIds pre, V < U) →
      ((c.after lib pre).encache lib msg).1 = .ok true

/-- The call offers an id that is not genuine and does not convert to more than the initial mark and
    every id before it. -/
def Outranked (lib : JsonLib) (c : Cache) (pre : List CacheOp) (op : CacheOp) : Prop :=
  op.genuineId = none → ∀ V ∈ op.webSocketId lib, ¬ (c.U < V ∧ ∀ W ∈ webSocketIds lib pre, W < V)

instance decidableOutranked (lib : JsonLib) (c : Cache) (pre : List CacheOp) (op : CacheOp) :
    Decidable (Outranked lib c pre op) :=
  match h : op.webSocketId lib with
  | none => isTrue (by simp [Outranked, h])
  | some V =>
      decidable_of_iff (op.genuineId = none → ¬ mark (CacheOp.webSocketId lib) c.U pre < V)
        (by simp [Outranked, h, mark_lt_iff])

theorem outranked_iff {pre : List CacheOp} {op : CacheOp} :
    Outranked lib c pre op ↔ (op.genuineId = none → ∀ V, op.webSocketId lib = some V →
      ¬ mark (CacheOp.webSocketId lib) c.U pre < V) := by
  simp only [Outranked, mark_lt_iff, Option.mem_def]

/-- As long as every id that is not genuine is outranked, the mark is the maximum of the genuine
    ones. -/
theorem U_after_of_outranked {ops : List CacheOp} (h : AtEach (Outranked lib c) ops) :
    (c.after lib ops).U = mark CacheOp.genuineId c.U ops := by
  rw [U_after]
  refine mark_eq_mark_of_not_record _ (CacheOp.webSocketId_of_genuineId lib) ?_
  exact fun pre op post hsplit => outranked_iff.1 (h pre op post hsplit)

/-- With room in the queue, a call that only lets genuine ids count outranks every other id. -/
theorem OnlyGenuine.outranked {pre : List CacheOp} {op : CacheOp} (h : OnlyGenuine lib c pre op)
    (hroom : op ≠ .decache → ¬ (c.after lib pre).cacheQueue.Full) : Outranked lib c pre op := by
  rw [outranked_iff]
  intro hnone V hid hlt
  cases op with
  | decache => exact absurd hid (by simp [CacheOp.webSocketId])
  | encache msg =>
      have hsource := (Msg.webSocketId_eq_some_iff.1 hid).1
      have hrank := Msg.rank_of_webSocketId hid
      refine ((h msg rfl hsource).1 hnone).1 (encache_fst_eq_true_iff.2 ⟨⟨_, hrank, ?_⟩, ?_⟩)
      · intro W hW
        rw [U_after]
        exact Option.some.inj hW ▸ hlt
      · exact hroom (encache_ne_decache msg)

/-- A genuine id above every genuine id before it is above the initial mark, if the first is. -/
theorem lt_of_first_lt {pre post : List CacheOp} {op : CacheOp} {U : UInt64}
    (hfirst : ∀ V ∈ (genuineIds (pre ++ op :: post)).head?, c.U < V)
    (hid : op.genuineId = some U) (hrecord : ∀ V ∈ genuineIds pre, V < U) : c.U < U := by
  have hkeys : genuineIds (pre ++ op :: post) = genuineIds pre ++ U :: genuineIds post := by
    rw [genuineIds, keys_append]
    exact congrArg _ (List.filterMap_cons_some hid)
  rw [hkeys] at hfirst
  cases hpre : genuineIds pre with
  | nil =>
      rw [hpre] at hfirst
      exact hfirst U rfl
  | cons V rest =>
      rw [hpre] at hfirst hrecord
      exact (hfirst V rfl).trans (hrecord V List.mem_cons_self)

theorem encache_outranked {pre : List CacheOp} {msg : Msg} (hsource : msg.source = .webSocket)
    (hnone : msg.genuineId = none) (hout : Outranked lib c pre (.encache msg)) :
    ((c.after lib pre).encache lib msg).1 ≠ .ok true ∧
      ((c.after lib pre).encache lib msg).2 = c.after lib pre := by
  rcases encache_cases lib (c.after lib pre) msg with ⟨e, -, heq⟩ | ⟨hrank, -⟩ |
    ⟨V, -, -, heq⟩ | ⟨V, hrank, hlt, -⟩
  · rw [heq]
    exact ⟨by simp, rfl⟩
  · exact absurd hsource (Msg.source_ne_of_rank hrank)
  · rw [heq]
    exact ⟨by simp, rfl⟩
  · rw [U_after] at hlt
    exact absurd hlt (outranked_iff.1 hout hnone V (Msg.webSocketId_of_rank hrank))

/-- **When one bad update cannot silence the feed.** From any reachable state on, in a run whose
    queue is never full at an `encache`, only genuine ids count exactly if the first genuine id is
    above the initial mark and no other number converts to more than the initial mark and every id
    before it. -/
theorem onlyGenuine_iff (lib : JsonLib) (cap : Capacity) (u₀ : UInt64) (before ops : List CacheOp)
    (hroom : NeverFull lib ((fresh cap u₀).after lib before) ops) :
    let c := (fresh cap u₀).after lib before
    AtEach (OnlyGenuine lib c) ops ↔
      (∀ U ∈ (genuineIds ops).head?, c.U < U) ∧ AtEach (Outranked lib c) ops := by
  intro c
  constructor
  · intro h
    refine ⟨fun U hU => ?_, fun pre op post hsplit => ?_⟩
    · obtain ⟨pre, op, post, hsplit, hpre, hid⟩ := exists_split_of_head_keys _ hU
      cases op with
      | decache => exact absurd hid (by simp [CacheOp.genuineId])
      | encache msg =>
          have hread := Msg.webSocketId_of_genuineId lib hid
          have hnone : ∀ V ∈ genuineIds pre, V < U := by
            rw [genuineIds, hpre]
            exact fun V hV => absurd hV List.not_mem_nil
          have haccepted := (h pre _ post hsplit msg rfl (Msg.webSocketId_eq_some_iff.1 hread).1).2
            U hid hnone
          obtain ⟨⟨id, hrank, hlt⟩, -⟩ := encache_fst_eq_true_iff.1 haccepted
          obtain rfl := Except.ok.inj (hrank.symm.trans (Msg.rank_of_webSocketId hread))
          have hmark := hlt U rfl
          rw [U_after, mark_lt_iff] at hmark
          exact hmark.1
    · exact (h pre op post hsplit).outranked (hroom pre op post hsplit)
  · rintro ⟨hfirst, hout⟩ pre op post hsplit msg rfl hsource
    refine ⟨fun hnone => encache_outranked hsource hnone (hout pre _ post hsplit), ?_⟩
    intro U hid hrecord
    subst hsplit
    have hlt : (c.after lib pre).U < U := by
      rw [U_after_of_outranked hout.of_append, mark_lt_iff]
      exact ⟨lt_of_first_lt hfirst hid hrecord, hrecord⟩
    have hrank := Msg.rank_of_webSocketId (Msg.webSocketId_of_genuineId lib hid)
    refine encache_fst_eq_true_iff.2 ⟨⟨_, hrank, fun W hW => ?_⟩, ?_⟩
    · exact Option.some.inj hW ▸ hlt
    · exact hroom pre _ post rfl (encache_ne_decache msg)

/-- A WebSocket order book of `btcusdt` with the given value under `"U"`. -/
def numbered (value : Json) : CacheOp :=
  .encache { Msg.update "btcusdt" 0 with
    data := some { symbol := "btcusdt", data := .object [("U", value)] } }

/-- A fraction below the mark does no harm. -/
theorem onlyGenuine_fraction :
    AtEach (OnlyGenuine .sample (fresh .default 0))
      [numbered (.numberUnsigned 100), numbered (.numberFloat ⟨15, 2, by decide, by decide⟩),
        numbered (.numberUnsigned 101)] :=
  (onlyGenuine_iff .sample .default 0 [] _ (by decide)).2
    ⟨fun _ hU => Option.some.inj hU ▸ (by decide : (0 : UInt64) < 100), by decide⟩

/-- After one update with `"U": -1`, the genuine update 100 is rejected. -/
theorem onlyGenuine_silenced :
    let ops := [numbered (.numberInteger (-1)), numbered (.numberUnsigned 100)]
    NeverFull .sample (fresh .default 0) ops ∧
      ((fresh .default 0).after .sample [numbered (.numberInteger (-1))]).U = 0xFFFFFFFFFFFFFFFF ∧
      webSocketIds .sample ops = [0xFFFFFFFFFFFFFFFF, 100] ∧ genuineIds ops = [100] ∧
      (fresh .default 0).acceptedIds .sample ops = [0xFFFFFFFFFFFFFFFF] ∧
      ¬ AtEach (OnlyGenuine .sample (fresh .default 0)) ops := by
  refine ⟨by decide, rfl, rfl, rfl, by decide, fun h => ?_⟩
  have hgenuine := (h [numbered (.numberInteger (-1))] _ [] rfl _ rfl rfl).2 100 rfl
  exact absurd (hgenuine nofun) (by decide)

end Cache

end MarketFeed
