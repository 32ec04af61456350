import MarketFeed.Feed
import MarketFeed.Consumer.Progress

set_option autoImplicit false

/-! # What the filter of a feed lets through

Every payload received offers the cache one message at most, and the cache takes or refuses it
(`Feed.Filtered`): what it takes keeps the order of the offers, its mark is the high-water mark of
the ids offered, and the ids it takes increase. While the queue has room it takes every record
(`Feed.TakesRecords`). -/

namespace MarketFeed

open Execution LockFreeQueue
open scoped List

/-! ## Offers -/

/-- The message `on_data` offers the cache, if the parser returns. -/
def Reception.message (lib : JsonLib) (r : Reception) : Option Msg :=
  match parseJsonString lib r.payload with
  | .error _ => none
  | .ok data => some (r.handler.message data)

/-- The update id a received payload carries. -/
def Reception.updateId (lib : JsonLib) (r : Reception) : Option UInt64 :=
  (r.message lib).bind (Msg.webSocketId lib)

/-- The order book a payload of the given source offers its callback. -/
def Reception.book (lib : JsonLib) (source : MsgSource) (r : Reception) : Option OrderBook :=
  if r.handler.source = source then (r.message lib).bind (·.data) else none

/-- The ids of the messages accepted from WebSocket handlers. -/
abbrev Consumer.acceptedIds (lib : JsonLib) (consumer : Consumer) : List UInt64 :=
  consumer.accepted.filterMap (Msg.webSocketId lib)

/-- The queue has room whenever `on_data` is called. -/
def Feed.HasRoom (s : Feed) : FeedAction → Prop
  | .receive _ => ¬ s.consumer.bufferQueue.cacheQueue.Full
  | _ => True

namespace Reception

variable {lib : JsonLib} {r : Reception} {msg : Msg}

theorem type_of_message (h : r.message lib = some msg) : msg.type = .orderBook := by
  unfold message at h
  split at h
  · exact absurd h (by simp)
  · exact Option.some.inj h ▸ rfl

end Reception

namespace Feed

variable {lib : JsonLib} {u₀ : UInt64} {s s' : Feed} {a : FeedAction}

theorem onData_message (lib : JsonLib) (consumer : Consumer) (r : Reception) :
    onData lib consumer r =
      match r.message lib with
      | none => consumer
      | some msg => consumer.encache lib msg := by
  rw [onData_eq]
  unfold Reception.message
  cases parseJsonString lib r.payload with
  | error e => rfl
  | ok data => rfl

/-! ## What the cache has taken -/

/-- What the mark and the accepted messages are after the payloads received so far. -/
structure Filtered (lib : JsonLib) (u₀ : UInt64) (s : Feed) : Prop where
  accepted : s.consumer.accepted <+ s.received.filterMap (Reception.message lib)
  ranked : ∀ msg ∈ s.consumer.accepted, ∃ id, msg.rank lib = .ok id
  mark : s.consumer.bufferQueue.U = HighWater.mark (Reception.updateId lib) u₀ s.received
  increasing : (s.consumer.acceptedIds lib).Pairwise (· < ·)
  bounds : ∀ U ∈ s.consumer.acceptedIds lib, u₀ < U ∧ U ≤ s.consumer.bufferQueue.U

theorem filtered_init (lib : JsonLib) (cap : Capacity) (u₀ : UInt64) :
    Filtered lib u₀ (init (.fresh cap u₀)) where
  accepted := List.nil_sublist _
  ranked _ hmsg := absurd hmsg List.not_mem_nil
  mark := rfl
  increasing := List.Pairwise.nil
  bounds _ hU := absurd hU List.not_mem_nil

/-- Of a message offered the id is taken if it is above the mark and there is room. -/
theorem acceptedIds_encache (consumer : Consumer) (msg : Msg) :
    (consumer.encache lib msg).acceptedIds lib = consumer.acceptedIds lib ++
      (msg.webSocketId lib).toList.filter fun U =>
        consumer.bufferQueue.U < U ∧ ¬ consumer.bufferQueue.cacheQueue.Full := by
  show (consumer.accepted ++ _).filterMap _ = _
  rw [List.filterMap_append]
  congr 1
  cases hrank : msg.rank lib with
  | error e =>
      rw [Cache.encache_error hrank, Msg.webSocketId_of_rank_error hrank]
      simp
  | ok id =>
      have hid := Msg.webSocketId_of_rank hrank
      cases id with
      | none =>
          rw [hid]
          split <;> simp [hid]
      | some U =>
          rw [Cache.encache_fst_ranked hrank, hid]
          by_cases htaken : consumer.bufferQueue.U < U ∧ ¬ consumer.bufferQueue.cacheQueue.Full
          · simp [htaken, hid]
          · simp [htaken]

theorem Filtered.encache (h : Filtered lib u₀ s) {r : Reception} {msg : Msg}
    (hmsg : r.message lib = some msg) :
    Filtered lib u₀ { consumer := s.consumer.encache lib msg, received := s.received ++ [r] } := by
  have hid : r.updateId lib = msg.webSocketId lib := by
    rw [Reception.updateId, hmsg, Option.bind_some]
  have hraise : s.consumer.bufferQueue.U ≤ (s.consumer.bufferQueue.encache lib msg).2.U := by
    rw [Cache.U_encache]
    exact HighWater.le_raise _ _ _
  have htaken : ∀ U ∈ (s.consumer.encache lib msg).acceptedIds lib,
      U ∈ s.consumer.acceptedIds lib ∨
        msg.webSocketId lib = some U ∧ s.consumer.bufferQueue.U < U := by
    intro U hU
    rw [acceptedIds_encache] at hU
    refine (List.mem_append.1 hU).imp_right fun hnew => ?_
    obtain ⟨hmem, hlt⟩ := List.mem_filter.1 hnew
    exact ⟨Option.mem_toList.1 hmem, (of_decide_eq_true hlt).1⟩
  refine ⟨?_, ?_, ?_, ?_, fun U hU => ?_⟩
  · rw [List.filterMap_append, List.filterMap_cons_some hmsg, List.filterMap_nil]
    refine h.accepted.append ?_
    split
    · exact List.Sublist.refl _
    · exact List.nil_sublist _
  · intro m hm
    rcases List.mem_append.1 hm with hold | hnew
    · exact h.ranked m hold
    · split at hnew
      · next hacc =>
          rw [List.mem_singleton.1 hnew]
          exact Cache.encache_isOk_iff.1 ⟨true, hacc⟩
      · exact absurd hnew List.not_mem_nil
  · show (s.consumer.bufferQueue.encache lib msg).2.U = _
    rw [Cache.U_encache, HighWater.mark_concat, ← h.mark]
    unfold HighWater.raise
    rw [hid]
  · rw [acceptedIds_encache]
    refine List.pairwise_append.2 ⟨h.increasing, ?_, fun V hV U hU => ?_⟩
    · refine List.Pairwise.filter _ ?_
      cases msg.webSocketId lib with
      | none => exact List.Pairwise.nil
      | some U => exact List.pairwise_singleton _ U
    · exact (h.bounds V hV).2.trans_lt (of_decide_eq_true (List.mem_filter.1 hU).2).1
  · rcases htaken U hU with hold | ⟨hnew, hlt⟩
    · exact ⟨(h.bounds U hold).1, (h.bounds U hold).2.trans hraise⟩
    · refine ⟨?_, ?_⟩
      · rw [h.mark] at hlt
        exact (HighWater.le_mark _ _ _).trans_lt hlt
      · show U ≤ (s.consumer.bufferQueue.encache lib msg).2.U
        rw [Cache.U_encache]
        exact HighWater.key_le_raise _ hnew

theorem Filtered.skip (h : Filtered lib u₀ s) {r : Reception} (hmsg : r.message lib = none) :
    Filtered lib u₀ { s with received := s.received ++ [r] } where
  accepted := h.accepted.trans ((List.sublist_append_left _ _).filterMap _)
  ranked := h.ranked
  mark := by
    have hid : r.updateId lib = none := by rw [Reception.updateId, hmsg, Option.bind_none]
    rw [HighWater.mark_concat]
    unfold HighWater.raise
    rw [hid]
    exact h.mark
  increasing := h.increasing
  bounds := h.bounds

/-- **Step lemma.** Every step keeps what the filter has let through in order. -/
theorem Filtered.step (h : Filtered lib u₀ s) (hs : s.step lib a = some s') :
    Filtered lib u₀ s' := by
  cases a with
  | receive r =>
      obtain rfl := Option.some.inj hs
      rw [onData_message]
      cases hmsg : r.message lib with
      | none => exact h.skip hmsg
      | some msg => exact h.encache hmsg
  | run =>
      obtain rfl := Option.some.inj hs
      exact ⟨h.accepted, h.ranked, h.mark, h.increasing, h.bounds⟩
  | handle =>
      obtain ⟨t, ht, rfl⟩ := Option.map_eq_some_iff.1 hs
      have haccepted := Consumer.accepted_handle ht
      have hmark : t.bufferQueue.U = s.consumer.bufferQueue.U := by
        rcases Consumer.bufferQueue_handle ht with ⟨hsame, -⟩ | ⟨hdecache, -⟩
        · rw [hsame]
        · rw [hdecache]
          rfl
      have hids : t.acceptedIds lib = s.consumer.acceptedIds lib :=
        congrArg (List.filterMap (Msg.webSocketId lib)) haccepted
      refine ⟨?_, ?_, hmark.trans h.mark, ?_, ?_⟩
      · exact haccepted ▸ h.accepted
      · exact haccepted ▸ h.ranked
      · exact hids ▸ h.increasing
      · show ∀ U ∈ t.acceptedIds lib, u₀ < U ∧ U ≤ t.bufferQueue.U
        rw [hids, hmark]
        exact h.bounds

/-! ## With room in the queue -/

theorem acceptedIds_onData (h : Filtered lib u₀ s)
    (hroom : ¬ s.consumer.bufferQueue.cacheQueue.Full) (r : Reception) :
    (onData lib s.consumer r).acceptedIds lib = s.consumer.acceptedIds lib ++
      (r.updateId lib).toList.filter
        (HighWater.mark (Reception.updateId lib) u₀ s.received < ·) := by
  rw [onData_message, ← h.mark]
  unfold Reception.updateId
  cases hmsg : r.message lib with
  | none => simp
  | some msg =>
      rw [Option.bind_some]
      refine (acceptedIds_encache s.consumer msg).trans ?_
      simp only [hroom, not_false_eq_true, and_true]

/-- The ids accepted are all those above the mark when they came. -/
def TakesRecords (lib : JsonLib) (u₀ : UInt64) (s : Feed) : Prop :=
  s.consumer.acceptedIds lib = HighWater.records (Reception.updateId lib) u₀ s.received

/-- **Step lemma.** While there is room, every record is taken. -/
theorem TakesRecords.step (h : TakesRecords lib u₀ s) (hfiltered : Filtered lib u₀ s)
    (hroom : s.HasRoom a) (hs : s.step lib a = some s') : TakesRecords lib u₀ s' := by
  unfold TakesRecords at h ⊢
  cases a with
  | receive r =>
      obtain rfl := Option.some.inj hs
      rw [HighWater.records_concat, ← h]
      exact acceptedIds_onData hfiltered hroom r
  | run =>
      obtain rfl := Option.some.inj hs
      exact h
  | handle =>
      obtain ⟨t, ht, rfl⟩ := Option.map_eq_some_iff.1 hs
      exact (congrArg (List.filterMap (Msg.webSocketId lib)) (Consumer.accepted_handle ht)).trans h

/-! ## What the callbacks receive -/

theorem exists_run_onData (lib : JsonLib) (consumer : Consumer) (r : Reception) :
    ∃ acts, Execution.run (Consumer.step lib) consumer acts = some (onData lib consumer r) ∧
      Consumer.runs acts = 0 ∧ Consumer.handles acts = 0 := by
  rw [onData_message]
  cases r.message lib with
  | none => exact ⟨[], rfl, rfl, rfl⟩
  | some msg => exact ⟨[.encache msg], rfl, rfl, rfl⟩

variable {held : List Msg}

theorem updateId_of_booksOf {msgs : List Msg} {books : List OrderBook}
    (hmsgs : ∀ msg ∈ msgs, msg.type = .orderBook ∧ ∃ id, msg.rank lib = .ok id)
    (hbooks : books.map some = Consumer.booksOf .webSocket msgs) :
    books.map (OrderBook.updateId lib) = (msgs.filterMap (Msg.webSocketId lib)).map .ok := by
  induction msgs generalizing books with
  | nil =>
      rw [List.map_eq_nil_iff.1 hbooks]
      rfl
  | cons msg msgs ih =>
      obtain ⟨htype, id, hrank⟩ := hmsgs msg List.mem_cons_self
      have hrest := fun m hm => hmsgs m (List.mem_cons_of_mem msg hm)
      have hid := Msg.webSocketId_of_rank hrank
      cases id with
      | none =>
          have hsource := Msg.source_ne_of_rank hrank
          rw [List.filterMap_cons_none hid]
          refine ih hrest (hbooks.trans ?_)
          simp [Consumer.booksOf, Msg.isBookOf, hsource]
      | some U =>
          obtain ⟨hsource, book, hdata, hU⟩ := Msg.webSocketId_eq_some_iff.1 hid
          have hcons : Consumer.booksOf .webSocket (msg :: msgs) =
              some book :: Consumer.booksOf .webSocket msgs := by
            simp [Consumer.booksOf, Msg.isBookOf, htype, hsource, hdata]
          rw [hcons] at hbooks
          obtain ⟨first, rest, rfl, hfirst, htail⟩ := List.map_eq_cons_iff.1 hbooks
          obtain rfl := Option.some.inj hfirst
          rw [List.filterMap_cons_some hid, List.map_cons, List.map_cons, hU, ih hrest htail]

/-- The ids of the order books the WebSocket callback receives are those of the messages
    dispatched. -/
theorem callsWS_updateId (h : Filtered lib u₀ s) (hinv : Consumer.Inv s.consumer held) :
    s.consumer.callsWS.map (OrderBook.updateId lib) =
      (s.consumer.dispatched.filterMap (Msg.webSocketId lib)).map .ok := by
  refine updateId_of_booksOf (fun msg hmsg => ?_) hinv.callsWS
  have hacc := hinv.dispatched_prefix.subset hmsg
  obtain ⟨r, -, hr⟩ := List.mem_filterMap.1 (h.accepted.subset hacc)
  exact ⟨r.type_of_message hr, h.ranked msg hacc⟩

end Feed

end MarketFeed
