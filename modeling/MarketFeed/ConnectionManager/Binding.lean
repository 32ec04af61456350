import MarketFeed.ConnectionManager
import Mathlib.Data.List.Induction
import Mathlib.Logic.Function.Basic

set_option autoImplicit false

/-! # Which cache the handlers of a `ConnectionManager` are bound to

The manager keeps the cache it is bound to in `buffer_`, and each of its handlers keeps one of its
own in `buffer_queue_`, which `on_data` asserts not to be null. `bind_cache` writes both, but
`createConnection` never hands `buffer_` on: a handler created between two calls of `bind_cache`
has no cache until the second, and one created after the last has none at all.

`bound_iff` says after which sequences of the public operations all handlers are bound. -/

namespace MarketFeed

/-! ## `run` and `on_data` of a handler in its manager -/

namespace DerivedHandler

/-- `virtual void run()` -/
def run : DerivedHandler → DerivedHandler
  | restApi h => restApi { h with toRestApiHandler := h.toRestApiHandler.run }
  | webSocket h => webSocket h.run

end DerivedHandler

namespace ManagedHandler

def run (h : ManagedHandler) : ManagedHandler :=
  { h with derived := h.derived.run }

/-- `virtual void on_data(const std::string& data_str)` on the caches of the program; `none` where
    the assertion fails. -/
def onData (lib : JsonLib) (h : ManagedHandler) (caches : CacheId → Cache) (dataStr : Bytes) :
    Option (Except CppException Unit × (CacheId → Cache)) :=
  match h.bufferQueue with
  -- `assert(buffer_queue_ != nullptr)`
  | none => none
  | some bufferQueue =>
      let result := h.connectionHandler.onData lib (caches bufferQueue) dataStr
      some (result.1, Function.update caches bufferQueue result.2)

/-- The assertion fails exactly in a handler without a cache. -/
theorem onData_eq_none_iff (lib : JsonLib) (h : ManagedHandler) (caches : CacheId → Cache)
    (dataStr : Bytes) : h.onData lib caches dataStr = none ↔ h.bufferQueue = none := by
  unfold onData
  cases h.bufferQueue <;> simp

theorem onData_frame {lib : JsonLib} {h : ManagedHandler} {caches caches' : CacheId → Cache}
    {dataStr : Bytes} {result : Except CppException Unit}
    (hdata : h.onData lib caches dataStr = some (result, caches')) {other : CacheId}
    (hother : h.bufferQueue ≠ some other) : caches' other = caches other := by
  unfold onData at hdata
  cases hbound : h.bufferQueue with
  | none => simp [hbound] at hdata
  | some bufferQueue =>
      simp only [hbound, Option.some.injEq, Prod.mk.injEq] at hdata
      obtain ⟨-, rfl⟩ := hdata
      have hne : other ≠ bufferQueue := by
        rintro rfl
        exact hother hbound
      exact Function.update_of_ne hne _ _

end ManagedHandler

/-! ## Sequences of operations -/

/-- The public operations that change what a manager holds. -/
inductive ManagerAction where
  | createConnection (host port endpoint : String) (isWebsocket : Bool)
  | bindCache (buffer : Option CacheId)
deriving DecidableEq, Repr

namespace ConnectionManager

/-- `ConnectionManager::run` starts every handler. -/
def run (m : ConnectionManager) : ConnectionManager :=
  { m with handlers := m.handlers.map (·.run) }

/-- One operation. -/
def perform (m : ConnectionManager) : ManagerAction → ConnectionManager
  | .createConnection host port endpoint isWebsocket =>
      m.createConnection host port endpoint isWebsocket
  | .bindCache buffer => m.bindCache buffer

/-- Some operations in their order. -/
def performAll (m : ConnectionManager) (acts : List ManagerAction) : ConnectionManager :=
  acts.foldl perform m

/-- The cache passed to `bind_cache` last, if it has been called. -/
def lastBound (acts : List ManagerAction) : Option (Option CacheId) :=
  acts.foldl (fun last a =>
    match a with
    | .createConnection _ _ _ _ => last
    | .bindCache buffer => some buffer) none

/-- All handlers are bound to `buffer`, as is the manager, and whatever those that `run` starts
    receive, the assertion in `on_data` holds. -/
structure Bound (lib : JsonLib) (caches : CacheId → Cache) (m : ConnectionManager)
    (buffer : Option CacheId) : Prop where
  manager : m.buffer = buffer
  handlers : ∀ h ∈ m.handlers, h.bufferQueue = buffer
  asserts : ∀ h ∈ m.run.handlers, ∀ dataStr, h.onData lib caches dataStr ≠ none

variable {lib : JsonLib} {caches : CacheId → Cache}
variable {m : ConnectionManager} {acts : List ManagerAction} {buffer : Option CacheId}

@[simp] theorem performAll_concat (m : ConnectionManager) (acts : List ManagerAction)
    (a : ManagerAction) : m.performAll (acts ++ [a]) = (m.performAll acts).perform a := by
  rw [performAll, List.foldl_append]
  rfl

@[simp] theorem lastBound_concat_createConnection (host port endpoint : String)
    (isWebsocket : Bool) :
    lastBound (acts ++ [.createConnection host port endpoint isWebsocket]) = lastBound acts := by
  rw [lastBound, List.foldl_append]
  rfl

@[simp] theorem lastBound_concat_bindCache (buffer : Option CacheId) :
    lastBound (acts ++ [.bindCache buffer]) = some buffer := by
  rw [lastBound, List.foldl_append]
  rfl

/-- The manager itself is bound to the cache passed last, whatever has been created since. -/
theorem buffer_performAll (hlast : lastBound acts = some buffer) :
    (m.performAll acts).buffer = buffer := by
  induction acts using List.reverseRecOn with
  | nil => exact absurd hlast (by simp [lastBound])
  | append_singleton acts a ih =>
      rw [performAll_concat]
      cases a with
      | createConnection host port endpoint isWebsocket =>
          rw [lastBound_concat_createConnection] at hlast
          rw [perform, createConnection_eq]
          exact ih hlast
      | bindCache buffer' =>
          rw [lastBound_concat_bindCache] at hlast
          exact Option.some.inj hlast

/-- No operation removes a handler, and `createConnection` adds one. -/
theorem handlers_performAll_eq_nil_iff :
    (m.performAll acts).handlers = [] ↔
      m.handlers = [] ∧ ∀ a ∈ acts, ∃ buffer, a = .bindCache buffer := by
  induction acts using List.reverseRecOn with
  | nil => simp [performAll]
  | append_singleton acts a ih =>
      rw [performAll_concat]
      cases a with
      | createConnection host port endpoint isWebsocket =>
          rw [perform, createConnection_eq]
          simp
      | bindCache buffer' =>
          rw [perform, bindCache, List.map_eq_nil_iff, ih]
          simp [or_imp, forall_and]

theorem handlers_new_eq_nil_iff (symbol : String) (ioContext : IoContextRef) (hostRestapi
    portRestapi endpointRestapi hostWs portWs endpointWs : String)
    (replicasRestapi replicasWs periodRestapi : Int32) :
    (new symbol ioContext hostRestapi portRestapi endpointRestapi hostWs portWs endpointWs
        replicasRestapi replicasWs periodRestapi).handlers = [] ↔
      replicasRestapi ≤ 0 ∧ replicasWs ≤ 0 := by
  rw [new_eq]
  simp [append, init]

/-! ## When all handlers are bound -/

theorem Bound.of_nil (hbuffer : m.buffer = buffer) (hnil : m.handlers = []) :
    m.Bound lib caches buffer where
  manager := hbuffer
  handlers h hh := absurd hh (by simp [hnil])
  asserts h hh := absurd hh (by simp [run, hnil])

theorem bound_bindCache (m : ConnectionManager) (cache : CacheId) :
    (m.bindCache (some cache)).Bound lib caches (some cache) where
  manager := rfl
  handlers h hh := by
    obtain ⟨h, -, rfl⟩ := List.mem_map.1 hh
    rfl
  asserts h hh dataStr := by
    obtain ⟨bound, hbound, rfl⟩ := List.mem_map.1 hh
    obtain ⟨h, -, rfl⟩ := List.mem_map.1 hbound
    rw [Ne, ManagedHandler.onData_eq_none_iff]
    exact Option.some_ne_none cache

/-- A handler without a cache fails the assertion once `run` has started it. -/
theorem Bound.bufferQueue_ne_none (hbound : m.Bound lib caches buffer) {h : ManagedHandler}
    (hh : h ∈ m.handlers) : h.bufferQueue ≠ none := by
  intro hnone
  have hassert := hbound.asserts h.run (List.mem_map_of_mem hh) []
  rw [Ne, ManagedHandler.onData_eq_none_iff] at hassert
  exact hassert hnone

/-- A handler just created has no cache, whatever the manager is bound to. -/
theorem not_bound_createConnection (m : ConnectionManager) (host port endpoint : String)
    (isWebsocket : Bool) :
    ¬ (m.createConnection host port endpoint isWebsocket).Bound lib caches buffer := by
  intro hbound
  rw [createConnection_eq] at hbound
  refine hbound.bufferQueue_ne_none (List.mem_append_right _ (List.mem_singleton.2 rfl)) ?_
  rfl

/-- Once `bind_cache` has been called, all handlers are bound exactly if there are none, or the call
    was the last operation and it passed a cache. -/
theorem bound_performAll_iff (hlast : lastBound acts = some buffer) :
    (m.performAll acts).Bound lib caches buffer ↔
      (m.performAll acts).handlers = [] ∨
        acts.getLast? = some (.bindCache buffer) ∧ buffer ≠ none := by
  constructor
  · intro hbound
    rcases List.eq_nil_or_concat' acts with rfl | ⟨before, a, rfl⟩
    · exact absurd hlast (by simp [lastBound])
    · cases a with
      | createConnection host port endpoint isWebsocket =>
          rw [performAll_concat] at hbound
          exact absurd hbound (not_bound_createConnection _ _ _ _ _)
      | bindCache buffer' =>
          obtain rfl : buffer' = buffer := by simpa using hlast
          cases hhandlers : (m.performAll (before ++ [.bindCache buffer'])).handlers with
          | nil => exact Or.inl rfl
          | cons h rest =>
              have hh : h ∈ (m.performAll (before ++ [.bindCache buffer'])).handlers := by
                rw [hhandlers]
                exact List.mem_cons_self
              refine Or.inr ⟨List.getLast?_concat, ?_⟩
              rw [← hbound.handlers h hh]
              exact hbound.bufferQueue_ne_none hh
  · rintro (hnil | ⟨hbind, hcache⟩)
    · exact .of_nil (buffer_performAll hlast) hnil
    · obtain ⟨before, rfl⟩ := List.getLast?_eq_some_iff.1 hbind
      obtain ⟨cache, rfl⟩ := Option.ne_none_iff_exists'.1 hcache
      rw [performAll_concat]
      exact bound_bindCache _ cache

/-- **Which sequences leave every handler bound.** Once `bind_cache` has been called, all handlers
    are bound to the cache passed last, and the assertion in `on_data` holds in each, exactly if
    that call was the last operation and did not pass a null pointer, or there has never been a
    handler. -/
theorem bound_iff (symbol : String) (ioContext : IoContextRef) (hostRestapi portRestapi
    endpointRestapi hostWs portWs endpointWs : String)
    (replicasRestapi replicasWs periodRestapi : Int32) (acts : List ManagerAction)
    (buffer : Option CacheId) (hlast : lastBound acts = some buffer) :
    ((new symbol ioContext hostRestapi portRestapi endpointRestapi hostWs portWs endpointWs
        replicasRestapi replicasWs periodRestapi).performAll acts).Bound lib caches buffer ↔
      (acts.getLast? = some (.bindCache buffer) ∧ buffer ≠ none) ∨
        (replicasRestapi ≤ 0 ∧ replicasWs ≤ 0 ∧ ∀ a ∈ acts, ∃ buffer, a = .bindCache buffer) := by
  rw [bound_performAll_iff hlast, handlers_performAll_eq_nil_iff, handlers_new_eq_nil_iff, or_comm,
    and_assoc]

/-- A manager with one REST handler, bound as `Client::setup` binds it. -/
theorem bound_construct_then_bind :
    ((new "btcusdt" ⟨0, 0⟩ "fapi.binance.com" "443" "/fapi/v1/depth" "fstream.binance.com" "443"
      "/ws/btcusdt@depth" 1 0 1).performAll [.bindCache (some 0)]).Bound .sample
        (fun _ => .fresh .default 0) (some 0) :=
  (bound_iff "btcusdt" ⟨0, 0⟩ "fapi.binance.com" "443" "/fapi/v1/depth" "fstream.binance.com" "443"
    "/ws/btcusdt@depth" 1 0 1 [.bindCache (some 0)] (some 0) rfl).2 (Or.inl ⟨rfl, by simp⟩)

/-- The same manager creates a WebSocket handler once it is bound: `run` starts the handler, and the
    first payload it receives fails the assertion. -/
theorem createConnection_after_bindCache_asserts : ∃ m h,
    (new "btcusdt" ⟨0, 0⟩ "fapi.binance.com" "443" "/fapi/v1/depth" "fstream.binance.com" "443"
      "/ws/btcusdt@depth" 1 0 1).performAll [.bindCache (some 0),
        .createConnection "fstream.binance.com" "443" "/ws/btcusdt@depth" true] = m ∧
      m.buffer = some 0 ∧ h ∈ m.run.handlers ∧ h.bufferQueue = none ∧
      h.onData .sample (fun _ => .fresh .default 0) [0x7b, 0x7d] = none := by
  refine ⟨_, _, rfl, rfl, List.mem_cons_of_mem _ (List.mem_singleton.2 rfl), rfl, rfl⟩

end ConnectionManager

end MarketFeed
