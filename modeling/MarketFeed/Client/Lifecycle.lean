import MarketFeed.Client
import MarketFeed.ConnectionManager.Binding
import Mathlib.Logic.Function.Iterate
import Mathlib.Tactic.Ring

set_option autoImplicit false

/-! # The lifecycle of a `Client`: construction, `setup`, `run`, destruction

`n_instrument_` counts what `setup` has made: the `io_context`s of `*iocs_`, the managers, and the
threads `run` starts. The destructor counts up to it again. But the constructor leaves the member
as it finds it, and a second `setup` replaces the `io_context`s and adds to the managers.

`inStep_iff` says in which lifecycles the four members agree at destruction. -/

namespace MarketFeed

/-- A client with the threads `run` has started, each by the index of its `io_context`. -/
structure StartedClient extends Client where
  threads : List ℕ

namespace Client

/-- `(*iocs_)[i]`; `none` where there is no such element, and the behaviour is undefined. -/
def context (client : Client) (i : ℕ) : Option IoContextRef :=
  match client.iocs with
  | none => none
  | some iocs => if i < iocs.size.toNat then some { vector := iocs.vector, index := i } else none

/-- `void Client::run()`; `none` where an assertion fails. The thread started for `i` runs
    `(*iocs_)[i]`. -/
def run (client : Client) : Option StartedClient :=
  if client.bufferQueue ≠ none ∧ 0 < client.connectionManagers.length ∧ client.consumer ≠ none then
    let connectionManagers := client.connectionManagers.map ConnectionManager.run
    let client := { client with connectionManagers }
    let threads := forInt client.nInstrument (fun i threads => threads ++ [i]) []
    some { client with threads }
  else none

/-- The loop of `~Client`: the `io_context`s it stops, or `none` where it indexes one that does not
    exist. -/
def destroy (client : Client) : Option (List IoContextRef) :=
  forInt client.nInstrument (fun i stopped =>
    match stopped, client.context i with
    | some stopped, some ioContext => some (stopped ++ [ioContext])
    | _, _ => none) (some [])

/-- `setup` called `k` times, whatever exceptions it throws. -/
def setups (k : ℕ) (client : Client) : Client := (fun client => client.setup.2)^[k] client

/-- What `setup` puts into `n_instrument_`. -/
def numInstruments (cfg : Config) : Int32 := intOfSize (.ofNat cfg.subscriptions.length)

end Client

/-- What becomes of a client between its constructor and its destructor. -/
structure Lifecycle where
  setups : ℕ
  runs : Bool
  /-- `run` is called on a client that has been set up. -/
  setUp : runs = true → 0 < setups

/-- The client that `~Client` finds; there is none where `run` fails an assertion. -/
def Lifecycle.client (l : Lifecycle) (cfg : Config) (memory : Int32) (cache : CacheId) :
    Option StartedClient :=
  let client := (Client.new cfg memory cache).setups l.setups
  if l.runs then client.run else some { client with threads := [] }

/-- The members that count agree, and every handler refers to an `io_context` that `~Client` stops,
    as do the threads, if there are any. -/
structure StartedClient.InStep (client : StartedClient) : Prop where
  contexts : client.nInstrument.toInt = (client.iocs.elim 0 (·.size.toNat) : ℕ)
  managers : client.nInstrument.toInt = client.connectionManagers.length
  stopped : ∃ stopped, client.destroy = some stopped ∧
    (∀ m ∈ client.connectionManagers, ∀ h ∈ m.handlers, h.ioContext ∈ stopped) ∧
    (client.threads = [] ∨ client.threads.map client.context = stopped.map some)

namespace Client

/-! ## What the calls do -/

/-- There are never more instruments than subscriptions. -/
theorem toNat_numInstruments_le (cfg : Config) :
    (numInstruments cfg).toInt.toNat ≤ cfg.subscriptions.length := by
  unfold numInstruments
  rw [toInt_intOfSize_eq_bmod, Int.bmod_def]
  split <;> omega

/-- `setup` either makes one `io_context` and one manager for each instrument, or it throws and
    leaves a negative count behind. -/
theorem setup_cases (client : Client) :
    (0 ≤ (numInstruments client.cfg).toInt ∧ ∃ iocs : IoContexts,
      iocs.vector = client.iocs.elim 0 (·.vector + 1) ∧
      iocs.size = sizeOfInt (numInstruments client.cfg) ∧
      client.setup.2 = { client.append ((client.cfg.subscriptions.take
          (numInstruments client.cfg).toInt.toNat).mapIdx (client.connectionManager iocs)) with
        nInstrument := numInstruments client.cfg
        iocs := some iocs
        consumer := some client.consumerBinding }) ∨
    (numInstruments client.cfg).toInt < 0 ∧
      client.setup.2 = { client with nInstrument := numInstruments client.cfg } := by
  unfold setup numInstruments
  simp only [makeIoContexts_eq, forInt_setupInstrument]
  by_cases hn : 0 ≤ (intOfSize (.ofNat client.cfg.subscriptions.length)).toInt
  · rw [if_pos hn]
    exact Or.inl ⟨hn, _, rfl, rfl, rfl⟩
  · rw [if_neg hn]
    exact Or.inr ⟨Int.not_le.1 hn, rfl⟩

theorem run_eq_some {client : Client} {started : StartedClient} (h : client.run = some started) :
    started = { client with
      connectionManagers := client.connectionManagers.map ConnectionManager.run
      threads := List.range client.nInstrument.toInt.toNat } := by
  unfold run at h
  split at h
  · obtain rfl := Option.some.inj h
    congr 1
    refine forInt_rule (fun i threads => threads = List.range i) rfl ?_
    rintro i _ - rfl
    rw [List.range_succ]
  · exact absurd h (by simp)

theorem ioContext_of_mem_run {m : ConnectionManager} {h : ManagedHandler}
    (hh : h ∈ m.run.handlers) : ∃ h' ∈ m.handlers, h'.ioContext = h.ioContext := by
  obtain ⟨h', hh', rfl⟩ := List.mem_map.1 hh
  exact ⟨h', hh', rfl⟩

/-- The destructor stops the first `n_instrument_` elements of `*iocs_`, if there are as many. -/
theorem destroy_eq {client : Client} {iocs : IoContexts} (hiocs : client.iocs = some iocs)
    (hsize : client.nInstrument.toInt.toNat ≤ iocs.size.toNat) :
    client.destroy = some ((List.range client.nInstrument.toInt.toNat).map fun i =>
      { vector := iocs.vector, index := i }) := by
  refine forInt_rule (fun i stopped => stopped = some ((List.range i).map fun i =>
    ({ vector := iocs.vector, index := i } : IoContextRef))) rfl ?_
  rintro i _ hi rfl
  have hcontext : client.context i = some { vector := iocs.vector, index := i } := by
    unfold context
    rw [hiocs]
    exact if_pos (Nat.lt_of_lt_of_le hi hsize)
  rw [hcontext, List.range_succ, List.map_append]
  rfl

/-! ## Any number of calls of `setup` -/

theorem setups_succ (k : ℕ) (client : Client) :
    client.setups (k + 1) = (client.setups k).setup.2 :=
  Function.iterate_succ_apply' _ _ _

theorem cfg_setups (k : ℕ) (client : Client) : (client.setups k).cfg = client.cfg := by
  induction k with
  | zero => rfl
  | succ k ih =>
      rw [setups_succ]
      obtain ⟨-, iocs, -, -, hsetup⟩ | ⟨-, hsetup⟩ := (client.setups k).setup_cases
      · rw [hsetup]
        exact ih
      · rw [hsetup]
        exact ih

theorem nInstrument_setups_succ (k : ℕ) (client : Client) :
    (client.setups (k + 1)).nInstrument = numInstruments client.cfg := by
  rw [setups_succ]
  obtain ⟨-, iocs, -, -, hsetup⟩ | ⟨-, hsetup⟩ := (client.setups k).setup_cases
  · rw [hsetup, cfg_setups]
  · rw [hsetup, cfg_setups]

theorem setups_succ_of_nonneg {client : Client} (hn : 0 ≤ (numInstruments client.cfg).toInt)
    (k : ℕ) : ∃ iocs : IoContexts, (client.setups (k + 1)).iocs = some iocs ∧
      iocs.size = sizeOfInt (numInstruments client.cfg) ∧
      (client.setups (k + 1)).connectionManagers = (client.setups k).connectionManagers ++
        (client.cfg.subscriptions.take (numInstruments client.cfg).toInt.toNat).mapIdx
          ((client.setups k).connectionManager iocs) := by
  rw [setups_succ]
  obtain ⟨-, iocs, -, hsize, hsetup⟩ | ⟨hcount, -⟩ := (client.setups k).setup_cases
  · rw [cfg_setups] at hsize hsetup
    rw [hsetup]
    exact ⟨iocs, rfl, hsize, rfl⟩
  · rw [cfg_setups] at hcount
    omega

theorem length_connectionManagers_setups {client : Client}
    (hn : 0 ≤ (numInstruments client.cfg).toInt) (k : ℕ) :
    (client.setups k).connectionManagers.length =
      client.connectionManagers.length + k * (numInstruments client.cfg).toInt.toNat := by
  induction k with
  | zero => simp [setups]
  | succ k ih =>
      obtain ⟨iocs, -, -, hmanagers⟩ := setups_succ_of_nonneg hn k
      rw [hmanagers, List.length_append, ih, List.length_mapIdx, List.length_take,
        Nat.min_eq_left (toNat_numInstruments_le client.cfg)]
      ring

theorem ioContext_setups_one {client : Client} (hn : 0 ≤ (numInstruments client.cfg).toInt)
    (hnone : client.connectionManagers = []) {iocs : IoContexts}
    (hiocs : (client.setups 1).iocs = some iocs) :
    ∀ m ∈ (client.setups 1).connectionManagers, ∀ h ∈ m.handlers,
      ∃ i < (numInstruments client.cfg).toInt.toNat,
        h.ioContext = { vector := iocs.vector, index := i } := by
  intro m hm h hh
  obtain ⟨iocs', hmade, -, hmanagers⟩ := setups_succ_of_nonneg hn 0
  obtain rfl := Option.some.inj (hiocs.symm.trans hmade)
  have hfirst : (client.setups 0).connectionManagers = [] := hnone
  rw [hmanagers, hfirst, List.nil_append] at hm
  obtain ⟨i, hi, rfl⟩ := List.mem_mapIdx.1 hm
  refine ⟨i, ?_, (members_of_mem_handlers hh).2.2⟩
  rw [List.length_take] at hi
  omega

/-- `setup` binds the handlers of every manager after the last of them has been created, so the
    assertion in `on_data` holds in all of them, however often `setup` is called. -/
theorem bound_of_mem_setups {lib : JsonLib} {caches : CacheId → Cache} (cfg : Config)
    (memory : Int32) (cache : CacheId) (k : ℕ) :
    ((Client.new cfg memory cache).setups k).bufferQueue = some cache ∧
      ∀ m ∈ ((Client.new cfg memory cache).setups k).connectionManagers,
        m.Bound lib caches (some cache) := by
  induction k with
  | zero => exact ⟨rfl, fun m hm => absurd hm List.not_mem_nil⟩
  | succ k ih =>
      obtain ⟨hcache, hbound⟩ := ih
      rw [setups_succ]
      obtain ⟨-, iocs, -, -, hsetup⟩ | ⟨-, hsetup⟩ :=
        ((Client.new cfg memory cache).setups k).setup_cases
      · rw [hsetup]
        refine ⟨hcache, fun m hm => ?_⟩
        rcases List.mem_append.1 hm with hold | hnew
        · exact hbound m hold
        · obtain ⟨i, hi, rfl⟩ := List.mem_mapIdx.1 hnew
          unfold connectionManager
          rw [hcache]
          exact ConnectionManager.bound_bindCache _ cache
      · rw [hsetup]
        exact ⟨hcache, hbound⟩

theorem toInt_numInstruments_nonneg_iff (cfg : Config) :
    0 ≤ (numInstruments cfg).toInt ↔ cfg.subscriptions.length % 2 ^ 32 < 2 ^ 31 := by
  unfold numInstruments
  rw [toInt_intOfSize_eq_bmod, Int.bmod_def]
  split <;> omega

theorem toInt_numInstruments_eq_zero_iff (cfg : Config) :
    (numInstruments cfg).toInt = 0 ↔ cfg.subscriptions.length % 2 ^ 32 = 0 := by
  unfold numInstruments
  rw [toInt_intOfSize_eq_bmod, Int.bmod_def]
  split <;> omega

end Client

/-! ## Which lifecycles keep the members in step -/

namespace StartedClient

/-- The client has the threads of `client`'s instruments or none, and other members as `client` has
    them, except that its handlers may have been started. -/
structure MadeFrom (started : StartedClient) (client : Client) : Prop where
  nInstrument : started.nInstrument = client.nInstrument
  iocs : started.iocs = client.iocs
  managers : started.connectionManagers.length = client.connectionManagers.length
  handlers : ∀ m ∈ started.connectionManagers, ∀ h ∈ m.handlers,
    ∃ m' ∈ client.connectionManagers, ∃ h' ∈ m'.handlers, h'.ioContext = h.ioContext
  threads : started.threads = [] ∨
    started.threads = List.range started.nInstrument.toInt.toNat

variable {started : StartedClient} {client : Client}

/-- As many `io_context`s as managers, and every handler on one of them. -/
theorem InStep.of_contexts {iocs : IoContexts} (hiocs : started.iocs = some iocs)
    (hsize : iocs.size = sizeOfInt started.nInstrument)
    (hmanagers : started.nInstrument.toInt = started.connectionManagers.length)
    (hhandlers : ∀ m ∈ started.connectionManagers, ∀ h ∈ m.handlers,
      ∃ i < started.nInstrument.toInt.toNat,
        h.ioContext = { vector := iocs.vector, index := i })
    (hthreads : started.threads = [] ∨
      started.threads = List.range started.nInstrument.toInt.toNat) : started.InStep := by
  have hcount := toNat_sizeOfInt started.nInstrument
  rw [if_pos (by omega), ← hsize] at hcount
  refine ⟨?_, hmanagers, _, Client.destroy_eq hiocs (by omega), ?_, ?_⟩
  · rw [hiocs]
    exact hcount.symm
  · intro m hm h hh
    obtain ⟨i, hi, hcontext⟩ := hhandlers m hm h hh
    rw [hcontext]
    exact List.mem_map_of_mem (List.mem_range.2 hi)
  · rcases hthreads with hnone | hall
    · exact Or.inl hnone
    · refine Or.inr ?_
      rw [hall, List.map_map]
      refine List.map_congr_left fun i hi => ?_
      have hlt := List.mem_range.1 hi
      unfold Client.context
      rw [hiocs]
      exact if_pos (by omega)

/-- A client that has never been set up is in step if its count happens to be zero. -/
theorem MadeFrom.inStep_iff_of_not_setUp (h : started.MadeFrom client) (hiocs : client.iocs = none)
    (hnil : client.connectionManagers = []) : started.InStep ↔ client.nInstrument = 0 := by
  have hnone := h.iocs.trans hiocs
  have hempty : started.connectionManagers = [] := by
    rw [← List.length_eq_zero_iff, h.managers, hnil]
    rfl
  rw [← h.nInstrument]
  constructor
  · intro hstep
    have hzero := hstep.contexts
    rw [hnone] at hzero
    exact Int32.toInt_inj.1 hzero
  · intro hzero
    have hthreads := h.threads
    rw [hzero] at hthreads
    refine ⟨?_, ?_, [], ?_, ?_, Or.inl (hthreads.elim id id)⟩
    · rw [hnone, hzero]
      rfl
    · rw [hempty, hzero]
      rfl
    · unfold Client.destroy
      rw [hzero]
      rfl
    · rw [hempty]
      exact fun m hm => absurd hm List.not_mem_nil

/-- A client that has been set up is in step if there is nothing to set up, or it was set up once
    and without an exception. -/
theorem MadeFrom.inStep_iff_of_setUp {k : ℕ} (h : started.MadeFrom (client.setups (k + 1)))
    (hnil : client.connectionManagers = []) :
    started.InStep ↔ (Client.numInstruments client.cfg).toInt = 0 ∨
      k = 0 ∧ 0 ≤ (Client.numInstruments client.cfg).toInt := by
  have hcount := h.nInstrument
  rw [Client.nInstrument_setups_succ] at hcount
  by_cases hn : 0 ≤ (Client.numInstruments client.cfg).toInt
  · have hlength := h.managers
    rw [Client.length_connectionManagers_setups hn, hnil, List.length_nil, Nat.zero_add] at hlength
    constructor
    · intro hstep
      have hmanagers := hstep.managers
      rw [hcount, hlength] at hmanagers
      have hmul : (k + 1) * (Client.numInstruments client.cfg).toInt.toNat =
          1 * (Client.numInstruments client.cfg).toInt.toNat := by omega
      rcases Nat.eq_zero_or_pos (Client.numInstruments client.cfg).toInt.toNat with hzero | hpos
      · exact Or.inl (by omega)
      · exact Or.inr ⟨by have := Nat.eq_of_mul_eq_mul_right hpos hmul; omega, hn⟩
    · intro hright
      obtain ⟨iocs, hmade, hsize, -⟩ := Client.setups_succ_of_nonneg hn k
      refine .of_contexts (h.iocs.trans hmade) (hsize.trans (by rw [hcount])) ?_ ?_ h.threads
      · rw [hcount, hlength]
        rcases hright with hzero | ⟨rfl, -⟩
        · simp [hzero]
        · omega
      · intro m hm handler hhandler
        obtain ⟨m', hm', h', hh', hcontext⟩ := h.handlers m hm handler hhandler
        rcases hright with hzero | ⟨rfl, -⟩
        · rw [hzero] at hlength
          have hempty := List.length_eq_zero_iff.1 (hlength.trans (Nat.mul_zero _))
          rw [hempty] at hm
          exact absurd hm List.not_mem_nil
        · rw [hcount, ← hcontext]
          exact Client.ioContext_setups_one hn hnil hmade m' hm' h' hh'
  · constructor
    · intro hstep
      have hmanagers := hstep.managers
      rw [hcount] at hmanagers
      omega
    · omega

end StartedClient

namespace Lifecycle

variable {l : Lifecycle} {cfg : Config} {memory : Int32} {cache : CacheId} {client : StartedClient}

theorem madeFrom_client (h : l.client cfg memory cache = some client) :
    client.MadeFrom ((Client.new cfg memory cache).setups l.setups) := by
  unfold Lifecycle.client at h
  split at h
  · obtain rfl := Client.run_eq_some h
    refine ⟨rfl, rfl, List.length_map _, fun m hm handler hh => ?_, Or.inr rfl⟩
    obtain ⟨m', hm', rfl⟩ := List.mem_map.1 hm
    exact ⟨m', hm', Client.ioContext_of_mem_run hh⟩
  · obtain rfl := Option.some.inj h
    exact ⟨rfl, rfl, rfl, fun m hm handler hh => ⟨m, hm, handler, hh, rfl⟩, Or.inl rfl⟩

/-- **Which lifecycles keep the members in step.** At destruction there are as many `io_context`s
    and managers as `n_instrument_` says, all handlers and threads are on them, and `~Client`
    indexes no other, exactly if `setup` was called once and its count was not negative, or there
    was nothing to set up, or `setup` was never called and the memory of `n_instrument_` happened to
    be zero. -/
theorem inStep_iff (l : Lifecycle) (cfg : Config) (memory : Int32) (cache : CacheId)
    (client : StartedClient) (h : l.client cfg memory cache = some client) :
    client.InStep ↔
      (l.setups = 0 ∧ memory = 0) ∨
        (0 < l.setups ∧ cfg.subscriptions.length % 2 ^ 32 = 0) ∨
        (l.setups = 1 ∧ cfg.subscriptions.length % 2 ^ 32 < 2 ^ 31) := by
  rw [← Client.toInt_numInstruments_nonneg_iff, ← Client.toInt_numInstruments_eq_zero_iff]
  have hmade := madeFrom_client h
  cases hk : l.setups with
  | zero =>
      rw [hk] at hmade
      rw [hmade.inStep_iff_of_not_setUp rfl rfl]
      have hmemory : ((Client.new cfg memory cache).setups 0).nInstrument = memory := rfl
      rw [hmemory]
      simp
  | succ k =>
      rw [hk] at hmade
      rw [hmade.inStep_iff_of_setUp rfl]
      have hcfg : (Client.new cfg memory cache).cfg = cfg := rfl
      rw [hcfg]
      simp

/-- Set up once and run. -/
theorem inStep_once : ∃ client,
    Lifecycle.client ⟨1, true, by decide⟩ Client.testnet 7 0 = some client ∧ client.InStep :=
  ⟨_, rfl, (inStep_iff ⟨1, true, by decide⟩ Client.testnet 7 0 _ rfl).2 (by decide)⟩

/-- A client that is destroyed without having been set up, on memory that held a one: the destructor
    dereferences the null pointer `iocs_`. And a client with one subscription that is set up twice:
    it has two managers for one `io_context`, and the handler of the first manager refers to an
    element of the vector that the second `setup` has replaced. -/
theorem not_inStep_never_and_twice :
    (∃ client, Lifecycle.client ⟨0, false, by decide⟩ Client.testnet 1 0 = some client ∧
      client.nInstrument = 1 ∧ client.iocs = none ∧ client.destroy = none) ∧
    ∃ client m m' h, Lifecycle.client ⟨2, false, by decide⟩ Client.testnet 0 0 = some client ∧
      client.nInstrument = 1 ∧ client.connectionManagers = [m, m'] ∧ m.handlers = [h] ∧
      h.ioContext = ⟨0, 0⟩ ∧ client.destroy = some [⟨1, 0⟩] :=
  ⟨⟨_, rfl, rfl, rfl, rfl⟩, _, _, _, _, rfl, rfl, rfl, rfl, rfl, rfl⟩

end Lifecycle

end MarketFeed
