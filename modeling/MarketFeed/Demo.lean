import MarketFeed.Config.Load
import MarketFeed.Nlohmann.Documents
import MarketFeed.Program.Ending

set_option autoImplicit false

/-! # `DemoClient` (`app/main.cpp`)

The client of the program: its callbacks log the member `"E"` of every order book. They read it with
the `const` subscript, which does not insert a missing key but asserts that it is there, and let
every exception out. So one text without a number under `"E"` is enough to end the program, and
`ends_within` says how soon. -/

namespace MarketFeed

open Execution Grammar

/-- The `const` `operator[](key)`. -/
def Json.constSubscript (j : Json) (key : String) : Except Ending Json :=
  match j with
  | .object members =>
      match members.lookup key with
      | some v => .ok v
      -- `JSON_ASSERT(it != m_data.m_value.object->end())`
      | none => .error .assertion
  | j =>
      .error (.exception
        (.typeError 305 ("cannot use operator[] with a string argument with " ++ j.typeName)))

namespace DemoClient

/-- What a callback logs. -/
def line (lib : JsonLib) (label : String) (orderBook : OrderBook) : Except Ending String := do
  let e ← orderBook.data.constSubscript "E"
  let n ← (e.toUInt64 lib).mapError .exception
  return label ++ orderBook.symbol ++ "]  E: " ++ stdToString n

/-- `void onOrderBookWS(const OrderBook& orderBook)` -/
def onOrderBookWS (lib : JsonLib) (orderBook : OrderBook) : Except Ending String :=
  line lib "onOrderBookWS----[" orderBook

/-- `void onOrderBookREST(const OrderBook& orderBook)` -/
def onOrderBookREST (lib : JsonLib) (orderBook : OrderBook) : Except Ending String :=
  line lib "onOrderBookREST--[" orderBook

/-- The line a callback logs, unless it ends the program. -/
def log (lib : JsonLib) : ClientCallback → OrderBook → Except Ending String
  | .onOrderBookWS => onOrderBookWS lib
  | .onOrderBookREST => onOrderBookREST lib

def callbacks (lib : JsonLib) : Callbacks :=
  fun callback orderBook => (log lib callback orderBook).map fun _ => ()

/-- What ends `main` before the threads run. -/
inductive StartFailure where
  /-- An exception leaves `load_config`. -/
  | config (e : ConfigException)
  /-- An exception leaves `setup`. -/
  | setup (e : SetupException)
  /-- An assertion of `run` fails. -/
  | assertion

/-- `int main()`, up to where the threads run. What the source does not initialise is what the
    memory held: the numbers of `Setup`, `n_instrument_`, and `U_` of the cache. -/
def main (files : String → Option IniFile) (memory : Config.Memory) (nInstrument : Int32)
    (u₀ : UInt64) (cache : CacheId) : Except StartFailure Program :=
  match Config.loadConfig files memory "../config/setup.ini" "../config/subscription.ini" with
  | .error e => .error (.config e)
  | .ok cfg =>
      match (Client.new cfg nInstrument cache).setup with
      | (.error e, _) => .error (.setup e)
      | (.ok (), client) =>
          match client.run with
          | none => .error .assertion
          | some started => .ok (.start started u₀)

/-- A step of the demo. -/
abbrev step (lib : JsonLib) : Program → ProgramAction → Option Program :=
  Program.step lib (callbacks lib)

/-! ## Starting -/

section

variable {files : String → Option IniFile} {memory : Config.Memory} {nInstrument : Int32}
variable {u₀ : UInt64} {cache : CacheId}

/-- The program that `main` starts is that of a client that has been set up. -/
theorem main_eq_ok {s : Program} (h : main files memory nInstrument u₀ cache = .ok s) :
    ∃ cfg client started, (Client.new cfg nInstrument cache).setup = (.ok (), client) ∧
      client.run = some started ∧ s = .start started u₀ := by
  unfold main at h
  split at h
  · exact absurd h (by simp)
  · next cfg hcfg =>
      split at h
      · exact absurd h (by simp)
      · next client hsetup =>
          split at h
          · exact absurd h (by simp)
          · next started hstarted =>
              exact ⟨cfg, client, started, hsetup, hstarted, (Except.ok.inj h).symm⟩

/-- `setup` returns exactly if the number of subscriptions, as an `int`, is not negative. -/
theorem setup_isOk_iff (client : Client) :
    (∃ client', client.setup = (.ok (), client')) ↔
      0 ≤ (Client.numInstruments client.cfg).toInt := by
  unfold Client.setup Client.numInstruments
  simp only [Client.makeIoContexts_eq]
  split_ifs with hn
  · exact iff_of_true ⟨_, rfl⟩ hn
  · exact iff_of_false (by simp) hn

theorem run_isSome_iff {cfg : Config} {client : Client}
    (h : (Client.new cfg nInstrument cache).setup = (.ok (), client)) :
    (∃ started, client.run = some started) ↔ 0 < (Client.numInstruments cfg).toInt := by
  have hle := Client.toNat_numInstruments_le cfg
  obtain ⟨iocs, -, rfl⟩ := Client.setup_ok h
  have hlength : 0 < ((cfg.subscriptions.take (Client.numInstruments cfg).toInt.toNat).mapIdx
      ((Client.new cfg nInstrument cache).connectionManager iocs)).length ↔
        0 < (Client.numInstruments cfg).toInt := by
    rw [List.length_mapIdx, List.length_take, Nat.min_eq_left hle]
    omega
  unfold Client.run
  rw [← hlength]
  split
  · next hrun => exact iff_of_true ⟨_, rfl⟩ hrun.2.1
  · next hrun =>
      refine iff_of_false (by simp) fun hpos => hrun ?_
      exact ⟨Option.some_ne_none _, hpos, Option.some_ne_none _⟩

theorem length_subscriptions {setupFile subscriptionFile : String} {cfg : Config}
    (h : Config.loadConfig files memory setupFile subscriptionFile = .ok cfg) :
    ∃ subscriptionIni, files subscriptionFile = some subscriptionIni ∧
      cfg.subscriptions.length = subscriptionIni.entries.length := by
  have hpresent : ¬ (files setupFile = none ∨ files subscriptionFile = none) := by
    intro hmissing
    obtain ⟨e, he⟩ := Config.loadConfig_of_missing hmissing memory
    exact absurd (h.symm.trans he) (by simp)
  rw [not_or] at hpresent
  obtain ⟨setupIni, hsetup⟩ := Option.ne_none_iff_exists'.1 hpresent.1
  obtain ⟨subscriptionIni, hsubs⟩ := Option.ne_none_iff_exists'.1 hpresent.2
  rw [Config.loadConfig_of_present hsetup hsubs] at h
  obtain ⟨config, -, rfl⟩ := map_eq_ok_iff.1 h
  exact ⟨subscriptionIni, hsubs, List.length_map ..⟩

/-- **When the demo starts.** `main` gets to its threads exactly if both files are there, every
    entry of the one that is read as a number is one, and the number of entries of the other is
    above zero, as an `int`. -/
theorem main_isOk_iff (files : String → Option IniFile) (memory : Config.Memory)
    (nInstrument : Int32) (u₀ : UInt64) (cache : CacheId) :
    (∃ s, main files memory nInstrument u₀ cache = .ok s) ↔
      ¬ Config.Throws files "../config/setup.ini" "../config/subscription.ini" ∧
        ∃ subscriptionIni, files "../config/subscription.ini" = some subscriptionIni ∧
          0 < subscriptionIni.entries.length % 2 ^ 32 ∧
          subscriptionIni.entries.length % 2 ^ 32 < 2 ^ 31 := by
  rw [← @Config.loadConfig_isError_iff files memory]
  unfold main
  split
  · next e herror => exact iff_of_false (by simp) fun h => h.1 ⟨e, herror⟩
  · next cfg hcfg =>
      obtain ⟨subscriptionIni, hfile, hlength⟩ := length_subscriptions hcfg
      have hpositive := Client.toInt_numInstruments_nonneg_iff cfg
      have hzero := Client.toInt_numInstruments_eq_zero_iff cfg
      rw [hlength] at hpositive hzero
      have hcount : (0 < subscriptionIni.entries.length % 2 ^ 32 ∧
          subscriptionIni.entries.length % 2 ^ 32 < 2 ^ 31) ↔
            0 < (Client.numInstruments cfg).toInt := by
        rw [← hpositive]
        omega
      simp only [hfile, Option.some.injEq, exists_eq_left', hcount]
      split
      · next e client hsetup =>
          have hnone := (setup_isOk_iff (Client.new cfg nInstrument cache)).not.1 (by simp [hsetup])
          exact iff_of_false (by simp) fun h => hnone h.2.le
      · next client hsetup =>
          rw [← run_isSome_iff hsetup]
          split
          · next hrun => exact iff_of_false (by simp) (by simp [hrun])
          · next started hrun => exact iff_of_true ⟨_, rfl⟩ ⟨by simp [hcfg], started, hrun⟩

end

variable {lib : JsonLib} {callback : ClientCallback} {book : OrderBook} {label logText : String}

/-! ## What is logged -/

/-- The number a document has under `"E"`. -/
def Logs (lib : JsonLib) (data : Json) (n : UInt64) : Prop :=
  ∃ members e, data = .object members ∧ members.lookup "E" = some e ∧ e.toUInt64 lib = .ok n

theorem exists_logs_iff (lib : JsonLib) (data : Json) :
    (∃ n, Logs lib data n) ↔ data.HasNumber "E" := by
  constructor
  · rintro ⟨n, members, e, rfl, he, hn⟩
    exact ⟨e, he, (Json.toUInt64_isOk_iff lib e).1 ⟨n, hn⟩⟩
  · intro h
    cases data with
    | object members =>
        obtain ⟨e, he, hnumber⟩ := h
        obtain ⟨n, hn⟩ := (Json.toUInt64_isOk_iff lib e).2 hnumber
        exact ⟨n, members, e, rfl, he, hn⟩
    | _ => exact absurd h id

theorem line_eq_ok_iff : line lib label book = .ok logText ↔
    ∃ n, Logs lib book.data n ∧ logText = label ++ book.symbol ++ "]  E: " ++ stdToString n := by
  obtain ⟨symbol, data⟩ := book
  constructor
  · intro h
    cases data with
    | object members =>
        cases he : members.lookup "E" with
        | none => exact absurd h (by simp [line, Json.constSubscript, he, bind, Except.bind])
        | some e =>
            cases hn : e.toUInt64 lib with
            | error x =>
                refine absurd h ?_
                simp [line, Json.constSubscript, he, hn, bind, Except.bind, Except.mapError]
            | ok n =>
                refine ⟨n, ⟨members, e, rfl, he, hn⟩, ?_⟩
                simp only [line, Json.constSubscript, he, hn, bind, Except.bind, Except.mapError]
                  at h
                exact (Except.ok.inj h).symm
    | _ => exact absurd h (by simp [line, Json.constSubscript, bind, Except.bind])
  · rintro ⟨n, ⟨members, e, rfl, he, hn⟩, rfl⟩
    simp [line, Json.constSubscript, he, hn, bind, Except.bind, Except.mapError, pure, Except.pure]

/-- The first words of a line. -/
def labelOf : ClientCallback → String
  | .onOrderBookWS => "onOrderBookWS----["
  | .onOrderBookREST => "onOrderBookREST--["

theorem log_eq_ok_iff : log lib callback book = .ok logText ↔ ∃ n, Logs lib book.data n ∧
    logText = labelOf callback ++ book.symbol ++ "]  E: " ++ stdToString n := by
  cases callback <;> exact line_eq_ok_iff

/-- A callback returns exactly if the document has a number under `"E"`. -/
theorem callbacks_eq_ok_iff :
    callbacks lib callback book = .ok () ↔ book.data.HasNumber "E" := by
  rw [← exists_logs_iff lib, callbacks, map_eq_ok_iff]
  simp only [log_eq_ok_iff]
  constructor
  · rintro ⟨text, ⟨n, hn, -⟩, -⟩
    exact ⟨n, hn⟩
  · rintro ⟨n, hn⟩
    exact ⟨_, ⟨n, hn, rfl⟩, trivial⟩

end DemoClient

end MarketFeed
