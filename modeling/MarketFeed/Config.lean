import MarketFeed.Basic
import Mathlib.Tactic.Common

set_option autoImplicit false

/-! # `Client::Config` (`include/client.h`, `src/client.cpp`)

`load_config` starts from a `Config` whose three numbers are not initialised, lets the ini parser
call `setup_callback` for every entry of one file and `subscription_callback` for every entry of the
other, and rejects a file only if the parser returns a negative code.

The ini parser is a library: a file is what it finds there, the entries in order and the number of
the first malformed line, and a file that is not there makes it return a negative code. Both
callbacks return 1, which lets it go on. -/

namespace MarketFeed

/-- The exceptions that leave `load_config`. -/
inductive ConfigException where
  /-- `std::runtime_error` -/
  | runtimeError (what : String)
  /-- `std::invalid_argument`, from `std::stoi` -/
  | invalidArgument (what : String)
  /-- `std::out_of_range`, from `std::stoi` -/
  | outOfRange (what : String)
deriving DecidableEq, Repr

/-! ## The libraries -/

/-- `std::isspace` -/
def isSpace (c : Char) : Bool := c.toNat == 32 || (9 ≤ c.toNat && c.toNat ≤ 13)

/-- The number written in decimal digits. -/
def decimal (digits : List Char) : ℕ := digits.foldl (fun n c => 10 * n + (c.toNat - 48)) 0

/-- `std::stoi`: white space, a sign and the digits that follow; what comes after is ignored. -/
def stoi (value : String) : Except ConfigException Int32 :=
  let text := value.toList.dropWhile isSpace
  let negative := text.head? == some '-'
  let text := if negative || text.head? == some '+' then text.tail else text
  let digits := text.takeWhile Char.isDigit
  let n : ℤ := if negative then -decimal digits else decimal digits
  if digits = [] then .error (.invalidArgument "stoi")
  else if n < Int32.minValue.toInt ∨ Int32.maxValue.toInt < n then .error (.outOfRange "stoi")
  else .ok (Int32.ofInt n)

/-- An entry of an ini file. -/
structure IniEntry where
  sectionName : String
  name : String
  value : String
deriving DecidableEq, Repr

/-- A readable ini file: its entries in order, and the number of its first malformed line, or 0. -/
structure IniFile where
  entries : List IniEntry
  malformed : ℕ
deriving DecidableEq, Repr

/-- `ini_parse`: the handler is called once for every entry, in order, and may throw. -/
def iniParse {σ : Type*} (files : String → Option IniFile) (filename : String)
    (handler : σ → IniEntry → Except ConfigException σ) (user : σ) :
    Except ConfigException (ℤ × σ) :=
  match files filename with
  | none => .ok (-1, user)
  | some file =>
      match file.entries.foldlM handler user with
      | .error e => .error e
      | .ok user => .ok (file.malformed, user)

section

variable {σ : Type*} {files : String → Option IniFile} {filename : String}

theorem iniParse_of_missing (h : files filename = none)
    (handler : σ → IniEntry → Except ConfigException σ) (user : σ) :
    iniParse files filename handler user = .ok (-1, user) := by
  unfold iniParse
  rw [h]

theorem iniParse_of_present {file : IniFile} (h : files filename = some file)
    (handler : σ → IniEntry → Except ConfigException σ) (user : σ) :
    iniParse files filename handler user =
      (file.entries.foldlM handler user).map fun user => ((file.malformed : ℤ), user) := by
  unfold iniParse
  rw [h]
  show (match file.entries.foldlM handler user with
    | .error e => Except.error e
    | .ok user => Except.ok ((file.malformed : ℤ), user)) = _
  cases file.entries.foldlM handler user <;> rfl

end

/-! ## Loading -/

namespace Config

/-- `struct Setup` -/
structure Setup where
  hostRestapi : String
  portRestapi : String
  hostWs : String
  portWs : String
  replicasRestapi : Int32
  replicasWs : Int32
  periodRestapi : Int32
deriving DecidableEq, Repr

/-- `struct Subscription` -/
structure Subscription where
  symbol : String
  channel : String
  limit : String
deriving DecidableEq, Repr

/-- What the memory under the three numbers of a new `Setup` holds. -/
structure Memory where
  replicasRestapi : Int32
  replicasWs : Int32
  periodRestapi : Int32
deriving DecidableEq, Repr

end Config

/-- `struct Client::Config` -/
structure Config where
  setup : Config.Setup
  subscriptions : List Config.Subscription
deriving DecidableEq, Repr

namespace Config

/-- `Client::Config config;` initialises the strings and the vector, but not the numbers. -/
def new (memory : Memory) : Config where
  setup := {
    hostRestapi := ""
    portRestapi := ""
    hostWs := ""
    portWs := ""
    replicasRestapi := memory.replicasRestapi
    replicasWs := memory.replicasWs
    periodRestapi := memory.periodRestapi }
  subscriptions := []

/-- `setup_callback` -/
def setupCallback (config : Config) (entry : IniEntry) : Except ConfigException Config := do
  if entry.sectionName = "restapi" then
    if entry.name = "host" then
      return { config with setup.hostRestapi := entry.value }
    else if entry.name = "port" then
      return { config with setup.portRestapi := entry.value }
    else if entry.name = "replicas" then
      return { config with setup.replicasRestapi := ← stoi entry.value }
    else if entry.name = "period_second" then
      return { config with setup.periodRestapi := ← stoi entry.value }
    else return config
  else if entry.sectionName = "websocket" then
    if entry.name = "host" then
      return { config with setup.hostWs := entry.value }
    else if entry.name = "port" then
      return { config with setup.portWs := entry.value }
    else if entry.name = "replicas" then
      return { config with setup.replicasWs := ← stoi entry.value }
    else return config
  else return config

/-- `subscription_callback`: each entry is a subscription, its section the symbol. -/
def subscriptionCallback (config : Config) (entry : IniEntry) : Except ConfigException Config :=
  -- an entry has a name and a value, so neither pointer is null
  .ok { config with
    subscriptions := config.subscriptions ++ [⟨entry.sectionName, entry.name, entry.value⟩] }

/-- `Client::Config::load_config` -/
def loadConfig (files : String → Option IniFile) (memory : Memory)
    (setupFile subscriptionFile : String) : Except ConfigException Config :=
  match iniParse files setupFile setupCallback (new memory) with
  | .error e => .error e
  | .ok (result, config) =>
      -- the message names the other file
      if result < 0 then .error (.runtimeError ("Can't load " ++ subscriptionFile))
      else
        match iniParse files subscriptionFile subscriptionCallback config with
        | .error e => .error e
        | .ok (result, config) =>
            if result < 0 then .error (.runtimeError ("Can't load " ++ subscriptionFile))
            else .ok config

/-! ## What an entry assigns -/

/-- The members of `Setup`. -/
inductive SetupKey where
  | hostRestapi
  | portRestapi
  | replicasRestapi
  | periodRestapi
  | hostWs
  | portWs
  | replicasWs
deriving DecidableEq, Repr

namespace SetupKey

/-- The section and the name a member is assigned under. -/
def spelling : SetupKey → String × String
  | hostRestapi => ("restapi", "host")
  | portRestapi => ("restapi", "port")
  | replicasRestapi => ("restapi", "replicas")
  | periodRestapi => ("restapi", "period_second")
  | hostWs => ("websocket", "host")
  | portWs => ("websocket", "port")
  | replicasWs => ("websocket", "replicas")

/-- The member's value, a string or a number. -/
def get (setup : Setup) : SetupKey → String ⊕ Int32
  | hostRestapi => .inl setup.hostRestapi
  | portRestapi => .inl setup.portRestapi
  | replicasRestapi => .inr setup.replicasRestapi
  | periodRestapi => .inr setup.periodRestapi
  | hostWs => .inl setup.hostWs
  | portWs => .inl setup.portWs
  | replicasWs => .inr setup.replicasWs

/-- The member is a number. -/
def Numeric : SetupKey → Prop
  | replicasRestapi | periodRestapi | replicasWs => True
  | hostRestapi | portRestapi | hostWs | portWs => False

/-- What the text of an entry means for the member. -/
def read (value : String) : SetupKey → Except ConfigException (String ⊕ Int32)
  | replicasRestapi | periodRestapi | replicasWs => (stoi value).map .inr
  | hostRestapi | portRestapi | hostWs | portWs => .ok (.inl value)

/-- `setup` with the member replaced, where the value is of its kind. -/
def set (setup : Setup) : SetupKey → String ⊕ Int32 → Setup
  | hostRestapi, .inl text => { setup with hostRestapi := text }
  | portRestapi, .inl text => { setup with portRestapi := text }
  | replicasRestapi, .inr n => { setup with replicasRestapi := n }
  | periodRestapi, .inr n => { setup with periodRestapi := n }
  | hostWs, .inl text => { setup with hostWs := text }
  | portWs, .inl text => { setup with portWs := text }
  | replicasWs, .inr n => { setup with replicasWs := n }
  | _, _ => setup

theorem spelling_injective : Function.Injective spelling := by
  intro key key' h
  cases key <;> cases key' <;> first | rfl | exact absurd h (by decide)

/-- Two setups that agree on every member are equal. -/
theorem ext_get {setup setup' : Setup} (h : ∀ key, get setup key = get setup' key) :
    setup = setup' := by
  obtain ⟨hostRestapi, portRestapi, hostWs, portWs, replicasRestapi, replicasWs, period⟩ := setup
  obtain ⟨hostRestapi', portRestapi', hostWs', portWs', replicasRestapi', replicasWs', period'⟩ :=
    setup'
  rw [Setup.mk.injEq]
  exact ⟨Sum.inl.inj (h .hostRestapi), Sum.inl.inj (h .portRestapi), Sum.inl.inj (h .hostWs),
    Sum.inl.inj (h .portWs), Sum.inr.inj (h .replicasRestapi), Sum.inr.inj (h .replicasWs),
    Sum.inr.inj (h .periodRestapi)⟩

theorem get_set_of_ne {key key' : SetupKey} (h : key' ≠ key) (setup : Setup)
    (v : String ⊕ Int32) : get (set setup key v) key' = get setup key' := by
  cases key <;> cases key' <;> cases v <;> first | rfl | exact absurd rfl h

theorem read_of_numeric {key : SetupKey} (h : key.Numeric) (value : String) :
    key.read value = (stoi value).map .inr := by
  cases key <;> first | rfl | exact absurd h id

theorem read_of_not_numeric {key : SetupKey} (h : ¬ key.Numeric) (value : String) :
    key.read value = .ok (.inl value) := by
  cases key <;> first | rfl | exact absurd trivial h

theorem get_set_inr {key : SetupKey} (h : key.Numeric) (setup : Setup) (n : Int32) :
    get (set setup key (.inr n)) key = .inr n := by
  cases key <;> first | rfl | exact absurd h id

theorem get_set_inl {key : SetupKey} (h : ¬ key.Numeric) (setup : Setup) (text : String) :
    get (set setup key (.inl text)) key = .inl text := by
  cases key <;> first | rfl | exact absurd trivial h

/-- Only numbers can fail to be read. -/
theorem exists_read_iff {value : String} {key : SetupKey} :
    (∃ v, read value key = .ok v) ↔ (key.Numeric → ∃ n, stoi value = .ok n) := by
  by_cases hkey : key.Numeric
  · rw [read_of_numeric hkey]
    simp [map_eq_ok_iff, hkey]
  · rw [read_of_not_numeric hkey]
    exact iff_of_true ⟨_, rfl⟩ fun h => absurd h hkey

theorem get_set_of_read {key : SetupKey} {value : String} {v : String ⊕ Int32}
    (h : read value key = .ok v) (setup : Setup) : get (set setup key v) key = v := by
  by_cases hkey : key.Numeric
  · rw [read_of_numeric hkey] at h
    obtain ⟨n, -, rfl⟩ := map_eq_ok_iff.1 h
    exact get_set_inr hkey setup n
  · rw [read_of_not_numeric hkey] at h
    obtain rfl := Except.ok.inj h
    exact get_set_inl hkey setup value

end SetupKey

end Config

/-- The entry is for this member. -/
def IniEntry.HasKey (entry : IniEntry) (key : Config.SetupKey) : Prop :=
  (entry.sectionName, entry.name) = key.spelling

instance (entry : IniEntry) (key : Config.SetupKey) : Decidable (entry.HasKey key) :=
  inferInstanceAs (Decidable (_ = _))

namespace Config

/-- The configuration with a member of its setup assigned. -/
def assign (config : Config) (key : SetupKey) (v : String ⊕ Int32) : Config :=
  { config with setup := key.set config.setup v }

/-- Converting a text and assigning the number is assigning what the text means. -/
theorem stoi_bind_eq (value : String) (f : String ⊕ Int32 → Config) :
    (stoi value >>= fun n => pure (f (.inr n))) = ((stoi value).map .inr).map f := by
  cases stoi value <;> rfl

theorem setupCallback_of_hasKey (config : Config) {entry : IniEntry} {key : SetupKey}
    (h : entry.HasKey key) :
    setupCallback config entry = (key.read entry.value).map (config.assign key) := by
  obtain ⟨sectionName, name, value⟩ := entry
  obtain ⟨rfl, rfl⟩ := Prod.ext_iff.1 h
  cases key with
  | hostRestapi => rfl
  | portRestapi => rfl
  | hostWs => rfl
  | portWs => rfl
  | replicasRestapi => exact stoi_bind_eq value (config.assign .replicasRestapi)
  | periodRestapi => exact stoi_bind_eq value (config.assign .periodRestapi)
  | replicasWs => exact stoi_bind_eq value (config.assign .replicasWs)

theorem setupCallback_of_not_hasKey (config : Config) {entry : IniEntry}
    (h : ∀ key, ¬ entry.HasKey key) : setupCallback config entry = .ok config := by
  unfold setupCallback
  split
  · next hsection =>
      split
      · next hname => exact absurd (Prod.ext hsection hname) (h .hostRestapi)
      split
      · next hname => exact absurd (Prod.ext hsection hname) (h .portRestapi)
      split
      · next hname => exact absurd (Prod.ext hsection hname) (h .replicasRestapi)
      split
      · next hname => exact absurd (Prod.ext hsection hname) (h .periodRestapi)
      · rfl
  split
  · next hsection =>
      split
      · next hname => exact absurd (Prod.ext hsection hname) (h .hostWs)
      split
      · next hname => exact absurd (Prod.ext hsection hname) (h .portWs)
      split
      · next hname => exact absurd (Prod.ext hsection hname) (h .replicasWs)
      · rfl
  · rfl

/-- `stoi` can convert the entry, if it is for a number. -/
def Readable (entry : IniEntry) : Prop :=
  ∀ key : SetupKey, entry.HasKey key → key.Numeric → ∃ n, stoi entry.value = .ok n

/-- `setup_callback` returns exactly if the entry can be read. -/
theorem setupCallback_isOk_iff (config : Config) (entry : IniEntry) :
    (∃ config', setupCallback config entry = .ok config') ↔ Readable entry := by
  by_cases h : ∃ key, entry.HasKey key
  · obtain ⟨key, hkey⟩ := h
    have hunique : ∀ key', entry.HasKey key' → key' = key :=
      fun key' hkey' => SetupKey.spelling_injective (hkey'.symm.trans hkey)
    rw [setupCallback_of_hasKey config hkey]
    constructor
    · rintro ⟨config', hok⟩ key' hkey'
      obtain ⟨v, hread, -⟩ := map_eq_ok_iff.1 hok
      rw [hunique key' hkey']
      exact SetupKey.exists_read_iff.1 ⟨v, hread⟩
    · intro hreadable
      obtain ⟨v, hread⟩ := SetupKey.exists_read_iff.2 (hreadable key hkey)
      exact ⟨config.assign key v, map_eq_ok_iff.2 ⟨v, hread, rfl⟩⟩
  · have hnone := not_exists.1 h
    rw [setupCallback_of_not_hasKey config hnone]
    exact iff_of_true ⟨config, rfl⟩ fun key hkey => absurd hkey (hnone key)

/-- An entry assigns its member and no other. -/
theorem setupCallback_ok {config config' : Config} {entry : IniEntry}
    (h : setupCallback config entry = .ok config') :
    config'.subscriptions = config.subscriptions ∧ ∀ key : SetupKey,
      (entry.HasKey key → key.read entry.value = .ok (key.get config'.setup)) ∧
      (¬ entry.HasKey key → key.get config'.setup = key.get config.setup) := by
  by_cases hsome : ∃ key, entry.HasKey key
  · obtain ⟨key, hkey⟩ := hsome
    rw [setupCallback_of_hasKey config hkey] at h
    obtain ⟨v, hread, rfl⟩ := map_eq_ok_iff.1 h
    refine ⟨rfl, fun key' => ⟨fun hkey' => ?_, fun hkey' => ?_⟩⟩
    · obtain rfl : key' = key := SetupKey.spelling_injective (hkey'.symm.trans hkey)
      rw [hread]
      exact congrArg Except.ok (SetupKey.get_set_of_read hread _).symm
    · refine SetupKey.get_set_of_ne ?_ _ _
      rintro rfl
      exact hkey' hkey
  · have hnone := not_exists.1 hsome
    rw [setupCallback_of_not_hasKey config hnone] at h
    obtain rfl := Except.ok.inj h
    exact ⟨rfl, fun key => ⟨fun hkey => absurd hkey (hnone key), fun _ => rfl⟩⟩

end Config

end MarketFeed
