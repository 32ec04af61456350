import MarketFeed.Config
import Mathlib.Data.List.Induction

set_option autoImplicit false

/-! # What `load_config` makes of two files

Both callbacks are folded over the entries of a file (`foldlM_setup_ok`, `foldlM_subscription`), so
what `load_config` returns is known exactly: `loadConfig_of_present`, `loadConfig_isError_iff`.
`LoadsDetermined` says that the result depends on nothing but the files, and
`loadConfig_determined_iff` for which files it does. -/

namespace MarketFeed

namespace Config

/-! ## What a file assigns -/

theorem foldlM_concat_ok_iff {σ : Type*} {handler : σ → IniEntry → Except ConfigException σ}
    {entries : List IniEntry} {entry : IniEntry} {user user'' : σ} :
    (entries ++ [entry]).foldlM handler user = .ok user'' ↔
      ∃ user', entries.foldlM handler user = .ok user' ∧ handler user' entry = .ok user'' := by
  rw [List.foldlM_append]
  cases h : entries.foldlM handler user with
  | error e =>
      refine iff_of_false (fun h => ?_) (by simp)
      exact absurd (show Except.error e = .ok user'' from h) (by simp)
  | ok user' =>
      show [entry].foldlM handler user' = .ok user'' ↔ _
      have hone : [entry].foldlM handler user' = handler user' entry := by
        rw [List.foldlM_cons]
        cases handler user' entry <;> rfl
      rw [hone]
      simp

/-- The value of the last entry for a member. -/
def lastValue (entries : List IniEntry) (key : SetupKey) : Option String :=
  ((entries.filter fun entry => entry.HasKey key).getLast?).map (·.value)

theorem lastValue_concat (entries : List IniEntry) (entry : IniEntry) (key : SetupKey) :
    lastValue (entries ++ [entry]) key =
      if entry.HasKey key then some entry.value else lastValue entries key := by
  unfold lastValue
  rw [List.filter_append]
  split
  · next hkey => simp [hkey]
  · next hkey => simp [hkey]

theorem lastValue_isSome_iff {entries : List IniEntry} {key : SetupKey} :
    (∃ value, lastValue entries key = some value) ↔ ∃ entry ∈ entries, entry.HasKey key := by
  induction entries using List.reverseRecOn with
  | nil => simp [lastValue]
  | append_singleton entries entry ih =>
      rw [lastValue_concat]
      split
      · next hkey => exact iff_of_true ⟨_, rfl⟩ ⟨entry, by simp, hkey⟩
      · next hkey => simp [ih, or_and_right, exists_or, hkey]

/-- `setup_callback` throws on no entry of a file exactly if all can be read. -/
theorem foldlM_setup_isOk_iff (config : Config) (entries : List IniEntry) :
    (∃ config', entries.foldlM setupCallback config = .ok config') ↔
      ∀ entry ∈ entries, Readable entry := by
  induction entries using List.reverseRecOn with
  | nil => exact iff_of_true ⟨config, rfl⟩ (by simp)
  | append_singleton entries entry ih =>
      simp only [foldlM_concat_ok_iff, List.forall_mem_append, List.forall_mem_singleton, ← ih]
      constructor
      · rintro ⟨config'', config', hbefore, hlast⟩
        exact ⟨⟨config', hbefore⟩, (setupCallback_isOk_iff config' entry).1 ⟨config'', hlast⟩⟩
      · rintro ⟨⟨config', hbefore⟩, hlast⟩
        obtain ⟨config'', hok⟩ := (setupCallback_isOk_iff config' entry).2 hlast
        exact ⟨config'', config', hbefore, hok⟩

/-- Every member is left with what its last entry means, or, without an entry, as it was. -/
theorem foldlM_setup_ok {config config' : Config} {entries : List IniEntry}
    (h : entries.foldlM setupCallback config = .ok config') :
    config'.subscriptions = config.subscriptions ∧ ∀ key : SetupKey,
      (∀ value, lastValue entries key = some value →
        key.read value = .ok (key.get config'.setup)) ∧
      (lastValue entries key = none → key.get config'.setup = key.get config.setup) := by
  induction entries using List.reverseRecOn generalizing config' with
  | nil =>
      obtain rfl := Except.ok.inj h
      refine ⟨rfl, fun key => ⟨fun value hvalue => ?_, fun _ => rfl⟩⟩
      exact absurd hvalue (by simp [lastValue])
  | append_singleton entries entry ih =>
      obtain ⟨config₁, hbefore, hlast⟩ := foldlM_concat_ok_iff.1 h
      obtain ⟨hsubs, hkeys⟩ := ih hbefore
      obtain ⟨hsubs', hkeys'⟩ := setupCallback_ok hlast
      refine ⟨hsubs'.trans hsubs, fun key => ?_⟩
      rw [lastValue_concat]
      by_cases hkey : entry.HasKey key
      · rw [if_pos hkey]
        refine ⟨fun value hvalue => ?_, fun hnone => absurd hnone (by simp)⟩
        exact Option.some.inj hvalue ▸ (hkeys' key).1 hkey
      · rw [if_neg hkey, (hkeys' key).2 hkey]
        exact hkeys key

/-- The subscription an entry stands for. -/
def Subscription.ofEntry (entry : IniEntry) : Subscription :=
  ⟨entry.sectionName, entry.name, entry.value⟩

theorem foldlM_subscription (config : Config) (entries : List IniEntry) :
    entries.foldlM subscriptionCallback config = .ok { config with
      subscriptions := config.subscriptions ++ entries.map Subscription.ofEntry } := by
  induction entries using List.reverseRecOn with
  | nil => rw [List.map_nil, List.append_nil]; rfl
  | append_singleton entries entry ih =>
      refine foldlM_concat_ok_iff.2 ⟨_, ih, ?_⟩
      rw [List.map_append, ← List.append_assoc]
      rfl

/-! ## What `load_config` returns -/

variable {files : String → Option IniFile} {memory : Memory} {setupFile subscriptionFile : String}
  {setupIni subscriptionIni : IniFile}

/-- With both files there, `load_config` is the fold over the first and the entries of the second:
    a positive code passes the test `result < 0`. -/
theorem loadConfig_of_present (hsetup : files setupFile = some setupIni)
    (hsubs : files subscriptionFile = some subscriptionIni) (memory : Memory) :
    loadConfig files memory setupFile subscriptionFile =
      (setupIni.entries.foldlM setupCallback (new memory)).map fun config =>
        { config with subscriptions := subscriptionIni.entries.map Subscription.ofEntry } := by
  have hpositive : ∀ n : ℕ, ¬ (n : ℤ) < 0 := fun n => Int.not_lt.2 (Int.natCast_nonneg n)
  unfold loadConfig
  rw [iniParse_of_present hsetup]
  cases hfold : setupIni.entries.foldlM setupCallback (new memory) with
  | error e => rfl
  | ok config =>
      have hnone : config.subscriptions = [] := (foldlM_setup_ok hfold).1
      simp only [Except.map, if_neg (hpositive _), iniParse_of_present hsubs, foldlM_subscription,
        hnone, List.nil_append]

theorem loadConfig_of_missing (h : files setupFile = none ∨ files subscriptionFile = none)
    (memory : Memory) : ∃ e, loadConfig files memory setupFile subscriptionFile = .error e := by
  unfold loadConfig
  cases hsetup : files setupFile with
  | none =>
      rw [iniParse_of_missing hsetup]
      exact ⟨_, rfl⟩
  | some setupIni =>
      have hsubs : files subscriptionFile = none := h.resolve_left (by simp [hsetup])
      rw [iniParse_of_present hsetup]
      cases setupIni.entries.foldlM setupCallback (new memory) with
      | error e => exact ⟨e, rfl⟩
      | ok config =>
          simp only [Except.map, iniParse_of_missing hsubs]
          split
          · exact ⟨_, rfl⟩
          · exact ⟨_, rfl⟩

/-- `load_config` throws: a file is not there, or `stoi` cannot convert an entry for a number. -/
def Throws (files : String → Option IniFile) (setupFile subscriptionFile : String) : Prop :=
  files setupFile = none ∨ files subscriptionFile = none ∨
    ∃ setupIni, files setupFile = some setupIni ∧ ∃ entry ∈ setupIni.entries, ¬ Readable entry

/-- Whether `load_config` throws does not depend on the memory. -/
theorem loadConfig_isError_iff :
    (∃ e, loadConfig files memory setupFile subscriptionFile = .error e) ↔
      Throws files setupFile subscriptionFile := by
  unfold Throws
  cases hsetup : files setupFile with
  | none => exact iff_of_true (loadConfig_of_missing (Or.inl hsetup) memory) (Or.inl rfl)
  | some setupIni =>
      cases hsubs : files subscriptionFile with
      | none =>
          exact iff_of_true (loadConfig_of_missing (Or.inr hsubs) memory) (Or.inr (Or.inl rfl))
      | some subscriptionIni =>
          have hfold := foldlM_setup_isOk_iff (new memory) setupIni.entries
          rw [loadConfig_of_present hsetup hsubs]
          cases hresult : setupIni.entries.foldlM setupCallback (new memory) with
          | error e =>
              have hbad : ¬ ∀ entry ∈ setupIni.entries, Readable entry := by
                simp [← hfold, hresult]
              simpa [Except.map] using hbad
          | ok config =>
              have hgood : ∀ entry ∈ setupIni.entries, Readable entry :=
                hfold.1 ⟨config, hresult⟩
              simpa [Except.map] using hgood

/-! ## Determined configurations -/

/-- Every member of `Setup` was assigned: it is what its last entry means. -/
def AssignedFrom (entries : List IniEntry) (setup : Setup) : Prop :=
  ∀ key : SetupKey, ∃ value, lastValue entries key = some value ∧
    key.read value = .ok (key.get setup)

/-- The configuration is what the two files say, and no line of them was skipped. -/
structure DeterminedBy (setupIni subscriptionIni : IniFile) (config : Config) : Prop where
  assigned : AssignedFrom setupIni.entries config.setup
  setupLines : setupIni.malformed = 0
  subscriptionLines : subscriptionIni.malformed = 0
  subscriptions : config.subscriptions = subscriptionIni.entries.map Subscription.ofEntry

/-- Every load throws, or returns a configuration determined by the files, the same from every
    memory. -/
def LoadsDetermined (files : String → Option IniFile) (setupFile subscriptionFile : String) :
    Prop :=
  ∀ memory, (∃ e, loadConfig files memory setupFile subscriptionFile = .error e) ∨
    ∃ config setupIni subscriptionIni,
      loadConfig files memory setupFile subscriptionFile = .ok config ∧
      files setupFile = some setupIni ∧ files subscriptionFile = some subscriptionIni ∧
      DeterminedBy setupIni subscriptionIni config ∧
      ∀ memory', loadConfig files memory' setupFile subscriptionFile = .ok config

/-- The setup file has an entry for every member, and the parser found no malformed line. -/
def Complete (files : String → Option IniFile) (setupFile subscriptionFile : String) : Prop :=
  (∃ setupIni, files setupFile = some setupIni ∧ setupIni.malformed = 0 ∧
    ∀ key : SetupKey, ∃ entry ∈ setupIni.entries, entry.HasKey key) ∧
  ∃ subscriptionIni, files subscriptionFile = some subscriptionIni ∧ subscriptionIni.malformed = 0

/-- Where every member has an entry, the fold forgets the memory. -/
theorem assignedFrom_of_foldlM {config config' : Config} {entries : List IniEntry}
    (hfold : entries.foldlM setupCallback config = .ok config')
    (hkeys : ∀ key : SetupKey, ∃ entry ∈ entries, entry.HasKey key) :
    AssignedFrom entries config'.setup := by
  intro key
  obtain ⟨value, hvalue⟩ := lastValue_isSome_iff.2 (hkeys key)
  exact ⟨value, hvalue, ((foldlM_setup_ok hfold).2 key).1 value hvalue⟩

/-- The entries determine what was assigned. -/
theorem AssignedFrom.unique {entries : List IniEntry} {setup setup' : Setup}
    (h : AssignedFrom entries setup) (h' : AssignedFrom entries setup') : setup = setup' := by
  refine SetupKey.ext_get fun key => ?_
  obtain ⟨value, hvalue, hread⟩ := h key
  obtain ⟨value', hvalue', hread'⟩ := h' key
  obtain rfl : value = value' := Option.some.inj (hvalue.symm.trans hvalue')
  exact Except.ok.inj (hread.symm.trans hread')

/-- **Which files load to a determined configuration.** Exactly those that make `load_config` throw,
    and those without a malformed line whose setup file has an entry for every member. -/
theorem loadConfig_determined_iff (files : String → Option IniFile)
    (setupFile subscriptionFile : String) :
    LoadsDetermined files setupFile subscriptionFile ↔
      Throws files setupFile subscriptionFile ∨ Complete files setupFile subscriptionFile := by
  constructor
  · intro hloads
    -- any memory will do: what is read off the result is about the files
    rcases hloads ⟨0, 0, 0⟩ with
      hthrows | ⟨config, setupIni, subscriptionIni, -, hsetup, hsubs, h, -⟩
    · exact Or.inl (loadConfig_isError_iff.1 hthrows)
    · refine Or.inr ⟨⟨setupIni, hsetup, h.setupLines, fun key => ?_⟩,
        subscriptionIni, hsubs, h.subscriptionLines⟩
      obtain ⟨value, hvalue, -⟩ := h.assigned key
      exact lastValue_isSome_iff.1 ⟨value, hvalue⟩
  · rintro (hthrows | hcomplete) memory
    · exact Or.inl (loadConfig_isError_iff.2 hthrows)
    obtain ⟨⟨setupIni, hsetup, hlines, hkeys⟩, subscriptionIni, hsubs, hlines'⟩ := hcomplete
    by_cases hthrows : Throws files setupFile subscriptionFile
    · exact Or.inl (loadConfig_isError_iff.2 hthrows)
    have hfold : ∀ memory, ∃ config,
        setupIni.entries.foldlM setupCallback (new memory) = .ok config := by
      intro memory
      refine (foldlM_setup_isOk_iff (new memory) setupIni.entries).2 fun entry hentry => ?_
      by_contra hbad
      exact hthrows (Or.inr (Or.inr ⟨setupIni, hsetup, entry, hentry, hbad⟩))
    obtain ⟨config, hconfig⟩ := hfold memory
    have hassigned := assignedFrom_of_foldlM hconfig hkeys
    refine Or.inr ⟨{ config with
        subscriptions := subscriptionIni.entries.map Subscription.ofEntry },
      setupIni, subscriptionIni, ?_, hsetup, hsubs, ⟨hassigned, hlines, hlines', rfl⟩,
      fun memory' => ?_⟩
    · rw [loadConfig_of_present hsetup hsubs, hconfig]
      rfl
    · obtain ⟨config', hconfig'⟩ := hfold memory'
      rw [loadConfig_of_present hsetup hsubs, hconfig',
        hassigned.unique (assignedFrom_of_foldlM hconfig' hkeys)]
      rfl

/-- The two files of `config/`, by name. -/
def configFiles (setup subscriptions : IniFile) (name : String) : Option IniFile :=
  if name = "../config/setup.ini" then some setup
  else if name = "../config/subscription.ini" then some subscriptions
  else none

/-- `config/setup.ini` without its `[websocket]` section. -/
def restapiOnly : IniFile where
  entries := [⟨"restapi", "replicas", "1"⟩, ⟨"restapi", "period_second", "1"⟩,
    ⟨"restapi", "host", "fapi.binance.com"⟩, ⟨"restapi", "port", "443"⟩]
  malformed := 0

/-- `config/setup.ini` -/
def shippedSetup : IniFile where
  entries := restapiOnly.entries ++ [⟨"websocket", "replicas", "2"⟩,
    ⟨"websocket", "host", "fstream.binance.com"⟩, ⟨"websocket", "port", "443"⟩]
  malformed := 0

/-- `config/subscription.ini` -/
def shippedSubscriptions : IniFile where
  entries := [⟨"btcusdt", "depth", "5"⟩, ⟨"ethusdt", "depth", "20"⟩]
  malformed := 0

/-- `config/subscription.ini` with the sign missing in its fourth line. -/
def brokenLine : IniFile where
  entries := [⟨"btcusdt", "depth", "5"⟩]
  malformed := 4

/-- Without the `[websocket]` section the replica count is whatever the memory held; a broken line
    loses a subscription, and `load_config` returns. -/
theorem loadConfig_undetermined :
    ((loadConfig (configFiles restapiOnly shippedSubscriptions) ⟨0, 3, 0⟩ "../config/setup.ini"
        "../config/subscription.ini").map (·.setup.replicasWs) = .ok 3 ∧
      (loadConfig (configFiles restapiOnly shippedSubscriptions) ⟨0, 7, 0⟩ "../config/setup.ini"
        "../config/subscription.ini").map (·.setup.replicasWs) = .ok 7 ∧
      ¬ LoadsDetermined (configFiles restapiOnly shippedSubscriptions) "../config/setup.ini"
        "../config/subscription.ini") ∧
    (loadConfig (configFiles shippedSetup brokenLine) ⟨0, 0, 0⟩ "../config/setup.ini"
        "../config/subscription.ini").map (·.subscriptions) = .ok [⟨"btcusdt", "depth", "5"⟩] ∧
      ¬ LoadsDetermined (configFiles shippedSetup brokenLine) "../config/setup.ini"
        "../config/subscription.ini" := by
  refine ⟨⟨rfl, rfl, fun h => ?_⟩, rfl, fun h => ?_⟩
  · rcases h ⟨0, 3, 0⟩ with ⟨e, hthrows⟩ | ⟨config, _, _, hok, -, -, -, hsame⟩
    · cases hthrows
    · have hfirst : config.setup.replicasWs = 3 := by
        rw [← Except.ok.inj hok]
        rfl
      have hsecond : config.setup.replicasWs = 7 := by
        rw [← Except.ok.inj (hsame ⟨0, 7, 0⟩)]
        rfl
      exact absurd (hfirst.symm.trans hsecond) (by decide)
  · rcases h ⟨0, 0, 0⟩ with ⟨e, hthrows⟩ | ⟨_, _, file, _, _, hfile, hdetermined, _⟩
    · cases hthrows
    · obtain rfl : brokenLine = file := Option.some.inj hfile
      exact absurd hdetermined.subscriptionLines (by decide)

end Config

end MarketFeed
