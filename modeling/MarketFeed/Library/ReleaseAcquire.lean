import Mathlib.Data.List.Basic
import Mathlib.Logic.Function.Basic
import Mathlib.Order.Lattice
import Mathlib.Order.BoundedOrder.Lattice
import Mathlib.Order.Nat
import Mathlib.Tactic.Common

set_option autoImplicit false

/-! # Release/acquire memory

An operational memory for threads `ι` that communicate through atomic locations `A` and share plain
locations `L`. An atomic location keeps every message ever stored in it, in modification order, and
a load chooses the message it reads: any one the reader has not already seen overwritten. What a
thread knows is its `View`: for each atomic location the oldest message it may still read, and for
each thread how many of its plain accesses *happened before*. A release store attaches the writer's
view to the message, an acquire load joins the attached view to the reader's; relaxed accesses do
neither.

Plain accesses do not choose: they read and write the one current value, and `raced` records
whether two of them, at least one a write, were ever unordered by happens-before. A program whose
runs never set `raced` is data-race free, and only then do the values of its plain reads mean
anything.

`store` appends to the modification order. For a location with one writing thread this loses
nothing: coherence puts a thread's store after everything it has seen, its own stores included.

* `Wf` — what every memory satisfies; each operation keeps it;
* `Channel` — one thread stores with release, another loads with acquire: the reader then knows
  whatever the writer knew at each message up to the newest one it has seen. -/

namespace ReleaseAcquire

variable {ι A L V T : Type*}

/-! ## Views -/

/-- What a thread knows, or what a message carries. -/
abbrev View (ι A : Type*) := (A → ℕ) × (ι → ℕ)

namespace View

/-- The oldest message of `l` that may still be read. -/
abbrev seen (v : View ι A) (l : A) : ℕ := v.1 l

/-- How many plain accesses of thread `u` happened before. -/
abbrev clock (v : View ι A) (u : ι) : ℕ := v.2 u

/-- Having read or stored message `n` of `l`. -/
def see [DecidableEq A] (v : View ι A) (l : A) (n : ℕ) : View ι A :=
  (Function.update v.1 l n, v.2)

/-- One more plain access of thread `u`. -/
def tick [DecidableEq ι] (v : View ι A) (u : ι) : View ι A :=
  (v.1, Function.update v.2 u (v.clock u + 1))

theorem le_see [DecidableEq A] {v : View ι A} {l : A} {n : ℕ} (h : v.seen l ≤ n) :
    v ≤ v.see l n := by
  refine ⟨fun l' => ?_, le_refl v.2⟩
  by_cases hl : l' = l
  · subst hl
    simpa [see] using h
  · simp [see, Function.update_of_ne hl]

theorem le_tick [DecidableEq ι] (v : View ι A) (u : ι) : v ≤ v.tick u := by
  refine ⟨le_refl v.1, fun w => ?_⟩
  by_cases hw : w = u
  · subst hw
    simp [tick]
  · simp [tick, Function.update_of_ne hw]

@[simp] theorem seen_see_self [DecidableEq A] (v : View ι A) (l : A) (n : ℕ) :
    (v.see l n).seen l = n := Function.update_self ..

theorem seen_see_of_ne [DecidableEq A] (v : View ι A) {l l' : A} (h : l' ≠ l) (n : ℕ) :
    (v.see l n).seen l' = v.seen l' := Function.update_of_ne h ..

@[simp] theorem clock_see [DecidableEq A] (v : View ι A) (l : A) (n : ℕ) (u : ι) :
    (v.see l n).clock u = v.clock u := rfl

@[simp] theorem seen_tick [DecidableEq ι] (v : View ι A) (u : ι) (l : A) :
    (v.tick u).seen l = v.seen l := rfl

@[simp] theorem clock_tick_self [DecidableEq ι] (v : View ι A) (u : ι) :
    (v.tick u).clock u = v.clock u + 1 := Function.update_self ..

theorem clock_tick_of_ne [DecidableEq ι] (v : View ι A) {u w : ι} (h : w ≠ u) :
    (v.tick u).clock w = v.clock w := Function.update_of_ne h ..

@[simp] theorem seen_sup (v w : View ι A) (l : A) :
    (v ⊔ w).seen l = max (v.seen l) (w.seen l) := rfl

@[simp] theorem clock_sup (v w : View ι A) (u : ι) :
    (v ⊔ w).clock u = max (v.clock u) (w.clock u) := rfl

end View

/-! ## Memory -/

/-- The order of an atomic load. -/
inductive LoadOrder where
  | relaxed
  | acquire
  deriving DecidableEq

/-- The order of an atomic store. -/
inductive StoreOrder where
  | relaxed
  | release
  deriving DecidableEq

/-- A stored value with the view it carries to an acquiring reader. -/
structure Message (ι A V : Type*) where
  value : V
  view : View ι A

/-- A plain access: the `time`-th one of its thread. -/
structure Access (ι : Type*) where
  thread : ι
  time : ℕ
  write : Bool

/-- The access happened before everything the view's owner does next. -/
def Access.Before (a : Access ι) (v : View ι A) : Prop := a.time < v.clock a.thread

instance (a : Access ι) (v : View ι A) : Decidable (a.Before v) :=
  inferInstanceAs (Decidable (_ < _))

theorem Access.Before.mono {a : Access ι} {v w : View ι A} (h : a.Before v) (hle : v ≤ w) :
    a.Before w := Nat.lt_of_lt_of_le h (hle.2 a.thread)

structure Memory (ι A L V T : Type*) where
  history : A → List (Message ι A V)
  cell : L → T
  accesses : L → List (Access ι)
  view : ι → View ι A
  raced : Bool

namespace Memory

/-- Initialised before any thread starts. -/
def init (value : A → V) (cell : L → T) : Memory ι A L V T where
  history l := [⟨value l, ⊥⟩]
  cell
  accesses _ := []
  view _ := ⊥
  raced := false

section Messages

variable [DecidableEq A]

/-- What a thread that knows `v` knows after loading message `n` of `l`. -/
def observe (v : View ι A) (l : A) (n : ℕ) (msg : Message ι A V) :
    LoadOrder → View ι A
  | .relaxed => v.see l n
  | .acquire => v.see l n ⊔ msg.view

/-- What a message stored by a thread that knows `v` carries. -/
def carried (v : View ι A) : StoreOrder → View ι A
  | .relaxed => ⊥
  | .release => v

/-- `msg` comes last in the modification order of `l`. -/
def append (m : Memory ι A L V T) (l : A) (msg : Message ι A V) :
    Memory ι A L V T :=
  { m with history := Function.update m.history l (m.history l ++ [msg]) }

theorem le_observe {v : View ι A} {l : A} {n : ℕ} (h : v.seen l ≤ n)
    (msg : Message ι A V) (o : LoadOrder) : v ≤ observe v l n msg o := by
  cases o with
  | relaxed => exact View.le_see h
  | acquire => exact (View.le_see h).trans le_sup_left

theorem length_append_self (m : Memory ι A L V T) (l : A) (msg : Message ι A V) :
    ((m.append l msg).history l).length = (m.history l).length + 1 := by
  simp [append]

theorem length_le_append (m : Memory ι A L V T) (l : A) (msg : Message ι A V)
    (l' : A) : (m.history l').length ≤ ((m.append l msg).history l').length := by
  by_cases hl : l' = l
  · subst hl
    rw [length_append_self]
    exact Nat.le_succ _
  · simp only [append, Function.update_of_ne hl, Nat.le_refl]

theorem mem_append {m : Memory ι A L V T} {l l' : A} {msg msg' : Message ι A V}
    (h : msg' ∈ (m.append l msg).history l') : msg' ∈ m.history l' ∨ (l' = l ∧ msg' = msg) := by
  by_cases hl : l' = l
  · subst hl
    simpa [append] using h
  · simp only [append, Function.update_of_ne hl] at h
    exact Or.inl h

/-- A history gains its new message at the end, the others gain nothing. -/
theorem getElem?_append {m : Memory ι A L V T} {l l' : A} {n : ℕ}
    {msg msg' : Message ι A V} (h : ((m.append l msg).history l')[n]? = some msg') :
    (m.history l')[n]? = some msg' ∨ (l' = l ∧ n = (m.history l).length ∧ msg' = msg) := by
  by_cases hl : l' = l
  · subst hl
    simp only [append, Function.update_self] at h
    rcases Nat.lt_trichotomy n (m.history l').length with hn | hn | hn
    · rw [List.getElem?_append_left hn] at h
      exact Or.inl h
    · subst hn
      rw [List.getElem?_concat_length] at h
      exact Or.inr ⟨rfl, rfl, (Option.some.inj h).symm⟩
    · rw [List.getElem?_append_right (Nat.le_of_lt hn),
        List.getElem?_eq_none (by simp; omega)] at h
      exact absurd h (by simp)
  · simp only [append, Function.update_of_ne hl] at h
    exact Or.inl h

end Messages

theorem carried_le (v : View ι A) (o : StoreOrder) : carried v o ≤ v := by
  cases o with
  | relaxed => exact bot_le
  | release => exact le_refl v

section Operations

variable [DecidableEq ι]

/-- Thread `u` knows `v` from here on. -/
def setView (m : Memory ι A L V T) (u : ι) (v : View ι A) : Memory ι A L V T :=
  { m with view := Function.update m.view u v }

/-- Thread `u` loads `l` and reads its message `n`. -/
def load [DecidableEq A] (m : Memory ι A L V T) (u : ι) (l : A) (o : LoadOrder) (n : ℕ) :
    Option (V × Memory ι A L V T) :=
  if (m.view u).seen l ≤ n then
    (m.history l)[n]?.map fun msg => (msg.value, m.setView u (observe (m.view u) l n msg o))
  else none

/-- Thread `u` stores `value` in `l`. -/
def store [DecidableEq A] (m : Memory ι A L V T) (u : ι) (l : A) (o : StoreOrder) (value : V) :
    Memory ι A L V T :=
  let v := (m.view u).see l (m.history l).length
  (m.append l ⟨value, carried v o⟩).setView u v

/-- Thread `u` makes a plain access to `x`. -/
def access [DecidableEq L] (m : Memory ι A L V T) (u : ι) (x : L) (write : Bool) :
    Memory ι A L V T :=
  { m.setView u ((m.view u).tick u) with
    accesses := Function.update m.accesses x
      (⟨u, (m.view u).clock u, write⟩ :: m.accesses x)
    raced := m.raced ||
      (m.accesses x).any fun a => (a.write || write) && !decide (a.Before (m.view u)) }

/-- A plain read. -/
def read [DecidableEq L] (m : Memory ι A L V T) (u : ι) (x : L) : T × Memory ι A L V T :=
  (m.cell x, m.access u x false)

/-- A plain write. -/
def write [DecidableEq L] (m : Memory ι A L V T) (u : ι) (x : L) (value : T) :
    Memory ι A L V T :=
  { m.access u x true with cell := Function.update m.cell x value }

@[simp] theorem history_setView (m : Memory ι A L V T) (u : ι) (v : View ι A) :
    (m.setView u v).history = m.history := rfl

@[simp] theorem cell_setView (m : Memory ι A L V T) (u : ι) (v : View ι A) :
    (m.setView u v).cell = m.cell := rfl

@[simp] theorem accesses_setView (m : Memory ι A L V T) (u : ι) (v : View ι A) :
    (m.setView u v).accesses = m.accesses := rfl

@[simp] theorem raced_setView (m : Memory ι A L V T) (u : ι) (v : View ι A) :
    (m.setView u v).raced = m.raced := rfl

@[simp] theorem view_setView_self (m : Memory ι A L V T) (u : ι) (v : View ι A) :
    (m.setView u v).view u = v := Function.update_self ..

theorem view_setView_of_ne (m : Memory ι A L V T) {u w : ι} (h : w ≠ u) (v : View ι A) :
    (m.setView u v).view w = m.view w := Function.update_of_ne h ..

@[simp] theorem cell_store [DecidableEq A] (m : Memory ι A L V T) (u : ι) (l : A) (o : StoreOrder)
    (value : V) : (m.store u l o value).cell = m.cell := rfl

@[simp] theorem accesses_store [DecidableEq A] (m : Memory ι A L V T) (u : ι) (l : A)
    (o : StoreOrder) (value : V) : (m.store u l o value).accesses = m.accesses := rfl

@[simp] theorem raced_store [DecidableEq A] (m : Memory ι A L V T) (u : ι) (l : A) (o : StoreOrder)
    (value : V) : (m.store u l o value).raced = m.raced := rfl

theorem length_store_self [DecidableEq A] (m : Memory ι A L V T) (u : ι) (l : A) (o : StoreOrder)
    (value : V) : ((m.store u l o value).history l).length = (m.history l).length + 1 :=
  length_append_self ..

theorem history_store_of_ne [DecidableEq A] (m : Memory ι A L V T) (u : ι) {l l' : A} (h : l' ≠ l)
    (o : StoreOrder) (value : V) : (m.store u l o value).history l' = m.history l' :=
  Function.update_of_ne h ..

theorem view_store_self [DecidableEq A] (m : Memory ι A L V T) (u : ι) (l : A) (o : StoreOrder)
    (value : V) : (m.store u l o value).view u = (m.view u).see l (m.history l).length :=
  view_setView_self ..

theorem view_store_of_ne [DecidableEq A] (m : Memory ι A L V T) {u w : ι} (h : w ≠ u) (l : A)
    (o : StoreOrder) (value : V) : (m.store u l o value).view w = m.view w :=
  view_setView_of_ne _ h _

/-- The messages after a store: those before it, and its own. -/
theorem getElem?_store [DecidableEq A] {m : Memory ι A L V T} {u : ι} {l l' : A} {o : StoreOrder}
    {value : V} {n : ℕ} {msg : Message ι A V}
    (h : ((m.store u l o value).history l')[n]? = some msg) :
    (m.history l')[n]? = some msg ∨ (l' = l ∧ n = (m.history l).length ∧
      msg = ⟨value, carried ((m.view u).see l (m.history l).length) o⟩) :=
  getElem?_append h

theorem load_eq_some_iff [DecidableEq A] {m m' : Memory ι A L V T} {u : ι} {l : A}
    {o : LoadOrder} {n : ℕ} {v : V} :
    m.load u l o n = some (v, m') ↔ (m.view u).seen l ≤ n ∧ ∃ msg,
      (m.history l)[n]? = some msg ∧ v = msg.value ∧
        m' = m.setView u (observe (m.view u) l n msg o) := by
  unfold load
  split
  · next h =>
      rw [Option.map_eq_some_iff]
      constructor
      · rintro ⟨msg, hmsg, he⟩
        obtain ⟨rfl, rfl⟩ := Prod.mk.inj he
        exact ⟨h, msg, hmsg, rfl, rfl⟩
      · rintro ⟨-, msg, hmsg, rfl, rfl⟩
        exact ⟨msg, hmsg, rfl⟩
  · next h => simp [h]

/-- A plain access is unraced if every conflicting one happened before. -/
theorem raced_access_eq_false_iff [DecidableEq L] {m : Memory ι A L V T} {u : ι} {x : L}
    {write : Bool} :
    (m.access u x write).raced = false ↔ m.raced = false ∧
      ∀ a ∈ m.accesses x, (a.write = true ∨ write = true) → a.Before (m.view u) := by
  simp only [access, Bool.or_eq_false_iff, List.any_eq_false, Bool.and_eq_true, Bool.or_eq_true,
    Bool.not_eq_true', decide_eq_false_iff_not, not_and, not_not]

@[simp] theorem raced_write [DecidableEq L] (m : Memory ι A L V T) (u : ι) (x : L) (value : T) :
    (m.write u x value).raced = (m.access u x true).raced := rfl

theorem clock_access_self [DecidableEq L] (m : Memory ι A L V T) (u : ι) (x : L) (write : Bool) :
    ((m.access u x write).view u).clock u = (m.view u).clock u + 1 := by
  show ((m.setView u _).view u).clock u = _
  rw [view_setView_self, View.clock_tick_self]

/-- Of nobody else's accesses does anyone learn anything by a plain access. -/
theorem clock_access_of_ne [DecidableEq L] (m : Memory ι A L V T) {u w w' : ι} (x : L)
    (write : Bool) (h : w' ≠ u ∨ w ≠ u) :
    ((m.access u x write).view w).clock w' = (m.view w).clock w' := by
  show ((m.setView u _).view w).clock w' = _
  by_cases hw : w = u
  · subst hw
    rw [view_setView_self, View.clock_tick_of_ne _ (h.resolve_right (not_not.2 rfl))]
  · rw [view_setView_of_ne m hw]

theorem mem_accesses_of_mem [DecidableEq L] {m : Memory ι A L V T} {u : ι} {x x' : L}
    {write : Bool} {a : Access ι} (h : a ∈ m.accesses x') :
    a ∈ (m.access u x write).accesses x' := by
  by_cases hx : x' = x
  · subst hx
    simp only [access, Function.update_self]
    exact List.mem_cons_of_mem _ h
  · simp only [access, Function.update_of_ne hx]
    exact h

theorem mem_accesses_self [DecidableEq L] (m : Memory ι A L V T) (u : ι) (x : L) (write : Bool) :
    ⟨u, (m.view u).clock u, write⟩ ∈ (m.access u x write).accesses x := by
  simp only [access, Function.update_self]
  exact List.mem_cons_self

theorem clock_le_access [DecidableEq L] (m : Memory ι A L V T) (u w w' : ι) (x : L)
    (write : Bool) : (m.view w).clock w' ≤ ((m.access u x write).view w).clock w' := by
  by_cases h : w' ≠ u ∨ w ≠ u
  · rw [clock_access_of_ne m x write h]
  · obtain ⟨rfl, rfl⟩ : w' = u ∧ w = u := by simpa using h
    rw [clock_access_self]
    exact Nat.le_succ _

theorem seen_access [DecidableEq L] (m : Memory ι A L V T) (u w : ι) (x : L) (write : Bool)
    (l : A) : ((m.access u x write).view w).seen l = (m.view w).seen l := by
  show ((m.setView u _).view w).seen l = _
  by_cases hw : w = u
  · subst hw
    rw [view_setView_self, View.seen_tick]
  · rw [view_setView_of_ne m hw]

theorem mem_accesses_access [DecidableEq L] {m : Memory ι A L V T} {u : ι} {x x' : L}
    {write : Bool} {a : Access ι} (h : a ∈ (m.access u x write).accesses x') :
    a ∈ m.accesses x' ∨ (x' = x ∧ a = ⟨u, (m.view u).clock u, write⟩) := by
  by_cases hx : x' = x
  · subst hx
    simp only [access, Function.update_self, List.mem_cons] at h
    exact h.symm.imp_right fun he => ⟨rfl, he⟩
  · simp only [access, Function.update_of_ne hx] at h
    exact Or.inl h

end Operations

/-! ## Well-formed memories -/

/-- What holds of every memory the operations build. -/
structure Wf (m : Memory ι A L V T) : Prop where
  /-- A thread can read something. -/
  seen_lt : ∀ u l, (m.view u).seen l < (m.history l).length
  /-- A message knows of nothing newer than itself in its own location. -/
  message_seen_le : ∀ l n (msg : Message ι A V), (m.history l)[n]? = some msg → msg.view.seen l ≤ n
  message_seen_lt : ∀ l (msg : Message ι A V), msg ∈ m.history l → ∀ l',
    msg.view.seen l' < (m.history l').length
  /-- Nobody knows more of a thread's plain accesses than the thread has made. -/
  clock_le : ∀ u w, (m.view w).clock u ≤ (m.view u).clock u
  message_clock_le : ∀ l (msg : Message ι A V), msg ∈ m.history l → ∀ u,
    msg.view.clock u ≤ (m.view u).clock u
  access_before : ∀ x (a : Access ι), a ∈ m.accesses x → a.Before (m.view a.thread)

theorem wf_init (value : A → V) (cell : L → T) : (init value cell : Memory ι A L V T).Wf where
  seen_lt _ _ := Nat.zero_lt_one
  message_seen_le l n msg h := by
    obtain rfl := List.mem_singleton.1 (List.mem_of_getElem? h)
    exact Nat.zero_le n
  message_seen_lt l msg h l' := by
    obtain rfl := List.mem_singleton.1 h
    exact Nat.zero_lt_one
  clock_le _ _ := Nat.le_refl 0
  message_clock_le l msg h u := by
    obtain rfl := List.mem_singleton.1 h
    exact Nat.le_refl 0
  access_before _ _ h := absurd h List.not_mem_nil

/-- What a load shows its reader. -/
theorem Wf.seen_observe [DecidableEq A] {m : Memory ι A L V T} (h : m.Wf) {u : ι} {l : A} {n : ℕ}
    {msg : Message ι A V} (hmsg : (m.history l)[n]? = some msg) (o : LoadOrder) :
    (observe (m.view u) l n msg o).seen l = n := by
  cases o with
  | relaxed => exact View.seen_see_self ..
  | acquire =>
      show max (((m.view u).see l n).seen l) (msg.view.seen l) = n
      rw [View.seen_see_self]
      exact max_eq_left (h.message_seen_le l n msg hmsg)

theorem Wf.seen_observe_lt [DecidableEq A] {m : Memory ι A L V T} (h : m.Wf) {u : ι} {l : A}
    {n : ℕ} {msg : Message ι A V} (hmsg : (m.history l)[n]? = some msg) (o : LoadOrder) (l' : A) :
    (observe (m.view u) l n msg o).seen l' < (m.history l').length := by
  by_cases hl : l' = l
  · subst hl
    rw [h.seen_observe hmsg]
    exact (List.getElem?_eq_some_iff.1 hmsg).1
  · have hself : ((m.view u).see l n).seen l' < (m.history l').length := by
      rw [View.seen_see_of_ne _ hl]
      exact h.seen_lt u l'
    cases o with
    | relaxed => exact hself
    | acquire =>
        exact max_lt hself (h.message_seen_lt l msg (List.mem_of_getElem? hmsg) l')

theorem Wf.clock_observe_le [DecidableEq A] {m : Memory ι A L V T} (h : m.Wf) {u : ι} {l : A}
    {n : ℕ} {msg : Message ι A V} (hmsg : (m.history l)[n]? = some msg) (o : LoadOrder) (w : ι) :
    (observe (m.view u) l n msg o).clock w ≤ (m.view w).clock w := by
  cases o with
  | relaxed => exact h.clock_le w u
  | acquire =>
      exact max_le (h.clock_le w u) (h.message_clock_le l msg (List.mem_of_getElem? hmsg) w)

theorem Wf.clock_observe_self [DecidableEq A] {m : Memory ι A L V T} (h : m.Wf) {u : ι} {l : A}
    {n : ℕ} {msg : Message ι A V} (hmsg : (m.history l)[n]? = some msg) (o : LoadOrder) :
    (observe (m.view u) l n msg o).clock u = (m.view u).clock u := by
  refine Nat.le_antisymm (h.clock_observe_le hmsg o u) ?_
  cases o with
  | relaxed => exact Nat.le_refl _
  | acquire => exact Nat.le_max_left _ _

theorem Wf.append [DecidableEq A] {m : Memory ι A L V T} (h : m.Wf) {l : A} {msg : Message ι A V}
    (hself : msg.view.seen l ≤ (m.history l).length)
    (hseen : ∀ l', l' ≠ l → msg.view.seen l' < (m.history l').length)
    (hclock : ∀ u, msg.view.clock u ≤ (m.view u).clock u) : (m.append l msg).Wf := by
  refine ⟨fun u l' => Nat.lt_of_lt_of_le (h.seen_lt u l') (length_le_append m l msg l'),
    fun l' n msg' hmsg => ?_, fun l' msg' hmsg l'' => ?_, h.clock_le,
    fun l' msg' hmsg u => ?_, h.access_before⟩
  · rcases getElem?_append hmsg with hold | ⟨rfl, rfl, rfl⟩
    · exact h.message_seen_le l' n msg' hold
    · exact hself
  · rcases mem_append hmsg with hold | ⟨rfl, rfl⟩
    · exact Nat.lt_of_lt_of_le (h.message_seen_lt l' msg' hold l'') (length_le_append m l msg l'')
    · by_cases hl : l'' = l'
      · subst hl
        rw [length_append_self]
        exact Nat.lt_succ_of_le hself
      · exact Nat.lt_of_lt_of_le (hseen l'' hl) (length_le_append m l' msg' l'')
  · rcases mem_append hmsg with hold | ⟨rfl, rfl⟩
    · exact h.message_clock_le l' msg' hold u
    · exact hclock u

variable [DecidableEq ι]

/-- Learning a view that knows nothing out of the ordinary. -/
theorem Wf.setView {m : Memory ι A L V T} (h : m.Wf) {u : ι} {v : View ι A}
    (hle : m.view u ≤ v) (hseen : ∀ l, v.seen l < (m.history l).length)
    (hown : v.clock u = (m.view u).clock u) (hclock : ∀ w, v.clock w ≤ (m.view w).clock w) :
    (m.setView u v).Wf := by
  -- no thread's count of its own accesses changes
  have hself : ∀ w, ((m.setView u v).view w).clock w = (m.view w).clock w := by
    intro w
    by_cases hw : w = u
    · subst hw
      rw [view_setView_self, hown]
    · rw [view_setView_of_ne m hw]
  refine ⟨fun w l => ?_, h.message_seen_le, h.message_seen_lt, fun w w' => ?_,
    fun l msg hmsg w => ?_, fun x a ha => ?_⟩
  · by_cases hw : w = u
    · subst hw
      rw [view_setView_self]
      exact hseen l
    · rw [view_setView_of_ne m hw]
      exact h.seen_lt w l
  · rw [hself]
    by_cases hw : w' = u
    · subst hw
      rw [view_setView_self]
      exact hclock w
    · rw [view_setView_of_ne m hw]
      exact h.clock_le w w'
  · rw [hself]
    exact h.message_clock_le l msg hmsg w
  · show a.time < _
    rw [hself]
    exact h.access_before x a ha

theorem Wf.load [DecidableEq A] {m m' : Memory ι A L V T} (h : m.Wf) {u : ι} {l : A}
    {o : LoadOrder} {n : ℕ} {v : V} (hload : m.load u l o n = some (v, m')) : m'.Wf := by
  obtain ⟨hn, msg, hmsg, -, rfl⟩ := load_eq_some_iff.1 hload
  exact h.setView (le_observe hn msg o) (h.seen_observe_lt hmsg o) (h.clock_observe_self hmsg o)
    (h.clock_observe_le hmsg o)

/-- The newest message can always be read. -/
theorem Wf.load_newest [DecidableEq A] {m : Memory ι A L V T} (h : m.Wf) (u : ι) {l : A}
    (o : LoadOrder) {n : ℕ} (hn : (m.history l).length = n + 1) :
    ∃ v m', m.load u l o n = some (v, m') := by
  have hlt : n < (m.history l).length := by omega
  have hseen := h.seen_lt u l
  exact ⟨_, _, load_eq_some_iff.2
    ⟨by omega, _, List.getElem?_eq_getElem hlt, rfl, rfl⟩⟩

theorem Wf.store [DecidableEq A] {m : Memory ι A L V T} (h : m.Wf) (u : ι) (l : A)
    (o : StoreOrder) (value : V) : (m.store u l o value).Wf := by
  have hsee : m.view u ≤ (m.view u).see l (m.history l).length :=
    View.le_see (Nat.le_of_lt (h.seen_lt u l))
  have hother : ∀ l', l' ≠ l →
      ((m.view u).see l (m.history l).length).seen l' < (m.history l').length := by
    intro l' hl
    rw [View.seen_see_of_ne _ hl]
    exact h.seen_lt u l'
  refine Wf.setView (h.append ?_ (fun l' hl => ?_) fun w => ?_) hsee (fun l' => ?_) rfl
    fun w => h.clock_le w u
  · exact Nat.le_trans ((carried_le _ o).1 l) (Nat.le_of_eq (View.seen_see_self ..))
  · exact Nat.lt_of_le_of_lt ((carried_le _ o).1 l') (hother l' hl)
  · exact Nat.le_trans ((carried_le _ o).2 w) (h.clock_le w u)
  · by_cases hl : l' = l
    · subst hl
      rw [View.seen_see_self, length_append_self]
      exact Nat.lt_succ_self _
    · exact Nat.lt_of_lt_of_le (hother l' hl) (length_le_append m l _ l')

theorem Wf.access [DecidableEq L] {m : Memory ι A L V T} (h : m.Wf) (u : ι) (x : L)
    (write : Bool) : (m.access u x write).Wf := by
  refine ⟨fun w l => ?_, h.message_seen_le, h.message_seen_lt, fun w w' => ?_,
    fun l msg hmsg w => ?_, fun x' a ha => ?_⟩
  · rw [seen_access]
    exact h.seen_lt w l
  · by_cases hw : w ≠ u ∨ w' ≠ u
    · rw [clock_access_of_ne m x write hw]
      exact Nat.le_trans (h.clock_le w w') (clock_le_access m u w w x write)
    · obtain ⟨rfl, rfl⟩ : w = u ∧ w' = u := by simpa using hw
      exact Nat.le_refl _
  · exact Nat.le_trans (h.message_clock_le l msg hmsg w) (clock_le_access m u w w x write)
  · rcases mem_accesses_access ha with hold | ⟨rfl, rfl⟩
    · exact Nat.lt_of_lt_of_le (h.access_before x' a hold)
        (clock_le_access m u a.thread a.thread x write)
    · show _ < ((m.access u x' write).view u).clock u
      rw [clock_access_self]
      exact Nat.lt_succ_self _

theorem Wf.read [DecidableEq L] {m : Memory ι A L V T} (h : m.Wf) (u : ι) (x : L) :
    (m.read u x).2.Wf := h.access u x false

theorem Wf.write [DecidableEq L] {m : Memory ι A L V T} (h : m.Wf) (u : ι) (x : L) (value : T) :
    (m.write u x value).Wf := by
  have hacc := h.access u x true
  exact ⟨hacc.seen_lt, hacc.message_seen_le, hacc.message_seen_lt, hacc.clock_le,
    hacc.message_clock_le, hacc.access_before⟩

/-! ## Channels -/

theorem view_le_setView {m : Memory ι A L V T} {u : ι} {v : View ι A}
    (h : m.view u ≤ v) (w : ι) : m.view w ≤ (m.setView u v).view w := by
  by_cases hw : w = u
  · subst hw
    rwa [view_setView_self]
  · rw [view_setView_of_ne m hw]

theorem view_le_access [DecidableEq L] (m : Memory ι A L V T) (u : ι) (x : L) (write : Bool)
    (w : ι) : m.view w ≤ (m.access u x write).view w :=
  view_le_setView (View.le_tick _ u) w

/-- `l` carries what its one writer knows to a reader. -/
structure Channel (m : Memory ι A L V T) (writer reader : ι) (l : A) : Prop where
  /-- The writer has seen its own stores. -/
  own : (m.view writer).seen l + 1 = (m.history l).length
  released : ∀ msg : Message ι A V, msg ∈ m.history l → msg.view ≤ m.view writer
  ordered : ∀ (i j : ℕ) (msg msg' : Message ι A V), i ≤ j → (m.history l)[i]? = some msg →
    (m.history l)[j]? = some msg' → msg.view ≤ msg'.view
  /-- Whatever came with a message the reader has seen, or could have seen before it. -/
  acquired : ∀ (i : ℕ) (msg : Message ι A V), i ≤ (m.view reader).seen l →
    (m.history l)[i]? = some msg → msg.view ≤ m.view reader

namespace Channel

variable {m m' : Memory ι A L V T} {writer reader : ι} {l : A}

omit [DecidableEq ι] in
theorem init (value : A → V) (cell : L → T) (writer reader : ι) (l : A) :
    (init value cell : Memory ι A L V T).Channel writer reader l where
  own := rfl
  released msg h := by
    obtain rfl := List.mem_singleton.1 h
    exact le_refl _
  ordered i j msg msg' _ h h' := by
    obtain rfl := List.mem_singleton.1 (List.mem_of_getElem? h)
    obtain rfl := List.mem_singleton.1 (List.mem_of_getElem? h')
    exact le_refl _
  acquired i msg _ h := by
    obtain rfl := List.mem_singleton.1 (List.mem_of_getElem? h)
    exact le_refl _

omit [DecidableEq ι] in
/-- What stores nothing in `l` and shows the reader none of its messages keeps the channel. -/
theorem keep (h : m.Channel writer reader l) (hwf : m'.Wf) (hl : m'.history l = m.history l)
    (hview : ∀ u, m.view u ≤ m'.view u)
    (hreader : (m'.view reader).seen l = (m.view reader).seen l) :
    m'.Channel writer reader l where
  own := by
    have hlt := hwf.seen_lt writer l
    have hle := (hview writer).1 l
    have hown := h.own
    rw [hl] at hlt ⊢
    simp only [View.seen] at hlt hle hown ⊢
    omega
  released msg hmsg := (h.released msg (hl ▸ hmsg)).trans (hview writer)
  ordered := hl ▸ h.ordered
  acquired i msg hi hmsg := by
    rw [hreader] at hi
    rw [hl] at hmsg
    exact (h.acquired i msg hi hmsg).trans (hview reader)

/-- **An acquire load of the reader.** It learns what came with every message up to the one it
    reads. -/
theorem acquire [DecidableEq A] (h : m.Channel writer reader l) (hwf : m.Wf) (hne : writer ≠ reader)
    {n : ℕ} {v : V} (hload : m.load reader l .acquire n = some (v, m')) :
    m'.Channel writer reader l := by
  obtain ⟨hn, msg, hmsg, -, rfl⟩ := load_eq_some_iff.1 hload
  refine ⟨?_, ?_, h.ordered, fun i msg' hi hmsg' => ?_⟩
  · rw [view_setView_of_ne m hne]
    exact h.own
  · rw [view_setView_of_ne m hne]
    exact h.released
  · rw [view_setView_self] at hi ⊢
    rw [hwf.seen_observe hmsg] at hi
    exact (h.ordered i n msg' msg hi hmsg' hmsg).trans le_sup_right

/-- **A release store of the writer.** -/
theorem release [DecidableEq A] (h : m.Channel writer reader l) (hwf : m.Wf) (hne : writer ≠ reader)
    (value : V) : (m.store writer l .release value).Channel writer reader l := by
  have hlt := hwf.seen_lt writer l
  have hsee : m.view writer ≤ (m.view writer).see l (m.history l).length :=
    View.le_see (Nat.le_of_lt hlt)
  unfold store
  refine ⟨?_, fun msg hmsg => ?_, fun i j msg msg' hij hmsg hmsg' => ?_,
    fun i msg hi hmsg => ?_⟩
  · rw [view_setView_self, View.seen_see_self, history_setView, length_append_self]
  · rw [view_setView_self]
    rcases mem_append hmsg with hold | ⟨-, rfl⟩
    · exact (h.released msg hold).trans hsee
    · exact le_refl _
  · rcases getElem?_append hmsg' with hold' | ⟨-, rfl, rfl⟩
    · rcases getElem?_append hmsg with hold | ⟨-, rfl, rfl⟩
      · exact h.ordered i j msg msg' hij hold hold'
      · exact absurd (List.getElem?_eq_some_iff.1 hold').1 (Nat.not_lt.2 hij)
    · rcases getElem?_append hmsg with hold | ⟨-, rfl, rfl⟩
      · exact (h.released msg (List.mem_of_getElem? hold)).trans hsee
      · exact le_refl _
  · rw [view_setView_of_ne _ (Ne.symm hne)] at hi ⊢
    rcases getElem?_append hmsg with hold | ⟨-, rfl, rfl⟩
    · exact h.acquired i msg hi hold
    · exact absurd (hwf.seen_lt reader l) (Nat.not_lt.2 hi)

end Channel

end Memory

end ReleaseAcquire
