import Mathlib.Data.Nat.Notation

set_option autoImplicit false

/-! # Loops that end

A `while (true)` loop is a body, which either goes on with a new state or leaves the loop with a
result, together with a variant that every iteration decreases that goes on: a loop that carries
its own termination, so that `Loop.run` is a total function that can be evaluated. Proofs use two
rules:

* `run_of_again` / `run_of_leave`, or `run_eq` for both — one iteration;
* `run_satisfies` — an invariant of the iterations and a postcondition of the loop. -/

/-- What one iteration comes to: the state of the next one, or the result the loop is left with. -/
inductive Iteration (σ ρ : Type*) where
  | again (s : σ)
  | leave (r : ρ)

/-- The next state satisfies the invariant, or the result the postcondition. -/
def Iteration.Satisfies {σ ρ : Type*} (inv : σ → Prop) (post : ρ → Prop) : Iteration σ ρ → Prop
  | .again s => inv s
  | .leave r => post r

/-- A `while (true)` loop that every iteration brings closer to its end. -/
structure Loop (σ ρ : Type*) where
  body : σ → Iteration σ ρ
  variant : σ → ℕ
  decreases : ∀ s t, body s = .again t → variant t < variant s

namespace Loop

variable {σ ρ : Type*}

/-- Iterate from a state whose variant is below a bound. -/
def runBelow (l : Loop σ ρ) : (n : ℕ) → (s : σ) → l.variant s < n → ρ
  | 0, _, h => absurd h (Nat.not_lt_zero _)
  | n + 1, s, h =>
      match hbody : l.body s with
      | .again t =>
          l.runBelow n t (Nat.lt_of_lt_of_le (l.decreases s t hbody) (Nat.le_of_lt_succ h))
      | .leave r => r

/-- What the loop comes to, entered in state `s`. -/
def run (l : Loop σ ρ) (s : σ) : ρ := l.runBelow (l.variant s + 1) s (Nat.lt_succ_self _)

variable {l : Loop σ ρ} {s t : σ} {r : ρ} {n m : ℕ}

/-! ## One iteration -/

theorem runBelow_of_leave (h : l.variant s < n) (hbody : l.body s = .leave r) :
    l.runBelow n s h = r := by
  cases n with
  | zero => exact absurd h (Nat.not_lt_zero _)
  | succ n =>
      unfold runBelow
      split
      · next t ht => exact absurd (hbody.symm.trans ht) (by simp)
      · next r' hr => exact (Iteration.leave.inj (hbody.symm.trans hr)).symm

theorem runBelow_of_again (h : l.variant s < n + 1) (hbody : l.body s = .again t) :
    l.runBelow (n + 1) s h = l.runBelow n t
      (Nat.lt_of_lt_of_le (l.decreases s t hbody) (Nat.le_of_lt_succ h)) := by
  rw [runBelow]
  split
  · next t' ht =>
      obtain rfl := Iteration.again.inj (hbody.symm.trans ht)
      rfl
  · next r hr => exact absurd (hbody.symm.trans hr) (by simp)

/-- The bound makes no difference. -/
theorem runBelow_eq (h : l.variant s < n) (h' : l.variant s < m) :
    l.runBelow n s h = l.runBelow m s h' := by
  induction n generalizing s m with
  | zero => exact absurd h (Nat.not_lt_zero _)
  | succ n ih =>
      cases m with
      | zero => exact absurd h' (Nat.not_lt_zero _)
      | succ m =>
          cases hbody : l.body s with
          | leave r => rw [runBelow_of_leave h hbody, runBelow_of_leave h' hbody]
          | again t =>
              rw [runBelow_of_again h hbody, runBelow_of_again h' hbody]
              exact ih _ _

theorem run_of_leave (hbody : l.body s = .leave r) : l.run s = r :=
  runBelow_of_leave _ hbody

theorem run_of_again (hbody : l.body s = .again t) : l.run s = l.run t := by
  unfold run
  rw [runBelow_of_again _ hbody]
  exact runBelow_eq _ _

/-- What the loop comes to after an iteration. -/
def finish (l : Loop σ ρ) : Iteration σ ρ → ρ
  | .again s => l.run s
  | .leave r => r

theorem run_eq (l : Loop σ ρ) (s : σ) : l.run s = l.finish (l.body s) := by
  cases hbody : l.body s with
  | again t => exact run_of_again hbody
  | leave r => exact run_of_leave hbody

/-! ## Invariants -/

/-- What holds of a state if it holds of the next one holds of every state. -/
theorem variant_induction (P : σ → Prop) (h : ∀ s, (∀ t, l.body s = .again t → P t) → P s)
    (s : σ) : P s :=
  (InvImage.wf l.variant Nat.lt_wfRel.wf).induction s
    fun s ih => h s fun t ht => ih t (l.decreases s t ht)

/-- **The loop rule.** If every iteration that begins in the invariant comes to the invariant or to
    the postcondition, the loop comes to the postcondition. -/
theorem run_satisfies (inv : σ → Prop) (post : ρ → Prop)
    (hbody : ∀ s, inv s → (l.body s).Satisfies inv post) (hs : inv s) : post (l.run s) := by
  induction s using l.variant_induction with
  | h s ih =>
      have hsat := hbody s hs
      cases hstep : l.body s with
      | again t =>
          rw [hstep] at hsat
          rw [run_of_again hstep]
          exact ih t hstep hsat
      | leave r =>
          rw [hstep] at hsat
          rw [run_of_leave hstep]
          exact hsat

end Loop
