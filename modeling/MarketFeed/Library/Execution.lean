import Mathlib.Data.List.Basic

set_option autoImplicit false

/-! # Runs of partial step functions

A concurrent program is given by a partial step function `step : σ → α → Option σ`: `step s a` is
the state after action `a`, and `none` where `a` is not enabled in `s`. An interleaving is a list
of actions and `run` executes it. This file provides the ways the development reasons about every
interleaving at once:

* `run_invariant` / `run_invariant_along` — what every step preserves, every run preserves, the
  second form for runs whose steps all meet a side condition (`Along`);
* `run_invariant_history` — the same for what relates the state to the actions taken so far;
* `run_record_mono` — what every step only adds to, every run only adds to;
* `run_simulates` — if every concrete step is matched by some abstract steps, every concrete run is
  matched by an abstract run;
* `AtEach` — a property of every element of a recorded history together with its past. -/

namespace Execution

variable {σ τ α β : Type*} {step : σ → α → Option σ}

/-- Execute a list of actions; `none` as soon as one of them is not enabled. -/
def run (step : σ → α → Option σ) : σ → List α → Option σ
  | s, [] => some s
  | s, a :: as => (step s a).bind (run step · as)

@[simp] theorem run_nil (s : σ) : run step s [] = some s := rfl

@[simp] theorem run_cons (s : σ) (a : α) (as : List α) :
    run step s (a :: as) = (step s a).bind (run step · as) := rfl

theorem run_append (s : σ) (as bs : List α) :
    run step s (as ++ bs) = (run step s as).bind (run step · bs) := by
  induction as generalizing s with
  | nil => rfl
  | cons a as ih =>
      cases h : step s a with
      | none => simp only [List.cons_append, run_cons, h, Option.bind_none]
      | some t => simp only [List.cons_append, run_cons, h, Option.bind_some, ih]

/-! ## Invariants -/

/-- Every step of the run from `s` along `as` is taken in a state where `G` allows it. -/
def Along (step : σ → α → Option σ) (G : σ → α → Prop) : σ → List α → Prop
  | _, [] => True
  | s, a :: as => G s a ∧ ∀ t, step s a = some t → Along step G t as

/-- A side condition that can be tested can be tested along a run. -/
instance decidableAlong {G : σ → α → Prop} [∀ s a, Decidable (G s a)] :
    ∀ s as, Decidable (Along step G s as)
  | _, [] => isTrue trivial
  | s, a :: as =>
      match h : step s a with
      | none => decidable_of_iff (G s a) (by simp [Along, h])
      | some t =>
          have : Decidable (Along step G t as) := decidableAlong t as
          decidable_of_iff (G s a ∧ Along step G t as) (by simp [Along, h])

/-- What every `G`-step preserves holds after every run whose steps all meet `G`. -/
theorem run_invariant_along {G : σ → α → Prop} (Inv : σ → Prop)
    (hstep : ∀ s a t, Inv s → G s a → step s a = some t → Inv t) {s u : σ} {as : List α}
    (hs : Inv s) (hG : Along step G s as) (hrun : run step s as = some u) : Inv u := by
  induction as generalizing s with
  | nil => exact Option.some.inj hrun ▸ hs
  | cons a as ih =>
      obtain ⟨t, ht, hrest⟩ := Option.bind_eq_some_iff.1 hrun
      exact ih (hstep s a t hs hG.1 ht) (hG.2 t ht) hrest

/-- A relation between the actions taken so far and the state they have led to, kept by every step,
    holds after every run. -/
theorem run_invariant_history (Inv : List α → σ → Prop)
    (hstep : ∀ done s a t, Inv done s → step s a = some t → Inv (done ++ [a]) t)
    {s u : σ} {as : List α} (hs : Inv [] s) (hrun : run step s as = some u) : Inv as u := by
  suffices h : ∀ done s, Inv done s → run step s as = some u → Inv (done ++ as) u from
    h [] s hs hrun
  clear hs hrun s
  induction as with
  | nil =>
      intro done s hs hrun
      rw [List.append_nil]
      exact Option.some.inj hrun ▸ hs
  | cons a as ih =>
      intro done s hs hrun
      obtain ⟨t, ht, hrest⟩ := Option.bind_eq_some_iff.1 hrun
      have hrec := ih (done ++ [a]) t (hstep done s a t hs ht) hrest
      rwa [List.append_assoc] at hrec

/-- What every step preserves holds after every run. -/
theorem run_invariant (Inv : σ → Prop) (hstep : ∀ s a t, Inv s → step s a = some t → Inv t)
    {s u : σ} {as : List α} (hs : Inv s) (hrun : run step s as = some u) : Inv u :=
  run_invariant_history (fun _ t => Inv t) (fun _ => hstep) hs hrun

theorem run_record_mono {record : σ → List β}
    (hstep : ∀ s a t, step s a = some t → record s <+: record t) {s u : σ} {as : List α}
    (hrun : run step s as = some u) : record s <+: record u :=
  run_invariant (fun t => record s <+: record t) (fun _ _ _ h hs => h.trans (hstep _ _ _ hs))
    List.prefix_rfl hrun

/-! ## Simulation -/

/-- A concrete step matched by abstract steps gives a concrete run matched by an abstract run. -/
theorem run_simulates {astep : τ → β → Option τ} {R : σ → τ → Prop}
    (hstep : ∀ s t a s', R s t → step s a = some s' →
      ∃ bs t', run astep t bs = some t' ∧ R s' t')
    {s s' : σ} {t : τ} {as : List α} (hR : R s t) (hrun : run step s as = some s') :
    ∃ bs t', run astep t bs = some t' ∧ R s' t' := by
  induction as generalizing s t with
  | nil => exact ⟨[], t, rfl, Option.some.inj hrun ▸ hR⟩
  | cons a as ih =>
      obtain ⟨s₁, hs₁, hrest⟩ := Option.bind_eq_some_iff.1 hrun
      obtain ⟨bs, t₁, hbs, hR₁⟩ := hstep s t a s₁ hR hs₁
      obtain ⟨cs, t', hcs, hR'⟩ := ih hR₁ hrest
      refine ⟨bs ++ cs, t', ?_, hR'⟩
      rw [run_append, hbs, Option.bind_some, hcs]

/-! ## Properties of a history

A filter or a protocol that acts on its past is specified by what it does at each element of a
sequence, given the elements before it, without mentioning its state. -/

/-- `P` holds of every element of `xs` together with the elements before it. -/
def AtEach (P : List α → α → Prop) (xs : List α) : Prop :=
  ∀ pre x post, xs = pre ++ x :: post → P pre x

theorem atEach_nil (P : List α → α → Prop) : AtEach P [] :=
  fun pre x post h => absurd h.symm (by simp)

theorem atEach_concat {P : List α → α → Prop} {xs : List α} {x : α} :
    AtEach P (xs ++ [x]) ↔ AtEach P xs ∧ P xs x := by
  constructor
  · refine fun h => ⟨fun pre y post hsplit => ?_, h xs x [] rfl⟩
    exact h pre y (post ++ [x]) (by rw [hsplit]; simp)
  · rintro ⟨hxs, hx⟩ pre y post hsplit
    rcases List.eq_nil_or_concat post with rfl | ⟨post', z, rfl⟩
    · obtain ⟨rfl, hxy⟩ := List.append_inj' hsplit rfl
      obtain rfl : x = y := by simpa using hxy
      exact hx
    · have hsplit' : xs ++ [x] = (pre ++ y :: post') ++ [z] := by simpa using hsplit
      exact hxs pre y post' (List.append_inj' hsplit' rfl).1

theorem AtEach.of_append {P : List α → α → Prop} {xs ys : List α} (h : AtEach P (xs ++ ys)) :
    AtEach P xs :=
  fun pre x post hsplit => h pre x (post ++ ys) (by rw [hsplit]; simp)

theorem atEach_cons {P : List α → α → Prop} {x : α} {xs : List α} :
    AtEach P (x :: xs) ↔ P [] x ∧ AtEach (fun pre y => P (x :: pre) y) xs := by
  constructor
  · refine fun h => ⟨h [] x xs rfl, fun pre y post hsplit => h (x :: pre) y post ?_⟩
    rw [hsplit]
    rfl
  · rintro ⟨hx, hxs⟩ pre y post hsplit
    cases pre with
    | nil =>
        obtain ⟨rfl, rfl⟩ := List.cons_eq_cons.1 hsplit
        exact hx
    | cons z pre =>
        obtain ⟨rfl, hrest⟩ := List.cons_eq_cons.1 hsplit
        exact hxs pre y post hrest

/-- A property of each element that can be tested can be tested of a history. -/
instance decidableAtEach : ∀ (P : List α → α → Prop) [∀ pre x, Decidable (P pre x)] (xs : List α),
    Decidable (AtEach P xs)
  | P, _, [] => isTrue (atEach_nil P)
  | P, _, x :: xs =>
      have : Decidable (AtEach (fun pre y => P (x :: pre) y) xs) := decidableAtEach _ xs
      decidable_of_iff (P [] x ∧ AtEach (fun pre y => P (x :: pre) y) xs) atEach_cons.symm

theorem atEach_singleton {P : List α → α → Prop} {x : α} : AtEach P [x] ↔ P [] x := by
  rw [← List.nil_append [x], atEach_concat]
  exact and_iff_right (atEach_nil P)

end Execution
