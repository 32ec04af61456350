import Mathlib.Data.List.Basic

set_option autoImplicit false

/-! # Bounded FIFO

The abstract queue a concurrent queue is measured against. Its state is the list of elements held,
oldest first; a *trace* records the completed operations with their results, in the order they took
effect. `Replays bound tr held` says that the bounded FIFO can produce the trace `tr` and then holds
`held`: a push needs room, a refused push a full queue, a pop takes the oldest element, a refused
pop an empty queue.

`Replays.balanced` is the FIFO law: what was pushed is what was popped followed by what is still
held, in order and each element once. -/

variable {T : Type*}

/-- A completed operation with its result. -/
inductive FifoEvent (T : Type*) where
  | push (v : T)
  | pushFull (v : T)
  | pop (v : T)
  | popEmpty

namespace BoundedFifo

/-- The values of the successful pushes of a trace. -/
def pushed (tr : List (FifoEvent T)) : List T :=
  tr.filterMap fun | .push v => some v | _ => none

/-- The values of the successful pops of a trace. -/
def popped (tr : List (FifoEvent T)) : List T :=
  tr.filterMap fun | .pop v => some v | _ => none

/-- One operation of a FIFO that holds at most `bound` elements. -/
inductive Step (bound : ℕ) : List T → FifoEvent T → List T → Prop
  | push {held : List T} (v : T) (room : held.length < bound) :
      Step bound held (.push v) (held ++ [v])
  | pushFull {held : List T} (v : T) (full : held.length = bound) :
      Step bound held (.pushFull v) held
  | pop {held : List T} (v : T) : Step bound (v :: held) (.pop v) held
  | popEmpty : Step bound [] .popEmpty []

/-- A trace and the elements held grow by at most one operation. -/
def Advances (bound : ℕ) (tr : List (FifoEvent T)) (held : List T) (tr' : List (FifoEvent T))
    (held' : List T) : Prop :=
  (tr' = tr ∧ held' = held) ∨ ∃ e, tr' = tr ++ [e] ∧ Step bound held e held'

/-- Starting empty, the FIFO performs `tr` and then holds the given elements. -/
inductive Replays (bound : ℕ) : List (FifoEvent T) → List T → Prop
  | nil : Replays bound [] []
  | snoc {tr : List (FifoEvent T)} {e : FifoEvent T} {held held' : List T}
      (before : Replays bound tr held) (op : Step bound held e held') :
      Replays bound (tr ++ [e]) held'

@[simp] theorem pushed_nil : pushed ([] : List (FifoEvent T)) = [] := rfl

@[simp] theorem popped_nil : popped ([] : List (FifoEvent T)) = [] := rfl

theorem pushed_append (tr tr' : List (FifoEvent T)) :
    pushed (tr ++ tr') = pushed tr ++ pushed tr' := List.filterMap_append

theorem popped_append (tr tr' : List (FifoEvent T)) :
    popped (tr ++ tr') = popped tr ++ popped tr' := List.filterMap_append

@[simp] theorem pushed_concat_push (tr : List (FifoEvent T)) (v : T) :
    pushed (tr ++ [.push v]) = pushed tr ++ [v] := pushed_append tr _

@[simp] theorem popped_concat_push (tr : List (FifoEvent T)) (v : T) :
    popped (tr ++ [.push v]) = popped tr := (popped_append tr _).trans (List.append_nil _)

@[simp] theorem pushed_concat_pushFull (tr : List (FifoEvent T)) (v : T) :
    pushed (tr ++ [.pushFull v]) = pushed tr := (pushed_append tr _).trans (List.append_nil _)

@[simp] theorem popped_concat_pushFull (tr : List (FifoEvent T)) (v : T) :
    popped (tr ++ [.pushFull v]) = popped tr := (popped_append tr _).trans (List.append_nil _)

@[simp] theorem pushed_concat_pop (tr : List (FifoEvent T)) (v : T) :
    pushed (tr ++ [.pop v]) = pushed tr := (pushed_append tr _).trans (List.append_nil _)

@[simp] theorem popped_concat_pop (tr : List (FifoEvent T)) (v : T) :
    popped (tr ++ [.pop v]) = popped tr ++ [v] := popped_append tr _

@[simp] theorem pushed_concat_popEmpty (tr : List (FifoEvent T)) :
    pushed (tr ++ [.popEmpty]) = pushed tr := (pushed_append tr _).trans (List.append_nil _)

@[simp] theorem popped_concat_popEmpty (tr : List (FifoEvent T)) :
    popped (tr ++ [.popEmpty]) = popped tr := (popped_append tr _).trans (List.append_nil _)

/-- The books balance: what was pushed is what was popped followed by what is held, in order and
    each element once. -/
def Balanced (tr : List (FifoEvent T)) (held : List T) : Prop := pushed tr = popped tr ++ held

theorem balanced_nil : Balanced ([] : List (FifoEvent T)) [] := rfl

/-- One operation keeps the books balanced. -/
theorem Balanced.step {bound : ℕ} {tr : List (FifoEvent T)} {e : FifoEvent T}
    {held held' : List T} (h : Balanced tr held) (op : Step bound held e held') :
    Balanced (tr ++ [e]) held' := by
  unfold Balanced at h ⊢
  cases op with
  | push v _ => simp [h]
  | pushFull v _ => simp [h]
  | pop v => simp [h]
  | popEmpty => simp [h]

/-- A refused push keeps the books balanced, justified or not. -/
theorem Balanced.pushFull {tr : List (FifoEvent T)} {held : List T} (h : Balanced tr held) (v : T) :
    Balanced (tr ++ [.pushFull v]) held := by
  unfold Balanced at h ⊢
  rw [pushed_concat_pushFull, popped_concat_pushFull, h]

theorem Balanced.popped_prefix {tr : List (FifoEvent T)} {held : List T} (h : Balanced tr held) :
    popped tr <+: pushed tr :=
  ⟨held, h.symm⟩

/-- **The FIFO law.** Every trace of the bounded FIFO balances. -/
theorem Replays.balanced {bound : ℕ} {tr : List (FifoEvent T)} {held : List T}
    (h : Replays bound tr held) : Balanced tr held := by
  induction h with
  | nil => exact balanced_nil
  | snoc _ op ih => exact ih.step op

/-- The operations of a trace that were not refused. -/
def completed (tr : List (FifoEvent T)) : List (FifoEvent T) :=
  tr.filter fun | .push _ | .pop _ => true | _ => false

theorem completed_append (tr tr' : List (FifoEvent T)) :
    completed (tr ++ tr') = completed tr ++ completed tr' := List.filter_append ..

/-- A refusal leaves no element behind and takes none. -/
theorem pushed_completed (tr : List (FifoEvent T)) : pushed (completed tr) = pushed tr := by
  induction tr with
  | nil => rfl
  | cons e tr ih =>
      rw [← List.singleton_append, completed_append, pushed_append, pushed_append, ih]
      cases e <;> rfl

theorem popped_completed (tr : List (FifoEvent T)) : popped (completed tr) = popped tr := by
  induction tr with
  | nil => rfl
  | cons e tr ih =>
      rw [← List.singleton_append, completed_append, popped_append, popped_append, ih]
      cases e <;> rfl

theorem Replays.advance {bound : ℕ} {tr tr' : List (FifoEvent T)} {held held' : List T}
    (h : Replays bound tr held) (hadv : Advances bound tr held tr' held') :
    Replays bound tr' held' := by
  rcases hadv with ⟨rfl, rfl⟩ | ⟨e, rfl, op⟩
  · exact h
  · exact h.snoc op

theorem Advances.of_concat {bound : ℕ} {tr tr' : List (FifoEvent T)} {held held' : List T}
    {e : FifoEvent T} (h : Advances bound tr held tr' held') (htr : tr' = tr ++ [e]) :
    Step bound held e held' := by
  rcases h with ⟨rfl, rfl⟩ | ⟨e', rfl, op⟩
  · exact absurd htr (by simp)
  · obtain rfl : e' = e := by simpa using htr
    exact op

end BoundedFifo
