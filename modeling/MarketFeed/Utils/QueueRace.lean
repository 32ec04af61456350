import MarketFeed.Utils.QueueWeak

set_option autoImplicit false

/-! # No data race, and a bounded FIFO

With the orders `queue.h` asks for, `tail_` is a channel from the producer to the consumer and
`head_` one back (`Synced`): a thread that reads message `n` of the other's index knows of that
thread's first `n` slot accesses. That orders every two accesses to one slot (`queue_race_free`),
and makes the operations that are not refused those of a bounded FIFO (`queue_refines_fifo`). -/

namespace MarketFeed

open RingBuffer BoundedFifo Execution ReleaseAcquire

variable {T : Type*}

namespace WeakQueue

variable {s s' : WeakQueue T} {a : WeakAction T} {cap : LockFreeQueue.Capacity} {held : List T}

/-- The slots a producer has written and not yet published. -/
def written : EnqueuePc T → ℕ
  | .storeTail _ _ _ => 1
  | _ => 0

/-- The slots a consumer has read and not yet released. -/
def taken : DequeuePc T → ℕ
  | .storeHead _ _ => 1
  | _ => 0

/-- The plain accesses a thread has made: one for each operation it has completed, and perhaps one
    more. -/
def progress (s : WeakQueue T) : Party → ℕ
  | .producer => s.pushes + written s.producer
  | .consumer => s.pops + taken s.consumer

/-- What the orders of the source add: each index carries to the other thread how far its writer has
    come with the slots, and nothing has raced. -/
structure Synced (c : ℕ) (s : WeakQueue T) : Prop where
  channel : ∀ l, s.memory.Channel l.writer l.reader l
  clock : ∀ l (n : ℕ) (msg : QueueMessage), (s.memory.history l)[n]? = some msg →
    n ≤ msg.view.clock l.writer
  accessed : ∀ u, (s.memory.view u).clock u = s.progress u
  /-- The `time`-th access of a thread goes to slot `time`, masked. -/
  slot : ∀ x acc, acc ∈ s.memory.accesses x → acc.time % c = x
  kind : ∀ x acc, acc ∈ s.memory.accesses x → (acc.write = true ↔ acc.thread = .producer)
  unraced : s.memory.raced = false

theorem synced_init [Inhabited T] (c : ℕ) : Synced c (init : WeakQueue T) where
  channel l := .init ..
  clock l n msg h := by
    obtain ⟨hn, -⟩ := List.getElem?_eq_some_iff.1 h
    obtain rfl : n = 0 := Nat.lt_one_iff.1 hn
    exact Nat.zero_le _
  accessed u := by cases u <;> rfl
  slot x acc h := absurd h List.not_mem_nil
  kind x acc h := absurd h List.not_mem_nil
  unraced := rfl

namespace Synced

/-- A thread knows of the slot access of every operation of the other thread it knows of. -/
theorem seen_le_clock {c : ℕ} (hs : Synced c s) (hwf : s.memory.Wf) (l : Index) :
    (s.memory.view l.reader).seen l ≤ (s.memory.view l.reader).clock l.writer := by
  have hmsg := List.getElem?_eq_getElem (hwf.seen_lt l.reader l)
  have hacq := (hs.channel l).acquired _ _ (Nat.le_refl _) hmsg
  exact (hs.clock l _ _ hmsg).trans (hacq.2 l.writer)

/-- Every earlier access to the slot the producer is about to write happened before. -/
theorem before_write (hs : Synced cap.1.toNat s) (h : Inv cap s held) {item : T}
    {tail nextTail : UInt64} (hpc : s.producer = .writeSlot item tail nextTail)
    {acc : Access Party} (hacc : acc ∈ s.memory.accesses tail.toNat) :
    acc.Before (s.memory.view .producer) := by
  have hp := h.producer
  rw [hpc] at hp
  obtain ⟨htail, -, hroom⟩ := hp
  have hown : acc.time < s.progress acc.thread :=
    Nat.lt_of_lt_of_eq (h.wf.access_before _ acc hacc) (hs.accessed _)
  cases hthread : acc.thread with
  | producer =>
      show acc.time < (s.memory.view .producer).clock acc.thread
      rw [hthread, hs.accessed, ← hthread]
      exact hown
  | consumer =>
      have hslot := hs.slot _ acc hacc
      rw [htail] at hslot
      rw [hthread] at hown
      -- the reads made so far are of elements already published
      have hlt : acc.time < s.pushes := by
        have hpush := h.pushes_eq
        have hc := h.consumer
        have hseen := h.pushesSeen_le
        cases hcpc : s.consumer with
        | storeHead head item' =>
            rw [hcpc] at hc
            have hknown := hc.2.1
            simp only [progress, hcpc, taken] at hown
            omega
        | idle => simp only [progress, hcpc, taken] at hown; omega
        | loadTail head => simp only [progress, hcpc, taken] at hown; omega
        | readSlot head => simp only [progress, hcpc, taken] at hown; omega
      have hturn := add_le_of_slot_eq hlt hslot
      have hclock : s.popsSeen ≤ (s.memory.view .producer).clock .consumer :=
        hs.seen_le_clock h.wf .head
      show acc.time < (s.memory.view .producer).clock acc.thread
      rw [hthread]
      omega

/-- Every write to the slot the consumer is about to read happened before. -/
theorem before_read (hs : Synced cap.1.toNat s) (h : Inv cap s held) {head : UInt64}
    (hpc : s.consumer = .readSlot head) {acc : Access Party}
    (hacc : acc ∈ s.memory.accesses head.toNat) (hwrite : acc.write = true) :
    acc.Before (s.memory.view .consumer) := by
  have hc := h.consumer
  rw [hpc] at hc
  obtain ⟨hhead, hknown⟩ := hc
  have hthread := (hs.kind _ acc hacc).1 hwrite
  have hslot := hs.slot _ acc hacc
  rw [hhead] at hslot
  have hown : acc.time < s.progress acc.thread :=
    Nat.lt_of_lt_of_eq (h.wf.access_before _ acc hacc) (hs.accessed _)
  rw [hthread] at hown
  -- the writes made so far are less than a turn ahead of the slot
  have hlt : acc.time < s.pops + cap.1.toNat := by
    have hp := h.producer
    have hseen := h.popsSeen_le
    have hroom := h.room
    cases hppc : s.producer with
    | storeTail item tail nextTail =>
        rw [hppc] at hp
        have hroom' := hp.2.2.1
        simp only [progress, hppc, written] at hown
        omega
    | idle => simp only [progress, hppc, written] at hown; omega
    | loadHead item tail => simp only [progress, hppc, written] at hown; omega
    | writeSlot item tail nextTail => simp only [progress, hppc, written] at hown; omega
  have hle : acc.time ≤ s.pops := by
    by_contra hgt
    have hturn := add_le_of_slot_eq (Nat.not_le.1 hgt) hslot.symm
    omega
  have hclock : s.pushesSeen ≤ (s.memory.view .consumer).clock .producer :=
    hs.seen_le_clock h.wf .tail
  show acc.time < (s.memory.view .consumer).clock acc.thread
  rw [hthread]
  omega

theorem load {c : ℕ} (hs : Synced c s) (hwf : s.memory.Wf) {u : Party} {l : Index}
    {lo : LoadOrder} {n : ℕ} {v : UInt64} {memory : QueueMemory T}
    (hload : s.memory.load u l lo n = some (v, memory))
    (horder : u = l.reader ∧ lo = .acquire ∨ u = l.writer ∧ lo = .relaxed)
    (hmemory : s'.memory = memory) (hprogress : s'.progress = s.progress) : Synced c s' := by
  have hwf' := hwf.load hload
  subst hmemory
  have hload' := hload
  obtain ⟨hn, msg, hmsg, -, hset⟩ := Memory.load_eq_some_iff.1 hload
  have hview : ∀ w, s.memory.view w ≤ s'.memory.view w := by
    rw [hset]
    exact Memory.view_le_setView (Memory.le_observe hn msg lo)
  refine ⟨fun l' => ?_, ?_, fun w => ?_, ?_, ?_, ?_⟩
  · -- the message read matters only to the channel of its own index
    by_cases hl : l' = l
    · subst hl
      rcases horder with ⟨rfl, rfl⟩ | ⟨rfl, rfl⟩
      · exact (hs.channel l').acquire hwf l'.writer_ne_reader hload'
      · refine (hs.channel l').keep hwf' (by rw [hset]; rfl) hview ?_
        rw [hset, Memory.view_setView_of_ne _ l'.writer_ne_reader.symm]
    · refine (hs.channel l').keep hwf' (by rw [hset]; rfl) hview ?_
      rcases horder with ⟨rfl, rfl⟩ | ⟨rfl, rfl⟩
      · rw [hset, Memory.view_setView_of_ne _ (Index.reader_ne hl)]
      · rw [hset, ← Index.writer_eq hl, Memory.view_setView_self]
        exact View.seen_see_of_ne _ hl _
  · rw [hset]
    exact hs.clock
  · rw [hprogress, ← hs.accessed w, hset]
    by_cases hw : w = u
    · subst hw
      rw [Memory.view_setView_self, hwf.clock_observe_self hmsg]
    · rw [Memory.view_setView_of_ne _ hw]
  · rw [hset]
    exact hs.slot
  · rw [hset]
    exact hs.kind
  · rw [hset]
    exact hs.unraced

theorem access {c : ℕ} (hs : Synced c s) (hwf : s.memory.Wf) {u : Party} {x : ℕ} {write : Bool}
    (hslot : s.progress u % c = x) (hkind : write = true ↔ u = .producer)
    (hbefore : ∀ acc ∈ s.memory.accesses x, (acc.write = true ∨ write = true) →
      acc.Before (s.memory.view u))
    (cell : ℕ → T) (hmemory : s'.memory = { s.memory.access u x write with cell })
    (hself : s'.progress u = s.progress u + 1)
    (hother : ∀ w, w ≠ u → s'.progress w = s.progress w) : Synced c s' := by
  have hwf' : s'.memory.Wf := by
    have hacc := hwf.access u x write
    rw [hmemory]
    exact ⟨hacc.seen_lt, hacc.message_seen_le, hacc.message_seen_lt, hacc.clock_le,
      hacc.message_clock_le, hacc.access_before⟩
  have hacc : ∀ x' acc, acc ∈ s'.memory.accesses x' →
      acc ∈ s.memory.accesses x' ∨ (x' = x ∧ acc = ⟨u, (s.memory.view u).clock u, write⟩) := by
    rw [hmemory]
    exact fun x' acc h => Memory.mem_accesses_access h
  refine ⟨fun l => ?_, ?_, fun w => ?_, fun x' acc h => ?_, fun x' acc h => ?_, ?_⟩
  · refine (hs.channel l).keep hwf' (by rw [hmemory]; rfl) ?_ ?_
    · rw [hmemory]
      exact Memory.view_le_access s.memory u x write
    · rw [hmemory]
      exact Memory.seen_access s.memory u l.reader x write l
  · rw [hmemory]
    exact hs.clock
  · rw [hmemory]
    by_cases hw : w = u
    · subst hw
      rw [hself, ← hs.accessed w]
      exact Memory.clock_access_self s.memory w x write
    · rw [hother w hw, ← hs.accessed w]
      exact Memory.clock_access_of_ne s.memory x write (Or.inl hw)
  · rcases hacc x' acc h with hold | ⟨rfl, rfl⟩
    · exact hs.slot x' acc hold
    · rw [← hslot, ← hs.accessed u]
  · rcases hacc x' acc h with hold | ⟨rfl, rfl⟩
    · exact hs.kind x' acc hold
    · exact hkind
  · rw [hmemory]
    exact Memory.raced_access_eq_false_iff.2 ⟨hs.unraced, hbefore⟩

theorem store {c : ℕ} (hs : Synced c s) (hwf : s.memory.Wf) (l : Index) (value : UInt64)
    (hclock : (s.memory.history l).length ≤ s.progress l.writer)
    (hmemory : s'.memory = s.memory.store l.writer l .release value)
    (hprogress : s'.progress = s.progress) : Synced c s' := by
  have hwf' : s'.memory.Wf := hmemory ▸ hwf.store ..
  have hsee : s.memory.view l.writer ≤ (s.memory.view l.writer).see l (s.memory.history l).length :=
    View.le_see (Nat.le_of_lt (hwf.seen_lt ..))
  refine ⟨fun l' => ?_, fun l' n msg hmsg => ?_, fun w => ?_, ?_, ?_, ?_⟩
  · by_cases hl : l' = l
    · subst hl
      rw [hmemory]
      exact (hs.channel l').release hwf l'.writer_ne_reader value
    · refine (hs.channel l').keep hwf' ?_ ?_ ?_
      · rw [hmemory, Memory.history_store_of_ne _ _ hl]
      · rw [hmemory]
        exact Memory.view_le_setView hsee
      · rw [hmemory, ← Index.writer_eq hl, Memory.view_store_self]
        exact View.seen_see_of_ne _ hl _
  · rw [hmemory] at hmsg
    rcases Memory.getElem?_store hmsg with hold | ⟨rfl, rfl, rfl⟩
    · exact hs.clock l' n msg hold
    · exact hclock.trans (hs.accessed _).ge
  · rw [hprogress, ← hs.accessed w, hmemory]
    by_cases hw : w = l.writer
    · subst hw
      rw [Memory.view_store_self, View.clock_see]
    · rw [Memory.view_store_of_ne _ hw]
  · rw [hmemory]
    exact hs.slot
  · rw [hmemory]
    exact hs.kind
  · rw [hmemory]
    exact hs.unraced

/-- **Step lemma.** With the orders of the source every step keeps both invariants. -/
theorem step (hs : Synced cap.1.toNat s) (h : Inv cap s held)
    (hstep : step cap.1 .source s a = some s') : Synced cap.1.toNat s' := by
  -- a step that only moves a program counter makes no progress
  have hsame : ∀ {t : WeakQueue T}, t.progress .producer = s.progress .producer →
      t.progress .consumer = s.progress .consumer → t.progress = s.progress := by
    intro t hp hc
    funext u
    cases u with
    | producer => exact hp
    | consumer => exact hc
  cases steps_of_step hstep with
  | call hpc hload =>
      refine hs.load h.wf hload (Or.inr ⟨rfl, rfl⟩) rfl (hsame ?_ rfl)
      simp only [progress, hpc, written]
  | full hpc hload hfull =>
      refine hs.load h.wf hload (Or.inl ⟨rfl, rfl⟩) rfl (hsame ?_ ?_)
      · simp only [progress, hpc, written, pushes, pushed_concat_pushFull]
      · simp only [progress, pops, popped_concat_pushFull]
  | checked hpc hload hroom =>
      refine hs.load h.wf hload (Or.inl ⟨rfl, rfl⟩) rfl (hsame ?_ rfl)
      simp only [progress, hpc, written]
  | write hpc =>
      have hp := h.producer
      rw [hpc] at hp
      refine hs.access (u := .producer) h.wf ?_ (iff_of_true rfl rfl)
        (fun acc hacc _ => hs.before_write h hpc hacc) _ rfl ?_ fun w hw => ?_
      · simp only [progress, hpc, written, Nat.add_zero]
        exact hp.1.symm
      · simp only [progress, hpc, written]
      · cases w with
        | producer => exact absurd rfl hw
        | consumer => rfl
  | publish hpc =>
      refine hs.store h.wf .tail _ ?_ rfl (hsame ?_ ?_)
      · rw [h.tails]
        simp only [Index.writer, progress, hpc, written, Nat.le_refl]
      · simp only [progress, hpc, written, pushes, pushed_concat_push, List.length_append,
          List.length_singleton, Nat.add_zero]
      · simp only [progress, pops, popped_concat_push]
  | start hpc hload =>
      refine hs.load h.wf hload (Or.inr ⟨rfl, rfl⟩) rfl (hsame rfl ?_)
      simp only [progress, hpc, taken]
  | empty hpc hload hempty =>
      refine hs.load h.wf hload (Or.inl ⟨rfl, rfl⟩) rfl (hsame ?_ ?_)
      · simp only [progress, pushes, pushed_concat_popEmpty]
      · simp only [progress, hpc, taken, pops, popped_concat_popEmpty]
  | nonempty hpc hload hne =>
      refine hs.load h.wf hload (Or.inl ⟨rfl, rfl⟩) rfl (hsame rfl ?_)
      simp only [progress, hpc, taken]
  | read hpc =>
      have hc := h.consumer
      rw [hpc] at hc
      refine hs.access (u := .consumer) h.wf ?_ (iff_of_false Bool.false_ne_true (by decide))
        (fun acc hacc hw => hs.before_read h hpc hacc (by simpa using hw)) _ rfl ?_ fun w hw => ?_
      · simp only [progress, hpc, taken, Nat.add_zero]
        exact hc.1.symm
      · simp only [progress, hpc, taken]
      · cases w with
        | producer => rfl
        | consumer => exact absurd rfl hw
  | release hpc =>
      refine hs.store h.wf .head _ ?_ rfl (hsame ?_ ?_)
      · rw [h.heads]
        simp only [Index.writer, progress, hpc, taken, Nat.le_refl]
      · simp only [progress, pushes, pushed_concat_pop]
      · simp only [progress, hpc, taken, pops, popped_concat_pop, List.length_append,
          List.length_singleton, Nat.add_zero]

end Synced

/-- **Run lemma** for the orders of the source. -/
theorem synced_run [Inhabited T] {acts : List (WeakAction T)}
    (hrun : run (WeakQueue.step cap.1 .source) init acts = some s) :
    ∃ held, Inv cap s held ∧ Synced cap.1.toNat s :=
  run_invariant (fun s => ∃ held, Inv cap s held ∧ Synced cap.1.toNat s)
    (fun _ _ _ ⟨_, h, hs⟩ hstep =>
      let ⟨held', h', _⟩ := h.step hstep
      ⟨held', h', hs.step h hstep⟩)
    ⟨[], inv_init cap, synced_init _⟩ hrun

end WeakQueue

open WeakQueue

/-- **No data race.** Whichever messages the loads of the two threads return, with the orders of the
    source no two accesses to a slot of the buffer race, and none lies outside it. -/
theorem queue_race_free [Inhabited T] (cap : LockFreeQueue.Capacity) (acts : List (WeakAction T))
    (s : WeakQueue T) (hrun : run (WeakQueue.step cap.1 .source) init acts = some s) :
    s.memory.raced = false ∧ ∀ u slot, s.touches u = some slot → slot < cap.1.toNat := by
  obtain ⟨held, h, hs⟩ := synced_run hrun
  refine ⟨hs.unraced, fun u slot htouch => ?_⟩
  cases u with
  | producer =>
      have hp := h.producer
      simp only [touches] at htouch
      split at htouch
      · next hpc =>
          rw [hpc] at hp
          rw [← Option.some.inj htouch, hp.1]
          exact Nat.mod_lt _ cap.2.pos
      · exact absurd htouch (by simp)
  | consumer =>
      have hc := h.consumer
      simp only [touches] at htouch
      split at htouch
      · next hpc =>
          rw [hpc] at hc
          rw [← Option.some.inj htouch, hc.1]
          exact Nat.mod_lt _ cap.2.pos
      · exact absurd htouch (by simp)

/-- **Refinement of a bounded FIFO under weak memory.** With the orders of the source the operations
    that were not refused are a trace of a FIFO of `capacity - 1` elements. Whatever the producer
    did before it enqueued an element happened before the consumer is done with it. A refusal may be
    out of date but is never invented: an enqueue returns false only if the elements the producer
    does not know to be gone fill the ring, a dequeue only if the consumer has taken every element
    it knows of. -/
theorem queue_refines_fifo [Inhabited T] (cap : LockFreeQueue.Capacity) (acts : List (WeakAction T))
    (s : WeakQueue T) (hrun : run (WeakQueue.step cap.1 .source) init acts = some s) :
    (∃ held, Replays (cap.1.toNat - 1) (completed s.trace) held) ∧
      (∀ n msg, n ≤ s.pops → (s.memory.history .tail)[n]? = some msg →
        msg.view ≤ s.memory.view .consumer) ∧
      ∀ a s', WeakQueue.step cap.1 .source s a = some s' →
        (∀ item, s'.trace = s.trace ++ [.pushFull item] →
          s'.pushes + 1 = s'.popsSeen + cap.1.toNat) ∧
        (s'.trace = s.trace ++ [.popEmpty] → s'.pushesSeen = s'.pops) := by
  obtain ⟨held, h, hs⟩ := synced_run hrun
  refine ⟨⟨held, h.replays⟩, fun n msg hn hmsg => ?_, fun a s' hstep => ?_⟩
  · exact (hs.channel .tail).acquired n msg (hn.trans h.known) hmsg
  · obtain ⟨held', -, hfull, hempty⟩ := h.step hstep
    exact ⟨hfull, hempty⟩

/-- One element through a two-slot ring; the consumer's first poll returns an old tail although the
    new one has long been stored. -/
def staleSchedule : List (WeakAction ℕ) :=
  [.call 7 0, .produce 0, .produce 0, .produce 0, .consume 0, .consume 0, .consume 0, .consume 1,
    .consume 0, .consume 0]

theorem queue_race_free_stale :
    ∃ s : WeakQueue ℕ, run (WeakQueue.step 2 .source) init staleSchedule = some s ∧
      s.memory.raced = false ∧ (s.memory.accesses 0).length = 2 := by
  refine ⟨_, rfl, ?_, rfl⟩
  exact (queue_race_free ⟨2, 1, rfl⟩ staleSchedule _ rfl).1

theorem queue_refines_fifo_stale :
    ∃ s : WeakQueue ℕ, run (WeakQueue.step 2 .source) init staleSchedule = some s ∧
      (∃ held, Replays 1 (completed s.trace) held) ∧
      s.trace = [.push 7, .popEmpty, .pop 7] := by
  refine ⟨_, rfl, ?_, rfl⟩
  exact (queue_refines_fifo ⟨2, 1, rfl⟩ staleSchedule _ rfl).1

end MarketFeed
