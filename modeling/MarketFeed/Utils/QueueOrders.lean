import MarketFeed.Utils.QueueRace
import MarketFeed.Utils.QueueSpsc

set_option autoImplicit false

/-! # Which memory orders the queue needs

`queue_race_free` is about the orders `queue.h` asks for. Here the orders are arbitrary: with any
one of the four synchronising accesses relaxed, a ring of two or more slots has an execution with a
data race (`queue_race_free_iff`). The race is found by running whole operations (`enqueue_run`,
`dequeue_run`) up to a slot that the other thread has used, and observing that a reader of a
relaxed channel never learns of its writer's accesses (`Deaf`).

The last section relates this machine to the interleavings of `QueueSteps.lean`, which are the
executions where every load returns the newest message. -/

namespace MarketFeed

open RingBuffer BoundedFifo Execution ReleaseAcquire

namespace QueueOrders

/-- The order of the load that its reader makes of an index. -/
def load (o : QueueOrders) : Index → LoadOrder
  | .head => o.headLoad
  | .tail => o.tailLoad

/-- The order of the store that its writer makes to an index. -/
def store (o : QueueOrders) : Index → StoreOrder
  | .head => o.headStore
  | .tail => o.tailStore

/-- One of the two accesses to `l` that should synchronise does not. -/
def Broken (o : QueueOrders) (l : Index) : Prop := o.load l = .relaxed ∨ o.store l = .relaxed

theorem exists_broken {o : QueueOrders} (h : o ≠ .source) : ∃ l, o.Broken l := by
  obtain ⟨headLoad, tailStore, tailLoad, headStore⟩ := o
  cases headLoad with
  | relaxed => exact ⟨.head, Or.inl rfl⟩
  | acquire =>
      cases headStore with
      | relaxed => exact ⟨.head, Or.inr rfl⟩
      | release =>
          cases tailLoad with
          | relaxed => exact ⟨.tail, Or.inl rfl⟩
          | acquire =>
              cases tailStore with
              | relaxed => exact ⟨.tail, Or.inr rfl⟩
              | release => exact absurd rfl h

end QueueOrders

namespace WeakQueue

variable {T : Type*} {cap : LockFreeQueue.Capacity} {o : QueueOrders} {s s' t : WeakQueue T}
  {a : WeakAction T} {held : List T}

/-! ## A broken channel -/

/-- The reader of `l` knows of no plain access of its writer, and no message will tell it. -/
structure Deaf (o : QueueOrders) (l : Index) (m : QueueMemory T) : Prop where
  reader : (m.view l.reader).clock l.writer = 0
  message : o.store l = .relaxed → ∀ msg ∈ m.history l, msg.view.clock l.writer = 0

namespace Deaf

variable {m m' : QueueMemory T} {l l' : Index}

/-- What a load shows the reader of a broken channel about its writer: nothing. -/
theorem load (h : Deaf o l m) (hbroken : o.Broken l) {u : Party} {lo : LoadOrder} {n : ℕ}
    {v : UInt64} (hload : m.load u l' lo n = some (v, m'))
    (horder : lo = .relaxed ∨ lo = o.load l' ∧ u = l'.reader) : Deaf o l m' := by
  obtain ⟨hn, msg, hmsg, -, rfl⟩ := Memory.load_eq_some_iff.1 hload
  refine ⟨?_, h.message⟩
  by_cases hu : l.reader = u
  · subst hu
    rw [Memory.view_setView_self]
    cases lo with
    | relaxed => exact h.reader
    | acquire =>
        obtain ⟨hlo, hreader⟩ := horder.resolve_left (by decide)
        obtain rfl : l' = l := by
          by_contra hne
          exact Index.reader_ne hne hreader.symm
        have hstore : o.store l' = .relaxed :=
          hbroken.resolve_left fun hrelaxed => absurd (hlo.trans hrelaxed) (by decide)
        show max ((m.view l'.reader).clock l'.writer) (msg.view.clock l'.writer) = 0
        rw [h.reader, h.message hstore msg (List.mem_of_getElem? hmsg)]
        rfl
  · rw [Memory.view_setView_of_ne _ hu]
    exact h.reader

theorem access (h : Deaf o l m) (u : Party) (x : ℕ) (write : Bool) (cell : ℕ → T) :
    Deaf o l { m.access u x write with cell } where
  reader := by
    have hne : l.writer ≠ u ∨ l.reader ≠ u := by
      by_contra hboth
      obtain ⟨rfl, hreader⟩ : l.writer = u ∧ l.reader = u := by simpa using hboth
      exact l.writer_ne_reader hreader.symm
    exact (Memory.clock_access_of_ne m x write hne).trans h.reader
  message := h.message

theorem store (h : Deaf o l m) (l' : Index) (value : UInt64) :
    Deaf o l (m.store l'.writer l' (o.store l') value) where
  reader := by
    by_cases hu : l.reader = l'.writer
    · rw [← hu, Memory.view_store_self, View.clock_see]
      exact h.reader
    · rw [Memory.view_store_of_ne _ hu]
      exact h.reader
  message hstore msg hmsg := by
    obtain ⟨n, hn⟩ := List.mem_iff_getElem?.1 hmsg
    rcases Memory.getElem?_store hn with hold | ⟨rfl, -, rfl⟩
    · exact h.message hstore msg (List.mem_of_getElem? hold)
    · rw [hstore]
      rfl

/-- **Step lemma.** Nothing cures a broken channel. -/
theorem step {l : Index} (h : Deaf o l s.memory) (hbroken : o.Broken l)
    (hs : step cap.1 o s a = some s') : Deaf o l s'.memory := by
  cases steps_of_step hs with
  | call hpc hload => exact h.load hbroken hload (Or.inl rfl)
  | full hpc hload hfull => exact h.load hbroken hload (Or.inr ⟨rfl, rfl⟩)
  | checked hpc hload hroom => exact h.load hbroken hload (Or.inr ⟨rfl, rfl⟩)
  | write hpc => exact h.access .producer _ true _
  | publish hpc => exact h.store .tail _
  | start hpc hload => exact h.load hbroken hload (Or.inl rfl)
  | empty hpc hload hempty => exact h.load hbroken hload (Or.inr ⟨rfl, rfl⟩)
  | nonempty hpc hload hne => exact h.load hbroken hload (Or.inr ⟨rfl, rfl⟩)
  | read hpc => exact h.access .consumer _ false _
  | release hpc => exact h.store .head _

end Deaf

/-! ## Running whole operations -/

theorem accesses_step {x : ℕ} {acc : Access Party} (hs : step cap.1 o s a = some s')
    (h : acc ∈ s.memory.accesses x) : acc ∈ s'.memory.accesses x := by
  have hload : ∀ {u l lo n v} {memory : QueueMemory T},
      s.memory.load u l lo n = some (v, memory) → acc ∈ memory.accesses x := by
    intro u l lo n v memory hl
    obtain ⟨-, -, -, -, rfl⟩ := Memory.load_eq_some_iff.1 hl
    exact h
  cases steps_of_step hs with
  | call hpc hl => exact hload hl
  | full hpc hl hfull => exact hload hl
  | checked hpc hl hroom => exact hload hl
  | write hpc => exact Memory.mem_accesses_of_mem h
  | publish hpc => exact h
  | start hpc hl => exact hload hl
  | empty hpc hl hempty => exact hload hl
  | nonempty hpc hl hne => exact hload hl
  | read hpc => exact Memory.mem_accesses_of_mem h
  | release hpc => exact h

/-- Some execution leads from `s` to `t`. -/
def Reaches (cap : LockFreeQueue.Capacity) (o : QueueOrders) (s t : WeakQueue T) : Prop :=
  ∃ acts, run (step cap.1 o) s acts = some t

namespace Reaches

theorem refl (s : WeakQueue T) : Reaches cap o s s := ⟨[], rfl⟩

theorem of_step (h : step cap.1 o s a = some s') : Reaches cap o s s' := ⟨[a], by simp [h]⟩

theorem trans (h : Reaches cap o s s') (h' : Reaches cap o s' t) : Reaches cap o s t := by
  obtain ⟨as, has⟩ := h
  obtain ⟨bs, hbs⟩ := h'
  exact ⟨as ++ bs, by rw [run_append, has, Option.bind_some, hbs]⟩

theorem accesses {x : ℕ} {acc : Access Party} (h : Reaches cap o s t)
    (hacc : acc ∈ s.memory.accesses x) : acc ∈ t.memory.accesses x := by
  obtain ⟨acts, hrun⟩ := h
  exact run_invariant (fun u => acc ∈ u.memory.accesses x) (fun _ _ _ hu hs => accesses_step hs hu)
    hacc hrun

theorem deaf {l : Index} (h : Reaches cap o s t) (hbroken : o.Broken l) (hs : Deaf o l s.memory) :
    Deaf o l t.memory := by
  obtain ⟨acts, hrun⟩ := h
  exact run_invariant (fun u => Deaf o l u.memory) (fun _ _ _ hu hs => hu.step hbroken hs) hs hrun

end Reaches

/-- Between operations, after `p` enqueues and `q` dequeues. -/
structure Between (cap : LockFreeQueue.Capacity) (s : WeakQueue T) (p q : ℕ) : Prop where
  inv : ∃ held, Inv cap s held
  producer : s.producer = .idle
  consumer : s.consumer = .idle
  pushes : s.pushes = p
  pops : s.pops = q

theorem between_init [Inhabited T] : Between cap (init : WeakQueue T) 0 0 where
  inv := ⟨[], inv_init cap⟩
  producer := rfl
  consumer := rfl
  pushes := rfl
  pops := rfl

/-- An enqueue that sees every dequeue and has room comes to its slot write. -/
theorem Between.reach_writeSlot {p q : ℕ} (h : Between cap s p q)
    (hroom : p + 1 < q + cap.1.toNat) (o : QueueOrders) (item : T) :
    ∃ t tail nextTail held, Reaches cap o s t ∧ Inv cap t held ∧
      t.producer = .writeSlot item tail nextTail ∧ tail.toNat = p % cap.1.toNat ∧
      t.consumer = .idle ∧ t.trace = s.trace := by
  obtain ⟨⟨held, hinv⟩, hidle, hconsumer, rfl, rfl⟩ := h
  obtain ⟨tail, memory, hload⟩ := hinv.wf.load_newest .producer .relaxed hinv.tails
  have hcall : step cap.1 o s (.call item s.pushes)
      = some { s with memory, producer := .loadHead item tail } := by
    simp only [step, WeakQueue.call, hidle, hload, Option.map_some]
  obtain ⟨held₁, hinv₁, -⟩ := hinv.step hcall
  obtain ⟨head, memory', hload'⟩ := hinv₁.wf.load_newest .producer o.headLoad hinv₁.heads
  have hp := hinv₁.producer
  have hroom' : advance cap.1 tail ≠ head := by
    intro hfull
    obtain ⟨hinv₂, hvalue, -, hseen⟩ := hinv₁.load hload'
    have hfill := (hinv₂.advance_eq_iff hp (by rw [popsSeen, hseen]; exact hvalue)).1 hfull
    have hseen' : popsSeen ({ s with memory := memory', producer := .loadHead item tail } :
        WeakQueue T) = s.pops := hseen
    rw [hseen'] at hfill
    exact absurd hfill (Nat.ne_of_lt hroom)
  have hcheck : step cap.1 o { s with memory, producer := .loadHead item tail } (.produce s.pops)
      = some { s with
          memory := memory'
          producer := .writeSlot item tail (advance cap.1 tail) } := by
    have hload'' : memory.load .producer .head o.headLoad s.pops = some (head, memory') := hload'
    simp only [step, produce, hload'', Option.map_some, if_neg hroom']
  obtain ⟨held₂, hinv₂, -⟩ := hinv₁.step hcheck
  exact ⟨_, tail, _, held₂, (Reaches.of_step hcall).trans (.of_step hcheck), hinv₂, rfl, hp,
    hconsumer, rfl⟩

/-- A dequeue that sees every enqueue and finds an element comes to its slot read. -/
theorem Between.reach_readSlot {p q : ℕ} (h : Between cap s p q) (hne : q < p) (o : QueueOrders) :
    ∃ t head held, Reaches cap o s t ∧ Inv cap t held ∧ t.consumer = .readSlot head ∧
      head.toNat = q % cap.1.toNat ∧ t.producer = .idle ∧ t.trace = s.trace := by
  obtain ⟨⟨held, hinv⟩, hproducer, hidle, rfl, rfl⟩ := h
  obtain ⟨head, memory, hload⟩ := hinv.wf.load_newest .consumer .relaxed hinv.heads
  have hstart : step cap.1 o s (.consume s.pops)
      = some { s with memory, consumer := .loadTail head } := by
    simp only [step, consume, hidle, hload, Option.map_some]
  obtain ⟨held₁, hinv₁, -⟩ := hinv.step hstart
  obtain ⟨tail, memory', hload'⟩ := hinv₁.wf.load_newest .consumer o.tailLoad hinv₁.tails
  have hc := hinv₁.consumer
  have hne' : head ≠ tail := by
    intro hempty
    obtain ⟨hinv₂, hvalue, -, hseen⟩ := hinv₁.load hload'
    have hnone := (hinv₂.head_eq_iff hc (by rw [pushesSeen, hseen]; exact hvalue)).1 hempty
    have hseen' : pushesSeen ({ s with memory := memory', consumer := .loadTail head } :
        WeakQueue T) = s.pushes := hseen
    rw [hseen'] at hnone
    exact absurd hnone.symm (Nat.ne_of_lt hne)
  have hcheck : step cap.1 o { s with memory, consumer := .loadTail head } (.consume s.pushes)
      = some { s with memory := memory', consumer := .readSlot head } := by
    have hload'' : memory.load .consumer .tail o.tailLoad s.pushes = some (tail, memory') := hload'
    simp only [step, consume, hload'', Option.map_some, if_neg hne']
  obtain ⟨held₂, hinv₂, -⟩ := hinv₁.step hcheck
  exact ⟨_, head, held₂, (Reaches.of_step hstart).trans (.of_step hcheck), hinv₂, rfl, hc,
    hproducer, rfl⟩

/-- A whole enqueue; its slot write stays on record. -/
theorem enqueue_run {p q : ℕ} (h : Between cap s p q) (hroom : p + 1 < q + cap.1.toNat)
    (o : QueueOrders) (item : T) :
    ∃ t acc, Reaches cap o s t ∧ Between cap t (p + 1) q ∧
      acc ∈ t.memory.accesses (p % cap.1.toNat) ∧ acc.thread = .producer ∧ acc.write = true := by
  obtain ⟨t, tail, nextTail, held, hreach, hinv, hpc, htail, hconsumer, htrace⟩ :=
    h.reach_writeSlot hroom o item
  have hwrite : step cap.1 o t (.produce 0) = some { t with
      memory := t.memory.write .producer tail.toNat item
      producer := .storeTail item tail nextTail } := by
    simp only [step, produce, hpc]
  obtain ⟨held₁, hinv₁, -⟩ := hinv.step hwrite
  have hstore : step cap.1 o { t with
      memory := t.memory.write .producer tail.toNat item
      producer := .storeTail item tail nextTail } (.produce 0) = some { t with
      memory :=
        (t.memory.write .producer tail.toNat item).store .producer .tail o.tailStore nextTail
      producer := .idle
      trace := t.trace ++ [.push item] } := rfl
  obtain ⟨held₂, hinv₂, -⟩ := hinv₁.step hstore
  refine ⟨_, ⟨.producer, (t.memory.view .producer).clock .producer, true⟩,
    (hreach.trans (.of_step hwrite)).trans (.of_step hstore),
    ⟨⟨held₂, hinv₂⟩, rfl, hconsumer, ?_, ?_⟩, ?_, rfl, rfl⟩
  · simp only [pushes, pushed_concat_push, List.length_append, List.length_singleton, htrace]
    exact congrArg (· + 1) h.pushes
  · simp only [pops, popped_concat_push, htrace]
    exact h.pops
  · rw [← htail]
    exact Memory.mem_accesses_self t.memory .producer tail.toNat true

theorem dequeue_run {p q : ℕ} (h : Between cap s p q) (hne : q < p) (o : QueueOrders) :
    ∃ t acc, Reaches cap o s t ∧ Between cap t p (q + 1) ∧
      acc ∈ t.memory.accesses (q % cap.1.toNat) ∧ acc.thread = .consumer := by
  obtain ⟨t, head, held, hreach, hinv, hpc, hhead, hproducer, htrace⟩ := h.reach_readSlot hne o
  have hread : step cap.1 o t (.consume 0) = some { t with
      memory := (t.memory.read .consumer head.toNat).2
      consumer := .storeHead head (t.memory.read .consumer head.toNat).1 } := by
    simp only [step, consume, hpc]
  obtain ⟨held₁, hinv₁, -⟩ := hinv.step hread
  have hstore : step cap.1 o { t with
      memory := (t.memory.read .consumer head.toNat).2
      consumer := .storeHead head (t.memory.read .consumer head.toNat).1 } (.consume 0)
      = some { t with
          memory := (t.memory.read .consumer head.toNat).2.store .consumer .head o.headStore
            (advance cap.1 head)
          consumer := .idle
          trace := t.trace ++ [.pop (t.memory.read .consumer head.toNat).1] } := rfl
  obtain ⟨held₂, hinv₂, -⟩ := hinv₁.step hstore
  refine ⟨_, ⟨.consumer, (t.memory.view .consumer).clock .consumer, false⟩,
    (hreach.trans (.of_step hread)).trans (.of_step hstore),
    ⟨⟨held₂, hinv₂⟩, hproducer, rfl, ?_, ?_⟩, ?_, rfl⟩
  · simp only [pushes, pushed_concat_pop, htrace]
    exact h.pushes
  · simp only [pops, popped_concat_pop, List.length_append, List.length_singleton, htrace]
    exact congrArg (· + 1) h.pops
  · rw [← hhead]
    exact Memory.mem_accesses_self t.memory .consumer head.toNat false

theorem fill_run [Inhabited T] (o : QueueOrders) : ∀ k, k < cap.1.toNat →
    ∃ t : WeakQueue T, Reaches cap o init t ∧ Between cap t k 0
  | 0, _ => ⟨init, .refl _, between_init⟩
  | k + 1, hk => by
      obtain ⟨t, hreach, hbetween⟩ := fill_run o k (Nat.lt_of_succ_lt hk)
      obtain ⟨t', -, hreach', hbetween', -⟩ :=
        enqueue_run hbetween (by rwa [Nat.zero_add]) o default
      exact ⟨t', hreach.trans hreach', hbetween'⟩

end WeakQueue

open WeakQueue

variable {T : Type*} [Inhabited T]

/-- A consumer that does not hear of the producer's writes races with the first one. -/
theorem exists_race_of_tail {cap : LockFreeQueue.Capacity} (hcap : 2 ≤ cap.1.toNat)
    {o : QueueOrders} (hbroken : o.Broken .tail) :
    ∃ t : WeakQueue T, Reaches cap o init t ∧ t.memory.raced = true := by
  obtain ⟨s, acc, hreach, hbetween, hacc, hthread, hwrite⟩ :=
    enqueue_run (between_init : Between cap (init : WeakQueue T) 0 0) (by omega) o default
  obtain ⟨t, head, held, hreach', hinv, hpc, hhead, -, -⟩ :=
    hbetween.reach_readSlot Nat.zero_lt_one o
  have hdeaf : Deaf o .tail t.memory :=
    (hreach.trans hreach').deaf hbroken ⟨rfl, fun _ msg hmsg => by
      obtain rfl := List.mem_singleton.1 hmsg
      rfl⟩
  have hread : WeakQueue.step cap.1 o t (.consume 0) = some { t with
      memory := (t.memory.read .consumer head.toNat).2
      consumer := .storeHead head (t.memory.read .consumer head.toNat).1 } := by
    simp only [WeakQueue.step, consume, hpc]
  refine ⟨_, (hreach.trans hreach').trans (.of_step hread), ?_⟩
  by_contra hraced
  have hunraced := (Memory.raced_access_eq_false_iff.1 (Bool.eq_false_iff.2 hraced)).2 acc
    (by rw [hhead]; exact hreach'.accesses hacc) (Or.inl hwrite)
  simp only [Access.Before, hthread] at hunraced
  have hzero : (t.memory.view .consumer).clock .producer = 0 := hdeaf.reader
  omega

/-- A producer that does not hear of the consumer's reads races with the first one when it comes
    round to its slot. -/
theorem exists_race_of_head {cap : LockFreeQueue.Capacity} (hcap : 2 ≤ cap.1.toNat)
    {o : QueueOrders} (hbroken : o.Broken .head) :
    ∃ t : WeakQueue T, Reaches cap o init t ∧ t.memory.raced = true := by
  -- fill the ring, then let a dequeue, an enqueue and a dequeue make room for the slot's second use
  have hfill : cap.1.toNat - 1 < cap.1.toNat := Nat.sub_lt cap.2.pos Nat.zero_lt_one
  obtain ⟨s₀, hreach₀, h₀⟩ := fill_run (T := T) o (cap.1.toNat - 1) hfill
  obtain ⟨s₁, acc, hreach₁, h₁, hacc, hthread⟩ := dequeue_run h₀ (by omega) o
  obtain ⟨s₂, -, hreach₂, h₂, -⟩ := enqueue_run h₁ (by omega) o default
  obtain ⟨s₃, -, hreach₃, h₃, -⟩ := dequeue_run h₂ (by omega) o
  obtain ⟨t, tail, nextTail, held, hreach₄, hinv, hpc, htail, -, -⟩ :=
    h₃.reach_writeSlot (by omega) o default
  have hreach := (((hreach₀.trans hreach₁).trans hreach₂).trans hreach₃).trans hreach₄
  have hdeaf : Deaf o .head t.memory :=
    hreach.deaf hbroken ⟨rfl, fun _ msg hmsg => by
      obtain rfl := List.mem_singleton.1 hmsg
      rfl⟩
  have hslot : tail.toNat = 0 % cap.1.toNat := by
    rw [htail, Nat.sub_add_cancel (by omega), Nat.mod_self, Nat.zero_mod]
  have hwrite : WeakQueue.step cap.1 o t (.produce 0) = some { t with
      memory := t.memory.write .producer tail.toNat default
      producer := .storeTail default tail nextTail } := by
    simp only [WeakQueue.step, produce, hpc]
  refine ⟨_, hreach.trans (.of_step hwrite), ?_⟩
  by_contra hraced
  have hunraced := (Memory.raced_access_eq_false_iff.1 (Bool.eq_false_iff.2 hraced)).2 acc
    (by rw [hslot]; exact ((hreach₂.trans hreach₃).trans hreach₄).accesses hacc) (Or.inr rfl)
  simp only [Access.Before, hthread] at hunraced
  have hzero : (t.memory.view .producer).clock .consumer = 0 := hdeaf.reader
  omega

/-- **The memory orders of the source are the weakest that do.** On a ring of two or more slots no
    execution races exactly if all four synchronising accesses have them; relax any one, and some
    execution does. -/
theorem queue_race_free_iff (cap : LockFreeQueue.Capacity) (hcap : 2 ≤ cap.1.toNat)
    (o : QueueOrders) :
    (∀ acts (s : WeakQueue T), run (WeakQueue.step cap.1 o) init acts = some s →
      s.memory.raced = false) ↔ o = .source := by
  constructor
  · intro hfree
    by_contra hne
    obtain ⟨l, hbroken⟩ := QueueOrders.exists_broken hne
    have hrace : ∃ t : WeakQueue T, Reaches cap o init t ∧ t.memory.raced = true := by
      cases l with
      | head => exact exists_race_of_head hcap hbroken
      | tail => exact exists_race_of_tail hcap hbroken
    obtain ⟨t, ⟨acts, hrun⟩, hraced⟩ := hrace
    exact absurd (hfree acts t hrun) (by simp [hraced])
  · rintro rfl acts s hrun
    obtain ⟨held, -, hs⟩ := synced_run hrun
    exact hs.unraced

/-- With the source's orders two slots are free of races, with a relaxed load of `tail_` in
    `dequeue` they are not. -/
theorem queue_race_free_iff_two_slots :
    (∀ acts (s : WeakQueue ℕ), run (WeakQueue.step 2 .source) init acts = some s →
        s.memory.raced = false) ∧
      ∃ acts, ∃ s : WeakQueue ℕ,
        run (WeakQueue.step 2 { QueueOrders.source with tailLoad := .relaxed }) init acts = some s ∧
          s.memory.raced = true := by
  refine ⟨(queue_race_free_iff ⟨2, 1, rfl⟩ (by decide) .source).2 rfl, ?_⟩
  by_contra hnone
  have hsource := (queue_race_free_iff (T := ℕ) ⟨2, 1, rfl⟩ (by decide)
    { QueueOrders.source with tailLoad := .relaxed }).1 fun acts s hrun =>
      Bool.eq_false_iff.2 fun hraced => hnone ⟨acts, s, hrun, hraced⟩
  exact absurd (congrArg QueueOrders.tailLoad hsource) (by decide)

/-! ## Sequential consistency

The interleavings of `QueueSteps.lean`, with one producer, are the executions in which every load
returns the newest message. -/

namespace WeakQueue

variable {cap : LockFreeQueue.Capacity} {o : QueueOrders}

/-- The newest message of an index carries `value`. -/
def Newest (m : QueueMemory T) (l : Index) (value : UInt64) : Prop :=
  ∃ before msg, m.history l = before ++ [msg] ∧ msg.value = value

omit [Inhabited T] in
theorem newest_store (m : QueueMemory T) (u : Party) (l : Index) (so : StoreOrder)
    (value : UInt64) : Newest (m.store u l so value) l value :=
  ⟨m.history l, _, Function.update_self .., rfl⟩

omit [Inhabited T] in
theorem Newest.store {m : QueueMemory T} {l l' : Index} {value : UInt64} (h : Newest m l value)
    (u : Party) (hl : l ≠ l') (so : StoreOrder) (value' : UInt64) :
    Newest (m.store u l' so value') l value := by
  obtain ⟨before, msg, hhist, hvalue⟩ := h
  exact ⟨before, msg, (Memory.history_store_of_ne m u hl so value').trans hhist, hvalue⟩

/-- A queue as the newest messages and the slots show it. -/
structure Shows (m : QueueMemory T) (q : LockFreeQueue T) : Prop where
  wf : m.Wf
  head : Newest m .head q.head
  tail : Newest m .tail q.tail
  cell : ∀ i, i < q.buffer.length → m.cell i = q.buffer.getD i default

/-- A load may return the newest message. -/
theorem Shows.load {m : QueueMemory T} {q : LockFreeQueue T} {l : Index} {value : UInt64}
    (h : Shows m q) (hvalue : Newest m l value) (u : Party) (lo : LoadOrder) :
    ∃ n m', m.load u l lo n = some (value, m') ∧ Shows m' q := by
  obtain ⟨before, msg, hhist, rfl⟩ := hvalue
  have hlen : (m.history l).length = before.length + 1 := by simp [hhist]
  obtain ⟨v, m', hload⟩ := h.wf.load_newest u lo hlen
  have hwf' := h.wf.load hload
  obtain ⟨-, msg', hmsg', rfl, rfl⟩ := Memory.load_eq_some_iff.1 hload
  rw [hhist, List.getElem?_concat_length] at hmsg'
  obtain rfl := Option.some.inj hmsg'
  exact ⟨_, _, hload, hwf', h.head, h.tail, h.cell⟩

/-- Both machines stand at the same point. -/
structure Agrees (cap : LockFreeQueue.Capacity) (s : QueueState Unit T) (w : WeakQueue T) :
    Prop where
  spsc : ∃ held, QueueState.SpscInv cap s held
  memory : Shows w.memory s.queue
  producer : w.producer = s.producer ()
  consumer : w.consumer = s.consumer
  trace : w.trace = s.trace

theorem agrees_init (cap : LockFreeQueue.Capacity) :
    Agrees cap (QueueState.init cap : QueueState Unit T) init where
  spsc := ⟨[], QueueState.spscInv_init cap⟩
  memory :=
    { wf := Memory.wf_init ..
      head := ⟨[], _, rfl, rfl⟩
      tail := ⟨[], _, rfl, rfl⟩
      cell := by
        intro i hi
        rw [List.getD_eq_getElem?_getD, List.getElem?_eq_getElem hi]
        exact (List.getElem_replicate ..).symm }
  producer := rfl
  consumer := rfl
  trace := rfl

/-- **Step lemma.** An interleaved step is a step of the weak machine that reads the newest message,
    whatever the orders. -/
theorem Agrees.step {s s' : QueueState Unit T} {w : WeakQueue T} {a : QueueAction Unit T}
    (h : Agrees cap s w) (hs : s.step a = some s') :
    ∃ b w', WeakQueue.step cap.1 o w b = some w' ∧ Agrees cap s' w' := by
  obtain ⟨held, hinv⟩ := h.spsc
  have hspsc : ∃ held', QueueState.SpscInv cap s' held' := by
    obtain ⟨held', h', -⟩ := hinv.step hs
    exact ⟨held', h'⟩
  have hadvance : ∀ i, advance cap.1 i = s.queue.advance i := by
    intro i
    unfold advance LockFreeQueue.advance
    rw [hinv.capacity]
  have hproducer := h.producer
  have hconsumer := h.consumer
  cases QueueState.steps_of_step hs with
  | @call p item hpc =>
      obtain ⟨n, m', hload, hm'⟩ := h.memory.load h.memory.tail .producer .relaxed
      refine ⟨.call item n, { w with memory := m', producer := .loadHead item s.queue.tail }, ?_,
        hspsc, hm', ?_, hconsumer, h.trace⟩
      · simp only [WeakQueue.step, WeakQueue.call, hproducer.trans hpc, hload, Option.map_some]
      · exact (Function.update_self p (EnqueuePc.loadHead item s.queue.tail) s.producer).symm
  | @full p item tail hpc hfull =>
      obtain ⟨n, m', hload, hm'⟩ := h.memory.load h.memory.head .producer o.headLoad
      refine ⟨.produce n, { w with
        memory := m', producer := .idle, trace := w.trace ++ [.pushFull item] }, ?_,
        hspsc, hm', ?_, hconsumer, congrArg (· ++ _) h.trace⟩
      · simp only [WeakQueue.step, produce, hproducer.trans hpc, hload, Option.map_some, hadvance,
          if_pos hfull]
      · exact (Function.update_self p EnqueuePc.idle s.producer).symm
  | @checked p item tail hpc hroom =>
      obtain ⟨n, m', hload, hm'⟩ := h.memory.load h.memory.head .producer o.headLoad
      refine ⟨.produce n, { w with
        memory := m', producer := .writeSlot item tail (s.queue.advance tail) }, ?_,
        hspsc, hm', ?_, hconsumer, h.trace⟩
      · simp only [WeakQueue.step, produce, hproducer.trans hpc, hload, Option.map_some, hadvance,
          if_neg hroom]
      · exact (Function.update_self p (EnqueuePc.writeSlot item tail _) s.producer).symm
  | @write p item tail nextTail hpc =>
      have hstep : WeakQueue.step cap.1 o w (.produce 0) = some { w with
          memory := w.memory.write .producer tail.toNat item
          producer := .storeTail item tail nextTail } := by
        simp only [WeakQueue.step, produce, hproducer.trans hpc]
      refine ⟨.produce 0, _, hstep, hspsc, ⟨h.memory.wf.write .., h.memory.head, h.memory.tail,
        fun i hi => ?_⟩, ?_, hconsumer, h.trace⟩
      · have hlen : i < s.queue.buffer.length := by simpa using hi
        have hcell := h.memory.cell i hlen
        by_cases hslot : i = tail.toNat
        · subst hslot
          rw [List.getD_eq_getElem?_getD, List.getElem?_set_self hlen]
          exact Function.update_self ..
        · rw [List.getD_eq_getElem?_getD, List.getElem?_set_ne (Ne.symm hslot),
            ← List.getD_eq_getElem?_getD, ← hcell]
          exact Function.update_of_ne hslot ..
      · exact (Function.update_self p (EnqueuePc.storeTail item tail nextTail) s.producer).symm
  | @publish p item tail nextTail hpc =>
      have hstep : WeakQueue.step cap.1 o w (.produce 0) = some { w with
          memory := w.memory.store .producer .tail o.tailStore nextTail
          producer := .idle
          trace := w.trace ++ [.push item] } := by
        simp only [WeakQueue.step, produce, hproducer.trans hpc]
      refine ⟨.produce 0, _, hstep, hspsc, ⟨h.memory.wf.store .., h.memory.head.store _
        (by decide) .., newest_store .., h.memory.cell⟩, ?_, hconsumer, congrArg (· ++ _) h.trace⟩
      exact (Function.update_self p EnqueuePc.idle s.producer).symm
  | start hpc =>
      obtain ⟨n, m', hload, hm'⟩ := h.memory.load h.memory.head .consumer .relaxed
      refine ⟨.consume n, { w with memory := m', consumer := .loadTail s.queue.head }, ?_,
        hspsc, hm', hproducer, rfl, h.trace⟩
      simp only [WeakQueue.step, consume, hconsumer.trans hpc, hload, Option.map_some]
  | empty hpc hempty =>
      obtain ⟨n, m', hload, hm'⟩ := h.memory.load h.memory.tail .consumer o.tailLoad
      refine ⟨.consume n, { w with
        memory := m', consumer := .idle, trace := w.trace ++ [.popEmpty] }, ?_,
        hspsc, hm', hproducer, rfl, congrArg (· ++ _) h.trace⟩
      simp only [WeakQueue.step, consume, hconsumer.trans hpc, hload, Option.map_some,
        if_pos hempty]
  | @nonempty head hpc hne =>
      obtain ⟨n, m', hload, hm'⟩ := h.memory.load h.memory.tail .consumer o.tailLoad
      refine ⟨.consume n, { w with memory := m', consumer := .readSlot head }, ?_,
        hspsc, hm', hproducer, rfl, h.trace⟩
      simp only [WeakQueue.step, consume, hconsumer.trans hpc, hload, Option.map_some, if_neg hne]
  | @read head hpc =>
      have hc := hinv.consumer
      rw [hpc] at hc
      have hcell := h.memory.cell head.toNat (hc.1 ▸ hinv.repr.head_lt_length)
      have hstep : WeakQueue.step cap.1 o w (.consume 0) = some { w with
          memory := (w.memory.read .consumer head.toNat).2
          consumer := .storeHead head (w.memory.read .consumer head.toNat).1 } := by
        simp only [WeakQueue.step, consume, hconsumer.trans hpc]
      refine ⟨.consume 0, _, hstep, hspsc, ⟨h.memory.wf.read .., h.memory.head, h.memory.tail,
        h.memory.cell⟩, hproducer, congrArg (DequeuePc.storeHead head) hcell, h.trace⟩
  | @release head item hpc =>
      have hstep : WeakQueue.step cap.1 o w (.consume 0) = some { w with
          memory := w.memory.store .consumer .head o.headStore (advance cap.1 head)
          consumer := .idle
          trace := w.trace ++ [.pop item] } := by
        simp only [WeakQueue.step, consume, hconsumer.trans hpc]
      refine ⟨.consume 0, _, hstep, hspsc, ⟨h.memory.wf.store .., hadvance _ ▸ newest_store ..,
        h.memory.tail.store _ (by decide) .., h.memory.cell⟩, hproducer, rfl,
        congrArg (· ++ _) h.trace⟩

end WeakQueue

/-- **Every interleaving is an execution of the weak machine.** Whatever the memory orders, every
    interleaving of one producer and one consumer is replayed by loads that return the newest
    messages, operation by operation. -/
theorem interleaving_is_execution (cap : LockFreeQueue.Capacity) (o : QueueOrders)
    (acts : List (QueueAction Unit T)) (s : QueueState Unit T)
    (hrun : run QueueState.step (QueueState.init cap) acts = some s) :
    ∃ wacts w, run (WeakQueue.step cap.1 o) init wacts = some w ∧ w.trace = s.trace ∧
      w.producer = s.producer () ∧ w.consumer = s.consumer := by
  have hstep : ∀ s (w : WeakQueue T) a s', Agrees cap s w → QueueState.step s a = some s' →
      ∃ bs w', run (WeakQueue.step cap.1 o) w bs = some w' ∧ Agrees cap s' w' := by
    intro s w a s' h hs
    obtain ⟨b, w', hb, h'⟩ := h.step (o := o) hs
    exact ⟨[b], w', by simp [hb], h'⟩
  obtain ⟨wacts, w, hw, h⟩ := run_simulates hstep (agrees_init cap) hrun
  exact ⟨wacts, w, hw, h.trace, h.producer, h.consumer⟩

theorem interleaving_is_execution_two_slots :
    ∃ s : QueueState Unit ℕ, run QueueState.step (QueueState.init ⟨2, 1, rfl⟩)
      [.call () 7, .produce (), .produce (), .consume, .produce (), .consume] = some s ∧
      ∃ wacts w, run (WeakQueue.step 2 .source) init wacts = some w ∧ w.trace = s.trace ∧
        w.producer = s.producer () ∧ w.consumer = s.consumer :=
  ⟨_, rfl, interleaving_is_execution ⟨2, 1, rfl⟩ .source
    [.call () 7, .produce (), .produce (), .consume, .produce (), .consume] _ rfl⟩

end MarketFeed
