import MarketFeed.Nlohmann.Grammar

set_option autoImplicit false

/-! # What `scan_number` accepts

The labels of `scan_number` are the states of an automaton. `Tail` says in the words of the grammar
what may follow at each label; `tail_nil_iff` and `tail_cons_iff` say that this is what the `switch`
at the label makes of it, and the rest is one induction over the unread bytes. -/

namespace MarketFeed

open Grammar Lexer

variable {unread unread' : Bytes} {b : UInt8} {w : Bytes}

theorem isDigit_iff : isDigit b = true ↔ IsDigit b := by
  simp [isDigit, IsDigit]

theorem digits_cons_iff : Digits (b :: w) ↔ IsDigit b ∧ ∀ c ∈ w, IsDigit c := by
  simp [Digits]

namespace Lexer.NumberState

/-- What may follow at a label for the whole to be a number. -/
def Tail : NumberState → Bytes → Prop
  | .init, w => ∃ n : Numeral, w = n.text
  | .minus, w => ∃ i f e, IntPart i ∧ FracPart f ∧ ExpPart e ∧ w = i ++ (f ++ e)
  | .zero, w => ∃ f e, FracPart f ∧ ExpPart e ∧ w = f ++ e
  | .any1, w => ∃ ds f e, (∀ c ∈ ds, IsDigit c) ∧ FracPart f ∧ ExpPart e ∧ w = ds ++ (f ++ e)
  | .decimal1, w => ∃ ds e, Digits ds ∧ ExpPart e ∧ w = ds ++ e
  | .decimal2, w => ∃ ds e, (∀ c ∈ ds, IsDigit c) ∧ ExpPart e ∧ w = ds ++ e
  | .exponent, w => ∃ sign ds, (sign = [] ∨ sign = [0x2B] ∨ sign = [0x2D]) ∧ Digits ds ∧
      w = sign ++ ds
  | .sign, w => Digits w
  | .any2, w => ∀ c ∈ w, IsDigit c

/-! ## The parts of a number, by their first byte -/

theorem expPart_cons_iff :
    ExpPart (b :: w) ↔ (b = 0x65 ∨ b = 0x45) ∧ Tail .exponent w := by
  constructor
  · intro h
    cases h with
    | exp he hsign hdigits => exact ⟨he, _, _, hsign, hdigits, rfl⟩
  · rintro ⟨he, sign, ds, hsign, hdigits, rfl⟩
    exact .exp he hsign hdigits

theorem zero_cons_iff : Tail .zero (b :: w) ↔
    (b = 0x2E ∧ Tail .decimal1 w) ∨ ((b = 0x65 ∨ b = 0x45) ∧ Tail .exponent w) := by
  constructor
  · rintro ⟨f, e, hf, he, h⟩
    cases hf with
    | absent => exact Or.inr (expPart_cons_iff.1 (h ▸ he))
    | frac hdigits =>
        obtain ⟨rfl, rfl⟩ := List.cons.inj h
        exact Or.inl ⟨rfl, _, e, hdigits, he, rfl⟩
  · rintro (⟨rfl, ds, e, hdigits, he, rfl⟩ | h)
    · exact ⟨_, e, .frac hdigits, he, rfl⟩
    · exact ⟨[], _, .absent, expPart_cons_iff.2 h, rfl⟩

theorem any1_cons_iff : Tail .any1 (b :: w) ↔ (IsDigit b ∧ Tail .any1 w) ∨ Tail .zero (b :: w) := by
  constructor
  · rintro ⟨ds, f, e, hds, hf, he, h⟩
    cases ds with
    | nil => exact Or.inr ⟨f, e, hf, he, h⟩
    | cons d ds =>
        obtain ⟨rfl, rfl⟩ := List.cons.inj h
        obtain ⟨hb, hds⟩ := List.forall_mem_cons.1 hds
        exact Or.inl ⟨hb, ds, f, e, hds, hf, he, rfl⟩
  · rintro (⟨hb, ds, f, e, hds, hf, he, rfl⟩ | ⟨f, e, hf, he, h⟩)
    · exact ⟨b :: ds, f, e, List.forall_mem_cons.2 ⟨hb, hds⟩, hf, he, rfl⟩
    · exact ⟨[], f, e, by simp, hf, he, h⟩

theorem minus_cons_iff : Tail .minus (b :: w) ↔
    (b = 0x30 ∧ Tail .zero w) ∨ (IsDigit b ∧ b ≠ 0x30 ∧ Tail .any1 w) := by
  constructor
  · rintro ⟨i, f, e, hi, hf, he, h⟩
    cases hi with
    | zero =>
        obtain ⟨rfl, rfl⟩ := List.cons.inj h
        exact Or.inl ⟨rfl, f, e, hf, he, rfl⟩
    | digits hfirst hzero hrest =>
        obtain ⟨rfl, rfl⟩ := List.cons.inj h
        exact Or.inr ⟨hfirst, hzero, _, f, e, hrest, hf, he, rfl⟩
  · rintro (⟨rfl, f, e, hf, he, rfl⟩ | ⟨hb, hzero, ds, f, e, hds, hf, he, rfl⟩)
    · exact ⟨[0x30], f, e, .zero, hf, he, rfl⟩
    · exact ⟨b :: ds, f, e, .digits hb hzero hds, hf, he, rfl⟩

theorem init_cons_iff : Tail .init (b :: w) ↔
    (b = 0x2D ∧ Tail .minus w) ∨ Tail .minus (b :: w) := by
  constructor
  · rintro ⟨⟨negative, i, f, e, hi, hf, he⟩, h⟩
    cases negative with
    | false => exact Or.inr ⟨i, f, e, hi, hf, he, h⟩
    | true =>
        obtain ⟨rfl, rfl⟩ := List.cons.inj h
        exact Or.inl ⟨rfl, i, f, e, hi, hf, he, rfl⟩
  · rintro (⟨rfl, i, f, e, hi, hf, he, rfl⟩ | ⟨i, f, e, hi, hf, he, h⟩)
    · exact ⟨⟨true, i, f, e, hi, hf, he⟩, rfl⟩
    · exact ⟨⟨false, i, f, e, hi, hf, he⟩, h⟩

theorem decimal1_cons_iff : Tail .decimal1 (b :: w) ↔ IsDigit b ∧ Tail .decimal2 w := by
  constructor
  · rintro ⟨ds, e, hds, he, h⟩
    obtain ⟨d, ds, rfl⟩ := List.exists_cons_of_ne_nil hds.1
    obtain ⟨rfl, rfl⟩ := List.cons.inj h
    obtain ⟨hb, hds⟩ := digits_cons_iff.1 hds
    exact ⟨hb, ds, e, hds, he, rfl⟩
  · rintro ⟨hb, ds, e, hds, he, rfl⟩
    exact ⟨b :: ds, e, digits_cons_iff.2 ⟨hb, hds⟩, he, rfl⟩

theorem decimal2_cons_iff : Tail .decimal2 (b :: w) ↔
    (IsDigit b ∧ Tail .decimal2 w) ∨ ((b = 0x65 ∨ b = 0x45) ∧ Tail .exponent w) := by
  constructor
  · rintro ⟨ds, e, hds, he, h⟩
    cases ds with
    | nil => exact Or.inr (expPart_cons_iff.1 (h ▸ he))
    | cons d ds =>
        obtain ⟨rfl, rfl⟩ := List.cons.inj h
        obtain ⟨hb, hds⟩ := List.forall_mem_cons.1 hds
        exact Or.inl ⟨hb, ds, e, hds, he, rfl⟩
  · rintro (⟨hb, ds, e, hds, he, rfl⟩ | h)
    · exact ⟨b :: ds, e, List.forall_mem_cons.2 ⟨hb, hds⟩, he, rfl⟩
    · exact ⟨[], _, by simp, expPart_cons_iff.2 h, rfl⟩

theorem exponent_cons_iff : Tail .exponent (b :: w) ↔
    ((b = 0x2B ∨ b = 0x2D) ∧ Tail .sign w) ∨ (IsDigit b ∧ Tail .any2 w) := by
  constructor
  · rintro ⟨sign, ds, rfl | rfl | rfl, hds, h⟩
    · obtain rfl : b :: w = ds := h
      exact Or.inr (digits_cons_iff.1 hds)
    · obtain ⟨rfl, rfl⟩ := List.cons.inj h
      exact Or.inl ⟨Or.inl rfl, hds⟩
    · obtain ⟨rfl, rfl⟩ := List.cons.inj h
      exact Or.inl ⟨Or.inr rfl, hds⟩
  · rintro (⟨rfl | rfl, hds⟩ | h)
    · exact ⟨[0x2B], w, Or.inr (Or.inl rfl), hds, rfl⟩
    · exact ⟨[0x2D], w, Or.inr (Or.inr rfl), hds, rfl⟩
    · exact ⟨[], b :: w, Or.inl rfl, digits_cons_iff.2 h, rfl⟩

/-- A digit is none of the other characters of a number. -/
theorem ne_of_isDigit (h : IsDigit b) :
    b ≠ 0x2D ∧ b ≠ 0x2B ∧ b ≠ 0x2E ∧ b ≠ 0x65 ∧ b ≠ 0x45 := by
  refine ⟨?_, ?_, ?_, ?_, ?_⟩ <;> rintro rfl <;> exact absurd h (by decide)

/-- A label is left for `scan_number_done` where the number may end. -/
theorem tail_nil_iff (state : NumberState) : Tail state [] ↔ state.done = true := by
  cases state with
  | init =>
      refine iff_of_false ?_ (by decide)
      rintro ⟨⟨negative, i, f, e, hi, hf, he⟩, h⟩
      cases hi <;> cases negative <;> simp [Numeral.text, Numeral.sign] at h
  | minus =>
      refine iff_of_false ?_ (by decide)
      rintro ⟨i, f, e, hi, -, -, h⟩
      cases hi <;> simp at h
  | zero => exact iff_of_true ⟨[], [], .absent, .absent, rfl⟩ rfl
  | any1 => exact iff_of_true ⟨[], [], [], by simp, .absent, .absent, rfl⟩ rfl
  | decimal1 =>
      refine iff_of_false ?_ (by decide)
      rintro ⟨ds, e, hds, -, h⟩
      exact hds.1 (List.append_eq_nil_iff.1 h.symm).1
  | decimal2 => exact iff_of_true ⟨[], [], by simp, .absent, rfl⟩ rfl
  | exponent =>
      refine iff_of_false ?_ (by decide)
      rintro ⟨sign, ds, -, hds, h⟩
      exact hds.1 (List.append_eq_nil_iff.1 h.symm).2
  | sign => exact iff_of_false (fun h => h.1 rfl) (by decide)
  | any2 => exact iff_of_true (by simp [Tail]) rfl

/-- **The automaton.** The `switch` at a label goes where the rest of the number is what may follow
    there. -/
theorem tail_cons_iff (state : NumberState) :
    Tail state (b :: w) ↔ ∃ state', state.next b = some state' ∧ Tail state' w := by
  have hdigit := @ne_of_isDigit b
  cases state with
  | init =>
      rw [init_cons_iff, minus_cons_iff]
      simp only [next, isDigit_iff]
      split_ifs <;> simp_all
  | minus =>
      rw [minus_cons_iff]
      simp only [next, isDigit_iff]
      split_ifs <;> simp_all
  | zero =>
      rw [zero_cons_iff]
      simp only [next]
      split_ifs <;> simp_all
  | any1 =>
      rw [any1_cons_iff, zero_cons_iff]
      simp only [next, isDigit_iff]
      split_ifs <;> simp_all
  | decimal1 =>
      rw [decimal1_cons_iff]
      simp only [next, isDigit_iff]
      split_ifs <;> simp_all
  | decimal2 =>
      rw [decimal2_cons_iff]
      simp only [next, isDigit_iff]
      split_ifs <;> simp_all
  | exponent =>
      rw [exponent_cons_iff]
      simp only [next, isDigit_iff]
      split_ifs with hsign
      · have hnot : ¬ IsDigit b := by
          rcases hsign with rfl | rfl <;> decide
        simp [hsign, hnot]
      all_goals simp_all
  | sign =>
      simp only [Tail, digits_cons_iff, next, isDigit_iff]
      split_ifs <;> simp_all
  | any2 =>
      simp only [Tail, List.forall_mem_cons, next, isDigit_iff]
      split_ifs <;> simp_all

/-- From every label there is a way to the end of a number. -/
theorem exists_tail (state : NumberState) : ∃ w, Tail state w := by
  have hzero : ∀ c ∈ [(0x30 : UInt8)], IsDigit c := List.forall_mem_singleton.2 (by decide)
  have hdone {state : NumberState} (h : state.done = true) : ∃ w, Tail state w :=
    ⟨[], (tail_nil_iff state).2 h⟩
  cases state with
  | init => exact ⟨_, ⟨false, [0x30], [], [], .zero, .absent, .absent⟩, rfl⟩
  | minus => exact ⟨_, [0x30], [], [], .zero, .absent, .absent, rfl⟩
  | decimal1 => exact ⟨_, [0x30], [], ⟨by simp, hzero⟩, .absent, rfl⟩
  | exponent => exact ⟨_, [], [0x30], Or.inl rfl, ⟨by simp, hzero⟩, rfl⟩
  | sign => exact ⟨[0x30], by simp, hzero⟩
  | _ => exact hdone rfl

/-- What comes after `w` does not begin like more of the number. -/
def Ends (state : NumberState) (w rest : Bytes) : Prop :=
  ∀ c ∈ rest.head?, ∀ tail, ¬ Tail state (w ++ c :: tail)

theorem ends_nil_iff (state : NumberState) (rest : Bytes) :
    Ends state [] rest ↔ ∀ c ∈ rest.head?, state.next c = none := by
  refine forall₂_congr fun c _ => ?_
  simp only [List.nil_append, tail_cons_iff]
  constructor
  · intro h
    cases hnext : state.next c with
    | none => rfl
    | some state' =>
        obtain ⟨tail, htail⟩ := exists_tail state'
        exact absurd ⟨state', hnext, htail⟩ (h tail)
  · rintro hnone tail ⟨state', hnext, -⟩
    exact absurd (hnone.symm.trans hnext) (by simp)

theorem ends_cons_iff {state state' : NumberState} {rest : Bytes} (h : state.next b = some state') :
    Ends state (b :: w) rest ↔ Ends state' w rest := by
  simp [Ends, tail_cons_iff, h]

/-- No number goes on like that. -/
def Stops (rest : Bytes) : Prop :=
  ∀ c ∈ rest.head?, ¬ IsDigit c ∧ c ≠ 0x2E ∧ c ≠ 0x65 ∧ c ≠ 0x45

theorem next_eq_none_of_stops {state : NumberState} (hdone : state.done = true)
    (hb : ¬ IsDigit b ∧ b ≠ 0x2E ∧ b ≠ 0x65 ∧ b ≠ 0x45) : state.next b = none := by
  obtain ⟨hdigit, hpoint, he, hE⟩ := hb
  cases state <;> simp_all [done, next, isDigit_iff]

theorem Stops.ends {state : NumberState} {rest : Bytes} (h : Stops rest) (hw : Tail state w) :
    Ends state w rest := by
  induction w generalizing state with
  | nil =>
      rw [ends_nil_iff]
      exact fun c hc => next_eq_none_of_stops ((tail_nil_iff state).1 hw) (h c hc)
  | cons b w ih =>
      obtain ⟨state', hnext, hw'⟩ := (tail_cons_iff state).1 hw
      exact (ends_cons_iff hnext).2 (ih hw')

end Lexer.NumberState

/-! ## The type of a number -/

open NumberState

namespace Lexer

/-- What a character of a number makes of its type. -/
def NumberType.read (type : NumberType) (c : UInt8) : NumberType :=
  if c = 0x2E ∨ c = 0x65 ∨ c = 0x45 then .valueFloat
  else if c = 0x2D ∧ type = .valueUnsigned then .valueInteger
  else type

/-- What is known of the type at a label. -/
def TypeAt (type : NumberType) : NumberState → Prop
  | .init => type = .valueUnsigned
  | .minus | .zero | .any1 => type ≠ .valueFloat
  | _ => type = .valueFloat

theorem numberType_eq_read {state state' : NumberState} {type : NumberType} (h : TypeAt type state)
    (hnext : state.next b = some state') :
    state'.numberType type = type.read b ∧ TypeAt (type.read b) state' := by
  have hdigit := @ne_of_isDigit b
  cases state <;> simp only [next, isDigit_iff] at hnext <;> split_ifs at hnext <;>
    cases hnext <;> simp_all [numberType, NumberType.read, TypeAt]

/-! ## Scanning -/

variable {state : NumberState} {type type' : NumberType} {tokenBuffer tokenBuffer' : Bytes}

/-- What `scan_number` takes from a label on is what may follow there, as much of it as there is. -/
theorem scanNumberFrom_sound (htype : TypeAt type state)
    (h : scanNumberFrom state type tokenBuffer unread = some (type', tokenBuffer', unread')) :
    ∃ w, unread = w ++ unread' ∧ tokenBuffer' = tokenBuffer ++ w ∧ Tail state w ∧
      Ends state w unread' ∧ type' = w.foldl NumberType.read type := by
  induction unread generalizing state type tokenBuffer with
  | nil =>
      unfold scanNumberFrom at h
      split_ifs at h with hdone
      obtain ⟨rfl, rfl, rfl⟩ := h
      exact ⟨[], rfl, (List.append_nil _).symm, (tail_nil_iff state).2 hdone, by simp [Ends], rfl⟩
  | cons b unread ih =>
      unfold scanNumberFrom at h
      split at h
      · next state' hnext =>
          obtain ⟨hread, htype'⟩ := numberType_eq_read htype hnext
          rw [hread] at h
          obtain ⟨w, rfl, rfl, hw, hends, rfl⟩ := ih htype' h
          exact ⟨b :: w, rfl, by simp, (tail_cons_iff state).2 ⟨state', hnext, hw⟩,
            (ends_cons_iff hnext).2 hends, rfl⟩
      · next hnext =>
          split_ifs at h with hdone
          obtain ⟨rfl, rfl, rfl⟩ := h
          refine ⟨[], rfl, (List.append_nil _).symm, (tail_nil_iff state).2 hdone, ?_, rfl⟩
          rw [ends_nil_iff]
          exact fun c hc => Option.some.inj hc ▸ hnext

/-- And it takes all of it, up to where it ends. -/
theorem scanNumberFrom_complete (htype : TypeAt type state) (hw : Tail state w)
    (hends : Ends state w unread) : scanNumberFrom state type tokenBuffer (w ++ unread) =
      some (w.foldl NumberType.read type, tokenBuffer ++ w, unread) := by
  induction w generalizing state type tokenBuffer with
  | nil =>
      have hdone := (tail_nil_iff state).1 hw
      rw [List.nil_append, List.append_nil]
      cases unread with
      | nil => exact if_pos hdone
      | cons c rest =>
          have hnext := (ends_nil_iff state (c :: rest)).1 hends c rfl
          simp only [scanNumberFrom, hnext, hdone, if_true]
          rfl
  | cons b w ih =>
      obtain ⟨state', hnext, hw'⟩ := (tail_cons_iff state).1 hw
      obtain ⟨hread, htype'⟩ := numberType_eq_read htype hnext
      simp only [List.cons_append, scanNumberFrom, hnext, hread]
      rw [ih htype' hw' ((ends_cons_iff hnext).1 hends)]
      simp

/-! ## Numerals -/

theorem foldl_read_digits (h : ∀ c ∈ w, IsDigit c) : w.foldl NumberType.read type = type := by
  induction w with
  | nil => rfl
  | cons b w ih =>
      obtain ⟨hb, hw⟩ := List.forall_mem_cons.1 h
      have hdigit := ne_of_isDigit hb
      have hread : type.read b = type := by simp [NumberType.read, hdigit]
      rw [List.foldl_cons, hread]
      exact ih hw

theorem foldl_read_valueFloat : w.foldl NumberType.read .valueFloat = .valueFloat := by
  induction w with
  | nil => rfl
  | cons b w ih =>
      have hread : NumberType.valueFloat.read b = .valueFloat := by simp [NumberType.read]
      rw [List.foldl_cons, hread]
      exact ih

theorem foldl_read_int (h : IntPart w) : w.foldl NumberType.read type = type := by
  refine foldl_read_digits ?_
  cases h with
  | zero => exact List.forall_mem_singleton.2 (by decide)
  | digits hfirst _ hrest => exact List.forall_mem_cons.2 ⟨hfirst, hrest⟩

theorem foldl_read_frac (h : FracPart w) (hne : w ≠ []) :
    w.foldl NumberType.read type = .valueFloat := by
  cases h with
  | absent => exact absurd rfl hne
  | frac hdigits => exact foldl_read_valueFloat

theorem foldl_read_exp (h : ExpPart w) (hne : w ≠ []) :
    w.foldl NumberType.read type = .valueFloat := by
  cases h with
  | absent => exact absurd rfl hne
  | exp he hsign hdigits =>
      rw [List.foldl_cons, NumberType.read, if_pos (Or.inr he)]
      exact foldl_read_valueFloat

end Lexer

namespace Grammar.Numeral

/-- An integer is a numeral with neither fraction nor exponent. -/
def numberType (n : Numeral) : NumberType :=
  if n.frac = [] ∧ n.exp = [] then if n.negative then .valueInteger else .valueUnsigned
  else .valueFloat

theorem foldl_read_text (n : Numeral) :
    n.text.foldl NumberType.read .valueUnsigned = n.numberType := by
  rw [text, List.foldl_append, List.foldl_append, foldl_read_int n.int_ok, List.foldl_append]
  unfold numberType
  split_ifs with h hnegative
  · rw [h.1, h.2, sign, if_pos hnegative]
    rfl
  · rw [h.1, h.2, sign, if_neg hnegative]
    rfl
  · by_cases hexp : n.exp = []
    · rw [foldl_read_frac n.frac_ok fun hfrac => h ⟨hfrac, hexp⟩, hexp]
      rfl
    · exact foldl_read_exp n.exp_ok hexp

theorem ends_iff {rest : Bytes} (n : Numeral) :
    n.Ends rest ↔ NumberState.Ends .init n.text rest := by
  simp only [Ends, NumberState.Ends, NumberState.Tail, not_exists]
  refine forall₂_congr fun c _ => forall_comm.trans ?_
  exact forall₂_congr fun tail n' => ne_comm

theorem ends_of_stops {rest : Bytes} (n : Numeral) (h : Stops rest) : n.Ends rest :=
  n.ends_iff.2 (h.ends ⟨n, rfl⟩)

/-- The token of a numeral. -/
def token (strtod : Strtod) (n : Numeral) : Token :=
  if n.frac = [] ∧ n.exp = [] ∧ n.negative = false ∧ Lexer.decimal n.int < 2 ^ 64 then
    .valueUnsigned (.ofNat (Lexer.decimal n.int))
  else if n.frac = [] ∧ n.exp = [] ∧ n.negative = true ∧ Lexer.decimal n.int ≤ 2 ^ 63 then
    .valueInteger (.ofInt (-Lexer.decimal n.int))
  else .valueFloat (strtod n.text)

theorem numberToken_text (strtod : Strtod) (n : Numeral) :
    numberToken strtod n.numberType n.text = n.token strtod := by
  unfold numberType token
  by_cases h : n.frac = [] ∧ n.exp = []
  · obtain ⟨hfrac, hexp⟩ := h
    have htext : n.text = n.sign ++ n.int := by simp [text, hfrac, hexp]
    cases hnegative : n.negative with
    | false =>
        have hint : n.text = n.int := by simp [htext, sign, hnegative]
        simp only [hfrac, hexp, hint, numberToken, strtoull, true_and, and_self, if_true,
          Bool.false_eq_true, if_false, false_and]
        split_ifs <;> rfl
    | true =>
        have hint : n.text.tail = n.int := by simp [htext, sign, hnegative]
        simp only [hfrac, hexp, hint, numberToken, strtoll, true_and, and_self, if_true,
          Bool.true_eq_false, if_false, false_and]
        split_ifs <;> rfl
  · rw [if_neg h, if_neg fun hall => h ⟨hall.1, hall.2.1⟩, if_neg fun hall => h ⟨hall.1, hall.2.1⟩]
    rfl

end Grammar.Numeral

namespace Lexer

/-- **Soundness of `scan_number`.** What it takes is a number, and as much of it as there is. -/
theorem scanNumber_sound (strtod : Strtod) {type : NumberType} {tokenBuffer : Bytes}
    (h : scanNumberFrom .init .valueUnsigned [] unread = some (type, tokenBuffer, unread')) :
    ∃ n : Numeral, unread = n.text ++ unread' ∧ n.Ends unread' ∧
      numberToken strtod type tokenBuffer = n.token strtod := by
  have htype : TypeAt .valueUnsigned .init := rfl
  obtain ⟨w, rfl, rfl, ⟨n, rfl⟩, hends, rfl⟩ := scanNumberFrom_sound htype h
  exact ⟨n, rfl, n.ends_iff.2 hends, by rw [n.foldl_read_text]; exact n.numberToken_text strtod⟩

/-- **Completeness of `scan_number`.** A number is taken, up to where it ends. -/
theorem scanNumber_complete (n : Numeral) (hends : n.Ends unread) :
    scanNumberFrom .init .valueUnsigned [] (n.text ++ unread) =
      some (n.numberType, n.text, unread) := by
  have htype : TypeAt .valueUnsigned .init := rfl
  have htail : Tail .init n.text := ⟨n, rfl⟩
  rw [scanNumberFrom_complete htype htail (n.ends_iff.1 hends), n.foldl_read_text, List.nil_append]

end Lexer

end MarketFeed
