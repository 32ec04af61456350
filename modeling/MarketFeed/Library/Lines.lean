import Mathlib.Data.List.Basic

set_option autoImplicit false

/-! # Reading a text line by line

`getline` takes one line off a text, the way `std::getline` does: up to the next separator, which is
removed, or up to the end of the text; on an empty text it fails. The lemmas say what it does to a
text given as its lines (`unlines`), and which texts a run of complete lines can contain
(`mem_tail_of_infix`). -/

namespace Lines

variable {α : Type*} (sep : α)

/-- The next line and the rest of the text. -/
def getline [DecidableEq α] : List α → Option (List α × List α)
  | [] => none
  | a :: text =>
      if a = sep then some ([], text)
      else
        match getline text with
        | none => some ([a], [])
        | some (line, rest) => some (a :: line, rest)

/-- Complete lines, each with its separator. -/
def unlines (lines : List (List α)) : List α := lines.flatMap (· ++ [sep])

@[simp] theorem unlines_nil : unlines sep [] = [] := rfl

theorem unlines_cons (line : List α) (lines : List (List α)) :
    unlines sep (line :: lines) = line ++ sep :: unlines sep lines := by
  unfold unlines
  rw [List.flatMap_cons, List.append_assoc, List.singleton_append]

theorem unlines_append (lines lines' : List (List α)) :
    unlines sep (lines ++ lines') = unlines sep lines ++ unlines sep lines' :=
  List.flatMap_append

variable {sep}

section Getline

variable [DecidableEq α] {line text rest : List α}

/-- Every line read shortens the text. -/
theorem length_lt_of_getline (h : getline sep text = some (line, rest)) :
    rest.length < text.length := by
  induction text generalizing line rest with
  | nil => exact absurd h (by simp [getline])
  | cons a text ih =>
      rw [getline] at h
      split at h
      · obtain ⟨-, rfl⟩ := Prod.ext_iff.1 (Option.some.inj h)
        exact Nat.lt_succ_self _
      · split at h
        · obtain ⟨-, rfl⟩ := Prod.ext_iff.1 (Option.some.inj h)
          exact Nat.zero_lt_succ _
        · next line' rest' hnext =>
            obtain ⟨-, rfl⟩ := Prod.ext_iff.1 (Option.some.inj h)
            exact Nat.lt_succ_of_lt (ih hnext)

theorem getline_line (h : sep ∉ line) (rest : List α) :
    getline sep (line ++ sep :: rest) = some (line, rest) := by
  induction line with
  | nil => exact if_pos rfl
  | cons a line ih =>
      have hne : a ≠ sep := fun he => h (he ▸ List.mem_cons_self)
      have hline : sep ∉ line := fun hmem => h (List.mem_cons_of_mem _ hmem)
      rw [List.cons_append, getline, if_neg hne, ih hline]

theorem getline_last (hne : line ≠ []) (h : sep ∉ line) : getline sep line = some (line, []) := by
  induction line with
  | nil => exact absurd rfl hne
  | cons a line ih =>
      have hne : a ≠ sep := fun he => h (he ▸ List.mem_cons_self)
      have hline : sep ∉ line := fun hmem => h (List.mem_cons_of_mem _ hmem)
      rw [getline, if_neg hne]
      cases line with
      | nil => rfl
      | cons b line => rw [ih (List.cons_ne_nil _ _) hline]

end Getline

theorem line_inj {line line' rest rest' : List α} (h : sep ∉ line) (h' : sep ∉ line')
    (heq : line ++ sep :: rest = line' ++ sep :: rest') : line = line' ∧ rest = rest' := by
  classical
  have hread := getline_line h rest
  rw [heq, getline_line h' rest'] at hread
  obtain ⟨hline, hrest⟩ := Prod.ext_iff.1 (Option.some.inj hread)
  exact ⟨hline.symm, hrest.symm⟩

/-- What a text starts with, up to its first separator, is its first line. -/
theorem mem_of_prefix {lines : List (List α)} {last inner : List α}
    (hlines : ∀ line ∈ lines, sep ∉ line) (hlast : sep ∉ last) (hinner : sep ∉ inner)
    (h : inner ++ [sep] <+: unlines sep lines ++ last) : inner ∈ lines := by
  obtain ⟨after, h⟩ := h
  rw [List.append_assoc, List.singleton_append] at h
  cases lines with
  | nil =>
      refine absurd ?_ hlast
      rw [unlines_nil, List.nil_append] at h
      exact h ▸ List.mem_append_right _ List.mem_cons_self
  | cons line lines =>
      rw [unlines_cons, List.append_assoc, List.cons_append] at h
      have hline := hlines line List.mem_cons_self
      obtain ⟨rfl, -⟩ := line_inj hinner hline h
      exact List.mem_cons_self

/-- What stands between two separators of a text is one of its lines, but not the first. -/
theorem mem_tail_of_infix {lines : List (List α)} {last inner : List α}
    (hlines : ∀ line ∈ lines, sep ∉ line) (hlast : sep ∉ last) (hinner : sep ∉ inner)
    (h : sep :: (inner ++ [sep]) <:+: unlines sep lines ++ last) : inner ∈ lines.tail := by
  induction lines with
  | nil => exact absurd (h.subset List.mem_cons_self) hlast
  | cons line lines ih =>
      obtain ⟨before, after, h⟩ := h
      have hline := hlines line List.mem_cons_self
      have hrest : ∀ l ∈ lines, sep ∉ l := fun l hl => hlines l (List.mem_cons_of_mem _ hl)
      rw [unlines_cons, List.append_assoc, List.append_assoc, List.cons_append,
        List.cons_append] at h
      by_cases hbefore : sep ∈ before
      · -- the first line lies before the two separators
        obtain ⟨first, between, rfl, hfirst⟩ := List.eq_append_cons_of_mem hbefore
        rw [List.append_assoc, List.cons_append] at h
        obtain ⟨-, h⟩ := line_inj hfirst hline h
        refine List.mem_of_mem_tail (ih hrest ⟨between, after, ?_⟩)
        rw [← h, List.append_assoc, List.cons_append]
      · -- the first line ends with the first of them
        obtain ⟨-, h⟩ := line_inj hbefore hline h
        exact mem_of_prefix hrest hlast hinner ⟨after, h⟩

end Lines
