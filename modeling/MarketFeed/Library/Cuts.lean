import Mathlib.Data.List.Basic

set_option autoImplicit false

/-! # One list cut in three

A record of three fields of variable length that is written without separators is a list cut in
three, and whoever reads it back sees the list and not the cuts. `Recut` lists the ways in which the
cuts can have been elsewhere: elements have moved across one boundary or across both.
`recut_or_recut_iff` says that there are no others, and `eq_of_joined` that the lengths of two of
the pieces tell the cuts apart. -/

namespace Cuts

variable {α : Type*}

/-- Three consecutive pieces of a list. -/
@[ext] structure Cut (α : Type*) where
  first : List α
  second : List α
  third : List α
deriving DecidableEq

/-- The list that was cut. -/
def Cut.joined (t : Cut α) : List α := t.first ++ (t.second ++ t.third)

/-- The first boundary of the right cut lies behind that of the left, or the first boundaries agree
    and the second lies behind. -/
inductive Recut : Cut α → Cut α → Prop
  /-- `x` has moved across the first boundary and `y` across the second. -/
  | shift (a x m y c : List α) (h : x ≠ [] ∨ y ≠ []) :
      Recut ⟨a, x ++ m, y ++ c⟩ ⟨a ++ x, m ++ y, c⟩
  /-- The whole second piece and `z` have moved into the first. -/
  | leap (a b z b' c' : List α) (h : z ≠ []) :
      Recut ⟨a, b, z ++ (b' ++ c')⟩ ⟨a ++ (b ++ z), b', c'⟩
  /-- The second piece has lost `x` to the first and `y` to the third. -/
  | squeeze (a x m y c : List α) (hx : x ≠ []) (hy : y ≠ []) :
      Recut ⟨a, x ++ (m ++ y), c⟩ ⟨a ++ x, m, y ++ c⟩

theorem Recut.joined_eq {t t' : Cut α} (h : Recut t t') : t.joined = t'.joined := by
  cases h with
  | shift a x m y c h => simp [Cut.joined]
  | leap a b z b' c' h => simp [Cut.joined]
  | squeeze a x m y c hx hy => simp [Cut.joined]

theorem Recut.ne {t t' : Cut α} (h : Recut t t') : t ≠ t' := by
  intro heq
  cases h with
  | shift a x m y c h =>
      obtain ⟨hfirst, -, hthird⟩ := Cut.mk.inj heq
      rcases h with hx | hy
      · exact hx (List.self_eq_append_right.1 hfirst)
      · exact hy (List.append_left_eq_self.1 hthird)
  | leap a b z b' c' h =>
      have hfirst := List.self_eq_append_right.1 (Cut.mk.inj heq).1
      exact h (List.append_eq_nil_iff.1 hfirst).2
  | squeeze a x m y c hx hy =>
      exact hx (List.self_eq_append_right.1 (Cut.mk.inj heq).1)

/-- The first piece of the other cut is the longer one: its surplus `x` has come from the second and
    the third piece of `t`. -/
theorem recut_of_joined {t : Cut α} {x b' c' : List α}
    (h : t.second ++ t.third = x ++ (b' ++ c')) (hne : t ≠ ⟨t.first ++ x, b', c'⟩) :
    Recut t ⟨t.first ++ x, b', c'⟩ ∨ Recut ⟨t.first ++ x, b', c'⟩ t := by
  obtain ⟨a, b, c⟩ := t
  obtain ⟨z, rfl, hc⟩ | ⟨m, hb, hm⟩ := List.append_eq_append_iff.1 h
  · -- the surplus is the whole second piece and `z`
    obtain rfl : c = z ++ (b' ++ c') := hc
    by_cases hz : z = []
    · subst hz
      have hmoved : b ≠ [] ∨ b' ≠ [] := by
        by_contra hnone
        obtain ⟨rfl, rfl⟩ : b = [] ∧ b' = [] := by simpa using hnone
        exact hne (by simp)
      exact Or.inl (by simpa using Recut.shift a b [] b' c' hmoved)
    · exact Or.inl (.leap a b z b' c' hz)
  · obtain rfl : b = x ++ m := hb
    obtain ⟨y, rfl, rfl⟩ | ⟨y, rfl, rfl⟩ := List.append_eq_append_iff.1 hm
    · -- the new third piece has got `y` from the old second
      by_cases hx : x = []
      · subst hx
        have hy : y ≠ [] := by
          rintro rfl
          exact hne (by simp)
        exact Or.inr (by simpa using Recut.shift a [] b' y c (Or.inr hy))
      · by_cases hy : y = []
        · subst hy
          exact Or.inl (by simpa using Recut.shift a x b' [] c (Or.inl hx))
        · exact Or.inl (.squeeze a x b' y c hx hy)
    · -- the new second piece has got `y` from the old third
      have hmoved : x ≠ [] ∨ y ≠ [] := by
        by_contra hnone
        obtain ⟨rfl, rfl⟩ : x = [] ∧ y = [] := by simpa using hnone
        exact hne (by simp)
      exact Or.inl (.shift a x m y c' hmoved)

/-- **The cuts of one list.** Two cuts differ, and are cuts of the same list, exactly if elements
    have moved across their boundaries. -/
theorem recut_or_recut_iff {t t' : Cut α} :
    Recut t t' ∨ Recut t' t ↔ t.joined = t'.joined ∧ t ≠ t' := by
  constructor
  · rintro (h | h)
    · exact ⟨h.joined_eq, h.ne⟩
    · exact ⟨h.joined_eq.symm, h.ne.symm⟩
  · rintro ⟨hjoined, hne⟩
    obtain ⟨a, b, c⟩ := t
    obtain ⟨a', b', c'⟩ := t'
    rcases List.append_eq_append_iff.1 hjoined with ⟨x, rfl, h⟩ | ⟨x, rfl, h⟩
    · exact recut_of_joined h hne
    · exact (recut_of_joined h hne.symm).symm

instance decidableRecut [DecidableEq α] (t t' : Cut α) : Decidable (Recut t t' ∨ Recut t' t) :=
  decidable_of_iff _ recut_or_recut_iff.symm

/-- Cuts of one list after as many elements are the same cut. -/
theorem eq_of_joined {t t' : Cut α} (hjoined : t.joined = t'.joined)
    (hfirst : t.first.length = t'.first.length) (hsecond : t.second.length = t'.second.length) :
    t = t' := by
  obtain ⟨ha, hrest⟩ := List.append_inj hjoined hfirst
  obtain ⟨hb, hc⟩ := List.append_inj hrest hsecond
  exact Cut.ext ha hb hc

end Cuts
