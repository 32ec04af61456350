import MarketFeed.Library.Execution
import Mathlib.Order.MinMax
import Mathlib.Data.List.Basic
import Mathlib.Data.List.Induction
import Mathlib.Tactic.Common

set_option autoImplicit false

/-! # High-water marks of a stream

A stream whose elements may carry a key is filtered by the largest key seen so far. `mark key u xs`
is that high-water mark after `xs`, started at `u`; what matters about it is `mark_lt_iff`: a key is
above the mark exactly when it is above `u` and above every earlier key.

`records` keeps the keys that were above the mark when they came. It is how the copies of one
increasing sequence, cut off at different places and interleaved in any order, are put together
again: what is left is the longest of the copies (`records_isLongest`). -/

namespace HighWater

variable {β κ : Type*} [LinearOrder κ] (key : β → Option κ)

/-- The keys of a stream, in order. -/
def keys (xs : List β) : List κ := xs.filterMap key

/-- The mark after one element. -/
def raise (u : κ) (x : β) : κ :=
  match key x with
  | some k => max u k
  | none => u

theorem le_raise (u : κ) (x : β) : u ≤ raise key u x := by
  unfold raise
  split
  · exact le_max_left _ _
  · exact le_rfl

theorem key_le_raise {u k : κ} {x : β} (h : key x = some k) : k ≤ raise key u x := by
  unfold raise
  rw [h]
  exact le_max_right _ _

/-- The mark after a stream. -/
def mark (u : κ) (xs : List β) : κ := xs.foldl (raise key) u

@[simp] theorem mark_nil (u : κ) : mark key u [] = u := rfl

theorem mark_concat (u : κ) (xs : List β) (x : β) :
    mark key u (xs ++ [x]) = raise key (mark key u xs) x := by
  unfold mark
  rw [List.foldl_append, List.foldl_cons, List.foldl_nil]

omit [LinearOrder κ] in
theorem keys_concat_none {x : β} (xs : List β) (h : key x = none) :
    keys key (xs ++ [x]) = keys key xs := by
  unfold keys
  rw [List.filterMap_append, List.filterMap_cons_none h, List.filterMap_nil, List.append_nil]

omit [LinearOrder κ] in
theorem keys_concat_some {x : β} {k : κ} (xs : List β) (h : key x = some k) :
    keys key (xs ++ [x]) = keys key xs ++ [k] := by
  unfold keys
  rw [List.filterMap_append, List.filterMap_cons_some h, List.filterMap_nil]

omit [LinearOrder κ] in
theorem keys_append (xs ys : List β) : keys key (xs ++ ys) = keys key xs ++ keys key ys :=
  List.filterMap_append

omit [LinearOrder κ] in
/-- The first key, and the stream around it. -/
theorem exists_split_of_head_keys {xs : List β} {k : κ} (h : (keys key xs).head? = some k) :
    ∃ pre x post, xs = pre ++ x :: post ∧ keys key pre = [] ∧ key x = some k := by
  obtain ⟨rest, hkeys⟩ := List.head?_eq_some_iff.1 h
  obtain ⟨pre, x, post, hsplit, hpre, hx, -⟩ := List.filterMap_eq_cons_iff.1 hkeys
  exact ⟨pre, x, post, hsplit, List.filterMap_eq_nil_iff.2 hpre, hx⟩

theorem mark_eq_foldl_max (u : κ) (xs : List β) : mark key u xs = (keys key xs).foldl max u := by
  induction xs generalizing u with
  | nil => rfl
  | cons x xs ih =>
      show mark key (raise key u x) xs = _
      rw [ih]
      unfold raise keys
      cases h : key x with
      | none => rw [List.filterMap_cons_none h]
      | some k => rw [List.filterMap_cons_some h, List.foldl_cons]

theorem mark_lt_iff {u k : κ} {xs : List β} :
    mark key u xs < k ↔ u < k ∧ ∀ j ∈ keys key xs, j < k := by
  rw [mark_eq_foldl_max]
  induction keys key xs generalizing u with
  | nil => simp
  | cons j js ih =>
      rw [List.foldl_cons, ih, max_lt_iff, List.forall_mem_cons, and_assoc]

theorem le_mark (u : κ) (xs : List β) : u ≤ mark key u xs := by
  by_contra hlt
  exact lt_irrefl u ((mark_lt_iff key).1 (not_le.1 hlt)).1

theorem mark_le_mark_of_subset {u : κ} {xs ys : List β} (h : keys key xs ⊆ keys key ys) :
    mark key u xs ≤ mark key u ys := by
  by_contra hlt
  obtain ⟨hu, hys⟩ := (mark_lt_iff key).1 (not_le.1 hlt)
  exact lt_irrefl _ ((mark_lt_iff key).2 ⟨hu, fun j hj => hys j (h hj)⟩)

/-- Keys that are not above the mark when they come may be left out. -/
theorem mark_eq_mark_of_not_record {key' : β → Option κ} {u : κ} {xs : List β}
    (hkey : ∀ x k, key' x = some k → key x = some k)
    (hout : Execution.AtEach
      (fun pre x => key' x = none → ∀ k, key x = some k → ¬ mark key u pre < k) xs) :
    mark key u xs = mark key' u xs := by
  induction xs using List.reverseRecOn with
  | nil => rfl
  | append_singleton xs x ih =>
      obtain ⟨hbefore, hlast⟩ := Execution.atEach_concat.1 hout
      rw [mark_concat, mark_concat, ← ih hbefore]
      cases hx : key' x with
      | some k => rw [raise, raise, hx, hkey x k hx]
      | none =>
          rw [raise, raise, hx]
          cases hk : key x with
          | none => rfl
          | some k => exact max_eq_left (not_lt.1 (hlast hx k hk))

/-! ## Records -/

/-- The keys that are above the mark when they come. -/
def records (u : κ) : List β → List κ
  | [] => []
  | x :: xs => (key x).toList.filter (u < ·) ++ records (raise key u x) xs

theorem records_concat (u : κ) (xs : List β) (x : β) :
    records key u (xs ++ [x])
      = records key u xs ++ (key x).toList.filter (mark key u xs < ·) := by
  induction xs generalizing u with
  | nil => exact List.append_nil _
  | cons y xs ih =>
      rw [List.cons_append, records, records, ih, List.append_assoc]
      rfl

theorem records_map {α : Type*} (f : α → β) (u : κ) (xs : List α) :
    records key u (xs.map f) = records (fun a => key (f a)) u xs := by
  induction xs generalizing u with
  | nil => rfl
  | cons a xs ih =>
      rw [List.map_cons, records, records, ih]
      rfl

theorem records_filterMap {α : Type*} (f : α → Option β) (u : κ) (xs : List α) :
    records key u (xs.filterMap f) = records (fun a => (f a).bind key) u xs := by
  induction xs generalizing u with
  | nil => rfl
  | cons a xs ih =>
      rw [records]
      cases hf : f a with
      | none =>
          rw [List.filterMap_cons_none hf, ih]
          simp [raise, hf]
      | some b =>
          rw [List.filterMap_cons_some hf, records, ih]
          simp [raise, hf]

/-! ## Merging copies of one sequence -/

section Merge

variable {ι : Type*} [DecidableEq ι] (sent : β → Option (ι × κ))

/-- The key an element carries, whoever sent it. -/
def sentKey (x : β) : Option κ := (sent x).map Prod.snd

/-- The keys sent by `p`, in order. -/
def sentBy (p : ι) (xs : List β) : List κ :=
  keys (fun x => (sent x).bind fun m => if m.1 = p then some m.2 else none) xs

/-- `whole` is the longest of the `parts`: it extends each of them, and it is one of them unless it
    is empty. -/
structure IsLongest {ι κ : Type*} (parts : ι → List κ) (whole : List κ) : Prop where
  extends_all : ∀ p, parts p <+: whole
  attained : whole = [] ∨ ∃ p, whole = parts p

variable {sent} {p q : ι} {k : κ} {x : β}

omit [LinearOrder κ] in
theorem sentBy_concat_none (h : sent x = none) (xs : List β) :
    sentBy sent p (xs ++ [x]) = sentBy sent p xs :=
  keys_concat_none _ xs (by rw [h, Option.bind_none])

omit [LinearOrder κ] in
theorem sentBy_concat_self (h : sent x = some (p, k)) (xs : List β) :
    sentBy sent p (xs ++ [x]) = sentBy sent p xs ++ [k] :=
  keys_concat_some _ xs (by rw [h, Option.bind_some, if_pos rfl])

omit [LinearOrder κ] in
theorem sentBy_concat_other (h : sent x = some (q, k)) (hne : q ≠ p) (xs : List β) :
    sentBy sent p (xs ++ [x]) = sentBy sent p xs :=
  keys_concat_none _ xs (by rw [h, Option.bind_some, if_neg hne])

omit [LinearOrder κ] in
theorem sentBy_prefix_concat (p : ι) (xs : List β) (x : β) :
    sentBy sent p xs <+: sentBy sent p (xs ++ [x]) := by
  unfold sentBy keys
  rw [List.filterMap_append]
  exact List.prefix_append _ _

omit [LinearOrder κ] in
/-- Every key was sent by somebody. -/
theorem exists_mem_sentBy {xs : List β} (h : k ∈ keys (sentKey sent) xs) :
    ∃ p, k ∈ sentBy sent p xs := by
  obtain ⟨x, hx, hkey⟩ := List.mem_filterMap.1 h
  obtain ⟨⟨p, _⟩, hsent, rfl⟩ := Option.map_eq_some_iff.1 hkey
  exact ⟨p, List.mem_filterMap.2 ⟨x, hx, by rw [hsent, Option.bind_some, if_pos rfl]⟩⟩

theorem lt_of_concat_isPrefix {S l : List κ} (hS : S.Pairwise (· < ·)) (h : l ++ [k] <+: S) :
    ∀ j ∈ l, j < k := by
  intro j hj
  have hpair := hS.sublist h.sublist
  exact (List.pairwise_append.1 hpair).2.2 j hj k (List.mem_singleton_self k)

omit [LinearOrder κ] [DecidableEq ι] in
theorem IsLongest.prefix_of {parts : ι → List κ} {whole S : List κ} (h : IsLongest parts whole)
    (hS : ∀ p, parts p <+: S) : whole <+: S := by
  rcases h.attained with rfl | ⟨p, hp⟩
  · exact List.nil_prefix
  · exact hp ▸ hS p

omit [LinearOrder κ] in
theorem sentBy_subset_keys (p : ι) (xs : List β) : sentBy sent p xs ⊆ keys (sentKey sent) xs := by
  intro k hk
  obtain ⟨x, hx, hkey⟩ := List.mem_filterMap.1 hk
  obtain ⟨m, hsent, hm⟩ := Option.bind_eq_some_iff.1 hkey
  split at hm
  · exact List.mem_filterMap.2 ⟨x, hx, by rw [sentKey, hsent, Option.map_some, hm]⟩
  · exact absurd hm (by simp)

/-- The mark is at the end of what has been put together. -/
theorem IsLongest.mark_lt_iff {u : κ} {xs : List β} {whole : List κ}
    (h : IsLongest (sentBy sent · xs) whole) :
    mark (sentKey sent) u xs < k ↔ u < k ∧ ∀ j ∈ whole, j < k := by
  rw [HighWater.mark_lt_iff]
  refine and_congr_right fun _ => ⟨fun hkeys j hj => ?_, fun hwhole j hj => ?_⟩
  · rcases h.attained with rfl | ⟨p, rfl⟩
    · exact absurd hj List.not_mem_nil
    · exact hkeys j (sentBy_subset_keys p xs hj)
  · obtain ⟨p, hp⟩ := exists_mem_sentBy hj
    exact hwhole j ((h.extends_all p).subset hp)

omit [LinearOrder κ] [DecidableEq ι] in
/-- The next element of one part: either it is the next one of the whole, or the whole has it. -/
theorem eq_or_concat_isPrefix {S whole part : List κ} (hwhole : whole <+: S)
    (hpart : part <+: whole) (hnext : part ++ [k] <+: S) :
    part = whole ∨ part ++ [k] <+: whole := by
  rcases hpart.length_le.eq_or_lt with hlen | hlen
  · exact Or.inl (hpart.eq_of_length hlen)
  · refine Or.inr (List.prefix_of_prefix_length_le hnext hwhole ?_)
    rw [List.length_append, List.length_singleton]
    exact hlen

/-- One more element keeps the records the longest of the parts. -/
theorem IsLongest.concat {S : List κ} (hS : S.Pairwise (· < ·)) {u : κ} (hu : ∀ j ∈ S, u < j)
    {xs : List β} {whole : List κ} (h : IsLongest (sentBy sent · xs) whole) (hwhole : whole <+: S)
    (hx : sent x = some (p, k)) (hnext : sentBy sent p xs ++ [k] <+: S) :
    IsLongest (sentBy sent · (xs ++ [x]))
      (whole ++ [k].filter (mark (sentKey sent) u xs < ·)) := by
  have hother : ∀ q, q ≠ p → sentBy sent q (xs ++ [x]) = sentBy sent q xs :=
    fun q hq => sentBy_concat_other hx (Ne.symm hq) xs
  have hself : sentBy sent p (xs ++ [x]) = sentBy sent p xs ++ [k] := sentBy_concat_self hx xs
  by_cases hlead : sentBy sent p xs = whole
  · -- the sender was in the lead, so its next key is above everything so far
    have hlt : mark (sentKey sent) u xs < k :=
      h.mark_lt_iff.2 ⟨hu k (hnext.subset (by simp)), lt_of_concat_isPrefix hS (hlead ▸ hnext)⟩
    rw [List.filter_singleton, decide_eq_true hlt, cond_true]
    rw [hlead] at hself
    refine ⟨fun q => ?_, Or.inr ⟨p, hself.symm⟩⟩
    by_cases hq : q = p
    · exact hq ▸ hself ▸ List.prefix_rfl
    · rw [hother q hq]
      exact (h.extends_all q).trans (List.prefix_append _ _)
  · -- the sender was behind: another one has sent the key before
    have hbehind : sentBy sent p xs ++ [k] <+: whole :=
      (eq_or_concat_isPrefix hwhole (h.extends_all p) hnext).resolve_left hlead
    have hnot : ¬ mark (sentKey sent) u xs < k :=
      fun hlt => lt_irrefl k ((h.mark_lt_iff.1 hlt).2 k (hbehind.subset (by simp)))
    rw [List.filter_singleton, decide_eq_false hnot, cond_false, List.append_nil]
    refine ⟨fun q => ?_, h.attained.imp_right fun ⟨q, hq⟩ => ⟨q, ?_⟩⟩
    · by_cases hq : q = p
      · rw [hq, hself]
        exact hbehind
      · rw [hother q hq]
        exact h.extends_all q
    · have hne : q ≠ p := by
        rintro rfl
        exact hlead hq.symm
      rw [hother q hne]
      exact hq

/-- **Merging copies of one sequence.** Let every sender send a prefix of an increasing sequence `S`
    that starts above the mark. Whatever the interleaving, the records are the longest of these
    prefixes. -/
theorem records_isLongest {S : List κ} (hS : S.Pairwise (· < ·)) {u : κ} (hu : ∀ k ∈ S, u < k)
    (xs : List β) (hsent : ∀ p, sentBy sent p xs <+: S) :
    IsLongest (sentBy sent · xs) (records (sentKey sent) u xs) := by
  induction xs using List.reverseRecOn with
  | nil => exact ⟨fun p => List.prefix_rfl, Or.inl rfl⟩
  | append_singleton xs x ih =>
      have hbefore : ∀ p, sentBy sent p xs <+: S :=
        fun p => (sentBy_prefix_concat p xs x).trans (hsent p)
      have hlongest := ih hbefore
      rw [records_concat, sentKey]
      cases hx : sent x with
      | none =>
          simpa only [sentBy_concat_none hx, Option.map_none, Option.toList_none, List.filter_nil,
            List.append_nil] using hlongest
      | some m =>
          obtain ⟨p, k⟩ := m
          rw [Option.map_some, Option.toList_some]
          exact hlongest.concat hS hu (hlongest.prefix_of hbefore) hx
            (sentBy_concat_self hx xs ▸ hsent p)

end Merge

end HighWater
