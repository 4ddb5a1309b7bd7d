import Mathlib.Data.List.Infix

/-!
# Cutting a list at a separator

`cut sep s` are the pieces of `s` between the leftmost non-overlapping occurrences of `sep`, empty pieces included: from
left to right, an occurrence of the separator ends a piece, and the search goes on behind it.

A piece that the separator does not start in is taken off as a whole (`cut_append`, `cut_step`, `cut_at`), and what the
separator does not occur in stays one piece (`cut_whole`).  The pieces with the separators in between are the list again
(`intercalate_cut`).
-/

namespace Cutting

variable {α : Type} {sep s p : List α} {a : α} {n : Nat}

/-- The separator does not begin at the first `n` positions of the list. -/
def Free (sep s : List α) (n : Nat) : Prop := ∀ i, i < n → ¬ sep <+: s.drop i

theorem Free.zero : Free sep s 0 := fun i hi => absurd hi (Nat.not_lt_zero i)

theorem Free.succ (h : Free sep s n) (hn : ¬ sep <+: s.drop n) : Free sep s (n + 1) := by
  intro i hi
  rcases Nat.lt_succ_iff_lt_or_eq.1 hi with hlt | rfl
  · exact h i hlt
  · exact hn

/-- Near the end of the list there is no place for the separator. -/
theorem Free.whole (h : Free sep s n) (hshort : s.length < n + sep.length) : Free sep s s.length := by
  intro i hi hpre
  by_cases hin : i < n
  · exact h i hin hpre
  · have hle := hpre.length_le
    rw [List.length_drop] at hle
    omega

variable [DecidableEq α]

/-- Skip elements of the list and cut the rest. -/
def cutAfter (sep : List α) : Nat → List α → List (List α)
  | _, [] => [[]]
  | k + 1, _ :: s => cutAfter sep k s
  | 0, a :: s =>
    if sep <+: a :: s then [] :: cutAfter sep (sep.length - 1) s else (cutAfter sep 0 s).modifyHead (List.cons a)

/-- The pieces of the list. -/
def cut (sep s : List α) : List (List α) := cutAfter sep 0 s

theorem cutAfter_eq (sep : List α) (k : Nat) (s : List α) : cutAfter sep k s = cut sep (s.drop k) := by
  induction k generalizing s with
  | zero => rfl
  | succ k ih =>
    cases s with
    | nil => rfl
    | cons a s => exact ih s

theorem cut_ne_nil (sep s : List α) : cut sep s ≠ [] := by
  unfold cut
  induction s with
  | nil => exact List.cons_ne_nil _ _
  | cons a s ih =>
    unfold cutAfter
    split
    · exact List.cons_ne_nil _ _
    · obtain ⟨p, ps, hps⟩ := List.exists_cons_of_ne_nil ih
      rw [hps]
      exact List.cons_ne_nil _ _

private theorem cut_cons (h : ¬ sep <+: a :: s) : cut sep (a :: s) = (cut sep s).modifyHead (List.cons a) := if_neg h

theorem cut_sep (hsep : sep ≠ []) (s : List α) : cut sep (sep ++ s) = [] :: cut sep s := by
  obtain ⟨b, bs, rfl⟩ := List.exists_cons_of_ne_nil hsep
  have hcut : cut (b :: bs) (b :: bs ++ s) = [] :: cutAfter (b :: bs) bs.length (bs ++ s) :=
    if_pos (List.prefix_append _ _)
  rw [hcut, cutAfter_eq, List.drop_left]

/-- What the separator does not begin in belongs to the first piece. -/
theorem cut_append (h : Free sep (p ++ s) p.length) : cut sep (p ++ s) = (cut sep s).modifyHead (p ++ ·) := by
  induction p with
  | nil =>
    obtain ⟨q, qs, hqs⟩ := List.exists_cons_of_ne_nil (cut_ne_nil sep s)
    rw [List.nil_append, hqs]
    rfl
  | cons a p ih =>
    have hrest : Free sep (p ++ s) p.length := by
      intro i hi
      exact h (i + 1) (by rw [List.length_cons]; omega)
    have hhead : ¬ sep <+: a :: (p ++ s) := h 0 (by rw [List.length_cons]; omega)
    rw [List.cons_append, cut_cons hhead, ih hrest, List.modifyHead_modifyHead]
    rfl

/-- A piece, and the separator behind it. -/
theorem cut_step (hsep : sep ≠ []) (h : Free sep (p ++ (sep ++ s)) p.length) :
    cut sep (p ++ (sep ++ s)) = p :: cut sep s := by
  rw [cut_append h, cut_sep hsep, List.modifyHead_cons, List.append_nil]

/-- The same, when the separator is found at a position of the list. -/
theorem cut_at (hsep : sep ≠ []) (hn : n ≤ s.length) (h : Free sep s n) (hpre : sep <+: s.drop n) :
    cut sep s = s.take n :: cut sep (s.drop (n + sep.length)) := by
  obtain ⟨rest, hrest⟩ := hpre
  have hsplit : s = s.take n ++ (sep ++ rest) := by rw [hrest, List.take_append_drop]
  have hafter : s.drop (n + sep.length) = rest := by rw [← List.drop_drop, ← hrest, List.drop_left]
  have hlen : (s.take n).length = n := List.length_take_of_le hn
  have hstep : cut sep (s.take n ++ (sep ++ rest)) = s.take n :: cut sep rest := cut_step hsep (by
    rw [← hsplit, hlen]
    exact h)
  rwa [← hsplit, ← hafter] at hstep

/-- A list in which the separator does not begin is one piece. -/
theorem cut_whole (h : Free sep s s.length) : cut sep s = [s] := by
  have hcut : cut sep (s ++ []) = _ := cut_append (by rwa [List.append_nil])
  rw [List.append_nil] at hcut
  rw [hcut, show cut sep ([] : List α) = [[]] from rfl, List.modifyHead_cons, List.append_nil]

theorem intercalate_cut (hsep : sep ≠ []) (s : List α) : sep.intercalate (cut sep s) = s := by
  have hhead : ∀ (a : α) (ps : List (List α)), ps ≠ [] →
      sep.intercalate (ps.modifyHead (List.cons a)) = a :: sep.intercalate ps := by
    intro a ps hps
    obtain ⟨q, qs, rfl⟩ := List.exists_cons_of_ne_nil hps
    cases qs with
    | nil => simp
    | cons q' qs => simp
  induction hlen : s.length using Nat.strongRecOn generalizing s with
  | _ n ih =>
    subst hlen
    by_cases hpre : sep <+: s
    · obtain ⟨t, rfl⟩ := hpre
      have hlt : t.length < (sep ++ t).length := by
        have := List.length_pos_iff.2 hsep
        rw [List.length_append]
        omega
      have hrest := ih t.length hlt t rfl
      have hne := cut_ne_nil sep t
      rw [cut_sep hsep]
      rw [List.intercalate_cons_of_ne_nil hne, hrest, List.nil_append]
    · cases s with
      | nil => rfl
      | cons a s =>
        rw [cut_cons hpre, hhead a _ (cut_ne_nil sep s), ih s.length (by simp) s rfl]

/-- What is in a piece is in the list. -/
theorem mem_of_mem_cut (hsep : sep ≠ []) (hp : p ∈ cut sep s) (ha : a ∈ p) : a ∈ s := by
  have hpieces : ∀ ps : List (List α), p ∈ ps → a ∈ sep.intercalate ps := by
    intro ps hmem
    induction ps with
    | nil => cases hmem
    | cons q qs ih =>
      by_cases hqs : qs = []
      · subst hqs
        rw [List.intercalate_singleton, ← List.mem_singleton.1 hmem]
        exact ha
      · rw [List.intercalate_cons_of_ne_nil hqs]
        rcases List.mem_cons.1 hmem with rfl | hmem
        · exact List.mem_append_left _ (List.mem_append_left _ ha)
        · exact List.mem_append_right _ (ih hmem)
  have hmem := hpieces (cut sep s) hp
  rwa [intercalate_cut hsep] at hmem

/-- The pieces together are not longer than the list. -/
theorem length_flatten_cut (hsep : sep ≠ []) (s : List α) : (cut sep s).flatten.length ≤ s.length := by
  have hpieces : ∀ ps : List (List α), ps.flatten.length ≤ (sep.intercalate ps).length := by
    intro ps
    induction ps with
    | nil => exact Nat.zero_le _
    | cons q qs ih =>
      by_cases hqs : qs = []
      · simp [hqs]
      · rw [List.intercalate_cons_of_ne_nil hqs, List.flatten_cons, List.length_append, List.length_append,
          List.length_append]
        omega
  have hle := hpieces (cut sep s)
  rwa [intercalate_cut hsep] at hle

/-- A list without the first element of the separator is one piece. -/
theorem cut_of_not_mem {b : α} {bs : List α} (h : b ∉ s) : cut (b :: bs) s = [s] := by
  refine cut_whole fun i _ hpre => h ?_
  exact List.mem_of_mem_drop (hpre.subset List.mem_cons_self)

end Cutting
