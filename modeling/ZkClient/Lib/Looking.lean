import Mathlib.Data.Int.Notation
import Mathlib.Data.List.GetD
import Mathlib.Tactic.ByContra

/-!
# Looking at an array

A function reads an array of characters through indices that it computes, as a C function reads a string.  `Look β` is
what it finds together with the indices at which it has looked, in their order; `look` looks at one index, and behind
the end of the array it finds the terminator `nul`.  `scan`, `compare` and `copy` are the loops of such functions, and
`select` goes through a list with a test that looks.

`Look.Within P` says that every index has `P`.  It is proved along the function: `Within.bind` is the rule for a
sequence, and `within_scan` the one for a loop, by an invariant of its index.
-/

namespace Looking

/-- A value and the indices that have been looked at for it. -/
structure Look (β : Type) where
  val : β
  indices : List Int

instance : Monad Look where
  pure a := ⟨a, []⟩
  bind x f := ⟨(f x.val).val, x.indices ++ (f x.val).indices⟩

variable {α β γ : Type}

namespace Look

@[simp] theorem val_pure (a : β) : (pure a : Look β).val = a := rfl

@[simp] theorem val_bind (x : Look β) (f : β → Look γ) : (x >>= f).val = (f x.val).val := rfl

theorem val_ite (p : Prop) [Decidable p] (x y : Look β) : (if p then x else y).val = if p then x.val else y.val :=
  apply_ite _ _ _ _

/-- What is found through a pointer to the index `d`. -/
def shift (d : Int) (x : Look β) : Look β := ⟨x.val, x.indices.map (d + ·)⟩

@[simp] theorem val_shift (d : Int) (x : Look β) : (x.shift d).val = x.val := rfl

/-- All the indices have `P`. -/
def Within (P : Int → Prop) (x : Look β) : Prop := ∀ k ∈ x.indices, P k

section Within

variable {P Q : Int → Prop} {x : Look β}

theorem Within.imp (h : x.Within P) (hP : ∀ k, P k → Q k) : x.Within Q := fun k hk => hP k (h k hk)

theorem Within.pure (a : β) : (pure a : Look β).Within P := fun k hk => by cases hk

theorem Within.bind {f : β → Look γ} (h : x.Within P) (hf : (f x.val).Within P) : (x >>= f).Within P := by
  intro k hk
  rcases List.mem_append.1 hk with hk | hk
  · exact h k hk
  · exact hf k hk

theorem Within.shift {d : Int} (h : x.Within fun k => P (d + k)) : (x.shift d).Within P := by
  intro k hk
  obtain ⟨j, hj, rfl⟩ := List.mem_map.1 hk
  exact h j hj

end Within

end Look

open Look

variable (nul : α) (xs : List α)

/-- `xs[i]`. -/
def look (i : Int) : Look α := ⟨xs.getD i.toNat nul, [i]⟩

/-- The loop `while (inside(i) && !stop(xs[i])) i += step`, for `n` rounds at most. -/
def scan (step : Int) (inside : Int → Bool) (stop : α → Bool) : Nat → Int → Look Int
  | 0, i => pure i
  | n + 1, i =>
    if inside i then do
      if stop (← look nul xs i) then return i else scan step inside stop n (i + step)
    else return i

/-- `strncmp(xs + i, ys, n) == 0`, as it looks at `xs`. -/
def compare [DecidableEq α] (ys : List α) : Nat → Int → Look Bool
  | 0, _ => pure true
  | n + 1, i => do
    let c ← look nul xs i
    if c = ys.headD nul ∧ c ≠ nul then compare ys.tail n (i + 1) else return c = ys.headD nul

/-- `memcpy` of `n` characters from `xs + i` on. -/
def copy : Nat → Int → Look (List α)
  | 0, _ => pure []
  | n + 1, i => do
    let c ← look nul xs i
    let rest ← copy n (i + 1)
    return c :: rest

/-- The elements of a list that pass a test. -/
def select (test : β → Look Bool) : List β → Look (List β)
  | [] => pure []
  | b :: bs => do
    let passed ← test b
    let rest ← select test bs
    return if passed then b :: rest else rest

variable {nul xs} {P : Int → Prop} {step : Int} {inside : Int → Bool} {stop : α → Bool} {n : Nat} {i : Int}

theorem within_look (h : P i) : (look nul xs i).Within P := by
  intro k hk
  obtain rfl := List.mem_singleton.1 hk
  exact h

/-- The rule for a loop, with the invariant `I` of its index. -/
theorem within_scan {I : Int → Prop} (h : I i)
    (hstep : ∀ k, I k → inside k = true → stop (xs.getD k.toNat nul) = false → I (k + step))
    (hP : ∀ k, I k → inside k = true → P k) : (scan nul xs step inside stop n i).Within P := by
  induction n generalizing i with
  | zero => exact .pure _
  | succ n ih =>
    unfold scan
    by_cases hin : inside i = true
    · rw [if_pos hin]
      refine .bind (within_look (hP i h hin)) ?_
      by_cases hstop : stop (xs.getD i.toNat nul) = true
      · exact (congrArg (Look.Within P) (if_pos hstop)).mpr (.pure _)
      · exact (congrArg (Look.Within P) (if_neg hstop)).mpr (ih (hstep i h hin (by simpa using hstop)))
    · rw [if_neg hin]
      exact .pure _

/-- A scan forward through the array stops at the first character that it looks for, or at the end. -/
theorem val_scan_forward (hin : ∀ k : Nat, k < xs.length → inside k = true)
    (hend : inside xs.length = true → stop nul = true) {i : Nat} (hi : i ≤ xs.length) (hn : xs.length < i + n) :
    (scan nul xs 1 inside stop n i).val = (i + ((xs.drop i).takeWhile fun c => ¬ stop c).length : Nat) := by
  induction n generalizing i with
  | zero => omega
  | succ n ih =>
    unfold scan
    rcases Nat.lt_or_eq_of_le hi with hlt | rfl
    · have hdrop : xs.drop i = xs[i] :: xs.drop (i + 1) := List.drop_eq_getElem_cons hlt
      have hlook : xs.getD (i : Int).toNat nul = xs[i] := List.getD_eq_getElem _ _ hlt
      rw [if_pos (hin i hlt), val_bind]
      show (if stop (xs.getD (i : Int).toNat nul) = true then pure (i : Int) else _ : Look Int).val = _
      rw [hlook, hdrop, List.takeWhile_cons, val_ite]
      by_cases hstop : stop xs[i] = true
      · simp [hstop]
      · have hrest := ih (i := i + 1) hlt (by omega)
        rw [if_neg hstop, if_pos (by simpa using hstop), List.length_cons]
        rw [Int.natCast_add, Int.natCast_one] at hrest
        rw [hrest]
        congr 1
        omega
    · rw [List.drop_length, List.takeWhile_nil, List.length_nil, Nat.add_zero]
      by_cases hlast : inside xs.length = true
      · rw [if_pos hlast, val_bind]
        show (if stop (xs.getD (xs.length : Int).toNat nul) = true then pure (xs.length : Int)
          else _ : Look Int).val = _
        rw [Int.toNat_natCast, List.getD_eq_default _ _ (Nat.le_refl _), if_pos (hend hlast)]
        rfl
      · rw [if_neg hlast]
        rfl

/-- A scan forward stays in the array with its terminator. -/
theorem within_scan_forward (hend : inside xs.length = true → stop nul = true) (h : 0 ≤ i ∧ i ≤ xs.length) :
    (scan nul xs 1 inside stop n i).Within fun k => i ≤ k ∧ k ≤ xs.length ∧ inside k = true := by
  refine within_scan (I := fun k => i ≤ k ∧ k ≤ xs.length) ⟨Int.le_refl _, h.2⟩ ?_ ?_
  · intro k hk hin hstop
    by_contra hout
    obtain rfl : k = xs.length := by omega
    rw [Int.toNat_natCast, List.getD_eq_default _ _ (Nat.le_refl _), hend hin] at hstop
    cases hstop
  · exact fun k hk hin => ⟨hk.1, hk.2, hin⟩

theorem within_scan_back : (scan nul xs (-1) inside stop n i).Within fun k => k ≤ i ∧ inside k = true :=
  within_scan (I := (· ≤ i)) (Int.le_refl _) (fun k hk _ _ => by omega) fun k hk hin => ⟨hk, hin⟩

theorem within_compare [DecidableEq α] {ys : List α} :
    (compare nul xs ys n i).Within fun k => i ≤ k ∧ k < i + n := by
  induction n generalizing ys i with
  | zero => exact .pure _
  | succ n ih =>
    unfold compare
    refine .bind (within_look (by omega)) ?_
    split
    · exact ih.imp fun k hk => by omega
    · exact .pure _

theorem within_copy : (copy nul xs n i).Within fun k => i ≤ k ∧ k < i + n := by
  induction n generalizing i with
  | zero => exact .pure _
  | succ n ih => exact .bind (within_look (by omega)) (.bind (ih.imp fun k hk => by omega) (.pure _))

theorem val_copy {i : Nat} (h : i + n ≤ xs.length) : (copy nul xs n i).val = (xs.drop i).take n := by
  induction n generalizing i with
  | zero => rfl
  | succ n ih =>
    have hlt : i < xs.length := by omega
    have hrest := ih (i := i + 1) (by omega)
    rw [Int.natCast_add, Int.natCast_one] at hrest
    show xs.getD (i : Int).toNat nul :: (copy nul xs n (i + 1)).val = _
    rw [hrest, Int.toNat_natCast, List.getD_eq_getElem _ _ hlt, List.drop_eq_getElem_cons hlt, List.take_succ_cons]

theorem within_select {test : β → Look Bool} {bs : List β} (h : ∀ b ∈ bs, (test b).Within P) :
    (select test bs).Within P := by
  induction bs with
  | nil => exact .pure _
  | cons b bs ih =>
    rw [List.forall_mem_cons] at h
    exact .bind h.1 (.bind (ih h.2) (.pure _))

theorem val_select (test : β → Look Bool) (bs : List β) : (select test bs).val = bs.filter fun b => (test b).val := by
  induction bs with
  | nil => rfl
  | cons b bs ih =>
    show (if (test b).val then b :: (select test bs).val else (select test bs).val) = _
    rw [ih, List.filter_cons]

end Looking
