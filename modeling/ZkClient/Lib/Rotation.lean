import Mathlib.Data.List.Nodup
import Mathlib.Data.List.Range
import Mathlib.Data.Nat.ModEq

/-!
# Retrying around a list

A loop makes attempts at the positions of a cyclic list of length `n`, one after another from a given start, until one
succeeds or `k` of them have failed.  An attempt changes a state.

`visits` is what the loop does, position by position: `loop_eq` reads its result off the last visit.  The positions are
consecutive around the list (`visits_index`), so `n` attempts never come back to a position (`nodup_visits`) and, when
all of them fail, have been everywhere (`visits_complete`).
-/

namespace Rotation

/-- One attempt: the position, the states before and after it, and whether it has succeeded. -/
structure Visit (σ : Type) where
  index : Nat
  before : σ
  done : Bool
  after : σ

variable {σ : Type} (n : Nat) (attempt : Nat → σ → Bool × σ)

/-- At most `k` attempts from the position `start` on; whether one has succeeded, and the state then. -/
def loop : Nat → Nat → σ → Bool × σ
  | 0, _, s => (false, s)
  | k + 1, start, s =>
    let r := attempt (start % n) s
    if r.1 then (true, r.2) else loop k (start + 1) r.2

/-- The attempts of the loop. -/
def visits : Nat → Nat → σ → List (Visit σ)
  | 0, _, _ => []
  | k + 1, start, s =>
    let r := attempt (start % n) s
    { index := start % n, before := s, done := r.1, after := r.2 } :: if r.1 then [] else visits k (start + 1) r.2

/-- The positions that `k` attempts come to. -/
def positions (k start : Nat) : List Nat := (List.range k).map fun j => (start + j) % n

variable {n attempt} {k start : Nat} {s : σ}

private theorem positions_succ : positions n (k + 1) start = start % n :: positions n k (start + 1) := by
  simp only [positions, List.range_succ_eq_map, List.map_cons, List.map_map, Nat.add_zero]
  congr 1
  apply List.map_congr_left
  intro j _
  show (start + (j + 1)) % n = (start + 1 + j) % n
  congr 1
  omega

theorem length_positions : (positions n k start).length = k := by simp [positions]

/-- The positions are different while there are not more of them than the list has. -/
theorem nodup_positions (hk : k ≤ n) : (positions n k start).Nodup := by
  refine List.Nodup.map_on (fun i hi j hj h => ?_) List.nodup_range
  rw [List.mem_range] at hi hj
  have hmod : i % n = j % n := Nat.ModEq.add_left_cancel' start h
  rwa [Nat.mod_eq_of_lt (by omega), Nat.mod_eq_of_lt (by omega)] at hmod

/-- All positions of the list are among them when there are as many. -/
theorem mem_positions {i : Nat} (hi : i < n) : i ∈ positions n n start := by
  refine List.mem_map.2 ⟨(i + (n - start % n)) % n, List.mem_range.2 (Nat.mod_lt _ (by omega)), ?_⟩
  have hstart := Nat.div_add_mod start n
  have hlt := Nat.mod_lt start (show 0 < n by omega)
  have hround : start + (i + (n - start % n)) = i + n * (start / n + 1) := by
    rw [Nat.mul_add, Nat.mul_one]
    omega
  rw [Nat.add_mod_mod, hround, Nat.add_mul_mod_self_left, Nat.mod_eq_of_lt hi]

/-! ### The visits of a loop -/

/-- The visits that follow a first one. -/
private theorem visits_succ : visits n attempt (k + 1) start s =
    { index := start % n, before := s, done := (attempt (start % n) s).1, after := (attempt (start % n) s).2 } ::
      if (attempt (start % n) s).1 then [] else visits n attempt k (start + 1) (attempt (start % n) s).2 := rfl

/-- The result of the loop is that of its last visit. -/
theorem loop_eq : loop n attempt k start s =
    ((visits n attempt k start s).any Visit.done, (((visits n attempt k start s).getLast?).map Visit.after).getD s) := by
  induction k generalizing start s with
  | zero => rfl
  | succ k ih =>
    rw [visits_succ, loop]
    cases hdone : (attempt (start % n) s).1 with
    | true => simp
    | false =>
      simp only [Bool.false_eq_true, if_false, ih, List.any_cons, Bool.false_or, List.getLast?_cons, Option.map_some,
        Option.getD_some]
      cases (visits n attempt k (start + 1) (attempt (start % n) s).2).getLast? <;> rfl

/-- The loop goes around the list from its start. -/
theorem visits_index : (visits n attempt k start s).map Visit.index <+: positions n k start := by
  induction k generalizing start s with
  | zero => exact List.nil_prefix
  | succ k ih =>
    rw [visits_succ, positions_succ, List.map_cons]
    refine (List.prefix_cons_inj _).2 ?_
    split
    · exact List.nil_prefix
    · exact ih

theorem visits_index_lt (hn : 0 < n) {v : Visit σ} (hv : v ∈ visits n attempt k start s) : v.index < n := by
  obtain ⟨j, -, hj⟩ := List.mem_map.1 (visits_index.subset (List.mem_map_of_mem hv))
  rw [← hj]
  exact Nat.mod_lt _ hn

theorem nodup_visits (hk : k ≤ n) : ((visits n attempt k start s).map Visit.index).Nodup :=
  (nodup_positions hk).sublist visits_index.sublist

theorem visits_attempt {v : Visit σ} (hv : v ∈ visits n attempt k start s) :
    attempt v.index v.before = (v.done, v.after) := by
  induction k generalizing start s with
  | zero => cases hv
  | succ k ih =>
    rw [visits_succ] at hv
    rcases List.mem_cons.1 hv with rfl | hv
    · rfl
    · split at hv
      · cases hv
      · exact ih hv

/-- No visit before the last one succeeds. -/
theorem visits_dropLast {v : Visit σ} (hv : v ∈ (visits n attempt k start s).dropLast) : v.done = false := by
  induction k generalizing start s with
  | zero => cases hv
  | succ k ih =>
    rw [visits_succ] at hv
    cases hdone : (attempt (start % n) s).1 with
    | true =>
      rw [hdone] at hv
      cases hv
    | false =>
      rw [hdone, if_neg (by simp)] at hv
      cases hrest : visits n attempt k (start + 1) (attempt (start % n) s).2 with
      | nil =>
        rw [hrest] at hv
        cases hv
      | cons u us =>
        rw [hrest, List.dropLast_cons_of_ne_nil (by simp)] at hv
        rcases List.mem_cons.1 hv with rfl | hv
        · rfl
        · exact ih (hrest ▸ hv)

/-- A loop that succeeds does so with its last visit. -/
theorem exists_last (h : (visits n attempt k start s).any Visit.done = true) :
    ∃ v ∈ (visits n attempt k start s).getLast?, v ∈ visits n attempt k start s ∧ v.done = true := by
  obtain ⟨v, hv, hdone⟩ := List.any_eq_true.1 h
  have hne : visits n attempt k start s ≠ [] := List.ne_nil_of_mem hv
  refine ⟨_, List.getLast?_eq_some_getLast hne, List.getLast_mem hne, ?_⟩
  rw [← List.dropLast_append_getLast hne] at hv
  rcases List.mem_append.1 hv with hv | hv
  · rw [visits_dropLast hv] at hdone
    cases hdone
  · rw [← List.mem_singleton.1 hv, hdone]

/-- Every visit starts where the one before it has ended. -/
theorem visits_chain : (visits n attempt k start s).IsChain (fun u v => v.before = u.after) ∧
    ∀ v ∈ (visits n attempt k start s).head?, v.before = s := by
  induction k generalizing start s with
  | zero => exact ⟨.nil, by simp [visits]⟩
  | succ k ih =>
    rw [visits_succ]
    refine ⟨?_, by simp⟩
    split
    · exact .singleton _
    · obtain ⟨hchain, hhead⟩ := @ih (start + 1) (attempt (start % n) s).2
      exact List.isChain_cons.2 ⟨fun v hv => hhead v hv, hchain⟩

/-- When no visit succeeds, all attempts are made. -/
theorem length_visits (h : (visits n attempt k start s).any Visit.done = false) :
    (visits n attempt k start s).length = k := by
  induction k generalizing start s with
  | zero => rfl
  | succ k ih =>
    rw [visits_succ] at h ⊢
    rw [List.any_cons, Bool.or_eq_false_iff] at h
    obtain ⟨hdone, hrest⟩ := h
    simp only at hdone
    rw [hdone, if_neg (by simp)] at hrest
    rw [hdone, if_neg (by simp), List.length_cons, ih hrest]

/-- A failing visit is followed by one at the next position, while there are attempts left. -/
theorem visits_next {j : Nat} {v : Visit σ} (hv : (visits n attempt k start s)[j]? = some v) (hdone : v.done = false)
    (hj : j + 1 < k) : ∃ u, (visits n attempt k start s)[j + 1]? = some u ∧ u.index = (v.index + 1) % n ∧
      u.before = v.after := by
  induction k generalizing start s j with
  | zero => omega
  | succ k ih =>
    rw [visits_succ] at hv ⊢
    cases j with
    | zero =>
      obtain ⟨k, rfl⟩ : ∃ k', k = k' + 1 := ⟨k - 1, by omega⟩
      rw [List.getElem?_cons_zero, Option.some.injEq] at hv
      subst hv
      simp only at hdone
      rw [hdone, if_neg (by simp), visits_succ]
      exact ⟨_, rfl, (Nat.mod_add_mod start n 1).symm, rfl⟩
    | succ j =>
      rw [List.getElem?_cons_succ] at hv ⊢
      split at hv
      · cases hv
      · rename_i hfirst
        rw [if_neg hfirst]
        exact ih hv (by omega)

/-- When `n` attempts fail, the loop has been everywhere. -/
theorem visits_complete (h : (visits n attempt n start s).any Visit.done = false) {i : Nat} (hi : i < n) :
    ∃ v ∈ visits n attempt n start s, v.index = i := by
  have hlen : ((visits n attempt n start s).map Visit.index).length = (positions n n start).length := by
    rw [List.length_map, length_visits h, length_positions]
  have hall : (visits n attempt n start s).map Visit.index = positions n n start :=
    visits_index.eq_of_length hlen
  exact List.mem_map.1 (hall ▸ mem_positions hi)

/-- What the failing visits preserve holds before every visit. -/
theorem visits_inv {I : σ → Prop} (hs : I s)
    (hstep : ∀ v ∈ visits n attempt k start s, I v.before → v.done = false → I v.after) :
    ∀ v ∈ visits n attempt k start s, I v.before := by
  induction k generalizing start s with
  | zero => exact fun v hv => by cases hv
  | succ k ih =>
    rw [visits_succ] at hstep ⊢
    intro v hv
    rcases List.mem_cons.1 hv with rfl | hmem
    · exact hs
    · cases hdone : (attempt (start % n) s).1 with
      | true =>
        rw [hdone] at hmem
        cases hmem
      | false =>
        rw [hdone, if_neg (by simp)] at hmem hstep
        have hafter := hstep _ (List.mem_cons_self ..) hs rfl
        exact ih hafter (fun u hu => hstep u (List.mem_cons_of_mem _ hu)) v hmem

end Rotation
