import Mathlib.Algebra.BigOperators.Group.List.Basic
import Mathlib.Algebra.Order.Group.Int
import Mathlib.Data.List.Infix

/-!
# Loops that count outcomes

A loop takes outcomes one after another and adds up what they count, until the sum reaches a goal or an outcome stops
it.  The count of an outcome may be negative, so the sum can fall on the way.

`Going` says that the loop is not through after some outcomes, `Reaches` that it gets to the goal, and `Last` that an
outcome is the one with which it ends.  A sequence with a stopping outcome has a last one (`exists_last`), and what the
loop has taken before it is compared with any other position by `Last.compare`.
-/

namespace Tally

/-- What the outcomes count, and which of them stop the loop. -/
structure Loop (X : Type) where
  count : X → Int
  stops : X → Prop

/-- Two positions in a sequence, the second one not behind the first. -/
theorem split_compare {X : Type} {pre pre' post post' : List X} {x y : X} (heq : pre ++ x :: post = pre' ++ y :: post')
    (hle : post.length ≤ post'.length) : pre' ++ [y] <+: pre ∨ pre' = pre ∧ y = x ∧ post' = post := by
  rcases List.append_eq_append_iff.1 heq with ⟨as, rfl, has⟩ | ⟨as, rfl, has⟩
  · cases as with
    | nil =>
      rw [List.nil_append, List.cons.injEq] at has
      exact .inr ⟨List.append_nil _, has.1.symm, has.2.symm⟩
    | cons a as =>
      have hlen := congrArg List.length has
      simp only [List.length_cons, List.length_append] at hlen
      omega
  · cases as with
    | nil =>
      rw [List.nil_append, List.cons.injEq] at has
      exact .inr ⟨(List.append_nil _).symm, has.1, has.2⟩
    | cons a as =>
      rw [List.cons_append, List.cons.injEq] at has
      obtain ⟨rfl, -⟩ := has
      exact .inl ⟨as, by simp⟩

namespace Loop

variable {X : Type} (L : Loop X)

def total : List X → Int
  | [] => 0
  | x :: xs => L.count x + total xs

@[simp] theorem total_nil : L.total [] = 0 := rfl

@[simp] theorem total_cons (x : X) (xs : List X) : L.total (x :: xs) = L.count x + L.total xs := rfl

@[simp] theorem total_append (xs ys : List X) : L.total (xs ++ ys) = L.total xs + L.total ys := by
  induction xs with
  | nil => simp
  | cons x xs ih => rw [List.cons_append, total_cons, total_cons, ih, Int.add_assoc]

/-- After the outcomes `xs` the loop takes another one. -/
def Going (goal : Int) (xs : List X) : Prop := ∀ p, p <+: xs → L.total p < goal ∧ ∀ x ∈ p, ¬ L.stops x

/-- The loop gets to the goal. -/
def Reaches (goal : Int) (xs : List X) : Prop := ∃ p, p <+: xs ∧ goal ≤ L.total p ∧ ∀ x ∈ p, ¬ L.stops x

/-- After the outcomes `pre` the loop ends with `x`. -/
structure Last (goal : Int) (pre : List X) (x : X) : Prop where
  going : L.Going goal pre
  ends : L.stops x ∨ goal ≤ L.total (pre ++ [x])

variable {L} {goal : Int} {xs pre pre' post post' : List X} {x y : X}

theorem Going.of_prefix (h : L.Going goal xs) (hpre : pre <+: xs) : L.Going goal pre :=
  fun p hp => h p (hp.trans hpre)

theorem going_nil : L.Going goal [] ↔ 0 < goal := by
  constructor
  · intro h
    exact (h [] List.prefix_rfl).1
  · intro h p hp
    rw [List.prefix_nil.1 hp]
    exact ⟨h, by simp⟩

theorem going_cons : L.Going goal (x :: xs) ↔ 0 < goal ∧ ¬ L.stops x ∧ L.Going (goal - L.count x) xs := by
  constructor
  · intro h
    have hx : [x] <+: x :: xs := by simp
    refine ⟨(h [] (List.nil_prefix)).1, (h [x] hx).2 x (by simp), fun p hp => ?_⟩
    have hcons := h (x :: p) ((List.prefix_cons_inj x).2 hp)
    rw [total_cons] at hcons
    exact ⟨by omega, fun y hy => hcons.2 y (by simp [hy])⟩
  · rintro ⟨hgoal, hx, hxs⟩ p hp
    rcases List.prefix_cons_iff.1 hp with rfl | ⟨q, rfl, hq⟩
    · exact ⟨hgoal, by simp⟩
    · have h := hxs q hq
      rw [total_cons]
      refine ⟨by omega, fun y hy => ?_⟩
      rcases List.mem_cons.1 hy with rfl | hy
      · exact hx
      · exact h.2 y hy

/-- The sums on the way, from a first summand `r`. -/
theorem nonneg_cons {r : Int} : (∀ p, p <+: x :: xs → 0 ≤ r + L.total p) ↔
    0 ≤ r ∧ ∀ p, p <+: xs → 0 ≤ r + L.count x + L.total p := by
  constructor
  · intro h
    refine ⟨by simpa using h [] List.nil_prefix, fun p hp => ?_⟩
    have hcons := h (x :: p) ((List.prefix_cons_inj x).2 hp)
    rw [total_cons] at hcons
    omega
  · rintro ⟨hr, hxs⟩ p hp
    rcases List.prefix_cons_iff.1 hp with rfl | ⟨q, rfl, hq⟩
    · simpa using hr
    · have h := hxs q hq
      rw [total_cons]
      omega

theorem last_nil : L.Last goal [] x ↔ 0 < goal ∧ (L.stops x ∨ goal ≤ L.count x) := by
  constructor
  · intro h
    exact ⟨going_nil.1 h.going, by simpa using h.ends⟩
  · intro h
    exact ⟨going_nil.2 h.1, by simpa using h.2⟩

theorem last_cons : L.Last goal (y :: pre) x ↔ 0 < goal ∧ ¬ L.stops y ∧ L.Last (goal - L.count y) pre x := by
  have hends : goal ≤ L.total (y :: pre ++ [x]) ↔ goal - L.count y ≤ L.total (pre ++ [x]) := by
    rw [List.cons_append, total_cons]
    omega
  constructor
  · intro h
    obtain ⟨hgoal, hy, hpre⟩ := going_cons.1 h.going
    exact ⟨hgoal, hy, hpre, h.ends.imp id hends.1⟩
  · rintro ⟨hgoal, hy, h⟩
    exact ⟨going_cons.2 ⟨hgoal, hy, h.going⟩, h.ends.imp id hends.2⟩

/-- A sequence with an outcome that stops the loop has a last outcome. -/
theorem exists_last (hgoal : 0 < goal) (h : ∃ x ∈ xs, L.stops x) :
    ∃ pre x post, xs = pre ++ x :: post ∧ L.Last goal pre x := by
  induction xs generalizing goal with
  | nil =>
    obtain ⟨x, hx, -⟩ := h
    cases hx
  | cons y ys ih =>
    by_cases hy : L.stops y ∨ goal ≤ L.count y
    · exact ⟨[], y, ys, rfl, last_nil.2 ⟨hgoal, hy⟩⟩
    · rw [not_or] at hy
      obtain ⟨x, hx, hstops⟩ := h
      have hx : x ∈ ys := by
        rcases List.mem_cons.1 hx with rfl | hx
        · exact absurd hstops hy.1
        · exact hx
      obtain ⟨pre, x, post, rfl, hlast⟩ := ih (show 0 < goal - L.count y by omega) ⟨x, hx, hstops⟩
      exact ⟨y :: pre, x, post, rfl, last_cons.2 ⟨hgoal, hy.1, hlast⟩⟩

/-- A position that the loop gets to is before its last outcome or is the last one. -/
theorem Last.compare (h : L.Last goal pre x) (hpre' : L.Going goal pre')
    (heq : pre ++ x :: post = pre' ++ y :: post') :
    pre' ++ [y] <+: pre ∨ pre' = pre ∧ y = x ∧ post' = post := by
  refine split_compare heq ?_
  by_contra hlt
  -- the loop would be through before it gets to `y`
  have hlen := congrArg List.length heq
  simp only [List.length_append, List.length_cons] at hlen
  have hpre : pre ++ [x] <+: pre' := by
    refine List.prefix_of_prefix_length_le ⟨post, ?_⟩ (List.prefix_append pre' (y :: post')) ?_
    · rw [← heq, List.append_assoc, List.singleton_append]
    · rw [List.length_append, List.length_singleton]
      omega
  have hgoing := hpre' _ hpre
  rcases h.ends with hstops | hgoal
  · exact hgoing.2 x (by simp) hstops
  · omega

/-- The loop gets to the goal when its last outcome does not stop it. -/
theorem Last.reaches_iff (h : L.Last goal pre x) : L.Reaches goal (pre ++ x :: post) ↔ ¬ L.stops x := by
  constructor
  · rintro ⟨p, hp, hgoal, hno⟩ hstops
    have hlast : pre ++ [x] <+: pre ++ x :: post := ⟨post, by simp⟩
    rcases List.prefix_or_prefix_of_prefix hp hlast with hle | hle
    · rcases List.prefix_concat_iff.1 hle with rfl | hle
      · exact hno x (by simp) hstops
      · exact absurd (h.going p hle).1 (by omega)
    · exact hno x (hle.subset (by simp)) hstops
  · intro hstops
    refine ⟨pre ++ [x], ⟨post, by simp⟩, h.ends.resolve_left hstops, fun y hy => ?_⟩
    rcases List.mem_append.1 hy with hy | hy
    · exact (h.going pre List.prefix_rfl).2 y hy
    · rwa [List.mem_singleton.1 hy]

/-- When an outcome takes away one at most, the sum stays non-negative exactly when it is positive before each of
these. -/
theorem nonneg_iff (hcount : ∀ x, -1 ≤ L.count x) :
    (∀ p, p <+: xs → 0 ≤ L.total p) ↔ ∀ p x, p ++ [x] <+: xs → L.count x < 0 → 0 < L.total p := by
  constructor
  · intro h p x hp hx
    have htotal := h _ hp
    rw [total_append, total_cons, total_nil] at htotal
    omega
  · intro h p
    induction p using List.reverseRecOn with
    | nil => exact fun _ => le_rfl
    | append_singleton p x ih =>
      intro hp
      have hle := ih ((List.prefix_append p [x]).trans hp)
      have hx := hcount x
      rw [total_append, total_cons, total_nil]
      by_cases hneg : L.count x < 0
      · have hpos := h p x hp hneg
        omega
      · omega

/-- The outcomes that take something away before the loop is through, seen from its last outcome: the sum stays
non-negative, they satisfy `R`, and if there is one the loop does not get to the goal. -/
theorem Last.retried_iff {R : X → Prop} (hcount : ∀ x, -1 ≤ L.count x) (h : L.Last goal pre x) (post : List X) :
    (∀ p y q, pre ++ x :: post = p ++ y :: q → L.count y < 0 → ¬ L.stops y → L.Going goal p →
        R y ∧ 0 < L.total p ∧ ¬ L.Reaches goal (pre ++ x :: post)) ↔
      (∀ p, p <+: pre → 0 ≤ L.total p) ∧ ∀ y ∈ pre, L.count y < 0 → R y ∧ L.stops x := by
  rw [nonneg_iff hcount]
  constructor
  · intro hall
    have hpre : ∀ p y, p ++ [y] <+: pre → L.count y < 0 → R y ∧ 0 < L.total p ∧ L.stops x := by
      rintro p y ⟨q, rfl⟩ hy
      have hp : p <+: p ++ [y] ++ q := ⟨[y] ++ q, by simp⟩
      have hno : ¬ L.stops y := (h.going _ List.prefix_rfl).2 y (by simp)
      obtain ⟨hR, htotal, hreach⟩ := hall p y (q ++ x :: post) (by simp) hy hno (h.going.of_prefix hp)
      exact ⟨hR, htotal, not_not.1 (h.reaches_iff.not.1 hreach)⟩
    refine ⟨fun p y hp hy => (hpre p y hp hy).2.1, fun y hmem hy => ?_⟩
    obtain ⟨p, q, rfl⟩ := List.append_of_mem hmem
    obtain ⟨hR, -, hstops⟩ := hpre p y ⟨q, by simp⟩ hy
    exact ⟨hR, hstops⟩
  · rintro ⟨htotal, hR⟩ p y q heq hy hno hp
    rcases h.compare hp heq with hbefore | ⟨rfl, rfl, -⟩
    · obtain ⟨hRy, hstops⟩ := hR y (hbefore.subset (by simp)) hy
      exact ⟨hRy, htotal p y hbefore hy, fun hreach => h.reaches_iff.1 hreach hstops⟩
    · -- the last outcome takes nothing away
      have hgoal := h.ends.resolve_left hno
      have hlt := (h.going p List.prefix_rfl).1
      rw [total_append, total_cons, total_nil] at hgoal
      omega

end Loop

end Tally
