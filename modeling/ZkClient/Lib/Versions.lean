import Mathlib.Data.Option.Basic

/-!
# Conditional requests

A node carries a version that every write increases.  A request may expect a version; it is then applied only to a node
that has this version, and answered `badVersion` otherwise.  A node that is created starts with version 0.

A request that expects a version and is applied makes this version a thing of the past (`past_apply_of_ok`), whatever
comes afterwards as long as the node is not created anew (`Past.apply`), and a request that expects a version of the
past is not applied (`Past.answer_ne_ok`).  So of the requests that expect one version of a node, one at most is
applied.
-/

namespace Versions

/-- A value with its version. -/
structure Node (δ : Type) where
  data : δ
  version : Int
  deriving DecidableEq

/-- A creation, or a write or a removal and the version that it expects, if any. -/
inductive Request (δ : Type) where
  | create (data : δ)
  | write (data : δ) (expected : Option Int)
  | remove (expected : Option Int)
  deriving DecidableEq

inductive Answer where
  | ok
  | nodeExists
  | noNode
  | badVersion
  deriving DecidableEq, Repr

variable {δ : Type}

namespace Request

def creates : Request δ → Bool
  | create _ => true
  | write .. | remove _ => false

def expected : Request δ → Option Int
  | create _ => none
  | write _ expected => expected
  | remove expected => expected

def answer (r : Request δ) : Option (Node δ) → Answer
  | none => if r.creates then .ok else .noNode
  | some n =>
    if r.creates then .nodeExists
    else if r.expected = none ∨ r.expected = some n.version then .ok
    else .badVersion

/-- What an applied request makes of a node. -/
def effect : Request δ → Option (Node δ) → Option (Node δ)
  | create data, _ => some { data, version := 0 }
  | write data _, s => s.map fun n => { data, version := n.version + 1 }
  | remove _, _ => none

def apply (r : Request δ) (s : Option (Node δ)) : Option (Node δ) := if r.answer s = .ok then r.effect s else s

variable {r : Request δ} {n : Node δ} {s : Option (Node δ)} {v : Int}

theorem creates_of_expected (h : r.expected = some v) : r.creates = false := by
  cases r with
  | create data => cases h
  | write data expected => rfl
  | remove expected => rfl

theorem answer_some_of_expected (h : r.expected = some v) :
    r.answer (some n) = if v = n.version then .ok else .badVersion := by
  simp [answer, creates_of_expected h, h]

theorem apply_of_ok (h : r.answer s = .ok) : r.apply s = r.effect s := if_pos h

theorem apply_of_ne (h : r.answer s ≠ .ok) : r.apply s = s := if_neg h

theorem effect_ne (hr : r.creates = false) (n : Node δ) : r.effect (some n) ≠ some n := by
  cases r with
  | create data => cases hr
  | write data expected =>
    intro h
    have hversion := congrArg Node.version (Option.some.inj h)
    simp only at hversion
    omega
  | remove expected => exact fun h => by cases h

end Request

/-- The node, if it is there, has a version above `v`. -/
def Past (v : Int) (s : Option (Node δ)) : Prop := ∀ n, s = some n → v < n.version

variable {r : Request δ} {s : Option (Node δ)} {v : Int}

theorem Past.apply (h : Past v s) (hr : r.creates = true → s ≠ none) : Past v (r.apply s) := by
  by_cases hok : r.answer s = .ok
  · rw [Request.apply_of_ok hok]
    intro n hn
    cases r with
    | create data =>
      -- a node that is there is not created
      cases s with
      | none => exact absurd rfl (hr rfl)
      | some m => cases hok
    | write data expected =>
      obtain ⟨m, rfl, rfl⟩ := Option.map_eq_some_iff.1 hn
      have hm := h m rfl
      show v < m.version + 1
      omega
    | remove expected => cases hn
  · rwa [Request.apply_of_ne hok]

theorem Past.answer_ne_ok (h : Past v s) (hr : r.expected = some v) : r.answer s ≠ .ok := by
  cases s with
  | none =>
    rw [Request.answer, Request.creates_of_expected hr]
    exact Answer.noConfusion
  | some n =>
    rw [Request.answer_some_of_expected hr, if_neg (Int.ne_of_lt (h n rfl))]
    exact Answer.noConfusion

theorem past_apply_of_ok (hr : r.expected = some v) (hok : r.answer s = .ok) : Past v (r.apply s) := by
  rw [Request.apply_of_ok hok]
  intro m hm
  cases s with
  | none =>
    rw [Request.answer, Request.creates_of_expected hr] at hok
    cases hok
  | some n =>
    rw [Request.answer_some_of_expected hr] at hok
    have hversion : v = n.version := by
      by_contra hne
      rw [if_neg hne] at hok
      cases hok
    cases r with
    | create data => cases hr
    | write data expected =>
      cases hm
      show v < n.version + 1
      omega
    | remove expected => cases hm

end Versions
