import Mathlib.Logic.Function.Basic
import ZkClient.Lib.Program

/-!
# Threads over one mutex

Threads that run programs (`Prog`) over one default mutex: `lock` waits until the mutex is free, `unlock` frees it
whoever calls it, and a cancelled thread dies at some later cancellation point, keeping the mutex if it has it.  An
operation of the application takes two steps, so that two threads can be inside operations at the same time; its answer
is any that the shared state allows.

`step` is one step of a thread, `step_cases` says once what a step can be, and `Run` are the runs whose steps meet a
given condition.

A `Discipline` gives a thread phases and says how its operations change them; `Prog.Follows` are the programs that keep
to it.  The first one is `Discipline.locking`: lock and unlock in turn, and enter the operations that need the mutex
only in between.  When all threads follow it, a thread that is past its `lock` has the mutex (`Run.disciplined`), so the
threads exclude each other.  `Discipline.free` only looks at the operations, as `Prog.Only` does.
-/

namespace Pthread

/-! ### Disciplines -/

/-- How the operations of a program change the phase of its thread; an operation that changes it to no phase is
forbidden.  A job can end in a phase that `stop` allows. -/
structure Discipline (E : Type) (R : E → Type) (P : Type) where
  stop : Bool → P → Prop
  lock : P → P → Prop
  unlock : P → P → Prop
  trylock : P → P → Prop
  create : P → P → Prop
  cancel : Nat → P → P → Prop
  enter : E → P → P → Prop
  leave : (e : E) → R e → P → P → Prop

namespace Prog

variable {E : Type} {R : E → Type} {P α β : Type}

/-- From the given phase on the program keeps to the discipline `D`, whatever the answers, and ends as `Q` says. -/
def Follows (D : Discipline E R P) (Q : α → P → Prop) : Prog E R α → P → Prop
  | .ret a, φ => Q a φ
  | .lock k, φ => ∃ φ', D.lock φ φ' ∧ k.Follows D Q φ'
  | .unlock k, φ => ∃ φ', D.unlock φ φ' ∧ k.Follows D Q φ'
  | .trylock k, φ => ∃ φ', D.trylock φ φ' ∧ ∀ b, (k b).Follows D Q φ'
  | .create k, φ => ∃ φ', D.create φ φ' ∧ ∀ t, (k t).Follows D Q φ'
  | .cancel t k, φ => ∃ φ', D.cancel t φ φ' ∧ k.Follows D Q φ'
  | .op e k, φ => ∃ φ', D.enter e φ φ' ∧ ∀ r φ'', D.leave e r φ' φ'' → (k r).Follows D Q φ''

variable {D : Discipline E R P} {φ : P}

theorem Follows.bind {Q : α → P → Prop} {Q' : β → P → Prop} {p : Prog E R α} {f : α → Prog E R β}
    (hp : p.Follows D Q φ) (hf : ∀ a φ, Q a φ → (f a).Follows D Q' φ) : (p >>= f).Follows D Q' φ := by
  show (p.bind f).Follows D Q' φ
  induction p generalizing φ with
  | ret a => exact hf a φ hp
  | lock k ih =>
    obtain ⟨φ', hφ, hk⟩ := hp
    exact ⟨φ', hφ, ih hk⟩
  | unlock k ih =>
    obtain ⟨φ', hφ, hk⟩ := hp
    exact ⟨φ', hφ, ih hk⟩
  | trylock k ih =>
    obtain ⟨φ', hφ, hk⟩ := hp
    exact ⟨φ', hφ, fun b => ih b (hk b)⟩
  | create k ih =>
    obtain ⟨φ', hφ, hk⟩ := hp
    exact ⟨φ', hφ, fun t => ih t (hk t)⟩
  | cancel t k ih =>
    obtain ⟨φ', hφ, hk⟩ := hp
    exact ⟨φ', hφ, ih hk⟩
  | op e k ih =>
    obtain ⟨φ', hφ, hk⟩ := hp
    exact ⟨φ', hφ, fun r φ'' h => ih r (hk r φ'' h)⟩

theorem Follows.mono {Q Q' : α → P → Prop} {p : Prog E R α} (hp : p.Follows D Q φ)
    (hQ : ∀ a φ, Q a φ → Q' a φ) : p.Follows D Q' φ := by
  have h : (p.bind ret).Follows D Q' φ := hp.bind hQ
  rwa [bind_ret] at h

theorem follows_ite {Q : α → P → Prop} {c : Prop} [Decidable c] {p q : Prog E R α} (hp : c → p.Follows D Q φ)
    (hq : ¬ c → q.Follows D Q φ) : (if c then p else q).Follows D Q φ := by
  split
  · exact hp ‹_›
  · exact hq ‹_›

/-- A plain program whose operations stay in the phase follows the discipline. -/
theorem Plain.follows {ok : E → Prop} {Q : α → P → Prop} {p : Prog E R α} (hp : p.Plain ok)
    (hok : ∀ e, ok e → D.enter e φ φ ∧ ∀ r φ', D.leave e r φ φ' → φ' = φ) (hQ : ∀ a, Q a φ) : p.Follows D Q φ := by
  induction p with
  | ret a => exact hQ a
  | lock k => exact hp.elim
  | unlock k => exact hp.elim
  | trylock k => exact hp.elim
  | create k => exact hp.elim
  | cancel t k => exact hp.elim
  | op e k ih =>
    obtain ⟨henter, hleave⟩ := hok e hp.1
    refine ⟨φ, henter, fun r φ' h => ?_⟩
    rw [hleave r φ' h]
    exact ih r (hp.2 r)

end Prog

/-- How the next step of a program changes the phase of its thread; a job that ends leaves it in the phase `start`. -/
def Discipline.Goes {E : Type} {R : E → Type} {P : Type} (D : Discipline E R P) (start : P) :
    Prog E R Bool → P → P → Prop
  | .ret more, φ, φ' => D.stop more φ ∧ φ' = start
  | .lock _, φ, φ' => D.lock φ φ'
  | .unlock _, φ, φ' => D.unlock φ φ'
  | .trylock _, φ, φ' => D.trylock φ φ'
  | .create _, φ, φ' => D.create φ φ'
  | .cancel t _, φ, φ' => D.cancel t φ φ'
  | .op e _, φ, φ' => D.enter e φ φ'

/-- Lock and unlock in turn, start no thread and cancel none, and enter the operations `crit` only in between; the phase
says whether the thread is past a `lock`, and `ok` are the answers that it can cope with. -/
def Discipline.locking {E : Type} {R : E → Type} (ok : (e : E) → R e → Prop) (crit : E → Prop) :
    Discipline E R Bool where
  stop _ held := held = false
  lock held held' := held = false ∧ held' = true
  unlock held held' := held = true ∧ held' = false
  trylock _ _ := False
  create _ _ := False
  cancel _ _ _ := False
  enter e held held' := (crit e → held = true) ∧ held' = held
  leave e r held held' := ok e r ∧ held' = held

/-- Any steps, with the operations `ok` only. -/
def Discipline.free {E : Type} {R : E → Type} (ok : E → Prop) : Discipline E R Unit where
  stop _ _ := True
  lock _ _ := True
  unlock _ _ := True
  trylock _ _ := True
  create _ _ := True
  cancel _ _ _ := True
  enter e _ _ := ok e
  leave _ _ _ _ := True

namespace Prog

variable {E : Type} {R : E → Type} {α : Type} {ok : E → Prop} {p : Prog E R α}

/-- What a program does under the free discipline it does at all. -/
theorem Follows.only {Q : α → Unit → Prop} (hp : p.Follows (.free ok) Q ()) : p.Only ok := by
  induction p with
  | ret a => trivial
  | lock k ih =>
    obtain ⟨_, _, hk⟩ := hp
    exact ih hk
  | unlock k ih =>
    obtain ⟨_, _, hk⟩ := hp
    exact ih hk
  | trylock k ih =>
    obtain ⟨_, _, hk⟩ := hp
    exact fun b => ih b (hk b)
  | create k ih =>
    obtain ⟨_, _, hk⟩ := hp
    exact fun t => ih t (hk t)
  | cancel t k ih =>
    obtain ⟨_, _, hk⟩ := hp
    exact ih hk
  | op e k ih =>
    obtain ⟨_, he, hk⟩ := hp
    exact ⟨he, fun r => ih r (hk r () trivial)⟩

theorem Plain.free {Q : α → Unit → Prop} (hp : p.Plain ok) (hQ : ∀ a, Q a ()) : p.Follows (.free ok) Q () :=
  hp.follows (fun _ he => ⟨he, fun _ _ _ => rfl⟩) hQ

end Prog

/-! ### Systems of threads -/

/-- What runs: the programs of the jobs, which thread takes up which job, the shared states that an answer to an
operation of a thread can lead to, and the operations in which a thread can be cancelled. -/
structure System (E : Type) (R : E → Type) (J σ : Type) where
  prog : J → Prog E R Bool
  takes : Nat → J → Bool
  effect : Nat → (e : E) → σ → R e → List σ
  cancelPoint : E → Bool

/-- A thread: waiting for a job, about to do the next step of one, inside an operation, or ended. -/
inductive Thread (E : Type) (R : E → Type) (J : Type) where
  | idle
  | ready (j : J) (p : Prog E R Bool)
  | inside (j : J) (e : E) (k : R e → Prog E R Bool)
  | gone

/-- What the thread has taken up. -/
def Thread.job {E : Type} {R : E → Type} {J : Type} : Thread E R J → Option J
  | .ready j _ => some j
  | .inside j _ _ => some j
  | _ => none

/-- The thread keeps to the discipline of its job; without a job it is in the phase `start`. -/
def Thread.Follows {E : Type} {R : E → Type} {J P : Type} (D : J → Discipline E R P) (start : P) :
    Thread E R J → P → Prop
  | .idle, φ => φ = start
  | .ready j p, φ => p.Follows (D j) (D j).stop φ
  | .inside j e k, φ => (∃ φ₀, (D j).enter e φ₀ φ) ∧ ∀ r φ', (D j).leave e r φ φ' → (k r).Follows (D j) (D j).stop φ'
  | .gone, φ => φ = start

structure State (E : Type) (R : E → Type) (J σ : Type) where
  threads : Nat → Thread E R J
  owner : Option Nat
  cancelled : Nat → Bool
  fresh : Nat
  shared : σ

/-- A step: a thread takes up a job, goes on with its program, gets the answer of its operation (which leads to the
`i`-th of the possible shared states), or dies. -/
inductive Act (E : Type) (R : E → Type) (J : Type) where
  | take (t : Nat) (j : J)
  | go (t : Nat)
  | answer (t : Nat) (e : E) (r : R e) (i : Nat)
  | die (t : Nat)

def Act.thread {E : Type} {R : E → Type} {J : Type} : Act E R J → Nat
  | .take t _ => t
  | .go t => t
  | .answer t _ _ _ => t
  | .die t => t

namespace State

variable {E : Type} {R : E → Type} {J σ : Type}

def set (s : State E R J σ) (t : Nat) (x : Thread E R J) : State E R J σ :=
  { s with threads := Function.update s.threads t x }

@[simp] theorem set_same (s : State E R J σ) (t : Nat) (x : Thread E R J) : (s.set t x).threads t = x :=
  Function.update_self ..

theorem set_other (s : State E R J σ) {t u : Nat} (x : Thread E R J) (h : u ≠ t) :
    (s.set t x).threads u = s.threads u :=
  Function.update_of_ne h ..

@[simp] theorem set_owner (s : State E R J σ) (t : Nat) (x : Thread E R J) : (s.set t x).owner = s.owner := rfl

@[simp] theorem set_cancelled (s : State E R J σ) (t : Nat) (x : Thread E R J) :
    (s.set t x).cancelled = s.cancelled := rfl

@[simp] theorem set_fresh (s : State E R J σ) (t : Nat) (x : Thread E R J) : (s.set t x).fresh = s.fresh := rfl

@[simp] theorem set_shared (s : State E R J σ) (t : Nat) (x : Thread E R J) : (s.set t x).shared = s.shared := rfl

end State

namespace System

variable {E : Type} {R : E → Type} {J σ : Type}

/-- The next step of the job `j` of thread `t`, where `p` is what is left of its program. -/
def advance (s : State E R J σ) (t : Nat) (j : J) : Prog E R Bool → Option (State E R J σ)
  | .ret more => some (s.set t (if more then .idle else .gone))
  | .lock k => if s.owner = none then some { s.set t (.ready j k) with owner := some t } else none
  | .unlock k => some { s.set t (.ready j k) with owner := none }
  | .trylock k =>
    if s.owner = none then some { s.set t (.ready j (k true)) with owner := some t }
    else some (s.set t (.ready j (k false)))
  | .create k => some { (s.set s.fresh .idle).set t (.ready j (k s.fresh)) with fresh := s.fresh + 1 }
  | .cancel u k => some { s.set t (.ready j k) with cancelled := Function.update s.cancelled u true }
  | .op e k => some (s.set t (.inside j e k))

section Locking

variable {ok : J → (e : E) → R e → Prop} {crit : E → Prop}

/-- What a step of a thread can be that locks and unlocks in turn: the mutex stays as it is, the thread takes it, or it
gives it back. -/
theorem advance_locking {s s' : State E R J σ} {t : Nat} {j : J} {p : Prog E R Bool} {held : Bool}
    (hp : p.Follows (.locking (ok j) crit) (fun _ held => held = false) held) (h : advance s t j p = some s') :
    ∃ (x : Thread E R J) (owner : Option Nat) (held' : Bool), s' = { s.set t x with owner } ∧
      x.Follows (fun j => .locking (ok j) crit) false held' ∧
      ((owner = s.owner ∧ held' = held) ∨ ((∃ k, p = .lock k) ∧ s.owner = none ∧ owner = some t ∧ held' = true) ∨
        (held = true ∧ owner = none ∧ held' = false)) := by
  cases p with
  | ret more =>
    cases h
    cases more
    · exact ⟨.gone, s.owner, held, rfl, hp, .inl ⟨rfl, rfl⟩⟩
    · exact ⟨.idle, s.owner, held, rfl, hp, .inl ⟨rfl, rfl⟩⟩
  | lock k =>
    obtain ⟨held', ⟨-, rfl⟩, hk⟩ := hp
    simp only [advance] at h
    split at h
    · rename_i hfree
      cases h
      exact ⟨.ready j k, some t, true, rfl, hk, .inr (.inl ⟨⟨k, rfl⟩, hfree, rfl, rfl⟩)⟩
    · cases h
  | unlock k =>
    obtain ⟨held', ⟨hheld, rfl⟩, hk⟩ := hp
    cases h
    exact ⟨.ready j k, none, false, rfl, hk, .inr (.inr ⟨hheld, rfl, rfl⟩)⟩
  | trylock k =>
    obtain ⟨held', hfalse, -⟩ := hp
    exact hfalse.elim
  | create k =>
    obtain ⟨held', hfalse, -⟩ := hp
    exact hfalse.elim
  | cancel u k =>
    obtain ⟨held', hfalse, -⟩ := hp
    exact hfalse.elim
  | op e k =>
    obtain ⟨held', ⟨hcrit, rfl⟩, hk⟩ := hp
    cases h
    exact ⟨.inside j e k, s.owner, held', rfl, ⟨⟨held', hcrit, rfl⟩, hk⟩, .inl ⟨rfl, rfl⟩⟩

variable (ok crit) in
/-- Every thread locks and unlocks in turn, it has the mutex exactly when it is past a `lock`, and none is cancelled. -/
structure Disciplined (s : State E R J σ) : Prop where
  follows : ∀ t, (s.threads t).Follows (fun j => .locking (ok j) crit) false (decide (s.owner = some t))
  uncancelled : ∀ t, s.cancelled t = false

namespace Disciplined

variable {s : State E R J σ} {t : Nat} {j : J}

/-- Who is inside an operation that needs the mutex has it. -/
theorem owner_of_inside {e : E} {k : R e → Prog E R Bool} (hs : Disciplined ok crit s)
    (hth : s.threads t = .inside j e k) (he : crit e) : s.owner = some t := by
  have h := hs.follows t
  rw [hth] at h
  obtain ⟨⟨held, hcrit, hheld⟩, -⟩ := h
  rw [hcrit he] at hheld
  exact of_decide_eq_true hheld

/-- Who is about to enter an operation that needs the mutex has it. -/
theorem owner_of_ready {e : E} {k : R e → Prog E R Bool} (hs : Disciplined ok crit s)
    (hth : s.threads t = .ready j (.op e k)) (he : crit e) : s.owner = some t := by
  have h := hs.follows t
  rw [hth] at h
  obtain ⟨held, ⟨hcrit, -⟩, -⟩ := h
  exact of_decide_eq_true (hcrit he)

/-- Who is about to unlock the mutex has it. -/
theorem owner_of_unlock {k : Prog E R Bool} (hs : Disciplined ok crit s)
    (hth : s.threads t = .ready j (.unlock k)) : s.owner = some t := by
  have h := hs.follows t
  rw [hth] at h
  obtain ⟨held, ⟨hheld, -⟩, -⟩ := h
  exact of_decide_eq_true hheld

end Disciplined

end Locking

section Following

variable {P : Type} {D : J → Discipline E R P} {start : P}

/-- The next step of a job leads a thread that keeps to its discipline to a phase that the discipline allows. -/
theorem advance_follows {s s' : State E R J σ} {t : Nat} {j : J} {p : Prog E R Bool} {φ : P}
    (hp : p.Follows (D j) (D j).stop φ) (h : advance s t j p = some s') :
    ∃ φ', (D j).Goes start p φ φ' ∧ (s'.threads t).Follows D start φ' := by
  have hset : ∀ {s : State E R J σ} {x : Thread E R J} {φ' : P}, x.Follows D start φ' →
      ((s.set t x).threads t).Follows D start φ' := by
    intro s x φ' hx
    rwa [State.set_same]
  cases p with
  | ret more =>
    cases h
    refine ⟨start, ⟨hp, rfl⟩, hset ?_⟩
    cases more <;> rfl
  | lock k =>
    obtain ⟨φ', hφ, hk⟩ := hp
    simp only [advance] at h
    split at h
    · cases h
      exact ⟨φ', hφ, hset hk⟩
    · cases h
  | unlock k =>
    obtain ⟨φ', hφ, hk⟩ := hp
    cases h
    exact ⟨φ', hφ, hset hk⟩
  | trylock k =>
    obtain ⟨φ', hφ, hk⟩ := hp
    simp only [advance] at h
    split at h
    · cases h
      exact ⟨φ', hφ, hset (hk true)⟩
    · cases h
      exact ⟨φ', hφ, hset (hk false)⟩
  | create k =>
    obtain ⟨φ', hφ, hk⟩ := hp
    cases h
    exact ⟨φ', hφ, hset (hk s.fresh)⟩
  | cancel u k =>
    obtain ⟨φ', hφ, hk⟩ := hp
    cases h
    exact ⟨φ', hφ, hset hk⟩
  | op e k =>
    obtain ⟨φ', hφ, hk⟩ := hp
    cases h
    exact ⟨φ', hφ, hset ⟨⟨φ, hφ⟩, hk⟩⟩

end Following

/-! ### Steps -/

variable [DecidableEq E] (S : System E R J σ)

def step (s : State E R J σ) : Act E R J → Option (State E R J σ)
  | .take t j =>
    match s.threads t with
    | .idle => if S.takes t j then some (s.set t (.ready j (S.prog j))) else none
    | _ => none
  | .go t =>
    match s.threads t with
    | .ready j p => advance s t j p
    | _ => none
  | .answer t e r i =>
    match s.threads t with
    | .inside j e' k =>
      if h : e = e' then
        (S.effect t e s.shared r)[i]?.map fun shared => { s.set t (.ready j (k (h ▸ r))) with shared }
      else none
    | _ => none
  | .die t =>
    match s.threads t with
    | .inside _ e _ => if s.cancelled t ∧ S.cancelPoint e then some (s.set t .gone) else none
    | _ => none

/-- What a step can be. -/
inductive Step (s : State E R J σ) : Act E R J → State E R J σ → Prop
  | take {t : Nat} {j : J} (hth : s.threads t = .idle) (htakes : S.takes t j) :
    Step s (.take t j) (s.set t (.ready j (S.prog j)))
  | go {t : Nat} {j : J} {p : Prog E R Bool} {s' : State E R J σ} (hth : s.threads t = .ready j p)
    (hadv : advance s t j p = some s') : Step s (.go t) s'
  | answer {t : Nat} {j : J} {e : E} {k : R e → Prog E R Bool} {r : R e} {i : Nat} {shared : σ}
    (hth : s.threads t = .inside j e k) (heff : (S.effect t e s.shared r)[i]? = some shared) :
    Step s (.answer t e r i) { s.set t (.ready j (k r)) with shared }
  | die {t : Nat} {j : J} {e : E} {k : R e → Prog E R Bool} (hth : s.threads t = .inside j e k)
    (hcancelled : s.cancelled t = true) (hpoint : S.cancelPoint e = true) : Step s (.die t) (s.set t .gone)

theorem step_cases {s s' : State E R J σ} {a : Act E R J} (h : S.step s a = some s') : S.Step s a s' := by
  cases a with
  | take t j =>
    simp only [step] at h
    split at h
    · rename_i hth
      split at h
      · rename_i htakes
        cases h
        exact .take hth htakes
      · cases h
    · cases h
  | go t =>
    simp only [step] at h
    split at h
    · rename_i j p hth
      exact .go hth h
    · cases h
  | answer t e r i =>
    simp only [step] at h
    split at h
    · rename_i j e' k hth
      split at h
      · rename_i he
        subst he
        cases heff : (S.effect t e s.shared r)[i]? with
        | none =>
          rw [heff] at h
          cases h
        | some shared =>
          rw [heff] at h
          cases h
          exact .answer hth heff
      · cases h
    · cases h
  | die t =>
    simp only [step] at h
    split at h
    · rename_i j e k hth
      split at h
      · rename_i hdie
        cases h
        exact .die hth hdie.1 hdie.2
      · cases h
    · cases h

omit [DecidableEq E] in
/-- What the next step of a job can change: the thread itself, threads that start, the owner of the mutex, and who is
cancelled. -/
theorem advance_frame {s s' : State E R J σ} {t : Nat} {j : J} {p : Prog E R Bool} (h : advance s t j p = some s') :
    s'.shared = s.shared ∧ (∀ j', (s'.threads t).job = some j' → j' = j) ∧
      ∀ u, u ≠ t → s'.threads u = s.threads u ∨ (∃ k, p = .create k) ∧ s'.threads u = .idle := by
  have hother : ∀ {Q : Nat → Prop} (x : Thread E R J) (u : Nat), u ≠ t → (s.set t x).threads u = s.threads u ∨ Q u :=
    fun x u hu => .inl (State.set_other s x hu)
  have hjob : ∀ (p : Prog E R Bool) (j' : J), ((s.set t (.ready j p)).threads t).job = some j' → j' = j := by
    intro p j' h
    rw [State.set_same] at h
    exact (Option.some.inj h).symm
  cases p with
  | ret more =>
    cases h
    refine ⟨rfl, fun j' h => ?_, hother _⟩
    rw [State.set_same] at h
    cases more <;> cases h
  | lock k =>
    simp only [advance] at h
    split at h
    · cases h
      exact ⟨rfl, hjob k, hother _⟩
    · cases h
  | unlock k =>
    cases h
    exact ⟨rfl, hjob k, hother _⟩
  | trylock k =>
    simp only [advance] at h
    split at h
    · cases h
      exact ⟨rfl, hjob (k true), hother _⟩
    · cases h
      exact ⟨rfl, hjob (k false), hother _⟩
  | create k =>
    cases h
    refine ⟨rfl, fun j' h => ?_, fun u hu => ?_⟩
    · rw [show (((s.set s.fresh .idle).set t (.ready j (k s.fresh))).threads t) = _ from State.set_same ..] at h
      exact (Option.some.inj h).symm
    · show ((s.set s.fresh .idle).set t _).threads u = _ ∨ _ ∧ ((s.set s.fresh .idle).set t _).threads u = _
      rw [State.set_other _ _ hu]
      by_cases hnew : u = s.fresh
      · subst hnew
        exact .inr ⟨⟨k, rfl⟩, State.set_same ..⟩
      · exact .inl (State.set_other s _ hnew)
  | cancel u k =>
    cases h
    exact ⟨rfl, hjob k, hother _⟩
  | op e k =>
    cases h
    refine ⟨rfl, fun j' h => ?_, hother _⟩
    rw [State.set_same] at h
    exact (Option.some.inj h).symm

omit [DecidableEq E] in
/-- Another thread is where it was, or has just been started. -/
theorem advance_other {P : Type} {D : J → Discipline E R P} {start : P} {s s' : State E R J σ} {t u : Nat} {j : J}
    {p : Prog E R Bool} (hu : u ≠ t) (h : advance s t j p = some s') (hs : (s.threads u).Follows D start start) :
    (s'.threads u).Follows D start start := by
  obtain ⟨-, -, hframe⟩ := advance_frame h
  rcases hframe u hu with hsame | ⟨-, hidle⟩
  · rwa [hsame]
  · rw [hidle]
    rfl

omit [DecidableEq E] in
/-- A thread keeps its job until it returns. -/
theorem advance_job {s s' : State E R J σ} {t : Nat} {j : J} {p : Prog E R Bool} (h : advance s t j p = some s') :
    (s'.threads t).job = some j ∨ (∃ more, p = .ret more) ∧ (s'.threads t).job = none := by
  have hready : ∀ {s : State E R J σ} (p : Prog E R Bool), ((s.set t (.ready j p)).threads t).job = some j := by
    intro s p
    rw [State.set_same]
    rfl
  cases p with
  | ret more =>
    cases h
    refine .inr ⟨⟨more, rfl⟩, ?_⟩
    rw [State.set_same]
    cases more <;> rfl
  | lock k =>
    simp only [advance] at h
    split at h
    · cases h
      exact .inl (hready k)
    · cases h
  | unlock k =>
    cases h
    exact .inl (hready k)
  | trylock k =>
    simp only [advance] at h
    split at h
    · cases h
      exact .inl (hready (k true))
    · cases h
      exact .inl (hready (k false))
  | create k =>
    cases h
    exact .inl (hready (k s.fresh))
  | cancel u k =>
    cases h
    exact .inl (hready k)
  | op e k =>
    cases h
    refine .inl ?_
    rw [State.set_same]
    rfl

omit [DecidableEq E] in
/-- The next step of a job leaves the other threads as they are, those aside that have not started. -/
theorem advance_older {s s' : State E R J σ} {t : Nat} {j : J} {p : Prog E R Bool} (h : advance s t j p = some s') :
    s.fresh ≤ s'.fresh ∧ ∀ u, u ≠ t → u < s.fresh → s'.threads u = s.threads u := by
  have hset : ∀ (x : Thread E R J) (u : Nat), u ≠ t → u < s.fresh → (s.set t x).threads u = s.threads u :=
    fun x u hu _ => State.set_other s x hu
  cases p with
  | ret more =>
    cases h
    exact ⟨Nat.le_refl _, hset _⟩
  | lock k =>
    simp only [advance] at h
    split at h
    · cases h
      exact ⟨Nat.le_refl _, hset _⟩
    · cases h
  | unlock k =>
    cases h
    exact ⟨Nat.le_refl _, hset _⟩
  | trylock k =>
    simp only [advance] at h
    split at h
    · cases h
      exact ⟨Nat.le_refl _, hset _⟩
    · cases h
      exact ⟨Nat.le_refl _, hset _⟩
  | create k =>
    cases h
    refine ⟨Nat.le_succ _, fun u hu hlt => ?_⟩
    show ((s.set s.fresh .idle).set t _).threads u = s.threads u
    rw [State.set_other _ _ hu, State.set_other s _ (by omega)]
  | cancel v k =>
    cases h
    exact ⟨Nat.le_refl _, hset _⟩
  | op e k =>
    cases h
    exact ⟨Nat.le_refl _, hset _⟩

/-! ### Runs -/

/-- The states that runs from `s₀` reach when every step meets the condition `C`. -/
inductive Run (C : State E R J σ → Act E R J → Prop) (s₀ : State E R J σ) : State E R J σ → Prop
  | start : Run C s₀ s₀
  | step {s s' : State E R J σ} {a : Act E R J} (hrun : Run C s₀ s) (hcond : C s a) (hstep : S.step s a = some s') :
    Run C s₀ s'

variable {S}

variable (S) in
/-- A thread only has jobs that it takes up. -/
def Assigned (s : State E R J σ) : Prop := ∀ t j, (s.threads t).job = some j → S.takes t j

omit [DecidableEq E] in
theorem Step.assigned {s s' : State E R J σ} {a : Act E R J} (h : S.Step s a s') (hs : S.Assigned s) :
    S.Assigned s' := by
  intro u j' hj'
  have hother : ∀ {t : Nat} {x : Thread E R J}, (u = t → ∀ j, x.job = some j → S.takes t j) →
      ((s.set t x).threads u).job = some j' → S.takes u j' := by
    intro t x hx h
    by_cases hu : u = t
    · subst hu
      rw [State.set_same] at h
      exact hx rfl j' h
    · rw [State.set_other s x hu] at h
      exact hs u j' h
  cases h with
  | take hth htakes =>
    refine hother (fun _ j hj => ?_) hj'
    cases hj
    exact htakes
  | @go t j p s' hth hadv =>
    obtain ⟨-, hjob, hothers⟩ := advance_frame hadv
    by_cases hu : u = t
    · subst hu
      rw [hjob j' hj']
      exact hs u j (by rw [hth]; rfl)
    · rcases hothers u hu with h | ⟨-, h⟩
      · exact hs u j' (h ▸ hj')
      · rw [h] at hj'
        cases hj'
  | @answer t j e k r i shared hth heff =>
    refine hother (fun _ j hj => ?_) hj'
    cases hj
    exact hs t _ (by rw [hth]; rfl)
  | die hth hcancelled hpoint => exact hother (fun _ j hj => by cases hj) hj'

omit [DecidableEq E] in
/-- A step of a thread below `n` that starts no thread leaves the threads from `n` on as they are. -/
theorem Step.unborn {s s' : State E R J σ} {a : Act E R J} {n : Nat} (h : S.Step s a s') (ha : a.thread < n)
    (hcreate : ∀ j k, s.threads a.thread ≠ .ready j (.create k)) (hs : ∀ t, n ≤ t → s.threads t = .gone) :
    ∀ t, n ≤ t → s'.threads t = .gone := by
  intro u hu
  have hne : u ≠ a.thread := by omega
  have hset : ∀ x : Thread E R J, (s.set a.thread x).threads u = .gone := fun x =>
    (State.set_other s x hne).trans (hs u hu)
  cases h with
  | take hth htakes => exact hset _
  | go hth hadv =>
    obtain ⟨-, -, hframe⟩ := advance_frame hadv
    rcases hframe u hne with h | ⟨⟨k, rfl⟩, -⟩
    · rw [h, hs u hu]
    · exact absurd hth (hcreate _ k)
  | answer hth heff => exact hset _
  | die hth hcancelled hpoint => exact hset _

/-- What a step under the condition preserves, a run under the condition preserves. -/
theorem Run.inv {C : State E R J σ → Act E R J → Prop} {I : State E R J σ → Prop} {s₀ s : State E R J σ}
    (hrun : S.Run C s₀ s) (hstart : I s₀) (hstep : ∀ s a s', I s → C s a → S.Step s a s' → I s') : I s := by
  induction hrun with
  | start => exact hstart
  | step hrun hcond hs ih => exact hstep _ _ _ ih hcond (step_cases S hs)

/-- A run meets what its condition and an invariant of it imply. -/
theorem Run.strengthen {C C' : State E R J σ → Act E R J → Prop} {I : State E R J σ → Prop} {s₀ s : State E R J σ}
    (hrun : S.Run C s₀ s) (hstart : I s₀) (hstep : ∀ s a s', I s → C s a → S.Step s a s' → I s')
    (hcond : ∀ s a, I s → C s a → C' s a) : S.Run C' s₀ s := by
  induction hrun with
  | start => exact .start
  | step hrun hC hs ih => exact .step ih (hcond _ _ (hrun.inv hstart hstep) hC) hs

variable (S) in
/-- The state after a list of steps that pass the test `ok`. -/
def runActs (ok : State E R J σ → Act E R J → Bool) : List (Act E R J) → State E R J σ → Option (State E R J σ)
  | [], s => some s
  | a :: as, s => if ok s a then (S.step s a).bind (runActs ok as) else none

/-- A list of steps is a run when the test makes sure of the condition. -/
theorem Run.of_acts {C : State E R J σ → Act E R J → Prop} {ok : State E R J σ → Act E R J → Bool}
    (hok : ∀ s a, ok s a → C s a) {s₀ s s' : State E R J σ} {as : List (Act E R J)} (hrun : S.Run C s₀ s)
    (h : S.runActs ok as s = some s') : S.Run C s₀ s' := by
  induction as generalizing s with
  | nil =>
    cases h
    exact hrun
  | cons a as ih =>
    unfold runActs at h
    split at h
    · rename_i hcond
      cases hs : S.step s a with
      | none =>
        rw [hs] at h
        cases h
      | some s₁ =>
        rw [hs] at h
        exact ih (.step hrun (hok s a hcond) hs) h
    · cases h

/-! ### Runs with a record -/

section Recorded

variable {L : Type}

variable (S) in
/-- What runs from `s₀` reach, with a record that begins as `l₀`: `note` is what a step adds to it, and every step meets
the condition `C`, which may look at the record. -/
inductive Recorded (note : L → State E R J σ → Act E R J → L) (C : L → State E R J σ → Act E R J → Prop) (l₀ : L)
    (s₀ : State E R J σ) : L → State E R J σ → Prop
  | start : Recorded note C l₀ s₀ l₀ s₀
  | step {l : L} {s s' : State E R J σ} {a : Act E R J} (hrun : Recorded note C l₀ s₀ l s) (hcond : C l s a)
    (hstep : S.step s a = some s') : Recorded note C l₀ s₀ (note l s a) s'

variable {note : L → State E R J σ → Act E R J → L} {C : L → State E R J σ → Act E R J → Prop} {l₀ l : L}
  {s₀ s s' : State E R J σ}

/-- What a step under the condition preserves of the record and the state, a run under the condition preserves. -/
theorem Recorded.inv {I : L → State E R J σ → Prop} (hrun : S.Recorded note C l₀ s₀ l s) (hstart : I l₀ s₀)
    (hstep : ∀ l s a s', I l s → C l s a → S.Step s a s' → I (note l s a) s') : I l s := by
  induction hrun with
  | start => exact hstart
  | step hrun hcond hs ih => exact hstep _ _ _ _ ih hcond (step_cases S hs)

variable (S note) in
/-- The record and the state after a list of steps that pass the test `ok`. -/
def recordActs (ok : L → State E R J σ → Act E R J → Bool) :
    List (Act E R J) → L → State E R J σ → Option (L × State E R J σ)
  | [], l, s => some (l, s)
  | a :: as, l, s => if ok l s a then (S.step s a).bind (recordActs ok as (note l s a)) else none

/-- A list of steps is a run when the test makes sure of the condition. -/
theorem Recorded.of_acts {ok : L → State E R J σ → Act E R J → Bool} (hok : ∀ l s a, ok l s a → C l s a) {l' : L}
    {as : List (Act E R J)} (hrun : S.Recorded note C l₀ s₀ l s)
    (h : S.recordActs note ok as l s = some (l', s')) : S.Recorded note C l₀ s₀ l' s' := by
  induction as generalizing l s with
  | nil =>
    cases h
    exact hrun
  | cons a as ih =>
    unfold recordActs at h
    split at h
    · rename_i hcond
      cases hs : S.step s a with
      | none =>
        rw [hs] at h
        cases h
      | some s₁ =>
        rw [hs] at h
        exact ih (.step hrun (hok l s a hcond) hs) h
    · cases h

end Recorded

/-! ### Runs of threads that lock and unlock in turn -/

namespace Disciplined

variable {ok : J → (e : E) → R e → Prop} {crit : E → Prop} {s s' : State E R J σ}

omit [DecidableEq E] in
theorem step {a : Act E R J} (hs : Disciplined ok crit s)
    (htake : ∀ t j, a = .take t j → (S.prog j).Follows (.locking (ok j) crit) (fun _ held => held = false) false)
    (hanswer : ∀ t e r i j k, a = .answer t e r i → s.threads t = .inside j e k → ok j e r) (h : S.Step s a s') :
    Disciplined ok crit s' := by
  -- a thread that is not `t` keeps its program, so it only matters whether it still has the mutex
  have hother : ∀ {t u : Nat} {x : Thread E R J} {owner : Option Nat} {shared : σ}, u ≠ t →
      (owner = some u ↔ s.owner = some u) →
      (({ s.set t x with owner, shared } : State E R J σ).threads u).Follows (fun j => .locking (ok j) crit) false
        (decide (owner = some u)) := by
    intro t u x owner shared hu howner
    have hfollows := hs.follows u
    rw [decide_eq_decide.2 howner]
    show ((s.set t x).threads u).Follows _ _ _
    rwa [State.set_other s x hu]
  cases h with
  | @take t j hth htakes =>
    refine ⟨fun u => ?_, hs.uncancelled⟩
    by_cases hu : u = t
    · subst hu
      have hidle := hs.follows u
      rw [hth] at hidle
      rw [State.set_same, State.set_owner, show decide (s.owner = some u) = false from hidle]
      exact htake u j rfl
    · exact hother hu Iff.rfl
  | @go t j p s' hth hadv =>
    have hp := hs.follows t
    rw [hth] at hp
    obtain ⟨x, owner, held', rfl, hx, hcase⟩ := advance_locking hp hadv
    refine ⟨fun u => ?_, hs.uncancelled⟩
    by_cases hu : u = t
    · subst hu
      show ((s.set u x).threads u).Follows _ _ (decide (owner = some u))
      rw [State.set_same]
      rcases hcase with ⟨rfl, rfl⟩ | ⟨-, -, rfl, rfl⟩ | ⟨-, rfl, rfl⟩
      · exact hx
      · simpa using hx
      · simpa using hx
    · refine hother hu ?_
      rcases hcase with ⟨rfl, -⟩ | ⟨-, hfree, rfl, -⟩ | ⟨hheld, rfl, -⟩
      · rfl
      · simp [hfree, Ne.symm hu]
      · simp [of_decide_eq_true hheld, Ne.symm hu]
  | @answer t j e k r i shared hth heff =>
    have hp := hs.follows t
    rw [hth] at hp
    refine ⟨fun u => ?_, hs.uncancelled⟩
    by_cases hu : u = t
    · subst hu
      show ((s.set u _).threads u).Follows _ _ _
      rw [State.set_same]
      exact hp.2 r _ ⟨hanswer u e r i j k rfl hth, rfl⟩
    · exact hother hu Iff.rfl
  | @die t j e k hth hcancelled hpoint =>
    rw [hs.uncancelled t] at hcancelled
    cases hcancelled

end Disciplined

/-- A run in which the threads take up disciplined jobs only and get answers that the discipline allows. -/
theorem Run.disciplined {ok : J → (e : E) → R e → Prop} {crit : E → Prop} {C : State E R J σ → Act E R J → Prop}
    {s₀ s : State E R J σ} (hrun : S.Run C s₀ s) (hstart : Disciplined ok crit s₀)
    (htake : ∀ s t j, C s (.take t j) →
      (S.prog j).Follows (.locking (ok j) crit) (fun _ held => held = false) false)
    (hanswer : ∀ s t e r i j k, C s (.answer t e r i) → s.threads t = .inside j e k → ok j e r) :
    Disciplined ok crit s :=
  hrun.inv hstart fun s _ _ hs hcond hstep =>
    hs.step (fun t j ha => htake s t j (ha ▸ hcond)) (fun t e r i j k ha => hanswer s t e r i j k (ha ▸ hcond)) hstep

end System

end Pthread
