/-!
# Programs of one thread

A program of one POSIX thread is a tree of operations: the mutex calls, `pthread_create` and `pthread_cancel`, and
the operations `e : E` of the application, each continued by what the program does with the answer `r : R e`.
The tree says nothing about the answers.  `Prog.run` runs it alone, with the answers given by a handler, and `Prog.log`
is what this run does; the interleavings of several programs are defined in `ZkClient.Lib.Threads` over the same trees.

`Prog.Only` says which operations a program can perform at all.  The frame rules that follow are `Only.run_inv`, what
these operations preserve a run preserves, and `Only.run_map`, what they commute with a run commutes with.  `Prog.Plain`
are the programs that do not touch the mutex or other threads.
-/

namespace Pthread

/-- A program over the operations `E` with answers `R`, returning a value of type `α`. -/
inductive Prog (E : Type) (R : E → Type) (α : Type) : Type where
  | ret (a : α)
  | lock (k : Prog E R α)
  | unlock (k : Prog E R α)
  | trylock (k : Bool → Prog E R α)
  | create (k : Nat → Prog E R α)
  | cancel (t : Nat) (k : Prog E R α)
  | op (e : E) (k : R e → Prog E R α)

namespace Prog

variable {E : Type} {R : E → Type} {α β γ σ : Type}

/-- Sequential composition: the leaves of the first program are continued by `f`. -/
protected def bind : Prog E R α → (α → Prog E R β) → Prog E R β
  | ret a, f => f a
  | lock k, f => lock (k.bind f)
  | unlock k, f => unlock (k.bind f)
  | trylock k, f => trylock fun b => (k b).bind f
  | create k, f => create fun t => (k t).bind f
  | cancel t k, f => cancel t (k.bind f)
  | op e k, f => op e fun r => (k r).bind f

instance : Monad (Prog E R) where
  pure := ret
  bind := Prog.bind

theorem bind_ret (p : Prog E R α) : p.bind ret = p := by
  induction p with
  | ret a => rfl
  | lock k ih => exact congrArg lock ih
  | unlock k ih => exact congrArg unlock ih
  | trylock k ih => exact congrArg trylock (funext ih)
  | create k ih => exact congrArg create (funext ih)
  | cancel t k ih => exact congrArg (cancel t) ih
  | op e k ih => exact congrArg (op e) (funext ih)

theorem bind_assoc (p : Prog E R α) (f : α → Prog E R β) (g : β → Prog E R γ) :
    (p.bind f).bind g = p.bind fun a => (f a).bind g := by
  induction p with
  | ret a => rfl
  | lock k ih => exact congrArg lock ih
  | unlock k ih => exact congrArg unlock ih
  | trylock k ih => exact congrArg trylock (funext ih)
  | create k ih => exact congrArg create (funext ih)
  | cancel t k ih => exact congrArg (cancel t) ih
  | op e k ih => exact congrArg (op e) (funext ih)

/-- The sequential run: one thread, so the mutex is free whenever it is asked for, and the handler `h` answers the
operations. -/
def run (h : (e : E) → σ → R e × σ) : Prog E R α → σ → α × σ
  | ret a, s => (a, s)
  | lock k, s => k.run h s
  | unlock k, s => k.run h s
  | trylock k, s => (k true).run h s
  | create k, s => (k 1).run h s
  | cancel _ k, s => k.run h s
  | op e k, s => (k (h e s).1).run h (h e s).2

@[simp] theorem run_pure (h : (e : E) → σ → R e × σ) (a : α) (s : σ) : (pure a : Prog E R α).run h s = (a, s) := rfl

@[simp] theorem run_bind (h : (e : E) → σ → R e × σ) (p : Prog E R α) (f : α → Prog E R β) (s : σ) :
    (p >>= f).run h s = (f (p.run h s).1).run h (p.run h s).2 := by
  show (p.bind f).run h s = _
  induction p generalizing s with
  | ret a => rfl
  | lock k ih => exact ih s
  | unlock k ih => exact ih s
  | trylock k ih => exact ih true s
  | create k ih => exact ih 1 s
  | cancel t k ih => exact ih s
  | op e k ih => exact ih _ _

/-- What a sequential run does: the operations with their answers, in order. -/
def log (h : (e : E) → σ → R e × σ) : Prog E R α → σ → List ((e : E) × R e)
  | ret _, _ => []
  | lock k, s => k.log h s
  | unlock k, s => k.log h s
  | trylock k, s => (k true).log h s
  | create k, s => (k 1).log h s
  | cancel _ k, s => k.log h s
  | op e k, s => ⟨e, (h e s).1⟩ :: (k (h e s).1).log h (h e s).2

@[simp] theorem log_pure (h : (e : E) → σ → R e × σ) (a : α) (s : σ) : (pure a : Prog E R α).log h s = [] := rfl

@[simp] theorem log_bind (h : (e : E) → σ → R e × σ) (p : Prog E R α) (f : α → Prog E R β) (s : σ) :
    (p >>= f).log h s = p.log h s ++ (f (p.run h s).1).log h (p.run h s).2 := by
  show (p.bind f).log h s = _
  induction p generalizing s with
  | ret a => rfl
  | lock k ih => exact ih s
  | unlock k ih => exact ih s
  | trylock k ih => exact ih true s
  | create k ih => exact ih 1 s
  | cancel t k ih => exact ih s
  | op e k ih => exact congrArg (List.cons _) (ih _ _)

/-! ### Frames -/

/-- Every operation that the program can perform satisfies `ok`. -/
def Only (ok : E → Prop) : Prog E R α → Prop
  | ret _ => True
  | lock k => k.Only ok
  | unlock k => k.Only ok
  | trylock k => ∀ b, (k b).Only ok
  | create k => ∀ t, (k t).Only ok
  | cancel _ k => k.Only ok
  | op e k => ok e ∧ ∀ r, (k r).Only ok

@[simp] theorem only_pure {ok : E → Prop} (a : α) : (pure a : Prog E R α).Only ok := trivial

@[simp] theorem only_ite {ok : E → Prop} {c : Prop} [Decidable c] {p q : Prog E R α} :
    (if c then p else q).Only ok ↔ (c → p.Only ok) ∧ (¬ c → q.Only ok) := by
  split <;> simp_all

theorem Only.mono {ok ok' : E → Prop} (h : ∀ e, ok e → ok' e) {p : Prog E R α} (hp : p.Only ok) : p.Only ok' := by
  induction p with
  | ret a => trivial
  | lock k ih => exact ih hp
  | unlock k ih => exact ih hp
  | trylock k ih => exact fun b => ih b (hp b)
  | create k ih => exact fun t => ih t (hp t)
  | cancel t k ih => exact ih hp
  | op e k ih => exact ⟨h e hp.1, fun r => ih r (hp.2 r)⟩

theorem Only.bind {ok : E → Prop} {p : Prog E R α} {f : α → Prog E R β} (hp : p.Only ok) (hf : ∀ a, (f a).Only ok) :
    (p >>= f).Only ok := by
  show (p.bind f).Only ok
  induction p with
  | ret a => exact hf a
  | lock k ih => exact ih hp
  | unlock k ih => exact ih hp
  | trylock k ih => exact fun b => ih b (hp b)
  | create k ih => exact fun t => ih t (hp t)
  | cancel t k ih => exact ih hp
  | op e k ih => exact ⟨hp.1, fun r => ih r (hp.2 r)⟩

/-- What a program can perform, its first part can perform. -/
theorem Only.of_bind {ok : E → Prop} {p : Prog E R α} {f : α → Prog E R β} (hp : (p >>= f).Only ok) : p.Only ok := by
  change (p.bind f).Only ok at hp
  induction p with
  | ret a => trivial
  | lock k ih => exact ih hp
  | unlock k ih => exact ih hp
  | trylock k ih => exact fun b => ih b (hp b)
  | create k ih => exact fun t => ih t (hp t)
  | cancel t k ih => exact ih hp
  | op e k ih => exact ⟨hp.1, fun r => ih r (hp.2 r)⟩

/-- What the operations of a program preserve, a run of it preserves. -/
theorem Only.run_inv {ok : E → Prop} {p : Prog E R α} (hp : p.Only ok) {h : (e : E) → σ → R e × σ} {I : σ → Prop}
    (hstep : ∀ e, ok e → ∀ s, I s → I (h e s).2) {s : σ} (hs : I s) : I (p.run h s).2 := by
  induction p generalizing s with
  | ret a => exact hs
  | lock k ih => exact ih hp hs
  | unlock k ih => exact ih hp hs
  | trylock k ih => exact ih true (hp true) hs
  | create k ih => exact ih 1 (hp 1) hs
  | cancel t k ih => exact ih hp hs
  | op e k ih => exact ih _ (hp.2 _) (hstep e hp.1 s hs)

/-- What the operations of a program commute with, a run of it commutes with. -/
theorem Only.run_map {ok : E → Prop} {p : Prog E R α} (hp : p.Only ok) {h : (e : E) → σ → R e × σ} {f : σ → σ}
    (hstep : ∀ e, ok e → ∀ s, h e (f s) = ((h e s).1, f (h e s).2)) (s : σ) :
    p.run h (f s) = ((p.run h s).1, f (p.run h s).2) := by
  induction p generalizing s with
  | ret a => rfl
  | lock k ih => exact ih hp s
  | unlock k ih => exact ih hp s
  | trylock k ih => exact ih true (hp true) s
  | create k ih => exact ih 1 (hp 1) s
  | cancel t k ih => exact ih hp s
  | op e k ih =>
    show (k (h e (f s)).1).run h (h e (f s)).2 = _
    rw [hstep e hp.1 s]
    exact ih _ (hp.2 _) _

/-- A run does only operations that the program can perform. -/
theorem Only.log {ok : E → Prop} {p : Prog E R α} (hp : p.Only ok) {h : (e : E) → σ → R e × σ} {s : σ}
    {x : (e : E) × R e} (hx : x ∈ p.log h s) : ok x.1 := by
  induction p generalizing s with
  | ret a => cases hx
  | lock k ih => exact ih hp hx
  | unlock k ih => exact ih hp hx
  | trylock k ih => exact ih true (hp true) hx
  | create k ih => exact ih 1 (hp 1) hx
  | cancel t k ih => exact ih hp hx
  | op e k ih =>
    rcases List.mem_cons.1 hx with rfl | hx
    · exact hp.1
    · exact ih _ (hp.2 _) hx

/-! ### Programs without threads -/

/-- The program makes no call to the mutex or to another thread, and every operation that it can perform satisfies
`ok`. -/
def Plain (ok : E → Prop) : Prog E R α → Prop
  | ret _ => True
  | lock _ => False
  | unlock _ => False
  | trylock _ => False
  | create _ => False
  | cancel _ _ => False
  | op e k => ok e ∧ ∀ r, (k r).Plain ok

theorem Plain.only {ok : E → Prop} {p : Prog E R α} (hp : p.Plain ok) : p.Only ok := by
  induction p with
  | ret a => trivial
  | lock k => exact hp.elim
  | unlock k => exact hp.elim
  | trylock k => exact hp.elim
  | create k => exact hp.elim
  | cancel t k => exact hp.elim
  | op e k ih => exact ⟨hp.1, fun r => ih r (hp.2 r)⟩

theorem Plain.mono {ok ok' : E → Prop} (h : ∀ e, ok e → ok' e) {p : Prog E R α} (hp : p.Plain ok) : p.Plain ok' := by
  induction p with
  | ret a => trivial
  | lock k => exact hp
  | unlock k => exact hp
  | trylock k => exact hp
  | create k => exact hp
  | cancel t k => exact hp
  | op e k ih => exact ⟨h e hp.1, fun r => ih r (hp.2 r)⟩

theorem Plain.bind {ok : E → Prop} {p : Prog E R α} {f : α → Prog E R β} (hp : p.Plain ok)
    (hf : ∀ a, (f a).Plain ok) : (p >>= f).Plain ok := by
  show (p.bind f).Plain ok
  induction p with
  | ret a => exact hf a
  | lock k => exact hp
  | unlock k => exact hp
  | trylock k => exact hp
  | create k => exact hp
  | cancel t k => exact hp
  | op e k ih => exact ⟨hp.1, fun r => ih r (hp.2 r)⟩

theorem plain_ite {ok : E → Prop} {c : Prop} [Decidable c] {p q : Prog E R α} (hp : c → p.Plain ok)
    (hq : ¬ c → q.Plain ok) : (if c then p else q).Plain ok := by
  split
  · exact hp ‹_›
  · exact hq ‹_›

end Prog

end Pthread
