import Mathlib.Logic.Function.Basic
import ZkClient.Lib.Program

/-!
# Simulations between surroundings

A program can be run in different surroundings, and a coarse description of them may stand for a fine one.  `run_sim`
is the rule for this: when two handlers answer every operation alike, and related states lead to related states, then
every program has the same result in both.

The relation may carry a budget, for surroundings that provide only so much of something (`Prog.cost` is what a run
uses up), and the handlers need to agree only on the operations that the run does (`Prog.Along`).  Both are stated for
the coarse side, where they can be computed.

`Prog.Reaches` says where a run ends and that it does only permitted operations.  A program can stand for a function on
states, and `Prog.Implements` says that it does: from related states it reaches what the function gives.  The rules of
both follow the structure of the program; `Prog.watch` is there for programs about which a run lemma for any
surroundings is known.
-/

namespace Pthread

namespace Prog

variable {E : Type} {R : E → Type} {α β σ τ : Type}

/-- What a run uses up, when an operation `e` in the state `s` uses up `c e s`. -/
def cost (h : (e : E) → σ → R e × σ) (c : E → σ → Nat) : Prog E R α → σ → Nat
  | ret _, _ => 0
  | lock k, s => k.cost h c s
  | unlock k, s => k.cost h c s
  | trylock k, s => (k true).cost h c s
  | create k, s => (k 1).cost h c s
  | cancel _ k, s => k.cost h c s
  | op e k, s => c e s + (k (h e s).1).cost h c (h e s).2

/-- Every operation of the run satisfies `ok` in the state in which it is done. -/
def Along (h : (e : E) → σ → R e × σ) (ok : E → σ → Prop) : Prog E R α → σ → Prop
  | ret _, _ => True
  | lock k, s => k.Along h ok s
  | unlock k, s => k.Along h ok s
  | trylock k, s => (k true).Along h ok s
  | create k, s => (k 1).Along h ok s
  | cancel _ k, s => k.Along h ok s
  | op e k, s => ok e s ∧ (k (h e s).1).Along h ok (h e s).2

variable {h : (e : E) → σ → R e × σ} {h' : (e : E) → τ → R e × τ} {c : E → σ → Nat} {ok : E → σ → Prop}

@[simp] theorem cost_pure (a : α) (s : σ) : (pure a : Prog E R α).cost h c s = 0 := rfl

@[simp] theorem cost_bind (p : Prog E R α) (f : α → Prog E R β) (s : σ) :
    (p >>= f).cost h c s = p.cost h c s + (f (p.run h s).1).cost h c (p.run h s).2 := by
  show (p.bind f).cost h c s = _
  induction p generalizing s with
  | ret a => exact (Nat.zero_add _).symm
  | lock k ih => exact ih s
  | unlock k ih => exact ih s
  | trylock k ih => exact ih true s
  | create k ih => exact ih 1 s
  | cancel t k ih => exact ih s
  | op e k ih =>
    have hk := ih (h e s).1 (h e s).2
    show c e s + ((k (h e s).1).bind f).cost h c (h e s).2 = c e s + _ + _
    rw [hk, Nat.add_assoc]
    rfl

@[simp] theorem along_pure (a : α) (s : σ) : (pure a : Prog E R α).Along h ok s := trivial

@[simp] theorem along_bind (p : Prog E R α) (f : α → Prog E R β) (s : σ) :
    (p >>= f).Along h ok s ↔ p.Along h ok s ∧ (f (p.run h s).1).Along h ok (p.run h s).2 := by
  show (p.bind f).Along h ok s ↔ _
  induction p generalizing s with
  | ret a => exact (iff_of_eq (true_and _)).symm
  | lock k ih => exact ih s
  | unlock k ih => exact ih s
  | trylock k ih => exact ih true s
  | create k ih => exact ih 1 s
  | cancel t k ih => exact ih s
  | op e k ih => exact (and_congr_right fun _ => ih _ _).trans and_assoc.symm

theorem Along.mono {ok' : E → σ → Prop} {p : Prog E R α} {s : σ} (hp : p.Along h ok s)
    (hle : ∀ e s, ok e s → ok' e s) : p.Along h ok' s := by
  induction p generalizing s with
  | ret a => trivial
  | lock k ih => exact ih hp
  | unlock k ih => exact ih hp
  | trylock k ih => exact ih true hp
  | create k ih => exact ih 1 hp
  | cancel t k ih => exact ih hp
  | op e k ih => exact ⟨hle e s hp.1, ih _ hp.2⟩

/-- **Simulation.**  Surroundings that agree on the operations of a run, with a budget that covers it, give the same
result, and what is left of the budget. -/
theorem run_sim {I : Nat → τ → σ → Prop}
    (hstep : ∀ e n t s, ok e s → I (c e s + n) t s → (h' e t).1 = (h e s).1 ∧ I n (h' e t).2 (h e s).2)
    {p : Prog E R α} {n : Nat} {t : τ} {s : σ} (hok : p.Along h ok s) (hI : I (p.cost h c s + n) t s) :
    (p.run h' t).1 = (p.run h s).1 ∧ I n (p.run h' t).2 (p.run h s).2 := by
  induction p generalizing t s with
  | ret a =>
    rw [cost, Nat.zero_add] at hI
    exact ⟨rfl, hI⟩
  | lock k ih => exact ih hok hI
  | unlock k ih => exact ih hok hI
  | trylock k ih => exact ih true hok hI
  | create k ih => exact ih 1 hok hI
  | cancel u k ih => exact ih hok hI
  | op e k ih =>
    rw [cost, Nat.add_assoc] at hI
    obtain ⟨hanswer, hnext⟩ := hstep e _ t s hok.1 hI
    show ((k (h' e t).1).run h' (h' e t).2).1 = _ ∧ I n ((k (h' e t).1).run h' (h' e t).2).2 _
    rw [hanswer]
    exact ih _ hok.2 hnext

/-! ### Watching a run -/

/-- The handler `h`, which also keeps account of whether every operation has satisfied `ok`. -/
def watch (h : (e : E) → σ → R e × σ) (ok : E → σ → Prop) : (e : E) → σ × Prop → R e × σ × Prop := fun e s =>
  ((h e s.1).1, (h e s.1).2, s.2 ∧ ok e s.1)

theorem run_watch (p : Prog E R α) (s : σ × Prop) :
    p.run (watch h ok) s = ((p.run h s.1).1, (p.run h s.1).2, s.2 ∧ p.Along h ok s.1) := by
  induction p generalizing s with
  | ret a => exact congrArg (fun q => (a, s.1, q)) (and_true s.2).symm
  | lock k ih => exact ih s
  | unlock k ih => exact ih s
  | trylock k ih => exact ih true s
  | create k ih => exact ih 1 s
  | cancel t k ih => exact ih s
  | op e k ih =>
    refine (ih (h e s.1).1 _).trans ?_
    show (_, _, (s.2 ∧ ok e s.1) ∧ _) = (_, _, s.2 ∧ ok e s.1 ∧ _)
    rw [and_assoc]
    rfl

/-! ### Programs that end early -/

/-- The program ends when it has done an operation with which `stop` says it ends; then it has no result. -/
def haltAt (stop : E → Bool) : Prog E R α → Prog E R (Option α)
  | ret a => ret (some a)
  | lock k => lock (k.haltAt stop)
  | unlock k => unlock (k.haltAt stop)
  | trylock k => trylock fun b => (k b).haltAt stop
  | create k => create fun t => (k t).haltAt stop
  | cancel t k => cancel t (k.haltAt stop)
  | op e k => op e fun r => if stop e then ret none else (k r).haltAt stop

/-- A run that does no such operation goes to its end. -/
theorem run_haltAt {stop : E → Bool} {p : Prog E R α} {s : σ} (hp : p.Along h (fun e _ => stop e = false) s) :
    (p.haltAt stop).run h s = (some (p.run h s).1, (p.run h s).2) ∧
      (∀ ok' : E → σ → Prop, (p.haltAt stop).Along h ok' s ↔ p.Along h ok' s) ∧
      ∀ c' : E → σ → Nat, (p.haltAt stop).cost h c' s = p.cost h c' s := by
  induction p generalizing s with
  | ret a => exact ⟨rfl, fun _ => Iff.rfl, fun _ => rfl⟩
  | lock k ih => exact ih hp
  | unlock k ih => exact ih hp
  | trylock k ih => exact ih true hp
  | create k ih => exact ih 1 hp
  | cancel u k ih => exact ih hp
  | op e k ih =>
    obtain ⟨hrun, halong, hcost⟩ := ih _ hp.2
    have hgo : ∀ r, (if stop e then ret none else (k r).haltAt stop) = (k r).haltAt stop := fun r => by
      rw [hp.1]
      rfl
    simp only [haltAt, hgo]
    exact ⟨hrun, fun ok' => and_congr_right fun _ => halong ok', fun c' => congrArg (c' e s + ·) (hcost c')⟩

/-! ### Where a run ends -/

/-- From `s` the program gives `a` and the state `s'`, and every operation on the way satisfies `ok`. -/
structure Reaches (h : (e : E) → σ → R e × σ) (ok : E → σ → Prop) (p : Prog E R α) (s : σ) (a : α) (s' : σ) : Prop where
  along : p.Along h ok s
  run : p.run h s = (a, s')

namespace Reaches

variable {p : Prog E R α} {f : α → Prog E R β} {s s' s'' : σ} {a : α} {b : β}

theorem of_watch {q : Prop} (hrun : p.run (watch h ok) (s, True) = (a, s', q)) (hq : q) : Reaches h ok p s a s' := by
  rw [run_watch] at hrun
  obtain ⟨rfl, rfl, rfl⟩ := hrun
  exact ⟨hq.2, rfl⟩

theorem pure (a : α) (s : σ) : Reaches h ok (Pure.pure a : Prog E R α) s a s := ⟨trivial, rfl⟩

theorem bind (hp : Reaches h ok p s a s') (hf : Reaches h ok (f a) s' b s'') : Reaches h ok (p >>= f) s b s'' := by
  refine ⟨(along_bind p f s).2 ⟨hp.along, ?_⟩, ?_⟩
  · rw [hp.run]
    exact hf.along
  · rw [run_bind, hp.run]
    exact hf.run

theorem op {e : E} (he : ok e s) : Reaches h ok (Prog.op e .ret) s (h e s).1 (h e s).2 := ⟨⟨he, trivial⟩, rfl⟩

end Reaches

/-! ### Programs and functions -/

section Functions

variable {S γ δ : Type} {I J K : σ → S → Prop} {φ : γ → α} {ψ : δ → β}

/-- From states related by `I` the program reaches what the function `m` gives, seen through `φ`, and states related
by `J`. -/
def Implements (h : (e : E) → σ → R e × σ) (ok : E → σ → Prop) (I J : σ → S → Prop) (φ : γ → α) (p : Prog E R α)
    (m : StateM S γ) : Prop :=
  ∀ s x, I s x → ∃ s', Reaches h ok p s (φ (m x).1) s' ∧ J s' (m x).2

namespace Implements

theorem pure (φ : γ → α) (c : γ) : Implements h ok I I φ (Pure.pure (φ c) : Prog E R α) (Pure.pure c : StateM S γ) :=
  fun s _ hI => ⟨s, .pure _ s, hI⟩

theorem bind {p : Prog E R α} {m : StateM S γ} {f : α → Prog E R β} {g : γ → StateM S δ}
    (hp : Implements h ok I J φ p m) (hf : ∀ c, Implements h ok J K ψ (f (φ c)) (g c)) :
    Implements h ok I K ψ (p >>= f) (m >>= g) := by
  intro s x hI
  obtain ⟨s', hreach, hJ⟩ := hp s x hI
  obtain ⟨s'', hreach', hK⟩ := hf (m x).1 s' (m x).2 hJ
  exact ⟨s'', hreach.bind hreach', hK⟩

theorem ite {c : Prop} [Decidable c] {p q : Prog E R α} {m n : StateM S γ} (hp : c → Implements h ok I J φ p m)
    (hq : ¬ c → Implements h ok I J φ q n) : Implements h ok I J φ (if c then p else q) (if c then m else n) := by
  split
  · exact hp ‹_›
  · exact hq ‹_›

/-- The function may look at its result in the same way. -/
theorem through {p : Prog E R α} {m : StateM S γ} (hp : Implements h ok I J φ p m) :
    Implements h ok I J id p (do return φ (← m)) := hp

/-- A program whose result is looked at through an injection. -/
theorem of_map {p : Prog E R α} {m : StateM S γ} {f : α → β} (hf : f.Injective)
    (hp : Implements h ok I J (f ∘ φ) (p >>= fun a => Pure.pure (f a)) m) : Implements h ok I J φ p m := by
  intro s x hI
  obtain ⟨s', hreach, hJ⟩ := hp s x hI
  have hrun := hreach.run
  rw [run_bind, run_pure, Prod.mk.injEq] at hrun
  exact ⟨s', ⟨((along_bind _ _ _).1 hreach.along).1, Prod.ext (hf hrun.1) hrun.2⟩, hJ⟩

end Implements

end Functions

end Prog

end Pthread
