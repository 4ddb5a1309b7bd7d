import ZkClient.Exclusion
import ZkClient.Commands

/-!
# Reconnecting beside a ping thread

The command thread resets the client and connects again while a ping thread runs its loop.  `reset_zkclient` frees
`c->lock` whoever holds it and cancels the ping thread without waiting for it; the ping thread dies at some later
cancellation point, with the lock if it has taken it by then, or goes on beside the next ping thread.

`Orderly` names the steps that a run must not take: a ping thread takes the lock after the reset has freed it and
before the cancellation, or after its own cancellation; `do_connect` starts a ping thread while an earlier one is alive.
Without these steps no lock is left with a thread that is cancelled, and only the newest ping thread uses the connection
(`pinging_recovered`).
-/

namespace ZkClient

open Pthread

/-- What a thread takes up, with the memory that it meets: a reconnect, or a round of the ping loop. -/
inductive Task where
  | reconnect (H : Heap)
  | round (H : Heap)

def Task.prog : Task → Zk Bool
  | reconnect H => do
    ZkClient.reconnect H
    return true
  | round H => doPingLoop H

/-- The command thread is thread 0, the other threads are ping threads, and `c->ping_tid` is what they share.  Every
other answer is possible, and `exit` has none. -/
def pinging : System Eff Eff.Resp Task Nat where
  prog := Task.prog
  takes t j := match j with
    | .reconnect _ => t = 0
    | .round _ => t ≠ 0
  effect _ e tid r := match e, r with
    | .pingTid, r => if r = tid then [tid] else []
    | .store (.pingTid t), _ => [t]
    | .exit, _ => []
    | _, _ => [tid]
  cancelPoint e := match e with
    | .sendRequest _ | .recvResponse | .poll _ _ | .usleep => true
    | _ => false

/-- The ping thread of the first connection is about to start a round. -/
def pingingStart : State Eff Eff.Resp Task Nat where
  threads t := if t < 2 then .idle else .gone
  owner := none
  cancelled _ := false
  fresh := 2
  shared := 1

/-- The lock is not with a thread that is cancelled or has ended, and only the newest ping thread is exchanging. -/
structure Recovered (s : State Eff Eff.Resp Task Nat) : Prop where
  lock : ∀ t, s.owner = some t → s.cancelled t = false ∧ s.threads t ≠ .gone
  pings : ∀ t u, 0 < t → t < u → u < s.fresh → exchanging (s.threads t) = false

/-- Between the unlock and the `pthread_cancel` of `reset_zkclient`. -/
def cancelling : Thread Eff Eff.Resp Task → Bool
  | .ready _ (.op .pingTid _) => true
  | .inside _ .pingTid _ => true
  | .ready _ (.cancel _ _) => true
  | _ => false

/-- A ping thread takes the lock only when it is not cancelled and the command thread is not about to cancel one;
`pthread_create` is called when all earlier ping threads have ended. -/
def Orderly (s : State Eff Eff.Resp Task Nat) : Act Eff Eff.Resp Task → Prop
  | .go t =>
    (∀ j k, t ≠ 0 → s.threads t = .ready j (.lock k) → s.cancelled t = false ∧ cancelling (s.threads 0) = false) ∧
      ∀ j k, s.threads t = .ready j (.create k) → ∀ u, 0 < u → u < s.fresh → s.threads u = .gone
  | _ => True

/-! ### The program of the command thread -/

/-- Free the mutex before a ping thread is cancelled; the phase says that the thread has just freed it.  The jobs of the
command thread do not end it. -/
def guarding : Discipline Eff Eff.Resp Bool where
  stop more _ := more = true
  lock _ _ := False
  unlock _ free := free = true
  trylock _ free := free = false
  create _ free := free = false
  cancel t free free' := (t ≠ 0 ∧ free = true) ∧ free' = false
  enter e free free' := (e = .pingTid → free = true) ∧ free' = (free && decide (e = .pingTid))
  leave _ _ free free' := free' = free

section Guarding

variable {α β : Type}

private theorem guarding_op {Q : α → Bool → Prop} {e : Eff} {k : e.Resp → Zk α} {free : Bool} (he : e ≠ .pingTid)
    (hk : ∀ r, (k r).Follows guarding Q false) : (Prog.op e k).Follows guarding Q free := by
  refine ⟨false, ⟨fun h => absurd h he, by simp [he]⟩, ?_⟩
  rintro r free' rfl
  exact hk r

/-- The program does not cancel, and ends with the mutex not just freed. -/
private def Calm (p : Zk α) : Prop := p.Follows guarding (fun _ free => free = false) false

private theorem Calm.bind {p : Zk α} {f : α → Zk β} (hp : Calm p) (hf : ∀ a, Calm (f a)) : Calm (p >>= f) := by
  refine Prog.Follows.bind hp ?_
  rintro a free rfl
  exact hf a

private theorem calm_plain {p : Zk α} (hp : p.Plain (· ≠ .pingTid)) : Calm p :=
  hp.follows (fun e he => ⟨⟨fun h => absurd h he, by simp [he]⟩, fun _ _ h => h⟩) fun _ => rfl

private theorem calm_quiet {p : Zk α} (hp : Quiet p) : Calm p := by
  refine calm_plain (hp.mono fun e he hne => ?_)
  rw [hne] at he
  exact he

private theorem calm_op {e : Eff} {k : e.Resp → Zk α} (he : e ≠ .pingTid) (hk : ∀ r, Calm (k r)) : Calm (.op e k) :=
  guarding_op he hk

variable {H : Heap}

private theorem calm_authenticate : Calm (authenticate H) :=
  calm_plain (plain_authenticate nofun nofun nofun nofun nofun nofun nofun)

private theorem calm_startPingThread : Calm startPingThread :=
  ⟨false, rfl, fun _ => calm_op nofun fun _ => rfl⟩

private theorem calm_connectTo (server : Bytes) : Calm (connectTo H server) := by
  unfold connectTo
  cases strrchr server 58 with
  | none => exact rfl
  | some pos =>
    have hconnect : Calm (do
        let c ← perform .load
        let sock ← connectServer (server.take pos) (atoi (server.drop (pos + 1))) c.connectTimeout
        if sock = zkError then return false
        perform (.store (.sock sock))
        perform (.store (.state zkStateConnected))
        let rc ← authenticate H
        if rc = zkOk then do
          startPingThread
          perform (.store (.state zkStateAuthed))
          return true
        else return false : Zk Bool) := by
      refine calm_op nofun fun c => (calm_quiet (quiet_connectServer _ _ _)).bind fun sock => ?_
      refine Prog.follows_ite (fun _ => rfl) fun _ => calm_op nofun fun _ => calm_op nofun fun _ => ?_
      refine calm_authenticate.bind fun rc => Prog.follows_ite (fun _ => ?_) fun _ => rfl
      exact calm_startPingThread.bind fun _ => calm_op nofun fun _ => rfl
    exact Prog.follows_ite (fun _ => calm_op nofun fun _ => hconnect) fun _ => hconnect

private theorem calm_doConnect : Calm (doConnect H) := by
  have hloop : ∀ (servers : List Bytes) (retries start : Nat), Calm (connectLoop H servers retries start) := by
    intro servers retries
    induction retries with
    | zero => exact fun _ => rfl
    | succ retries ih =>
      exact fun start => (calm_connectTo _).bind fun connected =>
        Prog.follows_ite (fun _ => rfl) fun _ => ih (start + 1)
  exact calm_op nofun fun _ => calm_op nofun fun _ => hloop _ _ _

private theorem calm_resetZkclient : Calm (resetZkclient H) := by
  rw [resetZkclient_eq]
  refine ⟨false, rfl, fun _ => ⟨true, rfl, true, ⟨fun _ => rfl, rfl⟩, ?_⟩⟩
  rintro t free rfl
  have hclose : ∀ free, (closeSession H).Follows guarding (fun _ free => free = false) free := by
    intro free
    have hstore : Calm (perform (.store (.sock (-1))) >>= fun _ => clearSession H) :=
      calm_op nofun fun _ => calm_quiet quiet_clearSession
    exact guarding_op nofun fun c => Prog.follows_ite (fun _ => calm_op nofun fun _ => hstore) fun _ => hstore
  -- the cancellation follows the unlock, with only the read of `c->ping_tid` in between
  exact Prog.follows_ite (fun ht => ⟨false, ⟨⟨ht, rfl⟩, rfl⟩, hclose false⟩) fun _ => hclose _

/-- A reconnect frees the mutex before it cancels a ping thread. -/
private theorem guarding_reconnect : (Task.prog (.reconnect H)).Follows guarding guarding.stop false := by
  have hreconnect : Calm (reconnect H) := calm_resetZkclient.bind fun _ => calm_doConnect.bind fun rc =>
    Prog.follows_ite (fun _ => calm_op nofun fun _ => calm_op nofun fun _ => rfl) fun _ => calm_op nofun fun _ => rfl
  exact Prog.Follows.bind hreconnect fun _ _ _ => rfl

end Guarding

/-- The ping loop copes with every answer. -/
def AnyAnswer (_ : Task) (e : Eff) (_ : e.Resp) : Prop := True

/-- A round of the ping loop locks and unlocks in turn. -/
private theorem locking_round {H : Heap} : (Task.prog (.round H)).Follows (.locking (AnyAnswer (.round H)) Eff.Transfers)
    (fun _ held => held = false) false := by
  have hend : (do
      perform .usleep
      return true : Zk Bool).Follows (.locking (AnyAnswer (.round H)) Eff.Transfers) (fun _ held => held = false)
        false := locking_op False.elim fun _ _ => rfl
  refine locking_op False.elim fun c _ => Prog.follows_ite (fun _ => rfl) fun _ => ?_
  refine locking_op False.elim fun now _ => locking_op False.elim fun c _ => ?_
  have hdue : (if (c.sessionTimeout.toInt.tdiv 1000).tdiv 6 ≤ asInt now - c.lastPing then do
        let _ ← zkPing H
        perform (.store (.lastPing (asInt now)))
        perform .usleep
        return true
      else do
        perform .usleep
        return true : Zk Bool).Follows (.locking (AnyAnswer (.round H)) Eff.Transfers) (fun _ held => held = false)
        false := by
    refine Prog.follows_ite (fun _ => ?_) fun _ => hend
    refine locking_ping.bind ?_
    rintro rc held rfl
    exact locking_op False.elim fun _ _ => hend
  exact Prog.follows_ite (fun _ => locking_op False.elim fun _ _ => hdue) fun _ => hdue

/-! ### The invariant -/

/-- A thread that is not about to cancel another one does not need the mutex to be free. -/
private theorem follows_forget {x : Thread Eff Eff.Resp Task} {free : Bool}
    (h : x.Follows (fun _ => guarding) false free) (hx : cancelling x = false) :
    x.Follows (fun _ => guarding) false false := by
  cases x with
  | idle => rfl
  | gone => rfl
  | ready j p =>
    cases p with
    | ret a => exact h
    | lock k => exact h
    | unlock k => exact h
    | trylock k => exact h
    | create k => exact h
    | cancel t k => cases hx
    | op e k =>
      have hne : e ≠ .pingTid := fun he => by
        subst he
        cases hx
      obtain ⟨free', ⟨-, rfl⟩, hk⟩ := h
      refine guarding_op hne fun r => hk r _ ?_
      simp [guarding, hne]
  | inside j e k =>
    have hne : e ≠ .pingTid := fun he => by
      subst he
      cases hx
    obtain ⟨⟨free₀, hfree₀, rfl⟩, hk⟩ := h
    refine ⟨⟨false, fun h => absurd h hne, by simp⟩, fun r free' h => hk r free' ?_⟩
    rw [show free' = false from h]
    simp [guarding, hne]

/-- What orderly steps preserve. -/
structure Secured (s : State Eff Eff.Resp Task Nat) : Prop where
  ping : ∀ t, t ≠ 0 → ∃ held, (s.threads t).Follows (fun j => .locking (AnyAnswer j) Eff.Transfers) false held ∧
    (s.owner = some t → held = true)
  command : ∃ free, (s.threads 0).Follows (fun _ => guarding) false free ∧ (free = true → s.owner = none)
  alive : s.threads 0 ≠ .gone
  owner : ∀ t, s.owner = some t → s.cancelled t = false
  uncancelled : s.cancelled 0 = false
  unborn : ∀ t, s.fresh ≤ t → s.threads t = .gone
  pings : ∀ t u, 0 < t → t < u → u < s.fresh → s.threads t = .gone

namespace Secured

variable {s s' : State Eff Eff.Resp Task Nat}

theorem recovered (hs : Secured s) : Recovered s := by
  refine ⟨fun t ht => ⟨hs.owner t ht, fun hgone => ?_⟩, fun t u h0 htu hu => ?_⟩
  · by_cases h0 : t = 0
    · subst h0
      exact hs.alive hgone
    · obtain ⟨held, hfollows, howner⟩ := hs.ping t h0
      rw [hgone] at hfollows
      cases hfollows.symm.trans (howner ht)
  · rw [hs.pings t u h0 htu hu]
    rfl

/-- The threads that have ended stay so when another thread goes on. -/
private theorem gone_set {t u : Nat} {x : Thread Eff Eff.Resp Task} (ht : s.threads t ≠ .gone)
    (hu : s.threads u = .gone) : (s.set t x).threads u = .gone := by
  have hut : u ≠ t := fun h => ht (h ▸ hu)
  rw [State.set_other s x hut, hu]

/-- A step of a ping thread. -/
private theorem step_ping (hs : Secured s) (x : Thread Eff Eff.Resp Task) (tid : Nat) {t : Nat} {owner : Option Nat}
    {held : Bool} (h0 : t ≠ 0) (ht : s.threads t ≠ .gone)
    (hx : x.Follows (fun j => .locking (AnyAnswer j) Eff.Transfers) false held) (hheld : owner = some t → held = true)
    (howner : owner = s.owner ∨ owner = none ∨
      owner = some t ∧ s.cancelled t = false ∧ cancelling (s.threads 0) = false) :
    Secured { s.set t x with owner, shared := tid } := by
  have h0t : (s.set t x).threads 0 = s.threads 0 := State.set_other s x (Ne.symm h0)
  refine ⟨fun u hu => ?_, ?_, fun h => hs.alive (h0t ▸ h), fun u hu => ?_, hs.uncancelled,
    fun u hu => gone_set ht (hs.unborn u hu), fun u v hu huv hv => gone_set ht (hs.pings u v hu huv hv)⟩
  · by_cases hut : u = t
    · subst hut
      refine ⟨held, ?_, hheld⟩
      show ((s.set u x).threads u).Follows _ _ _
      rwa [State.set_same]
    · obtain ⟨held', hfollows, hheld'⟩ := hs.ping u hu
      refine ⟨held', ?_, fun h => hheld' ?_⟩
      · show ((s.set t x).threads u).Follows _ _ _
        rwa [State.set_other s x hut]
      · rcases howner with rfl | rfl | ⟨rfl, -, -⟩
        · exact h
        · cases h
        · exact absurd (Option.some.inj h).symm hut
  · obtain ⟨free, hguard, hfree⟩ := hs.command
    show ∃ free, ((s.set t x).threads 0).Follows (fun _ => guarding) false free ∧ (free = true → owner = none)
    rw [h0t]
    rcases howner with rfl | rfl | ⟨rfl, -, hidle⟩
    · exact ⟨free, hguard, hfree⟩
    · exact ⟨free, hguard, fun _ => rfl⟩
    · exact ⟨false, follows_forget hguard hidle, nofun⟩
  · rcases howner with rfl | rfl | ⟨rfl, hcancel, -⟩
    · exact hs.owner u hu
    · cases hu
    · cases hu
      exact hcancel

/-- A step of the command thread that neither starts nor cancels a thread. -/
private theorem step_command (hs : Secured s) (x : Thread Eff Eff.Resp Task) (tid : Nat) (free : Bool)
    {owner : Option Nat} (hx : x.Follows (fun _ => guarding) false free) (halive : x ≠ .gone)
    (hfree : free = true → owner = none) (howner : owner = s.owner ∨ owner = none ∨ owner = some 0) :
    Secured { s.set 0 x with owner, shared := tid } := by
  have h00 : (s.set 0 x).threads 0 = x := State.set_same ..
  refine ⟨fun u hu => ?_, ⟨free, ?_, hfree⟩, ?_, fun u hu => ?_, hs.uncancelled,
    fun u hu => gone_set hs.alive (hs.unborn u hu), fun u v hu huv hv => gone_set hs.alive (hs.pings u v hu huv hv)⟩
  · obtain ⟨held, hfollows, hheld⟩ := hs.ping u hu
    refine ⟨held, ?_, fun h => hheld ?_⟩
    · show ((s.set 0 x).threads u).Follows _ _ _
      rwa [State.set_other s x hu]
    · rcases howner with rfl | rfl | rfl
      · exact h
      · cases h
      · exact absurd (Option.some.inj h).symm hu
  · show ((s.set 0 x).threads 0).Follows _ _ free
    rwa [h00]
  · show (s.set 0 x).threads 0 ≠ .gone
    rwa [h00]
  · rcases howner with rfl | rfl | rfl
    · exact hs.owner u hu
    · cases hu
    · cases hu
      exact hs.uncancelled

/-- The command thread cancels a ping thread when the mutex is free. -/
private theorem step_cancel (hs : Secured s) {x : Thread Eff Eff.Resp Task} {t : Nat}
    (hx : x.Follows (fun _ => guarding) false false) (halive : x ≠ .gone) (ht : t ≠ 0) (hfree : s.owner = none) :
    Secured { s.set 0 x with cancelled := Function.update s.cancelled t true } := by
  have hs' := hs.step_command x s.shared false hx halive nofun (.inl rfl)
  refine ⟨hs'.ping, hs'.command, hs'.alive, fun u hu => ?_, ?_, hs'.unborn, hs'.pings⟩
  · cases hfree.symm.trans hu
  · show Function.update s.cancelled t true 0 = false
    rw [Function.update_of_ne (Ne.symm ht)]
    exact hs.uncancelled

/-- The command thread starts a ping thread when the earlier ones have ended. -/
private theorem step_create (hs : Secured s) {x : Thread Eff Eff.Resp Task}
    (hx : x.Follows (fun _ => guarding) false false) (halive : x ≠ .gone)
    (hearlier : ∀ u, 0 < u → u < s.fresh → s.threads u = .gone) :
    Secured { (s.set s.fresh .idle).set 0 x with fresh := s.fresh + 1 } := by
  have hgone := hs.unborn s.fresh le_rfl
  have hfresh : s.fresh ≠ 0 := fun h => hs.alive (h ▸ hgone)
  have h00 : ((s.set s.fresh .idle).set 0 x).threads 0 = x := State.set_same ..
  have hother : ∀ u, u ≠ 0 → u ≠ s.fresh → ((s.set s.fresh .idle).set 0 x).threads u = s.threads u := fun u h0 hu => by
    rw [State.set_other _ x h0, State.set_other s _ hu]
  refine ⟨fun u hu => ?_, ⟨false, ?_, nofun⟩, ?_, hs.owner, hs.uncancelled, fun u hu => ?_, fun u v hu huv hv => ?_⟩
  · obtain ⟨held, hfollows, hheld⟩ := hs.ping u hu
    refine ⟨held, ?_, hheld⟩
    show (((s.set s.fresh .idle).set 0 x).threads u).Follows _ _ _
    by_cases hnew : u = s.fresh
    · subst hnew
      rw [hgone] at hfollows
      rw [State.set_other _ x hu, State.set_same]
      exact hfollows
    · rwa [hother u hu hnew]
  · show (((s.set s.fresh .idle).set 0 x).threads 0).Follows _ _ false
    rwa [h00]
  · show ((s.set s.fresh .idle).set 0 x).threads 0 ≠ .gone
    rwa [h00]
  · have hlt : s.fresh < u := hu
    show ((s.set s.fresh .idle).set 0 x).threads u = .gone
    rw [hother u (by omega) (by omega)]
    exact hs.unborn u (by omega)
  · have hlt : v < s.fresh + 1 := hv
    show ((s.set s.fresh .idle).set 0 x).threads u = .gone
    rw [hother u (by omega) (by omega)]
    exact hearlier u hu (by omega)

/-- The next step of the command thread. -/
private theorem step_advance (hs : Secured s) {j : Task} {p : Zk Bool} (hth : s.threads 0 = .ready j p)
    (hcreate : ∀ k, p = .create k → ∀ u, 0 < u → u < s.fresh → s.threads u = .gone)
    (h : System.advance s 0 j p = some s') : Secured s' := by
  obtain ⟨free, hguard, hfree⟩ := hs.command
  rw [hth] at hguard
  cases p with
  | ret more =>
    cases h
    rw [show more = true from hguard]
    exact hs.step_command .idle s.shared false rfl (by simp) (by simp) (.inl rfl)
  | lock k =>
    obtain ⟨free', hfalse, -⟩ := hguard
    exact hfalse.elim
  | unlock k =>
    obtain ⟨free', rfl, hk⟩ := hguard
    cases h
    exact hs.step_command (.ready j k) s.shared true hk (by simp) (fun _ => rfl) (.inr (.inl rfl))
  | trylock k =>
    obtain ⟨free', rfl, hk⟩ := hguard
    simp only [System.advance] at h
    split at h
    · cases h
      exact hs.step_command (.ready j (k true)) s.shared false (hk true) (by simp) (by simp) (.inr (.inr rfl))
    · cases h
      exact hs.step_command (.ready j (k false)) s.shared false (hk false) (by simp) (by simp) (.inl rfl)
  | create k =>
    obtain ⟨free', rfl, hk⟩ := hguard
    cases h
    exact hs.step_create (x := .ready j (k s.fresh)) (hk s.fresh) (by simp) (hcreate k rfl)
  | cancel t k =>
    obtain ⟨free', ⟨⟨ht, hf⟩, rfl⟩, hk⟩ := hguard
    cases h
    exact hs.step_cancel (x := .ready j k) hk (by simp) ht (hfree hf)
  | op e k =>
    obtain ⟨free', ⟨he, rfl⟩, hk⟩ := hguard
    cases h
    refine hs.step_command (.inside j e k) s.shared _ ⟨⟨free, he, rfl⟩, hk⟩ (by simp) (fun h => hfree ?_) (.inl rfl)
    exact (Bool.and_eq_true_iff.1 h).1

theorem step {a : Act Eff Eff.Resp Task} (hs : Secured s) (ha : Orderly s a) (h : pinging.Step s a s') :
    Secured s' := by
  cases h with
  | @take t j hth htakes =>
    by_cases h0 : t = 0
    · subst h0
      cases j with
      | reconnect H => exact hs.step_command (.ready _ _) s.shared false guarding_reconnect nofun nofun (.inl rfl)
      | round H => cases htakes
    · cases j with
      | reconnect H => exact absurd (of_decide_eq_true (p := t = 0) htakes) h0
      | round H =>
        obtain ⟨held, hfollows, hheld⟩ := hs.ping t h0
        rw [hth] at hfollows
        rw [show held = false from hfollows] at hheld
        exact hs.step_ping (.ready _ _) s.shared h0 (by simp [hth]) locking_round hheld (.inl rfl)
  | @go t j p s' hth hadv =>
    by_cases h0 : t = 0
    · subst h0
      exact hs.step_advance hth (fun k hp => ha.2 j k (hp ▸ hth)) hadv
    · obtain ⟨held, hfollows, hheld⟩ := hs.ping t h0
      rw [hth] at hfollows
      have hp : p.Follows (.locking (AnyAnswer j) Eff.Transfers) (fun _ held => held = false) held := hfollows
      obtain ⟨x, owner, held', rfl, hx, hcase⟩ := System.advance_locking hp hadv
      rcases hcase with ⟨rfl, rfl⟩ | ⟨⟨k, rfl⟩, -, rfl, rfl⟩ | ⟨-, rfl, rfl⟩
      · exact hs.step_ping x s.shared h0 (by simp [hth]) hx hheld (.inl rfl)
      · exact hs.step_ping x s.shared h0 (by simp [hth]) hx (fun _ => rfl) (.inr (.inr ⟨rfl, ha.1 j k h0 hth⟩))
      · exact hs.step_ping x s.shared h0 (by simp [hth]) hx nofun (.inr (.inl rfl))
  | @answer t j e k r i shared hth heff =>
    by_cases h0 : t = 0
    · subst h0
      obtain ⟨free, hguard, hfree⟩ := hs.command
      rw [hth] at hguard
      exact hs.step_command (.ready j (k r)) shared free (hguard.2 r free rfl) nofun hfree (.inl rfl)
    · obtain ⟨held, hfollows, hheld⟩ := hs.ping t h0
      rw [hth] at hfollows
      exact hs.step_ping (.ready j (k r)) shared h0 (by simp [hth]) (hfollows.2 r held ⟨trivial, rfl⟩) hheld (.inl rfl)
  | @die t j e k hth hcancelled hpoint =>
    have h0 : t ≠ 0 := fun h => by
      rw [h, hs.uncancelled] at hcancelled
      cases hcancelled
    have hnot : s.owner ≠ some t := fun h => by
      rw [hs.owner t h] at hcancelled
      cases hcancelled
    exact hs.step_ping .gone s.shared h0 (by simp [hth]) rfl (fun h => absurd h hnot) (.inl rfl)

end Secured

/-! ### Runs -/

/-- In a run of orderly steps no lock is left with a thread that is cancelled or has ended, and only the newest ping
thread is exchanging. -/
theorem pinging_recovered {s : State Eff Eff.Resp Task Nat} (hrun : pinging.Run Orderly pingingStart s) :
    Recovered s := by
  have hthreads : ∀ t, pingingStart.threads t = if t < 2 then .idle else .gone := fun _ => rfl
  have hstart : Secured pingingStart := by
    refine ⟨fun t _ => ⟨false, ?_, nofun⟩, ⟨false, rfl, nofun⟩, nofun, nofun, rfl, fun t ht => ?_,
      fun t u h0 htu hu => ?_⟩
    · rw [hthreads]
      split <;> rfl
    · have hlt : 2 ≤ t := ht
      rw [hthreads, if_neg (by omega)]
    · have hlt : u < 2 := hu
      omega
  have hs : Secured s := hrun.inv hstart fun _ _ _ hs ha hstep => hs.step ha hstep
  exact hs.recovered

/-- The client of a connection on descriptor 5 whose last ping is long ago. -/
private def overdue : Client := { initClient [] 60 3 0 0 1 with sock := 5 }

/-- A ping thread that gets as far as its lock. -/
private def aboutToPing : List (Act Eff Eff.Resp Task) :=
  [.take 1 (.round .plenty), .go 1, .answer 1 .load overdue 0, .go 1, .answer 1 .time 100 0, .go 1,
    .answer 1 .load overdue 0]

/-- The steps that neither take the lock nor start a thread. -/
private def quietSteps (s : State Eff Eff.Resp Task Nat) (a : Act Eff Eff.Resp Task) : Bool :=
  match a with
  | .go t => match s.threads t with
    | .ready _ (.lock _) => false
    | .ready _ (.create _) => false
    | _ => true
  | _ => true

/-- The ping thread dies before it pings, the reset having cancelled it. -/
theorem pinging_recovered_reset :
    ∃ s, pinging.Run Orderly pingingStart s ∧ s.cancelled 1 = true ∧ Recovered s := by
  have hreset : (pinging.runActs quietSteps (aboutToPing ++ [.take 0 (.reconnect .plenty), .go 0, .go 0, .go 0,
      .answer 0 .pingTid 1 0, .go 0]) pingingStart).any fun s => s.cancelled 1 := by decide +kernel
  obtain ⟨s, hs, hcancel⟩ := (Option.any_eq_true _ _).1 hreset
  have hrun : pinging.Run Orderly pingingStart s := by
    refine .of_acts (fun s a ha => ?_) .start hs
    cases a with
    | go t =>
      refine ⟨fun j k _ hth => ?_, fun j k hth => ?_⟩
      · simp [quietSteps, hth] at ha
      · simp [quietSteps, hth] at ha
    | _ => trivial
  exact ⟨s, hrun, hcancel, pinging_recovered hrun⟩

/-- In `do_connect`, so that `reset_zkclient` has returned. -/
def connecting : Thread Eff Eff.Resp Task → Bool
  | .inside _ .rand _ => true
  | _ => false

private def dead : Thread Eff Eff.Resp Task → Bool
  | .gone => true
  | _ => false

/-- The ping thread takes the lock between the unlock and the cancellation, and dies in `send_request`. -/
theorem reset_orphans_lock :
    ¬ ∀ s, pinging.Run (fun _ _ => True) pingingStart s → connecting (s.threads 0) → Recovered s := by
  intro hall
  let answered (e : Eff) (r : e.Resp) : List (Act Eff Eff.Resp Task) := [.go 0, .answer 0 e r 0]
  let acts : List (Act Eff Eff.Resp Task) := aboutToPing ++
    [.take 0 (.reconnect .plenty), .go 0, .go 0, .go 1, .go 1] ++ answered .pingTid 1 ++ [.go 0, .die 1] ++
    answered .load overdue ++ answered (.close 5) () ++ answered (.store (.sock (-1))) () ++
    answered (.store (.state zkStateInit)) () ++ answered (.store (.lastPing 0)) () ++
    answered (.store (.sessionId 0)) () ++ answered (.store (.lastZxid 0)) () ++
    answered (.store (.passwd { len := 16, buff := some (List.replicate 16 0) })) () ++ answered .load overdue ++ [.go 0]
  have horphan : (pinging.runActs (fun _ _ => true) acts pingingStart).any fun s =>
      connecting (s.threads 0) && decide (s.owner = some 1) && dead (s.threads 1) := by decide +kernel
  obtain ⟨s, hs, horphan⟩ := (Option.any_eq_true _ _).1 horphan
  simp only [Bool.and_eq_true, decide_eq_true_eq] at horphan
  obtain ⟨⟨hconnecting, howner⟩, hdead⟩ := horphan
  have hgone : s.threads 1 = .gone := by
    cases hth : s.threads 1 with
    | gone => rfl
    | _ => simp [dead, hth] at hdead
  have hrecovered := hall s (.of_acts (fun _ _ _ => trivial) .start hs) hconnecting
  exact (hrecovered.lock 1 howner).2 hgone

end ZkClient
