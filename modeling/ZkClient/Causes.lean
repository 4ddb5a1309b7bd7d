import ZkClient.Correlation

/-!
# Why a command reconnects

At the end of a command `processCommand` decides from the status of the command and from `c->last_err` whether it resets
the client and connects again.  Nothing clears `c->last_err` when a new connection is authenticated, so the decision can
rest on an error of an earlier one.

A `Ledger` is kept beside a run of commands, completions and pings.  It says for which requests there is a reason to
reconnect, and whether `c->last_err` is left over from before (`Ledger.stale`).  When no command relies on what is left
over, every reset has a reason among the requests of its own command and the pings of its connection
(`reset_warranted`).
-/

namespace ZkClient

open Pthread

/-- The codes for which `processCommand` reconnects, as a status or in `c->last_err`. -/
def Reconnects (err : Int) : Prop := err = zkSocketErr ∨ checkReconnect err

instance (err : Int) : Decidable (Reconnects err) := inferInstanceAs (Decidable (_ ∨ _))

/-! ### The threads -/

/-- Commands and completions on thread 0 and pings on the others, over the client that they share.  `sendRequest` and
`recvResponse` can fail in every way; without memory for the archive (the second way in which `recv_response` gives
none) `c->last_err` stays as it is. -/
def sessions : System Eff Eff.Resp Errand Client where
  prog := Errand.prog
  takes := relays.takes
  effect _ e c r := match e, r with
    | .load, r => if r = c then [c] else []
    | .pingTid, r => if r = c.pingTid then [c] else []
    | .store u, _ => [c.assign u]
    | .sendRequest _, rc =>
      if rc = zkOk then [c] else if rc = zkError ∨ rc = zkSocketErr then [c.assign (.lastErr rc)] else []
    | .recvResponse, none => [c.assign (.lastErr zkSocketErr), c]
    | .exit, _ => []
    | _, _ => [c]
  cancelPoint e := match e with
    | .sendRequest _ | .recvResponse | .poll _ _ | .usleep => true
    | _ => false

/-- The client `c` has been connected and has its ping thread; `c.lastErr` is what `new_client` has left there. -/
def sessionsStart (c : Client) : State Eff Eff.Resp Errand Client where
  threads t := if t < 2 then .idle else .gone
  owner := none
  cancelled _ := false
  fresh := 2
  shared := c

/-! ### The ledger -/

/-- What is recorded beside a run.  `own`: a request of the command under way has ended with a code to reconnect for.
`pinged`: so has a ping that was sent since the connection was authenticated; `current t`: the last ping of thread `t`
was sent since then.  `stale`: what `c->last_err` holds was not left there by a command or such a ping on this
connection.  `mending`: the command under way has begun to reconnect. -/
structure Ledger where
  own : Bool
  pinged : Bool
  current : Nat → Bool
  stale : Bool
  mending : Bool

/-- The connection has just been authenticated. -/
def Ledger.new : Ledger where
  own := false
  pinged := false
  current _ := false
  stale := true
  mending := false

/-- The code with which an answer ends the request of its thread: then `c->last_err` holds it. -/
def endCode (c : Client) (e : Eff) (r : e.Resp) (i : Nat) : Option Int :=
  match e, r with
  | .sendRequest _, rc => if rc = zkOk then none else some rc
  | .recvResponse, none => some (if i = 0 then zkSocketErr else c.lastErr)
  | .store (.lastErr err), _ => some err
  | _, _ => none

/-- About to execute `reset_zkclient`, which begins with `pthread_mutex_trylock`. -/
def resetting : Thread Eff Eff.Resp Errand → Bool
  | .ready j (.trylock _) => j.isCommand
  | _ => false

namespace Ledger

/-- A command is under way and has not begun to reconnect. -/
def busy (l : Ledger) (x : Thread Eff Eff.Resp Errand) : Bool := x.job.any Errand.isCommand && !l.mending

/-- The thread `t` has sent a ping, or received the reply that authenticates a new connection. -/
def exchanged (l : Ledger) (t : Nat) (e : Eff) (r : e.Resp) : Ledger :=
  match e, r with
  | .sendRequest _, _ => if t = 0 then l else { l with current := Function.update l.current t true }
  | .recvResponse, some _ =>
    if t = 0 ∧ l.mending then { l with pinged := false, current := fun _ => false, stale := true } else l
  | _, _ => l

/-- A request of the thread `t` has ended; `busy` says whether a request of thread 0 is one of a command. -/
def ended (l : Ledger) (busy : Bool) (t : Nat) (err : Int) : Ledger :=
  if t = 0 then
    if busy then { l with own := l.own || decide (Reconnects err), stale := false } else { l with stale := true }
  else if l.current t then { l with pinged := l.pinged || decide (Reconnects err), stale := false }
  else { l with stale := true }

/-- What a step adds to the ledger. -/
def note (l : Ledger) (s : State Eff Eff.Resp Errand Client) : Act Eff Eff.Resp Errand → Ledger
  | .take t _ => if t = 0 then { l with own := false, mending := false } else l
  | .go t => if t = 0 ∧ resetting (s.threads 0) then { l with mending := true, stale := true } else l
  | .answer t e r i =>
    let l' := l.exchanged t e r
    (endCode s.shared e r i).elim l' (l'.ended (l.busy (s.threads 0)) t)
  | .die _ => l

end Ledger

/-- A command that is about to reset the client has a reason: one of its own requests, or a ping that was sent since the
connection was authenticated, has ended with a code to reconnect for. -/
def Warranted (l : Ledger) (s : State Eff Eff.Resp Errand Client) : Prop :=
  resetting (s.threads 0) → l.mending = false → l.own ∨ l.pinged

/-- A command with this beginning does not rely on what it finds in `c->last_err`: its first request can be encoded, so
that `c->last_err` is assigned before it is looked at, it has too few arguments, or it sends no request and `err` is
not a code that `check_reconnect` lists. -/
def Opening.Ignores (H : Heap) (err : Int) : Opening → Prop
  | .tooFew => True
  | .still => checkReconnect err = false
  | .request opcode body => ∀ xid, 0 ≤ (encoded H opcode body xid).1

/-- A command that finds a code to reconnect for left over in `c->last_err` ignores it; and no ping that was sent before
the connection was authenticated ends with such a code while a command is under way. -/
def Considerate (l : Ledger) (s : State Eff Eff.Resp Errand Client) : Act Eff Eff.Resp Errand → Prop
  | .take _ (.command H args) =>
    l.stale = true → l.pinged = false → Reconnects s.shared.lastErr → (opening H args).Ignores H s.shared.lastErr
  | .answer t e r i =>
    t ≠ 0 → l.busy (s.threads 0) = true → (l.exchanged t e r).current t = false →
      ∀ err, endCode s.shared e r i = some err → ¬ Reconnects err
  | _ => True

/-! ### What a command knows -/

/-- What thread 0 knows of `c->last_err`.  Outside the commands and once it reconnects it is `free`.  A command begins
`old` when it must assign `c->last_err` before it looks at it, `spared` when it only must not see a listed code, and
otherwise `calm`: for a code to reconnect for there is a ping.  `warned` has a reason to reconnect, and `hot err` has
one of its own, the code that is in `c->last_err` unless a ping has assigned it. -/
inductive Standing where
  | free
  | old
  | spared
  | calm
  | warned
  | hot (err : Int)

namespace Standing

/-- After a request of the thread has ended. -/
def ended : Standing → Int → Standing
  | free, _ => free
  | warned, err => if Reconnects err then hot err else warned
  | _, err => if Reconnects err then hot err else calm

/-- After `c->last_err` has been read. -/
def seen : Standing → Int → Standing
  | spared, err => if checkReconnect err then warned else spared
  | calm, err => if Reconnects err then warned else calm
  | hot own, err => if err = own then hot own else warned
  | φ, _ => φ

/-- A request can begin. -/
def Begins (φ : Standing) : Prop := φ = old ∨ φ = calm ∨ φ = warned

/-- The last request has ended without a code to reconnect for, or this is the status. -/
def Told (rc : Int) (φ : Standing) : Prop :=
  φ = calm ∨ φ = warned ∨ ∃ own, φ = hot own ∧ Reconnects own ∧ Reconnects rc

/-- With this status of the command. -/
def Reported (status : Int) (φ : Standing) : Prop :=
  φ = calm ∧ ¬ Reconnects status ∨ φ = warned ∨ φ = hot status ∧ Reconnects status

end Standing

/-- Send requests from a standing in which they can begin, look at the client unless it may be old, and reset it for a
reason. -/
def deciding : Discipline Eff Eff.Resp Standing where
  stop _ φ := ∀ err, φ ≠ .hot err
  lock φ φ' := φ' = φ
  unlock φ φ' := φ' = φ
  trylock φ φ' := (φ = .free ∨ φ = .warned ∨ ∃ err, φ = .hot err) ∧ φ' = .free
  create φ φ' := φ' = φ
  cancel _ φ φ' := φ' = φ
  enter e φ φ' := (match e with
    | .sendRequest _ | .recvResponse | .store (.lastErr _) => φ = .free ∨ φ.Begins
    | .load => φ ≠ .old
    | _ => True) ∧ φ' = φ
  leave e r φ φ' := match e, r with
    | .sendRequest _, rc => φ' = if rc = zkOk then φ else φ.ended rc
    | .recvResponse, none => ∃ err, φ' = φ.ended err
    | .store (.lastErr err), _ => φ' = φ.ended err
    | .load, c => φ' = φ.seen c.lastErr
    | _, _ => φ' = φ

section Deciding

variable {α : Type} {H : Heap} {φ : Standing} {rc err : Int}

/-- Outside the commands, and once a command reconnects, everything may happen. -/
private theorem deciding_free (p : Zk α) {Q : α → Standing → Prop} (hQ : ∀ a, Q a .free) :
    p.Follows deciding Q .free := by
  induction p with
  | ret a => exact hQ a
  | lock k ih => exact ⟨.free, rfl, ih⟩
  | unlock k ih => exact ⟨.free, rfl, ih⟩
  | trylock k ih => exact ⟨.free, ⟨.inl rfl, rfl⟩, ih⟩
  | create k ih => exact ⟨.free, rfl, ih⟩
  | cancel t k ih => exact ⟨.free, rfl, ih⟩
  | op e k ih =>
    have henter : deciding.enter e .free .free := by
      refine ⟨?_, rfl⟩
      split
      · exact .inl rfl
      · exact .inl rfl
      · exact .inl rfl
      · nofun
      · trivial
    refine ⟨.free, henter, fun r φ' h => ?_⟩
    have hfree : φ' = .free := by
      simp only [deciding] at h
      split at h
      · exact h.trans (ite_self _)
      · obtain ⟨err, rfl⟩ := h
        rfl
      · exact h
      · exact h
      · exact h
    rw [hfree]
    exact ih r

private theorem ended_told (hφ : φ.Begins) (err : Int) : (φ.ended err).Told err := by
  by_cases hbad : Reconnects err
  · have hhot : φ.ended err = .hot err := by
      rcases hφ with rfl | rfl | rfl <;> exact if_pos hbad
    exact .inr (.inr ⟨err, hhot, hbad, hbad⟩)
  · rcases hφ with rfl | rfl | rfl
    · exact .inl (if_neg hbad)
    · exact .inl (if_neg hbad)
    · exact .inr (.inl (if_neg hbad))

private theorem told_ne_old (h : φ.Told rc) : φ ≠ .old := by
  rcases h with rfl | rfl | ⟨own, rfl, -⟩ <;> nofun

private theorem seen_reported (h : φ.Told rc) (err : Int) : (φ.seen err).Reported err := by
  rcases h with rfl | rfl | ⟨own, rfl, hown, -⟩
  · by_cases hbad : Reconnects err
    · exact .inr (.inl (if_pos hbad))
    · exact .inl ⟨if_neg hbad, hbad⟩
  · exact .inr (.inl rfl)
  · by_cases herr : err = own
    · subst herr
      exact .inr (.inr ⟨if_pos rfl, hown⟩)
    · exact .inr (.inl (if_neg herr))

private theorem reported_told (h : φ.Reported rc) : φ.Told rc := by
  rcases h with ⟨h, -⟩ | h | ⟨h, hrc⟩
  · exact .inl h
  · exact .inr (.inl h)
  · exact .inr (.inr ⟨rc, h, hrc, hrc⟩)

/-- Reading `c->last_err` forgets nothing that the status of the last request says. -/
private theorem seen_mono (h : φ.Told rc) (err : Int) : (φ.seen err).Told rc := by
  rcases seen_reported h err with ⟨hcalm, -⟩ | hwarned | ⟨hhot, hbad⟩
  · exact .inl hcalm
  · exact .inr (.inl hwarned)
  · refine .inr (.inr ⟨err, hhot, hbad, ?_⟩)
    rcases h with rfl | rfl | ⟨own, -, -, hrc⟩
    · simp only [Standing.seen] at hhot
      split_ifs at hhot
    · cases hhot
    · exact hrc

private theorem deciding_keeps (φ : Standing) : Keeps deciding φ := by
  refine ⟨rfl, rfl, fun e he => ?_⟩
  cases e with
  | getXid => exact ⟨⟨trivial, rfl⟩, fun _ _ h => h⟩
  | printf fmt args => exact ⟨⟨trivial, rfl⟩, fun _ _ h => h⟩
  | undefined f => exact ⟨⟨trivial, rfl⟩, fun _ _ h => h⟩
  | _ => exact he.elim

private theorem deciding_awaitReply (hok : rc = zkOk → φ.Begins) (hfail : rc ≠ zkOk → φ.Told rc) :
    (awaitReply rc).Follows deciding (Answered Standing.Begins Standing.Told) φ := by
  refine Prog.follows_ite hfail fun hrc => ?_
  have hφ : φ.Begins := hok (not_not.1 hrc)
  refine ⟨φ, ⟨.inr hφ, rfl⟩, fun r φ' h => ?_⟩
  cases r with
  | some ia =>
    rw [show φ' = φ from h]
    exact hφ
  | none =>
    obtain ⟨err, rfl⟩ := h
    refine ⟨_, ⟨told_ne_old (ended_told hφ err), rfl⟩, ?_⟩
    rintro c φ' rfl
    exact reported_told (seen_reported (ended_told hφ err) c.lastErr)

/-- An old standing needs a request that is sent. -/
private theorem deciding_exchange (oa : OArchive) (hφ : φ.Begins) (hrc : φ = .old → 0 ≤ rc) :
    (exchange rc oa).Follows deciding (Answered Standing.Begins Standing.Told) φ := by
  rw [exchange_eq]
  refine Prog.follows_ite (fun hneg => ?_) fun _ => ⟨φ, ⟨.inr hφ, rfl⟩, ?_⟩
  · refine deciding_awaitReply (fun _ => hφ) fun _ => ?_
    rcases hφ with rfl | rfl | rfl
    · exact absurd (hrc rfl) (by omega)
    · exact .inl rfl
    · exact .inr (.inl rfl)
  · rintro rc φ' rfl
    by_cases hok : rc = zkOk
    · rw [if_pos hok]
      exact deciding_awaitReply (fun _ => hφ) fun hne => absurd hok hne
    · rw [if_neg hok]
      exact deciding_awaitReply (fun h => absurd h hok) fun _ => ended_told hφ rc

/-- The codes with which a command goes on are none to reconnect for. -/
private theorem not_reconnects (h : rc = zkOk ∨ rc = zNoNode ∨ rc = 1) : ¬ Reconnects rc := by
  rcases h with rfl | rfl | rfl <;> decide

private theorem told_of_all (h : ∀ rc, φ.Told rc) : φ = .calm ∨ φ = .warned := by
  rcases h zkOk with h | h | ⟨own, -, -, hok⟩
  · exact .inl h
  · exact .inr h
  · exact absurd hok (not_reconnects (.inl rfl))

/-- What the standings say about commands. -/
private def decidingTelling : Telling deciding where
  Begins := Standing.Begins
  Encoded φ rc := φ = .old → 0 ≤ rc
  Told rc φ := φ.Told rc
  Reported status φ := φ.Reported status
  begins h := ⟨.inr (told_of_all h), fun _ hold => absurd hold (told_ne_old (h 0))⟩
  keeps _ := deciding_keeps _
  told_keeps _ := deciding_keeps _
  exchanged := deciding_exchange
  lastErr := by
    intro φ err hφ
    refine ⟨⟨.inr hφ, rfl⟩, ?_⟩
    rintro r φ' rfl
    exact ended_told hφ err
  load := by
    intro rc φ hφ
    refine ⟨⟨told_ne_old hφ, rfl⟩, ?_⟩
    rintro c φ' rfl
    exact ⟨seen_reported hφ c.lastErr, fun rc h => seen_mono h c.lastErr⟩
  proceeds := by
    intro rc φ hφ hrc rc'
    rcases hφ with h | h | ⟨own, -, -, hbad⟩
    · exact .inl h
    · exact .inr (.inl h)
    · exact absurd hbad (not_reconnects hrc)
  reported h := (told_of_all h).imp (fun hcalm => ⟨hcalm, not_reconnects (.inl rfl)⟩) fun hwarned => .inl hwarned

private theorem deciding_reconnect (hφ : φ = .warned ∨ ∃ err, φ = .hot err) {Q : Unit → Standing → Prop}
    (hQ : ∀ a, Q a .free) : (reconnect H).Follows deciding Q φ :=
  ⟨.free, ⟨.inr hφ, rfl⟩, fun _ => deciding_free _ hQ⟩

/-- The decision of `processCommand`: a command resets the client in a standing with a reason, and does not end hot. -/
private theorem deciding_decision {status : Int} (hφ : φ.Reported status ∨ status = zkOk ∧ φ = .spared) :
    (do
      let c ← perform .load
      if status = zkSocketErr ∨ checkReconnect c.lastErr then reconnect H : Zk Unit).Follows deciding
        (fun _ φ => ∀ err, φ ≠ .hot err) φ := by
  have hold : φ ≠ .old := by
    rcases hφ with h | ⟨-, rfl⟩
    · exact told_ne_old (reported_told h)
    · nofun
  -- warned, the thread may go on either way
  have hwarned : ∀ {c : Prop} [Decidable c], (if c then reconnect H else pure () : Zk Unit).Follows deciding
      (fun _ φ => ∀ err, φ ≠ .hot err) .warned := fun {c} _ =>
    Prog.follows_ite (fun _ => deciding_reconnect (.inl rfl) nofun) fun _ => nofun
  refine ⟨φ, ⟨hold, rfl⟩, ?_⟩
  rintro c φ' rfl
  rcases hφ with (⟨rfl, hstatus⟩ | rfl | ⟨rfl, hstatus⟩) | ⟨rfl, rfl⟩
  · by_cases hbad : Reconnects c.lastErr
    · rw [show Standing.seen .calm c.lastErr = .warned from if_pos hbad]
      exact hwarned
    · rw [show Standing.seen .calm c.lastErr = .calm from if_neg hbad]
      refine Prog.follows_ite (fun hreset => ?_) fun _ => nofun
      exact absurd hreset (not_or.2 ⟨fun h => hstatus (.inl h), fun h => hbad (.inr h)⟩)
  · exact hwarned
  · by_cases herr : c.lastErr = status
    · rw [show Standing.seen (.hot status) c.lastErr = .hot status from if_pos herr]
      refine Prog.follows_ite (fun _ => deciding_reconnect (.inr ⟨status, rfl⟩) nofun) fun hgo => ?_
      exact absurd (hstatus.imp id fun h => herr ▸ h) hgo
    · rw [show Standing.seen (.hot status) c.lastErr = .warned from if_neg herr]
      exact hwarned
  · by_cases hlisted : checkReconnect c.lastErr = true
    · rw [show Standing.seen .spared c.lastErr = .warned from if_pos hlisted]
      exact hwarned
    · rw [show Standing.seen .spared c.lastErr = .spared from if_neg hlisted]
      refine Prog.follows_ite (fun hreset => ?_) fun _ => nofun
      exact absurd hreset (not_or.2 ⟨by decide, hlisted⟩)

/-- The standing with which a command may begin. -/
def Standing.Suits (H : Heap) (φ : Standing) (o : Opening) : Prop :=
  φ = .calm ∨ (φ = .spared ∧ o = .still) ∨
    φ = .old ∧ (o = .tooFew ∨ ∃ opcode body, o = .request opcode body ∧ ∀ xid, 0 ≤ (encoded H opcode body xid).1)

private theorem deciding_processCommand (args : List Bytes) (hφ : φ.Suits H (opening H args)) :
    (processCommand H args).Follows deciding (fun _ φ => ∀ err, φ ≠ .hot err) φ := by
  have hallows : decidingTelling.Allows H φ (opening H args) := by
    generalize opening H args = o at hφ
    rcases hφ with rfl | ⟨rfl, rfl⟩ | ⟨rfl, rfl | ⟨opcode, body, rfl, henc⟩⟩
    · cases o with
      | tooFew => trivial
      | still => exact deciding_keeps _
      | request opcode body => exact ⟨.inr (.inl rfl), fun _ => nofun⟩
    · exact deciding_keeps _
    · trivial
    · exact ⟨.inl rfl, fun xid _ => henc xid⟩
  refine (decidingTelling.runCommand args hallows).bind fun r φ' h => ?_
  generalize opening H args = o at hφ h
  cases o with
  | tooFew =>
    obtain ⟨rfl, rfl⟩ := h
    refine (deciding_keeps _).follows (Telling.silent_perform (e := .printf _ _) trivial) fun _ err => ?_
    rintro rfl
    rcases hφ with h | ⟨h, -⟩ | ⟨h, -⟩ <;> cases h
  | still =>
    obtain ⟨rfl, rfl⟩ := h
    refine deciding_decision ?_
    rcases hφ with rfl | ⟨rfl, -⟩ | ⟨-, h | ⟨_, _, h, -⟩⟩
    · exact .inl (.inl ⟨rfl, not_reconnects (.inl rfl)⟩)
    · exact .inr ⟨rfl, rfl⟩
    · cases h
    · cases h
  | request opcode body =>
    obtain ⟨status, rfl, hreported⟩ := h
    exact deciding_decision (.inl hreported)

end Deciding

/-! ### The invariant -/

/-- `c->last_err` holds the code with which the request has ended, and no other answer changes it. -/
private theorem effect_lastErr {t : Nat} {e : Eff} {c c' : Client} {r : e.Resp} {i : Nat}
    (h : (sessions.effect t e c r)[i]? = some c') : c'.lastErr = (endCode c e r i).getD c.lastErr := by
  have hone : ∀ {x : Client}, [x][i]? = some c' → c' = x := fun h => List.mem_singleton.1 (List.mem_of_getElem? h)
  cases e with
  | load =>
    simp only [sessions] at h
    split at h
    · rw [hone h]
      rfl
    · cases h
  | pingTid =>
    simp only [sessions] at h
    split at h
    · rw [hone h]
      rfl
    · cases h
  | store u =>
    rw [hone h]
    cases u <;> rfl
  | sendRequest payload =>
    simp only [sessions] at h
    split_ifs at h with hok hfail
    · rw [hone h, show endCode c (.sendRequest payload) r i = none from if_pos hok]
      rfl
    · rw [hone h, show endCode c (.sendRequest payload) r i = some r from if_neg hok]
      rfl
    · cases h
  | recvResponse =>
    cases r with
    | none =>
      rcases i with - | - | i
      · cases h
        rfl
      · cases h
        rfl
      · cases h
    | some ia =>
      rw [hone h]
      rfl
  | exit => cases h
  | _ =>
    rw [hone h]
    rfl

namespace Ledger

/-- For a code to reconnect for in `c->last_err` there is a ping, unless it is left over. -/
def Owed (l : Ledger) (err : Int) : Prop := l.stale = true ∨ (Reconnects err → l.pinged = true)

/-- What a standing of thread 0 means while `c->last_err` is `err`. -/
def Knows (l : Ledger) (err : Int) : Standing → Prop
  | .free => l.Owed err
  | .old => l.Owed err
  | .spared => l.Owed err ∧ (checkReconnect err = true → l.pinged = true)
  | .calm => Reconnects err → l.pinged = true
  | .warned => (l.own = true ∨ l.pinged = true) ∧ (Reconnects err → l.pinged = true)
  | .hot own => l.own = true ∧ Reconnects own ∧ (Reconnects err → l.pinged = true ∨ err = own)

variable {l l' : Ledger} {err err' : Int} {φ : Standing}

/-- When `c->last_err` is assigned beside the thread, it matters whether there is a ping for the new code. -/
theorem Knows.beside (h : l.Knows err φ) (hown : l.own = true → l'.own = true)
    (hpinged : l.pinged = true → l'.pinged = true)
    (howed : l'.Owed err') (hping : φ ≠ .free → Reconnects err' → l'.pinged = true) : l'.Knows err' φ := by
  cases φ with
  | free => exact howed
  | old => exact howed
  | spared => exact ⟨howed, fun hlisted => hping nofun (.inr hlisted)⟩
  | calm => exact hping nofun
  | warned => exact ⟨h.1.imp hown hpinged, hping nofun⟩
  | hot own => exact ⟨hown h.1, h.2.1, fun hbad => .inl (hping nofun hbad)⟩

theorem knows_current {current : Nat → Bool} : ({ l with current } : Ledger).Knows err φ ↔ l.Knows err φ := by
  cases φ <;> exact Iff.rfl

/-- Of what a thread sends and receives, only its own pings concern another one. -/
theorem exchanged_other (l : Ledger) {t : Nat} (h0 : t ≠ 0) (e : Eff) (r : e.Resp) :
    ∃ current, l.exchanged t e r = { l with current } := by
  cases e with
  | sendRequest payload => exact ⟨_, if_neg h0⟩
  | recvResponse =>
    cases r with
    | none => exact ⟨l.current, rfl⟩
    | some ia => exact ⟨l.current, if_neg fun h => h0 h.1⟩
  | _ => exact ⟨l.current, rfl⟩

theorem exchanged_mending (l : Ledger) (t : Nat) (e : Eff) (r : e.Resp) : (l.exchanged t e r).mending = l.mending := by
  unfold exchanged
  split
  · split <;> rfl
  · split <;> rfl
  · rfl

theorem ended_mending (l : Ledger) (busy : Bool) (t : Nat) (err : Int) : (l.ended busy t err).mending = l.mending := by
  unfold ended
  split
  · split <;> rfl
  · split <;> rfl

theorem answered_mending (l : Ledger) (busy : Bool) (t : Nat) (e : Eff) (r : e.Resp) (code : Option Int) :
    (code.elim (l.exchanged t e r) ((l.exchanged t e r).ended busy t)).mending = l.mending := by
  cases code with
  | none => exact l.exchanged_mending t e r
  | some err => exact (ended_mending _ busy t err).trans (l.exchanged_mending t e r)

theorem Knows.owed (h : l.Knows err φ) (hhot : ∀ own, φ ≠ .hot own) : l.Owed err := by
  cases φ with
  | free => exact h
  | old => exact h
  | spared => exact h.1
  | calm => exact .inr h
  | warned => exact .inr h.2
  | hot own => exact absurd rfl (hhot own)

/-- After a request of thread 0 has ended. -/
theorem Knows.ended {busy : Bool} (h : l.Knows err φ) (hφ : φ = .free ∨ φ.Begins) (hbusy : φ ≠ .free ↔ busy = true) :
    (l.ended busy 0 err').Knows err' (φ.ended err') ∧ (φ.ended err' ≠ .free ↔ busy = true) := by
  rcases hφ with rfl | hbegins
  · have hidle : ¬ busy = true := fun h => hbusy.2 h rfl
    unfold Ledger.ended
    rw [if_pos rfl, if_neg hidle]
    exact ⟨.inl rfl, hbusy⟩
  · have hcommand : busy = true := hbusy.1 (by rcases hbegins with rfl | rfl | rfl <;> nofun)
    unfold Ledger.ended
    rw [if_pos rfl, if_pos hcommand]
    by_cases hbad : Reconnects err'
    · have hhot : φ.ended err' = .hot err' := by
        rcases hbegins with rfl | rfl | rfl <;> exact if_pos hbad
      rw [hhot]
      exact ⟨⟨by simp [hbad], hbad, fun _ => .inr rfl⟩, fun _ => hcommand, fun _ => nofun⟩
    · rcases hbegins with rfl | rfl | rfl
      · rw [show Standing.ended .old err' = .calm from if_neg hbad]
        exact ⟨fun h => absurd h hbad, fun _ => hcommand, fun _ => nofun⟩
      · rw [show Standing.ended .calm err' = .calm from if_neg hbad]
        exact ⟨fun h => absurd h hbad, fun _ => hcommand, fun _ => nofun⟩
      · rw [show Standing.ended .warned err' = .warned from if_neg hbad]
        refine ⟨⟨h.1.imp (fun hown => ?_) id, fun h => absurd h hbad⟩, fun _ => hcommand, fun _ => nofun⟩
        simp [hown]

/-- After thread 0 has read `c->last_err`. -/
theorem Knows.seen (h : l.Knows err φ) : l.Knows err (φ.seen err) ∧ (φ.seen err ≠ .free ↔ φ ≠ .free) := by
  cases φ with
  | free => exact ⟨h, Iff.rfl⟩
  | old => exact ⟨h, Iff.rfl⟩
  | warned => exact ⟨h, Iff.rfl⟩
  | spared =>
    by_cases hlisted : checkReconnect err = true
    · rw [show Standing.seen .spared err = .warned from if_pos hlisted]
      exact ⟨⟨.inr (h.2 hlisted), fun _ => h.2 hlisted⟩, fun _ => nofun, fun _ => nofun⟩
    · rw [show Standing.seen .spared err = .spared from if_neg hlisted]
      exact ⟨h, Iff.rfl⟩
  | calm =>
    by_cases hbad : Reconnects err
    · rw [show Standing.seen .calm err = .warned from if_pos hbad]
      exact ⟨⟨.inr (h hbad), h⟩, fun _ => nofun, fun _ => nofun⟩
    · rw [show Standing.seen .calm err = .calm from if_neg hbad]
      exact ⟨h, Iff.rfl⟩
  | hot own =>
    by_cases herr : err = own
    · rw [show Standing.seen (.hot own) err = .hot own from if_pos herr]
      exact ⟨h, Iff.rfl⟩
    · rw [show Standing.seen (.hot own) err = .warned from if_neg herr]
      exact ⟨⟨.inl h.1, fun hbad => (h.2.2 hbad).resolve_right herr⟩, fun _ => nofun, fun _ => nofun⟩

end Ledger

/-- What considerate steps preserve: what thread 0 knows is so, and it is `free` when it is not busy with a command. -/
structure Accounted (l : Ledger) (s : State Eff Eff.Resp Errand Client) : Prop where
  fresh : 0 < s.fresh
  stands : s.threads 0 = .gone ∨ ∃ φ, (s.threads 0).Follows (fun _ => deciding) .free φ ∧
    l.Knows s.shared.lastErr φ ∧ (φ ≠ .free ↔ l.busy (s.threads 0) = true)

namespace Accounted

variable {l l' : Ledger} {s s' : State Eff Eff.Resp Errand Client}

theorem warranted (hs : Accounted l s) : Warranted l s := by
  intro hreset hmending
  rcases hs.stands with hgone | ⟨φ, hfollows, hknows, hbusy⟩
  · rw [hgone] at hreset
    cases hreset
  · cases hth : s.threads 0 with
    | ready j p =>
      rw [hth] at hreset hfollows hbusy
      cases p with
      | trylock k =>
        have hcommand : j.isCommand = true := hreset
        have hne : φ ≠ .free := hbusy.2 (by simp [Ledger.busy, Thread.job, hcommand, hmending])
        obtain ⟨φ', ⟨hreason, -⟩, -⟩ := hfollows
        rcases hreason with h | rfl | ⟨own, rfl⟩
        · exact absurd h hne
        · exact hknows.1
        · exact .inl hknows.1
      | _ => cases hreset
    | _ =>
      rw [hth] at hreset
      cases hreset

/-- A step beside thread 0. -/
private theorem beside (hs : Accounted l s) (hthread : s'.threads 0 = s.threads 0) (hfresh : s.fresh ≤ s'.fresh)
    (hmending : l'.mending = l.mending)
    (hknows : ∀ φ, (φ ≠ .free → l.busy (s.threads 0) = true) → l.Knows s.shared.lastErr φ →
      l'.Knows s'.shared.lastErr φ) : Accounted l' s' := by
  refine ⟨by have := hs.fresh; omega, ?_⟩
  rw [hthread]
  refine hs.stands.imp id ?_
  rintro ⟨φ, hfollows, h, hbusy⟩
  refine ⟨φ, hfollows, hknows φ hbusy.1 h, ?_⟩
  unfold Ledger.busy at hbusy ⊢
  rwa [hmending]

/-- An answer to a ping thread. -/
private theorem answer_ping (hs : Accounted l s) {t i : Nat} {e : Eff} {r : e.Resp} {c : Client}
    {x : Thread Eff Eff.Resp Errand} (h0 : t ≠ 0) (ha : Considerate l s (.answer t e r i))
    (heff : (sessions.effect t e s.shared r)[i]? = some c) :
    Accounted (l.note s (.answer t e r i)) { s.set t x with shared := c } := by
  have hthread : (s.set t x).threads 0 = s.threads 0 := State.set_other s x (Ne.symm h0)
  obtain ⟨current, hcurrent⟩ := l.exchanged_other h0 e r
  have herr := effect_lastErr heff
  have hcond := ha h0
  show Accounted ((endCode s.shared e r i).elim (l.exchanged t e r) ((l.exchanged t e r).ended _ t)) _
  rw [hcurrent] at hcond ⊢
  cases hend : endCode s.shared e r i with
  | none =>
    rw [hend] at herr
    refine hs.beside hthread le_rfl rfl fun φ _ hknows => ?_
    rw [show c.lastErr = s.shared.lastErr from herr]
    exact Ledger.knows_current.2 hknows
  | some err =>
    rw [hend] at herr
    have herr : c.lastErr = err := herr
    subst herr
    by_cases hcur : current t = true
    · have hended : ({ l with current } : Ledger).ended (l.busy (s.threads 0)) t c.lastErr =
          { l with current, pinged := l.pinged || decide (Reconnects c.lastErr), stale := false } := by
        unfold Ledger.ended
        rw [if_neg h0, if_pos hcur]
      have hping : Reconnects c.lastErr → (l.pinged || decide (Reconnects c.lastErr)) = true := fun h => by simp [h]
      rw [Option.elim_some, hended]
      refine hs.beside hthread le_rfl rfl fun φ _ hknows => hknows.beside id (fun h => ?_) (.inr hping) fun _ => hping
      simp [h]
    · have hended : ({ l with current } : Ledger).ended (l.busy (s.threads 0)) t c.lastErr =
          { l with current, stale := true } := by
        unfold Ledger.ended
        rw [if_neg h0, if_neg hcur]
      rw [Option.elim_some, hended]
      refine hs.beside hthread le_rfl rfl fun φ hbusy hknows => hknows.beside id id (.inl rfl) fun hne hbad => ?_
      exact absurd hbad (hcond (hbusy hne) (Bool.not_eq_true _ ▸ hcur) c.lastErr hend)

/-- An answer to thread 0 leads to a standing that the ledger bears out. -/
private theorem exists_standing {e : Eff} {r : e.Resp} {i : Nat} {c c' : Client} {φ φ₀ : Standing} {busy : Bool}
    (heff : (sessions.effect 0 e c r)[i]? = some c') (henter : deciding.enter e φ₀ φ) (hknows : l.Knows c.lastErr φ)
    (hbusy : φ ≠ .free ↔ busy = true) (hmending : l.mending = true → φ = .free) :
    ∃ φ', deciding.leave e r φ φ' ∧
      ((endCode c e r i).elim (l.exchanged 0 e r) ((l.exchanged 0 e r).ended busy 0)).Knows c'.lastErr φ' ∧
      (φ' ≠ .free ↔ busy = true) := by
  have herr := effect_lastErr heff
  cases e with
  | load =>
    have hr : r = c := by
      simp only [sessions] at heff
      split at heff
      · assumption
      · cases heff
    subst hr
    have herr : c'.lastErr = r.lastErr := herr
    obtain ⟨hseen, hfree⟩ := hknows.seen
    rw [herr]
    exact ⟨_, rfl, hseen, hfree.trans hbusy⟩
  | sendRequest payload =>
    obtain ⟨hbegins, rfl⟩ := henter
    by_cases hok : r = zkOk
    · have hend : endCode c (.sendRequest payload) r i = none := if_pos hok
      rw [hend] at herr ⊢
      have herr : c'.lastErr = c.lastErr := herr
      rw [herr]
      exact ⟨φ, (if_pos hok).symm, hknows, hbusy⟩
    · have hend : endCode c (.sendRequest payload) r i = some r := if_neg hok
      rw [hend] at herr ⊢
      have herr : c'.lastErr = r := herr
      rw [herr]
      exact ⟨_, (if_neg hok).symm, hknows.ended hbegins hbusy⟩
  | recvResponse =>
    obtain ⟨hbegins, rfl⟩ := henter
    cases r with
    | none =>
      have herr : c'.lastErr = if i = 0 then zkSocketErr else c.lastErr := herr
      rw [herr]
      exact ⟨_, ⟨_, rfl⟩, hknows.ended hbegins hbusy⟩
    | some ia =>
      have herr : c'.lastErr = c.lastErr := herr
      rw [herr]
      refine ⟨φ, rfl, ?_, hbusy⟩
      show (if 0 = 0 ∧ l.mending = true then _ else l).Knows c.lastErr φ
      by_cases hmend : l.mending = true
      · rw [if_pos ⟨rfl, hmend⟩, hmending hmend]
        exact .inl rfl
      · rw [if_neg fun h => hmend h.2]
        exact hknows
  | store u =>
    obtain ⟨hbegins, rfl⟩ := henter
    cases u with
    | lastErr err =>
      have herr : c'.lastErr = err := herr
      rw [herr]
      exact ⟨_, rfl, hknows.ended hbegins hbusy⟩
    | _ =>
      rw [herr]
      exact ⟨φ, rfl, hknows, hbusy⟩
  | _ =>
    rw [herr]
    exact ⟨φ, rfl, hknows, hbusy⟩

/-- A step of a ping thread. -/
private theorem step_ping {a : Act Eff Eff.Resp Errand} (hs : Accounted l s) (h0 : a.thread ≠ 0)
    (ha : Considerate l s a) (h : sessions.Step s a s') : Accounted (l.note s a) s' := by
  have hset : ∀ x : Thread Eff Eff.Resp Errand, (s.set a.thread x).threads 0 = s.threads 0 := fun x =>
    State.set_other s x (Ne.symm h0)
  cases h with
  | @take t j hth htakes =>
    have h0 : t ≠ 0 := h0
    show Accounted (if t = 0 then _ else l) _
    rw [if_neg h0]
    exact hs.beside (hset _) le_rfl rfl fun _ _ hknows => hknows
  | @go t j p s' hth hadv =>
    show Accounted (if t = 0 ∧ _ then _ else l) _
    rw [if_neg fun h => h0 h.1]
    obtain ⟨hfresh, holder⟩ := System.advance_older hadv
    refine hs.beside (holder 0 (Ne.symm h0) hs.fresh) hfresh rfl fun _ _ hknows => ?_
    rwa [(System.advance_frame hadv).1]
  | answer hth heff => exact hs.answer_ping h0 ha heff
  | die hth hcancelled hpoint => exact hs.beside (hset _) le_rfl rfl fun _ _ hknows => hknows

/-- Thread 0 takes up a command or a completion. -/
private theorem take_errand (hs : Accounted l s) {j : Errand} (hth : s.threads 0 = .idle)
    (htakes : sessions.takes 0 j = true) (ha : Considerate l s (.take 0 j)) :
    Accounted { l with own := false, mending := false } (s.set 0 (.ready j j.prog)) := by
  rcases hs.stands with hgone | ⟨φ, hfollows, hknows, -⟩
  · rw [hth] at hgone
    cases hgone
  rw [hth] at hfollows
  rw [show φ = .free from hfollows] at hknows
  have howed : l.Owed s.shared.lastErr := hknows
  refine ⟨hs.fresh, .inr ?_⟩
  rw [State.set_same]
  cases j with
  | ping H => cases htakes
  | completion H line =>
    exact ⟨.free, deciding_free _ nofun, howed, fun h => absurd rfl h, nofun⟩
  | command H args =>
    have hprog : ∀ {φ : Standing}, φ.Suits H (opening H args) →
        (Errand.prog (.command H args)).Follows deciding deciding.stop φ := fun hφ =>
      (deciding_processCommand args hφ).bind fun _ _ hstop => hstop
    by_cases hleft : l.stale = true ∧ l.pinged = false ∧ Reconnects s.shared.lastErr
    · have hignores := ha hleft.1 hleft.2.1 hleft.2.2
      cases ho : opening H args with
      | tooFew => exact ⟨.old, hprog (.inr (.inr ⟨rfl, .inl ho⟩)), howed, fun _ => rfl, fun _ => nofun⟩
      | still =>
        rw [ho] at hignores
        have hunlisted : checkReconnect s.shared.lastErr = false := hignores
        refine ⟨.spared, hprog (.inr (.inl ⟨rfl, ho⟩)), ⟨howed, fun h => ?_⟩, fun _ => rfl, fun _ => nofun⟩
        cases hunlisted.symm.trans h
      | request opcode body =>
        rw [ho] at hignores
        exact ⟨.old, hprog (.inr (.inr ⟨rfl, .inr ⟨opcode, body, ho, hignores⟩⟩)), howed, fun _ => rfl, fun _ => nofun⟩
    · refine ⟨.calm, hprog (.inl rfl), fun hbad => ?_, fun _ => rfl, fun _ => nofun⟩
      rcases howed with hstale | hping
      · exact Bool.of_not_eq_false fun hpinged => hleft ⟨hstale, hpinged, hbad⟩
      · exact hping hbad

/-- The next step of the errand of thread 0. -/
private theorem go_errand (hs : Accounted l s) {j : Errand} {p : Zk Bool} (hth : s.threads 0 = .ready j p)
    (hadv : System.advance s 0 j p = some s') : Accounted (l.note s (.go 0)) s' := by
  rcases hs.stands with hgone | ⟨φ, hfollows, hknows, hbusy⟩
  · rw [hth] at hgone
    cases hgone
  rw [hth] at hfollows hbusy
  obtain ⟨φ', hgoes, hfollows'⟩ := System.advance_follows (D := fun _ => deciding) (j := j) hfollows hadv
  have hshared := (System.advance_frame hadv).1
  have hfresh : 0 < s'.fresh := Nat.lt_of_lt_of_le hs.fresh (System.advance_older hadv).1
  refine ⟨hfresh, .inr ⟨φ', hfollows', ?_⟩⟩
  rw [hshared]
  have hnote : l.note s (.go 0) = if resetting (.ready j p) then { l with mending := true, stale := true } else l := by
    show (if 0 = 0 ∧ resetting (s.threads 0) = true then _ else l) = _
    rw [hth]
    simp
  rw [hnote]
  have hjob := System.advance_job hadv
  -- most steps keep the standing and the errand
  have hstay : φ' = φ → (∀ more, p ≠ .ret more) → l.Knows s.shared.lastErr φ' ∧
      (φ' ≠ .free ↔ l.busy (s'.threads 0) = true) := by
    rintro rfl hret
    refine ⟨hknows, hbusy.trans ?_⟩
    unfold Ledger.busy
    rw [hjob.resolve_right fun h => hret _ h.1.choose_spec]
    rfl
  cases p with
  | ret more =>
    obtain ⟨hstop, rfl⟩ := hgoes
    have hidle : (s'.threads 0).job = none := by
      cases hadv
      rw [State.set_same]
      cases more <;> rfl
    refine ⟨hknows.owed hstop, fun h => absurd rfl h, fun h => ?_⟩
    simp [resetting, Ledger.busy, hidle] at h
  | trylock k =>
    obtain ⟨-, rfl⟩ := hgoes
    have hreset : resetting (.ready j (.trylock k)) = j.isCommand := rfl
    rw [hreset]
    by_cases hcommand : j.isCommand = true
    · rw [if_pos hcommand]
      refine ⟨.inl rfl, fun h => absurd rfl h, fun h => ?_⟩
      simp [Ledger.busy] at h
    · rw [if_neg hcommand]
      have hfree : φ = .free := by
        by_contra hne
        have hbusy := hbusy.1 hne
        simp [Ledger.busy, Thread.job, hcommand] at hbusy
      exact hstay hfree.symm nofun
  | lock k => exact hstay hgoes nofun
  | unlock k => exact hstay hgoes nofun
  | create k => exact hstay hgoes nofun
  | cancel u k => exact hstay hgoes nofun
  | op e k => exact hstay hgoes.2 nofun

theorem step {a : Act Eff Eff.Resp Errand} (hs : Accounted l s) (ha : Considerate l s a)
    (h : sessions.Step s a s') : Accounted (l.note s a) s' := by
  by_cases h0 : a.thread = 0
  · cases h with
    | @take t j hth htakes =>
      have h0 : t = 0 := h0
      subst h0
      exact hs.take_errand hth htakes ha
    | @go t j p s' hth hadv =>
      have h0 : t = 0 := h0
      subst h0
      exact hs.go_errand hth hadv
    | @answer t j e k r i c hth heff =>
      have h0 : t = 0 := h0
      subst h0
      rcases hs.stands with hgone | ⟨φ, hfollows, hknows, hbusy⟩
      · rw [hth] at hgone
        cases hgone
      rw [hth] at hfollows
      obtain ⟨⟨φ₀, henter⟩, hk⟩ := hfollows
      have hmending : l.mending = true → φ = .free := fun hmend => by
        by_contra hne
        have hbusy := hbusy.1 hne
        simp [Ledger.busy, hmend] at hbusy
      obtain ⟨φ', hleave, hknows', hbusy'⟩ := exists_standing heff henter hknows hbusy hmending
      refine ⟨hs.fresh, .inr ⟨φ', ?_, hknows', ?_⟩⟩
      · show ((s.set 0 (.ready j (k r))).threads 0).Follows _ _ _
        rw [State.set_same]
        exact hk r φ' hleave
      · show _ ↔ ((endCode s.shared e r i).elim (l.exchanged 0 e r) ((l.exchanged 0 e r).ended _ 0)).busy
          ((s.set 0 (.ready j (k r))).threads 0) = true
        rw [State.set_same, hbusy']
        unfold Ledger.busy
        rw [Ledger.answered_mending, hth]
        rfl
    | die hth hcancelled hpoint =>
      have h0 : _ = 0 := h0
      subst h0
      exact ⟨hs.fresh, .inl (State.set_same ..)⟩
  · exact hs.step_ping h0 ha h

end Accounted

/-! ### Runs -/

/-- In a run of considerate steps every command that resets the client has a reason among its own requests and the pings
of its connection. -/
theorem reset_warranted (c : Client) {l : Ledger} {s : State Eff Eff.Resp Errand Client}
    (hrun : sessions.Recorded Ledger.note Considerate .new (sessionsStart c) l s) : Warranted l s := by
  have hstart : Accounted .new (sessionsStart c) :=
    ⟨Nat.zero_lt_two, .inr ⟨.free, rfl, .inl rfl, fun h => absurd rfl h, nofun⟩⟩
  have hs : Accounted l s := hrun.inv hstart fun _ _ _ _ hs ha hstep => hs.step ha hstep
  exact hs.warranted

/-- A client of the server `h:1`. -/
private def single : Client := { initClient [[104, 58, 49]] 60 3 0 0 1 with sock := 5, state := zkStateAuthed }

/-- The reply with the error `ZSESSIONEXPIRED`; the bytes are a connect response as well. -/
private def expiredReply : IArchive :=
  { len := 20, off := 0, buffer := some (List.replicate 12 0 ++ [255, 255, 255, 144, 0, 0, 0, 0]) }

/-- Every server accepts, and answers so. -/
private def expiredAnswer (c : Client) : (e : Eff) → e.Resp
  | .getXid => 1
  | .time => 0
  | .rand => 0
  | .load => c
  | .pingTid => c.pingTid
  | .store _ => ()
  | .sendRequest _ => zkOk
  | .recvResponse => some expiredReply
  | .socket => 6
  | .gethostbyname _ => true
  | .inetPton _ => true
  | .connect _ _ => (0, 0)
  | .poll _ _ => (1, pollout)
  | .close _ => ()
  | .usleep => ()
  | .join _ => ()
  | .printf _ _ => ()
  | .undefined _ => ()
  | .exit => ()

/-- The next `n` steps of thread 0, which works off the command lines. -/
private def workOff : Nat → List (List Bytes) → State Eff Eff.Resp Errand Client → List (Act Eff Eff.Resp Errand)
  | 0, _, _ => []
  | n + 1, lines, s =>
    let (a, lines) : Act Eff Eff.Resp Errand × List (List Bytes) := match s.threads 0 with
      | .idle => (.take 0 (.command .plenty (lines.headD [])), lines.tail)
      | .inside _ e _ => (.answer 0 e (expiredAnswer s.shared e) 0, lines)
      | _ => (.go 0, lines)
    a :: (sessions.step s a).elim [] (workOff n lines)

/-- `get /a`. -/
private def getLine : List Bytes := [getCmd, [47, 97]]

/-- Commands that begin with a good `c->last_err`, and no pings. -/
private def goodSteps (s : State Eff Eff.Resp Errand Client) : Act Eff Eff.Resp Errand → Bool
  | .take _ _ => !decide (Reconnects s.shared.lastErr)
  | .answer t _ _ _ => decide (t = 0)
  | _ => true

/-- The session has expired, and the command that gets to know of it resets the client. -/
theorem reset_warranted_expired :
    ∃ l s, sessions.Recorded Ledger.note Considerate .new (sessionsStart single) l s ∧
      resetting (s.threads 0) = true ∧ (l.own ∨ l.pinged) := by
  have hreset : (sessions.recordActs Ledger.note (fun _ => goodSteps) (workOff 20 [getLine] (sessionsStart single)) .new
      (sessionsStart single)).any fun x => resetting (x.2.threads 0) && !x.1.mending := by decide +kernel
  obtain ⟨⟨l, s⟩, hs, hreset⟩ := (Option.any_eq_true _ _).1 hreset
  simp only [Bool.and_eq_true, Bool.not_eq_true'] at hreset
  have hrun : sessions.Recorded Ledger.note Considerate .new (sessionsStart single) l s := by
    refine .of_acts (fun l s a ha => ?_) .start hs
    cases a with
    | take t j =>
      have hgood : ¬ Reconnects s.shared.lastErr := by simpa [goodSteps] using ha
      cases j with
      | command H args => exact fun _ _ hbad => absurd hbad hgood
      | _ => trivial
    | answer t e r i =>
      have h0 : t = 0 := by simpa [goodSteps] using ha
      exact fun hne => absurd h0 hne
    | _ => trivial
  exact ⟨l, s, hrun, hreset.1, reset_warranted single hrun hreset.1 hreset.2⟩

/-- After a reconnect because of the expired session, a word that is no command resets the client again. -/
theorem unknown_resets_again :
    ¬ ∀ (c : Client) (l : Ledger) (s : State Eff Eff.Resp Errand Client),
      sessions.Recorded Ledger.note (fun _ _ _ => True) .new (sessionsStart c) l s → Warranted l s := by
  intro hall
  have hreset : (sessions.recordActs Ledger.note (fun _ _ _ => true)
      (workOff 90 [getLine, [[120]]] (sessionsStart single)) .new (sessionsStart single)).any fun x =>
        resetting (x.2.threads 0) && !x.1.mending && !x.1.own && !x.1.pinged := by decide +kernel
  obtain ⟨⟨l, s⟩, hs, hreset⟩ := (Option.any_eq_true _ _).1 hreset
  simp only [Bool.and_eq_true, Bool.not_eq_true'] at hreset
  obtain ⟨⟨⟨hth, hmending⟩, hown⟩, hpinged⟩ := hreset
  rcases hall single l s (.of_acts (fun _ _ _ _ => trivial) .start hs) hth hmending with h | h
  · cases hown.symm.trans h
  · cases hpinged.symm.trans h

end ZkClient
