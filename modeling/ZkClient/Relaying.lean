import ZkClient.Telling

/-!
# One request, one reply

`relaying` is the discipline of the threads that share the connection for the sake of the replies (`Phase`): a thread
sends a request when nothing is unread and then takes the reply, and after a timeout of its own it sends nothing before
it has a new socket.  The commands follow it to their end: a command whose wait has timed out returns the error of the
timeout, and `processCommand` resets the connection for it (`relaying_processCommand`).  A completion and a ping follow
it as long as their waits do not time out.
-/

namespace ZkClient

open Pthread

/-! ### The discipline -/

/-- What a thread knows of the connection: nothing is unread, its request is under way, the reply to its request is
unread, it has received the reply (and its operation goes on), or its wait for the reply has timed out. -/
inductive Phase where
  | clean
  | sending
  | sent
  | done
  | stale
  deriving DecidableEq

/-- Not between `send_request` and `recv_response`. -/
def Phase.Rests (φ : Phase) : Prop := φ ≠ sending ∧ φ ≠ sent

/-- Send when nothing is unread, and receive what was asked for; `after` is the phase of the thread when it has received
a reply, and `late` says that its waits may time out.  A thread that does not return to `clean` by itself neither makes
sockets nor starts threads. -/
def relaying (late : Bool) (after : Phase) : Discipline Eff Eff.Resp Phase where
  stop _ φ := φ = .clean ∨ φ = .done
  lock φ φ' := φ.Rests ∧ φ' = φ
  unlock φ φ' := φ.Rests ∧ φ' = φ
  trylock φ φ' := φ.Rests ∧ φ' = φ
  create φ φ' := (φ.Rests ∧ after = .clean) ∧ φ' = φ
  cancel _ φ φ' := φ.Rests ∧ φ' = φ
  enter e φ φ' := match e with
    | .sendRequest _ => φ = .clean ∧ φ' = .sending
    | .recvResponse => φ = .sent ∧ φ' = .sent
    | .store (.lastErr _) => φ = after ∧ φ' = after
    | .store (.sock _) => ((φ = .clean ∨ φ = .stale) ∧ after = .clean) ∧ φ' = φ
    | _ => φ.Rests ∧ φ' = φ
  leave e r φ φ' := match e, r with
    | .sendRequest _, rc => φ' = if rc = zkOk then .sent else .clean
    | .recvResponse, r => φ' = after ∨ (late = true ∧ r = none) ∧ φ' = .stale
    | .load, c => φ' = φ ∧ (φ = .stale → c.lastErr = zkSocketErr)
    | .store (.sock _), _ => φ' = .clean
    | .exit, _ => False
    | _, _ => φ' = φ

section Relaying

variable {α β : Type} {H : Heap} {late : Bool} {after φ : Phase}

private theorem relaying_quiet {Q : α → Phase → Prop} {p : Zk α} (hp : Quiet p) (hφ : φ.Rests) (hQ : ∀ a, Q a φ) :
    p.Follows (relaying late after) Q φ := by
  refine hp.follows (fun e he => ?_) hQ
  cases e with
  | sendRequest payload => exact he.elim
  | recvResponse => exact he.elim
  | pingTid => exact he.elim
  | exit => exact he.elim
  | load => exact ⟨⟨hφ, rfl⟩, fun c φ' h => h.1⟩
  | store u =>
    cases u with
    | sock fd => exact he.elim
    | lastErr err => exact he.elim
    | pingTid t => exact he.elim
    | _ => exact ⟨⟨hφ, rfl⟩, fun _ _ h => h⟩
  | _ => exact ⟨⟨hφ, rfl⟩, fun _ _ h => h⟩

/-- The status of an operation after its transfers: the thread knows that nothing is unread, or it returns the error of
the timeout. -/
def Told (late : Bool) (rc : Int) (φ : Phase) : Prop := φ = .clean ∨ (late = true ∧ φ = .stale) ∧ rc = zkSocketErr

private theorem rests_clean : Phase.clean.Rests := by
  constructor <;> nofun

private theorem rests_stale : Phase.stale.Rests := by
  constructor <;> nofun

private theorem rests_done : Phase.done.Rests := by
  constructor <;> nofun

private theorem Told.rests {rc : Int} (h : Told late rc φ) : φ.Rests := by
  rcases h with rfl | ⟨⟨-, rfl⟩, -⟩
  · exact rests_clean
  · exact rests_stale

private theorem relaying_load {Q : α → Phase → Prop} {k : Client → Zk α} (hφ : φ.Rests)
    (hk : ∀ c, (φ = .stale → c.lastErr = zkSocketErr) → (k c).Follows (relaying late after) Q φ) :
    (Prog.op .load k).Follows (relaying late after) Q φ := by
  refine ⟨φ, ⟨hφ, rfl⟩, ?_⟩
  rintro c φ' ⟨rfl, herr⟩
  exact hk c herr

/-- What a thread knows after an exchange: with a reply it has received it, and a failed exchange tells of a timeout. -/
private def Exchanged (late : Bool) (after : Phase) : Int ⊕ IArchive → Phase → Prop
  | .inl rc, φ => φ = .clean ∨ φ = after ∨ (late = true ∧ φ = .stale) ∧ rc = zkSocketErr
  | .inr _, φ => φ = after

private theorem relaying_exchange (hafter : after.Rests) (rc : Int) (oa : OArchive) :
    (exchange rc oa).Follows (relaying late after) (Exchanged late after) .clean := by
  have hsent : ∀ rc : Int, (awaitReply rc).Follows (relaying late after) (Exchanged late after)
      (if rc = zkOk then .sent else .clean) := by
    intro rc
    by_cases hrc : rc = zkOk
    · rw [if_pos hrc]
      refine Prog.follows_ite (fun hne => absurd hrc hne) fun _ => ⟨.sent, ⟨rfl, rfl⟩, ?_⟩
      rintro r φ' (rfl | ⟨⟨hlate, rfl⟩, rfl⟩)
      · cases r with
        | none => exact relaying_load hafter fun c _ => .inr (.inl rfl)
        | some ia => exact rfl
      · exact relaying_load rests_stale fun c herr => .inr (.inr ⟨⟨hlate, rfl⟩, herr rfl⟩)
    · rw [if_neg hrc]
      exact Prog.follows_ite (fun _ => .inl rfl) fun h => absurd hrc h
  rw [exchange_eq]
  refine Prog.follows_ite (fun hneg => ?_) fun _ => ⟨.sending, ⟨rfl, rfl⟩, ?_⟩
  · have hne : rc ≠ zkOk := by
      intro h
      simp only [zkOk] at h
      omega
    have h := hsent rc
    rw [if_neg hne] at h
    exact h
  · rintro rc φ' rfl
    exact hsent rc

/-- `if (c) ..` in front of a program, where `..` is undefined behaviour. -/
private theorem relaying_fault {Q : α → Phase → Prop} {c : Prop} [Decidable c] {f : Fault} {p : Zk α} (hφ : φ.Rests)
    (hp : p.Follows (relaying late after) Q φ) :
    (if c then perform (.undefined f) >>= fun _ => p else p).Follows (relaying late after) Q φ := by
  refine Prog.follows_ite (fun _ => ⟨φ, ⟨hφ, rfl⟩, ?_⟩) fun _ => hp
  rintro r φ' rfl
  exact hp

/-! ### The command thread -/

/-- The program sends nothing, and leaves nothing unread. -/
private def Stays (late : Bool) (p : Zk α) : Prop := p.Follows (relaying late .clean) (fun _ φ => φ = .clean) .clean

private theorem Stays.bind {p : Zk α} {f : α → Zk β} (hp : Stays late p) (hf : ∀ a, Stays late (f a)) :
    Stays late (p >>= f) := by
  refine Prog.Follows.bind hp ?_
  rintro a φ rfl
  exact hf a

private theorem stays_quiet {p : Zk α} (hp : Quiet p) : Stays late p :=
  relaying_quiet hp rests_clean fun _ => rfl

private theorem Stays.told {p : Zk Int} (hp : Stays late p) : p.Follows (relaying late .clean) (Told late) .clean :=
  Prog.Follows.mono hp fun _ _ h => .inl h

/-- After a status that is not the error of a timeout, nothing is unread. -/
private theorem Told.clean {rc : Int} (h : Told late rc φ) (hne : rc ≠ zkSocketErr) : φ = .clean :=
  h.resolve_right fun hstale => hne hstale.2

private theorem relaying_keeps (hφ : φ.Rests) : Keeps (relaying late .clean) φ := by
  refine ⟨⟨hφ, rfl⟩, ⟨hφ, rfl⟩, fun e he => ?_⟩
  cases e with
  | getXid => exact ⟨⟨hφ, rfl⟩, fun _ _ h => h⟩
  | printf fmt args => exact ⟨⟨hφ, rfl⟩, fun _ _ h => h⟩
  | undefined f => exact ⟨⟨hφ, rfl⟩, fun _ _ h => h⟩
  | _ => exact he.elim

/-- The status of a command tells of a timeout, as the status of each request does. -/
private def relayingTelling (late : Bool) : Telling (relaying late .clean) where
  Begins φ := φ = .clean
  Encoded _ _ := True
  Told := Told late
  Reported := Told late
  begins h := ⟨Told.clean (h zkOk) (by decide), fun _ => trivial⟩
  keeps h := relaying_keeps (h ▸ rests_clean)
  told_keeps h := relaying_keeps h.rests
  exchanged := by
    rintro φ rc oa rfl -
    refine (relaying_exchange rests_clean rc oa).mono fun x φ hx => ?_
    cases x with
    | inl err =>
      rcases hx with h | h
      · exact .inl h
      · exact h
    | inr ia => exact hx
  lastErr := by
    rintro φ err rfl
    exact ⟨⟨rfl, rfl⟩, fun r φ' h => .inl h⟩
  load := by
    intro rc φ hφ
    refine ⟨⟨hφ.rests, rfl⟩, ?_⟩
    rintro c φ' ⟨rfl, herr⟩
    refine ⟨?_, fun rc h => h⟩
    exact hφ.imp id fun hstale => ⟨hstale.1, herr hstale.1.2⟩
  proceeds := by
    rintro rc φ hφ hrc rc'
    refine .inl (Told.clean hφ ?_)
    rcases hrc with rfl | rfl | rfl <;> decide
  reported h := h zkOk

/-- A command line can run when nothing is unread. -/
private theorem relaying_allows (o : Opening) : (relayingTelling late).Allows H .clean o := by
  cases o with
  | tooFew => trivial
  | still => exact relaying_keeps rests_clean
  | request opcode body => exact ⟨rfl, fun _ => trivial⟩

/-- The status of the command tells of a timeout. -/
private theorem relaying_runCommand (args : List Bytes) :
    (runCommand H args).Follows (relaying late .clean)
      (fun r φ => φ = .clean ∨ (late = true ∧ φ = .stale) ∧ r = some zkSocketErr) .clean := by
  refine ((relayingTelling late).runCommand args (relaying_allows _)).mono fun r φ h => ?_
  generalize opening H args = o at h
  cases o with
  | tooFew => exact .inl h.2
  | still => exact .inl h.2
  | request opcode body =>
    obtain ⟨status, rfl, htold⟩ := h
    have htold : Told late status φ := htold
    exact htold.imp id fun hstale => ⟨hstale.1, congrArg some hstale.2⟩

/-! ### Reconnecting -/

/-- Nothing is unread, or a reply that the next socket leaves behind. -/
private def Settled (φ : Phase) : Prop := φ = .clean ∨ φ = .stale

private theorem Told.settled {rc : Int} (h : Told late rc φ) : Settled φ := h.imp id fun hstale => hstale.1.2

private theorem Settled.rests (h : Settled φ) : φ.Rests := by
  rcases h with rfl | rfl
  · exact rests_clean
  · exact rests_stale

private theorem relaying_sock {Q : α → Phase → Prop} {fd : Int} {p : Unit → Zk α} (hφ : Settled φ)
    (hp : (p ()).Follows (relaying late .clean) Q .clean) :
    (@bind Zk _ Unit α (perform (.store (.sock fd))) p).Follows (relaying late .clean) Q φ := by
  refine ⟨φ, ⟨⟨hφ, rfl⟩, rfl⟩, ?_⟩
  rintro r φ' rfl
  exact hp

private theorem relaying_authenticate :
    (authenticate H).Follows (relaying late .clean) (Told late) .clean := by
  unfold authenticate
  generalize createBufferOarchive H = oa
  refine relaying_load rests_clean fun c _ => relaying_fault rests_clean ?_
  refine (relaying_exchange rests_clean _ _).bind fun x φ hx => ?_
  cases x with
  | inl rc =>
    rcases hx with h | h | ⟨hstale, hrc⟩
    · exact .inl h
    · exact .inl h
    · subst hrc
      exact .inr ⟨hstale, rfl⟩
  | inr ia =>
    rw [show φ = .clean from hx]
    have hdecode := @stays_quiet _ late _
      (quiet_decode (deserializeConnectResponse H) ia ⟨H.int, H.int, H.long, uninitBuffer H⟩)
    refine Prog.Follows.bind hdecode ?_
    rintro d φ rfl
    refine relaying_fault rests_clean (Stays.told (Stays.bind (stays_quiet ⟨trivial, fun _ => trivial⟩) fun _ => ?_))
    refine Stays.bind (stays_quiet ⟨trivial, fun _ => trivial⟩) fun _ => ?_
    exact (stays_quiet (quiet_adoptPasswd _ _)).bind fun _ => relaying_fault rests_clean rfl

private theorem stays_startPingThread : Stays late startPingThread := by
  refine ⟨.clean, ⟨⟨rests_clean, rfl⟩, rfl⟩, fun t => ⟨.clean, ⟨rests_clean, rfl⟩, ?_⟩⟩
  rintro r φ' rfl
  rfl

private theorem relaying_connectTo (server : Bytes) (hφ : Settled φ) :
    (connectTo H server).Follows (relaying late .clean)
      (fun connected φ => Settled φ ∧ (connected = true → φ = .clean)) φ := by
  unfold connectTo
  cases strrchr server 58 with
  | none => exact ⟨hφ, nofun⟩
  | some pos =>
    have hconnect : (do
        let c ← perform .load
        let sock ← connectServer (server.take pos) (atoi (server.drop (pos + 1))) c.connectTimeout
        if sock = zkError then return false
        perform (.store (.sock sock))
        perform (.store (.state zkStateConnected))
        let rc ← authenticate H
        if rc = zkOk then do
          startPingThread
          perform (.store (.state zkStateAuthed))
          return true
        else return false : Zk Bool).Follows (relaying late .clean)
          (fun connected φ => Settled φ ∧ (connected = true → φ = .clean)) φ := by
      refine relaying_load hφ.rests fun c _ => ?_
      have hserver : (connectServer (server.take pos) (atoi (server.drop (pos + 1))) c.connectTimeout).Follows
          (relaying late .clean) (fun _ φ' => φ' = φ) φ :=
        relaying_quiet (quiet_connectServer _ _ _) hφ.rests fun _ => rfl
      refine hserver.bind ?_
      rintro sock φ' rfl
      refine Prog.follows_ite (fun _ => ⟨hφ, nofun⟩) fun _ => relaying_sock hφ ?_
      refine ⟨.clean, ⟨rests_clean, rfl⟩, ?_⟩
      rintro r φ rfl
      refine relaying_authenticate.bind fun rc φ hrc => Prog.follows_ite (fun hok => ?_) fun _ => ?_
      · rw [hrc.clean (hok ▸ by decide)]
        refine Prog.Follows.mono (stays_startPingThread.bind fun _ => Stays.bind ?_ fun _ => rfl) fun _ φ h => ?_
        · exact stays_quiet ⟨trivial, fun _ => trivial⟩
        · exact ⟨.inl h, fun _ => h⟩
      · exact ⟨hrc.settled, nofun⟩
    refine Prog.follows_ite (fun _ => ⟨φ, ⟨hφ.rests, rfl⟩, ?_⟩) fun _ => hconnect
    rintro r φ' rfl
    exact hconnect

private theorem relaying_doConnect (hφ : Settled φ) :
    (doConnect H).Follows (relaying late .clean) (fun rc φ => Settled φ ∧ (rc = zkOk → φ = .clean)) φ := by
  have hloop : ∀ (servers : List Bytes) (retries start : Nat) {φ : Phase}, Settled φ →
      (connectLoop H servers retries start).Follows (relaying late .clean)
        (fun rc φ => Settled φ ∧ (rc = zkOk → φ = .clean)) φ := by
    intro servers retries
    induction retries with
    | zero => exact fun start φ hφ => ⟨hφ, nofun⟩
    | succ retries ih =>
      intro start φ hφ
      refine (relaying_connectTo _ hφ).bind fun connected φ h => ?_
      exact Prog.follows_ite (fun htrue => ⟨h.1, fun _ => h.2 htrue⟩) fun _ => ih (start + 1) h.1
  refine relaying_load hφ.rests fun c _ => ⟨φ, ⟨hφ.rests, rfl⟩, ?_⟩
  rintro r φ' rfl
  exact hloop _ _ _ hφ

private theorem relaying_resetZkclient (hφ : Settled φ) :
    (resetZkclient H).Follows (relaying late .clean) (fun _ φ => φ = .clean) φ := by
  rw [resetZkclient_eq]
  refine ⟨φ, ⟨hφ.rests, rfl⟩, fun _ => ⟨φ, ⟨hφ.rests, rfl⟩, φ, ⟨hφ.rests, rfl⟩, ?_⟩⟩
  rintro t φ' rfl
  have hclose : (closeSession H).Follows (relaying late .clean) (fun _ φ => φ = .clean) φ' := by
    refine relaying_load hφ.rests fun c _ => Prog.follows_ite (fun _ => ⟨φ', ⟨hφ.rests, rfl⟩, ?_⟩) fun _ => ?_
    · rintro r φ rfl
      exact relaying_sock hφ (stays_quiet quiet_clearSession)
    · exact relaying_sock hφ (stays_quiet quiet_clearSession)
  exact Prog.follows_ite (fun _ => ⟨φ', ⟨hφ.rests, rfl⟩, hclose⟩) fun _ => hclose

private theorem relaying_reconnect (hφ : Settled φ) :
    (reconnect H).Follows (relaying late .clean) (fun _ φ => φ = .clean) φ := by
  refine (relaying_resetZkclient hφ).bind ?_
  rintro - φ rfl
  refine (relaying_doConnect (.inl rfl)).bind fun rc φ h => Prog.follows_ite (fun _ => ?_) fun hok => ?_
  · -- the process exits
    rw [logger_error]
    refine ⟨φ, ⟨h.1.rests, rfl⟩, ?_⟩
    rintro - φ' rfl
    exact ⟨φ', ⟨h.1.rests, rfl⟩, fun _ _ hexit => hexit.elim⟩
  · obtain rfl := h.2 (not_not.1 hok)
    exact (relaying_keeps rests_clean).follows (Telling.silent_perform (e := .printf _ _) trivial) fun _ => rfl

/-- A command whose wait has timed out ends with a reset. -/
theorem relaying_processCommand (args : List Bytes) :
    (processCommand H args).Follows (relaying late .clean) (fun _ φ => φ = .clean) .clean := by
  refine (relaying_runCommand args).bind fun r φ h => ?_
  cases r with
  | none =>
    rcases h with rfl | ⟨-, h⟩
    · exact (relaying_keeps rests_clean).follows (Telling.silent_perform (e := .printf _ _) trivial) fun _ => rfl
    · cases h
  | some status =>
    have hφ : Settled φ := h.imp id fun hstale => hstale.1.2
    refine relaying_load hφ.rests fun c _ => Prog.follows_ite (fun _ => relaying_reconnect hφ) fun hgo => ?_
    exact h.resolve_right fun hstale => hgo (.inl (Option.some.inj hstale.2))

/-! ### Completion and pings -/

/-- A completion whose wait does not time out. -/
theorem relaying_completion (line : Bytes) :
    (completion H line).Follows (relaying false .clean) (fun _ φ => φ = .clean) .clean := by
  refine Prog.follows_ite (fun _ => rfl) fun _ => Prog.follows_ite (fun _ => ?_) fun _ => rfl
  refine Prog.follows_ite (fun _ => rfl) fun _ => Prog.follows_ite (fun _ => rfl) fun _ => ?_
  refine ((relayingTelling false).getChildren rfl fun _ => trivial).bind ?_
  rintro ⟨status, childrens⟩ φ h
  have h : Told false status φ := h
  rcases h with rfl | ⟨⟨h, -⟩, -⟩
  · refine Prog.follows_ite (fun _ => rfl) fun _ => ?_
    refine (relaying_keeps rests_clean).bind (Telling.silent_offerChildren _ _ _ _) fun offered => ?_
    split <;> rfl
  · cases h

/-- A ping whose wait does not time out. -/
private theorem relaying_doHeaderRequest (opcode : Int32) :
    (doHeaderRequest H opcode).Follows (relaying false .done) (fun _ φ => φ = .clean ∨ φ = .done) .clean := by
  refine (relaying_quiet (Q := fun _ φ => φ = .clean) (quiet_encodeRequest opcode _) rests_clean fun _ => rfl).bind ?_
  rintro ⟨rc, oa⟩ φ rfl
  refine (relaying_exchange rests_done rc oa).bind fun x φ hx => ?_
  cases x with
  | inl err =>
    rcases hx with h | h | ⟨⟨h, -⟩, -⟩
    · exact .inl h
    · exact .inr h
    · cases h
  | inr ia =>
    rw [show φ = .done from hx]
    have hdecode : (decodeReplyHeader H ia).Follows (relaying false .done) (fun _ φ => φ = .done) .done := by
      refine (relaying_quiet (Q := fun _ φ => φ = .done) (quiet_decode _ _ _) rests_done fun _ => rfl).bind ?_
      rintro d φ rfl
      refine ⟨.done, ⟨rfl, rfl⟩, ?_⟩
      rintro r φ' rfl
      rfl
    exact hdecode.bind fun err φ h => .inr h

theorem relaying_ping :
    (zkPing H).Follows (relaying false .done) (fun _ φ => φ = .clean ∨ φ = .done) .clean := by
  unfold zkPing
  generalize pingOpcode = opcode
  refine ⟨.clean, ⟨rests_clean, rfl⟩, (relaying_doHeaderRequest opcode).bind fun rc φ h => ?_⟩
  refine ⟨φ, ⟨?_, rfl⟩, h⟩
  rcases h with rfl | rfl
  · exact rests_clean
  · exact rests_done

end Relaying

end ZkClient
