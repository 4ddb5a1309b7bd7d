import ZkClient.Servers

/-!
# Outcomes of a connection attempt

The failures of `connect_server` have three values: `-1` before there is a connection, `ZK_ERROR` when it closes the
descriptor, and `ZK_SOCKET_ERR` from `wait_socket`, which it compares with `ZK_ERROR`.  `do_connect` looks for
`ZK_ERROR` only, so it authenticates on `-1`, and on a descriptor that never became writable.

`Dialed` lists the ways `connect_server` can go.  `Careful` is what a pass of the loop should do, and `Plain` says when
it does.
-/

namespace ZkClient

open Pthread Rotation

variable {H : Heap} {w : World}

/-! ### `connect_server` step by step -/

theorem waitResult_ne_error (rw : RwMode) (n : Int) (revents : Nat) : waitResult rw n revents ≠ zkError := by
  unfold waitResult
  dsimp only
  repeat' split
  all_goals simp

/-- There is an address for the name. -/
def Resolves (w : World) (host : Bytes) : Prop := isIp host = true ∨ w.hosts.headD false = true

/-- `connect` has failed and is not in progress. -/
def Refused (r : Int × Int) : Prop := r.1 = -1 ∧ r.2 ≠ einprogress

instance (w : World) (host : Bytes) : Decidable (Resolves w host) := inferInstanceAs (Decidable (_ ∨ _))

instance (r : Int × Int) : Decidable (Refused r) := inferInstanceAs (Decidable (_ ∧ _))

/-- The world after `host2IP`. -/
def World.lookedUp (w : World) (host : Bytes) : World := if isIp host then w else { w with hosts := w.hosts.tail }

theorem World.socket_fst (w : World) : w.socket.1 =
    if 0 ≤ w.sockets.headD (-1) ∧ w.sockets.headD (-1) ∉ w.opened then w.sockets.headD (-1) else -1 := by
  unfold World.socket
  dsimp only
  split <;> rfl

private theorem World.socket_answers (w : World) : w.socket.2.hosts = w.hosts ∧ w.socket.2.addrs = w.addrs ∧
    w.socket.2.connects = w.connects ∧ w.socket.2.polls = w.polls := by
  unfold World.socket
  dsimp only
  split <;> exact ⟨rfl, rfl, rfl, rfl⟩

private theorem World.lookedUp_answers (w : World) (host : Bytes) : (w.lookedUp host).addrs = w.addrs ∧
    (w.lookedUp host).connects = w.connects ∧ (w.lookedUp host).polls = w.polls := by
  unfold World.lookedUp
  split <;> exact ⟨rfl, rfl, rfl⟩

/-- What `host2IP` does. -/
def lookup (w : World) (host : Bytes) : List Event :=
  if isIp host then [] else [⟨.gethostbyname host, w.hosts.headD false⟩]

/-- `connect_server` from `inet_pton` on. -/
private def dial (host : Bytes) (port timeout sock : Int) : Zk Int := do
  let accepted ← perform (.inetPton host)
  if ¬ accepted then do
    perform (.close sock)
    return zkError
  let (rc, errno) ← perform (.connect sock port)
  if rc = -1 ∧ errno ≠ einprogress then do
    perform (.close sock)
    return zkError
  let rc ← waitSocket sock timeout .write
  if rc = zkError then do
    perform (.close sock)
    return zkError
  return sock

private theorem connectServer_eq (host : Bytes) (port timeout : Int) : connectServer host port timeout =
    if port ≤ 0 then return -1
    else @bind Zk _ Int Int (perform .socket) fun sock =>
      if sock < 0 then return -1
      else host2Ip host >>= fun found => if ¬ found then return -1 else dial host port timeout sock := rfl

/-- The world after an attempt with an address that is not accepted. -/
def World.unaccepted (w : World) (host : Bytes) : World :=
  { w.socket.2.lookedUp host with addrs := w.addrs.tail }.closeFd w.socket.1

/-- The world after an attempt that is refused. -/
def World.refused (w : World) (host : Bytes) : World :=
  { w.socket.2.lookedUp host with addrs := w.addrs.tail, connects := w.connects.tail }.closeFd w.socket.1

/-- The world after an attempt that is not refused. -/
def World.waited (w : World) (host : Bytes) : World :=
  { w.socket.2.lookedUp host with addrs := w.addrs.tail, connects := w.connects.tail, polls := w.polls.tail }

/-- How `connect_server` goes in the world `w`: its result, the world after it and what it has done. -/
inductive Dialed (host : Bytes) (port timeout : Int) (w : World) : Int → World → List Event → Prop
  | noPort (hport : port ≤ 0) : Dialed host port timeout w (-1) w []
  | noSocket (hport : 0 < port) (hsock : w.socket.1 < 0) :
      Dialed host port timeout w (-1) w.socket.2 [⟨.socket, w.socket.1⟩]
  | unresolved (hport : 0 < port) (hsock : 0 ≤ w.socket.1) (hname : ¬ Resolves w host) :
      Dialed host port timeout w (-1) (w.socket.2.lookedUp host) (⟨.socket, w.socket.1⟩ :: lookup w host)
  | unaccepted (hport : 0 < port) (hsock : 0 ≤ w.socket.1) (hname : Resolves w host)
      (haddr : w.addrs.headD false = false) :
      Dialed host port timeout w zkError
        (w.unaccepted host)
        (⟨.socket, w.socket.1⟩ :: lookup w host ++ [⟨.inetPton host, false⟩, ⟨.close w.socket.1, ()⟩])
  | refused (hport : 0 < port) (hsock : 0 ≤ w.socket.1) (hname : Resolves w host) (haddr : w.addrs.headD false = true)
      (hconnect : Refused (w.connects.headD (-1, 0))) :
      Dialed host port timeout w zkError
        (w.refused host)
        (⟨.socket, w.socket.1⟩ :: lookup w host ++
          [⟨.inetPton host, true⟩, ⟨.connect w.socket.1 port, w.connects.headD (-1, 0)⟩, ⟨.close w.socket.1, ()⟩])
  | waited (hport : 0 < port) (hsock : 0 ≤ w.socket.1) (hname : Resolves w host) (haddr : w.addrs.headD false = true)
      (hconnect : ¬ Refused (w.connects.headD (-1, 0))) :
      Dialed host port timeout w w.socket.1 (w.waited host)
        (⟨.socket, w.socket.1⟩ :: lookup w host ++
          [⟨.inetPton host, true⟩, ⟨.connect w.socket.1 port, w.connects.headD (-1, 0)⟩,
            ⟨.poll w.socket.1 timeout, w.polls.headD (0, 0)⟩])

section Dial

variable (host : Bytes) (port timeout sock : Int)

private theorem dial_unaccepted (haddr : w.addrs.headD false = false) :
    (dial host port timeout sock).run (World.handle H) w = (zkError, { w with addrs := w.addrs.tail }.closeFd sock) ∧
      (dial host port timeout sock).log (World.handle H) w = [⟨.inetPton host, false⟩, ⟨.close sock, ()⟩] := by
  constructor
  · show exec H (if ¬ (w.addrs.headD false = true) then _ else _) { w with addrs := w.addrs.tail } = _
    rw [haddr]
    rfl
  · show ⟨.inetPton host, w.addrs.headD false⟩ ::
      Prog.log (World.handle H) (if ¬ (w.addrs.headD false = true) then _ else _) { w with addrs := w.addrs.tail } = _
    rw [haddr]
    rfl

/-- `connect_server` from `connect` on. -/
private def join (port timeout sock : Int) : Zk Int := do
  let (rc, errno) ← perform (.connect sock port)
  if rc = -1 ∧ errno ≠ einprogress then do
    perform (.close sock)
    return zkError
  let rc ← waitSocket sock timeout .write
  if rc = zkError then do
    perform (.close sock)
    return zkError
  return sock

private theorem dial_accepted (haddr : w.addrs.headD false = true) :
    (dial host port timeout sock).run (World.handle H) w =
        (join port timeout sock).run (World.handle H) { w with addrs := w.addrs.tail } ∧
      (dial host port timeout sock).log (World.handle H) w =
        ⟨.inetPton host, true⟩ :: (join port timeout sock).log (World.handle H) { w with addrs := w.addrs.tail } := by
  constructor
  · show exec H (if ¬ (w.addrs.headD false = true) then _ else _) { w with addrs := w.addrs.tail } = _
    rw [haddr]
    rfl
  · show ⟨.inetPton host, w.addrs.headD false⟩ ::
      Prog.log (World.handle H) (if ¬ (w.addrs.headD false = true) then _ else _) { w with addrs := w.addrs.tail } = _
    rw [haddr]
    rfl

private theorem join_refused (hconnect : Refused (w.connects.headD (-1, 0))) :
    (join port timeout sock).run (World.handle H) w = (zkError, { w with connects := w.connects.tail }.closeFd sock) ∧
      (join port timeout sock).log (World.handle H) w =
        [⟨.connect sock port, w.connects.headD (-1, 0)⟩, ⟨.close sock, ()⟩] := by
  constructor
  · show exec H (if Refused (w.connects.headD (-1, 0)) then _ else _) { w with connects := w.connects.tail } = _
    rw [if_pos hconnect]
    rfl
  · show ⟨.connect sock port, w.connects.headD (-1, 0)⟩ ::
      Prog.log (World.handle H) (if Refused (w.connects.headD (-1, 0)) then _ else _) _ = _
    rw [if_pos hconnect]
    rfl

private theorem join_waited (hconnect : ¬ Refused (w.connects.headD (-1, 0))) :
    (join port timeout sock).run (World.handle H) w =
        (sock, { w with connects := w.connects.tail, polls := w.polls.tail }) ∧
      (join port timeout sock).log (World.handle H) w =
        [⟨.connect sock port, w.connects.headD (-1, 0)⟩, ⟨.poll sock timeout, w.polls.headD (0, 0)⟩] := by
  have hwait := waitResult_ne_error .write (w.polls.headD (0, 0)).1 (w.polls.headD (0, 0)).2
  constructor
  · show exec H (if Refused (w.connects.headD (-1, 0)) then _ else _) { w with connects := w.connects.tail } = _
    rw [if_neg hconnect]
    show exec H (if waitResult .write (w.polls.headD (0, 0)).1 (w.polls.headD (0, 0)).2 = zkError then _ else _) _ = _
    rw [if_neg hwait]
    rfl
  · show ⟨.connect sock port, w.connects.headD (-1, 0)⟩ ::
      Prog.log (World.handle H) (if Refused (w.connects.headD (-1, 0)) then _ else _) _ = _
    rw [if_neg hconnect]
    show ⟨.connect sock port, w.connects.headD (-1, 0)⟩ :: ⟨.poll sock timeout, w.polls.headD (0, 0)⟩ ::
      Prog.log (World.handle H)
        (if waitResult .write (w.polls.headD (0, 0)).1 (w.polls.headD (0, 0)).2 = zkError then _ else _) _ = _
    rw [if_neg hwait]
    rfl

private theorem run_host2Ip : (host2Ip host).run (World.handle H) w = (decide (Resolves w host), w.lookedUp host) ∧
    (host2Ip host).log (World.handle H) w = lookup w host := by
  unfold host2Ip World.lookedUp lookup
  by_cases hip : isIp host = true
  · have hname : Resolves w host := .inl hip
    simp only [if_pos hip, hname, decide_true]
    exact ⟨rfl, rfl⟩
  · have hname : decide (Resolves w host) = w.hosts.headD false := by
      simp [Resolves, hip]
    simp only [if_neg hip, hname]
    exact ⟨rfl, rfl⟩

end Dial

/-- `connect_server` goes one of these ways. -/
theorem dialed (host : Bytes) (port timeout : Int) :
    Dialed host port timeout w (exec H (connectServer host port timeout) w).1
      (exec H (connectServer host port timeout) w).2 ((connectServer host port timeout).log (World.handle H) w) := by
  rw [connectServer_eq]
  by_cases hport : port ≤ 0
  · rw [if_pos hport]
    exact .noPort hport
  rw [if_neg hport, exec, Prog.run_bind, Prog.log_bind]
  have hport' : 0 < port := by omega
  have hsocket : (perform .socket).run (World.handle H) w = w.socket := rfl
  have hlog : (perform .socket).log (World.handle H) w = [⟨.socket, w.socket.1⟩] := rfl
  rw [hsocket, hlog]
  by_cases hsock : w.socket.1 < 0
  · simp only [if_pos hsock]
    exact .noSocket hport' hsock
  simp only [if_neg hsock]
  have hsock' : 0 ≤ w.socket.1 := by omega
  obtain ⟨hhosts, haddrs, hconnects, hpolls⟩ := w.socket_answers
  obtain ⟨haddrs', hconnects', hpolls'⟩ := w.socket.2.lookedUp_answers host
  rw [haddrs] at haddrs'
  rw [hconnects] at hconnects'
  rw [hpolls] at hpolls'
  obtain ⟨hexec, hlook⟩ := @run_host2Ip H w.socket.2 host
  have hname : Resolves w.socket.2 host ↔ Resolves w host := by rw [Resolves, Resolves, hhosts]
  have hlookup : lookup w.socket.2 host = lookup w host := by rw [lookup, lookup, hhosts]
  rw [hlookup] at hlook
  rw [Prog.run_bind, Prog.log_bind, hlook, hexec]
  by_cases hfound : Resolves w host
  swap
  · simp only [hname, hfound, decide_false, Bool.false_eq_true, not_false_eq_true, if_true]
    rw [Prog.run_pure, Prog.log_pure, List.append_nil]
    exact .unresolved hport' hsock' hfound
  simp only [hname, hfound, decide_true, not_true_eq_false, if_false]
  cases haddr : w.addrs.headD false with
  | false =>
    obtain ⟨hrun, hdial⟩ := dial_unaccepted (H := H) host port timeout w.socket.1 (haddrs'.symm ▸ haddr)
    rw [hrun, hdial, haddrs']
    exact .unaccepted hport' hsock' hfound haddr
  | true =>
    obtain ⟨hrun, hdial⟩ := dial_accepted (H := H) host port timeout w.socket.1 (haddrs'.symm ▸ haddr)
    rw [hrun, hdial, haddrs']
    by_cases hconnect : Refused (w.connects.headD (-1, 0))
    · obtain ⟨hrun, hjoin⟩ := join_refused (H := H) (w := { w.socket.2.lookedUp host with addrs := w.addrs.tail })
        port timeout w.socket.1 (by rwa [hconnects'])
      rw [hrun, hjoin, hconnects']
      exact .refused hport' hsock' hfound haddr hconnect
    · obtain ⟨hrun, hjoin⟩ := join_waited (H := H) (w := { w.socket.2.lookedUp host with addrs := w.addrs.tail })
        port timeout w.socket.1 (by rwa [hconnects'])
      rw [hrun, hjoin, hconnects', hpolls']
      exact .waited hport' hsock' hfound haddr hconnect

/-- `connect_server` leaves the client alone. -/
theorem Dialed.client {host : Bytes} {port timeout sock : Int} {w' : World} {l : List Event}
    (h : Dialed host port timeout w sock w' l) : w'.client = w.client := by
  have hsocket : w.socket.2.client = w.client := by
    unfold World.socket
    dsimp only
    split <;> rfl
  have hlooked : (w.socket.2.lookedUp host).client = w.client := by
    rw [← hsocket]
    unfold World.lookedUp
    split <;> rfl
  cases h with
  | noPort hport => rfl
  | noSocket hport hsock => exact hsocket
  | unresolved hport hsock hname => exact hlooked
  | unaccepted hport hsock hname haddr => exact hlooked
  | refused hport hsock hname haddr hconnect => exact hlooked
  | waited hport hsock hname haddr hconnect => exact hlooked

/-! ### A pass of the loop -/

/-- Every descriptor that is made is closed. -/
def Released (l : List Event) : Prop :=
  ∀ fd : Int, 0 ≤ fd → (⟨.socket, fd⟩ : Event) ∈ l → (⟨.close fd, ()⟩ : Event) ∈ l

/-- The wait for the descriptor, for at most `timeout`, reports that it is writable. -/
def Writable (sock timeout : Int) (l : List Event) : Prop :=
  ∃ n revents, (⟨.poll sock timeout, (n, revents)⟩ : Event) ∈ l ∧ waitResult .write n revents = zkOk

/-- What is to hold of a pass for the list entry `server` in the world `w`. -/
structure Careful (H : Heap) (server : Bytes) (w : World) : Prop where
  authenticates : ∀ sock, (exec H (prepare server) w).1 = some sock →
    (exec H (prepare server) w).2.client.sock = sock ∧ 0 ≤ sock ∧
      Writable sock w.client.connectTimeout ((prepare server).log (World.handle H) w)
  fails : (exec H (prepare server) w).1 = none →
    (exec H (connectTo H server) w).1 = false ∧ Released ((connectTo H server).log (World.handle H) w)

/-- The entry has a port, there is a socket and an address, and a connection that is not refused becomes writable. -/
def Clean (server : Bytes) (w : World) : Prop :=
  ∀ pos, strrchr server 58 = some pos →
    0 < atoi (server.drop (pos + 1)) ∧ 0 ≤ w.socket.1 ∧ Resolves w (server.take pos) ∧
    (w.addrs.headD false = true → ¬ Refused (w.connects.headD (-1, 0)) →
      waitResult .write (w.polls.headD (0, 0)).1 (w.polls.headD (0, 0)).2 = zkOk)

variable {server : Bytes}

private theorem connectTo_of_none (hnone : (exec H (prepare server) w).1 = none) :
    (exec H (connectTo H server) w).1 = false ∧
      (connectTo H server).log (World.handle H) w = (prepare server).log (World.handle H) w := by
  rw [exec] at hnone
  rw [connectTo_eq, exec, Prog.run_bind, Prog.log_bind, hnone]
  exact ⟨rfl, List.append_nil _⟩

private theorem careful_of_some {sock : Int} (hsock : (exec H (prepare server) w).1 = some sock)
    (hclient : (exec H (prepare server) w).2.client.sock = sock) : Careful H server w ↔
      0 ≤ sock ∧ Writable sock w.client.connectTimeout ((prepare server).log (World.handle H) w) := by
  refine ⟨fun h => (h.authenticates sock hsock).2, fun h => ⟨fun fd hfd => ?_, fun hnone => ?_⟩⟩
  · obtain rfl : sock = fd := Option.some.inj (hsock.symm.trans hfd)
    exact ⟨hclient, h⟩
  · rw [hsock] at hnone
    cases hnone

private theorem careful_of_none (hnone : (exec H (prepare server) w).1 = none) : Careful H server w ↔
    Released ((prepare server).log (World.handle H) w) := by
  obtain ⟨hfalse, hlog⟩ := connectTo_of_none hnone
  rw [← hlog]
  refine ⟨fun h => (h.fails hnone).2, fun h => ⟨fun fd hfd => ?_, fun _ => ⟨hfalse, h⟩⟩⟩
  rw [hnone] at hfd
  cases hfd

private theorem clean_at {pos : Nat} (hpos : strrchr server 58 = some pos) : Clean server w ↔
    0 < atoi (server.drop (pos + 1)) ∧ 0 ≤ (w.overrun pos).socket.1 ∧ Resolves (w.overrun pos) (server.take pos) ∧
    ((w.overrun pos).addrs.headD false = true → ¬ Refused ((w.overrun pos).connects.headD (-1, 0)) →
      waitResult .write ((w.overrun pos).polls.headD (0, 0)).1 ((w.overrun pos).polls.headD (0, 0)).2 = zkOk) := by
  have hsame : Clean server (w.overrun pos) ↔ Clean server w := by
    simp only [Clean, World.socket_fst]
    unfold World.overrun
    split <;> exact Iff.rfl
  rw [← hsame]
  refine ⟨fun h => h pos hpos, fun h pos' hpos' => ?_⟩
  obtain rfl : pos = pos' := Option.some.inj (hpos.symm.trans hpos')
  exact h

private theorem ne_socket_of_lookup {host : Bytes} {x : Event} (hx : x ∈ lookup w host) : x.1 ≠ .socket := by
  unfold lookup at hx
  split at hx
  · cases hx
  · rw [List.mem_singleton.1 hx]
    exact Eff.noConfusion

private theorem ne_poll_of_lookup {host : Bytes} {fd timeout : Int} {x : Event} (hx : x ∈ lookup w host) :
    x.1 ≠ .poll fd timeout := by
  unfold lookup at hx
  split at hx
  · cases hx
  · rw [List.mem_singleton.1 hx]
    exact Eff.noConfusion

private theorem released_of_closed {pos : Nat} {c : Client} {host : Bytes} {sock : Int} {l : List Event}
    (hl : ∀ x ∈ l, x.1 ≠ .socket) (hclose : (⟨.close sock, ()⟩ : Event) ∈ l) :
    Released ((if hostSize ≤ pos then [⟨.undefined (.outOfBounds "host"), ()⟩] else []) ++ ⟨.load, c⟩ ::
      (⟨.socket, sock⟩ :: lookup w host ++ l ++ [])) := by
  intro fd _ hmade
  simp only [List.append_nil, List.cons_append, List.mem_append, List.mem_cons] at hmade ⊢
  rcases hmade with h | h | h | h | h
  · split at h
    · cases List.mem_singleton.1 h
    · cases h
  · cases h
  · obtain rfl : fd = sock := eq_of_heq (Sigma.mk.inj h).2
    exact .inr (.inr (.inr (.inr hclose)))
  · exact absurd rfl (ne_socket_of_lookup h)
  · exact absurd rfl (hl _ h)

private theorem writable_of_polled {pos : Nat} {c : Client} {host : Bytes} {sock timeout : Int} {p : Int × Nat}
    {a : Bool} {port : Int} {r : Int × Int} {u u' : Update} :
    Writable sock timeout ((if hostSize ≤ pos then [⟨.undefined (.outOfBounds "host"), ()⟩] else []) ++ ⟨.load, c⟩ ::
      (⟨.socket, sock⟩ :: lookup w host ++ [⟨.inetPton host, a⟩, ⟨.connect sock port, r⟩, ⟨.poll sock timeout, p⟩] ++
        [⟨.store u, ()⟩, ⟨.store u', ()⟩])) ↔ waitResult .write p.1 p.2 = zkOk := by
  constructor
  · rintro ⟨n, revents, hmem, hwait⟩
    -- the events hold one `poll`
    have hp : (n, revents) = p := by
      simp only [List.cons_append, List.append_assoc, List.mem_append, List.mem_cons, List.nil_append] at hmem
      rcases hmem with h | h | h | h | h | h | h | h | h | h
      · split at h
        · cases List.mem_singleton.1 h
        · cases h
      · cases h
      · cases h
      · exact absurd rfl (ne_poll_of_lookup h)
      · cases h
      · cases h
      · exact eq_of_heq (Sigma.mk.inj h).2
      · cases h
      · cases h
      · cases h
    rwa [← hp]
  · intro hwait
    exact ⟨p.1, p.2, by simp, hwait⟩

/-- Behind its last colon an entry is dialed, and the result is adopted unless it is `ZK_ERROR`. -/
theorem prepare_dialed {pos : Nat} (hpos : strrchr server 58 = some pos) : ∃ sock w₁ l,
    Dialed (server.take pos) (atoi (server.drop (pos + 1))) w.client.connectTimeout (w.overrun pos) sock w₁ l ∧
      exec H (prepare server) w = (if sock = zkError then (none, w₁) else (some sock, w₁.connected sock)) ∧
      (prepare server).log (World.handle H) w =
        (if hostSize ≤ pos then [⟨.undefined (.outOfBounds "host"), ()⟩] else []) ++ ⟨.load, w.client⟩ ::
        (l ++ if sock = zkError then [] else [⟨.store (.sock sock), ()⟩, ⟨.store (.state zkStateConnected), ()⟩]) :=
  ⟨_, _, _, dialed _ _ _, exec_prepare hpos rfl, log_prepare hpos rfl⟩

theorem careful_iff : Careful H server w ↔ Clean server w := by
  cases hpos : strrchr server 58 with
  | none =>
    obtain ⟨hexec, hlog⟩ := prepare_skipped (H := H) (w := w) hpos
    rw [careful_of_none (by rw [hexec]), hlog]
    refine ⟨fun _ pos h => ?_, fun _ fd _ h => ?_⟩
    · rw [hpos] at h
      cases h
    · cases h
  | some pos =>
    obtain ⟨sock, w₁, l, hdialed, hexec, hlog⟩ := prepare_dialed (H := H) (w := w) hpos
    rw [clean_at hpos]
    induction hdialed with
    | noPort hport =>
      rw [careful_of_some (by rw [hexec]; rfl) (by rw [hexec]; rfl)]
      omega
    | noSocket hport hsock =>
      rw [careful_of_some (by rw [hexec]; rfl) (by rw [hexec]; rfl)]
      omega
    | unresolved hport hsock hname =>
      rw [careful_of_some (by rw [hexec]; rfl) (by rw [hexec]; rfl)]
      exact ⟨fun h => absurd h.1 (by omega), fun h => absurd h.2.2.1 hname⟩
    | unaccepted hport hsock hname haddr =>
      rw [careful_of_none (by rw [hexec]; rfl), hlog]
      refine ⟨fun _ => ⟨hport, hsock, hname, fun h => ?_⟩, fun _ => released_of_closed (by simp) (by simp)⟩
      rw [haddr] at h
      cases h
    | refused hport hsock hname haddr hrefused =>
      rw [careful_of_none (by rw [hexec]; rfl), hlog]
      exact ⟨fun _ => ⟨hport, hsock, hname, fun _ h => absurd hrefused h⟩,
        fun _ => released_of_closed (by simp) (by simp)⟩
    | waited hport hsock hname haddr hconnected =>
      have hfd : (w.overrun pos).socket.1 ≠ zkError := by
        intro h
        rw [h] at hsock
        exact absurd hsock (by decide)
      rw [careful_of_some (by rw [hexec, if_neg hfd]) (by rw [hexec, if_neg hfd]; rfl), hlog, if_neg hfd,
        writable_of_polled]
      exact ⟨fun h => ⟨hport, hsock, hname, fun _ _ => h.2⟩, fun h => ⟨hsock, h.2.2.2 haddr hconnected⟩⟩

/-! ### The loop -/

/-- What is to hold of a call of `do_connect`. -/
structure Connects (H : Heap) (w : World) : Prop where
  careful : ∀ v ∈ connectVisits H w, Careful H (serverAt w.client.servers v.index) v.before
  next : ∀ j v, (connectVisits H w)[j]? = some v → v.done = false → j + 1 < w.client.servers.length →
    ∃ u, (connectVisits H w)[j + 1]? = some u ∧ u.index = (v.index + 1) % w.client.servers.length ∧
      u.before = v.after
  result : (exec H (doConnect H) w).1 = zkOk ↔ ∃ v ∈ connectVisits H w, v.done = true

/-- `do_connect` authenticates on connections only, and gives up an attempt that has failed, exactly when it comes to no
entry without a port, gets a socket and an address for every entry it comes to, and no connection is still pending when
the time is up. -/
theorem doConnect_connects_iff :
    Connects H w ↔ ∀ v ∈ connectVisits H w, Clean (serverAt w.client.servers v.index) v.before := by
  constructor
  · intro h v hv
    exact careful_iff.1 (h.careful v hv)
  · intro h
    refine ⟨fun v hv => careful_iff.2 (h v hv), fun j v hv hdone hj => visits_next hv hdone hj, ?_⟩
    rw [exec_doConnect, ← List.any_eq_true]
    split
    · exact iff_of_true rfl ‹_›
    · exact iff_of_false (show zkError ≠ zkOk by decide) ‹_›

/-- A server that does not answer. -/
private def silent : World :=
  { World.idle (initClient [[104, 58, 49]] 10 3 0 0 0) with
    sockets := [3], hosts := [true], addrs := [true], connects := [(-1, einprogress)] }

/-- A connection that is still pending when the time is up is taken for one. -/
theorem doConnect_ignores_timeout : ¬ ∀ (H : Heap) (w : World), Connects H w := by
  intro hall
  have hvisit : ∃ v ∈ connectVisits Heap.plenty silent, v.index = 0 ∧ v.before = silent := by
    refine ⟨_, List.mem_cons_self .., rfl, rfl⟩
  obtain ⟨v, hv, hindex, hbefore⟩ := hvisit
  have hcareful := (hall Heap.plenty silent).careful v hv
  rw [hindex, hbefore, careful_iff] at hcareful
  exact absurd ((hcareful 1 (by decide)).2.2.2 (by decide) (by decide)) (by decide)

end ZkClient
