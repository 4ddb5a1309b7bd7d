import ZkClient.Dialing
import ZkClient.Exclusion
import ZkClient.Telling

/-!
# Who owns the descriptors

`c->sock` is closed in four places: by `read_socket` on end of file, by `reset_zkclient`, by `zk_close`, and by
`destroy_client` after it has called `zk_close`.  Only `reset_zkclient` also assigns it.  `do_connect` assigns a new
descriptor without a look at the old one.

A life of a client is a sequence of calls, in which a call of `do_connect` is its passes.  `Tidy` names the steps after
which the client still owns what is open and nothing else (`socket_owned`).
-/

namespace ZkClient

open Pthread

/-! ### Descriptors -/

/-- The part of the world that tells who owns a descriptor. -/
structure Holding where
  sock : Int
  opened : List Int
  setup : Option Int
  stale : List Int
  deriving DecidableEq

def World.holding (w : World) : Holding := ⟨w.client.sock, w.opened, w.setup, w.stale⟩

namespace Holding

variable {d : Holding} {fd : Int}

/-- A descriptor is made. -/
def make (d : Holding) (fd : Int) : Holding := { d with opened := fd :: d.opened, setup := some fd }

/-- `c->sock` is assigned. -/
def assign (d : Holding) (fd : Int) : Holding := { d with sock := fd, setup := none }

/-- A descriptor is closed. -/
def close (d : Holding) (fd : Int) : Holding :=
  { d with
    opened := d.opened.erase fd
    setup := if d.setup = some fd then none else d.setup
    stale := if fd ∈ d.opened ∨ fd < 0 then d.stale else d.stale ++ [fd] }

/-- `c->sock` holds all that is open. -/
structure Sole (d : Holding) : Prop where
  setup : d.setup = none
  stale : d.stale = []
  sock : (d.sock = -1 ∧ d.opened = []) ∨ (0 ≤ d.sock ∧ d.opened = [d.sock])

/-- Nothing is open, and nothing was closed twice. -/
structure Clear (d : Holding) : Prop where
  setup : d.setup = none
  stale : d.stale = []
  opened : d.opened = []

theorem Sole.empty (h : d.Sole) (hsock : d.sock = -1) : d.opened = [] := by
  rcases h.sock with ⟨-, hopened⟩ | ⟨hpos, -⟩
  · exact hopened
  · omega

/-- A descriptor that is closed before `c->sock` holds it has not been there. -/
theorem close_make (h : d.setup = none) : (d.make fd).close fd = d := by
  cases d
  simp_all [make, close]

theorem Sole.drop (h : d.Sole) (hsock : d.sock = -1) : (d.assign (-1)).Sole :=
  ⟨rfl, h.stale, .inl ⟨rfl, h.empty hsock⟩⟩

theorem Sole.adopt (h : d.Sole) (hsock : d.sock = -1) (hfd : 0 ≤ fd) : ((d.make fd).assign fd).Sole :=
  ⟨rfl, h.stale, .inr ⟨hfd, congrArg (List.cons fd) (h.empty hsock)⟩⟩

/-- Closing `c->sock` leaves nothing open. -/
theorem Sole.close (h : d.Sole) : (d.close d.sock).Clear := by
  rcases h.sock with ⟨hsock, hopened⟩ | ⟨hpos, hopened⟩
  · exact ⟨by simp [Holding.close, h.setup], by simp [Holding.close, hsock, h.stale], by simp [Holding.close, hopened]⟩
  · exact ⟨by simp [Holding.close, h.setup], by simp [Holding.close, hopened, h.stale], by simp [Holding.close, hopened]⟩

/-- Closing `c->sock` when it holds nothing has no effect. -/
theorem Sole.close_none (h : d.Sole) (hsock : d.sock = -1) : d.close d.sock = d := by
  have hopened := h.empty hsock
  have hsetup := h.setup
  cases d
  simp_all [Holding.close]

end Holding

/-! ### Steps that leave the descriptors alone -/

/-- The operations that neither make, close nor assign a descriptor, if they do not meet the end of a file. -/
def Eff.OffSocket : Eff → Prop
  | socket => False
  | close _ => False
  | store (.sock _) => False
  | _ => True

/-- The descriptors are as they were, unless `read` has answered 0 in between. -/
structure World.Steady (w w' : World) : Prop where
  eofs : w.eofs ≤ w'.eofs
  same : w'.eofs = w.eofs → w'.holding = w.holding

namespace World.Steady

variable {H : Heap} {w w₁ w₂ : World}

theorem refl (w : World) : w.Steady w := ⟨le_rfl, fun _ => rfl⟩

theorem trans (h : w.Steady w₁) (h' : w₁.Steady w₂) : w.Steady w₂ := by
  refine ⟨h.eofs.trans h'.eofs, fun hsame => ?_⟩
  have hle := h.eofs
  have hle' := h'.eofs
  rw [h'.same (by omega), h.same (by omega)]

theorem of_eq (heofs : w₁.eofs = w.eofs) (hholding : w₁.holding = w.holding) : w.Steady w₁ :=
  ⟨heofs.ge, fun _ => hholding⟩

private theorem received (w : World) (x : Received) : w.Steady (w.received x) := by
  refine World.received_inv (I := w.Steady) (fun _ _ _ h => h.trans (.of_eq rfl rfl))
    (fun _ _ h => h.trans (.of_eq rfl rfl)) (fun w₁ h => ?_) (.refl w) x
  have hle := h.eofs
  refine ⟨?_, fun hsame => ?_⟩
  · show w.eofs ≤ w₁.eofs + 1
    omega
  · have hsame : w₁.eofs + 1 = w.eofs := hsame
    omega

private theorem sendRequest (w : World) (payload : Bytes) : w.Steady (w.sendRequest H payload).2 := by
  unfold World.sendRequest
  split
  · exact .of_eq rfl rfl
  unfold World.nextPoll
  dsimp only
  split
  · exact .of_eq rfl rfl
  generalize writeSocket _ _ _ _ _ = x
  by_cases hstatus : x.status ≠ zkOk
  · rw [if_pos hstatus]
    split <;> exact .of_eq rfl rfl
  · rw [if_neg hstatus]
    split <;> exact .of_eq rfl rfl

private theorem recvResponse (w : World) : w.Steady (w.recvResponse H).2 := by
  rw [World.recvResponse_snd]
  refine World.recvFrame_inv (I := w.Steady) (fun w₁ h => ?_) (fun w₁ err h => ?_) (fun w₁ x h => ?_) (.refl w)
  · exact h.trans (.of_eq rfl rfl)
  · exact h.trans (.of_eq rfl rfl)
  · exact h.trans (received w₁ x)

theorem handle {e : Eff} (he : e.OffSocket) (w : World) : w.Steady (World.handle H e w).2 := by
  cases e with
  | socket => exact he.elim
  | close fd => exact he.elim
  | store u =>
    cases u with
    | sock fd => exact he.elim
    | _ => exact .of_eq rfl rfl
  | sendRequest payload => exact sendRequest w payload
  | recvResponse => exact recvResponse w
  | _ => exact .of_eq rfl rfl

/-- A program that stays off the socket leaves the descriptors alone. -/
theorem exec {α : Type} {p : Zk α} (hp : p.Only Eff.OffSocket) (w : World) : w.Steady (exec H p w).2 :=
  hp.run_inv (I := w.Steady) (fun _ he w₁ h => h.trans (handle he w₁)) (.refl w)

end World.Steady

/-! ### Functions that leave the descriptors alone -/

section OffSocket

variable {α : Type} {H : Heap}

private theorem off_exchange (rc : Int) (oa : OArchive) : (exchange rc oa).Plain Eff.OffSocket :=
  plain_exchange (fun _ => trivial) trivial trivial rc oa

private theorem off_keeps : Keeps (Discipline.free (R := Eff.Resp) Eff.OffSocket) () := by
  refine ⟨trivial, trivial, fun e he => ⟨?_, fun _ _ _ => rfl⟩⟩
  cases e with
  | getXid => trivial
  | printf fmt args => trivial
  | undefined f => trivial
  | _ => exact he.elim

/-- No request touches the descriptors. -/
private def offSocketTelling : Telling (Discipline.free (R := Eff.Resp) Eff.OffSocket) where
  Begins _ := True
  Encoded _ _ := True
  Told _ _ := True
  Reported _ _ := True
  begins _ := ⟨trivial, fun _ => trivial⟩
  keeps _ := off_keeps
  told_keeps _ := off_keeps
  exchanged oa _ _ := (off_exchange _ oa).free fun x => by cases x <;> trivial
  lastErr _ := ⟨trivial, fun _ _ _ => trivial⟩
  load _ := ⟨trivial, fun _ _ _ => ⟨trivial, fun _ _ => trivial⟩⟩
  proceeds _ _ _ := trivial
  reported _ := trivial

theorem Call.off_socket (c : Call) : (c.run H).Only Eff.OffSocket := by
  have hend : ∀ {α : Type} {p : Zk α} {Q : α → Unit → Prop}, p.Follows (.free Eff.OffSocket) Q () →
      (do
        let _ ← p
        return true : Zk Bool).Only Eff.OffSocket := fun hp => hp.only.bind fun _ => trivial
  -- without a path, or without a place for the data, a call returns at once
  cases c with
  | create path data size flags =>
    cases path with
    | none => exact trivial
    | some path => exact hend (offSocketTelling.create trivial fun _ => trivial)
  | mkdir path =>
    cases path with
    | none => exact trivial
    | some path => exact hend (offSocketTelling.mkdir trivial fun _ => trivial)
  | «exists» path stat =>
    cases path with
    | none => exact trivial
    | some path => exact hend (offSocketTelling.exists' trivial stat fun _ => trivial)
  | get path data =>
    cases path with
    | none => exact trivial
    | some path =>
      cases data with
      | false => exact trivial
      | true => exact hend (offSocketTelling.get trivial fun _ => trivial)
  | set path data =>
    cases path with
    | none => exact trivial
    | some path => exact hend (offSocketTelling.set trivial fun _ => trivial)
  | del path =>
    cases path with
    | none => exact trivial
    | some path => exact hend (offSocketTelling.del trivial fun _ => trivial)
  | getChildren path =>
    cases path with
    | none => exact trivial
    | some path => exact hend (offSocketTelling.getChildren trivial fun _ => trivial)

theorem off_doHeaderRequest (opcode : Int32) : (doHeaderRequest H opcode).Only Eff.OffSocket := by
  refine (plain_encodeRequest trivial (fun _ => trivial) opcode _).only.bind fun ⟨rc, oa⟩ => ?_
  refine (off_exchange rc oa).only.bind fun x => ?_
  cases x with
  | inl err => trivial
  | inr ia =>
    have hheader : (decodeReplyHeader H ia).Only Eff.OffSocket :=
      (plain_decode (fun _ => trivial) _ _ _).only.bind fun d => ⟨trivial, fun _ => trivial⟩
    exact hheader.bind fun _ => trivial

theorem zkPing_steady (w : World) : w.Steady (exec H (zkPing H) w).2 := by
  unfold zkPing
  generalize pingOpcode = opcode
  have hping : (do
      lock
      let rc ← doHeaderRequest H opcode
      unlock
      return rc : Zk Int).Only Eff.OffSocket := (off_doHeaderRequest opcode).bind fun _ => trivial
  exact .exec hping w

theorem off_enter (r : Option Int) : (enter H r).Only Eff.OffSocket := by
  cases r with
  | none => trivial
  | some sock =>
    refine (plain_authenticate (fun _ => trivial) trivial trivial (fun _ => trivial) (fun _ => trivial)
      (fun _ => trivial) fun _ => trivial).only.bind fun rc => Prog.only_ite.2 ⟨fun _ => ?_, fun _ => trivial⟩
    exact fun t => ⟨trivial, fun _ => ⟨trivial, fun _ => trivial⟩⟩

end OffSocket

/-! ### A pass of `do_connect` -/

variable {H : Heap} {w : World} {server : Bytes}

/-- The pass for the list entry loses no descriptor: the name of a new one is resolved, and a new one does not take the
place of another in `c->sock`. -/
def Spares (server : Bytes) (w : World) : Prop :=
  ∀ pos, strrchr server 58 = some pos →
    (0 < atoi (server.drop (pos + 1)) → 0 ≤ w.socket.1 → Resolves w (server.take pos)) ∧
    (w.client.sock ≠ -1 → 0 < atoi (server.drop (pos + 1)) ∧ 0 ≤ w.socket.1 ∧
      (w.addrs.headD false = true → Refused (w.connects.headD (-1, 0))))

instance (server : Bytes) (w : World) : Decidable (Spares server w) :=
  decidable_of_iff (∀ pos ∈ strrchr server 58,
    (0 < atoi (server.drop (pos + 1)) → 0 ≤ w.socket.1 → Resolves w (server.take pos)) ∧
    (w.client.sock ≠ -1 → 0 < atoi (server.drop (pos + 1)) ∧ 0 ≤ w.socket.1 ∧
      (w.addrs.headD false = true → Refused (w.connects.headD (-1, 0))))) Iff.rfl

private theorem socket_made (h : 0 ≤ w.socket.1) :
    w.socket.2.holding = w.holding.make w.socket.1 ∧ w.socket.2.eofs = w.eofs := by
  unfold World.socket at h ⊢
  dsimp only at h ⊢
  split
  · exact ⟨rfl, rfl⟩
  · rename_i hused
    rw [if_neg hused] at h
    exact absurd (show (0 : Int) ≤ -1 from h) (by decide)

private theorem socket_failed (h : w.socket.1 < 0) : w.socket.2.holding = w.holding ∧ w.socket.2.eofs = w.eofs := by
  unfold World.socket at h ⊢
  dsimp only at h ⊢
  split
  · rename_i hfree
    rw [if_pos hfree] at h
    exact absurd hfree.1 (not_le.2 h)
  · exact ⟨rfl, rfl⟩

private theorem lookedUp_holding (w : World) (host : Bytes) :
    (w.lookedUp host).holding = w.holding ∧ (w.lookedUp host).eofs = w.eofs := by
  unfold World.lookedUp
  split <;> exact ⟨rfl, rfl⟩

private theorem overrun_holding (w : World) (pos : Nat) :
    (w.overrun pos).holding = w.holding ∧ (w.overrun pos).eofs = w.eofs := by
  unfold World.overrun
  split <;> exact ⟨rfl, rfl⟩

private theorem spares_overrun (pos : Nat) : Spares server (w.overrun pos) ↔ Spares server w := by
  simp only [Spares, World.socket_fst]
  unfold World.overrun
  split <;> exact Iff.rfl

/-- `prepare` leaves one descriptor open at most, and `c->sock` holds it. -/
theorem prepare_sole (hw : w.holding.Sole) (hspares : Spares server w) :
    (exec H (prepare server) w).2.holding.Sole ∧ (exec H (prepare server) w).2.eofs = w.eofs := by
  cases hpos : strrchr server 58 with
  | none =>
    rw [(prepare_skipped hpos).1]
    exact ⟨hw, rfl⟩
  | some pos =>
    obtain ⟨sock, w₁, l, hdialed, hexec, -⟩ := prepare_dialed (H := H) (w := w) hpos
    rw [hexec]
    obtain ⟨hname', hsock'⟩ := (spares_overrun pos).2 hspares pos hpos
    obtain ⟨hholding, heofs⟩ := overrun_holding w pos
    rw [← hholding] at hw
    rw [← heofs]
    clear hexec hspares hholding heofs
    generalize w.overrun pos = v at *
    generalize server.take pos = host at *
    -- where no descriptor is closed, `c->sock` has held none
    have hnone : ¬ (0 < atoi (server.drop (pos + 1)) ∧ 0 ≤ v.socket.1 ∧
        (v.addrs.headD false = true → Refused (v.connects.headD (-1, 0)))) → v.holding.sock = -1 :=
      fun h => by_contra fun hne => h (hsock' hne)
    cases hdialed with
    | noPort hport => exact ⟨hw.drop (hnone (by omega)), rfl⟩
    | noSocket hport hsock =>
      obtain ⟨hholding, heofs⟩ := socket_failed hsock
      refine ⟨?_, heofs⟩
      show (v.socket.2.holding.assign (-1)).Sole
      rw [hholding]
      exact hw.drop (hnone (by omega))
    | unresolved hport hsock hname => exact absurd (hname' hport hsock) hname
    | unaccepted hport hsock hname haddr =>
      obtain ⟨hholding, heofs⟩ := socket_made hsock
      obtain ⟨hholding', heofs'⟩ := lookedUp_holding v.socket.2 host
      refine ⟨?_, heofs'.trans heofs⟩
      show ((v.socket.2.lookedUp host).holding.close v.socket.1).Sole
      rw [hholding', hholding, Holding.close_make hw.setup]
      exact hw
    | refused hport hsock hname haddr hrefused =>
      obtain ⟨hholding, heofs⟩ := socket_made hsock
      obtain ⟨hholding', heofs'⟩ := lookedUp_holding v.socket.2 host
      refine ⟨?_, heofs'.trans heofs⟩
      show ((v.socket.2.lookedUp host).holding.close v.socket.1).Sole
      rw [hholding', hholding, Holding.close_make hw.setup]
      exact hw
    | waited hport hsock hname haddr hconnected =>
      obtain ⟨hholding, heofs⟩ := socket_made hsock
      obtain ⟨hholding', heofs'⟩ := lookedUp_holding v.socket.2 host
      have hfd : v.socket.1 ≠ zkError := by
        intro h
        rw [h] at hsock
        exact absurd hsock (by decide)
      rw [if_neg hfd]
      refine ⟨?_, heofs'.trans heofs⟩
      show ((v.socket.2.lookedUp host).holding.assign v.socket.1).Sole
      rw [hholding', hholding]
      exact hw.adopt (hnone fun h => hconnected (h.2.2 haddr)) hsock

/-- A pass that meets no end of file leaves one descriptor open at most, and `c->sock` holds it. -/
theorem connectTo_sole (hw : w.holding.Sole) (hspares : Spares server w)
    (heofs : (exec H (connectTo H server) w).2.eofs = w.eofs) : (exec H (connectTo H server) w).2.holding.Sole := by
  obtain ⟨hsole, hprepared⟩ := prepare_sole (H := H) hw hspares
  have hsteady := World.Steady.exec (H := H) (off_enter (H := H) (exec H (prepare server) w).1) (exec H (prepare server) w).2
  rw [connectTo_eq, exec, Prog.run_bind] at heofs ⊢
  rw [hsteady.same (heofs.trans hprepared.symm)]
  exact hsole

/-! ### Lives of a client -/

/-- What the client is doing: nothing, or `do_connect` with so many passes to go, or it has been freed. -/
inductive Status where
  | between
  | connecting (servers : List Bytes) (retries start : Nat)
  | freed

structure Lifetime where
  world : World
  status : Status

/-- What happens to a client; `doConnect` is the beginning of a call of `do_connect`, and `pass` a pass of its loop. -/
inductive Use where
  | doConnect
  | pass
  | call (c : Call)
  | zkPing
  | resetZkclient
  | zkClose
  | destroyClient

namespace Lifetime

/-- `do_connect` before its loop. -/
def begin (w : World) : Lifetime where
  world := { w with rands := w.rands.tail }
  status := .connecting w.client.servers w.client.servers.length (w.rands.headD 0 % w.client.servers.length)

/-- A pass of the loop of `do_connect`, or its end. -/
def pass (H : Heap) (w : World) (servers : List Bytes) (start : Nat) : Nat → Lifetime
  | 0 => ⟨w, .between⟩
  | retries + 1 =>
    let r := exec H (connectTo H (serverAt servers (start % servers.length))) w
    ⟨r.2, if r.1 then .between else .connecting servers retries (start + 1)⟩

/-- The ping thread pings at any time, everything else happens in turn. -/
def step (H : Heap) (s : Lifetime) (u : Use) : Option Lifetime :=
  match s.status, u with
  | .between, .doConnect => some (begin s.world)
  | .connecting servers retries start, .pass => some (pass H s.world servers start retries)
  | .between, .call c => some ⟨(exec H (c.run H) s.world).2, .between⟩
  | .between, .resetZkclient => some ⟨(exec H (ZkClient.resetZkclient H) s.world).2, .between⟩
  | .between, .zkClose => some ⟨(exec H (ZkClient.zkClose H) s.world).2, .between⟩
  | .between, .destroyClient => some ⟨(exec H (ZkClient.destroyClient H) s.world).2, .freed⟩
  | .freed, .zkPing => none
  | status, .zkPing => some ⟨(exec H (ZkClient.zkPing H) s.world).2, status⟩
  | _, _ => none

/-- What a step can be. -/
inductive Step (H : Heap) (w : World) : Status → Use → Lifetime → Prop
  | doConnect : Step H w .between .doConnect (begin w)
  | last {servers : List Bytes} {start : Nat} : Step H w (.connecting servers 0 start) .pass ⟨w, .between⟩
  | pass {servers : List Bytes} {retries start : Nat} :
      Step H w (.connecting servers (retries + 1) start) .pass (pass H w servers start (retries + 1))
  | call {c : Call} : Step H w .between (.call c) ⟨(exec H (c.run H) w).2, .between⟩
  | resetZkclient : Step H w .between .resetZkclient ⟨(exec H (ZkClient.resetZkclient H) w).2, .between⟩
  | zkClose : Step H w .between .zkClose ⟨(exec H (ZkClient.zkClose H) w).2, .between⟩
  | destroyClient : Step H w .between .destroyClient ⟨(exec H (ZkClient.destroyClient H) w).2, .freed⟩
  | zkPing {status : Status} (hstatus : status ≠ .freed) :
      Step H w status .zkPing ⟨(exec H (ZkClient.zkPing H) w).2, status⟩

theorem step_cases {s s' : Lifetime} {u : Use} (h : s.step H u = some s') : Step H s.world s.status u s' := by
  obtain ⟨w, status⟩ := s
  cases status with
  | between =>
    cases u with
    | pass => cases h
    | doConnect =>
      obtain rfl := Option.some.inj h
      exact .doConnect
    | call c =>
      obtain rfl := Option.some.inj h
      exact .call
    | zkPing =>
      obtain rfl := Option.some.inj h
      exact .zkPing nofun
    | resetZkclient =>
      obtain rfl := Option.some.inj h
      exact .resetZkclient
    | zkClose =>
      obtain rfl := Option.some.inj h
      exact .zkClose
    | destroyClient =>
      obtain rfl := Option.some.inj h
      exact .destroyClient
  | connecting servers retries start =>
    cases u with
    | pass =>
      obtain rfl := Option.some.inj h
      cases retries with
      | zero => exact .last
      | succ retries => exact .pass
    | zkPing =>
      obtain rfl := Option.some.inj h
      exact .zkPing nofun
    | _ => cases h
  | freed => cases u <;> cases h

end Lifetime

/-! ### Ownership -/

/-- `c->sock` is `-1` or an open descriptor, every open descriptor is `c->sock` or still being set up, and no descriptor
was closed twice. -/
structure SocketOwned (s : Lifetime) : Prop where
  held : s.status ≠ .freed → s.world.client.sock = -1 ∨ s.world.client.sock ∈ s.world.opened
  owned : ∀ fd ∈ s.world.opened, (s.status ≠ .freed ∧ fd = s.world.client.sock) ∨ s.world.setup = some fd
  once : s.world.stale = []

/-- The client that `new_client` makes, before it connects. -/
def newClient (env : World) (servers : List Bytes) (sessionTimeout timeout now lastErr : Int) (pingTid : Nat) :
    Lifetime where
  world := { env with
    client := initClient servers sessionTimeout timeout now lastErr pingTid, opened := [], setup := none, stale := [] }
  status := .between

/-- The steps after which the client owns what is open: no `read` answers 0, a pass of `do_connect` loses no descriptor,
`reset_zkclient` does not meet the descriptor 0, `zk_close` meets none at all, and neither does `destroy_client`, the
descriptor 0 aside. -/
structure Tidy (H : Heap) (s : Lifetime) (u : Use) : Prop where
  eofs : ∀ s', s.step H u = some s' → s'.world.eofs = s.world.eofs
  pass : ∀ servers retries start, s.status = .connecting servers (retries + 1) start → u = .pass →
    Spares (serverAt servers (start % servers.length)) s.world
  reset : u = .resetZkclient → s.world.client.sock ≠ 0
  close : u = .zkClose → s.world.client.sock = -1
  destroy : u = .destroyClient → s.world.client.sock ≤ 0

/-- What is reached from `s₀` when every step meets the condition `C`. -/
inductive Lives (C : Heap → Lifetime → Use → Prop) (s₀ : Lifetime) : Lifetime → Prop
  | start : Lives C s₀ s₀
  | step {H : Heap} {s s' : Lifetime} {u : Use} (hrun : Lives C s₀ s) (hcond : C H s u) (hstep : s.step H u = some s') :
      Lives C s₀ s'

namespace Lifetime

/-- `c->sock` holds all that is open; after the end nothing is open. -/
def Sound (s : Lifetime) : Prop :=
  (s.status ≠ .freed → s.world.holding.Sole) ∧ (s.status = .freed → s.world.holding.Clear)

theorem Sound.owned {s : Lifetime} (h : s.Sound) : SocketOwned s := by
  by_cases hfreed : s.status = .freed
  · have hclear := h.2 hfreed
    refine ⟨fun hne => absurd hfreed hne, fun fd hfd => ?_, hclear.stale⟩
    have hopened : s.world.opened = [] := hclear.opened
    rw [hopened] at hfd
    cases hfd
  · have hsole := h.1 hfreed
    rcases hsole.sock with ⟨hsock, hopened⟩ | ⟨-, hopened⟩
    · have hopened : s.world.opened = [] := hopened
      refine ⟨fun _ => .inl hsock, fun fd hfd => ?_, hsole.stale⟩
      rw [hopened] at hfd
      cases hfd
    · have hopened : s.world.opened = [s.world.client.sock] := hopened
      refine ⟨fun _ => .inr (by rw [hopened]; exact List.mem_singleton_self _), fun fd hfd => ?_, hsole.stale⟩
      rw [hopened] at hfd
      exact .inl ⟨hfreed, List.mem_singleton.1 hfd⟩

end Lifetime

/-! ### The other calls -/

private theorem exec_resetZkclient : exec H (resetZkclient H) w = exec H (closeSession H) w := by
  rw [resetZkclient_eq]
  show exec H (if w.client.pingTid ≠ 0 then _ else _) w = _
  split <;> rfl

/-- `reset_zkclient` closes `c->sock` and forgets it. -/
theorem resetZkclient_sole (hw : w.holding.Sole) (hsock : w.client.sock ≠ 0)
    (heofs : (exec H (resetZkclient H) w).2.eofs = w.eofs) : (exec H (resetZkclient H) w).2.holding.Sole := by
  rw [exec_resetZkclient] at heofs ⊢
  have hclose : exec H (closeSession H) w = exec H (clearSession H) ((w.closeFd w.client.sock).assign (.sock (-1))) := by
    show exec H (if w.client.sock ≠ 0 then _ else _) w = _
    rw [if_pos hsock]
    rfl
  have hclear : (clearSession H).Only Eff.OffSocket :=
    (plain_clearSession (fun _ => trivial) (fun _ => trivial) trivial trivial trivial trivial).only
  have hsteady := World.Steady.exec (H := H) hclear ((w.closeFd w.client.sock).assign (.sock (-1)))
  rw [hclose] at heofs ⊢
  rw [hsteady.same heofs]
  have hclosed := hw.close
  exact ⟨rfl, hclosed.stale, .inl ⟨rfl, hclosed.opened⟩⟩

/-- The world after `do_header_request` in `zk_close`. -/
private theorem exec_zkClose : ∃ v, w.Steady v ∧ (exec H (zkClose H) w).2 = v.closeFd v.client.sock := by
  have hsteady := World.Steady.exec (H := H) (off_doHeaderRequest (H := H) closeOpcode) w
  refine ⟨_, hsteady, ?_⟩
  unfold zkClose
  generalize closeOpcode = opcode
  rw [exec, Prog.run_bind]
  rfl

/-- `zk_close` has no effect when nothing is open. -/
theorem zkClose_sole (hw : w.holding.Sole) (hsock : w.client.sock = -1)
    (heofs : (exec H (zkClose H) w).2.eofs = w.eofs) : (exec H (zkClose H) w).2.holding.Sole := by
  obtain ⟨v, hsteady, hclose⟩ := exec_zkClose (H := H) (w := w)
  rw [hclose] at heofs ⊢
  have hsame := hsteady.same heofs
  have hv : v.holding.Sole := hsame.symm ▸ hw
  have hnone : v.holding.sock = -1 := (congrArg Holding.sock hsame).trans hsock
  show (v.holding.close v.holding.sock).Sole
  rw [hv.close_none hnone]
  exact hv

/-- After `destroy_client` nothing is open. -/
theorem destroyClient_clear (hw : w.holding.Sole) (hsock : w.client.sock ≤ 0)
    (heofs : (exec H (destroyClient H) w).2.eofs = w.eofs) : (exec H (destroyClient H) w).2.holding.Clear := by
  obtain ⟨v, hsteady, hclose⟩ := exec_zkClose (H := H) (w := w.assign (.state zkStateStop))
  have hdestroy : (exec H (destroyClient H) w).2 =
      if 0 < v.client.sock then (v.closeFd v.client.sock).closeFd v.client.sock else v.closeFd v.client.sock := by
    unfold destroyClient
    generalize zkClose H = p at hclose
    have hrun : exec H (do
        perform (.store (.state zkStateStop))
        perform (.join (← perform .load).pingTid)
        let _ ← p
        let c ← perform .load
        if 0 < c.sock then perform (.close c.sock)) w = exec H (p >>= fun _ => do
        let c ← perform .load
        if 0 < c.sock then perform (.close c.sock)) (w.assign (.state zkStateStop)) := rfl
    rw [hrun, exec, Prog.run_bind, hclose]
    show (exec H (if 0 < v.client.sock then _ else _) _).2 = _
    split <;> rfl
  have hstop : w.Steady (w.assign (.state zkStateStop)) := .of_eq rfl rfl
  have hsteady : w.Steady v := hstop.trans hsteady
  have hv : v.eofs = w.eofs := by
    rw [hdestroy] at heofs
    split at heofs <;> exact heofs
  have hsame := hsteady.same hv
  have hsock : v.client.sock ≤ 0 := (congrArg Holding.sock hsame).trans_le hsock
  rw [hdestroy, if_neg (by omega)]
  exact (hsame.symm ▸ hw : v.holding.Sole).close

/-! ### Runs -/

theorem Lifetime.Sound.step {s s' : Lifetime} {u : Use} (h : s.Sound) (hcond : Tidy H s u)
    (hstep : s.step H u = some s') :
    s'.Sound := by
  have heofs := hcond.eofs s' hstep
  obtain ⟨hopen, -⟩ := h
  have hbetween : ∀ {status : Status} {w' : World}, status ≠ .freed → w'.holding.Sole → Sound ⟨w', status⟩ :=
    fun hstatus hsole => ⟨fun _ => hsole, fun hfreed => absurd hfreed hstatus⟩
  have hfreed : ∀ {w' : World}, w'.holding.Clear → Sound ⟨w', .freed⟩ :=
    fun hclear => ⟨fun hne => absurd rfl hne, fun _ => hclear⟩
  obtain ⟨w, status⟩ := s
  have hcases : Step H w status u s' := step_cases hstep
  dsimp only at heofs hopen
  have hsteady : ∀ {w' : World}, w.Steady w' → status ≠ .freed → w'.eofs = w.eofs → w'.holding.Sole := by
    intro w' hsteady hstatus h
    rw [hsteady.same h]
    exact hopen hstatus
  cases hcases with
  | doConnect => exact hbetween nofun (hopen nofun)
  | last => exact hbetween nofun (hopen nofun)
  | @pass servers retries start =>
    refine hbetween ?_ (connectTo_sole (hopen nofun) (hcond.pass servers retries start rfl rfl) heofs)
    split <;> nofun
  | call =>
    dsimp only at heofs
    exact hbetween nofun (hsteady (.exec (Call.off_socket _) w) nofun heofs)
  | resetZkclient =>
    dsimp only at heofs
    exact hbetween nofun (resetZkclient_sole (hopen nofun) (hcond.reset rfl) heofs)
  | zkClose =>
    dsimp only at heofs
    exact hbetween nofun (zkClose_sole (hopen nofun) (hcond.close rfl) heofs)
  | destroyClient =>
    dsimp only at heofs
    exact hfreed (destroyClient_clear (hopen nofun) (hcond.destroy rfl) heofs)
  | zkPing hstatus =>
    dsimp only at heofs
    exact hbetween hstatus (hsteady (zkPing_steady w) hstatus heofs)

theorem newClient_sound (env : World) (servers : List Bytes) (sessionTimeout timeout now lastErr : Int) (pingTid : Nat) :
    (newClient env servers sessionTimeout timeout now lastErr pingTid).Sound :=
  ⟨fun _ => ⟨rfl, rfl, .inl ⟨rfl, rfl⟩⟩, nofun⟩

/-- In a life of tidy steps the client owns what is open, and nothing else. -/
theorem socket_owned {env : World} {servers : List Bytes} {sessionTimeout timeout now lastErr : Int} {pingTid : Nat}
    {s : Lifetime} (hrun : Lives Tidy (newClient env servers sessionTimeout timeout now lastErr pingTid) s) :
    SocketOwned s := by
  have hsound : s.Sound := by
    induction hrun with
    | start => exact newClient_sound ..
    | step hrun hcond hstep ih => exact ih.step hcond hstep
  exact hsound.owned

namespace Lifetime

/-- The state after a list of things that happen, when they pass the test `ok`. -/
def runs (ok : Lifetime → Use → Bool) (H : Heap) : List Use → Lifetime → Option Lifetime
  | [], s => some s
  | u :: us, s => if ok s u then (s.step H u).bind (runs ok H us) else none

/-- The passes of a call of `do_connect` are a run of its loop. -/
theorem runs_connectLoop (servers : List Bytes) (retries start : Nat) (w : World) :
    ∃ n, runs (fun _ _ => true) H (List.replicate n .pass) ⟨w, .connecting servers retries start⟩ =
      some ⟨(exec H (connectLoop H servers retries start) w).2, .between⟩ := by
  induction retries generalizing start w with
  | zero => exact ⟨1, rfl⟩
  | succ retries ih =>
    obtain ⟨r, hr⟩ : ∃ r, exec H (connectTo H (serverAt servers (start % servers.length))) w = r := ⟨_, rfl⟩
    have hloop : exec H (connectLoop H servers (retries + 1) start) w =
        if r.1 then (zkOk, r.2) else exec H (connectLoop H servers retries (start + 1)) r.2 := by
      have hbind : exec H (connectLoop H servers (retries + 1) start) w =
          exec H (if (exec H (connectTo H (serverAt servers (start % servers.length))) w).1 then return zkOk
            else connectLoop H servers retries (start + 1))
          (exec H (connectTo H (serverAt servers (start % servers.length))) w).2 := Prog.run_bind ..
      rw [hbind, hr]
      split <;> rfl
    have hstep : step H ⟨w, .connecting servers (retries + 1) start⟩ .pass =
        some ⟨r.2, if r.1 then .between else .connecting servers retries (start + 1)⟩ := by
      rw [← hr]
      rfl
    rw [hloop]
    by_cases hdone : r.1
    · rw [if_pos hdone] at hstep ⊢
      refine ⟨1, ?_⟩
      show (if true then (step H _ .pass).bind _ else none) = _
      rw [if_pos rfl, hstep]
      rfl
    · rw [if_neg hdone] at hstep ⊢
      obtain ⟨n, hn⟩ := ih (start + 1) r.2
      refine ⟨n + 1, ?_⟩
      show (if true then (step H _ .pass).bind _ else none) = _
      rw [if_pos rfl, hstep]
      exact hn

theorem runs_doConnect (w : World) : ∃ n, runs (fun _ _ => true) H (.doConnect :: List.replicate n .pass) ⟨w, .between⟩ =
    some ⟨(exec H (doConnect H) w).2, .between⟩ :=
  runs_connectLoop _ _ _ _

end Lifetime

/-- A list of things that happen is a life when the test makes sure of the condition. -/
theorem Lives.of_runs {C : Heap → Lifetime → Use → Prop} {ok : Lifetime → Use → Bool} (hok : ∀ s u, ok s u → C H s u)
    {s₀ s s' : Lifetime} {us : List Use} (hrun : Lives C s₀ s) (h : s.runs ok H us = some s') : Lives C s₀ s' := by
  induction us generalizing s with
  | nil =>
    cases h
    exact hrun
  | cons u us ih =>
    unfold Lifetime.runs at h
    split at h
    · rename_i hcond
      cases hs : s.step H u with
      | none =>
        rw [hs] at h
        cases h
      | some s₁ =>
        rw [hs] at h
        exact ih (.step hrun (hok s u hcond) hs) h
    · cases h

/-- Two servers: the connection to the first breaks before the client is authenticated. -/
private def breaking : World :=
  { World.idle (initClient [] 0 0 0 0 0) with
    sockets := [5, 6], hosts := [true, true], addrs := [true, true], connects := [(0, 0), (0, 0)]
    polls := [(1, 4), (1, 4)], writes := [.fail 32] }

private def breakingStart (servers : List Bytes) : Lifetime := newClient breaking servers 60 3 0 0 0

/-- A test for `Tidy` that is enough for a life without `zk_close` and `destroy_client`. -/
private def tidyTest (s : Lifetime) (u : Use) : Bool :=
  ((s.step .plenty u).all fun s' => s'.world.eofs == s.world.eofs) &&
  match s.status, u with
  | .connecting servers (_ + 1) start, .pass => Spares (serverAt servers (start % servers.length)) s.world
  | _, .resetZkclient => s.world.client.sock ≠ 0
  | _, .zkClose => false
  | _, .destroyClient => false
  | _, _ => true

private theorem tidy_of_test {s : Lifetime} {u : Use} (h : tidyTest s u) : Tidy .plenty s u := by
  obtain ⟨heofs, hrest⟩ := Bool.and_eq_true _ _ ▸ h
  refine ⟨fun s' hs' => ?_, ?_, ?_, ?_, ?_⟩
  · rw [hs'] at heofs
    exact beq_iff_eq.1 heofs
  · intro servers retries start hstatus hu
    subst hu
    rw [hstatus] at hrest
    exact of_decide_eq_true hrest
  · intro hu
    subst hu
    obtain ⟨w, status⟩ := s
    cases status with
    | connecting servers retries start => cases retries <;> exact of_decide_eq_true hrest
    | _ => exact of_decide_eq_true hrest
  · intro hu
    subst hu
    obtain ⟨w, status⟩ := s
    cases status with
    | connecting servers retries start => cases retries <;> cases hrest
    | _ => cases hrest
  · intro hu
    subst hu
    obtain ⟨w, status⟩ := s
    cases status with
    | connecting servers retries start => cases retries <;> cases hrest
    | _ => cases hrest

/-- The only server breaks the connection, and the client is reset. -/
theorem socket_owned_reset : ∃ s, Lives Tidy (breakingStart [[104, 58, 49]]) s ∧ s.world.connects = [(0, 0)] ∧
    SocketOwned s := by
  have hrun : ((breakingStart [[104, 58, 49]]).runs tidyTest .plenty [.doConnect, .pass, .pass, .resetZkclient]).any
      fun s => s.world.connects == [(0, 0)] := by decide +kernel
  obtain ⟨s, hs, hconnects⟩ := (Option.any_eq_true _ _).1 hrun
  have hlives : Lives Tidy (breakingStart [[104, 58, 49]]) s := .of_runs (fun _ _ => tidy_of_test) .start hs
  exact ⟨s, hlives, beq_iff_eq.1 hconnects, socket_owned hlives⟩

/-- The descriptor of the first connection stays open when `do_connect` assigns that of the second. -/
theorem doConnect_leaks : ¬ ∀ (env : World) (servers : List Bytes) (sessionTimeout timeout now lastErr : Int) (pingTid : Nat)
    (s : Lifetime), Lives (fun _ _ _ => True) (newClient env servers sessionTimeout timeout now lastErr pingTid) s →
    SocketOwned s := by
  intro hall
  have hrun : ((breakingStart [[104, 58, 49], [104, 58, 49]]).runs (fun _ _ => true) .plenty
      [.doConnect, .pass, .pass]).any fun s => decide (5 ∈ s.world.opened ∧ s.world.client.sock = 6 ∧
        s.world.setup = none) := by decide +kernel
  obtain ⟨s, hs, hleak⟩ := (Option.any_eq_true _ _).1 hrun
  obtain ⟨hopened, hsock, hsetup⟩ := of_decide_eq_true hleak
  have howned := hall _ _ _ _ _ _ _ s (.of_runs (fun _ _ _ => trivial) .start hs)
  rcases howned.owned 5 hopened with ⟨-, h⟩ | h
  · rw [hsock] at h
    cases h
  · rw [hsetup] at h
    cases h

end ZkClient
