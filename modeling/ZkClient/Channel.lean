import ZkClient.Decode
import ZkClient.Transfer
import ZkClient.Lib.Simulation

/-!
# A network that delivers at once

The client in front of a peer that answers its requests, seen in two ways.  In a `Channel` a request arrives as a whole
and its replies wait to be received.  In a `Pipe` there are only bytes: the socket accepts a request in any portions,
the peer takes whole frames out of what has arrived, and `read` delivers the frames of the replies in any portions.

The network is as good as it can be (`Pipe.Carries`): a connection is in progress until `poll` reports it, `poll` finds
every descriptor ready, and no `read` or `write` fails, not even for the time being.  The transfers of the client do not
survive an `EAGAIN`.

`Pipe.run_carries` is the refinement: whatever the portions, every program of the client has the same result over a pipe
as over the channel, as long as a reply is there whenever it receives one (`Channel.Fits`).
-/

namespace ZkClient

open Pthread

/-- The other end of the connections: what a new connection does to it, and which replies it sends to a request. -/
structure Peer (P : Type) where
  connected : P → P
  answer : Bytes → P → List Bytes × P

/-- What `poll` reports of a descriptor that can be read and written. -/
def ready : Int × Nat := (1, pollin ||| pollout)

/-! ### Messages -/

structure Channel (P : Type) where
  peer : P
  client : Client
  xid : Int32
  clock : List Int
  rands : List Nat
  sockets : List Int
  /-- The descriptors that the client has opened and not closed. -/
  opened : List Int
  /-- The replies that the client has not received. -/
  inbox : List Bytes
  output : List (String × List Arg)
  faults : List Fault
  exited : Bool

namespace Channel

variable {P : Type}

/-- `get_xid`. -/
def getXid (c : Channel P) : Int32 × Channel P :=
  let start := if c.xid = -1 then Int32.ofInt (c.clock.headD 0) else c.xid
  (start, { c with xid := start + 1, clock := if c.xid = -1 then c.clock.tail else c.clock })

/-- A message arrives at the peer. -/
def deliver (peer : Peer P) (payload : Bytes) (c : Channel P) : Channel P :=
  { c with peer := (peer.answer payload c.peer).2, inbox := c.inbox ++ (peer.answer payload c.peer).1 }

/-- The answers of a network on which nothing fails: connections are made, and messages arrive. -/
def handle (peer : Peer P) : Handler (Channel P)
  | .getXid, c => c.getXid
  | .time, c => (c.clock.headD 0, { c with clock := c.clock.tail })
  | .rand, c => (c.rands.headD 0, { c with rands := c.rands.tail })
  | .load, c => (c.client, c)
  | .pingTid, c => (c.client.pingTid, c)
  | .store u, c => ((), { c with client := c.client.assign u })
  | .sendRequest payload, c => (zkOk, c.deliver peer payload)
  | .recvResponse, c =>
    match c.inbox with
    | [] => (none, { c with client := { c.client with lastErr := zkSocketErr } })
    | reply :: rest => (some (archiveAt reply 0), { c with inbox := rest })
  | .socket, c =>
    match c.sockets with
    | [] => (-1, c)
    | fd :: fds =>
      if 0 ≤ fd ∧ fd ∉ c.opened then
        (fd, { c with sockets := fds, opened := fd :: c.opened, inbox := [], peer := peer.connected c.peer })
      else (-1, { c with sockets := fds })
  | .gethostbyname _, c => (true, c)
  | .inetPton _, c => (true, c)
  | .connect _ _, c => ((-1, einprogress), c)
  | .poll _ _, c => (ready, c)
  | .close fd, c => ((), { c with opened := c.opened.erase fd })
  | .usleep, c => ((), c)
  | .join _, c => ((), c)
  | .printf fmt args, c => ((), { c with output := c.output ++ [(fmt, args)] })
  | .undefined f, c => ((), { c with faults := c.faults ++ [f] })
  | .exit, c => ((), { c with exited := true })

/-- Frames have lengths that an `int32_t` holds, and nobody waits for a reply that does not come. -/
def Fits (e : Eff) (c : Channel P) : Prop :=
  match e with
  | .sendRequest payload => payload.length < 2 ^ 31
  | .recvResponse => ∃ reply rest, c.inbox = reply :: rest ∧ reply.length < 2 ^ 31
  | _ => True

/-- How many outcomes of each kind the operation can take up at most. -/
def need (e : Eff) (c : Channel P) : Nat :=
  match e with
  | .sendRequest payload => (frame payload).length
  | .recvResponse => (frame (c.inbox.headD [])).length
  | .gethostbyname _ | .inetPton _ | .connect _ _ | .poll _ _ => 1
  | _ => 0

end Channel

/-! ### Bytes -/

/-- The client's world, and the peer that has taken the first `taken` bytes from the wire of the connection. -/
structure Pipe (P : Type) where
  world : World
  peer : P
  taken : Nat

namespace Pipe

variable {P : Type}

/-- The peer takes frames from the wire as long as there is a whole one, at most `fuel` of them, and sends its replies. -/
def react (peer : Peer P) : Nat → Pipe P → Pipe P
  | 0, s => s
  | fuel + 1, s =>
    let arrived := s.world.wire.drop s.taken
    let len := (decodeInt32 arrived 0).toInt.toNat
    if arrived.length < 4 then s
    else if arrived.length < 4 + len then s
    else
      let r := peer.answer ((arrived.drop 4).take len) s.peer
      react peer fuel
        { world := { s.world with stream := s.world.stream ++ r.1.flatMap frame }, peer := r.2, taken := s.taken + 4 + len }

/-- The world answers; the peer acts when bytes arrive and when a connection is made. -/
def handle (H : Heap) (peer : Peer P) : Handler (Pipe P)
  | .sendRequest payload, s =>
    let r := s.world.sendRequest H payload
    (r.1, react peer r.2.wire.length { s with world := r.2 })
  | .socket, s =>
    let r := s.world.socket
    if r.1 = -1 then (r.1, { s with world := r.2 })
    else (r.1, { world := r.2, peer := peer.connected s.peer, taken := 0 })
  | e, s =>
    let r := World.handle H e s.world
    (r.1, { s with world := r.2 })

/-- The pipe carries the channel: nothing is under way but the replies that wait in the channel, and each list of coming
outcomes has at least `n` entries, all of which are successes.  So a descriptor is ready whenever it is polled, and
every `read` and `write` transfers a byte at least. -/
structure Carries (n : Nat) (s : Pipe P) (c : Channel P) : Prop where
  peer : s.peer = c.peer
  client : s.world.client = c.client
  xid : s.world.xid = c.xid
  clock : s.world.clock = c.clock
  rands : s.world.rands = c.rands
  sockets : s.world.sockets = c.sockets
  output : s.world.output = c.output
  faults : s.world.faults = c.faults
  exited : s.world.exited = c.exited
  stream : s.world.stream = c.inbox.flatMap frame
  taken : s.taken = s.world.wire.length
  streams : s.world.streams = []
  opened : s.world.opened = c.opened
  polls : (∀ p ∈ s.world.polls, p = ready) ∧ n ≤ s.world.polls.length
  hosts : (∀ b ∈ s.world.hosts, b = true) ∧ n ≤ s.world.hosts.length
  addrs : (∀ b ∈ s.world.addrs, b = true) ∧ n ≤ s.world.addrs.length
  connects : (∀ r ∈ s.world.connects, r = (-1, einprogress)) ∧ n ≤ s.world.connects.length
  writes : Accepting s.world.writes n
  reads : Delivering s.world.reads n

/-- The pipe for a channel in which the bytes pass one by one. -/
def bytewise (n : Nat) (c : Channel P) : Pipe P where
  world := { World.idle c.client with
    xid := c.xid, clock := c.clock, rands := c.rands, sockets := c.sockets, opened := c.opened, output := c.output
    faults := c.faults, exited := c.exited, stream := c.inbox.flatMap frame, polls := .replicate n ready, hosts := .replicate n true
    addrs := .replicate n true, connects := .replicate n (-1, einprogress), writes := .replicate n (.bytes 1)
    reads := .replicate n (.bytes 1) }
  peer := c.peer
  taken := 0

theorem carries_bytewise (n : Nat) (c : Channel P) : Carries n (bytewise n c) c := by
  have hall : ∀ {α : Type} (a : α), (∀ x ∈ List.replicate n a, x = a) ∧ n ≤ (List.replicate n a).length :=
    fun a => ⟨fun _ => List.eq_of_mem_replicate, (List.length_replicate ..).ge⟩
  exact {
    peer := rfl, client := rfl, xid := rfl, clock := rfl, rands := rfl, sockets := rfl, output := rfl, faults := rfl
    exited := rfl, stream := rfl, taken := rfl, streams := rfl, opened := rfl
    polls := hall _, hosts := hall _, addrs := hall _, connects := hall _
    writes := ⟨fun x h => ⟨1, List.eq_of_mem_replicate h⟩, (List.length_replicate ..).ge⟩
    reads := ⟨fun x h => ⟨1, List.eq_of_mem_replicate h⟩, (List.length_replicate ..).ge⟩ }

/-! ### The pipe carries the channel -/

variable {H : Heap} {peer : Peer P} {n : Nat} {s : Pipe P} {c : Channel P}

private theorem react_idle (fuel : Nat) (h : s.world.wire.length ≤ s.taken) : react peer fuel s = s := by
  cases fuel with
  | zero => rfl
  | succ fuel =>
    simp only [react]
    rw [if_pos (by rw [List.length_drop]; omega)]

/-- The peer answers the one frame that it has not taken. -/
private theorem react_frame {payload : Bytes} (hlt : payload.length < 2 ^ 31) {fuel : Nat} (hfuel : 0 < fuel)
    (h : s.world.wire.drop s.taken = frame payload) :
    react peer fuel s =
      { world := { s.world with stream := s.world.stream ++ (peer.answer payload s.peer).1.flatMap frame }
        peer := (peer.answer payload s.peer).2, taken := s.world.wire.length } := by
  obtain ⟨fuel, rfl⟩ := Nat.exists_eq_succ_of_ne_zero hfuel.ne'
  have hlen : (frame payload).length = 4 + payload.length := by simp [frame]
  have hread : (decodeInt32 (frame payload) 0).toInt = payload.length := decodeInt32_lengthPrefix hlt
  have hwire : s.world.wire.length = s.taken + 4 + payload.length := by
    have := congrArg List.length h
    rw [List.length_drop, hlen] at this
    omega
  have hbody : ((frame payload).drop 4).take payload.length = payload := List.take_length
  simp only [react, h, hread, Int.toNat_natCast]
  rw [if_neg (by omega), if_neg (by omega), hbody, react_idle fuel (by simp only; omega)]
  simp only [hwire]

theorem Carries.anti {m : Nat} (h : Carries m s c) (hle : n ≤ m) : Carries n s c :=
  { h with
    polls := ⟨h.polls.1, hle.trans h.polls.2⟩
    hosts := ⟨h.hosts.1, hle.trans h.hosts.2⟩
    addrs := ⟨h.addrs.1, hle.trans h.addrs.2⟩
    connects := ⟨h.connects.1, hle.trans h.connects.2⟩
    writes := ⟨h.writes.bytes, hle.trans h.writes.enough⟩
    reads := ⟨h.reads.bytes, hle.trans h.reads.enough⟩ }

/-- A successful outcome at the front of a list of them. -/
private theorem take_outcome {α : Type} {xs : List α} {a d : α} {k : Nat}
    (h : (∀ x ∈ xs, x = a) ∧ 1 + k ≤ xs.length) :
    xs.headD d = a ∧ (∀ x ∈ xs.tail, x = a) ∧ k ≤ xs.tail.length := by
  obtain ⟨hall, hlen⟩ := h
  cases xs with
  | nil => simp at hlen
  | cons x xs =>
    refine ⟨hall x (by simp), fun y hy => hall y (by simp [List.mem_of_mem_tail hy]), ?_⟩
    simp only [List.length_cons] at hlen
    simp only [List.tail_cons]
    omega

private theorem carries_sendRequest (hH : H.Succeeds) {payload : Bytes} (hlt : payload.length < 2 ^ 31)
    (h : Carries ((frame payload).length + n) s c) :
    (handle H peer (.sendRequest payload) s).1 = zkOk ∧
      Carries n (handle H peer (.sendRequest payload) s).2 (c.deliver peer payload) := by
  have hlen : (frame payload).length = 4 + payload.length := by simp [frame]
  obtain ⟨hhead, htail⟩ := take_outcome (d := (0, 0)) (k := n) ⟨h.polls.1, le_trans (by omega) h.polls.2⟩
  obtain ⟨ys, hsend, hleft⟩ := World.sendRequest_leaves hH (w := s.world) (by rw [hhead]; rfl) h.writes
  have hdrop : (s.world.wire ++ frame payload).drop s.taken = frame payload := by
    rw [h.taken, List.drop_left]
  have hpos : 0 < (s.world.wire ++ frame payload).length := by
    rw [List.length_append]
    omega
  have hreact : react peer (s.world.wire ++ frame payload).length { s with
      world := { s.world with polls := s.world.polls.tail, wire := s.world.wire ++ frame payload, writes := ys } } = _ :=
    react_frame hlt hpos hdrop
  simp only [handle, hsend, hreact]
  refine ⟨trivial, ?_⟩
  have h' := h.anti (Nat.le_add_left n _)
  exact { h' with
    peer := by simp only [Channel.deliver, h.peer]
    stream := by simp only [Channel.deliver, h.stream, h.peer, List.flatMap_append]
    taken := rfl
    polls := htail
    writes := hleft }

private theorem carries_recvResponse (hH : H.Succeeds) {reply : Bytes} {rest : List Bytes}
    (hinbox : c.inbox = reply :: rest) (hlt : reply.length < 2 ^ 31) (h : Carries ((frame reply).length + n) s c) :
    (handle H peer .recvResponse s).1 = some (archiveAt reply 0) ∧
      Carries n (handle H peer .recvResponse s).2 { c with inbox := rest } := by
  have hlen : (frame reply).length = 4 + reply.length := by simp [frame]
  obtain ⟨hhead, htail⟩ := take_outcome (d := (0, 0)) (k := n) ⟨h.polls.1, le_trans (by omega) h.polls.2⟩
  have hstream : s.world.stream = frame reply ++ rest.flatMap frame := by rw [h.stream, hinbox]; rfl
  obtain ⟨ys, hrecv, hleft⟩ := World.recvResponse_leaves hH (w := s.world) hlt (by rw [hhead]; rfl) hstream h.reads
  simp only [handle, World.handle_recvResponse, hrecv]
  have h' := h.anti (Nat.le_add_left n _)
  exact ⟨trivial, { h' with stream := rfl, polls := htail, reads := hleft }⟩

private theorem carries_socket (h : Carries n s c) :
    (handle H peer .socket s).1 = (Channel.handle peer .socket c).1 ∧
      Carries n (handle H peer .socket s).2 (Channel.handle peer .socket c).2 := by
  have hsockets := h.sockets
  cases hc : c.sockets with
  | nil =>
    rw [hc] at hsockets
    simp only [handle, World.socket, Channel.handle, hc, hsockets]
    exact ⟨rfl, { h with sockets := by simpa using hc.symm }⟩
  | cons fd fds =>
    rw [hc] at hsockets
    simp only [handle, World.socket, Channel.handle, hc, hsockets, List.headD_cons, List.tail_cons, h.opened]
    by_cases hfd : 0 ≤ fd ∧ fd ∉ c.opened
    · have hne : fd ≠ -1 := by omega
      simp only [if_pos hfd, if_neg hne]
      exact ⟨trivial, { h with
        peer := by rw [h.peer]
        sockets := rfl
        stream := by rw [h.streams]; rfl
        taken := rfl
        streams := by rw [h.streams]; rfl
        opened := rfl }⟩
    · simp only [if_neg hfd, if_true]
      exact ⟨trivial, { h with sockets := rfl, opened := rfl }⟩

/-- One operation of the client over the pipe and over the channel. -/
theorem step_carries (hH : H.Succeeds) (e : Eff) (hfits : Channel.Fits e c) (h : Carries (Channel.need e c + n) s c) :
    (handle H peer e s).1 = (Channel.handle peer e c).1 ∧ Carries n (handle H peer e s).2 (Channel.handle peer e c).2 := by
  have h' := h.anti (Nat.le_add_left n _)
  cases e with
  | sendRequest payload => exact carries_sendRequest hH hfits h
  | recvResponse =>
    obtain ⟨reply, rest, hinbox, hlt⟩ := hfits
    simp only [Channel.need, hinbox, List.headD_cons] at h
    simp only [Channel.handle, hinbox]
    exact carries_recvResponse hH hinbox hlt h
  | socket => exact carries_socket h'
  | getXid =>
    simp only [handle, World.handle_getXid, World.getXid, Channel.handle, Channel.getXid, h.xid, h.clock]
    exact ⟨trivial, { h' with xid := rfl, clock := rfl }⟩
  | time =>
    simp only [handle, World.handle, Channel.handle, h.clock]
    exact ⟨trivial, { h' with clock := rfl }⟩
  | rand =>
    simp only [handle, World.handle, Channel.handle, h.rands]
    exact ⟨trivial, { h' with rands := rfl }⟩
  | load => exact ⟨h.client, h'⟩
  | pingTid => exact ⟨congrArg Client.pingTid h.client, h'⟩
  | store u => exact ⟨rfl, { h' with client := congrArg (Client.assign · u) h.client }⟩
  | gethostbyname host =>
    obtain ⟨hhead, htail⟩ := take_outcome (d := false) h.hosts
    exact ⟨hhead, { h' with hosts := htail }⟩
  | inetPton host =>
    obtain ⟨hhead, htail⟩ := take_outcome (d := false) h.addrs
    exact ⟨hhead, { h' with addrs := htail }⟩
  | connect fd port =>
    obtain ⟨hhead, htail⟩ := take_outcome (d := (-1, 0)) h.connects
    exact ⟨hhead, { h' with connects := htail }⟩
  | poll fd timeout =>
    obtain ⟨hhead, htail⟩ := take_outcome (d := (0, 0)) h.polls
    exact ⟨hhead, { h' with polls := htail }⟩
  | close fd => exact ⟨rfl, { h' with opened := congrArg (List.erase · fd) h.opened }⟩
  | usleep => exact ⟨rfl, h'⟩
  | join t => exact ⟨rfl, h'⟩
  | printf fmt args => exact ⟨rfl, { h' with output := congrArg (· ++ [(fmt, args)]) h.output }⟩
  | undefined f => exact ⟨rfl, { h' with faults := congrArg (· ++ [f]) h.faults }⟩
  | exit => exact ⟨rfl, { h' with exited := rfl }⟩

/-- **Whole messages.**  Over a network that delivers at once, however it cuts the bytes up, a program of the client
that only receives replies that are there has the result that it has when its requests and the replies are passed as
whole messages, and it leaves the peer, the client and the output as it does then. -/
theorem run_carries (hH : H.Succeeds) {α : Type} {p : Zk α} (hfits : p.Along (Channel.handle peer) Channel.Fits c)
    (h : Carries (p.cost (Channel.handle peer) Channel.need c + n) s c) :
    (p.run (handle H peer) s).1 = (p.run (Channel.handle peer) c).1 ∧
      Carries n (p.run (handle H peer) s).2 (p.run (Channel.handle peer) c).2 :=
  Prog.run_sim (c := Channel.need) (I := Carries) (fun e _ _ _ hok hI => step_carries hH e hok hI) hfits h

/-- A message that comes back byte by byte. -/
theorem run_carries_echo :
    let echo : Peer Unit := ⟨id, fun payload _ => ([payload], ())⟩
    let c : Channel Unit := {
      peer := (), client := initClient [] 10 3 0 0 0, xid := 1, clock := [], rands := [], sockets := [], opened := []
      inbox := [], output := [], faults := [], exited := false }
    let p : Zk (Option IArchive) := do
      let _ ← perform (.sendRequest [1, 2, 3])
      perform .recvResponse
    let s := bytewise (p.cost (Channel.handle echo) Channel.need c + 0) c
    (p.run (handle .plenty echo) s).1 = (p.run (Channel.handle echo) c).1 ∧
      Carries 0 (p.run (handle .plenty echo) s).2 (p.run (Channel.handle echo) c).2 :=
  run_carries Heap.plenty_succeeds ⟨show 3 < 2 ^ 31 by decide, ⟨[1, 2, 3], [], rfl, by decide⟩, trivial⟩
    (carries_bytewise _ _)

end Pipe

end ZkClient
