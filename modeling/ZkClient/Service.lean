import ZkClient.Channel
import ZkClient.Replies
import ZkClient.Session

/-!
# Servers without bytes

A `Service` is what a server does that answers in the format of the protocol: it opens sessions, and it answers an
operation with an error or with a whole record of its response type.  `Service.peer` is the server behind the wire
format; it takes requests apart with the readers of their records.  Over a channel to it every operation of the
client is one step of the service (`Operation.run_ask`), and `authenticate` opens a session (`run_authenticate`).
-/

namespace ZkClient

open BigEndian Pthread

/-! ### Services -/

namespace Operation

/-- The operation as its request carries it: the value of the node is exactly the payload. -/
def received : Operation → Operation
  | create path data size flags =>
    let value := (create path data size flags).payload
    create path (some value) (Int32.ofNat value.length) flags
  | set path data => set path (.of (some (set path data).payload))
  | .exists path => .exists path
  | get path => get path
  | del path => del path
  | getChildren path => getChildren path

/-- The answer to an operation: an error, or a value of the response type that fits into a frame. -/
inductive Reply (op : Operation) where
  | refused (err : Int32) (neg : err.toInt < 0)
  | done (resp : op.Response) (valid : op.ValidResponse resp) (fits : (op.responseWire resp).length + 16 < 2 ^ 31)

namespace Reply

variable {op : Operation}

/-- The error field of the reply. -/
def err : op.Reply → Int32
  | refused err _ => err
  | done .. => 0

def value : op.Reply → Option op.Response
  | refused .. => none
  | done resp .. => some resp

def output (r : op.Reply) : Option Output := r.value.bind op.output

/-- The reply to the request with the id `xid`. -/
def wire (xid : Int32) (zxid : Int64) (r : op.Reply) : Bytes :=
  ReplyHeader.wire ⟨xid, zxid, r.err⟩ ++
    match r with
    | refused .. => []
    | done resp .. => op.responseWire resp

end Reply

end Operation

/-- What is granted to a new session; the password has 16 bytes. -/
structure Welcome where
  timeOut : Int32
  sessionId : Int64
  passwd : Bytes
  length_passwd : passwd.length = 16

def Welcome.grant (x : Welcome) : Grant := ⟨protocolVersion, x.timeOut, x.sessionId, some x.passwd⟩

structure Service (S : Type) where
  connect : ConnectRequest → S → Welcome × S
  operate : (op : Operation) → S → op.Reply × S
  /-- The error field of the answer to a request that is only a header. -/
  header : Int32 → S → Int32 × S
  zxid : S → Int64

/-! ### Behind the wire format -/

section Wire

variable (H : Heap)

def decodeConnect (payload : Bytes) : Option ConnectRequest :=
  let req := deserializeConnectRequest H (archiveAt payload 0) ⟨0, 0, 0, 0, .of none⟩
  if req.rc = 0 then some req.val else none

/-- The operation behind the header of a request; one with a watch, with an expected version or with another ACL than
the client's is not understood. -/
def decodeOperation (type : Int32) (ia : IArchive) : Option Operation :=
  let onPath (r : Reader WatchRequest) (op : Bytes → Operation) : Option Operation :=
    let req := r ia ⟨none, 0⟩
    if req.rc = 0 ∧ req.val.watch = 0 then req.val.path.map op else none
  if type = createOpcode then
    let req := deserializeCreateRequest H ia ⟨none, .of none, ⟨0, none⟩, 0⟩
    if req.rc = 0 ∧ req.val.acl = defaultAcl then
      req.val.path.map fun path => .create path req.val.data.buff req.val.data.len req.val.flags
    else none
  else if type = existsOpcode then onPath (deserializeExistsRequest H) .exists
  else if type = getdataOpcode then onPath (deserializeGetDataRequest H) .get
  else if type = getchildrenOpcode then onPath (deserializeGetChildrenRequest H) .getChildren
  else if type = setdataOpcode then
    let req := deserializeSetDataRequest H ia ⟨none, .of none, 0⟩
    if req.rc = 0 ∧ req.val.version = -1 then req.val.path.map fun path => .set path req.val.data else none
  else if type = deleteOpcode then
    let req := deserializeDeleteRequest H ia ⟨none, 0⟩
    if req.rc = 0 ∧ req.val.version = -1 then req.val.path.map .del else none
  else none

/-- The service behind the wire format; the flag says whether the connection has a session. -/
def Service.peer {S : Type} (v : Service S) : Peer (S × Bool) where
  connected p := (p.1, false)
  answer payload p :=
    if p.2 then
      let header := deserializeRequestHeader (archiveAt payload 0) ⟨0, 0⟩
      if header.rc ≠ 0 then ([], p)
      else match decodeOperation H header.val.type header.ia with
        | some op =>
          let r := v.operate op p.1
          ([r.1.wire header.val.xid (v.zxid r.2)], (r.2, true))
        | none =>
          let r := v.header header.val.type p.1
          ([ReplyHeader.wire ⟨header.val.xid, v.zxid r.2, r.1⟩], (r.2, true))
    else match decodeConnect H payload with
      | none => ([], p)
      | some req =>
        let r := v.connect req p.1
        ([r.1.grant.wire], (r.2, true))

end Wire

/-! ### Requests at the peer -/

variable {H : Heap} {S : Type} {v : Service S} {x : S}

namespace Operation

variable {op : Operation}

private theorem decodeOperation_eq {xid : Int32} {body : Bytes} (h : op.DecodesFrom H xid body) :
    ∃ ia slots, deserializeRequestHeader (archiveAt body 0) ⟨0, 0⟩ =
        { rc := 0, ia, val := ⟨xid, op.opcode⟩, assigned := slots, oob := false } ∧
      decodeOperation H op.opcode ia = some op.received := by
  obtain ⟨ia, hheader, hreq⟩ := h
  obtain ⟨slots, hheader⟩ := hheader ⟨0, 0⟩
  refine ⟨ia, slots, hheader, ?_⟩
  cases op with
  | create path data size flags =>
    obtain ⟨_, hreq⟩ := hreq ⟨none, .of none, ⟨0, none⟩, 0⟩
    simp [decodeOperation, opcode, hreq, received]
    exact ⟨rfl, rfl⟩
  | set path data =>
    obtain ⟨_, hreq⟩ := hreq ⟨none, .of none, 0⟩
    simp [decodeOperation, opcode, hreq, received]
  | del path =>
    obtain ⟨_, hreq⟩ := hreq ⟨none, 0⟩
    simp [decodeOperation, opcode, hreq, received]
  | «exists» path =>
    obtain ⟨_, hreq⟩ := hreq ⟨none, 0⟩
    simp [decodeOperation, opcode, hreq, received]
  | get path =>
    obtain ⟨_, hreq⟩ := hreq ⟨none, 0⟩
    simp [decodeOperation, opcode, hreq, received]
  | getChildren path =>
    obtain ⟨_, hreq⟩ := hreq ⟨none, 0⟩
    simp [decodeOperation, opcode, hreq, received]

/-- The peer takes the request of an operation for the operation. -/
theorem peer_answer (hH : H.Succeeds) (hsize : op.wire.length + 8 < 2 ^ 31) (xid : Int32) :
    (v.peer H).answer (RequestHeader.wire ⟨xid, op.opcode⟩ ++ op.wire) (x, true) =
      ([(v.operate op.received x).1.wire xid (v.zxid (v.operate op.received x).2)],
        ((v.operate op.received x).2, true)) := by
  obtain ⟨ia, slots, hheader, hop⟩ := decodeOperation_eq (decodesFrom_wire hH op xid hsize)
  simp [Service.peer, hheader, hop]

/-! ### Replies at the client -/

private theorem exists_validResponse (op : Operation) : ∃ resp, op.ValidResponse resp := by
  cases op with
  | create path data size flags => exact ⟨([] : Bytes), List.not_mem_nil⟩
  | «exists» path => exact ⟨⟨0, 0, 0, 0, 0, 0, 0, 0, 0, 0, 0⟩, trivial⟩
  | get path => exact ⟨(none, ⟨0, 0, 0, 0, 0, 0, 0, 0, 0, 0, 0⟩), nofun⟩
  | set path data => exact ⟨⟨0, 0, 0, 0, 0, 0, 0, 0, 0, 0, 0⟩, trivial⟩
  | del path => exact ⟨(), trivial⟩
  | getChildren path => exact ⟨([] : List Bytes), Nat.two_pow_pos 31, nofun⟩

/-- The client reads the response to the operation that the server has received. -/
private theorem received_response {resp : op.received.Response} (hvalid : op.received.ValidResponse resp) :
    ∃ resp' : op.Response, op.ValidResponse resp' ∧ op.responseWire resp' = op.received.responseWire resp ∧
      op.output resp' = op.received.output resp := by
  cases op <;> exact ⟨resp, hvalid, rfl, rfl⟩

private theorem reply_read (r : op.received.Reply) : ∃ resp : op.Response, op.ValidResponse resp ∧
    (∀ xid zxid, (r.wire xid zxid).length < 2 ^ 31 ∧
      r.wire xid zxid = ReplyHeader.wire ⟨xid, zxid, r.err⟩ ++ if r.err = 0 then op.responseWire resp else []) ∧
    (if r.err = 0 then op.output resp else none) = r.output := by
  have hlen : ∀ xid zxid err, (ReplyHeader.wire ⟨xid, zxid, err⟩).length = 16 := by simp [ReplyHeader.wire]
  cases r with
  | refused err neg =>
    obtain ⟨resp, hvalid⟩ := op.exists_validResponse
    have hne : err ≠ 0 := by
      rintro rfl
      exact absurd neg (by decide)
    refine ⟨resp, hvalid, fun xid zxid => ⟨?_, ?_⟩, ?_⟩
    · simp [Reply.wire, hlen]
    · simp [Reply.wire, Reply.err, hne]
    · simp [Reply.err, Reply.output, Reply.value, hne]
  | done resp valid fits =>
    obtain ⟨resp', hvalid, hwire, hout⟩ := received_response valid
    refine ⟨resp', hvalid, fun xid zxid => ⟨?_, ?_⟩, ?_⟩
    · rw [Reply.wire, List.length_append, hlen]
      omega
    · simp [Reply.wire, Reply.err, hwire]
    · simp [Reply.err, Reply.output, Reply.value, hout]

/-! ### The client at a channel -/

end Operation

/-- An operation that the channel provides for, and that is not `exit`. -/
def Channel.Orderly {P : Type} (e : Eff) (c : Channel P) : Prop := Fits e c ∧ e ≠ .exit

/-- Where a program of the client ends at the channel to a service. -/
abbrev Service.Reaches {α : Type} (v : Service S) (H : Heap) (p : Zk α) (c : Channel (S × Bool)) (a : α)
    (c' : Channel (S × Bool)) : Prop :=
  Prog.Reaches (Channel.handle (v.peer H)) Channel.Orderly p c a c'

theorem Service.reaches_perform (v : Service S) {c : Channel (S × Bool)} (e : Eff) (he : Channel.Orderly e c) :
    v.Reaches H (perform e) c (Channel.handle (v.peer H) e c).1 (Channel.handle (v.peer H) e c).2 := .op he

/-- The channel to a service, with an account of whether all has been orderly. -/
private abbrev Service.watched (v : Service S) (H : Heap) : Handler (Channel (S × Bool) × Prop) :=
  Prog.watch (Channel.handle (v.peer H)) Channel.Orderly

/-- The client has a session and nothing is under way. -/
structure Channel.Attends (c : Channel (S × Bool)) (x : S) : Prop where
  peer : c.peer = (x, true)
  inbox : c.inbox = []

section Channel

variable {c : Channel (S × Bool)} {q : Prop} {payload reply : Bytes} {p : S × Bool}

private theorem watched_sendRequest (hinbox : c.inbox = []) (h : (v.peer H).answer payload c.peer = ([reply], p)) :
    v.watched H (.sendRequest payload) (c, q) =
      (zkOk, { c with peer := p, inbox := [reply] }, q ∧ Channel.Orderly (.sendRequest payload) c) := by
  simp [Prog.watch, Channel.handle, Channel.deliver, hinbox, h]

private theorem watched_recvResponse (hc : c.inbox = [reply]) : v.watched H .recvResponse (c, q) =
    (some (archiveAt reply 0), { c with inbox := [] }, q ∧ Channel.Orderly .recvResponse c) := by
  simp [Prog.watch, Channel.handle, hc]

end Channel

namespace Operation

variable {op : Operation} {c : Channel (S × Bool)} {q : Prop}

/-- The channel after the service has answered an operation. -/
def asked (v : Service S) (op : Operation) (c : Channel (S × Bool)) : Channel (S × Bool) :=
  let r := v.operate op.received c.peer.1
  { c.getXid.2 with
    peer := (r.2, true), inbox := [], client := { c.client with lastErr := r.1.err.toInt } }

/-- An operation at a channel is one step of the service. -/
theorem reaches_run (hH : H.Succeeds) (hop : op.Valid) (hsize : op.wire.length + 8 < 2 ^ 29) (hc : c.Attends x) :
    v.Reaches H (op.run H) c
      (op.status (v.operate op.received x).1.err.toInt, (v.operate op.received x).1.output) (op.asked v c) := by
  obtain ⟨resp, hresp, hreply, hout⟩ := reply_read (v.operate op.received x).1
  obtain ⟨hlt, hwire⟩ := hreply c.getXid.1 (v.zxid (v.operate op.received x).2)
  have hpayload : (RequestHeader.wire ⟨c.getXid.1, op.opcode⟩ ++ op.wire).length < 2 ^ 31 := by
    simp [RequestHeader.wire]
    omega
  have hanswer := peer_answer (v := v) (x := x) hH (show op.wire.length + 8 < 2 ^ 31 by omega) c.getXid.1
  rw [← hc.peer] at hanswer
  have hsend := watched_sendRequest (q := True ∧ Channel.Orderly .getXid c) (c := c.getXid.2) hc.inbox hanswer
  have hrun := run_served (h := v.watched H) (s := (c, True)) hH hop hsize hresp hlt hwire hsend
    (watched_recvResponse rfl)
  rw [hout] at hrun
  have hasked : op.asked v c = { c.getXid.2 with
      peer := ((v.operate op.received x).2, true), inbox := []
      client := { c.client with lastErr := (v.operate op.received x).1.err.toInt } } := by
    rw [asked, hc.peer]
  rw [hasked]
  exact .of_watch hrun
    ⟨⟨⟨⟨trivial, ⟨trivial, by simp⟩⟩, ⟨hpayload, by simp⟩⟩, ⟨⟨_, _, rfl, hlt⟩, by simp⟩⟩, ⟨trivial, by simp⟩⟩

end Operation

/-! ### Opening a session -/

/-- The client offers no session: everything is as `new_client` and `reset_zkclient` leave it. -/
structure Client.Sessionless (c : Client) : Prop where
  lastZxid : c.lastZxid = 0
  sessionId : c.sessionId = 0
  passwd : c.passwd = .of (some (List.replicate 16 0))

/-- The request for a session that lasts `timeOut` milliseconds. -/
def sessionRequest (timeOut : Int32) : ConnectRequest := ⟨protocolVersion, 0, timeOut, 0, .of (some (List.replicate 16 0))⟩

def sessionRequestWire (timeOut : Int32) : Bytes := sessionWire 0 timeOut 0 (some (List.replicate 16 0))

private theorem length_sessionRequestWire (timeOut : Int32) : (sessionRequestWire timeOut).length = 44 := by
  simp [sessionRequestWire, sessionWire, wireString]

private theorem writes_connectRequest (hH : H.Succeeds) {c : Client} (hc : c.Sessionless) :
    Writes (serializeConnectRequest H (connectRequest c)) (sessionRequestWire c.sessionTimeout) := by
  have hpasswd := writes_bufferOf hH (some (List.replicate 16 0))
  have hreq : connectRequest c = sessionRequest c.sessionTimeout := by
    simp only [connectRequest, hc.lastZxid, hc.sessionId, hc.passwd, sessionRequest]
    rfl
  rw [hreq]
  exact (writes_int hH _).cons <| (writes_long hH _).cons <| (writes_int hH _).cons <| (writes_long hH _).cons <|
    hpasswd.cons .nil

private theorem decodeConnect_wire (hH : H.Succeeds) (timeOut : Int32) :
    decodeConnect H (sessionRequestWire timeOut) = some (sessionRequest timeOut) := by
  have hpasswd := reads_buffer hH "passwd" ConnectRequest.passwd (fun x v => { v with passwd := x }) (fun _ _ => rfl)
    (fun _ _ _ => rfl) (some (List.replicate 16 0))
  have hread : Reads (deserializeConnectRequest H) (sessionRequestWire timeOut) (fun _ => sessionRequest timeOut) _ :=
    (reads_int protocolVersion (.field "protocolVersion") _).cons <| (reads_long 0 (.field "lastZxidSeen") _).cons <|
      (reads_int timeOut (.field "timeOut") _).cons <| (reads_long 0 (.field "sessionId") _).cons <| hpasswd.cons .nil
  have hd := hread (sessionRequestWire timeOut) 0 [] ⟨0, 0, 0, 0, .of none⟩ (by rw [length_sessionRequestWire]; omega)
    (Nat.zero_le _) (List.append_nil _).symm
  rw [decodeConnect, hd]
  rfl

private theorem run_offer {σ : Type} {h : Handler σ} (hH : H.Succeeds) {c : Client} (hc : c.Sessionless) {s s₁ s₂ : σ}
    {ia : IArchive} (hsend : h (.sendRequest (sessionRequestWire c.sessionTimeout)) s = (zkOk, s₁))
    (hrecv : h .recvResponse s₁ = (some ia, s₂)) : (offer H c).run h s = (.inr ia, s₂) := by
  obtain ⟨oa, hoa, hholds⟩ := writes_connectRequest hH hc _ _ (createBufferOarchive_holds H)
    (by rw [length_sessionRequestWire]; decide)
  have hprog : offer H c = exchange 0 oa := by
    unfold offer
    rw [hoa]
    simp [hholds.inside]
  rw [show sessionRequestWire c.sessionTimeout = oa.bytes from hholds.bytes_eq.symm] at hsend
  rw [hprog]
  simp [exchange, hsend, hrecv]

/-- A password that is as long as the old one replaces it as a whole. -/
private theorem adoptPasswd_same (hH : H.Succeeds) {a b : Bytes} (hlen : a.length = b.length) (hlt : b.length < 2 ^ 31) :
    adoptPasswd H (.of (some a)) (.of (some b)) =
      if a = b then pure () else perform (.store (.passwd (.of (some b)))) := by
  have hint : (Int32.ofNat b.length).toInt = b.length := Int32.toInt_ofNat_of_lt hlt
  have hok : H.ok .passwd (b.length : Int) = true := hH _ _ (by omega)
  have hread : ∀ bs : Bytes, bs.length = b.length → blockBytes (some bs) b.length = (bs, true) := by
    intro bs hbs
    rw [blockBytes, ← hbs, memRead_all]
  have hcopy : ((blockBytes (some b) (Int32.ofNat a.length).toInt).1 ++ ((List.range b.length).map H.junk).drop
      (blockBytes (some b) (Int32.ofNat a.length).toInt).1.length).take b.length = b := by
    rw [hlen, hint, hread b rfl]
    exact List.take_left
  unfold adoptPasswd
  simp only [Buffer.of, hlen, hint, hread a hlen, hread b rfl, hok]
  by_cases hab : a = b
  · simp [hab]
  · have hneg : ¬ (b.length : Int) < 0 := by omega
    simp only [if_true, and_self, not_true_eq_false, if_false, Int.toNat_natCast, hab, lt_irrefl, hneg, or_self]
    generalize ((blockBytes (some b) _).1 ++ _).take b.length = bs at hcopy ⊢
    rw [hcopy]

/-- The client after it has taken over the session. -/
def Client.welcomed (c : Client) (x : Welcome) : Client :=
  { c with sessionId := x.sessionId.toInt32, sessionTimeout := x.timeOut, passwd := .of (some x.passwd) }

private theorem reaches_settle (hH : H.Succeeds) {c : Channel (S × Bool)} {a : Bytes} (ha : a.length = 16)
    (hpasswd : c.client.passwd = .of (some a)) (w : Welcome) :
    v.Reaches H (settle H (.of (some a)) (.inr (archiveAt w.grant.wire 0))) c zkOk
      { c with client := c.client.welcomed w } := by
  have hlt : w.grant.wire.length < 2 ^ 31 := by
    simp [Grant.wire, Welcome.grant, wireString, w.length_passwd]
  have hread := reads_connectResponse hH w.grant w.grant.wire 0 [] ⟨H.int, H.int, H.long, uninitBuffer H⟩ hlt
    (Nat.zero_le _) (List.append_nil _).symm
  have hadopt := adoptPasswd_same hH (a := a) (b := w.passwd) (ha.trans w.length_passwd.symm)
    (by rw [w.length_passwd]; decide)
  have hprog : settle H (.of (some a)) (.inr (archiveAt w.grant.wire 0)) = do
      perform (.store (.sessionId w.sessionId.toInt32))
      perform (.store (.sessionTimeout w.timeOut))
      adoptPasswd H (.of (some a)) (.of (some w.passwd))
      return zkOk := by
    show adopt H _ _ = _
    unfold adopt decode
    rw [hread]
    rfl
  rw [hprog, hadopt]
  refine (Prog.Reaches.op ⟨trivial, by simp⟩).bind <| (Prog.Reaches.op ⟨trivial, by simp⟩).bind ?_
  by_cases hsame : a = w.passwd
  · have hclient : c.client.welcomed w =
        { c.client with sessionId := w.sessionId.toInt32, sessionTimeout := w.timeOut } := by
      rw [Client.welcomed, ← hsame, ← hpasswd]
    rw [if_pos hsame, hclient]
    exact (Prog.Reaches.pure ..).bind (.pure ..)
  · rw [if_neg hsame]
    exact (Prog.Reaches.op ⟨trivial, by simp⟩).bind (.pure ..)

/-- `authenticate` at a channel opens a session. -/
theorem reaches_authenticate (hH : H.Succeeds) {c : Channel (S × Bool)} (hpeer : c.peer = (x, false))
    (hinbox : c.inbox = []) (hclient : c.client.Sessionless) :
    let w := v.connect (sessionRequest c.client.sessionTimeout) x
    v.Reaches H (authenticate H) c zkOk
      { c with peer := (w.2, true), inbox := [], client := c.client.welcomed w.1 } := by
  intro w
  have hanswer : (v.peer H).answer (sessionRequestWire c.client.sessionTimeout) c.peer =
      ([w.1.grant.wire], (w.2, true)) := by
    simp [hpeer, Service.peer, decodeConnect_wire hH, w]
  have hreply : w.1.grant.wire.length < 2 ^ 31 := by
    simp [Grant.wire, Welcome.grant, wireString, w.1.length_passwd]
  have hrequest : (sessionRequestWire c.client.sessionTimeout).length < 2 ^ 31 := by
    rw [length_sessionRequestWire]
    decide
  have hoffer : v.Reaches H (offer H c.client) c (.inr (archiveAt w.1.grant.wire 0))
      { c with peer := (w.2, true), inbox := [] } :=
    .of_watch (run_offer hH hclient (watched_sendRequest hinbox hanswer) (watched_recvResponse rfl))
      ⟨⟨trivial, ⟨hrequest, by simp⟩⟩, ⟨⟨_, _, rfl, hreply⟩, by simp⟩⟩
  rw [authenticate_eq]
  refine (Prog.Reaches.op ⟨trivial, by simp⟩).bind (hoffer.bind ?_)
  show v.Reaches H (settle H c.client.passwd _) _ _ _
  rw [hclient.passwd]
  exact reaches_settle (c := { c with peer := (w.2, true), inbox := [] }) hH List.length_replicate hclient.passwd w.1

/-! ### Connecting -/

/-- An entry of the server list with a host name that fits and a port. -/
def Dialable (server : Bytes) : Prop :=
  ∃ pos, strrchr server 58 = some pos ∧ pos < hostSize ∧ 0 < atoi (server.drop (pos + 1))

/-- The client after it has opened a session over the descriptor `fd`. -/
def Client.connected (c : Client) (fd : Int) (w : Welcome) : Client :=
  { c.welcomed w with sock := fd, state := zkStateAuthed, pingTid := 1 }

def Channel.connected (v : Service S) (c : Channel (S × Bool)) : Channel (S × Bool) :=
  let w := v.connect (sessionRequest c.client.sessionTimeout) c.peer.1
  let fd := c.sockets.headD (-1)
  { c with
    sockets := c.sockets.tail, opened := fd :: c.opened, inbox := [], peer := (w.2, true)
    client := c.client.connected fd w.1 }

section Connecting

variable {c : Channel (S × Bool)} {fd : Int} {fds : List Int}

private theorem reaches_connectServer {host : Bytes} {port timeout : Int} (hport : 0 < port)
    (hsockets : c.sockets = fd :: fds) (hfd : 0 ≤ fd ∧ fd ∉ c.opened) :
    v.Reaches H (connectServer host port timeout) c fd
      { c with sockets := fds, opened := fd :: c.opened, inbox := [], peer := (c.peer.1, false) } := by
  have hsocket : Channel.handle (v.peer H) .socket c =
      (fd, { c with sockets := fds, opened := fd :: c.opened, inbox := [], peer := (c.peer.1, false) }) := by
    simp only [Channel.handle, hsockets, Service.peer]
    rw [if_pos hfd]
  have hopen : v.Reaches H (perform .socket) c fd
      { c with sockets := fds, opened := fd :: c.opened, inbox := [], peer := (c.peer.1, false) } :=
    ⟨⟨⟨trivial, by simp⟩, trivial⟩, hsocket⟩
  have hhost : ∀ d, v.Reaches H (host2Ip host) d true d := by
    intro d
    unfold host2Ip
    split
    · exact .pure ..
    · exact v.reaches_perform _ ⟨trivial, by simp⟩
  have hwait : ∀ d, v.Reaches H (waitSocket fd timeout .write) d zkOk d := fun d =>
    ⟨⟨⟨trivial, by simp⟩, trivial⟩, rfl⟩
  unfold connectServer
  rw [if_neg (by omega)]
  refine hopen.bind ?_
  rw [if_neg (not_lt.2 hfd.1)]
  refine (hhost _).bind <| (v.reaches_perform (.inetPton host) ⟨trivial, by simp⟩).bind <|
    (v.reaches_perform (.connect fd port) ⟨trivial, by simp⟩).bind <| (hwait _).bind ?_
  exact .pure ..

private theorem reaches_startPingThread : v.Reaches H startPingThread c ()
    { c with client := { c.client with pingTid := 1 } } :=
  ⟨⟨⟨trivial, by simp⟩, trivial⟩, rfl⟩

private theorem reaches_connectTo (hH : H.Succeeds) {server : Bytes} (hserver : Dialable server)
    (hsockets : c.sockets = fd :: fds) (hfd : 0 ≤ fd ∧ fd ∉ c.opened) (hclient : c.client.Sessionless) :
    v.Reaches H (connectTo H server) c true (c.connected v) := by
  obtain ⟨pos, hpos, hfits, hport⟩ := hserver
  have hne : fd ≠ zkError := by simp; omega
  unfold connectTo
  rw [hpos]
  dsimp only
  rw [if_neg (Nat.not_le.2 hfits)]
  refine (v.reaches_perform .load ⟨trivial, by simp⟩).bind <| (reaches_connectServer hport hsockets hfd).bind ?_
  rw [if_neg hne]
  refine (v.reaches_perform (.store (.sock fd)) ⟨trivial, by simp⟩).bind <|
    (v.reaches_perform (.store (.state zkStateConnected)) ⟨trivial, by simp⟩).bind ?_
  have hauth := reaches_authenticate (x := c.peer.1) (v := v) (c := { c with
    sockets := fds, opened := fd :: c.opened, inbox := [], peer := (c.peer.1, false)
    client := { c.client with sock := fd, state := zkStateConnected } }) hH rfl rfl
    ⟨hclient.lastZxid, hclient.sessionId, hclient.passwd⟩
  refine hauth.bind ?_
  rw [if_pos rfl]
  refine reaches_startPingThread.bind <| (v.reaches_perform (.store (.state zkStateAuthed)) ⟨trivial, by simp⟩).bind ?_
  have hend : c.connected v = { c with
      sockets := fds, opened := fd :: c.opened, inbox := []
      peer := ((v.connect (sessionRequest c.client.sessionTimeout) c.peer.1).2, true)
      client := c.client.connected fd (v.connect (sessionRequest c.client.sessionTimeout) c.peer.1).1 } := by
    rw [Channel.connected, hsockets]
    rfl
  rw [hend]
  exact .pure ..

/-- `do_connect` opens a session with the first server that it tries. -/
theorem reaches_doConnect (hH : H.Succeeds) (hne : c.client.servers ≠ [])
    (hservers : ∀ server ∈ c.client.servers, Dialable server) (hsockets : c.sockets = fd :: fds)
    (hfd : 0 ≤ fd ∧ fd ∉ c.opened) (hclient : c.client.Sessionless) :
    v.Reaches H (doConnect H) c zkOk ({ c with rands := c.rands.tail }.connected v) := by
  have hpos : 0 < c.client.servers.length := List.length_pos_iff.2 hne
  obtain ⟨n, hn⟩ := Nat.exists_eq_succ_of_ne_zero hpos.ne'
  refine (v.reaches_perform .load ⟨trivial, by simp⟩).bind <| (v.reaches_perform .rand ⟨trivial, by simp⟩).bind ?_
  show v.Reaches H (connectLoop H c.client.servers c.client.servers.length (c.rands.headD 0 % c.client.servers.length))
    { c with rands := c.rands.tail } _ _
  generalize c.rands.headD 0 % c.client.servers.length = start
  have hlt := Nat.mod_lt start hpos
  rw [hn] at hlt ⊢
  rw [connectLoop, hn, List.getElem?_eq_getElem (by omega), Option.getD_some]
  refine (reaches_connectTo (c := { c with rands := c.rands.tail }) hH (hservers _ (List.getElem_mem _)) hsockets hfd
    hclient).bind ?_
  exact .pure ..

/-- The client after `reset_zkclient`. -/
def Client.reset (c : Client) : Client :=
  { c with
    sock := -1, state := zkStateInit, lastPing := 0, sessionId := 0, lastZxid := 0
    passwd := .of (some (List.replicate 16 0)) }

/-- The channel after `reset_zkclient`. -/
def Channel.reset {P : Type} (c : Channel P) : Channel P :=
  { c with
    client := c.client.reset, opened := if c.client.sock ≠ 0 then c.opened.erase c.client.sock else c.opened }

private theorem reaches_closeSession (hH : H.Succeeds) : v.Reaches H (closeSession H) c () c.reset := by
  have hok : H.ok .passwd 16 = true := hH _ _ (by decide)
  have hclear : ∀ d : Channel (S × Bool), v.Reaches H (perform (.store (.sock (-1))) >>= fun _ => clearSession H) d ()
      { d with client := d.client.reset } := by
    intro d
    unfold clearSession
    rw [if_pos hok]
    have hstore : ∀ u (d : Channel (S × Bool)), Channel.Orderly (.store u) d := fun _ _ => ⟨trivial, by simp⟩
    exact ⟨⟨hstore _ _, hstore _ _, hstore _ _, hstore _ _, hstore _ _, hstore _ _, trivial⟩, rfl⟩
  refine (v.reaches_perform .load ⟨trivial, by simp⟩).bind ?_
  show v.Reaches H (if c.client.sock ≠ 0 then perform (.close c.client.sock) >>= fun _ => _ else _) c () c.reset
  unfold Channel.reset
  by_cases hsock : c.client.sock ≠ 0
  · rw [if_pos hsock, if_pos hsock]
    exact (v.reaches_perform (.close _) ⟨trivial, by simp⟩).bind
      (hclear { c with opened := c.opened.erase c.client.sock })
  · rw [if_neg hsock, if_neg hsock]
    exact hclear c

theorem reaches_resetZkclient (hH : H.Succeeds) : v.Reaches H (resetZkclient H) c () c.reset := by
  rw [resetZkclient_eq]
  refine (show v.Reaches H trylock c true c from ⟨trivial, rfl⟩).bind <|
    (show v.Reaches H unlock c () c from ⟨trivial, rfl⟩).bind <| (v.reaches_perform .pingTid ⟨trivial, by simp⟩).bind ?_
  dsimp only
  split
  · exact (show v.Reaches H (.cancel _ (.ret ())) c () c from ⟨trivial, rfl⟩).bind (reaches_closeSession hH)
  · exact reaches_closeSession hH

/-- A line of output. -/
def Channel.printed {P : Type} (c : Channel P) (fmt : String) (args : List Arg) : Channel P :=
  { c with output := c.output ++ [(fmt, args)] }

/-- `reset_zkclient` and `do_connect` leave a client with a new session. -/
theorem reaches_reconnect (hH : H.Succeeds) (hne : c.client.servers ≠ [])
    (hservers : ∀ server ∈ c.client.servers, Dialable server) (hsockets : c.sockets = fd :: fds)
    (hfd : 0 ≤ fd ∧ fd ∉ c.reset.opened) :
    v.Reaches H (reconnect H) c () (({ c.reset with rands := c.rands.tail }.connected v).printed
      logFormat (Level.warn.line "Reconnect to zookeeper success.")) := by
  have hlog : ∀ d : Channel (S × Bool), v.Reaches H (logger .warn "Reconnect to zookeeper success.") d ()
      (d.printed logFormat (Level.warn.line "Reconnect to zookeeper success.")) := fun d => by
    rw [logger_warn]
    exact v.reaches_perform (.printf _ _) ⟨trivial, by simp⟩
  exact (reaches_resetZkclient hH).bind <|
    (reaches_doConnect (c := c.reset) hH hne hservers hsockets hfd ⟨rfl, rfl, rfl⟩).bind
      (hlog _)

/-! ### Closing -/

/-- A request that is only a header, answered at once, whatever the surroundings. -/
private theorem run_doHeaderRequest {σ : Type} {h : Handler σ} (hH : H.Succeeds) {opcode : Int32}
    (hping : pingOpcode ≠ opcode) {header : ReplyHeader} {s s₁ s₂ : σ}
    (hsend : h (.sendRequest (RequestHeader.wire ⟨(h .getXid s).1, opcode⟩)) (h .getXid s).2 = (zkOk, s₁))
    (hrecv : h .recvResponse s₁ = (some (archiveAt header.wire 0), s₂)) :
    (doHeaderRequest H opcode).run h s = (header.err.toInt, (h (.store (.lastErr header.err.toInt)) s₂).2) := by
  obtain ⟨oa, hoa, hencode⟩ := encodeRequest_eq (w := []) hH opcode .nil (by decide)
  rw [if_neg hping] at hencode
  have hbytes : (oa (h .getXid s).1).bytes = RequestHeader.wire ⟨(h .getXid s).1, opcode⟩ :=
    (hoa _).trans (List.append_nil _)
  have hencode : (encodeRequest H opcode fun oa => (0, oa)).run h s = ((0, oa (h .getXid s).1), (h .getXid s).2) :=
    congrArg (Prog.run h · s) hencode
  have hhead := Operation.run_decodeReplyHeader (H := H) (h := h)
    (show header.wire.length < 2 ^ 31 by simp [ReplyHeader.wire]) (List.append_nil _).symm s₂
  rw [← hbytes] at hsend
  have hexchange : (exchange 0 (oa (h .getXid s).1)).run h (h .getXid s).2 = (.inr (archiveAt header.wire 0), s₂) := by
    simp [exchange, hsend, hrecv]
  have hstatus : (if header.err.toInt ≠ 0 then header.err.toInt else zkOk) = header.err.toInt := by
    split
    · rfl
    · simp_all
  rw [doHeaderRequest, Prog.run_bind, hencode]
  show Prog.run h (exchange 0 (oa _) >>= _) _ = _
  rw [Prog.run_bind, hexchange]
  show Prog.run h (decodeReplyHeader H _ >>= _) _ = _
  rw [Prog.run_bind, hhead]
  exact congrArg (·, _) hstatus

private theorem reaches_zkClose (hH : H.Succeeds) (hc : c.Attends x) :
    v.Reaches H (zkClose H) c (v.header closeOpcode x).1.toInt { c.getXid.2 with
      peer := ((v.header closeOpcode x).2, true), opened := c.opened.erase c.client.sock, inbox := []
      client := { c.client with lastErr := (v.header closeOpcode x).1.toInt } } := by
  have hpayload : (RequestHeader.wire ⟨c.getXid.1, closeOpcode⟩).length = 8 := by simp [RequestHeader.wire]
  have hanswer : (v.peer H).answer (RequestHeader.wire ⟨c.getXid.1, closeOpcode⟩) c.getXid.2.peer =
      ([ReplyHeader.wire ⟨c.getXid.1, v.zxid (v.header closeOpcode x).2, (v.header closeOpcode x).1⟩],
        ((v.header closeOpcode x).2, true)) := by
    obtain ⟨slots, hread⟩ := reads_requestHeader ⟨c.getXid.1, closeOpcode⟩
    have hd := hread (RequestHeader.wire ⟨c.getXid.1, closeOpcode⟩) 0 [] ⟨0, 0⟩ (by rw [hpayload]; decide)
      (Nat.zero_le _) (List.append_nil _).symm
    have hno : ∀ ia, decodeOperation H closeOpcode ia = none := fun ia => by simp [decodeOperation]
    rw [show c.getXid.2.peer = (x, true) from hc.peer]
    simp only [Service.peer, if_true, hd, ne_eq, not_true_eq_false, if_false, hno]
  have hreply : (ReplyHeader.wire ⟨c.getXid.1, v.zxid (v.header closeOpcode x).2, (v.header closeOpcode x).1⟩).length <
      2 ^ 31 := by
    simp [ReplyHeader.wire]
  have hfits : Channel.Fits (.sendRequest (RequestHeader.wire ⟨c.getXid.1, closeOpcode⟩)) c.getXid.2 := by
    show (RequestHeader.wire _).length < _
    rw [hpayload]
    decide
  have hsend := watched_sendRequest (q := True ∧ Channel.Orderly .getXid c) (c := c.getXid.2) hc.inbox hanswer
  have hrun := run_doHeaderRequest (h := v.watched H) (s := (c, True)) hH (by decide : pingOpcode ≠ closeOpcode) hsend
    (watched_recvResponse rfl)
  have hrequest : v.Reaches H (doHeaderRequest H closeOpcode) c (v.header closeOpcode x).1.toInt { c.getXid.2 with
      peer := ((v.header closeOpcode x).2, true), inbox := []
      client := { c.client with lastErr := (v.header closeOpcode x).1.toInt } } :=
    .of_watch hrun
      ⟨⟨⟨⟨trivial, ⟨trivial, by simp⟩⟩, ⟨hfits, by simp⟩⟩, ⟨⟨_, _, rfl, hreply⟩, by simp⟩⟩, ⟨trivial, by simp⟩⟩
  exact hrequest.bind <| (v.reaches_perform .load ⟨trivial, by simp⟩).bind <|
    (v.reaches_perform (.close _) ⟨trivial, by simp⟩).bind (.pure ..)

/-- `close` of the descriptor in `c->sock` if it is positive. -/
private theorem reaches_closePositive (d : Channel (S × Bool)) :
    ∃ opened, v.Reaches H (if 0 < d.client.sock then perform (.close d.client.sock) else pure ()) d ()
      { d with opened } := by
  by_cases hsock : 0 < d.client.sock
  · rw [if_pos hsock]
    exact ⟨_, v.reaches_perform (.close _) ⟨trivial, by simp⟩⟩
  · rw [if_neg hsock]
    exact ⟨_, .pure ..⟩

/-- `destroy_client` asks the service to close the session. -/
theorem reaches_destroyClient (hH : H.Succeeds) (hc : c.Attends x) :
    ∃ opened, v.Reaches H (destroyClient H) c () { c.getXid.2 with
      peer := ((v.header closeOpcode x).2, true), opened, inbox := []
      client := { c.client with state := zkStateStop, lastErr := (v.header closeOpcode x).1.toInt } } := by
  have hclose := reaches_zkClose (v := v) (c := { c with client := { c.client with state := zkStateStop } }) hH
    ⟨hc.peer, hc.inbox⟩
  obtain ⟨opened, hend⟩ := reaches_closePositive (v := v) (H := H) { c.getXid.2 with
    peer := ((v.header closeOpcode x).2, true), opened := c.opened.erase c.client.sock, inbox := []
    client := { c.client with state := zkStateStop, lastErr := (v.header closeOpcode x).1.toInt } }
  exact ⟨opened, (v.reaches_perform (.store (.state zkStateStop)) ⟨trivial, by simp⟩).bind <|
    (v.reaches_perform .load ⟨trivial, by simp⟩).bind <| (v.reaches_perform (.join _) ⟨trivial, by simp⟩).bind <|
    hclose.bind <| (v.reaches_perform .load ⟨trivial, by simp⟩).bind hend⟩

end Connecting

end ZkClient
