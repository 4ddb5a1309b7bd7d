import ZkClient.Lib.Versions
import ZkClient.Replies

/-!
# Conditional set and delete

`set path data v` and `del path v` are meant for a node of version `v`.  The version is parsed and handed to
`setCommand` and `delCommand`, which drop it: the requests are sent with version `-1`.

`Connection.handle` is a server that keeps versioned nodes (`Versions.Node`) behind the wire format.  What a command
asks for is `Conditional.request`, and what it sends `Conditional.sent`.
-/

namespace ZkClient

open Pthread Versions

/-! ### The commands -/

/-- The lines `set path data v` and `del path v`. -/
inductive Conditional where
  | set (path data version : Bytes)
  | del (path version : Bytes)

namespace Conditional

def args : Conditional → List Bytes
  | set path data version => [setCmd, path, data, version]
  | del path version => [delCmd, path, version]

/-- The path of the node. -/
def path : Conditional → Bytes
  | set path _ _ | del path _ => stripSlashes path.length path

def version : Conditional → Int
  | set _ _ version | del _ version => atoi version

/-- The request that the line asks for. -/
def request (c : Conditional) : Request Bytes :=
  match c with
  | set _ data _ => .write data (some c.version)
  | del .. => .remove (some c.version)

/-- The request that the client sends. -/
def sent : Conditional → Request Bytes
  | set _ data _ => .write data none
  | del .. => .remove none

def operation (c : Conditional) : Operation :=
  match c with
  | set _ data _ => .set c.path { len := Int32.ofNat data.length, buff := some data }
  | del .. => .del c.path

/-- The error field of an answer. -/
def errorField : Answer → Int32
  | .ok => 0
  | .nodeExists => -110
  | .noNode => -101
  | .badVersion => -103

/-- What the command prints for an answer. -/
def message (c : Conditional) (a : Answer) : String × List Arg :=
  match c, a with
  | set .., .ok => ("set %s success.\n", [.str (some c.path)])
  | del .., .ok => ("del %s success.\n", [.str (some c.path)])
  | set .., a => ("set %s failed, %s.\n", [.str (some c.path), .text (zkErrorText (errorField a).toInt)])
  | del .., a => ("del %s failed, %s.\n", [.str (some c.path), .text (zkErrorText (errorField a).toInt)])

/-- The arguments are C strings that fit into a request. -/
def Valid : Conditional → Prop
  | set path data _ => 0 ∉ path ∧ path.length + data.length + 64 < 2 ^ 29
  | del path _ => 0 ∉ path ∧ path.length + 64 < 2 ^ 29

end Conditional

/-! ### The server -/

/-- The nodes of a server, by path. -/
abbrev Nodes : Type := Bytes → Option (Node Bytes)

/-- The version field `-1` stands for no expectation. -/
def expectedOf (version : Int32) : Option Int := if version = -1 then none else some version.toInt

/-- The transaction id, the path and the request in a payload. -/
def decodeConditional (H : Heap) (payload : Bytes) : Option (Int32 × Bytes × Request Bytes) :=
  let header := deserializeRequestHeader (archiveAt payload 0) ⟨0, 0⟩
  if header.rc ≠ 0 then none
  else if header.val.type = setdataOpcode then
    let req := deserializeSetDataRequest H header.ia ⟨none, .of none, 0⟩
    if req.rc ≠ 0 then none
    else req.val.path.map fun path =>
      (header.val.xid, path, .write (req.val.data.buff.getD []) (expectedOf req.val.version))
  else if header.val.type = deleteOpcode then
    let req := deserializeDeleteRequest H header.ia ⟨none, 0⟩
    if req.rc ≠ 0 then none
    else req.val.path.map fun path => (header.val.xid, path, .remove (expectedOf req.val.version))
  else none

/-- The `struct Stat` of a node; the server keeps the version and the length of the data. -/
def statOf (n : Node Bytes) : Stat :=
  { czxid := 0, mzxid := 0, ctime := 0, mtime := 0, version := Int32.ofInt n.version, cversion := 0, aversion := 0
    ephemeralOwner := 0, dataLength := Int32.ofNat n.data.length, numChildren := 0, pzxid := 0 }

/-- The reply to a request that has been answered by `a` and has left the node `s`. -/
def replyOf (xid : Int32) (a : Answer) (s : Option (Node Bytes)) : Bytes :=
  ReplyHeader.wire ⟨xid, 0, Conditional.errorField a⟩ ++
    if Conditional.errorField a = 0 then (s.elim [] fun n => [(statOf n).wire].flatten) else []

/-- A client with the reply that it has not received yet and the lines that it has printed. -/
structure Seat where
  client : Client
  xid : Int32
  reply : Bytes
  output : List (String × List Arg)

/-- A client at a server that takes the requests to set and to delete nodes. -/
structure Connection extends Seat where
  nodes : Nodes

namespace Connection

def handle (H : Heap) : Handler Connection
  | .getXid, s => (s.xid, { s with xid := s.xid + 1 })
  | .load, s => (s.client, s)
  | .store u, s => ((), { s with client := s.client.assign u })
  | .sendRequest payload, s =>
    match decodeConditional H payload with
    | none => (zkSocketErr, s)
    | some (xid, path, r) =>
      let node := r.apply (s.nodes path)
      (zkOk, { s with
        nodes := Function.update s.nodes path node
        reply := replyOf xid (r.answer (s.nodes path)) node })
  | .recvResponse, s => (some (archiveAt s.reply 0), s)
  | .printf fmt args, s => ((), { s with output := s.output ++ [(fmt, args)] })
  | .time, s => (0, s)
  | .rand, s => (0, s)
  | .pingTid, s => (s.client.pingTid, s)
  | .socket, s => (-1, s)
  | .gethostbyname _, s => (false, s)
  | .inetPton _, s => (false, s)
  | .connect _ _, s => ((-1, 0), s)
  | .poll _ _, s => ((0, 0), s)
  | .close _, s => ((), s)
  | .usleep, s => ((), s)
  | .join _, s => ((), s)
  | .undefined _, s => ((), s)
  | .exit, s => ((), s)

end Connection

/-! ### A command at the server -/

namespace Conditional

variable {H : Heap} {c : Conditional}

private theorem toInt_data {data : Bytes} (hlt : data.length + 64 < 2 ^ 29) :
    (Int32.ofNat data.length).toInt = data.length := Int32.toInt_ofNat_of_lt (by omega)

private theorem operation_valid (hc : c.Valid) : c.operation.Valid ∧ c.operation.wire.length + 8 < 2 ^ 29 := by
  cases c with
  | set path data version =>
    obtain ⟨hnul, hlt⟩ := hc
    have hpre := stripSlashes_prefix path.length path
    have hlen := hpre.length_le
    have hdata : (Int32.ofNat data.length).toInt = data.length := toInt_data (by omega)
    refine ⟨⟨fun h => hnul (hpre.subset h), ?_, ?_⟩, ?_⟩
    · rw [hdata]
      omega
    · rw [hdata]
      simp
    · simp [operation, Conditional.path, Operation.wire, Operation.payload, wireString, hdata]
      omega
  | del path version =>
    obtain ⟨hnul, hlt⟩ := hc
    have hpre := stripSlashes_prefix path.length path
    have hlen := hpre.length_le
    refine ⟨fun h => hnul (hpre.subset h), ?_⟩
    simp [operation, Conditional.path, Operation.wire, wireString]
    omega

/-- The server understands the requests of the commands, which expect no version. -/
private theorem decodeConditional_wire (hH : H.Succeeds) (hc : c.Valid) (xid : Int32) :
    decodeConditional H (RequestHeader.wire ⟨xid, c.operation.opcode⟩ ++ c.operation.wire) =
      some (xid, c.path, c.sent) := by
  obtain ⟨hop, hlt⟩ := operation_valid hc
  obtain ⟨ia, hheader, hreq⟩ := Operation.decodesFrom_wire hH c.operation xid (by omega)
  obtain ⟨_, hheader⟩ := hheader ⟨0, 0⟩
  generalize RequestHeader.wire ⟨xid, c.operation.opcode⟩ ++ c.operation.wire = payload at hheader hreq ⊢
  unfold decodeConditional
  simp only [hheader]
  cases c with
  | set path data version =>
    obtain ⟨_, hreq⟩ := hreq ⟨none, .of none, 0⟩
    have hdata : (Int32.ofNat data.length).toInt = data.length := toInt_data (by have := hc.2; omega)
    simp only [operation, Operation.opcode, hreq]
    simp [Operation.payload, hdata, expectedOf, Buffer.of, sent]
  | del path version =>
    obtain ⟨_, hreq⟩ := hreq ⟨none, 0⟩
    simp [operation, Operation.opcode, hreq, expectedOf, sent]

private theorem errorField_eq_zero {a : Answer} : errorField a = 0 ↔ a = .ok := by
  cases a <;> simp [errorField]

private theorem answer_ok {o : Option (Node Bytes)} (h : c.sent.answer o = .ok) :
    ∃ n, o = some n ∧ c.sent.apply o = c.sent.effect (some n) := by
  cases o with
  | none => cases c <;> cases h
  | some n => exact ⟨n, rfl, Request.apply_of_ok h⟩

/-- A stat for the reply, if it carries one. -/
private def response (c : Conditional) (o : Option (Node Bytes)) : c.operation.Response :=
  match c with
  | set .. => o.elim (statOf ⟨[], 0⟩) statOf
  | del .. => ()

private theorem replyOf_eq (xid : Int32) (o : Option (Node Bytes)) :
    replyOf xid (c.sent.answer o) (c.sent.apply o) = ReplyHeader.wire ⟨xid, 0, errorField (c.sent.answer o)⟩ ++
      if errorField (c.sent.answer o) = 0 then c.operation.responseWire (c.response (c.sent.apply o)) else [] := by
  unfold replyOf
  refine congrArg (ReplyHeader.wire _ ++ ·) ?_
  by_cases hok : c.sent.answer o = .ok
  · rw [if_pos (errorField_eq_zero.2 hok), if_pos (errorField_eq_zero.2 hok)]
    obtain ⟨n, -, happly⟩ := answer_ok hok
    rw [happly]
    cases c <;> rfl
  · rw [if_neg (mt errorField_eq_zero.1 hok), if_neg (mt errorField_eq_zero.1 hok)]

private theorem length_replyOf (xid : Int32) (a : Answer) (o : Option (Node Bytes)) :
    (replyOf xid a o).length < 2 ^ 31 := by
  unfold replyOf
  cases o with
  | none => split <;> simp [ReplyHeader.wire]
  | some n => split <;> simp [ReplyHeader.wire, Stat.wire]

end Conditional

/-- The connection after the answer to the request of `c`. -/
def Connection.answered (c : Conditional) (s : Connection) : Connection :=
  { s with
    nodes := Function.update s.nodes c.path (c.sent.apply (s.nodes c.path))
    client := { s.client with lastErr := (Conditional.errorField (c.sent.answer (s.nodes c.path))).toInt }
    xid := s.xid + 1
    reply := replyOf s.xid (c.sent.answer (s.nodes c.path)) (c.sent.apply (s.nodes c.path)) }

namespace Conditional

variable {H : Heap} {c : Conditional}

private theorem run_operation (hH : H.Succeeds) (hc : c.Valid) (s : Connection) :
    (c.operation.run H).run (Connection.handle H) s =
      (((errorField (c.sent.answer (s.nodes c.path))).toInt, none), s.answered c) := by
  obtain ⟨hop, hlt⟩ := operation_valid hc
  have hsend : Connection.handle H
      (.sendRequest (RequestHeader.wire ⟨s.xid, c.operation.opcode⟩ ++ c.operation.wire)) { s with xid := s.xid + 1 } =
      (zkOk, { s with
        nodes := Function.update s.nodes c.path (c.sent.apply (s.nodes c.path)), xid := s.xid + 1
        reply := replyOf s.xid (c.sent.answer (s.nodes c.path)) (c.sent.apply (s.nodes c.path)) }) := by
    simp only [Connection.handle, decodeConditional_wire hH hc]
  have hresp : c.operation.ValidResponse (c.response (c.sent.apply (s.nodes c.path))) := by
    cases c <;> trivial
  have hstatus : ∀ e, c.operation.status e = e := fun e => by cases c <;> rfl
  have hout : ∀ resp, c.operation.output resp = none := fun resp => by cases c <;> rfl
  rw [Operation.run_served hH hop hlt hresp
    (length_replyOf s.xid (c.sent.answer (s.nodes c.path)) (c.sent.apply (s.nodes c.path))) (replyOf_eq s.xid _) hsend rfl,
    hstatus, hout, ite_self]
  rfl

private theorem toInt_errorField {a : Answer} : (errorField a).toInt = zkOk ↔ a = .ok := by
  cases a <;> simp [errorField]

private theorem run_reportError (fmt : String) (path : Option Bytes) (s : Connection) :
    (reportError fmt path).run (Connection.handle H) s = (s.client.lastErr,
      { s with output := s.output ++ [(fmt, [.str path, .text (zkErrorText s.client.lastErr)])] }) := rfl

/-- The command up to the reconnection. -/
private theorem run_runCommand (hH : H.Succeeds) (hc : c.Valid) (s : Connection) :
    (runCommand H c.args).run (Connection.handle H) s = (some (errorField (c.sent.answer (s.nodes c.path))).toInt,
      { s.answered c with output := s.output ++ [c.message (c.sent.answer (s.nodes c.path))] }) := by
  have hrun := run_operation hH hc s
  have hlast : (s.answered c).client.lastErr = (errorField (c.sent.answer (s.nodes c.path))).toInt := rfl
  cases c with
  | set path data version =>
    have hcommand : runCommand H (set path data version).args = setCommand H (some (set path data version).path) data
        (Int32.ofNat data.length) (atoi version) >>= fun status => pure (some status) := by
      simp [runCommand, args, setCmd, getCmd, createCmd, mkdirCmd, lsCmd, statCmd, Conditional.path]
    have hset := Prod.ext_iff.1 hrun
    simp only [operation, Operation.run, Prog.run_bind, Prog.run_pure, Prod.mk.injEq, and_true] at hset
    rw [hcommand, Prog.run_bind, setCommand, Prog.run_bind, hset.1, hset.2]
    by_cases hok : (set path data version).sent.answer (s.nodes (set path data version).path) = .ok
    · rw [if_neg (not_not.2 (toInt_errorField.2 hok)), hok]
      rfl
    · rw [if_pos (mt toInt_errorField.1 hok), run_reportError, hlast]
      cases hans : (set path data version).sent.answer (s.nodes (set path data version).path) with
      | ok => exact absurd hans hok
      | nodeExists => rfl
      | noNode => rfl
      | badVersion => rfl
  | del path version =>
    have hcommand : runCommand H (del path version).args = delCommand H (some (del path version).path)
        (atoi version) >>= fun status => pure (some status) := by
      simp [runCommand, args, setCmd, getCmd, createCmd, mkdirCmd, lsCmd, statCmd, delCmd, Conditional.path]
    have hdel := Prod.ext_iff.1 hrun
    simp only [operation, Operation.run, Prog.run_bind, Prog.run_pure, Prod.mk.injEq, and_true] at hdel
    rw [hcommand, Prog.run_bind, delCommand, Prog.run_bind, hdel.1, hdel.2]
    by_cases hok : (del path version).sent.answer (s.nodes (del path version).path) = .ok
    · rw [if_neg (not_not.2 (toInt_errorField.2 hok)), hok]
      rfl
    · rw [if_pos (mt toInt_errorField.1 hok), run_reportError, hlast]
      cases hans : (del path version).sent.answer (s.nodes (del path version).path) with
      | ok => exact absurd hans hok
      | nodeExists => rfl
      | noNode => rfl
      | badVersion => rfl

/-- The command at the server: the request is answered, and the answer is printed. -/
private theorem run_processCommand (hH : H.Succeeds) (hc : c.Valid) (s : Connection) :
    (processCommand H c.args).run (Connection.handle H) s =
      ((), { s.answered c with output := s.output ++ [c.message (c.sent.answer (s.nodes c.path))] }) := by
  have hstay : ∀ a, ¬ ((errorField a).toInt = zkSocketErr ∨ checkReconnect (errorField a).toInt) := by
    intro a
    cases a <;> decide
  rw [processCommand, Prog.run_bind, run_runCommand hH hc]
  show Prog.run (Connection.handle H) (if (errorField (c.sent.answer (s.nodes c.path))).toInt = zkSocketErr ∨
    checkReconnect (errorField (c.sent.answer (s.nodes c.path))).toInt then reconnect H else pure ()) _ = _
  rw [if_neg (hstay _)]
  rfl

/-! ### What a command honours -/

/-- What is to hold of the command at the connection `s`. -/
structure Honours (H : Heap) (c : Conditional) (s : Connection) : Prop where
  guarded : ((processCommand H c.args).run (Connection.handle H) s).2.nodes c.path ≠ s.nodes c.path →
    ∀ n, s.nodes c.path = some n → n.version = c.version
  refused : ∀ n, s.nodes c.path = some n → n.version ≠ c.version →
    ((processCommand H c.args).run (Connection.handle H) s).2.nodes = s.nodes ∧
      ((processCommand H c.args).run (Connection.handle H) s).2.output = s.output ++ [c.message .badVersion]

private theorem honours_iff (hH : H.Succeeds) (hc : c.Valid) {s : Connection} {n : Node Bytes}
    (hn : s.nodes c.path = some n) : c.Honours H s ↔ n.version = c.version := by
  have hok : c.sent.answer (some n) = .ok := by cases c <;> rfl
  have hchanged : ((processCommand H c.args).run (Connection.handle H) s).2.nodes c.path ≠ s.nodes c.path := by
    rw [run_processCommand hH hc, hn]
    show Function.update s.nodes c.path (c.sent.apply (s.nodes c.path)) c.path ≠ some n
    rw [Function.update_self, hn, Request.apply_of_ok hok]
    exact Request.effect_ne (by cases c <;> rfl) n
  constructor
  · exact fun h => h.guarded hchanged n hn
  · intro hversion
    refine ⟨fun _ m hm => ?_, fun m hm hne => absurd ?_ hne⟩
    all_goals
      obtain rfl : n = m := Option.some.inj (hn.symm.trans hm)
      exact hversion

end Conditional

/-! ### Several clients -/

/-- The server with its clients. -/
structure Cluster where
  nodes : Nodes
  seats : Nat → Seat

/-- A client issues a command, or the server takes some other request for a node, such as a creation. -/
inductive Move where
  | command (i : Nat) (c : Conditional)
  | other (path : Bytes) (r : Request Bytes)

namespace Cluster

variable (H : Heap)

/-- The connection of a client. -/
def connection (cl : Cluster) (i : Nat) : Connection := { toSeat := cl.seats i, nodes := cl.nodes }

def step : Move → Cluster → Cluster
  | .command i c, cl =>
    let s := ((processCommand H c.args).run (Connection.handle H) (cl.connection i)).2
    { nodes := s.nodes, seats := Function.update cl.seats i s.toSeat }
  | .other path r, cl => { cl with nodes := Function.update cl.nodes path (r.apply (cl.nodes path)) }

/-- The moves of a run, each with the cluster before it. -/
def history : List Move → Cluster → List (Move × Cluster)
  | [], _ => []
  | m :: ms, cl => (m, cl) :: history ms (cl.step H m)

/-- The command of the client prints the answer `a`. -/
def Prints (cl : Cluster) (i : Nat) (c : Conditional) (a : Answer) : Prop :=
  ((processCommand H c.args).run (Connection.handle H) (cl.connection i)).2.output =
    (cl.seats i).output ++ [c.message a]

/-- The move `x` creates the node at `path`. -/
def Creates (path : Bytes) (x : Move × Cluster) : Prop :=
  (∃ data, x.1 = .other path (.create data)) ∧ x.2.nodes path = none

/-- Of two commands for the same version of a node, one at most succeeds.  What is created anew between them is another
node, and starts with version 0 again. -/
def OneSucceeds (ms : List Move) (cl : Cluster) : Prop :=
  ∀ pre x mid y post, cl.history H ms = pre ++ x :: (mid ++ y :: post) → ∀ i j c d, x.1 = .command i c →
    y.1 = .command j d → c.path = d.path → c.version = d.version → (∀ z ∈ mid, ¬ Creates c.path z) →
    x.2.Prints H i c .ok → ¬ y.2.Prints H j d .ok

/-- The node has the version of the command, if it is there. -/
def Matches (cl : Cluster) (c : Conditional) : Prop := ∀ n, cl.nodes c.path = some n → n.version = c.version

variable {H : Heap} {cl : Cluster} {ms : List Move} {v : Int} {path : Bytes}

private theorem message_ok {c : Conditional} {a : Answer} (h : c.message a = c.message .ok) : a = .ok := by
  cases c <;> cases a <;> simp [Conditional.message] at h ⊢

private theorem prints_iff (hH : H.Succeeds) {c : Conditional} (hc : c.Valid) (i : Nat) (a : Answer) :
    cl.Prints H i c a ↔ c.message (c.sent.answer (cl.nodes c.path)) = c.message a := by
  unfold Prints
  rw [Conditional.run_processCommand hH hc]
  show (cl.seats i).output ++ [c.message (c.sent.answer (cl.nodes c.path))] = _ ↔ _
  rw [List.append_right_inj, List.singleton_inj]

/-- A command that matches the node has the effect of the request that it asks for. -/
private theorem step_nodes (hH : H.Succeeds) {c : Conditional} (hc : c.Valid) (hmatch : cl.Matches c) (i : Nat) :
    (cl.step H (.command i c)).nodes = Function.update cl.nodes c.path (c.request.apply (cl.nodes c.path)) ∧
      c.request.answer (cl.nodes c.path) = c.sent.answer (cl.nodes c.path) := by
  have hrun : (cl.step H (.command i c)).nodes =
      Function.update cl.nodes c.path (c.sent.apply (cl.nodes c.path)) := by
    simp only [step, Conditional.run_processCommand hH hc]
    rfl
  rw [hrun]
  cases hn : cl.nodes c.path with
  | none => cases c <;> exact ⟨rfl, rfl⟩
  | some n =>
    have hversion := hmatch n hn
    have hanswer : c.request.answer (some n) = c.sent.answer (some n) := by
      cases c <;>
        simp [Conditional.request, Conditional.sent, Request.answer, Request.creates, Request.expected, hversion]
    refine ⟨?_, hanswer⟩
    have hok : c.sent.answer (some n) = .ok := by cases c <;> rfl
    rw [Request.apply_of_ok hok, Request.apply_of_ok (hanswer.trans hok)]
    cases c <;> rfl

/-- What is to be expected of the moves of a run. -/
private def Fair (H : Heap) (ms : List Move) (cl : Cluster) : Prop :=
  ∀ x ∈ cl.history H ms, ∀ i c, x.1 = .command i c → c.Valid ∧ x.2.Matches c

private theorem past_step (hH : H.Succeeds) {m : Move} (hm : ∀ i c, m = .command i c → c.Valid ∧ cl.Matches c)
    (hkeep : ¬ Creates path (m, cl)) (h : Past v (cl.nodes path)) : Past v ((cl.step H m).nodes path) := by
  cases m with
  | command i c =>
    obtain ⟨hc, hmatch⟩ := hm i c rfl
    rw [(step_nodes hH hc hmatch i).1]
    by_cases hpath : path = c.path
    · subst hpath
      rw [Function.update_self]
      refine h.apply fun hcreates => ?_
      cases c <;> cases hcreates
    · rwa [Function.update_of_ne hpath]
  | other p r =>
    show Past v (Function.update cl.nodes p (r.apply (cl.nodes p)) path)
    by_cases hpath : path = p
    · subst hpath
      rw [Function.update_self]
      refine h.apply fun hcreates hnone => ?_
      cases r with
      | create data => exact hkeep ⟨⟨data, rfl⟩, hnone⟩
      | write data expected => cases hcreates
      | remove expected => cases hcreates
    · rwa [Function.update_of_ne hpath]

/-- A version of the past stays one until the node is created anew. -/
private theorem past_history (hH : H.Succeeds) (hfair : Fair H ms cl) (h : Past v (cl.nodes path))
    {mid post : List (Move × Cluster)} {y : Move × Cluster} (hsplit : cl.history H ms = mid ++ y :: post)
    (hmid : ∀ z ∈ mid, ¬ Creates path z) : Past v (y.2.nodes path) := by
  induction ms generalizing cl mid with
  | nil => cases mid <;> cases hsplit
  | cons m ms ih =>
    cases mid with
    | nil =>
      cases hsplit
      exact h
    | cons z mid =>
      rw [history, List.cons_append, List.cons.injEq] at hsplit
      obtain ⟨rfl, hrest⟩ := hsplit
      refine ih (fun x hx => hfair x (List.mem_cons_of_mem _ hx)) ?_ hrest
        fun z hz => hmid z (List.mem_cons_of_mem _ hz)
      exact past_step hH (hfair _ (List.mem_cons_self ..)) (hmid _ (List.mem_cons_self ..)) h

private theorem oneSucceeds (hH : H.Succeeds) (hfair : Fair H ms cl) : cl.OneSucceeds H ms := by
  intro pre x mid y post hsplit i j c d hx hy hpath hversion hmid hprints hprints'
  induction ms generalizing cl pre with
  | nil => cases pre <;> cases hsplit
  | cons m ms ih =>
    have hrest : Fair H ms (cl.step H m) := fun z hz => hfair z (List.mem_cons_of_mem _ hz)
    rw [history] at hsplit
    cases pre with
    | cons z pre => exact ih hrest pre (List.cons.inj hsplit).2
    | nil =>
      rw [List.nil_append, List.cons.injEq] at hsplit
      obtain ⟨rfl, hafter⟩ := hsplit
      obtain ⟨hc, hmatch⟩ := hfair (m, cl) (List.mem_cons_self ..) i c hx
      obtain ⟨hd, hmatch'⟩ := hrest y (by simp [hafter]) j d hy
      -- the version is past once the first command has succeeded
      obtain ⟨hstep, hanswer⟩ := step_nodes hH hc hmatch i
      have hok := hanswer.trans (message_ok ((prints_iff hH hc i .ok).1 hprints))
      have hpast : Past c.version ((cl.step H m).nodes c.path) := by
        rw [show m = .command i c from hx, hstep, Function.update_self]
        exact past_apply_of_ok (by cases c <;> rfl) hok
      have hpast' := past_history hH hrest hpast hafter hmid
      rw [hpath, hversion] at hpast'
      refine hpast'.answer_ne_ok (r := d.request) (by cases d <;> rfl) ?_
      rw [(step_nodes hH hd hmatch' j).2]
      exact message_ok ((prints_iff hH hd j .ok).1 hprints')

end Cluster

/-- A conditional command honours its version exactly when the node happens to have it; when all commands of a run do
so, one at most succeeds for a version of a node. -/
theorem conditional_iff {H : Heap} (hH : H.Succeeds) :
    (∀ (c : Conditional) (s : Connection) (n : Node Bytes), c.Valid → s.nodes c.path = some n →
      (c.Honours H s ↔ n.version = c.version)) ∧
    ∀ (ms : List Move) (cl : Cluster),
      (∀ x ∈ cl.history H ms, ∀ i c, x.1 = .command i c → c.Valid ∧ x.2.Matches c) → cl.OneSucceeds H ms :=
  ⟨fun _ _ _ hc hn => Conditional.honours_iff hH hc hn, fun _ _ hfair => Cluster.oneSucceeds hH hfair⟩

/-- The commands `set /a x 0` and `del /a 0`, and a connection to a server whose node `/a` has version `v`. -/
private def setZero : Conditional := .set [47, 97] [120] [48]

private def delZero : Conditional := .del [47, 97] [48]

private def atVersion (v : Int) : Connection :=
  { client := initClient [] 10 3 0 0 0, xid := 1, reply := [], output := []
    nodes := fun path => if path = [47, 97] then some ⟨[121], v⟩ else none }

/-- Clients of this server. -/
private def clients : Cluster := ⟨(atVersion 0).nodes, fun _ => (atVersion 0).toSeat⟩

/-- Two clients have read version 0; the command of the first one succeeds, and that of the second one does not. -/
theorem conditional_iff_zero :
    (setZero.Honours Heap.plenty (atVersion 0) ↔ (0 : Int) = setZero.version) ∧
    clients.Prints Heap.plenty 0 delZero .ok ∧
      ¬ (clients.step Heap.plenty (.command 0 delZero)).Prints Heap.plenty 1 setZero .ok := by
  have hset : setZero.Valid := ⟨by decide, by decide⟩
  have hdel : delZero.Valid := ⟨by decide, by decide⟩
  obtain ⟨hone, hrun⟩ := conditional_iff Heap.plenty_succeeds
  have hprints : clients.Prints Heap.plenty 0 delZero .ok := (Cluster.prints_iff Heap.plenty_succeeds hdel 0 .ok).2 rfl
  have hmatch : clients.Matches delZero := fun n hn => by
    cases hn
    rfl
  refine ⟨hone setZero (atVersion 0) ⟨[121], 0⟩ hset rfl, hprints, ?_⟩
  refine hrun [.command 0 delZero, .command 1 setZero] clients (fun x hx i c hcommand => ?_) [] _ [] _ [] rfl 0 1 delZero
    setZero rfl rfl rfl rfl (fun z hz => by cases hz) hprints
  simp only [Cluster.history, List.mem_cons, List.not_mem_nil, or_false] at hx
  rcases hx with rfl | rfl
  · cases hcommand
    exact ⟨hdel, hmatch⟩
  · cases hcommand
    refine ⟨hset, fun n hn => ?_⟩
    -- the node is gone
    rw [(Cluster.step_nodes Heap.plenty_succeeds hdel hmatch 0).1] at hn
    cases hn

/-- A node that is created anew between the two commands has version 0 again. -/
example : ((clients.step Heap.plenty (.command 0 delZero)).step Heap.plenty (.other [47, 97] (.create []))).Prints
    Heap.plenty 1 setZero .ok := by
  unfold Cluster.Prints
  decide +kernel

/-- A node of version 3 is overwritten by a command for version 0. -/
theorem set_ignores_version :
    ¬ ∀ (H : Heap) (c : Conditional) (s : Connection) (n : Node Bytes), H.Succeeds → c.Valid → 0 ≤ c.version →
      s.nodes c.path = some n → c.Honours H s := by
  intro hall
  have hvalid : setZero.Valid := ⟨by decide, by decide⟩
  have hhonours := hall Heap.plenty setZero (atVersion 3) ⟨[121], 3⟩ Heap.plenty_succeeds hvalid (by decide) rfl
  exact absurd ((Conditional.honours_iff Heap.plenty_succeeds hvalid rfl).1 hhonours) (by decide)

end ZkClient
