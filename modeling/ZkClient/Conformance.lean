import ZkClient.Exclusion
import ZkClient.Playing

/-!
# What the command thread sends

The command thread against any surroundings: connections fail, replies are lost, late or garbage, the server is somebody
else.  The program runs alone here, without the ping thread that it starts and its requests.

`Stage` is how far a connection has come, and `Stage.Permits` says what may be sent and when `recv_response` may be
called then: on a new connection first the session of the client, after that well-formed requests with an id that
`get_xid` has given for this request.  `recv_response` is called once at most for a message that has been sent, and the
next request is sent when it has returned, with a reply or without one.

`Discipline.protocol` puts this into the form of a discipline, for which there is one lemma for each function, and
`main_conforms` is the result for every run of the program.
-/

namespace ZkClient

open Pthread

/-! ### Connections -/

/-- How far the connection has come, since `c->sock` was assigned.  `waiting` says that a message has been sent and that
`recv_response` has not returned since. -/
inductive Stage where
  /-- Nothing has been sent; this is the client as it was read last. -/
  | fresh (c : Option Client)
  | offered (waiting : Bool)
  /-- There is a session; this is the id that `get_xid` has given for the next request. -/
  | authed (xid : Option Int32) (waiting : Bool)

/-- What `authenticate` sends for a client. -/
def offerBytes (H : Heap) (c : Client) : Bytes :=
  (serializeConnectRequest H (connectRequest c) (createBufferOarchive H)).2.bytes

/-- A request of an operation, or the request to close the session. -/
def IsRequest (xid : Int32) (payload : Bytes) : Prop :=
  (∃ op : Operation, op.Valid ∧ payload = RequestHeader.wire ⟨xid, op.opcode⟩ ++ op.wire) ∨
    payload = RequestHeader.wire ⟨xid, closeOpcode⟩

namespace Stage

/-- The stage after an operation that has been answered. -/
def next (x : Stage) : (e : Eff) → e.Resp → Stage
  | .store (.sock _), _ => fresh none
  | .store (.state s), _ =>
    match x with
    | offered _ => if s = zkStateAuthed then authed none false else x
    | _ => x
  | .load, c =>
    match x with
    | fresh _ => fresh (some c)
    | _ => x
  | .getXid, xid =>
    match x with
    | authed _ waiting => authed (some xid) waiting
    | _ => x
  | .sendRequest _, rc =>
    match x with
    | fresh _ => offered (rc = zkOk)
    | authed .. => authed none (rc = zkOk)
    | _ => x
  | .recvResponse, _ =>
    match x with
    | offered _ => offered false
    | authed xid _ => authed xid false
    | _ => x
  | _, _ => x

/-- What may be done in a stage. -/
def Permits (H : Heap) (x : Stage) (e : Eff) : Prop :=
  match e, x with
  | .sendRequest payload, fresh (some c) => payload = offerBytes H c
  | .sendRequest payload, authed (some xid) false => IsRequest xid payload
  | .sendRequest _, _ => False
  | .recvResponse, offered true => True
  | .recvResponse, authed _ true => True
  | .recvResponse, _ => False
  | _, _ => True

end Stage

/-- Everything in the log is done in a stage that permits it. -/
def Conforms (H : Heap) : Stage → List Event → Prop
  | _, [] => True
  | x, ⟨e, r⟩ :: l => x.Permits H e ∧ Conforms H (x.next e r) l

/-! ### The discipline -/

/-- Operations are permitted, and `exit` does not return. -/
def Discipline.protocol (H : Heap) : Discipline Eff Eff.Resp Stage where
  stop _ _ := True
  lock x x' := x' = x
  unlock x x' := x' = x
  trylock x x' := x' = x
  create x x' := x' = x
  cancel _ x x' := x' = x
  enter e x x' := x.Permits H e ∧ x' = x
  leave e r x x' := e ≠ .exit ∧ x' = x.next e r

variable {H : Heap} {α β : Type} {x : Stage}

/-- What follows the discipline conforms in all surroundings. -/
theorem log_conforms {σ : Type} (h : Handler σ) {p : Zk α} {Q : α → Stage → Prop}
    (hp : p.Follows (Discipline.protocol H) Q x) (s : σ) : Conforms H x ((p.haltAt Shell.exits).log h s) := by
  induction p generalizing x s with
  | ret a => trivial
  | lock k ih =>
    obtain ⟨_, rfl, hk⟩ := hp
    exact ih hk s
  | unlock k ih =>
    obtain ⟨_, rfl, hk⟩ := hp
    exact ih hk s
  | trylock k ih =>
    obtain ⟨_, rfl, hk⟩ := hp
    exact ih true (hk true) s
  | create k ih =>
    obtain ⟨_, rfl, hk⟩ := hp
    exact ih 1 (hk 1) s
  | cancel t k ih =>
    obtain ⟨_, rfl, hk⟩ := hp
    exact ih hk s
  | op e k ih =>
    obtain ⟨_, ⟨hpermits, rfl⟩, hk⟩ := hp
    refine ⟨hpermits, ?_⟩
    by_cases hexit : e = .exit
    · subst hexit
      trivial
    · have hgo : Shell.exits e = false := by cases e <;> first | rfl | exact absurd rfl hexit
      show Conforms H _ ((if Shell.exits e = true then _ else _ : Prog Eff Eff.Resp (Option α)).log h _)
      rw [hgo]
      exact ih _ (hk _ _ ⟨hexit, rfl⟩) _

/-- What the operations of a program are permitted in and preserve, the program preserves. -/
theorem follows_only {ok : Eff → Prop} {I : Stage → Prop}
    (hstep : ∀ e, ok e → ∀ x, I x → x.Permits H e ∧ ∀ r, I (x.next e r)) {p : Zk α} (hp : p.Only ok) (hx : I x) :
    p.Follows (Discipline.protocol H) (fun _ => I) x := by
  induction p generalizing x with
  | ret a => exact hx
  | lock k ih => exact ⟨x, rfl, ih hp hx⟩
  | unlock k ih => exact ⟨x, rfl, ih hp hx⟩
  | trylock k ih => exact ⟨x, rfl, fun b => ih b (hp b) hx⟩
  | create k ih => exact ⟨x, rfl, fun t => ih t (hp t) hx⟩
  | cancel t k ih => exact ⟨x, rfl, ih hp hx⟩
  | op e k ih =>
    obtain ⟨hpermits, hnext⟩ := hstep e hp.1 x hx
    refine ⟨x, ⟨hpermits, rfl⟩, ?_⟩
    rintro r _ ⟨-, rfl⟩
    exact ih r (hp.2 r) (hnext r)

/-! ### Between requests -/

/-- There is a session, and `recv_response` has returned. -/
def Stage.Idle (x : Stage) : Prop := ∃ xid, x = authed xid false

/-- The program can run whenever the connection is idle, and leaves it idle. -/
def Obeys (H : Heap) (p : Zk α) : Prop := ∀ x, x.Idle → p.Follows (Discipline.protocol H) (fun _ x => x.Idle) x

/-- The operations that leave an idle connection idle. -/
def Eff.Aside : Eff → Prop
  | sendRequest _ => False
  | recvResponse => False
  | store (.sock _) => False
  | _ => True

theorem obeys_only {p : Zk α} (hp : p.Only Eff.Aside) : Obeys H p := by
  refine fun x hx => follows_only (fun e he x hx => ?_) hp hx
  obtain ⟨xid, rfl⟩ := hx
  cases e with
  | sendRequest payload => exact he.elim
  | recvResponse => exact he.elim
  | getXid => exact ⟨trivial, fun r => ⟨r, rfl⟩⟩
  | store u =>
    cases u with
    | sock fd => exact he.elim
    | _ => exact ⟨trivial, fun _ => ⟨xid, rfl⟩⟩
  | _ => exact ⟨trivial, fun _ => ⟨xid, rfl⟩⟩

theorem obeys_pure (a : α) : Obeys H (pure a : Zk α) := fun _ hx => hx

theorem Obeys.bind {p : Zk α} {f : α → Zk β} (hp : Obeys H p) (hf : ∀ a, Obeys H (f a)) : Obeys H (p >>= f) :=
  fun x hx => (hp x hx).bind fun a x' hx' => hf a x' hx'

theorem obeys_ite {c : Prop} [Decidable c] {p q : Zk α} (hp : c → Obeys H p) (hq : ¬ c → Obeys H q) :
    Obeys H (if c then p else q) := by
  split
  · exact hp ‹_›
  · exact hq ‹_›

/-! ### Requests -/

/-- Send a well-formed request and receive, in a stage in which its id is fresh. -/
private theorem follows_exchange {xid : Int32} {oa : OArchive} (h : IsRequest xid oa.bytes) :
    (exchange 0 oa).Follows (Discipline.protocol H) (fun _ x => x.Idle) (.authed (some xid) false) := by
  have hawait : ∀ rc : Int, (awaitReply rc).Follows (Discipline.protocol H) (fun _ x => x.Idle)
      (.authed none (rc = zkOk)) := by
    intro rc
    unfold awaitReply
    by_cases hrc : rc = zkOk
    · rw [if_neg (not_not.2 hrc), decide_eq_true hrc]
      refine ⟨_, ⟨trivial, rfl⟩, ?_⟩
      rintro r _ ⟨-, rfl⟩
      cases r with
      | some ia => exact ⟨none, rfl⟩
      | none =>
        refine ⟨_, ⟨trivial, rfl⟩, ?_⟩
        rintro c _ ⟨-, rfl⟩
        exact ⟨none, rfl⟩
    · rw [if_pos hrc, decide_eq_false hrc]
      exact ⟨none, rfl⟩
  rw [exchange_eq, if_neg (lt_irrefl 0)]
  refine ⟨_, ⟨h, rfl⟩, ?_⟩
  rintro rc _ ⟨-, rfl⟩
  exact hawait rc

private theorem follows_encodeRequest (hH : H.Succeeds) {opcode : Int32} (hping : pingOpcode ≠ opcode)
    {body : OArchive → Int × OArchive} {w : Bytes} (hbody : Writes body w) (hlt : w.length + 8 < 2 ^ 29)
    (hrequest : ∀ xid, IsRequest xid (RequestHeader.wire ⟨xid, opcode⟩ ++ w)) (hx : x.Idle) :
    (encodeRequest H opcode body).Follows (Discipline.protocol H)
      (fun r x => r.1 = 0 ∧ ∃ xid, IsRequest xid r.2.bytes ∧ x = .authed (some xid) false) x := by
  obtain ⟨oa, hbytes, hencode⟩ := encodeRequest_eq hH opcode hbody hlt
  obtain ⟨xid, rfl⟩ := hx
  rw [hencode, if_neg hping]
  refine ⟨_, ⟨trivial, rfl⟩, ?_⟩
  rintro xid' _ ⟨-, rfl⟩
  exact ⟨rfl, xid', hbytes xid' ▸ hrequest xid', rfl⟩

private theorem obeys_request (hH : H.Succeeds) {op : Operation} (hop : op.Valid) (hsize : op.wire.length + 8 < 2 ^ 29)
    {enter : Zk Unit} (henter : enter = lock ∨ enter = unlock) {fail : Int → β} {finish : IArchive → Zk β}
    (hfinish : ∀ ia, (finish ia).Only Eff.Aside) :
    Obeys H (request H op.opcode (op.body H) enter fail finish) := by
  intro x hx
  have hencode := follows_encodeRequest hH op.opcode_ne_ping (Operation.writes_body hH hop) hsize
    (fun xid => .inl ⟨op, hop, rfl⟩) hx
  unfold request
  refine hencode.bind ?_
  rintro ⟨rc, oa⟩ x ⟨hrc, xid, hrequest, rfl⟩
  obtain rfl : rc = 0 := hrc
  rcases henter with rfl | rfl
  all_goals
    refine ⟨_, rfl, (follows_exchange hrequest).bind fun r x hx => ?_⟩
    cases r with
    | inl err => exact ⟨x, rfl, hx⟩
    | inr ia => exact ⟨x, rfl, obeys_only (hfinish ia) x hx⟩

private theorem obeys_doHeaderRequest (hH : H.Succeeds) : Obeys H (doHeaderRequest H closeOpcode) := by
  intro x hx
  have hencode := follows_encodeRequest (w := []) hH (show pingOpcode ≠ closeOpcode by decide) .nil (by decide)
    (fun xid => .inr (List.append_nil _)) hx
  unfold doHeaderRequest
  refine hencode.bind ?_
  rintro ⟨rc, oa⟩ x ⟨hrc, xid, hrequest, rfl⟩
  obtain rfl : rc = 0 := hrc
  refine (follows_exchange hrequest).bind fun r x hx => ?_
  cases r with
  | inl err => exact hx
  | inr ia =>
    have hheader : Obeys H (decodeReplyHeader H ia) :=
      obeys_only ((only_decode (fun _ => trivial) _ _ _).bind fun d => ⟨trivial, fun _ => trivial⟩)
    exact (hheader x hx).bind fun r x hx => hx

/-- Behind its request an operation only writes `last_err`. -/
private theorem aside_finish (op : Operation) (ia : IArchive) : (op.finish H ia).Only Eff.Aside :=
  op.only_finish ia (fun _ => trivial) fun _ => trivial

section Operations

variable {path : Bytes}

private theorem obeys_zkCreate (hH : H.Succeeds) {data : Option Bytes} {size flags : Int32}
    (hop : (Operation.create path data size flags).Sendable) : Obeys H (zkCreate H (some path) data size flags) :=
  obeys_request hH hop.valid hop.size (.inl rfl) fun ia => (aside_finish (.create path data size flags) ia).of_bind

private theorem obeys_zkExists (hH : H.Succeeds) (hop : (Operation.exists path).Sendable) :
    Obeys H (zkExists H (some path) true) :=
  obeys_request hH hop.valid hop.size (.inl rfl) fun ia => (aside_finish (.exists path) ia).of_bind

private theorem obeys_zkGet (hH : H.Succeeds) (hop : (Operation.get path).Sendable) :
    Obeys H (zkGet H (some path) true) :=
  obeys_request hH hop.valid hop.size (.inl rfl) fun ia => (aside_finish (.get path) ia).of_bind

private theorem obeys_zkSet (hH : H.Succeeds) {data : Buffer} (hop : (Operation.set path data).Sendable) :
    Obeys H (zkSet H (some path) data) :=
  obeys_request hH hop.valid hop.size (.inl rfl) fun ia => (aside_finish (.set path data) ia).of_bind

private theorem obeys_zkDel (hH : H.Succeeds) (hop : (Operation.del path).Sendable) : Obeys H (zkDel H (some path)) :=
  obeys_request hH hop.valid hop.size (.inr rfl) fun ia => (aside_finish (.del path) ia).of_bind

private theorem obeys_zkGetChildren (hH : H.Succeeds) (hop : (Operation.getChildren path).Sendable) :
    Obeys H (zkGetChildren H (some path)) :=
  obeys_request hH hop.valid hop.size (.inl rfl) fun ia => (aside_finish (.getChildren path) ia).of_bind

end Operations

/-! ### Commands -/

private theorem aside_printf (fmt : String) (args : List Arg) (a : α) : (do
    perform (.printf fmt args)
    return a : Zk α).Only Eff.Aside :=
  ⟨trivial, fun _ => trivial⟩

private theorem aside_fault {c : Prop} [Decidable c] {f : Fault} {p : Zk α} (hp : p.Only Eff.Aside) :
    (if c then perform (.undefined f) >>= fun _ => p else p).Only Eff.Aside :=
  Prog.only_ite.2 ⟨fun _ => ⟨trivial, fun _ => hp⟩, fun _ => hp⟩

private theorem obeys_fault {c : Prop} [Decidable c] {f : Fault} {p : Zk α} (hp : Obeys H p) :
    Obeys H (if c then perform (.undefined f) >>= fun _ => p else p) :=
  obeys_ite (fun _ => Obeys.bind (obeys_only ⟨trivial, fun _ => trivial⟩) fun _ => hp) fun _ => hp

private theorem aside_reportError (fmt : String) (path : Option Bytes) : (reportError fmt path).Only Eff.Aside :=
  ⟨trivial, fun _ => ⟨trivial, fun _ => ⟨trivial, fun _ => trivial⟩⟩⟩

private theorem aside_entry (v : StringVector) (i : Nat) : (v.entry i).Only Eff.Aside := by
  unfold StringVector.entry
  split
  · exact ⟨trivial, fun _ => trivial⟩
  · split
    · exact ⟨trivial, fun _ => trivial⟩
    · exact aside_fault trivial

private theorem aside_printChildren (v : StringVector) (n i : Nat) : (printChildren v n i).Only Eff.Aside := by
  induction n generalizing i with
  | zero => trivial
  | succ n ih => exact (aside_entry v i).bind fun _ => ⟨trivial, fun _ => ih (i + 1)⟩

private theorem obeys_getCommand (hH : H.Succeeds) {path : Bytes} (h0 : 0 ∉ path)
    (hsize : path.length + 64 < 2 ^ 29) : Obeys H (getCommand H (some path)) := by
  refine (obeys_zkExists hH (.exists h0 hsize)).bind fun r => ?_
  refine obeys_ite (fun _ => obeys_only (aside_reportError _ _)) fun _ => obeys_fault ?_
  refine obeys_ite (fun _ => obeys_only (aside_printf _ _ _)) fun _ => ?_
  refine (obeys_zkGet hH (.get h0 hsize)).bind fun r => obeys_only ?_
  refine Prog.only_ite.2 ⟨fun _ => aside_reportError _ _, fun _ => ?_⟩
  dsimp only
  split
  · exact ⟨trivial, fun _ => trivial⟩
  · exact aside_fault (aside_printf _ _ _)

private theorem obeys_lsCommand (hH : H.Succeeds) {path : Bytes} (h0 : 0 ∉ path)
    (hsize : path.length + 64 < 2 ^ 29) : Obeys H (lsCommand H (some path)) := by
  refine (obeys_zkGetChildren hH (.getChildren h0 hsize)).bind fun r => obeys_only ?_
  refine Prog.only_ite.2 ⟨fun _ => aside_reportError _ _, fun _ => (aside_printChildren _ _ _).bind fun _ => ?_⟩
  exact Prog.only_ite.2 ⟨fun _ => aside_printf _ _ _, fun _ => trivial⟩

private theorem obeys_statCommand (hH : H.Succeeds) {path : Bytes} (h0 : 0 ∉ path)
    (hsize : path.length + 64 < 2 ^ 29) : Obeys H (statCommand H (some path)) := by
  refine (obeys_zkExists hH (.exists h0 hsize)).bind fun r => obeys_only ?_
  exact Prog.only_ite.2 ⟨fun _ => ⟨trivial, fun _ => trivial⟩, fun _ => aside_fault (aside_printf _ _ _)⟩

private theorem obeys_zkMkdir (hH : H.Succeeds) (path : Bytes) (h0 : 0 ∉ path) (hsize : path.length + 64 < 2 ^ 29) :
    Obeys H (zkMkdir H (some path)) := by
  show Obeys H (zkMkdirWith (fun path => zkCreate H (some path) none 0 0)
    (perform (.undefined (.nullPointer "strrchr"))) path)
  induction hlen : path.length using Nat.strong_induction_on generalizing path with
  | _ len ih =>
    subst hlen
    have hcreate : Obeys H (zkCreate H (some path) none 0 0) := obeys_zkCreate hH (@Operation.Sendable.create _ none h0 hsize)
    rw [zkMkdirWith_eq]
    refine hcreate.bind fun status => obeys_ite (fun _ => ?_) fun _ => obeys_pure status
    cases hpos : strrchr path slash with
    | none => exact obeys_only ⟨trivial, fun _ => trivial⟩
    | some pos =>
      have hlt := strrchr_lt hpos
      have htake : (path.take pos).length = pos := List.length_take_of_le hlt.le
      have hparent := ih _ (by rw [htake]; exact hlt) (path.take pos) (fun h => h0 (List.mem_of_mem_take h))
        (by rw [htake]; omega) rfl
      exact hparent.bind fun status => obeys_ite (fun _ => hcreate) fun _ => obeys_pure status

/-- A command function that asks once. -/
private theorem obeys_once {p : Zk Int} (hp : Obeys H p) {success failure : String} {path : Bytes} : Obeys H (do
    let status ← p
    if status = zkOk then do
      perform (.printf success [.str (some path)])
      return zkOk
    else reportError failure (some path)) :=
  hp.bind fun _ => obeys_only (Prog.only_ite.2 ⟨fun _ => aside_printf _ _ _, fun _ => aside_reportError _ _⟩)

private theorem obeys_commandFunction (hH : H.Succeeds) {c : Shell.Command} (hc : c.Fits) :
    Obeys H (Shell.commandFunction H c) := by
  have hswap : ∀ {status : Int} {p q : Zk Int}, (if status ≠ zkOk then p else q) = if status = zkOk then q else p :=
    ite_not ..
  cases c with
  | get path => exact obeys_getCommand hH hc.1 hc.2
  | create path data => exact obeys_once (obeys_zkCreate hH (.create hc.1 hc.2))
  | mkdir path => exact obeys_once (obeys_zkMkdir hH path hc.1 hc.2)
  | ls path => exact obeys_lsCommand hH hc.1 hc.2
  | stat path => exact obeys_statCommand hH hc.1 hc.2
  | set path data =>
    show Obeys H (setCommand H (some path) data _ (-1))
    simp only [setCommand, hswap]
    exact obeys_once (obeys_zkSet hH (.set hc.1 hc.2))
  | del path =>
    show Obeys H (delCommand H (some path) (-1))
    simp only [delCommand, hswap]
    exact obeys_once (obeys_zkDel hH (.del hc.1 hc.2))
  | quit => exact obeys_pure zkOk
  | unknown => exact obeys_only (aside_printf _ _ _)

/-! ### Connecting -/

/-- The operations that do not touch the connection. -/
def Eff.Still : Eff → Prop
  | getXid => False
  | load => False
  | sendRequest _ => False
  | recvResponse => False
  | store (.sock _) => False
  | store (.state _) => False
  | _ => True

private theorem follows_still {p : Zk α} (hp : p.Only Eff.Still) (x : Stage) :
    p.Follows (Discipline.protocol H) (fun _ x' => x' = x) x := by
  refine follows_only (fun e he x' hx => ?_) hp rfl
  subst hx
  cases e with
  | store u =>
    cases u with
    | sock fd => exact he.elim
    | state s => exact he.elim
    | _ => exact ⟨trivial, fun _ => rfl⟩
  | getXid => exact he.elim
  | load => exact he.elim
  | sendRequest payload => exact he.elim
  | recvResponse => exact he.elim
  | _ => exact ⟨trivial, fun _ => rfl⟩

/-- The session is offered once, and `recv_response` has returned; or else nothing has been sent. -/
private theorem follows_offer {c : Client} {rc : Int} {oa : OArchive} (hbytes : oa.bytes = offerBytes H c) :
    (exchange rc oa).Follows (Discipline.protocol H) (fun r x => x = .offered false ∨ ∃ rc < 0, r = .inl rc)
      (.fresh (some c)) := by
  have hawait : ∀ rc : Int, (awaitReply rc).Follows (Discipline.protocol H) (fun _ x => x = .offered false)
      (.offered (rc = zkOk)) := by
    intro rc
    unfold awaitReply
    by_cases hrc : rc = zkOk
    · rw [if_neg (not_not.2 hrc), decide_eq_true hrc]
      refine ⟨_, ⟨trivial, rfl⟩, ?_⟩
      rintro r _ ⟨-, rfl⟩
      cases r with
      | some ia => rfl
      | none =>
        refine ⟨_, ⟨trivial, rfl⟩, ?_⟩
        rintro c _ ⟨-, rfl⟩
        rfl
    · rw [if_pos hrc, decide_eq_false hrc]
      rfl
  rw [exchange_eq]
  refine Prog.follows_ite (fun hneg => ?_) fun _ => ⟨_, ⟨hbytes, rfl⟩, ?_⟩
  · unfold awaitReply
    rw [if_pos (by rintro rfl; exact absurd hneg (lt_irrefl 0))]
    exact .inr ⟨rc, hneg, rfl⟩
  · rintro rc _ ⟨-, rfl⟩
    exact (hawait rc).mono fun _ _ hx => .inl hx

private theorem follows_fault {c : Prop} [Decidable c] {f : Fault} {p : Zk α} {Q : α → Stage → Prop}
    (hp : p.Follows (Discipline.protocol H) Q x) :
    (if c then perform (.undefined f) >>= fun _ => p else p).Follows (Discipline.protocol H) Q x := by
  refine Prog.follows_ite (fun _ => ⟨_, ⟨trivial, rfl⟩, ?_⟩) fun _ => hp
  rintro - _ ⟨-, rfl⟩
  exact hp

/-- The client takes over a session, which does not concern the connection. -/
private theorem still_adopt (old : Buffer) (ia : IArchive) : (adopt H old ia).Only Eff.Still := by
  have hplain : (adopt H old ia).Plain Eff.Still := by
    unfold adopt
    refine (plain_decode (fun _ => trivial) _ _ _).bind fun d => plain_fault (fun _ => trivial) ?_
    refine ⟨trivial, fun _ => ⟨trivial, fun _ => ?_⟩⟩
    exact (plain_adoptPasswd (fun _ => trivial) (fun _ => trivial) _ _).bind fun _ => plain_fault (fun _ => trivial) trivial
  exact hplain.only

/-- `authenticate` on a new connection. -/
private theorem follows_authenticate : (authenticate H).Follows (Discipline.protocol H)
    (fun rc x => rc = zkOk → x = .offered false) (.fresh none) := by
  have hoffer : ∀ c, (serializeConnectRequest H (connectRequest c) (createBufferOarchive H)).2.bytes = offerBytes H c :=
    fun _ => rfl
  unfold authenticate
  generalize createBufferOarchive H = start at hoffer ⊢
  refine ⟨_, ⟨trivial, rfl⟩, ?_⟩
  rintro c _ ⟨-, rfl⟩
  refine follows_fault ((follows_offer (hoffer c)).bind fun r x hx => ?_)
  cases r with
  | inl rc =>
    rcases hx with rfl | ⟨rc', hneg, hrc⟩
    · exact fun _ => rfl
    · obtain rfl := Sum.inl.inj hrc
      intro hok
      rw [if_pos hneg] at hok
      exact absurd hneg (by rw [hok]; exact lt_irrefl 0)
  | inr ia =>
    rcases hx with rfl | ⟨rc', -, hrc⟩
    · exact (follows_still (still_adopt (H := H) c.passwd ia) _).mono fun _ _ hx _ => hx
    · exact absurd hrc Sum.inr_ne_inl

private theorem still_connectServer (host : Bytes) (port timeout : Int) :
    (connectServer host port timeout).Only Eff.Still := by
  have hclose : ∀ sock : Int, (do
      perform (.close sock)
      return zkError : Zk Int).Only Eff.Still := fun _ => ⟨trivial, fun _ => trivial⟩
  have hhost : (host2Ip host).Only Eff.Still :=
    Prog.only_ite.2 ⟨fun _ => trivial, fun _ => ⟨trivial, fun _ => trivial⟩⟩
  have hwait : ∀ sock : Int, (waitSocket sock timeout .write).Only Eff.Still := fun _ => ⟨trivial, fun _ => trivial⟩
  unfold connectServer
  refine Prog.only_ite.2 ⟨fun _ => trivial, fun _ => ⟨trivial, fun sock => ?_⟩⟩
  refine Prog.only_ite.2 ⟨fun _ => trivial, fun _ => hhost.bind fun found => ?_⟩
  refine Prog.only_ite.2 ⟨fun _ => trivial, fun _ => ⟨trivial, fun accepted => ?_⟩⟩
  refine Prog.only_ite.2 ⟨fun _ => hclose sock, fun _ => ⟨trivial, fun ⟨rc, errno⟩ => ?_⟩⟩
  refine Prog.only_ite.2 ⟨fun _ => hclose sock, fun _ => (hwait sock).bind fun rc => ?_⟩
  exact Prog.only_ite.2 ⟨fun _ => hclose sock, fun _ => trivial⟩

/-- A server of the list is tried, whatever has become of the connection before. -/
private theorem follows_connectTo (server : Bytes) (x : Stage) :
    (connectTo H server).Follows (Discipline.protocol H) (fun connected x => connected = true → x.Idle) x := by
  unfold connectTo
  cases strrchr server 58 with
  | none => exact fun h => absurd h Bool.false_ne_true
  | some pos =>
    refine follows_fault ⟨_, ⟨trivial, rfl⟩, ?_⟩
    rintro c _ ⟨-, rfl⟩
    refine (follows_still (still_connectServer _ _ _) _).bind ?_
    rintro sock _ rfl
    refine Prog.follows_ite (fun _ => fun h => absurd h Bool.false_ne_true) fun hsock => ?_
    refine ⟨_, ⟨trivial, rfl⟩, ?_⟩
    rintro - _ ⟨-, rfl⟩
    refine ⟨_, ⟨trivial, rfl⟩, ?_⟩
    rintro - _ ⟨-, rfl⟩
    show (authenticate H >>= _).Follows _ _ (Stage.fresh none)
    refine follows_authenticate.bind fun rc x hx => ?_
    refine Prog.follows_ite (fun hok => ?_) fun _ => fun h => absurd h Bool.false_ne_true
    obtain rfl := hx hok
    refine (follows_still (p := startPingThread) (fun t => ⟨trivial, fun _ => trivial⟩) _).bind ?_
    rintro - _ rfl
    refine ⟨_, ⟨trivial, rfl⟩, ?_⟩
    rintro - _ ⟨-, rfl⟩
    exact fun _ => ⟨none, rfl⟩

private theorem follows_connectLoop (servers : List Bytes) (retries start : Nat) (x : Stage) :
    (connectLoop H servers retries start).Follows (Discipline.protocol H) (fun rc x => rc = zkOk → x.Idle) x := by
  induction retries generalizing start x with
  | zero => exact fun h => absurd h (by decide)
  | succ retries ih =>
    refine (follows_connectTo _ x).bind fun connected x hx => ?_
    exact Prog.follows_ite (fun h _ => hx h) fun _ => ih (start + 1) x

private theorem follows_doConnect (x : Stage) :
    (doConnect H).Follows (Discipline.protocol H) (fun rc x => rc = zkOk → x.Idle) x := by
  unfold doConnect
  refine ⟨_, ⟨trivial, rfl⟩, ?_⟩
  rintro c _ ⟨-, rfl⟩
  refine ⟨_, ⟨trivial, rfl⟩, ?_⟩
  rintro r _ ⟨-, rfl⟩
  exact follows_connectLoop _ _ _ _

/-- After a failure the process exits, so that what comes next finds an idle connection. -/
private theorem follows_connected {rc : Int} {p : Zk α} {Q : α → Stage → Prop} (hx : rc = zkOk → x.Idle)
    (hp : x.Idle → p.Follows (Discipline.protocol H) Q x) :
    (if rc ≠ zkOk then perform .exit >>= fun _ => p else p).Follows (Discipline.protocol H) Q x :=
  Prog.follows_ite (fun _ => ⟨_, ⟨trivial, rfl⟩, fun _ _ h => absurd rfl h.1⟩) fun h => hp (hx (not_not.1 h))

private theorem follows_resetZkclient (x : Stage) :
    (resetZkclient H).Follows (Discipline.protocol H) (fun _ _ => True) x := by
  have hclear : (clearSession H).Only (¬ ·.Transfers) :=
    (plain_clearSession (fun _ h => h) (fun _ h => h) id id id id).only
  have hclose : (closeSession H).Only (¬ ·.Transfers) :=
    ⟨id, fun c => Prog.only_ite.2 ⟨fun _ => ⟨id, fun _ => ⟨id, fun _ => hclear⟩⟩, fun _ => ⟨id, fun _ => hclear⟩⟩⟩
  have hreset : (resetZkclient H).Only (¬ ·.Transfers) := by
    rw [resetZkclient_eq]
    exact fun _ => ⟨id, fun t => Prog.only_ite.2 ⟨fun _ => hclose, fun _ => hclose⟩⟩
  refine follows_only (fun e he x _ => ⟨?_, fun _ => trivial⟩) hreset trivial
  cases e with
  | sendRequest payload => exact absurd trivial he
  | recvResponse => exact absurd trivial he
  | _ => trivial

private theorem obeys_reconnect : Obeys H (reconnect H) := by
  intro x hx
  refine (follows_resetZkclient x).bind fun _ x _ => (follows_doConnect x).bind fun rc x hx => ?_
  refine Prog.follows_ite (fun _ => ?_) fun h => ?_
  · -- the process exits
    rw [logger_error]
    refine ⟨x, ⟨trivial, rfl⟩, ?_⟩
    rintro - _ ⟨-, rfl⟩
    exact ⟨_, ⟨trivial, rfl⟩, fun _ _ h => absurd rfl h.1⟩
  · rw [logger_warn]
    have hlog : (perform (.printf logFormat (Level.warn.line "Reconnect to zookeeper success."))).Only Eff.Aside :=
      ⟨trivial, fun _ => trivial⟩
    exact obeys_only hlog x (hx (not_not.1 h))

/-! ### The program -/

private theorem obeys_processCommand (hH : H.Succeeds) {args : List Bytes}
    (hargs : ∀ c, Shell.Command.parse args = some c → c.Fits) : Obeys H (processCommand H args) := by
  unfold processCommand
  rw [Shell.runCommand_eq]
  cases hparse : Shell.Command.parse args with
  | none => exact obeys_only ⟨trivial, fun _ => trivial⟩
  | some c =>
    have hstatus : ∀ k : Option Int → Zk Unit, (Shell.commandStatus H (some c) >>= k) =
        Shell.commandFunction H c >>= fun status => k (some status) := fun k => Prog.bind_assoc _ _ k
    rw [hstatus]
    refine (obeys_commandFunction hH (hargs c hparse)).bind fun status => ?_
    refine Obeys.bind (obeys_only (p := perform .load) ⟨trivial, fun _ => trivial⟩) fun c => ?_
    exact obeys_ite (fun _ => obeys_reconnect) fun _ => obeys_pure ()

private theorem aside_offerChildren (v : StringVector) (typed : Bytes) (n i : Nat) :
    (offerChildren v typed n i).Only Eff.Aside := by
  induction n generalizing i with
  | zero => trivial
  | succ n ih => exact (aside_entry v i).bind fun _ => (ih (i + 1)).bind fun _ => trivial

private theorem aside_offerMatches (buf : Bytes) (lastSlashPos : Int) (r : Int × Option StringVector) :
    (offerMatches buf lastSlashPos r).Only Eff.Aside := by
  refine Prog.only_ite.2 ⟨fun _ => trivial, fun _ => (aside_offerChildren _ _ _ _).bind fun offered => ?_⟩
  split <;> trivial

private theorem obeys_completion (hH : H.Succeeds) {text : Bytes} (h0 : 0 ∉ text) (hlen : text.length + 65 < 2 ^ 29) :
    Obeys H (completion H text) := by
  by_cases hspace : 32 ∈ typedLine text
  swap
  · have hcompletion : completion H text = if typedLine text = [] then return []
        else if 32 ∈ typedLine text then pathCompletion H (typedLine text)
        else return commands.filter fun c => strncmpEq (typedLine text) c (typedLine text).length := rfl
    rw [hcompletion, if_neg hspace]
    exact obeys_ite (fun _ => obeys_pure _) fun _ => obeys_pure _
  obtain ⟨pre, c, hc, hbuf⟩ := split_blank hspace
  rw [completion_eq H hspace]
  by_cases hword : slash ∈ lastWord (typedLine text)
  · obtain ⟨dir, hdir, hsplit⟩ := split_slash hword
    obtain ⟨hquery, hshort⟩ := Shell.completionQuery_fits h0
    rw [pathCompletion_asks H hc hbuf hsplit, ← hdir]
    exact (obeys_zkGetChildren hH (.getChildren hquery (by omega))).bind fun r => obeys_only (aside_offerMatches _ _ r)
  · rw [pathCompletion_idle H hc hbuf hword]
    exact obeys_pure _

private theorem obeys_mainLoop (hH : H.Succeeds) {grants : Int → Bool} (hgrants : ∀ n, grants n = true)
    {inputs : List Input} (hinputs : ∀ input ∈ inputs, input.Fits) : Obeys H (mainLoop H grants inputs) := by
  induction inputs with
  | nil => exact obeys_pure []
  | cons input inputs ih =>
    have ih := ih fun input h => hinputs input (List.mem_cons_of_mem _ h)
    have hinput := hinputs input List.mem_cons_self
    cases input with
    | tab text => exact (obeys_completion hH hinput.1 hinput.2).bind fun offered => ih.bind fun rest => obeys_pure _
    | line text =>
      show Obeys H (splitWords grants text >>= _)
      rw [Shell.splitWords_eq hgrants hinput.1]
      have hrest : Obeys H (if quits (Shell.words text) then return [] else mainLoop H grants inputs) :=
        obeys_ite (fun _ => obeys_pure []) fun _ => ih
      refine obeys_ite (fun _ => ?_) fun _ => hrest
      exact (obeys_processCommand hH fun c => Shell.fits_words hinput.1 hinput.2).bind fun _ => hrest

private theorem obeys_destroyClient (hH : H.Succeeds) : Obeys H (destroyClient H) := by
  have hperform : ∀ {e : Eff}, e.Aside → Obeys H (perform e) := fun he => obeys_only ⟨he, fun _ => trivial⟩
  have hclose : Obeys H (zkClose H) := by
    refine (obeys_doHeaderRequest hH).bind fun rc => (hperform (e := .load) trivial).bind fun c => ?_
    exact (hperform (e := .close c.sock) trivial).bind fun _ => obeys_pure rc
  refine (hperform (e := .store (.state zkStateStop)) trivial).bind fun _ => ?_
  refine (hperform (e := .load) trivial).bind fun c => (hperform (e := .join c.pingTid) trivial).bind fun _ => ?_
  refine hclose.bind fun rc => (hperform (e := .load) trivial).bind fun c => ?_
  exact obeys_ite (fun _ => hperform trivial) fun _ => obeys_pure ()

theorem follows_main (hH : H.Succeeds) {grants : Int → Bool} (hgrants : ∀ n, grants n = true) {inputs : List Input}
    (hinputs : ∀ input ∈ inputs, input.Fits) :
    (main H grants inputs).Follows (Discipline.protocol H) (fun _ x => x.Idle) (.fresh none) := by
  have hserve : Obeys H (do
      let offers ← mainLoop H grants inputs
      destroyClient H
      return offers) :=
    (obeys_mainLoop hH hgrants hinputs).bind fun offers => (obeys_destroyClient hH).bind fun _ => obeys_pure offers
  unfold main
  refine ⟨_, ⟨trivial, rfl⟩, ?_⟩
  rintro t _ ⟨-, rfl⟩
  refine ⟨_, ⟨trivial, rfl⟩, ?_⟩
  rintro now _ ⟨-, rfl⟩
  refine ⟨_, ⟨trivial, rfl⟩, ?_⟩
  rintro - _ ⟨-, rfl⟩
  show (doConnect H >>= _).Follows _ _ (Stage.fresh none)
  exact (follows_doConnect _).bind fun rc x hx => follows_connected hx (hserve x)

end ZkClient
