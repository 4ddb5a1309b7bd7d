import ZkClient.Commands
import ZkClient.Lib.Threads

/-!
# Functions that run beside the connection

The functions of the client that neither transfer anything nor lock, nor start or cancel a thread, nor write the fields
through which the threads talk to each other (`c->sock`, `c->last_err`, `c->ping_tid`).  They are plain programs of
quiet operations, so a discipline only has to say what it does with those (`Prog.Plain.follows`).
-/

namespace ZkClient

open Pthread

/-- The operations that the threads do not notice of each other. -/
def Eff.Quiet : Eff → Prop
  | sendRequest _ => False
  | recvResponse => False
  | pingTid => False
  | exit => False
  | store (.sock _) => False
  | store (.lastErr _) => False
  | store (.pingTid _) => False
  | _ => True

/-- A program of quiet operations. -/
abbrev Quiet {α : Type} (p : Zk α) : Prop := p.Plain Eff.Quiet

/-- What `exchange` does with the status of `send_request`. -/
def awaitReply (rc : Int) : Zk (Int ⊕ IArchive) := do
  if rc ≠ zkOk then return .inl rc
  match ← perform .recvResponse with
  | some ia => return .inr ia
  | none => return .inl (← perform .load).lastErr

/-- What `reset_zkclient` does with the fields of the session. -/
def clearSession (H : Heap) : Zk Unit := do
  perform (.store (.state zkStateInit))
  perform (.store (.lastPing 0))
  perform (.store (.sessionId 0))
  perform (.store (.lastZxid 0))
  if H.ok .passwd 16 then perform (.store (.passwd { len := 16, buff := some (List.replicate 16 0) }))
  else do
    perform (.undefined (.nullPointer "c->passwd"))
    perform (.store (.passwd { len := 16, buff := none }))

/-- `reset_zkclient` from `if (c->sock)` on. -/
def closeSession (H : Heap) : Zk Unit := do
  let c ← perform .load
  if c.sock ≠ 0 then perform (.close c.sock)
  perform (.store (.sock (-1)))
  clearSession H

variable {α : Type} {H : Heap}

theorem resetZkclient_eq : resetZkclient H = (do
    let _ ← trylock
    unlock
    let t ← perform .pingTid
    if t ≠ 0 then .cancel t (.ret ())
    closeSession H : Zk Unit) := rfl

theorem exchange_eq (rc : Int) (oa : OArchive) :
    exchange rc oa = if rc < 0 then awaitReply rc else perform (.sendRequest oa.bytes) >>= awaitReply := rfl

section Plain

variable {ok : Eff → Prop}

/-- `if (c) ..` in front of a program, where `..` is undefined behaviour. -/
theorem plain_fault {c : Prop} [Decidable c] {f : Fault} {p : Zk α} (hundef : ∀ f, ok (.undefined f)) (hp : p.Plain ok) :
    (if c then perform (.undefined f) >>= fun _ => p else p).Plain ok :=
  Prog.plain_ite (fun _ => ⟨hundef f, fun _ => hp⟩) fun _ => hp

theorem plain_decode {σ : Type} (hundef : ∀ f, ok (.undefined f)) (r : Reader σ) (ia : IArchive) (v : σ) :
    (decode r ia v).Plain ok :=
  plain_fault hundef trivial

theorem plain_encodeRequest (hxid : ok .getXid) (hundef : ∀ f, ok (.undefined f)) (opcode : Int32)
    (body : OArchive → Int × OArchive) : (encodeRequest H opcode body).Plain ok := by
  unfold encodeRequest
  refine .bind ?_ fun ⟨rc, oa⟩ => plain_fault hundef trivial
  unfold addRequestHeader
  exact Prog.plain_ite (fun _ => trivial) fun _ => ⟨hxid, fun _ => trivial⟩

theorem plain_exchange (hsend : ∀ payload, ok (.sendRequest payload)) (hrecv : ok .recvResponse) (hload : ok .load)
    (rc : Int) (oa : OArchive) : (exchange rc oa).Plain ok := by
  have hawait : ∀ rc, (awaitReply rc).Plain ok := by
    intro rc
    refine Prog.plain_ite (fun _ => trivial) fun _ => ⟨hrecv, fun r => ?_⟩
    cases r with
    | some ia => trivial
    | none => exact ⟨hload, fun _ => trivial⟩
  rw [exchange_eq]
  exact Prog.plain_ite (fun _ => hawait rc) fun _ => ⟨hsend _, hawait⟩

theorem plain_adoptPasswd (hpasswd : ∀ b, ok (.store (.passwd b))) (hundef : ∀ f, ok (.undefined f)) (old new : Buffer) :
    (adoptPasswd H old new).Plain ok := by
  have hstore : ∀ b : Buffer, (perform (.store (.passwd b))).Plain ok := fun b => ⟨hpasswd b, fun _ => trivial⟩
  unfold adoptPasswd
  refine Prog.plain_ite (fun _ => plain_fault hundef (Prog.plain_ite (fun _ => trivial) fun _ => plain_fault hundef ?_))
    fun _ => plain_fault hundef ?_
  · split
    · exact plain_fault hundef (hstore _)
    · exact plain_fault hundef (hstore _)
  · split
    · exact plain_fault hundef (hstore _)
    · exact plain_fault hundef (hstore _)

/-- `authenticate` exchanges, and assigns the fields of the session. -/
theorem plain_authenticate (hsend : ∀ payload, ok (.sendRequest payload)) (hrecv : ok .recvResponse) (hload : ok .load)
    (hid : ∀ id, ok (.store (.sessionId id))) (htimeout : ∀ ms, ok (.store (.sessionTimeout ms)))
    (hpasswd : ∀ b, ok (.store (.passwd b))) (hundef : ∀ f, ok (.undefined f)) : (authenticate H).Plain ok := by
  unfold authenticate
  generalize createBufferOarchive H = oa
  refine ⟨hload, fun c => plain_fault hundef ((plain_exchange hsend hrecv hload _ _).bind fun x => ?_)⟩
  cases x with
  | inl rc => trivial
  | inr ia =>
    refine (plain_decode hundef _ _ _).bind fun d => plain_fault hundef ?_
    refine ⟨hid _, fun _ => ⟨htimeout _, fun _ => ?_⟩⟩
    exact (plain_adoptPasswd hpasswd hundef _ _).bind fun _ => plain_fault hundef trivial

theorem plain_clearSession (hundef : ∀ f, ok (.undefined f)) (hpasswd : ∀ b, ok (.store (.passwd b)))
    (hstate : ok (.store (.state zkStateInit))) (hping : ok (.store (.lastPing 0))) (hid : ok (.store (.sessionId 0)))
    (hzxid : ok (.store (.lastZxid 0))) : (clearSession H).Plain ok := by
  refine ⟨hstate, fun _ => ⟨hping, fun _ => ⟨hid, fun _ => ⟨hzxid, fun _ => ?_⟩⟩⟩⟩
  exact Prog.plain_ite (fun _ => ⟨hpasswd _, fun _ => trivial⟩) fun _ => ⟨hundef _, fun _ => ⟨hpasswd _, fun _ => trivial⟩⟩

end Plain

theorem quiet_decode {σ : Type} (r : Reader σ) (ia : IArchive) (v : σ) : Quiet (decode r ia v) :=
  plain_decode (fun _ => trivial) r ia v

theorem quiet_encodeRequest (opcode : Int32) (body : OArchive → Int × OArchive) :
    Quiet (encodeRequest H opcode body) :=
  plain_encodeRequest trivial (fun _ => trivial) opcode body

theorem quiet_adoptPasswd (old new : Buffer) : Quiet (adoptPasswd H old new) :=
  plain_adoptPasswd (fun _ => trivial) (fun _ => trivial) old new

theorem quiet_clearSession : Quiet (clearSession H) :=
  plain_clearSession (fun _ => trivial) (fun _ => trivial) trivial trivial trivial trivial

theorem quiet_waitSocket (fd timeout : Int) (rw : RwMode) : Quiet (waitSocket fd timeout rw) :=
  ⟨trivial, fun _ => trivial⟩

theorem quiet_connectServer (host : Bytes) (port timeout : Int) : Quiet (connectServer host port timeout) := by
  have hclose : ∀ sock : Int, Quiet (do
      perform (.close sock)
      return zkError : Zk Int) := fun _ => ⟨trivial, fun _ => trivial⟩
  unfold connectServer
  refine Prog.plain_ite (fun _ => trivial) fun _ => ⟨trivial, fun sock => ?_⟩
  refine Prog.plain_ite (fun _ => trivial) fun _ => .bind ?_ fun found => ?_
  · exact Prog.plain_ite (fun _ => trivial) fun _ => ⟨trivial, fun _ => trivial⟩
  refine Prog.plain_ite (fun _ => trivial) fun _ => ⟨trivial, fun accepted => ?_⟩
  refine Prog.plain_ite (fun _ => hclose sock) fun _ => ⟨trivial, fun ⟨rc, errno⟩ => ?_⟩
  refine Prog.plain_ite (fun _ => hclose sock) fun _ => (quiet_waitSocket _ _ _).bind fun rc => ?_
  exact Prog.plain_ite (fun _ => hclose sock) fun _ => trivial

end ZkClient
