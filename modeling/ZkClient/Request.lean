import ZkClient.Effects

/-!
# Requests (`request.c`)

The operations of the client on the server.  They share one course (`request`): encode, take the lock, exchange,
release the lock, decode.  The parameters of an operation are what it encodes, how it enters (`zk_del` calls
`pthread_mutex_unlock` where its siblings lock) and what it does with the reply.

`goto ERROR` releases the lock and returns.  Every operation jumps there from both sides of its own unlock: after a
failed exchange the lock is held, after a header that reports an error it has been released already.
-/

namespace ZkClient

open Pthread

@[simp] def createOpcode : Int32 := 1
@[simp] def deleteOpcode : Int32 := 2
@[simp] def existsOpcode : Int32 := 3
@[simp] def getdataOpcode : Int32 := 4
@[simp] def setdataOpcode : Int32 := 5
@[simp] def getchildrenOpcode : Int32 := 8
@[simp] def pingOpcode : Int32 := 11
@[simp] def closeOpcode : Int32 := -11

@[simp] def protocolVersion : Int32 := 0

/-- `"world"` and `"anyone"`. -/
def world : Bytes := [119, 111, 114, 108, 100]
def anyone : Bytes := [97, 110, 121, 111, 110, 101]

def permAll : Int32 := 0x1f

def defaultAcl : AclVector := { count := 1, data := some [⟨permAll, ⟨some world, some anyone⟩⟩] }

/-- The byte `/`. -/
abbrev slash : UInt8 := 47

/-- `strrchr`: the index of the last `ch` in a string. -/
def strrchr (s : Bytes) (ch : UInt8) : Option Nat :=
  match s with
  | [] => none
  | b :: bs =>
    match strrchr bs ch with
    | some i => some (i + 1)
    | none => if b = ch then some 0 else none

theorem strrchr_eq_none {s : Bytes} {ch : UInt8} : strrchr s ch = none ↔ ch ∉ s := by
  induction s with
  | nil => simp [strrchr]
  | cons b bs ih =>
    rw [List.mem_cons, not_or, ← ih, strrchr]
    cases strrchr bs ch with
    | some i => simp
    | none => simp [eq_comm]

theorem strrchr_append {t : Bytes} {ch : UInt8} (h : ch ∉ t) (s : Bytes) :
    strrchr (s ++ ch :: t) ch = some s.length := by
  induction s with
  | nil =>
    show strrchr (ch :: t) ch = some 0
    unfold strrchr
    rw [strrchr_eq_none.2 h]
    exact if_pos rfl
  | cons b s ih =>
    show strrchr (b :: (s ++ ch :: t)) ch = _
    unfold strrchr
    rw [ih]
    rfl

theorem strrchr_lt {s : Bytes} {ch : UInt8} {i : Nat} (h : strrchr s ch = some i) : i < s.length := by
  induction s generalizing i with
  | nil => simp [strrchr] at h
  | cons b bs ih =>
    unfold strrchr at h
    split at h
    · rename_i j hj
      have := ih hj
      simp only [Option.some.injEq] at h
      simp only [List.length_cons]
      omega
    · split at h <;> simp at h
      simp only [List.length_cons]
      omega

/-! ### Uninitialised responses -/

section Locals

variable (H : Heap)

def uninitReplyHeader : ReplyHeader := ⟨H.int, H.long, H.int⟩

def uninitStat : Stat :=
  ⟨H.long, H.long, H.long, H.long, H.int, H.int, H.int, H.long, H.int, H.int, H.long⟩

def uninitBuffer : Buffer := ⟨H.int, none⟩

end Locals

/-- Whether decoding has left one of the given slots unassigned. -/
def Decoded.misses {σ : Type} (d : Decoded σ) (slots : List Slot) : Bool := slots.any (· ∉ d.assigned)

/-! ### The course of a request -/

section Requests

variable (H : Heap)

/-- `add_request_header`. -/
def addRequestHeader (oa : OArchive) (opcode : Int32) : Zk (Int × OArchive) := do
  let xid ← if pingOpcode = opcode then pure (-2) else perform .getXid
  return serializeRequestHeader H { xid, type := opcode } oa

/-- The header and, `rc = rc < 0 ? rc : ..`, the request behind it. -/
def encodeRequest (opcode : Int32) (body : OArchive → Int × OArchive) : Zk (Int × OArchive) := do
  let (rc, oa) ← addRequestHeader H (createBufferOarchive H) opcode
  let (rc, oa) := if rc < 0 then (rc, oa) else body oa
  if oa.oob then perform (.undefined (.outOfBounds "request"))
  return (rc, oa)

/-- Send the request if it was encoded, and receive; the failing status when there is no reply. -/
def exchange (rc : Int) (oa : OArchive) : Zk (Int ⊕ IArchive) := do
  let rc ← if rc < 0 then pure rc else perform (.sendRequest oa.bytes)
  if rc ≠ zkOk then return .inl rc
  match ← perform .recvResponse with
  | some ia => return .inr ia
  | none => return .inl (← perform .load).lastErr

/-- `decode_reply_header`: the error it reports and the archive behind the header. -/
def decodeReplyHeader (ia : IArchive) : Zk (Int × IArchive) := do
  let d ← decode deserializeReplyHeader ia (uninitReplyHeader H)
  let err := if d.rc < 0 then zkError else d.val.err.toInt
  perform (.store (.lastErr err))
  return (err, d.ia)

/-- Encode, enter the critical section, exchange, leave it; `fail` is the result after `goto ERROR`. -/
def request {β : Type} (opcode : Int32) (body : OArchive → Int × OArchive) (enter : Zk Unit) (fail : Int → β)
    (finish : IArchive → Zk β) : Zk β := do
  let (rc, oa) ← encodeRequest H opcode body
  enter
  match ← exchange rc oa with
  | .inl err => do
    unlock
    return fail err
  | .inr ia => do
    unlock
    finish ia

/-- Decode the header; a header that reports an error goes to `ERROR`, where the lock is released again. -/
def afterHeader {β : Type} (fail : Int → β) (finish : IArchive → Zk β) (ia : IArchive) : Zk β := do
  let (err, ia) ← decodeReplyHeader H ia
  if err ≠ 0 then do
    unlock
    return fail err
  else finish ia

/-! ### Operations

An operation is its request followed by `finish..`, what it does with the reply after it has released the lock.
-/

def finishCreate : IArchive → Zk Int := afterHeader H id fun ia => do
  let d ← decode (deserializeCreateResponse H) ia ⟨none⟩
  -- `deallocate_CreateResponse` looks at `resp.path` and frees it, whatever decoding returned
  if d.misses [.field "path"] then perform (.undefined (.freeUnassigned "resp.path"))
  return if d.rc < 0 then zkError else zkOk

/-- The variable `value` of `zk_create`: without data only its length is assigned. -/
def createValue (data : Option Bytes) (size : Int32) : Buffer :=
  if data.isSome ∧ 0 < size.toInt then ⟨size, data⟩ else ⟨0, none⟩

def zkCreate (path data : Option Bytes) (size flags : Int32) : Zk Int := do
  if path.isNone then return zkError
  request H createOpcode (serializeCreateRequest H ⟨path, createValue data size, defaultAcl, flags⟩) lock id
    (finishCreate H)

/-- `zk_mkdir`, for a function `create` that sends one create request for a path. -/
def zkMkdirWith {m : Type → Type} [Monad m] (create : Bytes → m Int) (undefined : m Unit) (path : Bytes) : m Int := do
  let status ← create path
  if status = zNoNode then
    match h : strrchr path slash with
    | none => do
      undefined
      return status
    | some pos => do
      have := strrchr_lt h
      let status ← zkMkdirWith create undefined (path.take pos)
      if status = zkOk then create path else return status
  else return status
termination_by path.length

/-- One call of `zk_mkdir`. -/
theorem zkMkdirWith_eq {m : Type → Type} [Monad m] (create : Bytes → m Int) (undefined : m Unit) (path : Bytes) :
    zkMkdirWith create undefined path = do
      let status ← create path
      if status = zNoNode then
        match strrchr path slash with
        | none => do
          undefined
          return status
        | some pos => do
          let status ← zkMkdirWith create undefined (path.take pos)
          if status = zkOk then create path else return status
      else return status := by
  rw [zkMkdirWith]
  refine congrArg _ (funext fun status => ?_)
  split
  · split
    · rename_i heq
      simp only [heq]
    · rename_i heq
      simp only [heq]
  · rfl

def zkMkdir (path : Option Bytes) : Zk Int :=
  match path with
  | none => zkCreate H none none 0 0
  | some path =>
    zkMkdirWith (fun path => zkCreate H (some path) none 0 0) (perform (.undefined (.nullPointer "strrchr"))) path

/-- `stat` says whether the caller passed a pointer, the result is what is stored there. -/
def finishExists (stat : Bool) (ia : IArchive) : Zk (Int × Option Stat) := do
  let (err, ia) ← decodeReplyHeader H ia
  if err ≠ 0 ∧ err ≠ zNoNode then do
    unlock
    return (err, none)
  if err = zNoNode then return (0, none)
  -- the return code of the decoder is not looked at
  let d ← decode deserializeExistsResponse ia ⟨uninitStat H⟩
  if stat ∧ d.misses statSlots then perform (.undefined (.readUnassigned "resp.stat"))
  return (1, if stat then some d.val.stat else none)

def zkExists (path : Option Bytes) (stat : Bool) : Zk (Int × Option Stat) := do
  if path.isNone then return (zkError, none)
  request H existsOpcode (serializeExistsRequest H ⟨path, 0⟩) lock (·, none) (finishExists H stat)

def zkStat (path : Option Bytes) (stat : Bool) : Zk (Int × Option Stat) := do
  if path.isNone then return (zkError, none)
  let (rc, s) ← zkExists H path stat
  return (if rc = 1 then zkOk else rc, s)

def finishGet : IArchive → Zk (Int × Option Buffer) := afterHeader H (·, none) fun ia => do
  let d ← decode (deserializeGetDataResponse H) ia ⟨uninitBuffer H, uninitStat H⟩
  if d.rc < 0 then do
    -- `goto ERROR` with `err == 0`
    unlock
    return (0, none)
  return (zkOk, some d.val.data)

/-- `zk_get`; `data` says whether the caller passed a pointer, the result is what is stored there. -/
def zkGet (path : Option Bytes) (data : Bool) : Zk (Int × Option Buffer) := do
  if path.isNone ∨ ¬ data then return (zkError, none)
  request H getdataOpcode (serializeGetDataRequest H ⟨path, 0⟩) lock (·, none) (finishGet H)

def finishDel : IArchive → Zk Int := afterHeader H id fun _ => return zkOk

def zkDel (path : Option Bytes) : Zk Int := do
  if path.isNone then return zkError
  request H deleteOpcode (serializeDeleteRequest H ⟨path, -1⟩) unlock id (finishDel H)

def finishSet : IArchive → Zk Int := afterHeader H id fun ia => do
  let d ← decode deserializeSetDataResponse ia ⟨uninitStat H⟩
  return if d.rc < 0 then zkError else zkOk

def zkSet (path : Option Bytes) (data : Buffer) : Zk Int := do
  if path.isNone then return zkError
  request H setdataOpcode (serializeSetDataRequest H ⟨path, data, -1⟩) lock id (finishSet H)

def finishGetChildren : IArchive → Zk (Int × Option StringVector) := afterHeader H (·, none) fun ia => do
  let d ← decode (deserializeGetChildrenResponse H) ia ⟨⟨H.int, none⟩⟩
  if d.rc < 0 then do
    unlock
    return (0, none)
  if d.misses [.len "children", .buff "children"] then perform (.undefined (.readUnassigned "resp.children"))
  return (zkOk, some d.val.children)

/-- `zk_get_children`; the result is what is stored in `*children`. -/
def zkGetChildren (path : Option Bytes) : Zk (Int × Option StringVector) := do
  if path.isNone then return (zkError, none)
  request H getchildrenOpcode (serializeGetChildrenRequest H ⟨path, 0⟩) lock (·, none) (finishGetChildren H)

/-- `do_header_request`. -/
def doHeaderRequest (opcode : Int32) : Zk Int := do
  let (rc, oa) ← encodeRequest H opcode fun oa => (0, oa)
  match ← exchange rc oa with
  | .inl err => return err
  | .inr ia => do
    let (err, _) ← decodeReplyHeader H ia
    return if err ≠ 0 then err else zkOk

def zkPing : Zk Int := do
  lock
  let rc ← doHeaderRequest H pingOpcode
  unlock
  return rc

def zkClose : Zk Int := do
  let rc ← doHeaderRequest H closeOpcode
  perform (.close (← perform .load).sock)
  return rc

/-! ### Authentication -/

/-- The bytes that `memcmp` and `memcpy` find in the first `n` bytes of a block, and whether all of them are there. -/
def blockBytes (src : Option Bytes) (n : Int) : Bytes × Bool :=
  match memRead src n with
  | some bs => (bs, true)
  | none => ((src.getD []).take n.toNat, false)

/-- The password of the response replaces the one of the client when they differ: the new block has the response's
length, but as many bytes are copied as the old password had. -/
def adoptPasswd (old new : Buffer) : Zk Unit := do
  if old.len = new.len then
    let (a, okA) := blockBytes old.buff old.len.toInt
    let (b, okB) := blockBytes new.buff old.len.toInt
    if ¬ (okA ∧ okB) then perform (.undefined (.outOfBounds "memcmp"))
    if a = b then return
  let block := if H.ok .passwd new.len.toInt then some new.len.toInt.toNat else none
  let (src, ok) := blockBytes new.buff old.len.toInt
  if ¬ ok then perform (.undefined (.outOfBounds "resp.passwd"))
  match block with
  | none => do
    if old.len ≠ 0 then perform (.undefined (.nullPointer "c->passwd"))
    perform (.store (.passwd { len := new.len, buff := none }))
  | some n => do
    if n < old.len.toInt ∨ old.len.toInt < 0 then perform (.undefined (.outOfBounds "c->passwd"))
    let written := (src ++ ((List.range n).map H.junk).drop src.length).take n
    perform (.store (.passwd { len := new.len, buff := some written }))

/-- The slots of a `struct ConnectResponse` that `authenticate` reads. -/
def connectSlots : List Slot := [.field "timeOut", .field "sessionId", .len "passwd", .buff "passwd"]

def authenticate : Zk Int := do
  let c ← perform .load
  let req : ConnectRequest :=
    ⟨protocolVersion, c.lastZxid.toInt64, c.sessionTimeout, c.sessionId.toInt64, c.passwd⟩
  let (rc, oa) := serializeConnectRequest H req (createBufferOarchive H)
  if oa.oob then perform (.undefined (.outOfBounds "request"))
  match ← exchange rc oa with
  | .inl rc => return if rc < 0 then rc else zkOk
  | .inr ia => do
    let d ← decode (deserializeConnectResponse H) ia ⟨H.int, H.int, H.long, uninitBuffer H⟩
    -- the response is used before the return code of the decoder
    if d.misses connectSlots then perform (.undefined (.readUnassigned "resp"))
    perform (.store (.sessionId d.val.sessionId.toInt32))
    perform (.store (.sessionTimeout d.val.timeOut))
    adoptPasswd H c.passwd d.val.passwd
    if d.misses [.buff "passwd"] then perform (.undefined (.freeUnassigned "resp.passwd"))
    return if d.rc < 0 then d.rc else zkOk

end Requests

end ZkClient
