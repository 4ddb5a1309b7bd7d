import ZkClient.Operations
import ZkClient.Quiet

/-!
# Taking over a session

`authenticate` offers the session of the client to a server and takes over the one that the server grants.  It copies
as many bytes of the new password as the old one had into a block of the new one's length, and it keeps 32 of the 64
bits of the session id.

`Grant` is what a server grants.  `Adopts` says that the client holds it when `authenticate` has returned `ZK_OK`, and
`Fits` is the condition on the two passwords under which it does.
-/

namespace ZkClient

open Pthread BigEndian

/-! ### The parts of `authenticate` -/

def connectRequest (c : Client) : ConnectRequest :=
  ⟨protocolVersion, c.lastZxid.toInt64, c.sessionTimeout, c.sessionId.toInt64, c.passwd⟩

section Parts

variable (H : Heap)

/-- `authenticate` up to the archive of the response. -/
def offer (c : Client) : Zk (Int ⊕ IArchive) := do
  let (rc, oa) := serializeConnectRequest H (connectRequest c) (createBufferOarchive H)
  if oa.oob then perform (.undefined (.outOfBounds "request"))
  exchange rc oa

/-- The response as it is decoded into the uninitialised variable. -/
def decodedResponse (ia : IArchive) : Decoded ConnectResponse :=
  deserializeConnectResponse H ia ⟨H.int, H.int, H.long, uninitBuffer H⟩

/-- What `authenticate` does with the response, for a client whose password was `old`. -/
def adopt (old : Buffer) (ia : IArchive) : Zk Int := do
  let d ← decode (deserializeConnectResponse H) ia ⟨H.int, H.int, H.long, uninitBuffer H⟩
  if d.misses connectSlots then perform (.undefined (.readUnassigned "resp"))
  perform (.store (.sessionId d.val.sessionId.toInt32))
  perform (.store (.sessionTimeout d.val.timeOut))
  adoptPasswd H old d.val.passwd
  if d.misses [.buff "passwd"] then perform (.undefined (.freeUnassigned "resp.passwd"))
  return if d.rc < 0 then d.rc else zkOk

def settle (old : Buffer) : Int ⊕ IArchive → Zk Int
  | .inl rc => return if rc < 0 then rc else zkOk
  | .inr ia => adopt H old ia

end Parts

variable {H : Heap} {w : World}

theorem authenticate_eq (H : Heap) :
    authenticate H = @bind Zk _ Client Int (perform .load) fun c => offer H c >>= settle H c.passwd := by
  unfold authenticate offer connectRequest
  refine congrArg (@bind Zk _ Client Int (perform .load)) (funext fun c => ?_)
  dsimp only
  generalize serializeConnectRequest H _ (createBufferOarchive H) = p
  split
  · refine congrArg (Prog.op (Eff.undefined (.outOfBounds "request"))) (funext fun _ => ?_)
    refine congrArg (exchange p.1 p.2 >>= ·) (funext fun o => ?_)
    cases o <;> rfl
  · refine congrArg (exchange p.1 p.2 >>= ·) (funext fun o => ?_)
    cases o <;> rfl

theorem exec_authenticate : exec H (authenticate H) w =
    exec H (settle H w.client.passwd (exec H (offer H w.client) w).1) (exec H (offer H w.client) w).2 := by
  rw [exec, authenticate_eq, Prog.run_bind, Prog.run_bind]
  rfl

private theorem faultIf_client {c : Prop} [Decidable c] {f : Fault} : (if c then w.fault f else w).client = w.client := by
  split <;> rfl

private theorem faultIf_faults {c : Prop} [Decidable c] {f : Fault} :
    (if c then w.fault f else w).faults = w.faults ++ if c then [f] else [] := by
  split
  · rfl
  · exact (List.append_nil _).symm

/-! ### The offer -/

/-- The client of `w` is `c`, but for `last_err`. -/
def World.Keeps (c : Client) (w : World) : Prop := ∃ e, w.client = { c with lastErr := e }

theorem World.Keeps.refl (w : World) : w.Keeps w.client := ⟨w.client.lastErr, rfl⟩

theorem World.sendRequest_keeps {c : Client} (payload : Bytes) (hw : w.Keeps c) :
    (w.sendRequest H payload).2.Keeps c := by
  obtain ⟨e, he⟩ := hw
  have hset : ∀ (v : World) (err : Int), v.client = w.client → (v.setErr err).Keeps c := fun v err hv =>
    ⟨err, by simp only [World.setErr, hv, he]⟩
  unfold World.sendRequest World.nextPoll
  by_cases hmem : H.ok .sendBuf (payload.length + 4)
  · simp only [hmem, not_true_eq_false, if_false]
    by_cases hwait : waitResult .write (w.polls.headD (0, 0)).1 (w.polls.headD (0, 0)).2 ≠ zkOk
    · simp only [if_pos hwait]
      exact hset _ _ rfl
    · simp only [if_neg hwait]
      generalize writeSocket _ _ _ _ _ = x
      by_cases hx : x.status ≠ zkOk
      · simp only [if_pos hx]
        exact hset _ _ faultIf_client
      · simp only [if_neg hx]
        exact ⟨e, faultIf_client.trans he⟩
  · simp only [hmem]
    exact hset w _ rfl

theorem World.recvResponse_keeps {c : Client} (hw : w.Keeps c) : (w.recvResponse H).2.Keeps c := by
  rw [World.recvResponse_snd]
  refine World.recvFrame_inv (I := World.Keeps c) (fun _ h => h) (fun v err hv => ?_) (fun v x hv => ?_) hw
  · obtain ⟨e, he⟩ := hv
    exact ⟨err, by simp only [World.setErr, he]⟩
  · exact World.received_inv (I := World.Keeps c) (fun _ _ _ h => h) (fun _ _ h => h) (fun _ h => h) hv x

/-- The operations of an offer. -/
def Eff.Offers : Eff → Prop
  | load => True
  | sendRequest _ => True
  | recvResponse => True
  | undefined _ => True
  | _ => False

/-- An offer changes nothing of the client but `last_err`. -/
theorem exec_offer_keeps (c : Client) : (exec H (offer H c) w).2.Keeps w.client := by
  unfold offer
  dsimp only
  generalize serializeConnectRequest H (connectRequest c) (createBufferOarchive H) = r
  have honly : (do
      if r.2.oob then perform (.undefined (.outOfBounds "request"))
      exchange r.1 r.2 : Zk (Int ⊕ IArchive)).Only Eff.Offers :=
    Prog.Plain.only (plain_fault (fun _ => trivial) (plain_exchange (fun _ => trivial) trivial trivial r.1 r.2))
  refine honly.run_inv (fun e he v hv => ?_) (World.Keeps.refl w)
  cases e with
  | load => exact hv
  | sendRequest payload => exact World.sendRequest_keeps payload hv
  | recvResponse => exact World.recvResponse_keeps hv
  | undefined f => exact hv
  | _ => exact he.elim

/-! ### The password -/

/-- The comparison finds no difference. -/
def SamePasswd (old new : Buffer) : Prop :=
  old.len = new.len ∧ (blockBytes old.buff old.len.toInt).1 = (blockBytes new.buff old.len.toInt).1

instance (old new : Buffer) : Decidable (SamePasswd old new) := inferInstanceAs (Decidable (_ ∧ _))

/-- The block that replaces the password: the bytes copied into memory that is fresh otherwise. -/
def copied (H : Heap) (old new : Buffer) : Option Bytes :=
  let src := (blockBytes new.buff old.len.toInt).1
  let fresh := (List.range new.len.toInt.toNat).map H.junk
  if H.ok .passwd new.len.toInt then some ((src ++ fresh.drop src.length).take new.len.toInt.toNat) else none

def adopted (H : Heap) (old new : Buffer) : Buffer :=
  if SamePasswd old new then old else { len := new.len, buff := copied H old new }

/-- The accesses of `adopt` stay inside the blocks. -/
structure InBlocks (H : Heap) (old new : Buffer) : Prop where
  compare : old.len = new.len → (blockBytes old.buff old.len.toInt).2 = true ∧ (blockBytes new.buff old.len.toInt).2 = true
  source : ¬ SamePasswd old new → (blockBytes new.buff old.len.toInt).2 = true
  target : ¬ SamePasswd old new → H.ok .passwd new.len.toInt = true →
    0 ≤ old.len.toInt ∧ old.len.toInt ≤ new.len.toInt.toNat
  null : ¬ SamePasswd old new → H.ok .passwd new.len.toInt = false → old.len = 0

/-- The end of `adoptPasswd`: the old block is freed and a new one filled. -/
private def replacePasswd (H : Heap) (old new : Buffer) : Zk Unit := do
  let block := if H.ok .passwd new.len.toInt then some new.len.toInt.toNat else none
  let (src, ok) := blockBytes new.buff old.len.toInt
  if ¬ ok then perform (.undefined (.outOfBounds "resp.passwd"))
  match block with
  | none => do
    if old.len ≠ 0 then perform (.undefined (.nullPointer "c->passwd"))
    perform (.store (.passwd { len := new.len, buff := none }))
  | some n => do
    if n < old.len.toInt ∨ old.len.toInt < 0 then perform (.undefined (.outOfBounds "c->passwd"))
    let written := (src ++ ((List.range n).map H.junk).drop src.length).take n
    perform (.store (.passwd { len := new.len, buff := some written }))

private theorem exec_fault {α : Type} {c : Prop} [Decidable c] {f : Fault} {p : Zk α} :
    exec H (if c then @bind Zk _ Unit α (perform (.undefined f)) fun _ => p else p) w =
      exec H p (if c then w.fault f else w) := by
  split <;> rfl

@[simp] private theorem assignPasswd_client (b : Buffer) :
    (w.assign (.passwd b)).client = { w.client with passwd := b } := rfl

@[simp] private theorem assignPasswd_faults (b : Buffer) : (w.assign (.passwd b)).faults = w.faults := rfl

private theorem exec_replacePasswd (H : Heap) (old new : Buffer) : ∃ fs,
    (∀ w, (exec H (replacePasswd H old new) w).2.client =
        { w.client with passwd := { len := new.len, buff := copied H old new } } ∧
      (exec H (replacePasswd H old new) w).2.faults = w.faults ++ fs) ∧
    (fs = [] ↔ (blockBytes new.buff old.len.toInt).2 = true ∧
      (H.ok .passwd new.len.toInt = true → 0 ≤ old.len.toInt ∧ old.len.toInt ≤ new.len.toInt.toNat) ∧
      (H.ok .passwd new.len.toInt = false → old.len = 0)) := by
  unfold replacePasswd copied
  dsimp only
  cases hok : H.ok .passwd new.len.toInt with
  | false =>
    simp only [Bool.false_eq_true, if_false, exec_fault]
    simp only [exec, run_store, World.handle_store, assignPasswd_client, assignPasswd_faults, faultIf_client,
      faultIf_faults, List.append_assoc]
    refine ⟨_, fun w => ⟨trivial, rfl⟩, ?_⟩
    simp
  | true =>
    simp only [if_true, exec_fault]
    simp only [exec, run_store, World.handle_store, assignPasswd_client, assignPasswd_faults, faultIf_client,
      faultIf_faults, List.append_assoc]
    refine ⟨_, fun w => ⟨trivial, rfl⟩, ?_⟩
    simp
    omega

theorem exec_adoptPasswd {old : Buffer} (new : Buffer) (hold : w.client.passwd = old) :
    (exec H (adoptPasswd H old new) w).2.client = { w.client with passwd := adopted H old new } ∧
      ∃ fs, (exec H (adoptPasswd H old new) w).2.faults = w.faults ++ fs ∧ (fs = [] ↔ InBlocks H old new) := by
  have heq : adoptPasswd H old new =
      if old.len = new.len then
        if ¬ ((blockBytes old.buff old.len.toInt).2 ∧ (blockBytes new.buff old.len.toInt).2) then
          @bind Zk _ Unit Unit (perform (.undefined (.outOfBounds "memcmp"))) fun _ =>
            if (blockBytes old.buff old.len.toInt).1 = (blockBytes new.buff old.len.toInt).1 then pure ()
            else replacePasswd H old new
        else if (blockBytes old.buff old.len.toInt).1 = (blockBytes new.buff old.len.toInt).1 then pure ()
        else replacePasswd H old new
      else replacePasswd H old new := by
    unfold adoptPasswd replacePasswd
    rfl
  obtain ⟨fs, hreplace, hfs⟩ := exec_replacePasswd H old new
  rw [heq]
  by_cases hlen : old.len = new.len
  · rw [if_pos hlen, exec_fault]
    by_cases hbytes : (blockBytes old.buff old.len.toInt).1 = (blockBytes new.buff old.len.toInt).1
    · have hsame : SamePasswd old new := ⟨hlen, hbytes⟩
      rw [if_pos hbytes, exec, Prog.run_pure, faultIf_client, faultIf_faults, adopted, if_pos hsame]
      refine ⟨by rw [← hold], _, rfl, ?_⟩
      simp only [ite_eq_right_iff, List.cons_ne_nil, imp_false, not_not]
      exact ⟨fun h => ⟨fun _ => h, fun hno => absurd hsame hno, fun hno => absurd hsame hno,
        fun hno => absurd hsame hno⟩, fun h => h.compare hlen⟩
    · have hdiff : ¬ SamePasswd old new := fun h => hbytes h.2
      rw [if_neg hbytes, (hreplace _).1, (hreplace _).2, faultIf_client, faultIf_faults, adopted, if_neg hdiff,
        List.append_assoc]
      refine ⟨rfl, _, rfl, ?_⟩
      rw [List.append_eq_nil_iff, hfs]
      simp only [ite_eq_right_iff, List.cons_ne_nil, imp_false, not_not]
      exact ⟨fun ⟨hcmp, hsrc, htarget, hnull⟩ => ⟨fun _ => hcmp, fun _ => hsrc, fun _ => htarget, fun _ => hnull⟩,
        fun h => ⟨h.compare hlen, h.source hdiff, h.target hdiff, h.null hdiff⟩⟩
  · have hdiff : ¬ SamePasswd old new := fun h => hlen h.1
    rw [if_neg hlen, adopted, if_neg hdiff]
    refine ⟨(hreplace w).1, fs, (hreplace w).2, hfs.trans ?_⟩
    exact ⟨fun ⟨hsrc, htarget, hnull⟩ => ⟨fun h => absurd h hlen, fun _ => hsrc, fun _ => htarget, fun _ => hnull⟩,
      fun h => ⟨h.source hdiff, h.target hdiff, h.null hdiff⟩⟩

/-! ### The response -/

/-- `adopt` behind the decoder. -/
private def takeOver (H : Heap) (old : Buffer) (d : Decoded ConnectResponse) : Zk Int := do
  if d.misses connectSlots then perform (.undefined (.readUnassigned "resp"))
  perform (.store (.sessionId d.val.sessionId.toInt32))
  perform (.store (.sessionTimeout d.val.timeOut))
  adoptPasswd H old d.val.passwd
  if d.misses [.buff "passwd"] then perform (.undefined (.freeUnassigned "resp.passwd"))
  return if d.rc < 0 then d.rc else zkOk

private theorem misses_passwd {d : Decoded ConnectResponse} (h : d.misses connectSlots = false) :
    d.misses [.buff "passwd"] = false := by
  simp [Decoded.misses, connectSlots] at h ⊢
  exact h.2.2.2

private theorem exec_takeOver {old : Buffer} (d : Decoded ConnectResponse) (hold : w.client.passwd = old) :
    (exec H (takeOver H old d) w).1 = (if d.rc < 0 then d.rc else zkOk) ∧
    (exec H (takeOver H old d) w).2.client =
      { w.client with
        sessionId := d.val.sessionId.toInt32, sessionTimeout := d.val.timeOut, passwd := adopted H old d.val.passwd } ∧
    ∃ fs, (exec H (takeOver H old d) w).2.faults = w.faults ++ fs ∧
      (d.misses connectSlots = false → (fs = [] ↔ InBlocks H old d.val.passwd)) := by
  obtain ⟨v, hv⟩ : ∃ v, (if d.misses connectSlots then w.fault (.readUnassigned "resp") else w) = v := ⟨_, rfl⟩
  have hclient₀ : v.client = w.client := hv ▸ faultIf_client
  have hfaults₀ : v.faults = w.faults ++ if d.misses connectSlots then [.readUnassigned "resp"] else [] :=
    hv ▸ faultIf_faults
  obtain ⟨hclient, fs, hfaults, hfs⟩ := exec_adoptPasswd (H := H) d.val.passwd
    (show ((v.assign (.sessionId d.val.sessionId.toInt32)).assign (.sessionTimeout d.val.timeOut)).client.passwd = old from
      (congrArg Client.passwd hclient₀).trans hold)
  have hexec : exec H (takeOver H old d) w = (if d.rc < 0 then d.rc else zkOk,
      if d.misses [.buff "passwd"] then
        (exec H (adoptPasswd H old d.val.passwd)
          ((v.assign (.sessionId d.val.sessionId.toInt32)).assign (.sessionTimeout d.val.timeOut))).2.fault
            (.freeUnassigned "resp.passwd")
      else (exec H (adoptPasswd H old d.val.passwd)
          ((v.assign (.sessionId d.val.sessionId.toInt32)).assign (.sessionTimeout d.val.timeOut))).2) := by
    unfold takeOver
    rw [exec_fault, hv]
    simp only [exec, Prog.run_bind, run_store, World.handle_store]
    change exec H _ _ = _
    rw [exec_fault]
    rfl
  rw [hexec]
  refine ⟨rfl, ?_, (if d.misses connectSlots then [.readUnassigned "resp"] else []) ++
    (fs ++ if d.misses [.buff "passwd"] then [.freeUnassigned "resp.passwd"] else []), ?_, fun hmiss => ?_⟩
  · rw [faultIf_client, hclient, ← hclient₀]
    rfl
  · rw [faultIf_faults, hfaults]
    show v.faults ++ fs ++ _ = _
    rw [hfaults₀, List.append_assoc, List.append_assoc]
  · rw [hmiss, misses_passwd hmiss]
    simpa using hfs

/-- What `adopt` makes of a response, whether it has been decoded or not. -/
theorem exec_adopt {old : Buffer} (ia : IArchive) (hold : w.client.passwd = old) :
    (exec H (adopt H old ia) w).1 = (if (decodedResponse H ia).rc < 0 then (decodedResponse H ia).rc else zkOk) ∧
    (exec H (adopt H old ia) w).2.client =
      { w.client with
        sessionId := (decodedResponse H ia).val.sessionId.toInt32
        sessionTimeout := (decodedResponse H ia).val.timeOut
        passwd := adopted H old (decodedResponse H ia).val.passwd } ∧
    ∃ fs, (exec H (adopt H old ia) w).2.faults = w.faults ++ fs ∧
      ((decodedResponse H ia).oob = false → (decodedResponse H ia).misses connectSlots = false →
        (fs = [] ↔ InBlocks H old (decodedResponse H ia).val.passwd)) := by
  have hexec : exec H (adopt H old ia) w = exec H (takeOver H old (decodedResponse H ia))
      (if (decodedResponse H ia).oob then w.fault (.outOfBounds "archive") else w) := by
    show exec H (decode _ ia _ >>= takeOver H old) w = _
    rw [exec, Prog.run_bind, run_decode]
    rfl
  obtain ⟨hrc, hclient, fs, hfaults, hfs⟩ := exec_takeOver (H := H)
    (w := if (decodedResponse H ia).oob then w.fault (.outOfBounds "archive") else w) (decodedResponse H ia)
    (by rw [faultIf_client, hold])
  rw [hexec]
  refine ⟨hrc, by rw [hclient, faultIf_client], (if (decodedResponse H ia).oob then [.outOfBounds "archive"] else []) ++ fs,
    by rw [hfaults, faultIf_faults, List.append_assoc], fun hoob hmiss => ?_⟩
  rw [hoob]
  exact hfs hmiss

/-- `authenticate` changes nothing of the client but the session and `last_err`. -/
theorem exec_authenticate_frame : ∃ e id t b, (exec H (authenticate H) w).2.client =
    { w.client with lastErr := e, sessionId := id, sessionTimeout := t, passwd := b } := by
  rw [exec_authenticate]
  obtain ⟨e, he⟩ := exec_offer_keeps (H := H) (w := w) w.client
  generalize exec H (offer H w.client) w = r at he
  obtain ⟨o, w₁⟩ := r
  cases o with
  | inl rc => exact ⟨e, w.client.sessionId, w.client.sessionTimeout, w.client.passwd, he⟩
  | inr ia =>
    have hclient₁ : w₁.client = { w.client with lastErr := e } := he
    obtain ⟨-, hclient, -⟩ := exec_adopt (H := H) ia (show w₁.client.passwd = w.client.passwd by rw [hclient₁])
    rw [hclient₁] at hclient
    exact ⟨e, _, _, _, hclient⟩

/-! ### What is granted -/

/-- The fields of a `ConnectResponse`; the password is a string of bytes, or null. -/
structure Grant where
  protocolVersion : Int32
  timeOut : Int32
  sessionId : Int64
  passwd : Option Bytes

def Grant.wire (g : Grant) : Bytes :=
  [be32 g.protocolVersion, be32 g.timeOut, be64 g.sessionId, wireString g.passwd].flatten

def Grant.response (g : Grant) : ConnectResponse := ⟨g.protocolVersion, g.timeOut, g.sessionId, .of g.passwd⟩

theorem reads_connectResponse (hH : H.Succeeds) (g : Grant) :
    Reads (deserializeConnectResponse H) g.wire (fun _ => g.response)
      [.field "protocolVersion", .field "timeOut", .field "sessionId", .len "passwd", .buff "passwd"] := by
  have hpasswd := reads_buffer hH "passwd" ConnectResponse.passwd (fun x v => { v with passwd := x }) (fun _ _ => rfl)
    (fun _ _ _ => rfl) g.passwd
  exact (reads_int g.protocolVersion (.field "protocolVersion") _).cons <|
    (reads_int g.timeOut (.field "timeOut") _).cons <| (reads_long g.sessionId (.field "sessionId") _).cons <|
    hpasswd.cons .nil

/-- The buffer has the length and the bytes of the string. -/
def Buffer.HoldsString (b : Buffer) (o : Option Bytes) : Prop :=
  b.len = (Buffer.of o).len ∧ memRead b.buff (o.getD []).length = some (o.getD [])

/-- The bytes of a `ConnectRequest` for a session. -/
def sessionWire (lastZxid : Int64) (timeOut : Int32) (sessionId : Int64) (passwd : Option Bytes) : Bytes :=
  [be32 protocolVersion, be64 lastZxid, be32 timeOut, be64 sessionId, wireString passwd].flatten

/-- The `ConnectRequest` of the client offers the session. -/
def Carries (c : Client) (g : Grant) : Prop :=
  ∀ H, Appends (serializeConnectRequest H (connectRequest c)) (sessionWire c.lastZxid.toInt64 g.timeOut g.sessionId g.passwd)

/-- What is to hold when `authenticate` has got the grant `g` in the world `w` and returns `r`. -/
structure Adopts (g : Grant) (w : World) (r : Int × World) : Prop where
  ok : r.1 = zkOk
  timeOut : r.2.client.sessionTimeout = g.timeOut
  sessionId : r.2.client.sessionId.toInt64 = g.sessionId
  passwd : r.2.client.passwd.HoldsString g.passwd
  inside : r.2.faults = w.faults
  carries : Carries r.2.client g

/-- The old password has a length for which the new one can be taken over. -/
def Fits (H : Heap) (old : Buffer) : Option Bytes → Prop
  | none => old.len = 0
  | some bs => 0 ≤ old.len.toInt ∧ old.len.toInt ≤ bs.length ∧
      (old.len.toInt = bs.length → (memRead old.buff bs.length).isSome) ∧
      bs.drop old.len.toInt.toNat = ((List.range bs.length).map H.junk).drop old.len.toInt.toNat

private theorem fits_null (old : Buffer) :
    InBlocks H old (.of none) ∧ (adopted H old (.of none)).HoldsString none ↔ Fits H old none := by
  have hok : H.ok .passwd (Buffer.of none).len.toInt = false := H.neg _ _ (by decide)
  have hnull : ∀ n : Int, (blockBytes (Buffer.of none).buff n).2 = true ↔ n = 0 := by
    intro n
    by_cases hn : n = 0 <;> simp [blockBytes, memRead, Buffer.of, hn]
  constructor
  · rintro ⟨hin, -⟩
    have hlen : old.len ≠ (Buffer.of none).len := by
      intro hlen
      have hzero := (hnull _).1 (hin.compare hlen).2
      rw [hlen] at hzero
      exact absurd hzero (by decide)
    exact hin.null (fun h => hlen h.1) hok
  · intro (hzero : old.len = 0)
    have hlen : old.len ≠ (Buffer.of none).len := by
      rw [hzero]
      decide
    have hdiff : ¬ SamePasswd old (.of none) := fun h => hlen h.1
    refine ⟨⟨fun h => absurd h hlen, fun _ => (hnull _).2 (by rw [hzero]; rfl), fun _ h => ?_, fun _ _ => hzero⟩, ?_⟩
    · rw [hok] at h
      cases h
    · rw [adopted, if_neg hdiff]
      exact ⟨rfl, by simp [memRead]⟩

private theorem memRead_prefix {bs : Bytes} {n : Int} (hpos : 0 ≤ n) (hle : n ≤ bs.length) :
    memRead (some bs) n = some (bs.take n.toNat) := by
  unfold memRead
  split
  · rename_i hzero
    rw [hzero]
    rfl
  · exact if_pos ⟨hpos, hle⟩

private theorem blockBytes_snd (src : Option Bytes) (n : Int) : (blockBytes src n).2 = (memRead src n).isSome := by
  unfold blockBytes
  cases memRead src n <;> rfl

private theorem blockBytes_prefix {bs : Bytes} {n : Int} (hpos : 0 ≤ n) (hle : n ≤ bs.length) :
    blockBytes (some bs) n = (bs.take n.toNat, true) := by
  rw [blockBytes, memRead_prefix hpos hle]

private theorem blockBytes_inside {bs : Bytes} {n : Int} (h : (blockBytes (some bs) n).2 = true) :
    0 ≤ n ∧ n ≤ bs.length := by
  unfold blockBytes memRead at h
  by_cases hn : n = 0
  · omega
  · by_cases hfit : 0 ≤ n ∧ n ≤ bs.length
    · exact hfit
    · simp [hn, hfit] at h

section Some

variable {old : Buffer} {bs : Bytes}

private theorem len_of_some (hlt : bs.length < 2 ^ 31) : (Buffer.of (some bs)).len.toInt = bs.length :=
  Int32.toInt_ofNat_of_lt hlt

private theorem ok_passwd (hH : H.Succeeds) (hlt : bs.length < 2 ^ 31) :
    H.ok .passwd (Buffer.of (some bs)).len.toInt = true :=
  hH _ _ (by rw [len_of_some hlt]; omega)

/-- A password of the old length is compared, and copied as a whole. -/
private theorem fits_same (hH : H.Succeeds) (hlt : bs.length < 2 ^ 31) (hlen : old.len = (Buffer.of (some bs)).len) :
    InBlocks H old (.of (some bs)) ∧ (adopted H old (.of (some bs))).HoldsString (some bs) ↔ Fits H old (some bs) := by
  have hint := len_of_some hlt
  have hok := ok_passwd hH hlt
  have hbuff : (Buffer.of (some bs)).buff = some bs := rfl
  have hsize : old.len.toInt = bs.length := by rw [hlen, hint]
  have hdrop : bs.drop old.len.toInt.toNat = ((List.range bs.length).map H.junk).drop old.len.toInt.toNat := by
    rw [hsize, Int.toNat_natCast, List.drop_length, List.drop_eq_nil_of_le (by simp)]
  have hnew : blockBytes (Buffer.of (some bs)).buff old.len.toInt = (bs, true) := by
    rw [hbuff, hsize, blockBytes, memRead_all]
  constructor
  · rintro ⟨hin, -⟩
    refine ⟨by omega, by omega, fun _ => ?_, hdrop⟩
    rw [← hsize, ← blockBytes_snd]
    exact (hin.compare hlen).1
  · rintro ⟨-, -, hread, -⟩
    obtain ⟨a, ha⟩ := Option.isSome_iff_exists.1 (hread hsize)
    have hold : blockBytes old.buff old.len.toInt = (a, true) := by rw [hsize, blockBytes, ha]
    refine ⟨⟨fun _ => ?_, fun _ => by rw [hnew], fun _ _ => by omega, fun _ h => ?_⟩, ?_⟩
    · rw [hold, hnew]
      exact ⟨rfl, rfl⟩
    · rw [hok] at h
      cases h
    · by_cases hsame : SamePasswd old (.of (some bs))
      · have hbytes : a = bs := by
          have h := hsame.2
          rwa [hold, hnew] at h
        rw [adopted, if_pos hsame]
        exact ⟨hlen, by rw [Option.getD_some, ha, hbytes]⟩
      · have hn : (Buffer.of (some bs)).len.toInt.toNat = bs.length := by omega
        rw [adopted, if_neg hsame]
        refine ⟨rfl, ?_⟩
        simp only [copied, hok, if_true, hnew, hn, List.take_left]
        exact memRead_all bs

/-- Of a password of another length as many bytes are copied as the old one has. -/
private theorem copied_other (hH : H.Succeeds) (hlt : bs.length < 2 ^ 31) (hpos : 0 ≤ old.len.toInt)
    (hle : old.len.toInt ≤ bs.length) : copied H old (.of (some bs)) =
      some (bs.take old.len.toInt.toNat ++ ((List.range bs.length).map H.junk).drop old.len.toInt.toNat) := by
  have hbuff : (Buffer.of (some bs)).buff = some bs := rfl
  have hn : ((Buffer.of (some bs)).len.toInt).toNat = bs.length := by
    rw [len_of_some hlt]
    omega
  have htake : (bs.take old.len.toInt.toNat).length = old.len.toInt.toNat := by
    rw [List.length_take]
    omega
  simp only [copied, ok_passwd hH hlt, if_true, hbuff, blockBytes_prefix hpos hle, hn, htake]
  rw [List.take_of_length_le]
  simp only [List.length_append, htake, List.length_drop, List.length_map, List.length_range]
  omega

private theorem fits_other (hH : H.Succeeds) (hlt : bs.length < 2 ^ 31) (hlen : old.len ≠ (Buffer.of (some bs)).len) :
    InBlocks H old (.of (some bs)) ∧ (adopted H old (.of (some bs))).HoldsString (some bs) ↔ Fits H old (some bs) := by
  have hbuff : (Buffer.of (some bs)).buff = some bs := rfl
  have hdiff : ¬ SamePasswd old (.of (some bs)) := fun h => hlen h.1
  have hne : old.len.toInt ≠ bs.length := fun h => hlen (Int32.toInt_inj.1 (h.trans (len_of_some hlt).symm))
  rw [adopted, if_neg hdiff]
  constructor
  · rintro ⟨hin, -, hread⟩
    obtain ⟨hpos, hle⟩ := blockBytes_inside (hin.source hdiff)
    refine ⟨hpos, hle, fun h => absurd h hne, ?_⟩
    have hlength : (bs.take old.len.toInt.toNat ++
        ((List.range bs.length).map H.junk).drop old.len.toInt.toNat).length = bs.length := by
      simp only [List.length_append, List.length_take, List.length_drop, List.length_map, List.length_range]
      omega
    have hall := memRead_all (bs.take old.len.toInt.toNat ++
      ((List.range bs.length).map H.junk).drop old.len.toInt.toNat)
    rw [hlength] at hall
    have hbytes : bs.take old.len.toInt.toNat ++ ((List.range bs.length).map H.junk).drop old.len.toInt.toNat =
        bs.take old.len.toInt.toNat ++ bs.drop old.len.toInt.toNat := by
      rw [List.take_append_drop]
      simp only [copied_other hH hlt hpos hle, Option.getD_some] at hread
      exact Option.some.inj (hall.symm.trans hread)
    exact (List.append_cancel_left hbytes).symm
  · rintro ⟨hpos, hle, -, htail⟩
    refine ⟨⟨fun h => absurd h hlen, fun _ => ?_, fun _ _ => ⟨hpos, ?_⟩, fun _ h => ?_⟩, rfl, ?_⟩
    · rw [hbuff, blockBytes_prefix hpos hle]
    · rwa [len_of_some hlt]
    · rw [ok_passwd hH hlt] at h
      cases h
    · simp only [copied_other hH hlt hpos hle, ← htail, List.take_append_drop]
      exact memRead_all bs

private theorem fits_some (hH : H.Succeeds) (old : Buffer) (hlt : bs.length < 2 ^ 31) :
    InBlocks H old (.of (some bs)) ∧ (adopted H old (.of (some bs))).HoldsString (some bs) ↔ Fits H old (some bs) := by
  by_cases hlen : old.len = (Buffer.of (some bs)).len
  · exact fits_same hH hlt hlen
  · exact fits_other hH hlt hlen

end Some

private theorem toInt64_toInt32 (x : Int64) : x.toInt32.toInt64 = x ↔ -2 ^ 31 ≤ x.toInt ∧ x.toInt < 2 ^ 31 := by
  rw [← Int64.toInt_inj, Int32.toInt_toInt64, Int64.toInt_toInt32]
  constructor
  · intro h
    rw [← h]
    have hle := Int.le_bmod (x := x.toInt) (m := 2 ^ 32) (by decide)
    have hlt := Int.bmod_lt (x := x.toInt) (m := 2 ^ 32) (by decide)
    omega
  · rintro ⟨hle, hlt⟩
    exact Int.bmod_eq_of_le (by omega) (by omega)

private theorem carries {c : Client} {g : Grant} (hpasswd : ∀ bs, g.passwd = some bs → bs.length < 2 ^ 31)
    (htime : c.sessionTimeout = g.timeOut) (hsession : c.sessionId.toInt64 = g.sessionId)
    (hheld : c.passwd.HoldsString g.passwd) : Carries c g := by
  intro H
  have hbuffer : Appends (oaSerializeBuffer H c.passwd) (wireString g.passwd) := by
    obtain ⟨hlen, hread⟩ := hheld
    cases hg : g.passwd with
    | none =>
      rw [hg] at hlen
      exact appends_nullBuffer H hlen
    | some bs =>
      rw [hg] at hlen hread
      exact appends_buffer H hlen (hpasswd bs hg) hread
  have happ := (appends_int H protocolVersion).cons <| (appends_long H c.lastZxid.toInt64).cons <|
    (appends_int H c.sessionTimeout).cons <| (appends_long H c.sessionId.toInt64).cons <| hbuffer.cons .nil
  rw [← htime, ← hsession]
  exact happ

private theorem length_passwd {g : Grant} {tail : Bytes} (hlt : (g.wire ++ tail).length < 2 ^ 31) :
    ∀ bs, g.passwd = some bs → bs.length < 2 ^ 31 := by
  intro bs hbs
  simp only [Grant.wire, hbs, wireString, List.flatten_cons, List.flatten_nil, List.length_append] at hlt
  omega

/-- `authenticate` adopts what a server grants exactly when the session id has 32 bits and the old password is not
longer than the new one, nor shorter, unless the fresh memory happens to contain the rest. -/
theorem authenticate_adopts_iff (hH : H.Succeeds) {g : Grant} {tail : Bytes} {w₁ : World}
    (hlt : (g.wire ++ tail).length < 2 ^ 31)
    (hreply : exec H (offer H w.client) w = (.inr (archiveAt (g.wire ++ tail) 0), w₁)) :
    Adopts g w₁ (exec H (authenticate H) w) ↔
      (-2 ^ 31 ≤ g.sessionId.toInt ∧ g.sessionId.toInt < 2 ^ 31) ∧ Fits H w.client.passwd g.passwd := by
  obtain ⟨e, hclient⟩ : w₁.Keeps w.client := by
    have hkeeps := exec_offer_keeps (H := H) (w := w) w.client
    rwa [hreply] at hkeeps
  have hold : w₁.client.passwd = w.client.passwd := by rw [hclient]
  have hread : decodedResponse H (archiveAt (g.wire ++ tail) 0) =
      { rc := 0, ia := archiveAt (g.wire ++ tail) (0 + g.wire.length), val := g.response
        assigned := [.field "protocolVersion", .field "timeOut", .field "sessionId", .len "passwd", .buff "passwd"]
        oob := false } :=
    reads_connectResponse hH g (g.wire ++ tail) 0 tail _ hlt (Nat.zero_le _) rfl
  have hpasswd := length_passwd hlt
  have hfits : InBlocks H w.client.passwd (.of g.passwd) ∧ (adopted H w.client.passwd (.of g.passwd)).HoldsString g.passwd ↔
      Fits H w.client.passwd g.passwd := by
    cases hg : g.passwd with
    | none => exact fits_null w.client.passwd
    | some bs => exact fits_some hH w.client.passwd (hpasswd bs hg)
  obtain ⟨hrc, hafter, fs, hfaults, hfs⟩ := exec_adopt (H := H) (archiveAt (g.wire ++ tail) 0) hold
  rw [hread] at hrc hafter hfs
  have hinside : fs = [] ↔ InBlocks H w.client.passwd (.of g.passwd) := hfs rfl rfl
  rw [exec_authenticate, hreply]
  show Adopts g w₁ (exec H (adopt H w.client.passwd (archiveAt (g.wire ++ tail) 0)) w₁) ↔ _
  generalize exec H (adopt H w.client.passwd (archiveAt (g.wire ++ tail) 0)) w₁ = r at hrc hafter hfaults
  rw [← toInt64_toInt32, ← hfits, ← hinside]
  constructor
  · intro h
    have hsession := h.sessionId
    have hheld := h.passwd
    have hnone := h.inside
    rw [hafter] at hsession hheld
    rw [hfaults, List.append_right_eq_self] at hnone
    exact ⟨hsession, hnone, hheld⟩
  · rintro ⟨hsession, hnone, hheld⟩
    refine ⟨hrc, by rw [hafter]; rfl, by rw [hafter]; exact hsession, by rw [hafter]; exact hheld, ?_, ?_⟩
    · rw [hfaults, hnone, List.append_nil]
    · rw [hafter]
      exact carries hpasswd rfl hsession hheld

/-- A new client in front of a server that grants `g`. -/
private def granting (g : Grant) : World :=
  { World.idle (initClient [] 10 3 0 0 0) with
    polls := [(1, 4), (1, 1)], writes := List.replicate 60 (.bytes 20)
    stream := frame g.wire, reads := List.replicate 60 (.bytes 20) }

/-- A session whose id has 32 bits, and one whose id has 57. -/
private def smallGrant : Grant := ⟨0, 4000, 77, some (List.replicate 16 9)⟩
private def largeGrant : Grant := ⟨0, 4000, 0x0100000000000001, some (List.replicate 16 9)⟩

private theorem offer_granting (g : Grant)
    (h : (exec Heap.plenty (offer Heap.plenty (granting g).client) (granting g)).1 = .inr (archiveAt (g.wire ++ []) 0)) :
    exec Heap.plenty (offer Heap.plenty (granting g).client) (granting g) = (.inr (archiveAt (g.wire ++ []) 0),
      (exec Heap.plenty (offer Heap.plenty (granting g).client) (granting g)).2) := by
  rw [← h]

theorem authenticate_adopts_small :
    Adopts smallGrant (exec Heap.plenty (offer Heap.plenty (granting smallGrant).client) (granting smallGrant)).2
      (exec Heap.plenty (authenticate Heap.plenty) (granting smallGrant)) :=
  (authenticate_adopts_iff Heap.plenty_succeeds (by decide) (offer_granting smallGrant (by decide +kernel))).2
    ⟨by decide, by decide, by decide, fun _ => by decide, by decide⟩

/-- The upper half of a session id is lost. -/
theorem authenticate_truncates_session :
    ¬ ∀ (H : Heap) (g : Grant) (tail : Bytes) (w w₁ : World), H.Succeeds → (g.wire ++ tail).length < 2 ^ 31 →
      exec H (offer H w.client) w = (.inr (archiveAt (g.wire ++ tail) 0), w₁) →
      Adopts g w₁ (exec H (authenticate H) w) := by
  intro hall
  have hadopts := hall Heap.plenty largeGrant [] (granting largeGrant) _ Heap.plenty_succeeds (by decide)
    (offer_granting largeGrant (by decide +kernel))
  exact absurd hadopts.sessionId (by decide +kernel)

end ZkClient
