import ZkClient.Operations

/-!
# Requests on the wire

What an operation puts on the socket: one frame, whose payload is a request header and the operation's request record
with exactly the arguments of the operation (`Operation.run_wire`).  The record is stated by its format
(`Operation.wire`), which the writer of the record writes and the reader of the record reads.
-/

namespace ZkClient

open BigEndian Pthread

namespace Operation

/-- The data bytes that go with a request: none when `zk_create` has no data or a size that is not positive. -/
def payload : Operation → Bytes
  | create _ data size _ => if data.isSome ∧ 0 < size.toInt then (data.getD []).take size.toInt.toNat else []
  | set _ data => (data.buff.getD []).take data.len.toInt.toNat
  | _ => []

/-- What the callers of an operation provide: a C string, and a block that has the bytes they announce. -/
def Valid : Operation → Prop
  | create path data size _ => 0 ∉ path ∧ ∀ block, data = some block → size.toInt ≤ block.length
  | set path data => 0 ∉ path ∧ 0 ≤ data.len.toInt ∧ data.len.toInt ≤ (data.buff.getD []).length
  | .exists path | get path | del path | getChildren path => 0 ∉ path

def aclWire (v : Acl) : Bytes := [be32 v.perms, [wireString v.id.scheme, wireString v.id.id].flatten].flatten

def watchWire (path : Bytes) : Bytes := [wireString (some path), wireBool 0].flatten

/-- The format of the request record. -/
def wire (op : Operation) : Bytes :=
  match op with
  | create path _ _ flags =>
    [wireString (some path), wireString (some op.payload), wireVector aclWire [⟨permAll, some world, some anyone⟩],
      be32 flags].flatten
  | set path _ => [wireString (some path), wireString (some op.payload), be32 (-1)].flatten
  | del path => [wireString (some path), be32 (-1)].flatten
  | .exists path | get path | getChildren path => watchWire path

/-! ### Writing a request -/

variable {H : Heap}

private theorem writes_acl (hH : H.Succeeds) (perms : Int32) {scheme id : Bytes} (hs : 0 ∉ scheme) (hi : 0 ∉ id) :
    Writes (serializeAcl H ⟨perms, some scheme, some id⟩) (aclWire ⟨perms, some scheme, some id⟩) :=
  (writes_int hH _).cons <| .cons ((writes_string hH hs).cons <| (writes_string hH hi).cons .nil) .nil

private theorem writes_defaultAcl (hH : H.Succeeds) :
    Writes (serializeAclVector H defaultAcl) (wireVector aclWire [⟨permAll, some world, some anyone⟩]) :=
  writes_vector hH (f := serializeAcl H) [⟨permAll, some world, some anyone⟩] (by decide) fun x hx => by
    obtain rfl := List.mem_singleton.1 hx
    exact writes_acl hH _ (by decide) (by decide)

private theorem writes_watch (hH : H.Succeeds) {path : Bytes} (h : 0 ∉ path) :
    Writes (serializeWatchRequest H ⟨some path, 0⟩) (watchWire path) :=
  (writes_string hH h).cons <| (writes_bool hH 0).cons .nil

/-- A buffer whose block has the announced bytes is written with exactly these. -/
private theorem writes_block (hH : H.Succeeds) {b : Buffer} (hpos : 0 ≤ b.len.toInt)
    (hle : b.len.toInt ≤ (b.buff.getD []).length) :
    Writes (oaSerializeBuffer H b) (wireString (some ((b.buff.getD []).take b.len.toInt.toNat))) := by
  have hlen : ((b.buff.getD []).take b.len.toInt.toNat).length = b.len.toInt.toNat := by
    rw [List.length_take]
    omega
  refine writes_buffer hH (by rw [hlen, ofNat_toInt_toNat hpos]) ?_
  rw [hlen]
  unfold memRead
  by_cases hzero : ((b.len.toInt.toNat : Nat) : Int) = 0
  · have : b.len.toInt.toNat = 0 := by omega
    simp [this]
  · rw [if_neg hzero]
    cases hb : b.buff with
    | none =>
      rw [hb] at hle
      simp at hle
      omega
    | some bs =>
      rw [hb] at hle
      have hfit : (0 : Int) ≤ (b.len.toInt.toNat : Nat) ∧ ((b.len.toInt.toNat : Nat) : Int) ≤ bs.length := by
        simp only [Option.getD_some] at hle
        omega
      simp only [Option.getD_some, if_pos hfit, Int.toNat_natCast]

private theorem writes_createValue (hH : H.Succeeds) {path : Bytes} {data : Option Bytes} {size flags : Int32}
    (h : ∀ block, data = some block → size.toInt ≤ block.length) :
    Writes (oaSerializeBuffer H (createValue data size)) (wireString (some (create path data size flags).payload)) := by
  by_cases hsome : data.isSome ∧ 0 < size.toInt
  · obtain ⟨block, rfl⟩ := Option.isSome_iff_exists.1 hsome.1
    simp only [createValue, payload, if_pos hsome]
    exact writes_block hH (b := ⟨size, some block⟩) (by have := hsome.2; simp only; omega) (h block rfl)
  · simp only [createValue, payload, if_neg hsome]
    exact writes_block hH (b := ⟨0, none⟩) (by decide) (by decide)

/-- The writer of an operation's request writes the format of the record. -/
theorem writes_body (hH : H.Succeeds) {op : Operation} (hop : op.Valid) : Writes (op.body H) op.wire := by
  cases op with
  | create path data size flags =>
    exact (writes_string hH hop.1).cons <| (writes_createValue hH hop.2).cons <| (writes_defaultAcl hH).cons <|
      (writes_int hH flags).cons .nil
  | set path data =>
    exact (writes_string hH hop.1).cons <| (writes_block hH hop.2.1 hop.2.2).cons <| (writes_int hH _).cons .nil
  | del path => exact (writes_string hH hop).cons <| (writes_int hH _).cons .nil
  | «exists» path => exact writes_watch hH hop
  | get path => exact writes_watch hH hop
  | getChildren path => exact writes_watch hH hop

/-! ### Reading a request -/

/-- From whatever variable it starts with, `r` decodes the archive `ia` to `x` and leaves it as `ia'`. -/
def Yields {σ : Type} (r : Reader σ) (ia ia' : IArchive) (x : σ) : Prop :=
  ∀ v, ∃ slots, r ia v = { rc := 0, ia := ia', val := x, assigned := slots, oob := false }

/-- The bytes `body` decode with `deserialize_RequestHeader` and the operation's own reader, which together use up
`body`, to the transaction id `xid`, the operation's opcode, and its arguments. -/
def DecodesFrom (H : Heap) (op : Operation) (xid : Int32) (body : Bytes) : Prop :=
  ∃ ia, Yields deserializeRequestHeader (archiveAt body 0) ia ⟨xid, op.opcode⟩ ∧
    match op with
    | create path _ _ flags =>
      Yields (deserializeCreateRequest H) ia (archiveAt body body.length)
        ⟨some path, .of (some op.payload), defaultAcl, flags⟩
    | set path _ =>
      Yields (deserializeSetDataRequest H) ia (archiveAt body body.length) ⟨some path, .of (some op.payload), -1⟩
    | del path => Yields (deserializeDeleteRequest H) ia (archiveAt body body.length) ⟨some path, -1⟩
    | .exists path => Yields (deserializeExistsRequest H) ia (archiveAt body body.length) ⟨some path, 0⟩
    | get path => Yields (deserializeGetDataRequest H) ia (archiveAt body body.length) ⟨some path, 0⟩
    | getChildren path => Yields (deserializeGetChildrenRequest H) ia (archiveAt body body.length) ⟨some path, 0⟩

private theorem reads_acl (hH : H.Succeeds) (perms : Int32) (scheme id : Bytes) :
    ∃ slots, Reads (deserializeAcl H) (aclWire ⟨perms, some scheme, some id⟩) (fun _ => ⟨perms, some scheme, some id⟩)
      slots :=
  ⟨_, (reads_int _ _ _).cons <|
    .cons (.into ((reads_string hH _ _ _).cons <| (reads_string hH _ _ _).cons .nil) _ _) .nil⟩

private theorem reads_defaultAcl (hH : H.Succeeds) :
    ∃ slots, Reads (deserializeAclVector H) (wireVector aclWire [⟨permAll, some world, some anyone⟩])
      (fun _ => defaultAcl) slots :=
  ⟨_, reads_vector hH (W := aclWire) "acl" (fun _ _ => rfl) [⟨permAll, some world, some anyone⟩] (by decide)
    fun x hx => by
      obtain rfl := List.mem_singleton.1 hx
      exact reads_acl hH _ _ _⟩

private theorem reads_createRequest (hH : H.Succeeds) (path data : Bytes) (flags : Int32) :
    ∃ slots, Reads (deserializeCreateRequest H)
      [wireString (some path), wireString (some data), wireVector aclWire [⟨permAll, some world, some anyone⟩],
        be32 flags].flatten
      (fun _ => ⟨some path, .of (some data), defaultAcl, flags⟩) slots := by
  obtain ⟨slots, hacl⟩ := reads_defaultAcl hH
  have hdata := reads_buffer hH "data" CreateRequest.data (fun x v => { v with data := x }) (fun _ _ => rfl)
    (fun _ _ _ => rfl) (some data)
  exact ⟨_, (reads_string hH _ _ _).cons <| hdata.cons <| (hacl.into _ _).cons <| (reads_int _ _ _).cons .nil⟩

private theorem reads_watch (hH : H.Succeeds) (path : Bytes) :
    ∃ slots, Reads (deserializeWatchRequest H) (watchWire path) (fun _ => ⟨some path, 0⟩) slots :=
  ⟨_, (reads_string hH _ _ _).cons <| (reads_bool (i := 0) (.inl rfl) (.field "watch") _).cons .nil⟩

private theorem Reads.yields {σ : Type} {r : Reader σ} {x : σ} {bs buf rest : Bytes} {k : Nat}
    (hr : ∃ slots, Reads r bs (fun _ => x) slots) (hlt : buf.length < 2 ^ 31) (hk : k ≤ buf.length)
    (h : buf.drop k = bs ++ rest) : Yields r (archiveAt buf k) (archiveAt buf (k + bs.length)) x := by
  obtain ⟨slots, hr⟩ := hr
  exact fun v => ⟨slots, hr buf k rest v hlt hk h⟩

/-- The request header and the format of the record decode to the arguments of the operation. -/
theorem decodesFrom_wire (hH : H.Succeeds) (op : Operation) (xid : Int32) (hlt : op.wire.length + 8 < 2 ^ 31) :
    op.DecodesFrom H xid (RequestHeader.wire ⟨xid, op.opcode⟩ ++ op.wire) := by
  have hhead : (RequestHeader.wire ⟨xid, op.opcode⟩).length = 8 := by simp [RequestHeader.wire]
  generalize hbody : RequestHeader.wire ⟨xid, op.opcode⟩ ++ op.wire = body
  have hlen : body.length = 8 + op.wire.length := by rw [← hbody, List.length_append, hhead]
  have hdrop : body.drop 8 = op.wire ++ [] := by rw [← hbody, ← hhead, List.drop_left, List.append_nil]
  have hrec : ∀ {σ : Type} {r : Reader σ} {x : σ}, (∃ slots, Reads r op.wire (fun _ => x) slots) →
      Yields r (archiveAt body 8) (archiveAt body body.length) x := by
    intro σ r x hr
    rw [hlen]
    exact Reads.yields hr (by omega) (by omega) hdrop
  refine ⟨archiveAt body 8, ?_, ?_⟩
  · have h := Reads.yields (k := 0) (reads_requestHeader ⟨xid, op.opcode⟩) (by omega) (by omega) hbody.symm
    rwa [hhead] at h
  · cases op with
    | create path data size flags => exact hrec (reads_createRequest hH path _ flags)
    | set path data =>
      have hdata := reads_buffer hH "data" SetDataRequest.data (fun x v => { v with data := x }) (fun _ _ => rfl)
        (fun _ _ _ => rfl) (some (set path data).payload)
      exact hrec ⟨_, (reads_string hH _ _ _).cons <| hdata.cons <| (reads_int _ _ _).cons .nil⟩
    | del path => exact hrec ⟨_, (reads_string hH _ _ _).cons <| (reads_int _ _ _).cons .nil⟩
    | «exists» path => exact hrec (reads_watch hH path)
    | get path => exact hrec (reads_watch hH path)
    | getChildren path => exact hrec (reads_watch hH path)

/-! ### Sending a request -/

theorem opcode_ne_ping (op : Operation) : pingOpcode ≠ op.opcode := by
  cases op <;> simp [opcode]

theorem run_encodeRequest {σ : Type} (h : Handler σ) (hH : H.Succeeds) {op : Operation} (hop : op.Valid)
    (hlt : op.wire.length + 8 < 2 ^ 29) (s : σ) :
    ∃ oa, (encodeRequest H op.opcode (op.body H)).run h s = ((0, oa), (h .getXid s).2) ∧
      oa.bytes = RequestHeader.wire ⟨(h .getXid s).1, op.opcode⟩ ++ op.wire := by
  have hhead : (RequestHeader.wire ⟨(h .getXid s).1, op.opcode⟩).length = 8 := by simp [RequestHeader.wire]
  obtain ⟨oa₁, e₁, h₁⟩ := writes_requestHeader hH ⟨(h .getXid s).1, op.opcode⟩ _ [] (createBufferOarchive_holds H)
    (by rw [hhead]; decide)
  obtain ⟨oa₂, e₂, h₂⟩ := writes_body hH hop oa₁ _ h₁ (by rw [List.nil_append, hhead]; omega)
  refine ⟨oa₂, ?_, by simpa using h₂.bytes_eq⟩
  simp only [encodeRequest, addRequestHeader, if_neg (opcode_ne_ping op), Prog.run_bind, run_getXid, Prog.run_pure, e₁,
    e₂]
  simp [h₂.inside]

private theorem received_wire (w : World) (x : Received) : (w.received x).wire = w.wire :=
  World.received_inv (I := fun v => v.wire = w.wire) (fun _ _ _ h => h) (fun _ _ h => h) (fun _ h => h) rfl x

/-- Receiving puts nothing on the wire. -/
theorem recvResponse_wire (w : World) : (w.recvResponse H).2.wire = w.wire := by
  rw [World.recvResponse_snd]
  exact World.recvFrame_inv (I := fun v => v.wire = w.wire) (fun _ h => h) (fun _ _ h => h)
    (fun v x h => (received_wire v x).trans h) rfl

/-- **Requests on the wire.**  However the writes are split, a request operation puts exactly one frame on the socket:
four bytes with the length of what follows, and what follows decodes to the header and the arguments. -/
theorem run_wire (hH : H.Succeeds) {op : Operation} (hop : op.Valid) (hlt : op.wire.length + 8 < 2 ^ 29) {w : World}
    (hw : w.Accepts (op.wire.length + 12)) :
    ∃ size body, (exec H (op.run H) w).2.wire = w.wire ++ (size ++ body) ∧ size.length = 4 ∧
      (decodeInt32 size 0).toInt = body.length ∧ op.DecodesFrom H w.getXid.1 body := by
  obtain ⟨oa, e, hbytes⟩ := run_encodeRequest (World.handle H) hH hop hlt w
  have hlen : oa.bytes.length = op.wire.length + 8 := by
    rw [hbytes, List.length_append, Nat.add_comm]
    simp [RequestHeader.wire]
  have hw' : w.getXid.2.Accepts (oa.bytes.length + 4) := by
    rw [hlen]
    exact ⟨hw.poll, hw.writes⟩
  obtain ⟨ys, hsend⟩ := World.sendRequest_accepts hH hw'
  have hs : exec H (op.send H) w = w.getXid.2.sendRequest H oa.bytes := run_encodeAndSend _ e
  refine ⟨lengthPrefix oa.bytes.length, oa.bytes, ?_, length_lengthPrefix _, decodeInt32_lengthPrefix (by omega), ?_⟩
  · rw [exec, run_eq, show (op.send H).run (World.handle H) w = _ from hs, hsend]
    simp only [ne_eq, not_true, if_false, World.handle_recvResponse]
    set w₁ : World := { w.getXid.2 with
      polls := w.getXid.2.polls.tail, wire := w.getXid.2.wire ++ frame oa.bytes, writes := ys } with hw₁
    have hwire : (w₁.recvResponse H).2.wire = w.wire ++ frame oa.bytes := by
      rw [recvResponse_wire]
      rfl
    rcases hr : w₁.recvResponse H with ⟨_ | ia, w₂⟩
    · rw [hr] at hwire
      exact hwire
    · rw [hr] at hwire
      have hquiet : (op.finish H ia).Only fun e => ∀ w, (World.handle H e w).2.wire = w.wire :=
        op.only_finish ia (fun _ _ => rfl) fun _ _ => rfl
      exact hquiet.run_inv (I := fun v => v.wire = w.wire ++ frame oa.bytes)
        (fun e he v hv => (he v).trans hv) hwire
  · rw [hbytes]
    exact decodesFrom_wire hH op _ (by omega)

private def createOp : Operation := .create [47, 97] (some [120, 121]) 2 0

private def createWorld : World :=
  { World.idle (initClient [] 10 3 0 0 0) with
    clock := [7], polls := [(1, 4)], writes := .bytes 1 :: List.replicate 60 (.bytes 3) }

theorem run_wire_create :
    ∃ size body, (exec Heap.plenty (createOp.run Heap.plenty) createWorld).2.wire = [] ++ (size ++ body) ∧
      size.length = 4 ∧ (decodeInt32 size 0).toInt = body.length ∧ createOp.DecodesFrom Heap.plenty 7 body := by
  have hvalid : createOp.Valid := ⟨by decide, fun block h => by cases h; decide⟩
  have haccepts : createWorld.Accepts (createOp.wire.length + 12) := by
    refine ⟨by decide, fun x hx => ?_, by decide⟩
    rcases List.mem_cons.1 hx with rfl | hx
    · exact ⟨1, rfl⟩
    · exact ⟨3, (List.mem_replicate.1 hx).2⟩
  exact run_wire Heap.plenty_succeeds hvalid (by decide) haccepts

end Operation

/-- A request is encoded once its id is known. -/
theorem encodeRequest_eq {H : Heap} (hH : H.Succeeds) (opcode : Int32) {body : OArchive → Int × OArchive} {w : Bytes}
    (hbody : Writes body w) (hlt : w.length + 8 < 2 ^ 29) :
    ∃ oa : Int32 → OArchive, (∀ xid, (oa xid).bytes = RequestHeader.wire ⟨xid, opcode⟩ ++ w) ∧
      encodeRequest H opcode body =
        ((if pingOpcode = opcode then pure (-2) else perform .getXid) >>= fun xid => pure (0, oa xid)) := by
  have hencode : ∀ xid, ∃ oa₁ oa : OArchive, oa.bytes = RequestHeader.wire ⟨xid, opcode⟩ ++ w ∧ oa.oob = false ∧
      serializeRequestHeader H ⟨xid, opcode⟩ (createBufferOarchive H) = (0, oa₁) ∧ body oa₁ = (0, oa) := by
    intro xid
    have hhead : (RequestHeader.wire ⟨xid, opcode⟩).length = 8 := by simp [RequestHeader.wire]
    obtain ⟨oa₁, e₁, h₁⟩ := writes_requestHeader hH ⟨xid, opcode⟩ _ [] (createBufferOarchive_holds H)
      (by rw [hhead]; decide)
    obtain ⟨oa, e, h⟩ := hbody oa₁ _ h₁ (by rw [List.nil_append, hhead]; omega)
    exact ⟨oa₁, oa, by simpa using h.bytes_eq, h.inside, e₁, e⟩
  choose oa₁ oa hbytes hinside e₁ e using hencode
  refine ⟨oa, hbytes, ?_⟩
  unfold encodeRequest addRequestHeader
  generalize createBufferOarchive H = start at e₁
  by_cases hping : pingOpcode = opcode
  · simp only [if_pos hping, bind, pure, Prog.bind, e₁, lt_irrefl, if_false, e, hinside, Bool.false_eq_true]
  · simp only [if_neg hping, bind, pure, Prog.bind, e₁, lt_irrefl, if_false, e, hinside, Bool.false_eq_true, perform]

end ZkClient
