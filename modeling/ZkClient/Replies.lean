import ZkClient.Wire

/-!
# Replies

What an operation makes of a well-formed reply: a header that reports no error and a value of the operation's response
type, or a header that reports an error.  The reply is what the writers of these records produce, sent as one frame and
delivered in any portions; `Operation.run_reply` says which status and which output the operation returns, and that it
takes exactly the frame from the stream.
-/

namespace ZkClient

open BigEndian Pthread

namespace Operation

/-! ### Response records -/

/-- The values of the response type: a created path, a `struct Stat`, data with a `struct Stat`, or child names. -/
abbrev Response : Operation → Type
  | create .. => Bytes
  | .exists _ => Stat
  | get _ => Option Bytes × Stat
  | set .. => Stat
  | del _ => Unit
  | getChildren _ => List Bytes

/-- Strings are C strings, and a block or a list is as long as an `int32_t` can count. -/
def ValidResponse : (op : Operation) → op.Response → Prop
  | create .., (path : Bytes) => 0 ∉ path
  | .exists _, _ => True
  | get _, (data, _) => ∀ bs, data = some bs → bs.length < 2 ^ 31
  | set .., _ => True
  | del _, _ => True
  | getChildren _, (names : List Bytes) => names.length < 2 ^ 31 ∧ ∀ name ∈ names, 0 ∉ name

/-- The vector of the given child names. -/
def vectorOf (names : List Bytes) : StringVector :=
  { count := Int32.ofNat names.length, data := some (names.map some) }

/-- The writer of the response record; `zk_del` has none. -/
def writeResponse (H : Heap) : (op : Operation) → op.Response → OArchive → Int × OArchive
  | create .., path => serializeCreateResponse H ⟨some path⟩
  | .exists _, stat => serializeExistsResponse H ⟨stat⟩
  | get _, (data, stat) => serializeGetDataResponse H ⟨.of data, stat⟩
  | set .., stat => serializeSetDataResponse H ⟨stat⟩
  | del _, _ => writeRecord []
  | getChildren _, names => serializeGetChildrenResponse H ⟨vectorOf names⟩

/-- A whole reply: the header, and the response record behind a header without an error. -/
def encodeReply (H : Heap) (op : Operation) (header : ReplyHeader) (resp : op.Response) : Int × OArchive :=
  writeRecord (serializeReplyHeader H header :: if header.err = 0 then [op.writeResponse H resp] else [])
    (createBufferOarchive H)

/-- What the operation stores for its caller when it succeeds. -/
def output : (op : Operation) → op.Response → Option Output
  | create .., _ => none
  | .exists _, stat => some (.stat stat)
  | get _, (data, _) => some (.data (.of data))
  | set .., _ => none
  | del _, _ => none
  | getChildren _, names => some (.children (vectorOf names))

/-- The status of an operation whose reply header has the given error. -/
def status (op : Operation) (err : Int) : Int :=
  match op with
  | .exists _ => if err = 0 then 1 else if err = zNoNode then 0 else err
  | _ => err

/-- The format of the response record. -/
def responseWire : (op : Operation) → op.Response → Bytes
  | create .., path => [wireString (some path)].flatten
  | .exists _, stat => [stat.wire].flatten
  | get _, (data, stat) => [wireString data, stat.wire].flatten
  | set .., stat => [stat.wire].flatten
  | del _, _ => []
  | getChildren _, names => [wireVector (fun name => wireString (some name)) names].flatten

theorem appends_response (H : Heap) {op : Operation} {resp : op.Response} (h : op.ValidResponse resp) :
    Appends (op.writeResponse H resp) (op.responseWire resp) := by
  cases op with
  | create path data size flags => exact (appends_string H h).cons .nil
  | «exists» path => exact (appends_stat H _).cons .nil
  | get path => exact (appends_bufferOf H h).cons <| (appends_stat H _).cons .nil
  | set path data => exact (appends_stat H _).cons .nil
  | del path => exact .nil
  | getChildren path =>
    have hnames := appends_vector H (f := fun name => oaSerializeString H (some name)) resp h.1 fun name hn =>
      appends_string H (h.2 name hn)
    have hvector : Appends (serializeStringVector H (vectorOf resp))
        (wireVector (fun name => wireString (some name)) resp) := by
      simpa [serializeStringVector, vectorOf, Function.comp_def] using hnames
    exact hvector.cons .nil

/-- The bytes of a reply are the format of its header, and behind a header without an error that of the record. -/
theorem encodeReply_bytes {H : Heap} {op : Operation} {header : ReplyHeader} {resp : op.Response}
    (h : op.ValidResponse resp) {oa : OArchive} (henc : op.encodeReply H header resp = (0, oa)) (hin : oa.oob = false) :
    oa.bytes = header.wire ++ if header.err = 0 then op.responseWire resp else [] := by
  have happ : Appends (writeRecord (serializeReplyHeader H header ::
      if header.err = 0 then [op.writeResponse H resp] else []))
      (header.wire ++ if header.err = 0 then op.responseWire resp else []) := by
    refine (appends_replyHeader H header).cons ?_
    split
    · have := (appends_response H h).cons .nil
      rwa [List.append_nil] at this
    · exact .nil
  obtain ⟨-, hbytes⟩ := happ _ _ henc hin
  have hstart : (createBufferOarchive H).Inside := by
    simp [OArchive.Inside, createBufferOarchive]
  simpa [OArchive.bytes, createBufferOarchive] using (hbytes hstart).2

/-! ### Reading a reply -/

variable {H : Heap} {σ : Type} {h : Handler σ}

/-- The header of a reply, decoded and recorded. -/
theorem run_decodeReplyHeader {payload tail : Bytes} {header : ReplyHeader} (hlt : payload.length < 2 ^ 31)
    (hpay : payload = header.wire ++ tail) (s : σ) :
    (decodeReplyHeader H (archiveAt payload 0)).run h s =
      ((header.err.toInt, archiveAt payload 16), (h (.store (.lastErr header.err.toInt)) s).2) := by
  obtain ⟨slots, hread⟩ := reads_replyHeader header
  have hlen : header.wire.length = 16 := by simp [ReplyHeader.wire]
  have hd := hread payload 0 tail (uninitReplyHeader H) hlt (by omega) hpay
  rw [hlen] at hd
  rw [decodeReplyHeader, Prog.run_bind, run_decode, hd]
  rfl

/-- The receiving half of an operation behind a header that reports an error. -/
theorem run_finish_error {op : Operation} {ia ia' : IArchive} {s s' : σ} {err : Int}
    (hhead : (decodeReplyHeader H ia).run h s = ((err, ia'), s')) (hne : err ≠ 0) :
    (op.finish H ia).run h s = ((op.status err, none), s') := by
  cases op with
  | «exists» path =>
    by_cases hnode : err = zNoNode
    · simp [finish, finishExists, hhead, status, hnode]
    · simp only [finish, finishExists, Prog.run_bind, hhead, if_pos (And.intro hne hnode), run_unlock, Prog.run_pure,
        Option.map_none, status, if_neg hne, if_neg hnode]
  | create path data size flags => simp [finish, finishCreate, run_afterHeader, hhead, hne, status]
  | get path => simp [finish, finishGet, run_afterHeader, hhead, hne, status]
  | set path data => simp [finish, finishSet, run_afterHeader, hhead, hne, status]
  | del path => simp [finish, finishDel, run_afterHeader, hhead, hne, status]
  | getChildren path => simp [finish, finishGetChildren, run_afterHeader, hhead, hne, status]

/-- In front of the format of its record, a reader stores the record. -/
private theorem read_response {σ : Type} {r : Reader σ} {x : σ} {slots : List Slot} {header : ReplyHeader}
    {payload bs : Bytes} (hr : Reads r bs (fun _ => x) slots) (hlt : payload.length < 2 ^ 31)
    (h : payload = header.wire ++ bs) (v : σ) :
    r (archiveAt payload 16) v =
      { rc := 0, ia := archiveAt payload (16 + bs.length), val := x, assigned := slots, oob := false } := by
  have hlen : header.wire.length = 16 := by simp [ReplyHeader.wire]
  have hdrop : payload.drop 16 = bs ++ [] := by rw [h, ← hlen, List.drop_left, List.append_nil]
  refine hr payload 16 [] v hlt ?_ hdrop
  rw [h, List.length_append]
  omega

private theorem reads_createResponse (hH : H.Succeeds) (path : Bytes) :
    Reads (deserializeCreateResponse H) [wireString (some path)].flatten (fun _ => ⟨some path⟩) [.field "path"] :=
  (reads_string hH "path" (fun x (v : CreateResponse) => { v with path := x }) path).cons .nil

private theorem reads_statResponse (stat : Stat) :
    Reads deserializeStatResponse [stat.wire].flatten (fun _ => ⟨stat⟩) statSlots :=
  ((reads_stat stat).into StatResponse.stat fun x v => { v with stat := x }).cons .nil

private theorem reads_getDataResponse (hH : H.Succeeds) (data : Option Bytes) (stat : Stat) :
    Reads (deserializeGetDataResponse H) [wireString data, stat.wire].flatten (fun _ => ⟨.of data, stat⟩)
      (.len "data" :: .buff "data" :: statSlots) :=
  (reads_buffer hH "data" GetDataResponse.data (fun x v => { v with data := x }) (fun _ _ => rfl) (fun _ _ _ => rfl)
    data).cons <| ((reads_stat stat).into GetDataResponse.stat fun x v => { v with stat := x }).cons .nil

private theorem reads_childrenResponse (hH : H.Succeeds) {names : List Bytes} (hlt : names.length < 2 ^ 31) :
    Reads (deserializeGetChildrenResponse H) [wireVector (fun name => wireString (some name)) names].flatten
      (fun _ => ⟨vectorOf names⟩) [.len "children", .buff "children"] := by
  have helem : ∀ name ∈ names.map some, ∃ slots,
      Reads (iaDeserializeString H "value" fun x (_ : Option Bytes) => x) (wireString name) (fun _ => name) slots := by
    intro name hname
    obtain ⟨s, -, rfl⟩ := List.mem_map.1 hname
    exact ⟨_, reads_string hH "value" (fun x _ => x) s⟩
  have hvector : Reads (deserializeStringVector H) (wireVector wireString (names.map some))
      (fun _ => ⟨Int32.ofNat (names.map some).length, some (names.map some)⟩) [.len "children", .buff "children"] :=
    reads_vector hH "children" (fun _ _ => rfl) (names.map some) (by simpa using hlt) helem
  have hwire : wireVector wireString (names.map some) = wireVector (fun name => wireString (some name)) names := by
    simp [wireVector, List.flatMap_map]
  rw [hwire, List.length_map] at hvector
  exact (hvector.into GetChildrenResponse.children fun x v => { v with children := x }).cons .nil

/-- The receiving half of an operation in front of a well-formed reply. -/
theorem run_finish (hH : H.Succeeds) {op : Operation} {resp : op.Response} (hresp : op.ValidResponse resp)
    {header : ReplyHeader} {payload : Bytes} (hlt : payload.length < 2 ^ 31)
    (hpay : payload = header.wire ++ if header.err = 0 then op.responseWire resp else []) (s : σ) :
    (op.finish H (archiveAt payload 0)).run h s =
      ((op.status header.err.toInt, if header.err = 0 then op.output resp else none),
        (h (.store (.lastErr header.err.toInt)) s).2) := by
  have hhead := run_decodeReplyHeader (H := H) (h := h) hlt hpay s
  by_cases herr : header.err = 0
  · have hzero : header.err.toInt = 0 := by rw [herr]; rfl
    rw [if_pos herr] at hpay
    rw [hzero] at hhead ⊢
    cases op with
    | create path data size flags =>
      have hread := read_response (reads_createResponse hH resp) hlt hpay ⟨none⟩
      simp [finish, finishCreate, run_afterHeader, hhead, hread, status, herr, output, Decoded.misses]
    | «exists» path =>
      have hread := read_response (reads_statResponse resp) hlt hpay ⟨uninitStat H⟩
      simp [finish, finishExists, hhead, deserializeExistsResponse, hread, status, herr, output, Decoded.misses]
    | get path =>
      have hread := read_response (reads_getDataResponse hH resp.1 resp.2) hlt hpay ⟨uninitBuffer H, uninitStat H⟩
      simp [finish, finishGet, run_afterHeader, hhead, hread, status, herr, output]
    | set path data =>
      have hread := read_response (reads_statResponse resp) hlt hpay ⟨uninitStat H⟩
      simp [finish, finishSet, run_afterHeader, hhead, deserializeSetDataResponse, hread, status, herr, output]
    | del path => simp [finish, finishDel, run_afterHeader, hhead, status, herr, output]
    | getChildren path =>
      have hread := read_response (reads_childrenResponse hH hresp.1) hlt hpay ⟨⟨H.int, none⟩⟩
      simp [finish, finishGetChildren, run_afterHeader, hhead, hread, status, herr, output, Decoded.misses]
  · rw [run_finish_error hhead fun hz => herr (Int32.toInt.inj hz), if_neg herr]

/-- An operation whose request is answered at once, whatever the surroundings. -/
theorem run_served (hH : H.Succeeds) {op : Operation} (hop : op.Valid) (hsize : op.wire.length + 8 < 2 ^ 29)
    {resp : op.Response} (hresp : op.ValidResponse resp) {header : ReplyHeader} {reply : Bytes}
    (hlt : reply.length < 2 ^ 31) (hreply : reply = header.wire ++ if header.err = 0 then op.responseWire resp else [])
    {s s₁ s₂ : σ}
    (hsend : h (.sendRequest (RequestHeader.wire ⟨(h .getXid s).1, op.opcode⟩ ++ op.wire)) (h .getXid s).2 = (zkOk, s₁))
    (hrecv : h .recvResponse s₁ = (some (archiveAt reply 0), s₂)) :
    (op.run H).run h s = ((op.status header.err.toInt, if header.err = 0 then op.output resp else none),
      (h (.store (.lastErr header.err.toInt)) s₂).2) := by
  obtain ⟨oa, e, hbytes⟩ := run_encodeRequest h hH hop hsize s
  have hsent : (op.send H).run h s = (zkOk, s₁) := by
    rw [← hsend, ← hbytes]
    exact run_encodeAndSend h e
  have hfinish := run_finish (h := h) hH hresp hlt hreply s₂
  have hrun := run_eq h (H := H) op s
  simp only [hsent, ne_eq, not_true, if_false, hrecv, hfinish] at hrun
  exact hrun

/-- **Replies back to values.**  An operation whose request was sent and whose reply arrives, in whatever portions,
returns the value of the reply, or its error without an output, and leaves the bytes behind the frame unread. -/
theorem run_reply (hH : H.Succeeds) {op : Operation} {w w₁ : World} (hsent : exec H (op.send H) w = (zkOk, w₁))
    {header : ReplyHeader} {resp : op.Response} (hresp : op.ValidResponse resp) {H' : Heap} {oa : OArchive}
    (henc : op.encodeReply H' header resp = (0, oa)) (hin : oa.oob = false) (hlt : oa.bytes.length < 2 ^ 31)
    {rest : Bytes} (hdel : w₁.Delivers oa.bytes rest) :
    ∃ w₂, exec H (op.run H) w =
        ((op.status header.err.toInt, if header.err = 0 then op.output resp else none), w₂) ∧
      w₂.client.lastErr = header.err.toInt ∧ w₂.stream = rest := by
  obtain ⟨ys, hrecv⟩ := World.recvResponse_delivers hH hlt hdel
  have hfinish := run_finish (h := World.handle H) hH hresp hlt (encodeReply_bytes hresp henc hin)
    { w₁ with polls := w₁.polls.tail, stream := rest, reads := ys }
  have hrun := run_eq (World.handle H) (H := H) op w
  rw [show (op.send H).run (World.handle H) w = _ from hsent] at hrun
  simp only [ne_eq, not_true, if_false, World.handle_recvResponse, hrecv, hfinish] at hrun
  exact ⟨_, hrun, rfl, rfl⟩

private def getOp : Operation := .get [47, 97]

private def getReply : ReplyHeader := ⟨1, 5, 0⟩

private def getValue : getOp.Response := (some [104, 105], ⟨1, 2, 3, 4, 5, 6, 7, 8, 2, 0, 9⟩)

private def getFrame : Bytes := frame (getOp.encodeReply Heap.plenty getReply getValue).2.bytes

private def getWorld : World :=
  { World.idle (initClient [] 10 3 0 0 0) with
    clock := [1], polls := [(1, 4), (1, 1)], writes := List.replicate 30 (.bytes 2), stream := getFrame ++ [9]
    reads := .bytes 3 :: List.replicate 120 (.bytes 7) }

theorem run_reply_get :
    ∃ w₂, exec Heap.plenty (getOp.run Heap.plenty) getWorld = ((0, some (.data ⟨2, some [104, 105]⟩)), w₂) ∧
      w₂.client.lastErr = 0 ∧ w₂.stream = [9] := by
  have hreads : (exec Heap.plenty (getOp.send Heap.plenty) getWorld).2.reads =
      .bytes 3 :: List.replicate 120 (.bytes 7) := by decide +kernel
  have hdel : (exec Heap.plenty (getOp.send Heap.plenty) getWorld).2.Delivers
      (getOp.encodeReply Heap.plenty getReply getValue).2.bytes [9] := by
    refine ⟨by decide +kernel, by decide +kernel, ?_, by decide +kernel⟩
    rw [hreads]
    intro x hx
    rcases List.mem_cons.1 hx with rfl | hx
    · exact ⟨3, rfl⟩
    · exact ⟨7, (List.mem_replicate.1 hx).2⟩
  have hsent : (exec Heap.plenty (getOp.send Heap.plenty) getWorld).1 = zkOk := by decide +kernel
  have henc : (getOp.encodeReply Heap.plenty getReply getValue).1 = 0 := by decide +kernel
  exact @run_reply Heap.plenty Heap.plenty_succeeds getOp getWorld _ (by rw [← hsent]) getReply getValue
    (fun bs h => by cases h; decide) Heap.plenty _ (by rw [← henc]) (by decide +kernel) (by decide +kernel) [9] hdel

end Operation

end ZkClient
