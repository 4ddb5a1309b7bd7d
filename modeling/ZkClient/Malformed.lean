import ZkClient.Replies

/-!
# Malformed replies

What `zk_get`, `zk_exists`, `zk_set` and `zk_create` make of a payload that reports no error and does not contain the
operation's response record.  They should fail, leave the caller's variable alone and touch no field that decoding has
not assigned (`Operation.Rejects`).  A payload without a whole header is rejected by all four; behind a whole header
only `zk_set` rejects.
-/

namespace ZkClient

open BigEndian Pthread

/-- The undefined behaviours that come from fields without a value. -/
def Fault.Unassigned : Fault → Prop
  | .readUnassigned _ | .freeUnassigned _ => True
  | .outOfBounds _ | .nullPointer _ | .overflow _ => False

namespace Operation

/-- `zk_get`, `zk_exists`, `zk_set` and `zk_create`. -/
def DecodesRecord : Operation → Prop
  | create .. | .exists _ | get _ | set .. => True
  | del _ | getChildren _ => False

/-- The payload has no header with a non-zero error, and it is not a header without an error followed by the
operation's response record. -/
def Malformed (op : Operation) (payload : Bytes) : Prop :=
  (∀ header tail, payload = ReplyHeader.wire header ++ tail → header.err = 0) ∧
    ¬ ∃ header resp tail, header.err = 0 ∧ payload = ReplyHeader.wire header ++ (op.responseWire resp ++ tail)

/-- The statuses with which an operation reports a failure. -/
def Failure (op : Operation) (status : Int) : Prop :=
  match op with
  | .exists _ => status ≠ 0 ∧ status ≠ 1
  | _ => status ≠ zkOk

/-- The outcome `r` of an operation that received its reply in the world `w` is a rejection. -/
structure Rejects (op : Operation) (w : World) (r : (Int × Option Output) × World) : Prop where
  failure : op.Failure r.1.1
  untouched : r.1.2 = none
  assigned : ∀ f ∈ r.2.faults.drop w.faults.length, ¬ f.Unassigned

variable {H : Heap}

/-- Without a whole header, decoding the header fails. -/
private theorem exec_decodeReplyHeader_short {payload : Bytes} (hshort : payload.length < 16) (w : World) :
    ∃ ia, exec H (decodeReplyHeader H (archiveAt payload 0)) w = ((zkError, ia), w.assign (.lastErr zkError)) := by
  obtain ⟨hoob, hrc | ⟨-, bs, rest, ⟨v, rfl⟩, hsplit, -⟩⟩ :=
    sound_replyHeader payload 0 (uninitReplyHeader H) (by omega) (by omega)
  · refine ⟨(deserializeReplyHeader (archiveAt payload 0) (uninitReplyHeader H)).ia, ?_⟩
    rw [exec, decodeReplyHeader, Prog.run_bind, run_decode, hoob]
    simp only [Bool.false_eq_true, if_false]
    rw [if_pos hrc]
    rfl
  · have hlen := congrArg List.length hsplit
    simp [ReplyHeader.wire] at hlen
    omega

private theorem rejects_short {op : Operation} (hop : op.DecodesRecord) {payload : Bytes}
    (hshort : payload.length < 16) (w : World) :
    op.Rejects w (exec H (op.finish H (archiveAt payload 0)) w) := by
  obtain ⟨ia, hhead⟩ := exec_decodeReplyHeader_short (H := H) hshort w
  rw [exec, run_finish_error hhead (by decide)]
  constructor
  · cases op <;> simp [Failure, status]
  · rfl
  · simp [World.assign]

section Whole

variable {header : ReplyHeader} {tail payload : Bytes} (hlt : payload.length < 2 ^ 31)
  (hpay : payload = header.wire ++ tail) (herr : header.err = 0)

include hlt hpay herr

private theorem exec_decodeReplyHeader_whole (w : World) :
    exec H (decodeReplyHeader H (archiveAt payload 0)) w = ((0, archiveAt payload 16), w.assign (.lastErr 0)) := by
  have hhead := run_decodeReplyHeader (H := H) (h := World.handle H) hlt hpay w
  rwa [herr] at hhead

omit hlt herr in
private theorem drop_header : payload.drop 16 = tail := by
  have hlen : header.wire.length = 16 := by simp [ReplyHeader.wire]
  rw [hpay, ← hlen, List.drop_left]

omit hlt in
/-- A malformed payload has no response record behind its header. -/
private theorem no_record {op : Operation} (hmal : op.Malformed payload) (resp : op.Response) (rest : Bytes) :
    payload.drop 16 ≠ op.responseWire resp ++ rest := fun h =>
  hmal.2 ⟨header, resp, rest, herr, by rw [← h, drop_header hpay, hpay]⟩

/-- `zk_set` looks at the return code of its decoder. -/
private theorem rejects_set {path : Bytes} {data : Buffer} (hmal : (set path data).Malformed payload) (w : World) :
    (set path data).Rejects w (exec H ((set path data).finish H (archiveAt payload 0)) w) := by
  have hhead := exec_decodeReplyHeader_whole (H := H) hlt hpay herr w
  have hsound : Sound deserializeSetDataResponse _ := (sound_stat.into StatResponse.stat _).cons .nil
  have hk : 16 ≤ payload.length := by
    rw [hpay, List.length_append]
    simp [ReplyHeader.wire]
  obtain ⟨hoob, hrc | ⟨-, _, rest, ⟨_, _, rfl, ⟨stat, rfl⟩, rfl⟩, hsplit, -⟩⟩ :=
    hsound payload 16 ⟨uninitStat H⟩ hlt hk
  · simp [finish, finishSet, run_afterHeader, hhead, hoob, hrc]
    constructor <;> simp [Failure, World.assign]
  · exact absurd hsplit (no_record hpay herr hmal stat rest)

/-- `zk_create` frees a path that was not decoded. -/
private theorem not_rejects_create {path : Bytes} {data : Option Bytes} {size flags : Int32}
    (hmal : (create path data size flags).Malformed payload) (w : World) :
    ¬ (create path data size flags).Rejects w
      (exec H ((create path data size flags).finish H (archiveAt payload 0)) w) := by
  have hhead := exec_decodeReplyHeader_whole (H := H) hlt hpay herr w
  have hk : 16 ≤ payload.length := by
    rw [hpay, List.length_append]
    simp [ReplyHeader.wire]
  obtain ⟨hoob, ⟨s, rest, hsplit⟩ | ⟨hrc, hassigned⟩, -⟩ := string_cases H "path"
    (fun x (v : CreateResponse) => { v with path := x }) ⟨none⟩ hlt hk
  · exact absurd (by simpa [responseWire] using hsplit) (no_record hpay herr hmal s rest)
  · have hne : (iaDeserializeString H "path" (fun x (v : CreateResponse) => { v with path := x })
        (archiveAt payload 16) ⟨none⟩).rc ≠ 0 := by omega
    have hd : deserializeCreateResponse H (archiveAt payload 16) ⟨none⟩ =
        iaDeserializeString H "path" (fun x (v : CreateResponse) => { v with path := x }) (archiveAt payload 16) ⟨none⟩ := by
      simp only [deserializeCreateResponse, readRecord, if_pos hne]
    intro h
    have := h.assigned (.freeUnassigned "resp.path")
    simp [finish, finishCreate, run_afterHeader, hhead, hd, hoob, Decoded.misses, hassigned, World.fault, World.assign,
      Fault.Unassigned] at this

end Whole

/-- **Malformed replies.**  Under a malformed payload the operation rejects exactly when it is `zk_set` or the payload
has no whole header. -/
theorem run_malformed {op : Operation} (hop : op.DecodesRecord) {w w₁ w₂ : World} {payload : Bytes}
    (hsent : exec H (op.send H) w = (zkOk, w₁)) (hlt : payload.length < 2 ^ 31)
    (hrecv : w₁.recvResponse H = (some (archiveAt payload 0), w₂)) (hmal : op.Malformed payload) :
    op.Rejects w₂ (exec H (op.run H) w) ↔ (∃ path data, op = set path data) ∨ payload.length < 16 := by
  have hrun := run_eq (World.handle H) (H := H) op w
  rw [show (op.send H).run (World.handle H) w = _ from hsent] at hrun
  simp only [ne_eq, not_true, if_false, World.handle_recvResponse, hrecv] at hrun
  rw [exec, hrun]
  by_cases hshort : payload.length < 16
  · exact ⟨fun _ => .inr hshort, fun _ => rejects_short hop hshort w₂⟩
  · obtain ⟨header, tail, hpay⟩ := exists_replyHeader (show 16 ≤ payload.length by omega)
    have herr := hmal.1 header tail hpay
    have hhead := exec_decodeReplyHeader_whole (H := H) hlt hpay herr w₂
    cases op with
    | set path data => exact ⟨fun _ => .inl ⟨path, data, rfl⟩, fun _ => rejects_set hlt hpay herr hmal w₂⟩
    | create path data size flags =>
      simp only [reduceCtorEq, exists_false, false_or, hshort, iff_false]
      exact not_rejects_create hlt hpay herr hmal w₂
    | «exists» path =>
      simp only [reduceCtorEq, exists_false, false_or, hshort, iff_false]
      have hstatus : (exec H ((Operation.exists path).finish H (archiveAt payload 0)) w₂).1.1 = 1 := by
        simp only [finish, finishExists, Prog.run_bind, hhead]
        simp
        split <;> rfl
      exact fun h => h.failure.2 hstatus
    | get path =>
      simp only [reduceCtorEq, exists_false, false_or, hshort, iff_false]
      have hstatus : (exec H ((get path).finish H (archiveAt payload 0)) w₂).1.1 = 0 := by
        simp [finish, finishGet, run_afterHeader, hhead]
        split <;> rfl
      exact fun h => h.failure hstatus
    | del path => exact hop.elim
    | getChildren path => exact hop.elim

/-! ### A payload that is only a header -/

private def cutOp : Operation := .get [47, 97]

private def cutHeader : ReplyHeader := ⟨1, 5, 0⟩

private def cutWorld : World :=
  { World.idle (initClient [] 10 3 0 0 0) with
    clock := [1], polls := [(1, 4), (1, 1)], writes := List.replicate 30 (.bytes 2)
    stream := frame cutHeader.wire, reads := List.replicate 30 (.bytes 7) }

private def cutSent : World := (exec Heap.plenty (cutOp.send Heap.plenty) cutWorld).2

private def cutReceived : World := (cutSent.recvResponse Heap.plenty).2

private theorem cut_sent : exec Heap.plenty (cutOp.send Heap.plenty) cutWorld = (zkOk, cutSent) := by
  have h : (exec Heap.plenty (cutOp.send Heap.plenty) cutWorld).1 = zkOk := by decide +kernel
  rw [← h, cutSent]

private theorem cut_received : cutSent.recvResponse Heap.plenty = (some (archiveAt cutHeader.wire 0), cutReceived) := by
  have h : (cutSent.recvResponse Heap.plenty).1 = some (archiveAt cutHeader.wire 0) := by decide +kernel
  rw [← h, cutReceived]

private theorem cut_malformed : cutOp.Malformed cutHeader.wire := by
  have hlen : ∀ header : ReplyHeader, header.wire.length = 16 := fun header => by simp [ReplyHeader.wire]
  refine ⟨fun header tail h => ?_, ?_⟩
  · obtain ⟨_, h₁⟩ := reads_replyHeader header
    obtain ⟨_, h₂⟩ := reads_replyHeader cutHeader
    have e₁ := h₁ cutHeader.wire 0 tail cutHeader (by rw [hlen]; omega) (Nat.zero_le _) h
    have e₂ := h₂ cutHeader.wire 0 [] cutHeader (by rw [hlen]; omega) (Nat.zero_le _) (by simp)
    have hval := congrArg Decoded.val (e₁.symm.trans e₂)
    simp only at hval
    rw [hval]
    rfl
  · rintro ⟨header, ⟨data, stat⟩, tail, -, h⟩
    have := congrArg List.length h
    simp [hlen, cutOp, responseWire, Stat.wire] at this

/-- `zk_get` returns `ZK_OK` for a header without a record. -/
theorem get_accepts_header :
    ¬ ∀ (H : Heap) (op : Operation) (w w₁ w₂ : World) (payload : Bytes), op.DecodesRecord →
      exec H (op.send H) w = (zkOk, w₁) → payload.length < 2 ^ 31 →
      w₁.recvResponse H = (some (archiveAt payload 0), w₂) → op.Malformed payload →
      op.Rejects w₂ (exec H (op.run H) w) := by
  intro h
  have hrej := h Heap.plenty cutOp cutWorld cutSent cutReceived cutHeader.wire trivial cut_sent (by decide) cut_received
    cut_malformed
  have hstatus : (exec Heap.plenty (cutOp.run Heap.plenty) cutWorld).1.1 = zkOk := by decide +kernel
  exact hrej.failure hstatus

theorem run_malformed_header :
    cutOp.Rejects cutReceived (exec Heap.plenty (cutOp.run Heap.plenty) cutWorld) ↔
      (∃ path data, cutOp = set path data) ∨ cutHeader.wire.length < 16 :=
  run_malformed (show cutOp.DecodesRecord from trivial) cut_sent (by decide) cut_received cut_malformed

end Operation

end ZkClient
