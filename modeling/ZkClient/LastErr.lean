import ZkClient.Quiet
import ZkClient.Replies

/-!
# Status and `last_err`

The status of an operation travels twice: as its return value, and in `c->last_err`, which is what the commands report.
`Operation.course` is how far a request comes: it is not encoded, the transfer fails, there is no memory for the archive
of the reply, or the reply is there.  Only two of these ways, and only some replies, leave the status of the operation
in `last_err` (`Operation.Clear`); there the run does not depend on what `last_err` was before.
-/

namespace ZkClient

open Pthread

variable {H : Heap}

/-! ### Transfers -/

namespace World

@[simp] theorem setErr_setErr (w : World) (e e' : Int) : (w.setErr e).setErr e' = w.setErr e' := rfl

@[simp] theorem setErr_lastErr (w : World) (e : Int) : (w.setErr e).client.lastErr = e := rfl

private theorem nextPoll_setErr (w : World) (e : Int) :
    (w.setErr e).nextPoll = (w.nextPoll.1, w.nextPoll.2.setErr e) := rfl

private theorem received_setErr (w : World) (e : Int) (x : Received) :
    (w.setErr e).received x = (w.received x).setErr e := by
  unfold received
  cases x.outside <;> cases x.endless <;> cases x.closed <;> rfl

theorem sendRequest_setErr (payload : Bytes) (w : World) (e : Int) :
    (w.setErr e).sendRequest H payload =
      if (w.sendRequest H payload).1 = zkOk then (zkOk, (w.sendRequest H payload).2.setErr e)
      else w.sendRequest H payload := by
  unfold sendRequest
  rw [nextPoll_setErr]
  by_cases hmem : H.ok .sendBuf (payload.length + 4)
  · rcases w.nextPoll with ⟨p, w₁⟩
    have hx : writeSocket (lengthPrefix payload.length ++ payload) (w₁.setErr e).writes 0 (w₁.setErr e).wire false =
        writeSocket (lengthPrefix payload.length ++ payload) w₁.writes 0 w₁.wire false := rfl
    simp only [hmem, not_true_eq_false, if_false]
    rw [hx]
    by_cases hwait : waitResult .write p.1 p.2 ≠ zkOk
    · simp only [if_pos hwait]
      rfl
    · simp only [if_neg hwait]
      generalize writeSocket _ _ _ _ _ = x
      by_cases hx : x.status ≠ zkOk
      · simp only [if_pos hx]
        cases x.outside <;> rfl
      · simp only [if_neg hx]
        cases x.outside <;> rfl
  · simp [hmem]

theorem sendRequest_lastErr (payload : Bytes) (w : World) (h : (w.sendRequest H payload).1 ≠ zkOk) :
    (w.sendRequest H payload).2.client.lastErr = (w.sendRequest H payload).1 ∧
      ((w.sendRequest H payload).1 = zkError ∨ (w.sendRequest H payload).1 = zkSocketErr) := by
  unfold sendRequest at h ⊢
  generalize w.nextPoll = q at h ⊢
  obtain ⟨p, w₁⟩ := q
  by_cases hmem : H.ok .sendBuf (payload.length + 4)
  · simp only [hmem, not_true_eq_false, if_false] at h ⊢
    by_cases hwait : waitResult .write p.1 p.2 ≠ zkOk
    · rw [if_pos hwait]
      exact ⟨rfl, .inr rfl⟩
    · rw [if_neg hwait] at h ⊢
      generalize writeSocket _ _ _ _ _ = x at h ⊢
      by_cases hx : x.status ≠ zkOk
      · rw [if_pos hx]
        exact ⟨rfl, .inr rfl⟩
      · rw [if_neg hx] at h
        exact absurd rfl h
  · rw [if_pos (by simpa using hmem)]
    exact ⟨rfl, .inl rfl⟩

private theorem readSocket_status (null : Bool) (len : Int) (xs : List ReadResult) (r : Int) (mem : Memory)
    (stream : Bytes) (outside : Bool) :
    (readSocket null len xs r mem stream outside).status = zkOk ∨
      (readSocket null len xs r mem stream outside).status = zkSocketErr := by
  induction xs generalizing r mem stream outside with
  | nil =>
    unfold readSocket
    split
    · exact .inr rfl
    · exact .inl rfl
  | cons x xs ih =>
    unfold readSocket
    split
    · cases x with
      | eof => exact .inr rfl
      | fail errno =>
        dsimp only
        split
        · exact .inr rfl
        · exact ih ..
      | bytes n =>
        dsimp only
        split
        · exact .inr rfl
        · split
          · exact .inr rfl
          · exact ih ..
    · exact .inl rfl

theorem recvFrame_setErr (w : World) (e : Int) :
    (w.setErr e).recvFrame H =
      ((w.recvFrame H).1, if (w.recvFrame H).1.isSome then (w.recvFrame H).2.setErr e else (w.recvFrame H).2) := by
  have hread : ∀ (null : Bool) (len : Int) (v : World),
      readSocket null len (v.setErr e).reads 0 (fun i => H.junk i.toNat) (v.setErr e).stream false =
        readSocket null len v.reads 0 (fun i => H.junk i.toNat) v.stream false := fun _ _ _ => rfl
  unfold recvFrame
  rw [nextPoll_setErr]
  rcases w.nextPoll with ⟨p, w₁⟩
  by_cases hwait : waitResult .read p.1 p.2 ≠ zkOk
  · simp only [if_pos hwait]
    rfl
  · simp only [if_neg hwait]
    rw [hread]
    generalize readSocket false 4 w₁.reads 0 (fun i => H.junk i.toNat) w₁.stream false = x
    rw [received_setErr]
    by_cases hx : x.status ≠ zkOk
    · simp only [if_pos hx]
      rfl
    · simp only [if_neg hx]
      rw [hread]
      generalize readSocket _ _ _ _ _ _ _ = y
      rw [received_setErr]
      by_cases hy : y.status ≠ zkOk
      · simp only [if_pos hy]
        rfl
      · simp only [if_neg hy]
        rfl

theorem recvFrame_lastErr {w : World} (h : (w.recvFrame H).1 = none) :
    (w.recvFrame H).2.client.lastErr = zkSocketErr := by
  have herr : ∀ {null : Bool} {len : Int} {xs : List ReadResult} {r : Int} {mem : Memory} {stream : Bytes}
      {outside : Bool}, (readSocket null len xs r mem stream outside).status ≠ zkOk →
      (readSocket null len xs r mem stream outside).status = zkSocketErr := fun hne =>
    (readSocket_status ..).resolve_left hne
  unfold recvFrame nextPoll at h ⊢
  by_cases hwait : waitResult .read (w.polls.headD (0, 0)).1 (w.polls.headD (0, 0)).2 ≠ zkOk
  · simp only [if_pos hwait]
    rfl
  · simp only [if_neg hwait] at h ⊢
    split
    · rename_i hx
      exact herr hx
    · rename_i hx
      simp only [if_neg hx] at h
      split
      · rename_i hy
        exact herr hy
      · rename_i hy
        simp only [if_neg hy] at h
        cases h

end World

/-! ### The course of an operation -/

/-- How far an operation comes, and the world it has reached there. -/
inductive Course where
  | unencoded (rc : Int) (w : World)
  | lost (w : World)
  | unread (w : World)
  | answered (ia : IArchive) (w : World)

def Course.setErr (e : Int) : Course → Course
  | unencoded rc w => unencoded rc (w.setErr e)
  | lost w => lost w
  | unread w => unread (w.setErr e)
  | answered ia w => answered ia (w.setErr e)

variable (H) in
/-- What is known about the ends: the only encoding failure is `-ENOMEM`, and a transfer that fails leaves its status in
`last_err`. -/
def Course.Possible : Course → Prop
  | unencoded rc _ => rc = -enomem
  | lost w => w.client.lastErr = zkError ∨ w.client.lastErr = zkSocketErr
  | unread _ => H.ok .archive 0 = false
  | answered _ _ => H.ok .archive 0 = true

namespace Operation

variable (H) in
/-- An operation up to the archive of its reply. -/
def course (op : Operation) (w : World) : Course :=
  let t := exec H (encodeRequest H op.opcode (op.body H)) w
  if t.1.1 < 0 then .unencoded t.1.1 t.2
  else
    let s := t.2.sendRequest H t.1.2.bytes
    if s.1 ≠ zkOk then .lost s.2
    else match s.2.recvFrame H with
      | (none, w) => .lost w
      | (some (len, buffer), w) =>
        if H.ok .archive 0 then .answered { len, off := 0, buffer } w else .unread w

/-- What the operation makes of the way it has come. -/
theorem run_course (op : Operation) (w : World) :
    exec H (op.run H) w =
      match op.course H w with
      | .unencoded rc w => ((rc, none), w)
      | .lost w => ((w.client.lastErr, none), w)
      | .unread w => ((w.client.lastErr, none), w)
      | .answered ia w => exec H (op.finish H ia) w := by
  rw [exec, run_eq]
  unfold course send encodeAndSend exec
  rw [Prog.run_bind]
  rcases (encodeRequest H op.opcode (op.body H)).run (World.handle H) w with ⟨⟨rc, oa⟩, w₁⟩
  dsimp only
  by_cases hrc : rc < 0
  · have hne : rc ≠ zkOk := by
      intro h
      simp only [zkOk] at h
      omega
    rw [if_pos hrc, if_pos hrc, Prog.run_pure, if_pos hne]
  · rw [if_neg hrc, if_neg hrc, run_sendRequest, World.handle_sendRequest]
    have hlost := World.sendRequest_lastErr (H := H) oa.bytes w₁
    generalize w₁.sendRequest H oa.bytes = sent at hlost
    obtain ⟨status, w₂⟩ := sent
    by_cases hs : status ≠ zkOk
    · rw [if_pos hs, if_pos hs]
      dsimp only
      rw [(hlost hs).1]
    · rw [if_neg hs, if_neg hs, World.handle_recvResponse]
      unfold World.recvResponse
      dsimp only
      rcases w₂.recvFrame H with ⟨_ | ⟨len, buffer⟩, w₃⟩
      · rfl
      · by_cases hok : H.ok .archive 0
        · simp only [hok, if_true]
        · simp only [hok]
          rfl

/-- The way does not depend on `last_err`. -/
theorem course_setErr (op : Operation) (w : World) (e : Int) : op.course H (w.setErr e) = (op.course H w).setErr e := by
  have hframe : (encodeRequest H op.opcode (op.body H)).Only fun eff => eff = .getXid ∨ ∃ f, eff = .undefined f :=
    (plain_encodeRequest (.inl rfl) (fun f => .inr ⟨f, rfl⟩) _ _).only
  have hencode := hframe.run_map (h := World.handle H) (f := fun w => w.setErr e) (s := w) (by
    rintro eff (rfl | ⟨f, rfl⟩) w
    · rfl
    · rfl)
  unfold course exec
  rw [hencode]
  rcases (encodeRequest H op.opcode (op.body H)).run (World.handle H) w with ⟨⟨rc, oa⟩, w₁⟩
  dsimp only
  by_cases hrc : rc < 0
  · rw [if_pos hrc, if_pos hrc]
    rfl
  · rw [if_neg hrc, if_neg hrc, World.sendRequest_setErr]
    rcases w₁.sendRequest H oa.bytes with ⟨status, w₂⟩
    by_cases hs : status = zkOk
    · simp only [hs, if_true, ne_eq, not_true, if_false]
      rw [World.recvFrame_setErr]
      rcases w₂.recvFrame H with ⟨_ | ⟨len, buffer⟩, w₃⟩
      · rfl
      · by_cases hok : H.ok .archive 0
        · simp only [hok, Option.isSome, if_true]
          rfl
        · simp only [hok, Option.isSome, if_true]
          rfl
    · simp only [hs, if_false, ne_eq, not_false_eq_true, if_true]
      rfl

private theorem coded_body (op : Operation) : Coded (op.body H) := by
  have hwatch : ∀ v, Coded (serializeWatchRequest H v) := fun v => coded_record (by simp [coded_string, coded_bool])
  cases op with
  | create path data size flags =>
    have hacl : Coded (serializeAclVector H defaultAcl) := coded_vector _ fun f hf => by
      obtain ⟨v, -, rfl⟩ := List.mem_map.1 hf
      exact coded_acl H v
    exact coded_record (by simp [coded_string, coded_buffer, coded_int, hacl])
  | set path data => exact coded_record (by simp [coded_string, coded_buffer, coded_int])
  | del path => exact coded_record (by simp [coded_string, coded_int])
  | «exists» path | get path | getChildren path => exact hwatch _

private theorem encodeRequest_rc (op : Operation) (w : World) :
    (exec H (encodeRequest H op.opcode (op.body H)) w).1.1 = 0 ∨
      (exec H (encodeRequest H op.opcode (op.body H)) w).1.1 = -enomem := by
  obtain ⟨v, w₁, hadd⟩ : ∃ v w₁, (addRequestHeader H (createBufferOarchive H) op.opcode).run (World.handle H) w =
      (serializeRequestHeader H v (createBufferOarchive H), w₁) := by
    unfold addRequestHeader
    dsimp only
    split
    · exact ⟨_, _, rfl⟩
    · exact ⟨_, _, rfl⟩
  have hheader := coded_requestHeader H v (createBufferOarchive H)
  unfold exec encodeRequest
  rw [Prog.run_bind, hadd]
  generalize serializeRequestHeader H v (createBufferOarchive H) = r at hheader
  obtain ⟨rc, oa⟩ := r
  have hbody := coded_body (H := H) op oa
  by_cases hrc : rc < 0
  · simp only [if_pos hrc, run_ite, Prog.run_bind, Prog.run_pure]
    split <;> exact hheader
  · simp only [if_neg hrc, run_ite, Prog.run_bind, Prog.run_pure]
    split <;> exact hbody

/-- The ends of a way are possible ones. -/
theorem course_possible (op : Operation) (w : World) : (op.course H w).Possible H := by
  unfold course
  dsimp only
  by_cases hrc : (exec H (encodeRequest H op.opcode (op.body H)) w).1.1 < 0
  · rw [if_pos hrc]
    rcases encodeRequest_rc (H := H) op w with h | h
    · omega
    · exact h
  · rw [if_neg hrc]
    generalize exec H (encodeRequest H op.opcode (op.body H)) w = t
    have hlost := World.sendRequest_lastErr (H := H) t.1.2.bytes t.2
    generalize t.2.sendRequest H t.1.2.bytes = sent at hlost ⊢
    by_cases hs : sent.1 ≠ zkOk
    · rw [if_pos hs]
      obtain ⟨herr, hstatus⟩ := hlost hs
      show _ ∨ _
      rwa [herr]
    · rw [if_neg hs]
      have hframe := World.recvFrame_lastErr (H := H) (w := sent.2)
      generalize sent.2.recvFrame H = frame at hframe
      rcases frame with ⟨_ | ⟨len, buffer⟩, w₃⟩
      · exact .inr (hframe rfl)
      · by_cases hok : H.ok .archive 0
        · simp only [hok, if_true]
          exact hok
        · simp only [hok]
          exact eq_false_of_ne_true hok

/-! ### The reply -/

variable (H) in
/-- The error that `decode_reply_header` returns. -/
def headerErr (ia : IArchive) : Int :=
  let d := deserializeReplyHeader ia (uninitReplyHeader H)
  if d.rc < 0 then zkError else d.val.err.toInt

variable (H) in
/-- The return code of the decoder behind the header, for the operations that return a failure for it. -/
def recordRc (op : Operation) (ia : IArchive) : Int :=
  let ia := (deserializeReplyHeader ia (uninitReplyHeader H)).ia
  match op with
  | create .. => (deserializeCreateResponse H ia ⟨none⟩).rc
  | set .. => (deserializeSetDataResponse ia ⟨uninitStat H⟩).rc
  | _ => 0

private theorem exec_decodeReplyHeader (ia : IArchive) (w : World) :
    ∃ w', (decodeReplyHeader H ia).run (World.handle H) w =
        ((headerErr H ia, (deserializeReplyHeader ia (uninitReplyHeader H)).ia), w') ∧
      w'.client.lastErr = headerErr H ia := by
  unfold decodeReplyHeader
  rw [Prog.run_bind, run_decode]
  exact ⟨_, rfl, rfl⟩

private theorem decodeReplyHeader_setErr (ia : IArchive) (w : World) (e : Int) :
    (decodeReplyHeader H ia).run (World.handle H) (w.setErr e) = (decodeReplyHeader H ia).run (World.handle H) w := by
  unfold decodeReplyHeader
  rw [Prog.run_bind (s := w), Prog.run_bind (s := w.setErr e), run_decode, run_decode]
  cases (deserializeReplyHeader ia (uninitReplyHeader H)).oob <;> rfl

/-- Once there is a reply, the run does not depend on what `last_err` was. -/
theorem finish_setErr (op : Operation) (ia : IArchive) (w : World) (e : Int) :
    exec H (op.finish H ia) (w.setErr e) = exec H (op.finish H ia) w := by
  obtain ⟨k, -, hk⟩ := finish_eq_bind (H := H) op
  unfold exec
  rw [hk, Prog.run_bind, Prog.run_bind, decodeReplyHeader_setErr]

/-- A reply leaves the error of its header in `last_err`. -/
theorem finish_lastErr (op : Operation) (ia : IArchive) (w : World) :
    (exec H (op.finish H ia) w).2.client.lastErr = headerErr H ia := by
  obtain ⟨k, hk, hfinish⟩ := finish_eq_bind (H := H) op
  obtain ⟨w', hhead, herr⟩ := exec_decodeReplyHeader (H := H) ia w
  rw [exec, hfinish, Prog.run_bind, hhead]
  refine (hk _).run_inv (I := fun v : World => v.client.lastErr = headerErr H ia) ?_ herr
  rintro e ⟨f, rfl⟩ v hv
  exact hv

/-- The status that a reply leads to. -/
theorem finish_status (op : Operation) (ia : IArchive) (w : World) :
    (exec H (op.finish H ia) w).1.1 =
      if headerErr H ia ≠ 0 then op.status (headerErr H ia)
      else if op.recordRc H ia < 0 then zkError else op.status 0 := by
  obtain ⟨w', hhead, -⟩ := exec_decodeReplyHeader (H := H) ia w
  by_cases hne : headerErr H ia ≠ 0
  · rw [exec, run_finish_error hhead hne, if_pos hne]
  · rw [if_neg hne]
    rw [not_not] at hne
    rw [hne] at hhead
    cases op with
    | create path data size flags =>
      simp only [finish, finishCreate, run_afterHeader, Prog.run_bind, hhead, ne_eq, not_true, if_false, run_decode,
        Prog.run_pure, run_ite, status, recordRc]
      split <;> rfl
    | set path data =>
      simp only [finish, finishSet, run_afterHeader, Prog.run_bind, hhead, ne_eq, not_true, if_false, run_decode,
        Prog.run_pure, status, recordRc]
      rfl
    | «exists» path =>
      simp only [finish, finishExists, Prog.run_bind, hhead]
      simp [status, recordRc]
      split <;> rfl
    | get path =>
      simp [finish, finishGet, run_afterHeader, hhead, status, recordRc]
      split <;> rfl
    | del path => simp [finish, finishDel, run_afterHeader, hhead, status, recordRc]
    | getChildren path =>
      simp [finish, finishGetChildren, run_afterHeader, hhead, status, recordRc]
      split
      · rfl
      · split <;> rfl

/-! ### Operations that report -/

variable (H) in
/-- The operation on this world can be encoded, gets the memory for its reply, and does not fail behind a header that
reports no error. -/
structure Clear (op : Operation) (w : World) : Prop where
  encoded : ∀ rc w', op.course H w ≠ .unencoded rc w'
  memory : ∀ w', op.course H w ≠ .unread w'
  record : ∀ ia w', op.course H w = .answered ia w' → headerErr H ia = 0 → 0 ≤ op.recordRc H ia

/-- The failure that a status stands for: `zk_exists` answers 0 for a missing node. -/
def failure (op : Operation) (status : Int) : Option Int :=
  match op with
  | .exists _ => if status = 1 then none else some (if status = 0 then zNoNode else status)
  | _ => if status = zkOk then none else some status

/-- A clear operation runs the same whatever `last_err` was. -/
theorem Clear.run_setErr {op : Operation} {w : World} (h : op.Clear H w) (e : Int) :
    exec H (op.run H) (w.setErr e) = exec H (op.run H) w := by
  rw [run_course, run_course, course_setErr]
  cases hc : op.course H w with
  | unencoded rc w' => exact absurd hc (h.encoded rc w')
  | lost w' => rfl
  | unread w' => exact absurd hc (h.memory w')
  | answered ia w' => exact finish_setErr op ia w' e

/-- How a clear operation ends: a transfer has failed, or the reply decides the status. -/
theorem Clear.cases {op : Operation} {w : World} (h : op.Clear H w) :
    let r := exec H (op.run H) w
    (r.1.1 = r.2.client.lastErr ∧ (r.1.1 = zkError ∨ r.1.1 = zkSocketErr)) ∨
      (r.1.1 = op.status r.2.client.lastErr ∧ H.ok .archive 0 = true) := by
  intro r
  have hpossible := course_possible (H := H) op w
  have hrun : r = _ := run_course op w
  cases hc : op.course H w with
  | unencoded rc w' => exact absurd hc (h.encoded rc w')
  | unread w' => exact absurd hc (h.memory w')
  | lost w' =>
    rw [hc] at hpossible hrun
    rw [hrun]
    exact .inl ⟨rfl, hpossible⟩
  | answered ia w' =>
    rw [hc] at hpossible hrun
    rw [hrun]
    refine .inr ⟨?_, hpossible⟩
    dsimp only
    rw [finish_status, finish_lastErr]
    by_cases hne : headerErr H ia ≠ 0
    · rw [if_pos hne]
    · rw [not_not] at hne
      have hrc : ¬ op.recordRc H ia < 0 := by
        have := h.record ia w' hc hne
        omega
      rw [hne, if_neg (not_not.2 rfl), if_neg hrc]

/-- How an operation that is not clear ends: it could not be encoded and leaves `last_err` alone, it answers the
`last_err` that it has found, or it fails behind a header that has set `last_err` to 0. -/
theorem not_clear_cases {op : Operation} {w : World} (h : ¬ op.Clear H w) :
    (∃ w' : World, ∀ e, exec H (op.run H) (w.setErr e) = ((-enomem, none), w'.setErr e)) ∨
      (H.ok .archive 0 = false ∧ ∃ w' : World, ∀ e, exec H (op.run H) (w.setErr e) = ((e, none), w'.setErr e)) ∨
      ∀ e, (exec H (op.run H) (w.setErr e)).1.1 = zkError ∧
        (exec H (op.run H) (w.setErr e)).2.client.lastErr = 0 := by
  have hpossible := course_possible (H := H) op w
  have hrun := fun e => run_course (H := H) op (w.setErr e)
  simp only [course_setErr] at hrun
  cases hc : op.course H w with
  | unencoded rc w' =>
    rw [hc] at hpossible
    obtain rfl : rc = -enomem := hpossible
    exact .inl ⟨w', fun e => by rw [hrun, hc]; rfl⟩
  | lost w' => exact absurd ⟨by simp [hc], by simp [hc], by simp [hc]⟩ h
  | unread w' =>
    rw [hc] at hpossible
    exact .inr (.inl ⟨hpossible, w', fun e => by rw [hrun, hc]; rfl⟩)
  | answered ia w' =>
    obtain ⟨hzero, hrc⟩ : headerErr H ia = 0 ∧ op.recordRc H ia < 0 := by
      by_contra hnot
      refine h ⟨by simp [hc], by simp [hc], fun ia' w₁ hc' hzero => ?_⟩
      obtain ⟨rfl, -⟩ := Course.answered.inj (hc.symm.trans hc')
      by_contra hneg
      exact hnot ⟨hzero, not_le.1 hneg⟩
    refine .inr (.inr fun e => ?_)
    rw [hrun, hc]
    simp only [Course.setErr]
    rw [finish_status, finish_lastErr, hzero, if_neg (not_not.2 rfl), if_pos hrc]
    exact ⟨rfl, rfl⟩

theorem failure_of_ne (op : Operation) {s : Int} (hzero : s ≠ 0) (hone : s ≠ 1) : op.failure s = some s := by
  cases op with
  | «exists» path => simp [Operation.failure, hzero, hone]
  | create path data size flags | get path | set path data | del path | getChildren path =>
    simp [Operation.failure, hzero]

private theorem failure_status {op : Operation} {err s : Int} (h : op.failure (op.status err) = some s) :
    err = s ∧ s ≠ 0 := by
  cases op with
  | «exists» path =>
    by_cases hzero : err = 0
    · simp [Operation.failure, status, hzero] at h
    · by_cases hnode : err = zNoNode
      · simp [Operation.failure, status, hnode] at h
        subst h
        exact ⟨hnode, by decide⟩
      · simp only [status, if_neg hzero, if_neg hnode, Operation.failure] at h
        split at h
        · cases h
        · simp only [Option.some.injEq] at h
          subst h
          exact ⟨rfl, hzero⟩
  | create path data size flags | get path | set path data | del path | getChildren path =>
    by_cases hzero : err = 0
    · simp [Operation.failure, status, hzero] at h
    · simp [Operation.failure, status, hzero] at h
      subst h
      exact ⟨rfl, hzero⟩

/-- A failed status of a clear operation is in `last_err`. -/
theorem Clear.lastErr_eq {op : Operation} {w : World} (h : op.Clear H w) {s : Int}
    (hs : op.failure (exec H (op.run H) w).1.1 = some s) :
    (exec H (op.run H) w).2.client.lastErr = s ∧ s ≠ 0 := by
  rcases h.cases with ⟨herr, hstatus⟩ | ⟨hstatus, -⟩
  · rw [failure_of_ne op (by rcases hstatus with h | h <;> rw [h] <;> decide)
      (by rcases hstatus with h | h <;> rw [h] <;> decide), Option.some.injEq] at hs
    rw [← herr, hs]
    refine ⟨rfl, ?_⟩
    rcases hstatus with h | h <;> rw [← hs, h] <;> decide
  · rw [hstatus] at hs
    exact failure_status hs

/-- Over all values that `last_err` may have had, an operation that is not clear fails with a status that is not in
`last_err`, or it takes the value that it has found there for its status, and 0 for a success. -/
theorem not_clear_misreports {op : Operation} {w : World} (h : ¬ op.Clear H w) :
    (∃ e s, op.failure (exec H (op.run H) (w.setErr e)).1.1 = some s ∧
      (exec H (op.run H) (w.setErr e)).2.client.lastErr ≠ s) ∨
      op.failure 0 = none ∧ ∀ e, (exec H (op.run H) (w.setErr e)).1.1 = e := by
  rcases not_clear_cases h with ⟨w', hrun⟩ | ⟨-, w', hrun⟩ | hrun
  · refine .inl ⟨0, -enomem, ?_, ?_⟩
    · rw [hrun]
      exact failure_of_ne op (s := -enomem) (by decide) (by decide)
    · rw [hrun]
      exact show (0 : Int) ≠ -enomem by decide
  · cases op with
    | «exists» path =>
      refine .inl ⟨0, zNoNode, ?_, ?_⟩
      · rw [hrun]
        rfl
      · rw [hrun]
        exact show (0 : Int) ≠ zNoNode by decide
    | create path data size flags | get path | set path data | del path | getChildren path =>
      exact .inr ⟨rfl, fun e => by rw [hrun]⟩
  · refine .inl ⟨0, zkError, ?_, ?_⟩
    · rw [(hrun 0).1, failure_of_ne op (by decide) (by decide)]
    · rw [(hrun 0).2]
      decide

/-- Where the archive of a reply gets its memory, an operation that is not clear fails with a status that is not in
`last_err`, unless it was there before. -/
theorem not_clear_status {op : Operation} {w : World} (h : ¬ op.Clear H w) (hok : H.ok .archive 0 = true)
    (herr : w.client.lastErr ≠ -enomem) :
    let r := exec H (op.run H) w
    (r.1.1 = -enomem ∨ r.1.1 = zkError) ∧ r.2.client.lastErr ≠ r.1.1 := by
  intro r
  have hw : w.setErr w.client.lastErr = w := rfl
  rcases not_clear_cases h with ⟨w', hrun⟩ | ⟨hno, -⟩ | hrun
  · have hr : r = _ := hrun w.client.lastErr
    rw [hr]
    exact ⟨.inl rfl, herr⟩
  · rw [hok] at hno
    cases hno
  · obtain ⟨hstatus, hzero⟩ := hrun w.client.lastErr
    rw [hw] at hstatus hzero
    rw [show r.1.1 = _ from hstatus, show r.2.client.lastErr = _ from hzero]
    exact ⟨.inr rfl, by decide⟩

end Operation

end ZkClient
