import ZkClient.Transfer

/-!
# Request operations

The six operations behind the commands as one family (`Operation`): what an operation sends, and what it does with the
archive of the reply (`Operation.finish`).  `Operation.run_eq` says how a run of an operation is put together from
these parts; it holds for every operation and any surroundings.
-/

namespace ZkClient

open Pthread

/-! ### Running programs -/

section Run

variable {α σ : Type} (h : Handler σ) (s : σ)

@[simp] theorem run_lock : lock.run h s = ((), s) := rfl

@[simp] theorem run_unlock : unlock.run h s = ((), s) := rfl

@[simp] theorem run_trylock : trylock.run h s = (true, s) := rfl

@[simp] theorem run_getXid : @Prog.run Eff Eff.Resp Int32 σ h (perform .getXid) s = h .getXid s := rfl

@[simp] theorem run_load : @Prog.run Eff Eff.Resp Client σ h (perform .load) s = h .load s := rfl

@[simp] theorem run_store (u : Update) :
    @Prog.run Eff Eff.Resp Unit σ h (perform (.store u)) s = ((), (h (.store u) s).2) := rfl

@[simp] theorem run_sendRequest (payload : Bytes) :
    @Prog.run Eff Eff.Resp Int σ h (perform (.sendRequest payload)) s = h (.sendRequest payload) s := rfl

@[simp] theorem run_recvResponse :
    @Prog.run Eff Eff.Resp (Option IArchive) σ h (perform .recvResponse) s = h .recvResponse s := rfl

@[simp] theorem run_close (fd : Int) :
    @Prog.run Eff Eff.Resp Unit σ h (perform (.close fd)) s = ((), (h (.close fd) s).2) := rfl

@[simp] theorem run_printf (fmt : String) (args : List Arg) :
    @Prog.run Eff Eff.Resp Unit σ h (perform (.printf fmt args)) s = ((), (h (.printf fmt args) s).2) := rfl

@[simp] theorem run_undefined (f : Fault) :
    @Prog.run Eff Eff.Resp Unit σ h (perform (.undefined f)) s = ((), (h (.undefined f) s).2) := rfl

@[simp] theorem run_ite (c : Prop) [Decidable c] (p q : Zk α) :
    (if c then p else q).run h s = if c then p.run h s else q.run h s := by
  split <;> rfl

@[simp] theorem run_decode {τ : Type} (r : Reader τ) (ia : IArchive) (v : τ) :
    (decode r ia v).run h s =
      (r ia v, if (r ia v).oob then (h (.undefined (.outOfBounds "archive")) s).2 else s) := by
  simp only [decode, Prog.run_bind, run_ite, Prog.run_pure, run_undefined]
  split <;> rfl

end Run

section Only

variable {α : Type} {ok : Eff → Prop}

@[simp] theorem only_undefined_bind (x : Fault) (f : Unit → Zk α) :
    (@bind Zk _ Unit α (perform (.undefined x)) f).Only ok ↔ ok (.undefined x) ∧ (f ()).Only ok :=
  and_congr_right fun _ => ⟨fun h => h (), fun h _ => h⟩

@[simp] theorem only_store_bind (u : Update) (f : Unit → Zk α) :
    (@bind Zk _ Unit α (perform (.store u)) f).Only ok ↔ ok (.store u) ∧ (f ()).Only ok :=
  and_congr_right fun _ => ⟨fun h => h (), fun h _ => h⟩

@[simp] theorem only_lock_bind (f : Unit → Zk α) : (lock >>= f).Only ok ↔ (f ()).Only ok := Iff.rfl

@[simp] theorem only_unlock_bind (f : Unit → Zk α) : (unlock >>= f).Only ok ↔ (f ()).Only ok := Iff.rfl

theorem only_decode {σ : Type} (hundef : ∀ f, ok (.undefined f)) (r : Reader σ) (ia : IArchive) (v : σ) :
    (decode r ia v).Only ok := by
  simp [decode, hundef]

/-- What a program cannot perform does not occur in its log. -/
theorem filterMap_log {σ β : Type} {h : Handler σ} {f : Event → Option β} {p : Zk α} (hp : p.Only ok)
    (hf : ∀ x, ok x.1 → f x = none) (s : σ) : (p.log h s).filterMap f = [] :=
  List.filterMap_eq_nil_iff.2 fun x hx => hf x (hp.log hx)

end Only

/-! ### The course of a request -/

section Course

variable {β σ : Type} {H : Heap} (h : Handler σ)

/-- The sending half of a request. -/
def encodeAndSend (H : Heap) (opcode : Int32) (body : OArchive → Int × OArchive) : Zk Int := do
  let (rc, oa) ← encodeRequest H opcode body
  if rc < 0 then return rc else perform (.sendRequest oa.bytes)

theorem run_encodeAndSend {opcode : Int32} {body : OArchive → Int × OArchive} {s s₁ : σ} {oa : OArchive}
    (he : (encodeRequest H opcode body).run h s = ((0, oa), s₁)) :
    (encodeAndSend H opcode body).run h s = h (.sendRequest oa.bytes) s₁ := by
  unfold encodeAndSend
  rw [Prog.run_bind, he]
  rfl

private theorem run_exchange {rc : Int} {oa : OArchive} {s : σ} :
    (exchange rc oa).run h s =
      let t := (if rc < 0 then pure rc else perform (.sendRequest oa.bytes) : Zk Int).run h s
      if t.1 ≠ zkOk then (.inl t.1, t.2)
      else match h .recvResponse t.2 with
        | (some ia, s₂) => (.inr ia, s₂)
        | (none, s₂) => (.inl (h .load s₂).1.lastErr, (h .load s₂).2) := by
  by_cases hrc : rc < 0
  · have hne : rc ≠ 0 := by omega
    simp [exchange, hrc, hne]
  · simp only [exchange, if_neg hrc, Prog.run_bind, run_sendRequest]
    by_cases hs : (h (.sendRequest oa.bytes) s).1 = zkOk
    · simp only [hs, ne_eq, not_true, if_false, Prog.run_bind, run_recvResponse]
      rcases h .recvResponse (h (.sendRequest oa.bytes) s).2 with ⟨_ | ia, s₂⟩ <;> simp
    · simp only [ne_eq, hs, not_false_eq_true, if_true, Prog.run_pure]

/-- The course of a request, as a function of what sending and receiving give. -/
theorem run_request {opcode : Int32} {body : OArchive → Int × OArchive} {enter : Zk Unit} {fail : Int → β}
    {finish : IArchive → Zk β} (henter : ∀ s, enter.run h s = ((), s)) (s : σ) :
    (request H opcode body enter fail finish).run h s =
      let t := (encodeAndSend H opcode body).run h s
      if t.1 ≠ zkOk then (fail t.1, t.2)
      else match h .recvResponse t.2 with
        | (some ia, s₂) => (finish ia).run h s₂
        | (none, s₂) => (fail (h .load s₂).1.lastErr, (h .load s₂).2) := by
  simp only [request, encodeAndSend, Prog.run_bind, henter, run_exchange]
  rcases (encodeRequest H opcode body).run h s with ⟨⟨rc, oa⟩, s₀⟩
  rcases (if rc < 0 then pure rc else perform (.sendRequest oa.bytes) : Zk Int).run h s₀ with ⟨rc', s₁⟩
  by_cases hrc : rc' = zkOk
  · simp only [hrc, ne_eq, not_true, if_false]
    rcases h .recvResponse s₁ with ⟨_ | ia, s₂⟩ <;> simp
  · simp only [ne_eq, hrc, not_false_eq_true, if_true, Prog.run_bind, run_unlock, Prog.run_pure]

theorem run_afterHeader (fail : Int → β) (finish : IArchive → Zk β) (ia : IArchive) (s : σ) :
    (afterHeader H fail finish ia).run h s =
      let t := (decodeReplyHeader H ia).run h s
      if t.1.1 ≠ 0 then (fail t.1.1, t.2) else (finish t.1.2).run h t.2 := by
  simp only [afterHeader, Prog.run_bind, run_ite, run_unlock, Prog.run_pure]

end Course

/-! ### Operations -/

/-- A request operation on a path. -/
inductive Operation where
  | create (path : Bytes) (data : Option Bytes) (size flags : Int32)
  | exists (path : Bytes)
  | get (path : Bytes)
  | set (path : Bytes) (data : Buffer)
  | del (path : Bytes)
  | getChildren (path : Bytes)
  deriving DecidableEq, Repr

/-- What an operation stores for its caller. -/
inductive Output where
  | stat (v : Stat)
  | data (v : Buffer)
  | children (v : StringVector)
  deriving DecidableEq, Repr

namespace Operation

def path : Operation → Bytes
  | create path _ _ _ | .exists path | get path | set path _ | del path | getChildren path => path

def opcode : Operation → Int32
  | create .. => createOpcode
  | .exists _ => existsOpcode
  | get _ => getdataOpcode
  | set .. => setdataOpcode
  | del _ => deleteOpcode
  | getChildren _ => getchildrenOpcode

section

variable (H : Heap)

/-- The status of an operation and what it has stored. -/
def run : Operation → Zk (Int × Option Output)
  | create path data size flags => do
    let status ← zkCreate H (some path) data size flags
    return (status, none)
  | .exists path => do
    let (status, stat) ← zkExists H (some path) true
    return (status, stat.map .stat)
  | get path => do
    let (status, data) ← zkGet H (some path) true
    return (status, data.map .data)
  | set path data => do
    let status ← zkSet H (some path) data
    return (status, none)
  | del path => do
    let status ← zkDel H (some path)
    return (status, none)
  | getChildren path => do
    let (status, children) ← zkGetChildren H (some path)
    return (status, children.map .children)

/-- The writer of the request record. -/
def body : Operation → OArchive → Int × OArchive
  | create path data size flags => serializeCreateRequest H ⟨some path, createValue data size, defaultAcl, flags⟩
  | .exists path => serializeExistsRequest H ⟨some path, 0⟩
  | get path => serializeGetDataRequest H ⟨some path, 0⟩
  | set path data => serializeSetDataRequest H ⟨some path, data, -1⟩
  | del path => serializeDeleteRequest H ⟨some path, -1⟩
  | getChildren path => serializeGetChildrenRequest H ⟨some path, 0⟩

/-- The sending half. -/
def send (op : Operation) : Zk Int := encodeAndSend H op.opcode (op.body H)

/-- The receiving half, from the archive of the reply on. -/
def finish : Operation → IArchive → Zk (Int × Option Output)
  | create .., ia => do
    let status ← finishCreate H ia
    return (status, none)
  | .exists _, ia => do
    let (status, stat) ← finishExists H true ia
    return (status, stat.map .stat)
  | get _, ia => do
    let (status, data) ← finishGet H ia
    return (status, data.map .data)
  | set .., ia => do
    let status ← finishSet H ia
    return (status, none)
  | del _, ia => do
    let status ← finishDel H ia
    return (status, none)
  | getChildren _, ia => do
    let (status, children) ← finishGetChildren H ia
    return (status, children.map .children)

variable {H} {σ : Type} (h : Handler σ)

/-- The course of an operation, as a function of what sending and receiving give. -/
theorem run_eq (op : Operation) (s : σ) :
    (op.run H).run h s =
      let t := (op.send H).run h s
      if t.1 ≠ zkOk then ((t.1, none), t.2)
      else match h .recvResponse t.2 with
        | (some ia, s₂) => (op.finish H ia).run h s₂
        | (none, s₂) => (((h .load s₂).1.lastErr, none), (h .load s₂).2) := by
  rcases hs : (op.send H).run h s with ⟨rc, s₁⟩
  -- the result of the source function, turned into a status and an output by `g`
  have hcourse : ∀ {β : Type} (enter : Zk Unit) (fail : Int → β) (finish : IArchive → Zk β)
      (g : β → Int × Option Output), (∀ s, enter.run h s = ((), s)) → (∀ err, g (fail err) = (err, none)) →
      (do return g (← request H op.opcode (op.body H) enter fail finish) : Zk _).run h s =
        if rc ≠ zkOk then ((rc, none), s₁)
        else match h .recvResponse s₁ with
          | (some ia, s₂) => (do return g (← finish ia) : Zk _).run h s₂
          | (none, s₂) => (((h .load s₂).1.lastErr, none), (h .load s₂).2) := by
    intro β enter fail finish g henter hg
    simp only [send] at hs
    simp only [Prog.run_bind, Prog.run_pure, run_request h henter, hs]
    by_cases hrc : rc = zkOk
    · simp only [hrc, ne_eq, not_true, if_false]
      rcases h .recvResponse s₁ with ⟨_ | ia, s₂⟩ <;> simp only [hg]
    · simp only [ne_eq, hrc, not_false_eq_true, if_true, hg]
  cases op with
  | create path data size flags => exact hcourse lock id (finishCreate H) (·, none) (run_lock h) fun _ => rfl
  | «exists» path =>
    exact hcourse lock (·, none) (finishExists H true) (fun r => (r.1, r.2.map .stat)) (run_lock h) fun _ => rfl
  | get path =>
    exact hcourse lock (·, none) (finishGet H) (fun r => (r.1, r.2.map .data)) (run_lock h) fun _ => rfl
  | set path data => exact hcourse lock id (finishSet H) (·, none) (run_lock h) fun _ => rfl
  | del path => exact hcourse unlock id (finishDel H) (·, none) (run_unlock h) fun _ => rfl
  | getChildren path =>
    exact hcourse lock (·, none) (finishGetChildren H) (fun r => (r.1, r.2.map .children)) (run_lock h) fun _ => rfl

/-- Behind the header of the reply, an operation has no effects. -/
theorem finish_eq_bind (op : Operation) :
    ∃ k : Int × IArchive → Zk (Int × Option Output), (∀ x, (k x).Only fun e => ∃ f, e = .undefined f) ∧
      ∀ ia, op.finish H ia = decodeReplyHeader H ia >>= k := by
  have hundef : ∀ f, ∃ f', Eff.undefined f = .undefined f' := fun f => ⟨f, rfl⟩
  -- `g` turns the result of the source function into a status and an output
  have hafter : ∀ {β : Type} (fail : Int → β) (finish : IArchive → Zk β) (g : β → Int × Option Output),
      (∀ ia, (finish ia).Only fun e => ∃ f, e = .undefined f) →
      ∃ k : Int × IArchive → Zk (Int × Option Output), (∀ x, (k x).Only fun e => ∃ f, e = .undefined f) ∧
        ∀ ia, (do return g (← afterHeader H fail finish ia) : Zk _) = decodeReplyHeader H ia >>= k := by
    intro β fail finish g hf
    refine ⟨_, fun ⟨err, ia⟩ => ?_, fun ia => Prog.bind_assoc _ _ _⟩
    refine Prog.Only.bind ?_ fun _ => trivial
    simp [hf]
  cases op with
  | create path data size flags =>
    refine hafter id _ (·, none) fun ia => (only_decode hundef _ _ _).bind fun d => ?_
    simp
  | «exists» path =>
    refine ⟨_, fun ⟨err, ia⟩ => ?_, fun ia => Prog.bind_assoc _ _ _⟩
    refine Prog.Only.bind ?_ fun _ => trivial
    simp only [Prog.only_ite, only_unlock_bind, Prog.only_pure, implies_true, true_and]
    exact fun _ _ => (only_decode hundef _ _ _).bind fun d => by simp
  | get path =>
    refine hafter (·, none) _ (fun r => (r.1, r.2.map .data)) fun ia => (only_decode hundef _ _ _).bind fun d => ?_
    simp
  | set path data => exact hafter id _ (·, none) fun ia => (only_decode hundef _ _ _).bind fun d => by simp
  | del path => exact hafter id _ (·, none) fun ia => trivial
  | getChildren path =>
    refine hafter (·, none) _ (fun r => (r.1, r.2.map .children)) fun ia =>
      (only_decode hundef _ _ _).bind fun d => ?_
    simp

/-- After the reply has arrived, an operation only writes `lastErr`, whatever the reply. -/
theorem only_finish (op : Operation) (ia : IArchive) {ok : Eff → Prop} (hstore : ∀ err, ok (.store (.lastErr err)))
    (hundef : ∀ f, ok (.undefined f)) : (op.finish H ia).Only ok := by
  obtain ⟨k, hk, hfinish⟩ := finish_eq_bind (H := H) op
  rw [hfinish]
  refine .bind ((only_decode hundef _ _ _).bind fun d => ?_) fun x => (hk x).mono ?_
  · simp [hstore]
  · rintro e ⟨f, rfl⟩
    exact hundef f

end

end Operation

end ZkClient
