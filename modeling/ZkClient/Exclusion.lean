import ZkClient.Quiet
import ZkClient.LastErr

/-!
# Mutual exclusion on the connection

The command thread and the ping thread over `c->lock`, with any outcome of every transfer.  A call locks and unlocks in
turn as long as it does not meet a `goto ERROR` behind its own unlock, and is not `zk_del`, which unlocks where its
siblings lock; `Job.locking` says so for every call.  In a run without these steps only one thread is between the start
of `send_request` and the return of `recv_response`, and whoever unlocks has the lock (`sharing_exclusive`).
-/

namespace ZkClient

open Pthread

/-- A call of the command thread. -/
inductive Call where
  | create (path data : Option Bytes) (size flags : Int32)
  | mkdir (path : Option Bytes)
  | exists (path : Option Bytes) (stat : Bool)
  | get (path : Option Bytes) (data : Bool)
  | set (path : Option Bytes) (data : Buffer)
  | del (path : Option Bytes)
  | getChildren (path : Option Bytes)
  deriving DecidableEq, Repr

/-- What a thread takes up, with the memory that it meets. -/
inductive Job where
  | call (H : Heap) (c : Call)
  | ping (H : Heap)

/-- A call; its results do not matter here. -/
def Call.run (H : Heap) : Call → Zk Bool
  | create path data size flags => do
    let _ ← zkCreate H path data size flags
    return true
  | mkdir path => do
    let _ ← zkMkdir H path
    return true
  | .exists path stat => do
    let _ ← zkExists H path stat
    return true
  | get path data => do
    let _ ← zkGet H path data
    return true
  | set path data => do
    let _ ← zkSet H path data
    return true
  | del path => do
    let _ ← zkDel H path
    return true
  | getChildren path => do
    let _ ← zkGetChildren H path
    return true

def Job.prog : Job → Zk Bool
  | call H c => c.run H
  | ping H => do
    let _ ← zkPing H
    return true

/-- The command thread is thread 0 and the ping thread is thread 1; every answer is possible. -/
def sharing : System Eff Eff.Resp Job Unit where
  prog := Job.prog
  takes t j := match j with
    | .call _ _ => t = 0
    | .ping _ => t = 1
  effect _ _ _ _ := [()]
  cancelPoint _ := false

/-- Both threads are between two calls. -/
def sharingStart : State Eff Eff.Resp Job Unit where
  threads t := if t < 2 then .idle else .gone
  owner := none
  cancelled _ := false
  fresh := 2
  shared := ()

/-- Between the start of `send_request` and the return of `recv_response`. -/
def exchanging {J : Type} : Thread Eff Eff.Resp J → Bool
  | .inside _ (.sendRequest _) _ => true
  | .ready _ (.op .recvResponse _) => true
  | .inside _ .recvResponse _ => true
  | _ => false

/-- One thread at most is exchanging, and a thread that is about to unlock has the lock. -/
structure Exclusive (s : State Eff Eff.Resp Job Unit) : Prop where
  exchange : ∀ t u, exchanging (s.threads t) → exchanging (s.threads u) → t = u
  unlock : ∀ t j k, s.threads t = .ready j (.unlock k) → s.owner = some t

/-- The operations between `send_request` and `recv_response`. -/
def Eff.Transfers : Eff → Prop
  | sendRequest _ => True
  | recvResponse => True
  | _ => False

/-! ### Programs that lock and unlock in turn -/

section Locking

variable {α β : Type} {H : Heap} {ok : (e : Eff) → e.Resp → Prop} {held : Bool}

theorem locking_op {Q : α → Bool → Prop} {e : Eff} {k : e.Resp → Zk α} (he : e.Transfers → held = true)
    (hk : ∀ r, ok e r → (k r).Follows (.locking ok Eff.Transfers) Q held) :
    (Prog.op e k).Follows (.locking ok Eff.Transfers) Q held := by
  refine ⟨held, ⟨he, rfl⟩, ?_⟩
  rintro r h ⟨hr, rfl⟩
  exact hk r hr

private theorem locking_quiet {Q : α → Bool → Prop} {p : Zk α} (hp : Quiet p) (hQ : ∀ a, Q a held) :
    p.Follows (.locking ok Eff.Transfers) Q held := by
  refine hp.follows (fun e he => ⟨⟨fun htransfers => ?_, rfl⟩, fun r h hleave => hleave.2⟩) hQ
  cases e with
  | sendRequest payload => exact he.elim
  | recvResponse => exact he.elim
  | _ => exact htransfers.elim

private theorem locking_undefined_bind {Q : α → Bool → Prop} {f : Fault} {p : Unit → Zk α}
    (hp : (p ()).Follows (.locking ok Eff.Transfers) Q held) :
    (@bind Zk _ Unit α (perform (.undefined f)) p).Follows (.locking ok Eff.Transfers) Q held :=
  locking_op False.elim fun _ _ => hp

private theorem locking_decode {σ : Type} (r : Reader σ) (ia : IArchive) (v : σ) :
    (decode r ia v).Follows (.locking ok Eff.Transfers) (fun d h => d = r ia v ∧ h = held) held := by
  unfold decode
  exact Prog.follows_ite (fun _ => locking_undefined_bind ⟨rfl, rfl⟩) fun _ => ⟨rfl, rfl⟩

/-- The reply of an exchange is one that the answers allow. -/
private theorem locking_exchange (rc : Int) (oa : OArchive) :
    (exchange rc oa).Follows (.locking ok Eff.Transfers)
      (fun x h => h = true ∧ ∀ ia, x = .inr ia → ok .recvResponse (some ia)) true := by
  have hsent : ∀ rc : Int, (awaitReply rc).Follows (.locking ok Eff.Transfers)
      (fun x h => h = true ∧ ∀ ia, x = .inr ia → ok .recvResponse (some ia)) true := by
    intro rc
    refine Prog.follows_ite (fun _ => ⟨rfl, by simp⟩) fun _ => locking_op (fun _ => rfl) fun r hr => ?_
    cases r with
    | none => exact locking_op False.elim fun c _ => ⟨rfl, by simp⟩
    | some ia =>
      refine ⟨rfl, fun ia' hia => ?_⟩
      cases hia
      exact hr
  rw [exchange_eq]
  exact Prog.follows_ite (fun _ => hsent rc) fun _ => locking_op (fun _ => rfl) fun rc _ => hsent rc

private theorem locking_decodeReplyHeader (ia : IArchive) :
    (decodeReplyHeader H ia).Follows (.locking ok Eff.Transfers)
      (fun x h => x = (Operation.headerErr H ia, (deserializeReplyHeader ia (uninitReplyHeader H)).ia) ∧ h = held)
      held := by
  unfold decodeReplyHeader
  refine (locking_decode _ ia _).bind ?_
  rintro d h ⟨rfl, rfl⟩
  exact locking_op False.elim fun _ _ => ⟨rfl, rfl⟩

private theorem locking_request {Q : β → Bool → Prop} {opcode : Int32} {body : OArchive → Int × OArchive}
    {fail : Int → β} {finish : IArchive → Zk β} (hfail : ∀ err, Q (fail err) false)
    (hfinish : ∀ ia, ok .recvResponse (some ia) → (finish ia).Follows (.locking ok Eff.Transfers) Q false) :
    (request H opcode body lock fail finish).Follows (.locking ok Eff.Transfers) Q false := by
  unfold request
  refine (locking_quiet (Q := fun _ h => h = false) (quiet_encodeRequest opcode body) fun _ => rfl).bind ?_
  rintro ⟨rc, oa⟩ h rfl
  refine ⟨true, ⟨rfl, rfl⟩, (locking_exchange rc oa).bind ?_⟩
  rintro x h ⟨rfl, hx⟩
  cases x with
  | inl err => exact ⟨false, ⟨rfl, rfl⟩, hfail err⟩
  | inr ia => exact ⟨false, ⟨rfl, rfl⟩, hfinish ia (hx ia rfl)⟩

private theorem locking_afterHeader {Q : β → Bool → Prop} {fail : Int → β} {finish : IArchive → Zk β} {ia : IArchive}
    (herr : Operation.headerErr H ia = 0)
    (hfinish : (finish (deserializeReplyHeader ia (uninitReplyHeader H)).ia).Follows (.locking ok Eff.Transfers) Q
      held) :
    (afterHeader H fail finish ia).Follows (.locking ok Eff.Transfers) Q held := by
  unfold afterHeader
  refine (locking_decodeReplyHeader ia).bind ?_
  rintro x h ⟨rfl, rfl⟩
  exact Prog.follows_ite (fun hne => absurd herr hne) fun _ => hfinish

/-- `zk_mkdir` follows the discipline when each of its creates does. -/
private theorem locking_mkdir {create : Bytes → Zk Int} {undefined : Zk Unit}
    (hcreate : ∀ path, (create path).Follows (.locking ok Eff.Transfers) (fun _ h => h = false) false)
    (hundef : undefined.Follows (.locking ok Eff.Transfers) (fun _ h => h = false) false) (path : Bytes) :
    (zkMkdirWith create undefined path).Follows (.locking ok Eff.Transfers) (fun _ h => h = false) false := by
  induction hlen : path.length using Nat.strongRecOn generalizing path with
  | _ n ih =>
    subst hlen
    rw [zkMkdirWith_eq]
    refine (hcreate path).bind ?_
    rintro status h rfl
    refine Prog.follows_ite (fun _ => ?_) fun _ => rfl
    cases hpos : strrchr path slash with
    | none =>
      refine hundef.bind ?_
      rintro - h rfl
      rfl
    | some pos =>
      have hlt := strrchr_lt hpos
      refine (ih (path.take pos).length (by rw [List.length_take]; omega) (path.take pos) rfl).bind ?_
      rintro status h rfl
      exact Prog.follows_ite (fun _ => hcreate path) fun _ => rfl

end Locking

/-! ### Calls -/

/-- The reply `ia` does not send the call to `ERROR` behind its unlock. -/
def Call.Accepts (H : Heap) (c : Call) (ia : IArchive) : Prop :=
  let err := Operation.headerErr H ia
  let record := (deserializeReplyHeader ia (uninitReplyHeader H)).ia
  match c with
  | .exists _ _ => err = 0 ∨ err = zNoNode
  | .get _ _ => err = 0 ∧ 0 ≤ (deserializeGetDataResponse H record ⟨uninitBuffer H, uninitStat H⟩).rc
  | .getChildren _ => err = 0 ∧ 0 ≤ (deserializeGetChildrenResponse H record ⟨⟨H.int, none⟩⟩).rc
  | _ => err = 0

/-- The answers that do not send the job to `ERROR` behind its unlock. -/
def Job.Accepts : Job → (e : Eff) → e.Resp → Prop
  | .call H c, .recvResponse, some ia => c.Accepts H ia
  | _, _, _ => True

/-- `zk_del` does not lock; with a null path it returns at once. -/
def Job.Locks : Job → Prop
  | .call _ (.del (some _)) => False
  | _ => True

section

variable {H : Heap} {ok : (e : Eff) → e.Resp → Prop}

private theorem locking_create (hok : ∀ ia, ok .recvResponse (some ia) → Operation.headerErr H ia = 0)
    (path data : Option Bytes) (size flags : Int32) :
    (zkCreate H path data size flags).Follows (.locking ok Eff.Transfers) (fun _ h => h = false) false := by
  refine Prog.follows_ite (fun _ => rfl) fun _ => ?_
  refine locking_request (fun _ => rfl) fun ia hia => locking_afterHeader (hok ia hia) ?_
  refine (locking_decode _ _ _).bind ?_
  rintro d h ⟨rfl, rfl⟩
  exact Prog.follows_ite (fun _ => locking_undefined_bind rfl) fun _ => rfl

private theorem locking_exists
    (hok : ∀ ia, ok .recvResponse (some ia) → Operation.headerErr H ia = 0 ∨ Operation.headerErr H ia = zNoNode)
    (path : Option Bytes) (stat : Bool) :
    (zkExists H path stat).Follows (.locking ok Eff.Transfers) (fun _ h => h = false) false := by
  refine Prog.follows_ite (fun _ => rfl) fun _ => locking_request (fun _ => rfl) fun ia hia => ?_
  unfold finishExists
  refine (locking_decodeReplyHeader ia).bind ?_
  rintro x h ⟨rfl, rfl⟩
  refine Prog.follows_ite (fun hne => ?_) fun _ => Prog.follows_ite (fun _ => rfl) fun _ => ?_
  · rcases hok ia hia with herr | herr
    · exact absurd herr hne.1
    · exact absurd herr hne.2
  · refine (locking_decode _ _ _).bind ?_
    rintro d h ⟨rfl, rfl⟩
    exact Prog.follows_ite (fun _ => locking_undefined_bind rfl) fun _ => rfl

private theorem locking_get
    (hok : ∀ ia, ok .recvResponse (some ia) → (Call.get none true).Accepts H ia) (path : Option Bytes) (data : Bool) :
    (zkGet H path data).Follows (.locking ok Eff.Transfers) (fun _ h => h = false) false := by
  refine Prog.follows_ite (fun _ => rfl) fun _ => locking_request (fun _ => rfl) fun ia hia => ?_
  obtain ⟨herr, hrc⟩ := hok ia hia
  refine locking_afterHeader herr ((locking_decode _ _ _).bind ?_)
  rintro d h ⟨rfl, rfl⟩
  exact Prog.follows_ite (fun hneg => absurd hneg (not_lt.2 hrc)) fun _ => rfl

private theorem locking_set (hok : ∀ ia, ok .recvResponse (some ia) → Operation.headerErr H ia = 0)
    (path : Option Bytes) (data : Buffer) :
    (zkSet H path data).Follows (.locking ok Eff.Transfers) (fun _ h => h = false) false := by
  refine Prog.follows_ite (fun _ => rfl) fun _ => ?_
  refine locking_request (fun _ => rfl) fun ia hia => locking_afterHeader (hok ia hia) ?_
  refine (locking_decode _ _ _).bind ?_
  rintro d h ⟨rfl, rfl⟩
  rfl

private theorem locking_getChildren
    (hok : ∀ ia, ok .recvResponse (some ia) → (Call.getChildren none).Accepts H ia) (path : Option Bytes) :
    (zkGetChildren H path).Follows (.locking ok Eff.Transfers) (fun _ h => h = false) false := by
  refine Prog.follows_ite (fun _ => rfl) fun _ => locking_request (fun _ => rfl) fun ia hia => ?_
  obtain ⟨herr, hrc⟩ := hok ia hia
  refine locking_afterHeader herr ((locking_decode _ _ _).bind ?_)
  rintro d h ⟨rfl, rfl⟩
  refine Prog.follows_ite (fun hneg => absurd hneg (not_lt.2 hrc)) fun _ => ?_
  exact Prog.follows_ite (fun _ => locking_undefined_bind rfl) fun _ => rfl

private theorem locking_doHeaderRequest (opcode : Int32) :
    (doHeaderRequest H opcode).Follows (.locking ok Eff.Transfers) (fun _ h => h = true) true := by
  refine (locking_quiet (Q := fun _ h => h = true) (quiet_encodeRequest opcode _) fun _ => rfl).bind ?_
  rintro ⟨rc, oa⟩ h rfl
  refine Prog.Follows.bind (locking_exchange rc oa) ?_
  rintro x h ⟨rfl, -⟩
  cases x with
  | inl err => rfl
  | inr ia =>
    refine Prog.Follows.bind (locking_decodeReplyHeader ia) ?_
    rintro x h ⟨rfl, rfl⟩
    rfl

/-- A ping follows the discipline whatever the answers. -/
theorem locking_ping : (zkPing H).Follows (.locking ok Eff.Transfers) (fun _ h => h = false) false := by
  unfold zkPing
  generalize pingOpcode = opcode
  refine ⟨true, ⟨rfl, rfl⟩, (locking_doHeaderRequest opcode).bind ?_⟩
  rintro rc h rfl
  exact ⟨false, ⟨rfl, rfl⟩, rfl⟩

end

/-- The jobs that lock follow the discipline. -/
theorem Job.locking {j : Job} (hj : j.Locks) :
    j.prog.Follows (.locking j.Accepts Eff.Transfers) (fun _ h => h = false) false := by
  have hend : ∀ {α : Type} {p : Zk α}, p.Follows (.locking j.Accepts Eff.Transfers) (fun _ h => h = false) false →
      (do
        let _ ← p
        return true : Zk Bool).Follows (.locking j.Accepts Eff.Transfers) (fun _ h => h = false) false := by
    intro α p hp
    refine hp.bind ?_
    rintro a h rfl
    rfl
  cases j with
  | ping H => exact hend locking_ping
  | call H c =>
    cases c with
    | create path data size flags => exact hend (locking_create (fun _ h => h) path data size flags)
    | mkdir path =>
      refine hend ?_
      unfold zkMkdir
      cases path with
      | none => exact locking_create (fun _ h => h) none none 0 0
      | some path =>
        refine locking_mkdir (fun path => locking_create (fun _ h => h) _ _ _ _) ?_ path
        exact locking_op False.elim fun _ _ => rfl
    | «exists» path stat => exact hend (locking_exists (fun _ h => h) path stat)
    | get path data => exact hend (locking_get (fun _ h => h) path data)
    | set path data => exact hend (locking_set (fun _ h => h) path data)
    | del path =>
      cases path with
      | none => exact rfl
      | some path => exact hj.elim
    | getChildren path => exact hend (locking_getChildren (fun _ h => h) path)

/-! ### Runs -/

/-- The step takes up no `zk_del`, and the reply that it brings a call does not send it to `ERROR`. -/
def Undisturbed (s : State Eff Eff.Resp Job Unit) : Act Eff Eff.Resp Job → Prop
  | .take _ j => j.Locks
  | .answer t e r _ => ∀ j k, s.threads t = .inside j e k → j.Accepts e r
  | _ => True

/-- In a run of undisturbed steps the threads exclude each other and unlock only what they have locked. -/
theorem sharing_exclusive {s : State Eff Eff.Resp Job Unit} (hrun : sharing.Run Undisturbed sharingStart s) :
    Exclusive s := by
  have hstart : System.Disciplined Job.Accepts Eff.Transfers sharingStart := by
    refine ⟨fun t => ?_, fun _ => rfl⟩
    show Thread.Follows _ _ (if t < 2 then .idle else .gone) _
    split <;> rfl
  have hs := hrun.disciplined hstart (fun s t j hj => Job.locking hj) fun s t e r i j k hcond hth => hcond j k hth
  have howner : ∀ t, exchanging (s.threads t) → s.owner = some t := by
    intro t ht
    unfold exchanging at ht
    split at ht
    · rename_i j payload k hth
      exact hs.owner_of_inside hth trivial
    · rename_i j k hth
      exact hs.owner_of_ready hth trivial
    · rename_i j k hth
      exact hs.owner_of_inside hth trivial
    · cases ht
  refine ⟨fun t u ht hu => ?_, fun t j k hth => hs.owner_of_unlock hth⟩
  exact Option.some.inj ((howner t ht).symm.trans (howner u hu))

/-- Steps that do not disturb: pings and calls of `zk_exists`, which get replies without an error. -/
private def calmSteps (s : State Eff Eff.Resp Job Unit) (a : Act Eff Eff.Resp Job) : Bool :=
  match a with
  | .take _ (.ping _) => true
  | .take _ (.call _ (.exists _ _)) => true
  | .take _ _ => false
  | .answer t .recvResponse (some ia) _ =>
    match s.threads t with
    | .inside (.call H (.exists _ _)) _ _ => Operation.headerErr H ia = 0
    | _ => false
  | _ => true

private theorem undisturbed_of_calm {s : State Eff Eff.Resp Job Unit} {a : Act Eff Eff.Resp Job}
    (h : calmSteps s a = true) : Undisturbed s a := by
  cases a with
  | take t j =>
    cases j with
    | ping H => trivial
    | call H c =>
      cases c with
      | «exists» path stat => trivial
      | _ => cases h
  | answer t e r i =>
    intro j k hth
    cases e with
    | recvResponse =>
      cases r with
      | none => cases j <;> trivial
      | some ia =>
        simp only [calmSteps, hth] at h
        cases j with
        | ping H => trivial
        | call H c =>
          cases c with
          | «exists» path stat => exact .inl (by simpa using h)
          | _ => cases h
    | _ => cases j <;> trivial
  | go t => trivial
  | die t => trivial

/-- The request of `zk_exists` for `/a`, and the header of the reply to it. -/
private def existsRequest : Bytes := [0, 0, 0, 1, 0, 0, 0, 3, 0, 0, 0, 2, 47, 97, 0]
private def existsReply : Bytes := [0, 0, 0, 1, 0, 0, 0, 0, 0, 0, 0, 0, 0, 0, 0, 0]

/-- A ping waits while a call exchanges its messages; then the call goes on with the reply, and the ping sends. -/
theorem sharing_exclusive_ping :
    ∃ s, sharing.Run Undisturbed sharingStart s ∧ (s.threads 0).job.isSome ∧ exchanging (s.threads 1) ∧ Exclusive s := by
  let acts : List (Act Eff Eff.Resp Job) :=
    [.take 0 (.call .plenty (.exists (some [47, 97]) false)), .go 0, .answer 0 .getXid 1 0, .take 1 (.ping .plenty), .go 0,
      .go 0, .answer 0 (.sendRequest existsRequest) zkOk 0, .go 0,
      .answer 0 .recvResponse (some (archiveAt existsReply 0)) 0, .go 0, .go 1, .go 1]
  have hbeside : (sharing.runActs calmSteps acts sharingStart).any
      fun s => (s.threads 0).job.isSome && exchanging (s.threads 1) := by decide +kernel
  obtain ⟨s, hs, hboth⟩ := (Option.any_eq_true _ _).1 hbeside
  rw [Bool.and_eq_true] at hboth
  have hrun : sharing.Run Undisturbed sharingStart s := .of_acts (fun s a ha => undisturbed_of_calm ha) .start hs
  exact ⟨s, hrun, hboth.1, hboth.2, sharing_exclusive hrun⟩

/-- `delete /a` while a ping is under way: `zk_del` frees the lock of the ping and sends its own request. -/
theorem del_enters_ping : ¬ ∀ s, sharing.Run (fun _ _ => True) sharingStart s → Exclusive s := by
  intro hall
  let acts : List (Act Eff Eff.Resp Job) :=
    [.take 1 (.ping .plenty), .go 1, .go 1, .take 0 (.call .plenty (.del (some [47, 97]))), .go 0,
      .answer 0 .getXid 1 0, .go 0, .go 0]
  have hboth : (sharing.runActs (fun _ _ => true) acts sharingStart).any
      fun s => exchanging (s.threads 0) && exchanging (s.threads 1) := by decide +kernel
  obtain ⟨s, hs, hexch⟩ := (Option.any_eq_true _ _).1 hboth
  rw [Bool.and_eq_true] at hexch
  cases (hall s (.of_acts (fun _ _ _ => trivial) .start hs)).exchange 0 1 hexch.1 hexch.2

end ZkClient
