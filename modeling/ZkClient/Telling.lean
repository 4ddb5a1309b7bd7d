import ZkClient.Quiet

/-!
# What a command tells

The functions behind a command line, from their requests up to the status that `processCommand` looks at.  A discipline
knows something of `c->last_err` and of the connection in every phase, and `Telling` lists what it must say about one
request and about reading `c->last_err` so that it speaks of whole commands: the status of an operation tells in which
phases the thread can be after it, and so does the status of a command (`Telling.runCommand`).
-/

namespace ZkClient

open Pthread

/-! ### Requests as they are written -/

/-- The request with the xid that it gets, as `encodeRequest` writes it. -/
def encoded (H : Heap) (opcode : Int32) (body : OArchive → Int × OArchive) (xid : Int32) : Int × OArchive :=
  let r := serializeRequestHeader H { xid, type := opcode } (createBufferOarchive H)
  if r.1 < 0 then r else body r.2

/-- How `processCommand` begins with a command line: it has too few arguments, it asks nothing of the server, or the
request that it sends first. -/
inductive Opening where
  | tooFew
  | still
  | request (opcode : Int32) (body : OArchive → Int × OArchive)

/-- The branches of `runCommand`. -/
def opening (H : Heap) (args : List Bytes) : Opening :=
  let narg := args.length
  let cmd := args.headD []
  let path := (args[1]?).map fun path => stripSlashes path.length path
  let create (data : Option Bytes) (size : Int32) : Opening :=
    .request createOpcode (serializeCreateRequest H ⟨path, createValue data size, defaultAcl, 0⟩)
  let exist : Opening := .request existsOpcode (serializeExistsRequest H ⟨path, 0⟩)
  let data := (args[2]?).getD []
  if cmd = getCmd then if narg < 2 then .tooFew else exist
  else if cmd = createCmd then
    if narg < 2 then .tooFew else create args[2]? (Int32.ofNat ((args[2]?).getD []).length)
  else if cmd = mkdirCmd then if narg < 2 then .tooFew else create none 0
  else if cmd = lsCmd then
    if narg < 2 then .tooFew else .request getchildrenOpcode (serializeGetChildrenRequest H ⟨path, 0⟩)
  else if cmd = statCmd then if narg < 2 then .tooFew else exist
  else if cmd = setCmd then
    if narg < 3 then .tooFew
    else .request setdataOpcode (serializeSetDataRequest H ⟨path, { len := Int32.ofNat data.length, buff := some data }, -1⟩)
  else if cmd = delCmd then
    if narg < 2 then .tooFew else .request deleteOpcode (serializeDeleteRequest H ⟨path, -1⟩)
  else .still

/-! ### The discipline -/

/-- The operations of a command beside its requests: they do not look at the client. -/
def Eff.Silent : Eff → Prop
  | getXid => True
  | printf _ _ => True
  | undefined _ => True
  | _ => False

section

variable {P : Type} {D : Discipline Eff Eff.Resp P} {α β : Type} {φ : P}

/-- In the phase `φ` a thread may lock, unlock and do silent operations, and stays in it. -/
structure Keeps (D : Discipline Eff Eff.Resp P) (φ : P) : Prop where
  lock : D.lock φ φ
  unlock : D.unlock φ φ
  silent : ∀ e, e.Silent → D.enter e φ φ ∧ ∀ r φ', D.leave e r φ φ' → φ' = φ

theorem Keeps.follows (hφ : Keeps D φ) {p : Zk α} (hp : p.Plain Eff.Silent) {Q : α → P → Prop} (hQ : ∀ a, Q a φ) :
    p.Follows D Q φ :=
  hp.follows hφ.silent hQ

theorem Keeps.bind (hφ : Keeps D φ) {p : Zk α} (hp : p.Plain Eff.Silent) {Q : β → P → Prop} {f : α → Zk β}
    (hf : ∀ a, (f a).Follows D Q φ) : (p >>= f).Follows D Q φ := by
  refine Prog.Follows.bind (hφ.follows hp (Q := fun _ φ' => φ' = φ) fun _ => rfl) ?_
  rintro a φ' rfl
  exact hf a

end

/-- After an exchange that fails the thread is told of its status, otherwise its request goes on. -/
def Answered {P : Type} (Begins : P → Prop) (Told : Int → P → Prop) : Int ⊕ IArchive → P → Prop
  | .inl rc, φ => Told rc φ
  | .inr _, φ => Begins φ

/-- What a discipline says about requests.  `Begins` are the phases in which a request can begin, `Encoded` says with
which status its encoding ends there; after a request with the status `rc` the thread is in a phase of `Told rc`, and
after it has read `c->last_err` for the status of a command, in a phase of `Reported` with this status. -/
structure Telling {P : Type} (D : Discipline Eff Eff.Resp P) where
  Begins : P → Prop
  Encoded : P → Int → Prop
  Told : Int → P → Prop
  Reported : Int → P → Prop
  begins : ∀ {φ}, (∀ rc, Told rc φ) → Begins φ ∧ ∀ rc, Encoded φ rc
  keeps : ∀ {φ}, Begins φ → Keeps D φ
  told_keeps : ∀ {rc φ}, Told rc φ → Keeps D φ
  exchanged : ∀ {φ rc} oa, Begins φ → Encoded φ rc → (exchange rc oa).Follows D (Answered Begins Told) φ
  lastErr : ∀ {φ err}, Begins φ → D.enter (.store (.lastErr err)) φ φ ∧
    ∀ r φ', D.leave (.store (.lastErr err)) r φ φ' → Told err φ'
  load : ∀ {rc φ}, Told rc φ → D.enter .load φ φ ∧
    ∀ c φ', D.leave .load c φ φ' → Reported c.lastErr φ' ∧ ∀ rc, Told rc φ → Told rc φ'
  /-- These are the statuses with which a command goes on. -/
  proceeds : ∀ {rc φ}, Told rc φ → rc = zkOk ∨ rc = zNoNode ∨ rc = 1 → ∀ rc, Told rc φ
  reported : ∀ {φ}, (∀ rc, Told rc φ) → Reported zkOk φ

namespace Telling

variable {P : Type} {D : Discipline Eff Eff.Resp P} (T : Telling D) {α β : Type} {H : Heap} {φ : P} {rc : Int}

/-- The status of the last operation says nothing. -/
def Calm (φ : P) : Prop := ∀ rc, T.Told rc φ

/-! ### Requests -/

private theorem silent_fault {c : Prop} [Decidable c] {f : Fault} {p : Zk α} (hp : p.Plain Eff.Silent) :
    (if c then perform (.undefined f) >>= fun _ => p else p).Plain Eff.Silent :=
  plain_fault (fun _ => trivial) hp

private theorem silent_decode {σ : Type} (r : Reader σ) (ia : IArchive) (v : σ) : (decode r ia v).Plain Eff.Silent :=
  plain_decode (fun _ => trivial) r ia v

theorem silent_perform {e : Eff} (he : e.Silent) : (perform e).Plain Eff.Silent := ⟨he, fun _ => trivial⟩

private theorem silent_undefined (f : Fault) (a : α) : (do
    perform (.undefined f)
    return a : Zk α).Plain Eff.Silent :=
  ⟨trivial, fun _ => trivial⟩

private theorem load_bind {Q : α → P → Prop} {k : Client → Zk α} (hφ : T.Told rc φ)
    (hk : ∀ c φ', T.Reported c.lastErr φ' → (∀ rc, T.Told rc φ → T.Told rc φ') → (k c).Follows D Q φ') :
    (Prog.op .load k).Follows D Q φ :=
  ⟨φ, (T.load hφ).1, fun c φ' h => hk c φ' ((T.load hφ).2 c φ' h).1 ((T.load hφ).2 c φ' h).2⟩

private theorem addRequestHeader (hφ : Keeps D φ) (oa : OArchive) (opcode : Int32) :
    (addRequestHeader H oa opcode).Follows D
      (fun r φ' => φ' = φ ∧ ∃ xid, r = serializeRequestHeader H { xid, type := opcode } oa) φ := by
  refine Prog.follows_ite (fun _ => ⟨rfl, -2, rfl⟩) fun _ => ⟨φ, (hφ.silent .getXid trivial).1, fun xid φ' h => ?_⟩
  exact ⟨(hφ.silent .getXid trivial).2 xid φ' h, xid, rfl⟩

private theorem encodeRequest (hφ : T.Begins φ) {opcode : Int32} {body : OArchive → Int × OArchive}
    (henc : ∀ xid, T.Encoded φ (encoded H opcode body xid).1) :
    (encodeRequest H opcode body).Follows D (fun r φ' => φ' = φ ∧ T.Encoded φ r.1) φ := by
  have hheader : ∀ {r : Int × OArchive} {xid : Int32},
      r = serializeRequestHeader H { xid, type := opcode } (createBufferOarchive H) →
      T.Encoded φ (if r.1 < 0 then r else body r.2).1 := by
    intro r xid hr
    have h := henc xid
    unfold encoded at h
    rwa [← hr] at h
  unfold ZkClient.encodeRequest
  generalize createBufferOarchive H = oa at hheader
  refine (addRequestHeader (T.keeps hφ) oa opcode).bind ?_
  rintro ⟨rc, oa⟩ φ' ⟨rfl, xid, hr⟩
  have hx := hheader hr
  dsimp only at hx ⊢
  generalize (if rc < 0 then (rc, oa) else body oa) = x at hx ⊢
  obtain ⟨hfault, hkept⟩ := (T.keeps hφ).silent (.undefined (.outOfBounds "request")) trivial
  exact Prog.follows_ite (fun _ => ⟨φ', hfault, fun r φ h => ⟨hkept r φ h, hx⟩⟩) fun _ => ⟨rfl, hx⟩

theorem decodeReplyHeader (hφ : T.Begins φ) (ia : IArchive) :
    (decodeReplyHeader H ia).Follows D (fun r φ' => T.Told r.1 φ') φ :=
  (T.keeps hφ).bind (silent_decode _ _ _) fun _ => ⟨φ, (T.lastErr hφ).1, (T.lastErr hφ).2⟩

/-- `goto ERROR` behind the header, or go on with a status that says nothing. -/
private theorem afterHeader {g : β → Int} {fail : Int → β} {finish : IArchive → Zk β}
    (hfail : ∀ err, g (fail err) = err)
    (hfinish : ∀ ia φ, T.Calm φ → (finish ia).Follows D (fun b φ' => T.Told (g b) φ') φ) (hφ : T.Begins φ)
    (ia : IArchive) : (afterHeader H fail finish ia).Follows D (fun b φ' => T.Told (g b) φ') φ := by
  refine (T.decodeReplyHeader hφ ia).bind ?_
  rintro ⟨err, ia⟩ φ htold
  refine Prog.follows_ite (fun _ => ⟨φ, (T.told_keeps htold).unlock, ?_⟩) fun herr => hfinish ia φ ?_
  · show T.Told (g (fail err)) φ
    rwa [hfail]
  · exact T.proceeds htold (.inl (not_not.1 herr))

/-- Leave the critical section, to `ERROR` after a failed exchange. -/
private def leave (fail : Int → β) (finish : IArchive → Zk β) : Int ⊕ IArchive → Zk β
  | .inl err => do
    unlock
    return fail err
  | .inr ia => do
    unlock
    finish ia

private theorem follows_leave {g : β → Int} {fail : Int → β} {finish : IArchive → Zk β} (hfail : ∀ err, g (fail err) = err)
    (hfinish : ∀ ia φ, T.Begins φ → (finish ia).Follows D (fun b φ' => T.Told (g b) φ') φ) (x : Int ⊕ IArchive)
    (φ : P) (hx : Answered T.Begins T.Told x φ) : (leave fail finish x).Follows D (fun b φ' => T.Told (g b) φ') φ := by
  cases x with
  | inl err =>
    have htold : T.Told err φ := hx
    refine ⟨φ, (T.told_keeps htold).unlock, ?_⟩
    show T.Told (g (fail err)) φ
    rwa [hfail]
  | inr ia =>
    have hbegins : T.Begins φ := hx
    exact ⟨φ, (T.keeps hbegins).unlock, hfinish ia φ hbegins⟩

/-- The course of a request. -/
private theorem request {g : β → Int} {opcode : Int32} {body : OArchive → Int × OArchive} {enter : Zk Unit}
    {fail : Int → β} {finish : IArchive → Zk β} (hφ : T.Begins φ)
    (henc : ∀ xid, T.Encoded φ (encoded H opcode body xid).1) (henter : enter = lock ∨ enter = unlock)
    (hfail : ∀ err, g (fail err) = err)
    (hfinish : ∀ ia φ, T.Begins φ → (finish ia).Follows D (fun b φ' => T.Told (g b) φ') φ) :
    (request H opcode body enter fail finish).Follows D (fun b φ' => T.Told (g b) φ') φ := by
  unfold ZkClient.request
  refine (T.encodeRequest hφ henc).bind ?_
  rintro ⟨rc, oa⟩ φ ⟨rfl, hrc⟩
  -- the two ways of entering differ in the first step only
  rcases henter with rfl | rfl
  · exact ⟨φ, (T.keeps hφ).lock, (T.exchanged oa hφ hrc).bind (T.follows_leave hfail hfinish)⟩
  · exact ⟨φ, (T.keeps hφ).unlock, (T.exchanged oa hφ hrc).bind (T.follows_leave hfail hfinish)⟩

/-- Unlock behind a failed decoding and return. -/
private theorem unlock_pure {Q : α → P → Prop} {a : α} (hφ : Keeps D φ) (hQ : Q a φ) : (do
    unlock
    return a : Zk α).Follows D Q φ :=
  ⟨φ, hφ.unlock, hQ⟩

private theorem calm_keeps (hφ : T.Calm φ) : Keeps D φ := T.told_keeps (hφ zkOk)

theorem create (hφ : T.Begins φ) {path : Bytes} {data : Option Bytes} {size flags : Int32}
    (henc : ∀ xid, T.Encoded φ (encoded H createOpcode
      (serializeCreateRequest H ⟨some path, createValue data size, defaultAcl, flags⟩) xid).1) :
    (zkCreate H (some path) data size flags).Follows D T.Told φ := by
  refine T.request (g := id) hφ henc (.inl rfl) (fun _ => rfl) fun ia φ hφ => ?_
  refine T.afterHeader (g := id) (fun _ => rfl) ?_ hφ ia
  intro ia φ hφ
  refine (T.calm_keeps hφ).bind (silent_decode _ _ _) fun d => (T.calm_keeps hφ).follows ?_ fun _ => hφ _
  exact silent_fault trivial

theorem exists' (hφ : T.Begins φ) {path : Bytes} (stat : Bool)
    (henc : ∀ xid, T.Encoded φ (encoded H existsOpcode (serializeExistsRequest H ⟨some path, 0⟩) xid).1) :
    (zkExists H (some path) stat).Follows D (fun r φ' => T.Told r.1 φ') φ := by
  refine T.request (g := Prod.fst) hφ henc (.inl rfl) (fun _ => rfl) fun ia φ hφ => ?_
  refine (T.decodeReplyHeader hφ ia).bind ?_
  rintro ⟨err, ia⟩ φ htold
  refine Prog.follows_ite (fun _ => unlock_pure (T.told_keeps htold) htold) fun hgo => ?_
  have hcalm : T.Calm φ := T.proceeds htold (by
    by_cases herr : err = 0
    · exact .inl herr
    · exact .inr (.inl (by_contra fun h => hgo ⟨herr, h⟩)))
  refine Prog.follows_ite (fun _ => hcalm _) fun _ => ?_
  refine (T.calm_keeps hcalm).bind (silent_decode _ _ _) fun d => (T.calm_keeps hcalm).follows ?_ fun _ => hcalm _
  exact silent_fault trivial

theorem get (hφ : T.Begins φ) {path : Bytes}
    (henc : ∀ xid, T.Encoded φ (encoded H getdataOpcode (serializeGetDataRequest H ⟨some path, 0⟩) xid).1) :
    (zkGet H (some path) true).Follows D (fun r φ' => T.Told r.1 φ') φ := by
  refine T.request (g := Prod.fst) hφ henc (.inl rfl) (fun _ => rfl) fun ia φ hφ =>
    T.afterHeader (g := Prod.fst) (fun _ => rfl) ?_ hφ ia
  intro ia φ hφ
  refine (T.calm_keeps hφ).bind (silent_decode _ _ _) fun d => ?_
  exact Prog.follows_ite (fun _ => unlock_pure (T.calm_keeps hφ) (hφ _)) fun _ => hφ _

theorem set (hφ : T.Begins φ) {path : Bytes} {data : Buffer}
    (henc : ∀ xid, T.Encoded φ (encoded H setdataOpcode (serializeSetDataRequest H ⟨some path, data, -1⟩) xid).1) :
    (zkSet H (some path) data).Follows D T.Told φ := by
  refine T.request (g := id) hφ henc (.inl rfl) (fun _ => rfl) fun ia φ hφ => ?_
  refine T.afterHeader (g := id) (fun _ => rfl) ?_ hφ ia
  intro ia φ hφ
  exact (T.calm_keeps hφ).bind (silent_decode _ _ _) fun d => hφ _

theorem del (hφ : T.Begins φ) {path : Bytes}
    (henc : ∀ xid, T.Encoded φ (encoded H deleteOpcode (serializeDeleteRequest H ⟨some path, -1⟩) xid).1) :
    (zkDel H (some path)).Follows D T.Told φ := by
  refine T.request (g := id) hφ henc (.inr rfl) (fun _ => rfl) fun ia φ hφ => ?_
  refine T.afterHeader (g := id) (fun _ => rfl) ?_ hφ ia
  exact fun ia φ hφ => hφ _

theorem getChildren (hφ : T.Begins φ) {path : Bytes}
    (henc : ∀ xid, T.Encoded φ (encoded H getchildrenOpcode (serializeGetChildrenRequest H ⟨some path, 0⟩) xid).1) :
    (zkGetChildren H (some path)).Follows D (fun r φ' => T.Told r.1 φ') φ := by
  refine T.request (g := Prod.fst) hφ henc (.inl rfl) (fun _ => rfl) fun ia φ hφ =>
    T.afterHeader (g := Prod.fst) (fun _ => rfl) ?_ hφ ia
  intro ia φ hφ
  refine (T.calm_keeps hφ).bind (silent_decode _ _ _) fun d => ?_
  refine Prog.follows_ite (fun _ => unlock_pure (T.calm_keeps hφ) (hφ _)) fun _ => ?_
  refine (T.calm_keeps hφ).follows ?_ fun _ => hφ _
  exact silent_fault trivial

/-- When the last operation says nothing, every request can begin. -/
private theorem calm_encoded (hφ : T.Calm φ) {opcode : Int32} {body : OArchive → Int × OArchive} (xid : Int32) :
    T.Encoded φ (encoded H opcode body xid).1 :=
  (T.begins hφ).2 _

theorem mkdir (hφ : T.Begins φ) {path : Bytes}
    (henc : ∀ xid, T.Encoded φ (encoded H createOpcode
      (serializeCreateRequest H ⟨some path, createValue none 0, defaultAcl, 0⟩) xid).1) :
    (zkMkdir H (some path)).Follows D T.Told φ := by
  show (zkMkdirWith (fun path => zkCreate H (some path) none 0 0) _ path).Follows _ _ _
  induction hlen : path.length using Nat.strongRecOn generalizing path φ with
  | _ n ih =>
    subst hlen
    rw [zkMkdirWith_eq]
    refine (T.create hφ henc).bind fun status φ htold => ?_
    refine Prog.follows_ite (fun hstatus => ?_) fun _ => htold
    have hcalm : T.Calm φ := T.proceeds htold (.inr (.inl hstatus))
    cases hpos : strrchr path slash with
    | none => exact (T.calm_keeps hcalm).follows (silent_undefined _ _) fun _ => hcalm _
    | some pos =>
      have hlt := strrchr_lt hpos
      refine (ih (path.take pos).length (by rw [List.length_take]; omega) (T.begins hcalm).1 (T.calm_encoded hcalm)
        rfl).bind ?_
      intro status φ htold
      refine Prog.follows_ite (fun hstatus => ?_) fun _ => htold
      have hcalm : T.Calm φ := T.proceeds htold (.inl hstatus)
      exact T.create (T.begins hcalm).1 (T.calm_encoded hcalm)

/-! ### Commands -/

/-- The status of a command that reports an error is `c->last_err`, which is read again for it. -/
private theorem reportError (fmt : String) (path : Option Bytes) (hφ : T.Told rc φ) :
    (reportError fmt path).Follows D T.Reported φ := by
  refine T.load_bind hφ fun c φ' _ hmono => ?_
  refine (T.told_keeps (hmono rc hφ)).bind (p := perform (.printf _ _)) (silent_perform trivial) fun _ => ?_
  exact T.load_bind (hmono rc hφ) fun c φ'' hreported _ => hreported

/-- Report the error of an operation, or go on when its status is `v`. -/
private theorem report {p : Zk Int} {fmt : String} {path : Option Bytes} {v : Int}
    (hv : v = zkOk ∨ v = zNoNode ∨ v = 1) (hrc : T.Told rc φ) (hp : T.Calm φ → p.Follows D T.Reported φ) :
    (if rc ≠ v then ZkClient.reportError fmt path else p).Follows D T.Reported φ := by
  refine Prog.follows_ite (fun _ => T.reportError fmt path hrc) fun h => hp (T.proceeds hrc ?_)
  rwa [not_not.1 h]

/-- Print and succeed. -/
private theorem success {p : Zk α} (hφ : T.Calm φ) (hp : p.Plain Eff.Silent) :
    (p >>= fun _ => pure zkOk).Follows D T.Reported φ :=
  (T.calm_keeps hφ).bind hp fun _ => T.reported hφ

private theorem silent_entry (v : StringVector) (i : Nat) : (v.entry i).Plain Eff.Silent := by
  unfold StringVector.entry
  split
  · exact silent_undefined _ _
  · split
    · exact silent_undefined _ _
    · exact silent_fault trivial

private theorem silent_printChildren (v : StringVector) (n i : Nat) : (printChildren v n i).Plain Eff.Silent := by
  induction n generalizing i with
  | zero => trivial
  | succ n ih => exact (silent_entry v i).bind fun s => (silent_perform (e := .printf _ _) trivial).bind fun _ => ih (i + 1)

theorem silent_offerChildren (v : StringVector) (typed : Bytes) (n i : Nat) :
    (offerChildren v typed n i).Plain Eff.Silent := by
  induction n generalizing i with
  | zero => trivial
  | succ n ih => exact (silent_entry v i).bind fun s => (ih (i + 1)).bind fun rest => trivial

private theorem createCommand (hφ : T.Begins φ) {path : Bytes} {data : Option Bytes} {size : Int32}
    (henc : ∀ xid, T.Encoded φ (encoded H createOpcode
      (serializeCreateRequest H ⟨some path, createValue data size, defaultAcl, 0⟩) xid).1) :
    (createCommand H (some path) data size).Follows D T.Reported φ := by
  refine (T.create hφ henc).bind fun status φ htold => ?_
  rw [← ite_not]
  exact T.report (.inl rfl) htold fun hcalm => T.success hcalm (silent_perform trivial)

private theorem mkdirCommand (hφ : T.Begins φ) {path : Bytes}
    (henc : ∀ xid, T.Encoded φ (encoded H createOpcode
      (serializeCreateRequest H ⟨some path, createValue none 0, defaultAcl, 0⟩) xid).1) :
    (mkdirCommand H (some path)).Follows D T.Reported φ := by
  refine (T.mkdir hφ henc).bind fun status φ htold => ?_
  rw [← ite_not]
  exact T.report (.inl rfl) htold fun hcalm => T.success hcalm (silent_perform trivial)

private theorem setCommand (hφ : T.Begins φ) {path data : Bytes} {size : Int32} (version : Int)
    (henc : ∀ xid, T.Encoded φ (encoded H setdataOpcode
      (serializeSetDataRequest H ⟨some path, { len := size, buff := some data }, -1⟩) xid).1) :
    (setCommand H (some path) data size version).Follows D T.Reported φ :=
  (T.set hφ henc).bind fun _ _ htold =>
    T.report (.inl rfl) htold fun hcalm => T.success hcalm (silent_perform trivial)

private theorem delCommand (hφ : T.Begins φ) {path : Bytes} (version : Int)
    (henc : ∀ xid, T.Encoded φ (encoded H deleteOpcode (serializeDeleteRequest H ⟨some path, -1⟩) xid).1) :
    (delCommand H (some path) version).Follows D T.Reported φ :=
  (T.del hφ henc).bind fun _ _ htold =>
    T.report (.inl rfl) htold fun hcalm => T.success hcalm (silent_perform trivial)

private theorem lsCommand (hφ : T.Begins φ) {path : Bytes}
    (henc : ∀ xid, T.Encoded φ (encoded H getchildrenOpcode (serializeGetChildrenRequest H ⟨some path, 0⟩) xid).1) :
    (lsCommand H (some path)).Follows D T.Reported φ := by
  refine (T.getChildren hφ henc).bind ?_
  rintro ⟨status, childs⟩ φ htold
  refine T.report (.inl rfl) htold fun hcalm => ?_
  refine (T.calm_keeps hcalm).bind (silent_printChildren _ _ _) fun _ => ?_
  exact Prog.follows_ite (fun _ => T.success hcalm (silent_perform trivial)) fun _ => T.reported hcalm

/-- `if (c) ..` in front of a program, where `..` is undefined behaviour. -/
private theorem fault {Q : α → P → Prop} {c : Prop} [Decidable c] {f : Fault} {p : Zk α} (hφ : T.Calm φ)
    (hp : p.Follows D Q φ) : (if c then perform (.undefined f) >>= fun _ => p else p).Follows D Q φ :=
  Prog.follows_ite
    (fun _ => (T.calm_keeps hφ).bind (p := perform _) (silent_perform (e := .undefined f) trivial) fun _ => hp)
    fun _ => hp

private theorem statCommand (hφ : T.Begins φ) {path : Bytes}
    (henc : ∀ xid, T.Encoded φ (encoded H existsOpcode (serializeExistsRequest H ⟨some path, 0⟩) xid).1) :
    (statCommand H (some path)).Follows D T.Reported φ := by
  refine (T.exists' hφ true henc).bind ?_
  rintro ⟨status, stat⟩ φ htold
  refine Prog.follows_ite (fun _ => T.load_bind htold fun c φ' hreported _ => hreported) fun hone => ?_
  have hcalm : T.Calm φ := T.proceeds htold (.inr (.inr (not_not.1 hone)))
  exact T.fault hcalm (T.success hcalm (silent_perform trivial))

private theorem getCommand (hφ : T.Begins φ) {path : Bytes}
    (henc : ∀ xid, T.Encoded φ (encoded H existsOpcode (serializeExistsRequest H ⟨some path, 0⟩) xid).1) :
    (getCommand H (some path)).Follows D T.Reported φ := by
  refine (T.exists' hφ true henc).bind ?_
  rintro ⟨status, stat⟩ φ htold
  refine T.report (.inr (.inr rfl)) htold fun hcalm => T.fault hcalm (Prog.follows_ite (fun _ => ?_) fun _ => ?_)
  · exact T.success hcalm (silent_perform trivial)
  · refine (T.get (T.begins hcalm).1 (T.calm_encoded hcalm)).bind ?_
    rintro ⟨status, data⟩ φ htold
    refine T.report (.inl rfl) htold fun hcalm => ?_
    dsimp only
    split
    · exact T.success hcalm (p := perform (.undefined _)) (silent_perform trivial)
    · exact T.fault hcalm (T.success hcalm (silent_perform trivial))

/-- A command line with this beginning can run from the phase `φ` on. -/
def Allows (H : Heap) (φ : P) : Opening → Prop
  | .tooFew => True
  | .still => Keeps D φ
  | .request opcode body => T.Begins φ ∧ ∀ xid, T.Encoded φ (encoded H opcode body xid).1

/-- What is known after a command line with this beginning that has run from the phase `φ` on. -/
def Outcome (φ : P) : Opening → Option Int → P → Prop
  | .tooFew, r, φ' => r = none ∧ φ' = φ
  | .still, r, φ' => r = some zkOk ∧ φ' = φ
  | .request _ _, r, φ' => ∃ status, r = some status ∧ T.Reported status φ'

/-- The command of a line, which needs `n` words. -/
private theorem line {args : List Bytes} {n : Nat} {opcode : Int32} {body : OArchive → Int × OArchive} {p : Zk Int}
    (hn : 2 ≤ n) (hφ : T.Allows H φ (if args.length < n then .tooFew else .request opcode body))
    (hp : ∀ word, args[1]? = some word → T.Begins φ → (∀ xid, T.Encoded φ (encoded H opcode body xid).1) →
      p.Follows D T.Reported φ) :
    (if args.length < n then pure none else do return some (← p) : Zk (Option Int)).Follows D
      (T.Outcome φ (if args.length < n then .tooFew else .request opcode body)) φ := by
  by_cases hlt : args.length < n
  · rw [if_pos hlt, if_pos hlt]
    exact ⟨rfl, rfl⟩
  · rw [if_neg hlt] at hφ
    rw [if_neg hlt, if_neg hlt]
    obtain ⟨word, hword⟩ : ∃ word, args[1]? = some word := ⟨args[1], List.getElem?_eq_getElem (by omega)⟩
    exact (hp word hword hφ.1 hφ.2).bind fun status φ' h => ⟨status, rfl, h⟩

/-- A command line, from its first word to the status that `processCommand` looks at. -/
theorem runCommand (args : List Bytes) (hφ : T.Allows H φ (opening H args)) :
    (runCommand H args).Follows D (T.Outcome φ (opening H args)) φ := by
  unfold opening at hφ ⊢
  unfold ZkClient.runCommand
  dsimp only at hφ ⊢
  by_cases hget : args.headD [] = getCmd
  · simp only [if_pos hget] at hφ ⊢
    refine T.line le_rfl hφ fun word hword hbegins henc => ?_
    rw [hword] at henc ⊢
    exact T.getCommand hbegins henc
  simp only [if_neg hget] at hφ ⊢
  by_cases hcreate : args.headD [] = createCmd
  · simp only [if_pos hcreate] at hφ ⊢
    refine T.line le_rfl hφ fun word hword hbegins henc => ?_
    rw [hword] at henc ⊢
    exact T.createCommand hbegins henc
  simp only [if_neg hcreate] at hφ ⊢
  by_cases hmkdir : args.headD [] = mkdirCmd
  · simp only [if_pos hmkdir] at hφ ⊢
    refine T.line le_rfl hφ fun word hword hbegins henc => ?_
    rw [hword] at henc ⊢
    exact T.mkdirCommand hbegins henc
  simp only [if_neg hmkdir] at hφ ⊢
  by_cases hls : args.headD [] = lsCmd
  · simp only [if_pos hls] at hφ ⊢
    refine T.line le_rfl hφ fun word hword hbegins henc => ?_
    rw [hword] at henc ⊢
    exact T.lsCommand hbegins henc
  simp only [if_neg hls] at hφ ⊢
  by_cases hstat : args.headD [] = statCmd
  · simp only [if_pos hstat] at hφ ⊢
    refine T.line le_rfl hφ fun word hword hbegins henc => ?_
    rw [hword] at henc ⊢
    exact T.statCommand hbegins henc
  simp only [if_neg hstat] at hφ ⊢
  by_cases hset : args.headD [] = setCmd
  · simp only [if_pos hset] at hφ ⊢
    refine T.line (Nat.le_succ 2) hφ fun word hword hbegins henc => ?_
    rw [hword] at henc ⊢
    exact T.setCommand hbegins _ henc
  simp only [if_neg hset] at hφ ⊢
  by_cases hdel : args.headD [] = delCmd
  · simp only [if_pos hdel] at hφ ⊢
    refine T.line le_rfl hφ fun word hword hbegins henc => ?_
    rw [hword] at henc ⊢
    exact T.delCommand hbegins _ henc
  simp only [if_neg hdel] at hφ ⊢
  -- `quit`, and a word that is no command
  have hkeeps : Keeps D φ := hφ
  refine Prog.follows_ite (fun _ => ⟨rfl, rfl⟩) fun _ => ?_
  exact hkeeps.bind (silent_perform (e := .printf _ _) trivial) fun _ => ⟨rfl, rfl⟩

end Telling

end ZkClient
