import ZkClient.Replies
import ZkClient.Quiet

/-!
# What `get` prints

`zk_get` leaves the data in a block of exactly `data.len` bytes, and `getCommand` writes a terminator behind it to print
the block as a string.  `fetch` is the part of `getCommand` up to the reply and `printData` the rest.  The terminator is
never inside the block, whatever the length, and the string is the data exactly when this has no NUL.
-/

namespace ZkClient

open Pthread

/-! ### What a run tells -/

/-- The answer of `recv_response` in an event. -/
def Event.answer? : Event → Option (Option IArchive)
  | ⟨.recvResponse, r⟩ => some r
  | _ => none

/-- What an event prints. -/
def Event.print? : Event → Option (String × List Arg)
  | ⟨.printf fmt args, _⟩ => some (fmt, args)
  | _ => none

/-- The undefined behaviour that an event reports. -/
def Event.fault? : Event → Option Fault
  | ⟨.undefined f, _⟩ => some f
  | _ => none

/-- The last reply that a run has received. -/
def lastReply (log : List Event) : Option IArchive := ((log.filterMap Event.answer?).getLast?).join

/-- What a run prints. -/
def prints (log : List Event) : List (String × List Arg) := log.filterMap Event.print?

/-- The undefined behaviours of a run. -/
def faults (log : List Event) : List Fault := log.filterMap Event.fault?

/-! ### `getCommand` in two parts -/

/-- `getCommand` up to its get request: what this has left in `data`, when it succeeds. -/
def fetch (H : Heap) (path : Option Bytes) : Zk (Option (Option Buffer)) := do
  let (status, stat) ← zkExists H path true
  if status ≠ 1 then return none
  else do
    if stat.isNone then perform (.undefined (.readUnassigned "stat"))
    if (stat.getD (uninitStat H)).dataLength = 0 then return none
    else do
      let (status, data) ← zkGet H path true
      return if status ≠ zkOk then none else some data

/-- `data.buff[data.len] = '\0'; printf("%s\n", data.buff);` -/
def printData (data : Buffer) : Zk Unit :=
  match data.buff with
  | none => perform (.undefined (.nullPointer "data.buff"))
  | some bs => do
    if ¬ (0 ≤ data.len.toInt ∧ data.len.toInt < bs.length) then perform (.undefined (.outOfBounds "data.buff"))
    perform (.printf "%s\n" [.bytes ((bs.take data.len.toInt.toNat).takeWhile (· ≠ 0))])

variable {σ : Type} {H : Heap} {h : Handler σ} {path : Option Bytes} {s s₂ : σ} {data : Option Buffer}

/-! ### The get request -/

/-- A block from the decoder is not longer than its length says. -/
private theorem buffer_block (ia : IArchive) (v : GetDataResponse) {d : Decoded GetDataResponse}
    (hd : iaDeserializeBuffer H "data" GetDataResponse.data (fun x v => { v with data := x }) ia v = d) :
    d.rc < 0 ∨ d.rc = 0 ∧ ∀ bs, d.val.data.buff = some bs → bs.length ≤ d.val.data.len.toInt.toNat := by
  subst hd
  have hint : ∀ d, iaDeserializeInt (.len "data")
      (fun n (v : GetDataResponse) => { v with data := { v.data with len := n } }) ia v = d → d.rc < 0 ∨ d.rc = 0 := by
    rintro d rfl
    unfold iaDeserializeInt iaFixed
    split
    · exact .inl (show -e2big < 0 by decide)
    · exact .inr rfl
  unfold iaDeserializeBuffer
  dsimp only
  generalize hfirst : iaDeserializeInt _ _ ia v = first
  by_cases hrc : first.rc < 0
  · rw [if_pos hrc]
    exact .inl hrc
  rw [if_neg hrc]
  split
  · exact .inl (show -e2big < 0 by decide)
  split
  · exact .inr ⟨(hint first hfirst).resolve_left hrc, fun bs hbs => by cases hbs⟩
  split
  · refine .inr ⟨rfl, fun bs hbs => ?_⟩
    obtain rfl := Option.some.inj hbs
    exact List.length_take_le _ _
  · exact .inl (show -enomem < 0 by decide)

private theorem response_block {ia : IArchive} {v : GetDataResponse} (hrc : 0 ≤ (deserializeGetDataResponse H ia v).rc)
    {bs : Bytes} (hbs : (deserializeGetDataResponse H ia v).val.data.buff = some bs) :
    bs.length ≤ (deserializeGetDataResponse H ia v).val.data.len.toInt.toNat := by
  have hstat : ∀ ia (v : GetDataResponse), (readRecord [deserializeStat.into GetDataResponse.stat
      fun x v => { v with stat := x }] ia v).val.data = v.data := by
    intro ia v
    unfold readRecord
    dsimp only
    split <;> rfl
  obtain ⟨d, hd⟩ : ∃ d, iaDeserializeBuffer H "data" GetDataResponse.data (fun x v => { v with data := x }) ia v = d :=
    ⟨_, rfl⟩
  unfold deserializeGetDataResponse readRecord at hrc hbs ⊢
  rw [hd] at hrc hbs ⊢
  dsimp only at hrc hbs ⊢
  rcases buffer_block ia v hd with hneg | ⟨hzero, hblock⟩
  · rw [if_pos (by omega)] at hrc
    omega
  · rw [if_neg (not_not.2 hzero)] at hbs ⊢
    rw [hstat] at hbs ⊢
    exact hblock bs hbs

/-- What `zk_get` makes of a reply. -/
private theorem finishGet_block {ia : IArchive} {s s₂ : σ} {d : Buffer}
    (hget : (finishGet H ia).run h s = ((zkOk, some d), s₂)) {bs : Bytes} (hbs : d.buff = some bs) :
    bs.length ≤ d.len.toInt.toNat := by
  unfold finishGet at hget
  rw [run_afterHeader] at hget
  dsimp only at hget
  split at hget
  · obtain ⟨hpair, -⟩ := Prod.mk.inj hget
    cases (Prod.mk.inj hpair).2
  · rw [Prog.run_bind, run_decode] at hget
    dsimp only at hget
    split at hget
    · obtain ⟨hpair, -⟩ := Prod.mk.inj hget
      cases (Prod.mk.inj hpair).2
    · rename_i hrc
      obtain ⟨hpair, -⟩ := Prod.mk.inj hget
      obtain rfl := Option.some.inj (Prod.mk.inj hpair).2
      exact response_block (not_lt.1 hrc) hbs

/-- Everything but receiving and printing. -/
private def Eff.Inward : Eff → Prop
  | recvResponse => False
  | printf _ _ => False
  | _ => True

private theorem answer_inward : ∀ x : Event, x.1.Inward → x.answer? = none := by
  rintro ⟨e, r⟩ hx
  cases e with
  | recvResponse => exact hx.elim
  | _ => rfl

private theorem inward_finishGet (ia : IArchive) : (finishGet H ia).Only Eff.Inward := by
  have hundef : ∀ f, (Eff.undefined f).Inward := fun f => trivial
  have hheader : (decodeReplyHeader H ia).Only Eff.Inward :=
    (only_decode hundef _ _ _).bind fun d => ⟨trivial, fun _ => trivial⟩
  refine hheader.bind fun ⟨err, ia⟩ => Prog.only_ite.2 ⟨fun _ => trivial, fun _ => ?_⟩
  exact (only_decode hundef _ _ _).bind fun d => Prog.only_ite.2 ⟨fun _ => trivial, fun _ => trivial⟩

/-- What an exchange gives and which answer of `recv_response` it is, if it gets there. -/
private inductive Asked (h : Handler σ) (p : Zk (Int ⊕ IArchive)) (s : σ) : Prop
  | unsent (err : Int) (s' : σ) (hrun : p.run h s = (.inl err, s')) (hlog : (p.log h s).filterMap Event.answer? = [])
      (herr : err ≠ zkOk)
  | lost (err : Int) (s' : σ) (hrun : p.run h s = (.inl err, s')) (hlog : (p.log h s).filterMap Event.answer? = [none])
  | answered (ia : IArchive) (s' : σ) (hrun : p.run h s = (.inr ia, s'))
      (hlog : (p.log h s).filterMap Event.answer? = [some ia])

private theorem asked (rc : Int) (oa : OArchive) (s : σ) : Asked h (exchange rc oa) s := by
  have hawait : ∀ (rc : Int) (s : σ), Asked h (awaitReply rc) s := by
    intro rc s
    unfold awaitReply
    by_cases hrc : rc ≠ zkOk
    · rw [if_pos hrc]
      exact .unsent rc s rfl rfl hrc
    · rw [if_neg hrc]
      have hrun : ∀ k : Option IArchive → Zk (Int ⊕ IArchive), (@bind Zk _ _ _ (perform .recvResponse) k).run h s =
          (k (h .recvResponse s).1).run h (h .recvResponse s).2 := fun k => rfl
      have hlog : ∀ k : Option IArchive → Zk (Int ⊕ IArchive), (@bind Zk _ _ _ (perform .recvResponse) k).log h s =
          ⟨.recvResponse, (h .recvResponse s).1⟩ :: (k (h .recvResponse s).1).log h (h .recvResponse s).2 := fun k => rfl
      cases hanswer : (h .recvResponse s).1 with
      | none =>
        refine .lost _ _ (by rw [hrun, hanswer]; rfl) ?_
        rw [hlog, hanswer]
        rfl
      | some ia =>
        refine .answered ia _ (by rw [hrun, hanswer]; rfl) ?_
        rw [hlog, hanswer]
        rfl
  rw [exchange_eq]
  by_cases hrc : rc < 0
  · rw [if_pos hrc]
    exact hawait rc s
  · rw [if_neg hrc]
    cases hawait (h (.sendRequest oa.bytes) s).1 (h (.sendRequest oa.bytes) s).2 with
    | unsent err s' hrun hlog herr => exact .unsent err s' hrun hlog herr
    | lost err s' hrun hlog => exact .lost err s' hrun hlog
    | answered ia s' hrun hlog => exact .answered ia s' hrun hlog

/-- A get request that succeeds has asked for one reply; without one it has no data, and with one it finishes as
`finishGet` does. -/
private theorem zkGet_answer (hget : (zkGet H path true).run h s = ((zkOk, data), s₂)) :
    ∃ r s₁, ((zkGet H path true).log h s).filterMap Event.answer? = [r] ∧ (r = none → data = none) ∧
      ∀ ia, r = some ia → (finishGet H ia).run h s₁ = ((zkOk, data), s₂) := by
  cases path with
  | none =>
    obtain ⟨hpair, -⟩ := Prod.mk.inj hget
    cases (Prod.mk.inj hpair).1
  | some p =>
  have hinward : (encodeRequest H getdataOpcode (serializeGetDataRequest H ⟨some p, 0⟩)).Only Eff.Inward :=
    (plain_encodeRequest trivial (fun _ => trivial) _ _).only
  have hencode := fun s : σ => filterMap_log (h := h) hinward answer_inward s
  unfold zkGet request at hget ⊢
  rw [if_neg (by simp)] at hget ⊢
  simp only [Prog.run_bind, Prog.log_bind, List.filterMap_append, hencode, List.nil_append] at hget ⊢
  generalize (encodeRequest H getdataOpcode (serializeGetDataRequest H ⟨some p, 0⟩)).run h s = r at hget ⊢
  obtain ⟨⟨rc, oa⟩, s₀⟩ := r
  have hlock : lock.log h s₀ = [] := rfl
  have hfail : ∀ (err : Int) (s : σ),
      (@bind Zk _ Unit (Int × Option Buffer) unlock fun _ => return (err, none)).run h s = ((err, none), s) :=
    fun err s => rfl
  cases asked (h := h) rc oa s₀ with
  | unsent err s' hrun hlog herr =>
    simp only [run_lock, hrun, hfail] at hget
    exact absurd (Prod.mk.inj (Prod.mk.inj hget).1).1 herr
  | lost err s' hrun hlog =>
    simp only [run_lock, hrun, hlog, hlock, hfail, List.filterMap_nil, List.nil_append] at hget ⊢
    obtain ⟨rfl, rfl⟩ := Prod.mk.inj (Prod.mk.inj hget).1
    exact ⟨none, s', rfl, fun _ => rfl, fun ia h => by cases h⟩
  | answered ia s' hrun hlog =>
    simp only [run_lock, hrun, hlog, hlock, List.filterMap_nil, List.nil_append] at hget ⊢
    refine ⟨some ia, s', ?_, (fun h => by cases h), fun ia' h => ?_⟩
    · rw [Prog.log_bind, List.filterMap_append, filterMap_log (inward_finishGet ia) answer_inward]
      rfl
    · obtain rfl := Option.some.inj h
      exact hget

/-! ### The command -/

/-- Everything but printing. -/
private def Eff.Mute : Eff → Prop
  | printf _ _ => False
  | _ => True

private theorem print_mute : ∀ x : Event, x.1.Mute → x.print? = none := by
  rintro ⟨e, r⟩ hx
  cases e with
  | printf fmt args => exact hx.elim
  | _ => rfl

private theorem mute_request {β : Type} {opcode : Int32} {body : OArchive → Int × OArchive} {fail : Int → β}
    {finish : IArchive → Zk β} (hfinish : ∀ ia, (finish ia).Only Eff.Mute) :
    (request H opcode body lock fail finish).Only Eff.Mute := by
  refine (plain_encodeRequest trivial (fun _ => trivial) opcode body).only.bind fun ⟨rc, oa⟩ => ?_
  refine (only_lock_bind _).2 ((plain_exchange (fun _ => trivial) trivial trivial rc oa).only.bind fun x => ?_)
  cases x with
  | inl err => trivial
  | inr ia => exact hfinish ia

private theorem mute_zkExists : (zkExists H path true).Only Eff.Mute := by
  have hundef : ∀ f, (Eff.undefined f).Mute := fun f => trivial
  have hheader : ∀ ia, (decodeReplyHeader H ia).Only Eff.Mute := fun ia =>
    (only_decode hundef _ _ _).bind fun d => ⟨trivial, fun _ => trivial⟩
  refine Prog.only_ite.2 ⟨fun _ => trivial, fun _ => mute_request fun ia => ?_⟩
  refine (hheader ia).bind fun ⟨err, ia⟩ => Prog.only_ite.2 ⟨fun _ => trivial, fun _ => ?_⟩
  refine Prog.only_ite.2 ⟨fun _ => trivial, fun _ => (only_decode hundef _ _ _).bind fun d => ?_⟩
  exact Prog.only_ite.2 ⟨fun _ => ⟨trivial, fun _ => trivial⟩, fun _ => trivial⟩

private theorem mute_zkGet : (zkGet H path true).Only Eff.Mute := by
  refine Prog.only_ite.2 ⟨fun _ => trivial, fun _ => mute_request fun ia => (inward_finishGet ia).mono fun e he => ?_⟩
  cases e with
  | printf fmt args => exact he
  | _ => trivial

/-- `getCommand` behind a get request that succeeds. -/
private def showData (data : Option Buffer) : Zk Int := do
  let data := data.getD ⟨0, none⟩
  match data.buff with
  | none => perform (.undefined (.nullPointer "data.buff"))
  | some bs => do
    if ¬ (0 ≤ data.len.toInt ∧ data.len.toInt < bs.length) then perform (.undefined (.outOfBounds "data.buff"))
    perform (.printf "%s\n" [.bytes ((bs.take data.len.toInt.toNat).takeWhile (· ≠ 0))])
  return zkOk

private theorem showData_eq (data : Option Buffer) :
    showData data = printData (data.getD ⟨0, none⟩) >>= fun _ => return zkOk := by
  unfold showData
  dsimp only
  obtain ⟨len, buff⟩ := data.getD ⟨0, none⟩
  cases buff with
  | none => rfl
  | some bs =>
    show (if _ then _ else _) = Prog.bind (if _ then _ else _) _
    split <;> rfl

/-- What `getCommand` does when its get request succeeds. -/
private theorem getCommand_of_fetch (hfetch : (fetch H path).run h s = (some data, s₂)) :
    ((getCommand H path).run h s).1 = zkOk ∧ ∃ l s₁, prints l = [] ∧
      (zkGet H path true).run h s₁ = ((zkOk, data), s₂) ∧ (getCommand H path).log h s =
        l ++ (zkGet H path true).log h s₁ ++ (printData (data.getD ⟨0, none⟩)).log h s₂ := by
  have hend : ((showData data).run h s₂).1 = zkOk ∧
      (showData data).log h s₂ = (printData (data.getD ⟨0, none⟩)).log h s₂ := by
    rw [showData_eq]
    simp
  unfold getCommand
  simp only [fetch, Prog.run_bind, Prog.log_bind] at hfetch ⊢
  have hmute : prints ((zkExists H path true).log h s) = [] := filterMap_log mute_zkExists print_mute s
  generalize (zkExists H path true).log h s = l at hmute
  generalize (zkExists H path true).run h s = r at hfetch ⊢
  obtain ⟨⟨status, stat⟩, s₁⟩ := r
  dsimp only at hfetch ⊢
  by_cases hstatus : status ≠ 1
  · rw [if_pos hstatus] at hfetch
    cases hfetch
  rw [if_neg hstatus] at hfetch ⊢
  -- a header whose error is 1 comes without a stat
  obtain ⟨u, hu⟩ : ∃ u : List Event, u = if stat.isNone then [⟨.undefined (.readUnassigned "stat"), ()⟩] else [] :=
    ⟨_, rfl⟩
  cases stat
  all_goals
    simp only [Option.isNone_none, Option.isNone_some, if_true, Bool.false_eq_true, if_false, Prog.run_bind,
      Prog.log_bind] at hfetch hu ⊢
    split at hfetch
    · cases hfetch
    · rename_i hdata
      simp only [if_neg hdata, Prog.run_bind, Prog.log_bind] at hfetch ⊢
      generalize hget : (zkGet H path true).run h _ = q at hfetch ⊢
      obtain ⟨⟨status, data'⟩, s₃⟩ := q
      dsimp only at hfetch ⊢
      rw [Prog.run_pure] at hfetch
      by_cases hok : status ≠ zkOk
      · rw [if_pos hok] at hfetch
        cases hfetch
      · rw [if_neg hok] at hfetch
        obtain ⟨hsome, rfl⟩ := Prod.mk.inj hfetch
        obtain rfl := Option.some.inj hsome
        rw [not_not.1 hok] at hget
        rw [if_neg hok, ← hend.2]
        refine ⟨hend.1, l ++ u, _, ?_, hget, ?_⟩
        · rw [prints, List.filterMap_append, hu]
          exact (List.append_nil _).trans hmute
        · rw [hu, List.append_assoc, List.append_assoc]
          rfl

/-- The get request has been answered with the data `o` and no error. -/
def GetReply (log : List Event) (o : Option Bytes) : Prop := ∃ (header : ReplyHeader) (stat : Stat), header.err = 0 ∧
  (header.wire ++ (wireString o ++ stat.wire)).length < 2 ^ 31 ∧
  lastReply log = some (archiveAt (header.wire ++ (wireString o ++ stat.wire)) 0)

/-- What `getCommand` is to do when its get request succeeds: it prints the data of the reply, and writes inside the
block that holds them. -/
structure PrintsData (H : Heap) (h : Handler σ) (path : Option Bytes) (s : σ) : Prop where
  printed : ∀ o, GetReply ((getCommand H path).log h s) o →
    prints ((getCommand H path).log h s) = [("%s\n", [.bytes (o.getD [])])]
  inside : .outOfBounds "data.buff" ∉ faults ((getCommand H path).log h s)
  nonnull : .nullPointer "data.buff" ∉ faults ((getCommand H path).log h s)

/-- The terminator does not go into the block. -/
private theorem faults_printData {d : Buffer} (hd : ∀ bs, d.buff = some bs → bs.length ≤ d.len.toInt.toNat) (s : σ) :
    .outOfBounds "data.buff" ∈ faults ((printData d).log h s) ∨
      .nullPointer "data.buff" ∈ faults ((printData d).log h s) := by
  obtain ⟨len, buff⟩ := d
  unfold printData
  cases buff with
  | none => exact .inr (List.mem_cons_self ..)
  | some bs =>
    have hlen : bs.length ≤ len.toInt.toNat := hd bs rfl
    dsimp only
    rw [if_pos (by omega)]
    exact .inl (List.mem_cons_self ..)

/-- Whatever the replies, the terminator is not written inside the block. -/
theorem getCommand_overruns (hfetch : (fetch H path).run h s = (some data, s₂)) : ¬ PrintsData H h path s := by
  intro hprints
  obtain ⟨-, l, s₁, -, hget, hlog⟩ := getCommand_of_fetch hfetch
  obtain ⟨r, s', -, hnone, hsome⟩ := zkGet_answer hget
  have hblock : ∀ bs, (data.getD ⟨0, none⟩).buff = some bs →
      bs.length ≤ (data.getD ⟨0, none⟩).len.toInt.toNat := by
    intro bs hbs
    cases data with
    | none => cases hbs
    | some d =>
      cases r with
      | none => cases hnone rfl
      | some ia => exact finishGet_block (hsome ia rfl) hbs
  have hlast : ∀ f, f ∈ faults ((printData (data.getD ⟨0, none⟩)).log h s₂) →
      f ∈ faults ((getCommand H path).log h s) := by
    intro f hf
    rw [hlog, faults, List.filterMap_append]
    exact List.mem_append_right _ hf
  cases faults_printData (h := h) hblock s₂ with
  | inl hmem => exact hprints.inside (hlast _ hmem)
  | inr hmem => exact hprints.nonnull (hlast _ hmem)

private theorem prints_printData {bs : Bytes} (hlt : bs.length < 2 ^ 31) (s : σ) :
    prints ((printData (.of (some bs))).log h s) = [("%s\n", [.bytes (bs.takeWhile (· ≠ 0))])] := by
  have hint : (Int32.ofNat bs.length).toInt = bs.length := Int32.toInt_ofNat_of_lt hlt
  have htake : bs.take (Int32.ofNat bs.length).toInt.toNat = bs := by rw [hint, Int.toNat_natCast, List.take_length]
  have hprints : prints ((printData (.of (some bs))).log h s) =
      [("%s\n", [.bytes ((bs.take (Int32.ofNat bs.length).toInt.toNat).takeWhile (· ≠ 0))])] := by
    have hout : ¬ (0 ≤ (Buffer.of (some bs)).len.toInt ∧ (Buffer.of (some bs)).len.toInt < bs.length) := by
      show ¬ (_ ∧ (Int32.ofNat bs.length).toInt < _)
      rw [hint]
      omega
    show prints (Prog.log h (if ¬ (0 ≤ (Buffer.of (some bs)).len.toInt ∧ (Buffer.of (some bs)).len.toInt < bs.length)
      then _ else _) s) = _
    rw [if_pos hout]
    rfl
  rw [hprints, htake]

/-- The answer of the get request is the last one of the command. -/
private theorem lastReply_append {l k : List Event} {r : Option IArchive} {d : Buffer} {s : σ}
    (hanswer : k.filterMap Event.answer? = [r]) : lastReply (l ++ k ++ (printData d).log h s) = r := by
  have hprint : ((printData d).log h s).filterMap Event.answer? = [] := by
    obtain ⟨len, buff⟩ := d
    unfold printData
    cases buff with
    | none => rfl
    | some bs =>
      dsimp only
      split <;> rfl
  rw [lastReply, List.filterMap_append, List.filterMap_append, hanswer, hprint, List.append_nil, List.getLast?_concat]
  rfl

/-- The string is the data when there are data and they have no NUL. -/
theorem getCommand_prints_iff (hH : H.Succeeds) (hfetch : (fetch H path).run h s = (some data, s₂)) {o : Option Bytes}
    (hreply : GetReply ((getCommand H path).log h s) o) :
    prints ((getCommand H path).log h s) = [("%s\n", [.bytes (o.getD [])])] ↔ ∃ bs, o = some bs ∧ 0 ∉ bs := by
  obtain ⟨-, l, s₁, hl, hget, hlog⟩ := getCommand_of_fetch hfetch
  obtain ⟨r, s', hanswer, -, hsome⟩ := zkGet_answer hget
  obtain ⟨header, stat, herr, hlt, hlast⟩ := hreply
  have hdata : data = some (.of o) := by
    rw [hlog, lastReply_append hanswer] at hlast
    have hvalid : (Operation.get []).ValidResponse (o, stat) := by
      rintro bs rfl
      simp only [wireString, List.length_append] at hlt
      omega
    have hpay : header.wire ++ (wireString o ++ stat.wire) =
        header.wire ++ if header.err = 0 then (Operation.get []).responseWire (o, stat) else [] := by
      rw [if_pos herr]
      simp [Operation.responseWire]
    have hfinish := Operation.run_finish (h := h) hH hvalid hlt hpay s'
    have hrun : ((Operation.get []).finish H (archiveAt (header.wire ++ (wireString o ++ stat.wire)) 0)).run h s' =
        ((zkOk, data.map .data), s₂) := by
      show (finishGet H _ >>= _).run h s' = _
      rw [Prog.run_bind, hsome _ hlast]
      rfl
    rw [hrun, if_pos herr] at hfinish
    have hmap := (Prod.mk.inj (Prod.mk.inj hfinish).1).2
    cases data with
    | none => cases hmap
    | some d => exact congrArg some (Output.data.inj (Option.some.inj hmap))
  have hprints : prints ((getCommand H path).log h s) = prints ((printData (.of o)).log h s₂) := by
    have hmute : prints ((zkGet H path true).log h s₁) = [] := filterMap_log mute_zkGet print_mute s₁
    rw [prints] at hl hmute
    rw [hlog, hdata, prints, List.filterMap_append, List.filterMap_append, hl, hmute]
    rfl
  rw [hprints]
  cases o with
  | none =>
    constructor
    · intro h
      cases h
    · rintro ⟨bs, h, -⟩
      cases h
  | some bs =>
    have hbs : bs.length < 2 ^ 31 := by
      simp only [wireString, List.length_append] at hlt
      omega
    rw [prints_printData hbs]
    simp only [Option.getD_some, List.cons.injEq, Prod.mk.injEq, Arg.bytes.injEq, and_true, true_and, Option.some.injEq,
      exists_eq_left']
    rw [List.takeWhile_eq_self_iff]
    constructor
    · intro h h0
      exact absurd (h 0 h0) (by decide)
    · intro h0 c hc
      rw [decide_eq_true_eq]
      rintro rfl
      exact h0 hc

/-- A node `/a` with two bytes of data. -/
private def fetchWorld : World :=
  { World.idle (initClient [] 10 3 0 0 0) with
    polls := [(1, 4), (1, 1), (1, 4), (1, 1)], writes := List.replicate 4 (.bytes 100)
    reads := List.replicate 4 (.bytes 100)
    stream := frame (ReplyHeader.wire ⟨1, 5, 0⟩ ++ Stat.wire ⟨1, 2, 3, 4, 5, 6, 7, 8, 2, 0, 9⟩) ++
      frame (ReplyHeader.wire ⟨2, 5, 0⟩ ++ (wireString (some [104, 105]) ++ Stat.wire ⟨1, 2, 3, 4, 5, 6, 7, 8, 2, 0, 9⟩)) }

private theorem fetchWorld_fetch : ∃ w, (fetch .plenty (some [47, 97])).run (World.handle .plenty) fetchWorld =
    (some (some ⟨2, some [104, 105]⟩), w) := by
  have hfetch : ((fetch .plenty (some [47, 97])).run (World.handle .plenty) fetchWorld).1 =
      some (some ⟨2, some [104, 105]⟩) := by decide +kernel
  generalize (fetch .plenty (some [47, 97])).run (World.handle .plenty) fetchWorld = r at hfetch ⊢
  exact ⟨r.2, Prod.ext hfetch rfl⟩

theorem getCommand_overruns_two : ¬ PrintsData .plenty (World.handle .plenty) (some [47, 97]) fetchWorld := by
  obtain ⟨w, hfetch⟩ := fetchWorld_fetch
  exact getCommand_overruns hfetch

theorem getCommand_writes_behind : ¬ ∀ (H : Heap) (path : Option Bytes) (w w₂ : World) (data : Option Buffer),
    (fetch H path).run (World.handle H) w = (some data, w₂) → PrintsData H (World.handle H) path w := by
  intro hall
  obtain ⟨w, hfetch⟩ := fetchWorld_fetch
  have hprints := hall .plenty (some [47, 97]) fetchWorld w _ hfetch
  have hmem : .outOfBounds "data.buff" ∈ faults
      ((getCommand .plenty (some [47, 97])).log (World.handle .plenty) fetchWorld) := by decide +kernel
  exact hprints.inside hmem

end ZkClient
