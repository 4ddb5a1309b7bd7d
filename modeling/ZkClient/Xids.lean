import ZkClient.Conformance

/-!
# Request ids

`get_xid` counts up, and starts at the clock when the counter is at `-1`; it does not know that `-2` is the id of the
pings.  `serial` is the place of an id as it counts, and `room` is how many ids there are before the counter is at `-1`.

Up to then the ids that a program is given are all different (`serial_given`), and so are those of the requests of the
command thread (`main_requestIds`).  The requests of the ping thread have no id from `get_xid`.
-/

namespace ZkClient

open BigEndian Pthread

/-! ### The counter -/

/-- The place of an id in the order in which they are given. -/
def serial (xid : Int32) : Nat := xid.toUInt32.toNat

/-- How many ids there are from this one on, before `-1`. -/
def room (xid : Int32) : Nat := 2 ^ 32 - 1 - serial xid

theorem serial_injective : Function.Injective serial := fun a b h =>
  congrArg UInt32.toInt32 (UInt32.toNat_inj.1 h : a.toUInt32 = b.toUInt32)

theorem serial_succ {xid : Int32} (h : xid ≠ -1) : serial (xid + 1) = serial xid + 1 := by
  have hne : serial xid ≠ serial (-1) := fun heq => h (serial_injective heq)
  have hlast : serial (-1) = 2 ^ 32 - 1 := by decide
  have hlt : serial xid < 2 ^ 32 := xid.toUInt32.toNat_lt
  have hadd : serial (xid + 1) = (serial xid + 1) % 2 ^ 32 := UInt32.toNat_add xid.toUInt32 1
  rw [hadd, Nat.mod_eq_of_lt (by omega)]

/-- The surroundings count as `get_xid` does, wherever they start. -/
structure Counts {σ : Type} (h : Handler σ) (xid : σ → Int32) : Prop where
  given : ∀ s, xid s ≠ -1 → (h .getXid s).1 = xid s
  next : ∀ s, xid (h .getXid s).2 = (h .getXid s).1 + 1
  other : ∀ e s, e ≠ .getXid → xid (h e s).2 = xid s

/-- Every world does. -/
theorem World.counts (H : Heap) : Counts (World.handle H) World.xid where
  given _ hw := if_neg hw
  next _ := rfl
  other e w he := by
    cases e with
    | getXid => exact absurd rfl he
    | sendRequest payload =>
      show (w.sendRequest H payload).2.xid = w.xid
      unfold World.sendRequest
      split
      · rfl
      unfold World.nextPoll
      dsimp only
      split
      · rfl
      generalize writeSocket _ _ _ _ _ = x
      by_cases hstatus : x.status ≠ zkOk
      · rw [if_pos hstatus]
        split <;> rfl
      · rw [if_neg hstatus]
        split <;> rfl
    | recvResponse =>
      show (w.recvResponse H).2.xid = w.xid
      rw [World.recvResponse_snd]
      refine World.recvFrame_inv (I := fun w' => w'.xid = w.xid) (fun _ h => h) (fun _ _ h => h) (fun w' x h => ?_) rfl
      exact World.received_inv (I := fun v => v.xid = w.xid) (fun _ _ _ h => h) (fun _ _ h => h) (fun _ h => h) h x
    | socket =>
      simp only [World.handle, World.socket]
      split <;> rfl
    | _ => rfl

/-- The id that `get_xid` has answered. -/
def Event.given : Event → Option Int32
  | ⟨.getXid, xid⟩ => some xid
  | _ => none

section Given

variable {σ α : Type} {h : Handler σ} {xid : σ → Int32}

private theorem given_op {e : Eff} (he : e ≠ .getXid) (k : e.Resp → Zk α) (s : σ) :
    ((Prog.op e k : Zk α).log h s).filterMap Event.given =
      ((k (h e s).1).log h (h e s).2).filterMap Event.given := by
  refine List.filterMap_cons_none ?_
  cases e <;> first | rfl | exact absurd rfl he

/-- `-1` has no room. -/
private theorem ne_of_lt_room {xid : Int32} {n : Nat} (h : n + 1 ≤ room xid) : xid ≠ -1 := by
  rintro rfl
  exact absurd h (by simp [room, show serial (-1) = 2 ^ 32 - 1 by decide])

private theorem le_room_succ {xid : Int32} {n : Nat} (h : n + 1 ≤ room xid) : n ≤ room (xid + 1) := by
  rw [room, serial_succ (ne_of_lt_room h)]
  rw [room] at h
  omega

/-- While there is room, the ids that a program is given are consecutive, from the counter on. -/
private theorem serial_counted (hh : Counts h xid) (p : Zk α) {s : σ}
    (hroom : ((p.log h s).filterMap Event.given).length ≤ room (xid s)) :
    ((p.log h s).filterMap Event.given).map serial =
      List.range' (serial (xid s)) ((p.log h s).filterMap Event.given).length := by
  induction p generalizing s with
  | ret a => rfl
  | lock k ih => exact ih hroom
  | unlock k ih => exact ih hroom
  | trylock k ih => exact ih true hroom
  | create k ih => exact ih 1 hroom
  | cancel t k ih => exact ih hroom
  | op e k ih =>
    by_cases he : e = .getXid
    · subst he
      have hlog : ((Prog.op .getXid k : Zk α).log h s).filterMap Event.given =
          (h .getXid s).1 :: ((k (h .getXid s).1).log h (h .getXid s).2).filterMap Event.given := rfl
      rw [hlog] at hroom ⊢
      have hne := ne_of_lt_room hroom
      have hgiven := hh.given s hne
      have hnext := hh.next s
      rw [hgiven] at hnext
      have hrest := ih (h .getXid s).1 (s := (h .getXid s).2) (hnext ▸ le_room_succ hroom)
      rw [List.map_cons, hrest, hnext, serial_succ hne, hgiven, List.length_cons, List.range'_succ]
    · rw [given_op he] at hroom ⊢
      rw [← hh.other e s he] at hroom ⊢
      exact ih _ hroom

/-- While there is room, the ids that a program is given are consecutive, from the first on. -/
theorem serial_given (hh : Counts h xid) (p : Zk α) {s : σ} {first : Int32}
    (hfirst : ((p.log h s).filterMap Event.given).head? = some first)
    (hroom : ((p.log h s).filterMap Event.given).length ≤ room first) :
    ((p.log h s).filterMap Event.given).map serial =
      List.range' (serial first) ((p.log h s).filterMap Event.given).length := by
  induction p generalizing s with
  | ret a => cases hfirst
  | lock k ih => exact ih hfirst hroom
  | unlock k ih => exact ih hfirst hroom
  | trylock k ih => exact ih true hfirst hroom
  | create k ih => exact ih 1 hfirst hroom
  | cancel t k ih => exact ih hfirst hroom
  | op e k ih =>
    by_cases he : e = .getXid
    · subst he
      have hlog : ((Prog.op .getXid k : Zk α).log h s).filterMap Event.given =
          (h .getXid s).1 :: ((k (h .getXid s).1).log h (h .getXid s).2).filterMap Event.given := rfl
      rw [hlog] at hfirst hroom ⊢
      obtain rfl : (h .getXid s).1 = first := Option.some.inj hfirst
      have hnext := hh.next s
      have hrest := serial_counted hh (k (h .getXid s).1) (s := (h .getXid s).2) (hnext ▸ le_room_succ hroom)
      rw [List.map_cons, hrest, hnext, serial_succ (ne_of_lt_room hroom), List.length_cons, List.range'_succ]
    · rw [given_op he] at hfirst hroom ⊢
      exact ih _ hfirst hroom

end Given

/-! ### The requests -/

/-- The id that `get_xid` has given and no request has. -/
def Stage.pending : Stage → Option Int32
  | authed xid _ => xid
  | _ => none

/-- The id of a request that is sent when there is a session. -/
def Stage.sentId : Stage → Eff → Option Int32
  | authed .., .sendRequest payload => some (ofBe32 (payload.take 4))
  | _, _ => none

/-- The ids of the requests in a log. -/
def requestIds : Stage → List Event → List Int32
  | _, [] => []
  | x, ⟨e, r⟩ :: l => (x.sentId e).toList ++ requestIds (x.next e r) l

private theorem IsRequest.id_eq {xid : Int32} {payload : Bytes} (h : IsRequest xid payload) :
    ofBe32 (payload.take 4) = xid := by
  have hhead : ∀ (opcode : Int32) (w : Bytes), (RequestHeader.wire ⟨xid, opcode⟩ ++ w).take 4 = be32 xid := by
    intro opcode w
    exact List.take_left' (length_be32 xid)
  obtain ⟨op, -, rfl⟩ | rfl := h
  · rw [hhead, ofBe32_be32]
  · rw [← List.append_nil (RequestHeader.wire _), hhead, ofBe32_be32]

/-- A request uses up the id, and an id replaces one that has not been used. -/
private theorem Stage.sentId_sublist {H : Heap} {x : Stage} {e : Eff} (hx : x.Permits H e) (r : e.Resp) :
    ((x.sentId e).toList ++ (x.next e r).pending.toList).Sublist
      (x.pending.toList ++ (Event.given ⟨e, r⟩).toList) := by
  have hlast : ∀ {l l' : List Int32}, ([] ++ l : List Int32).Sublist (l ++ l') := List.sublist_append_left _ _
  cases e with
  | getXid =>
    cases x with
    | authed xid waiting => exact List.sublist_append_right _ _
    | _ => exact List.nil_sublist _
  | sendRequest payload =>
    match x, hx with
    | fresh (some c), _ => exact List.nil_sublist _
    | authed (some xid) false, hrequest =>
      show ([ofBe32 (payload.take 4)] : List Int32).Sublist [xid]
      rw [IsRequest.id_eq hrequest]
  | store u =>
    cases u with
    | sock fd => cases x <;> exact List.nil_sublist _
    | state s =>
      cases x with
      | offered waiting =>
        have hnext : ((offered waiting).next (.store (.state s)) r).pending = none := by
          show (if s = zkStateAuthed then authed none false else offered waiting).pending = none
          split <;> rfl
        show (([] : List Int32) ++ ((offered waiting).next (.store (.state s)) r).pending.toList).Sublist _
        rw [hnext]
        exact List.nil_sublist _
      | _ => exact hlast
    | _ => cases x <;> exact hlast
  | _ => cases x <;> exact hlast

theorem Conforms.requestIds_sublist {H : Heap} {x : Stage} {l : List Event} (hl : Conforms H x l) :
    (requestIds x l).Sublist (x.pending.toList ++ l.filterMap Event.given) := by
  induction l generalizing x with
  | nil => exact List.nil_sublist _
  | cons i l ih =>
    obtain ⟨e, r⟩ := i
    have hstep := Stage.sentId_sublist hl.1 r
    have hgiven : (⟨e, r⟩ :: l : List Event).filterMap Event.given =
        (Event.given ⟨e, r⟩).toList ++ l.filterMap Event.given := by
      rw [List.filterMap_cons]
      cases Event.given ⟨e, r⟩ <;> rfl
    rw [hgiven, ← List.append_assoc]
    refine List.Sublist.trans ?_ (hstep.append_right _)
    rw [List.append_assoc]
    exact (ih hl.2).append_left _

/-- **Request ids.**  In surroundings that count as `get_xid` does, all requests that the command thread sends have
different ids, as long as it takes fewer than there are before `-1`, and neither `-1` nor the id of the pings is among
them. -/
theorem main_requestIds {H : Heap} (hH : H.Succeeds) {grants : Int → Bool} (hgrants : ∀ n, grants n = true)
    {inputs : List Input} (hinputs : ∀ input ∈ inputs, input.Fits) {σ : Type} {h : Handler σ} {xid : σ → Int32}
    (hh : Counts h xid) (s : σ) {first : Int32}
    (hfirst : ((((main H grants inputs).haltAt Shell.exits).log h s).filterMap Event.given).head? = some first)
    (hroom : ((((main H grants inputs).haltAt Shell.exits).log h s).filterMap Event.given).length < room first) :
    let ids := requestIds (.fresh none) (((main H grants inputs).haltAt Shell.exits).log h s)
    ids.Nodup ∧ -1 ∉ ids ∧ -2 ∉ ids := by
  intro ids
  have hserial := serial_given hh _ hfirst hroom.le
  have hsub := (log_conforms h (follows_main hH hgrants hinputs) s).requestIds_sublist
  generalize (((main H grants inputs).haltAt Shell.exits).log h s).filterMap Event.given = given at *
  have hnodup : given.Nodup := by
    refine List.Nodup.of_map serial ?_
    rw [hserial]
    exact List.nodup_range'
  have hlt : ∀ x ∈ given, serial x < 2 ^ 32 - 2 := by
    intro x hx
    have hmem := List.mem_map_of_mem (f := serial) hx
    rw [hserial, List.mem_range'_1] at hmem
    rw [room] at hroom
    omega
  refine ⟨hnodup.sublist hsub, fun hmem => ?_, fun hmem => ?_⟩
  · exact absurd (hlt _ (hsub.subset hmem)) (by decide)
  · exact absurd (hlt _ (hsub.subset hmem)) (by decide)

/-- Everything succeeds, and every reply is zeros. -/
private def obliging (H : Heap) : Handler World
  | .sendRequest _, w => (zkOk, w)
  | .recvResponse, w => (some (archiveAt (List.replicate 64 0) 0), w)
  | .socket, w => (7, w)
  | .connect _ _, w => ((0, 0), w)
  | .poll _ _, w => ((1, 4), w)
  | e, w => World.handle H e w

private theorem obliging_counts (H : Heap) : Counts (obliging H) World.xid where
  given := (World.counts H).given
  next := (World.counts H).next
  other e w he := by
    cases e with
    | sendRequest payload => rfl
    | recvResponse => rfl
    | socket => rfl
    | connect host port => rfl
    | poll sock mode => rfl
    | _ => exact (World.counts H).other _ w he

theorem main_requestIds_listing :
    let w := World.idle (initClient [[49, 58, 49]] 10 3 0 0 0)
    let l := ((main .plenty (fun _ => true) [.line [108, 115, 32, 47]]).haltAt Shell.exits).log (obliging .plenty) w
    (requestIds (.fresh none) l).Nodup ∧ -1 ∉ requestIds (.fresh none) l ∧ -2 ∉ requestIds (.fresh none) l :=
  main_requestIds Heap.plenty_succeeds (fun _ => rfl)
    (List.forall_mem_singleton.2 (by constructor <;> decide))
    (obliging_counts .plenty) _ (show _ = some (0 : Int32) by decide +kernel) (by decide +kernel)

end ZkClient
