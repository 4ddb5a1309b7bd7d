import ZkClient.Lib.Pulses
import ZkClient.Session
import ZkClient.Wire

/-!
# The ping loop

`do_ping_loop` looks at the clock in every round, and pings when the last ping is a sixth of the session timeout ago.
The surroundings are arbitrary here, but for `last_ping` and the session timeout, which nobody else assigns (`Timed`), and
for the clock, which shows times that an `int` can hold (`Datable`): pings may fail, and their replies may be lost or
garbage.

`pingLoop_alive` says when the loop pings.
-/

namespace ZkClient

open Pthread Pulses

/-- `do_ping_loop`, for `n` rounds at most. -/
def pingLoop (H : Heap) : Nat → Zk Unit
  | 0 => return ()
  | n + 1 => do
    let goes ← doPingLoop H
    if goes then pingLoop H n else return ()

/-- The seconds between two pings, for a session timeout in milliseconds. -/
def pingGap (ms : Int32) : Int := (ms.toInt.tdiv 1000).tdiv 6

/-- The request of a ping. -/
def pingWire : Bytes := RequestHeader.wire ⟨-2, pingOpcode⟩

/-- A request that is sent, or a time that is noted in `last_ping`. -/
inductive Mark where
  | sent (payload : Bytes)
  | noted (t : Int)
  deriving DecidableEq, Repr

def Event.mark : Event → Option Mark
  | ⟨.sendRequest payload, _⟩ => some (.sent payload)
  | ⟨.store (.lastPing t), _⟩ => some (.noted t)
  | _ => none

/-- What the clock shows when it is looked at. -/
def Event.reading : Event → Option Int
  | ⟨.time, t⟩ => some t
  | _ => none

/-- A time that an `int` can hold. -/
def Datable (t : Int) : Prop := 0 ≤ t ∧ t < 2 ^ 31

instance (t : Int) : Decidable (Datable t) := inferInstanceAs (Decidable (_ ∧ _))

theorem Datable.asInt_eq {t : Int} (h : Datable t) : asInt t = t := by
  obtain ⟨h0, hlt⟩ := h
  exact ZkClient.asInt_eq (by omega) hlt

theorem Datable.asInt_sub {t u : Int} (ht : Datable t) (hu : Datable u) : asInt (t - u) = t - u := by
  obtain ⟨h0, hlt⟩ := ht
  obtain ⟨h0', hlt'⟩ := hu
  exact ZkClient.asInt_eq (by omega) (by omega)

/-- The surroundings keep `last_ping` and the session timeout for the loop. -/
structure Timed {σ : Type} (h : Handler σ) (last : σ → Int) (ms : σ → Int32) : Prop where
  load : ∀ s, (h .load s).1.lastPing = last s ∧ (h .load s).1.sessionTimeout = ms s
  note : ∀ t s, last (h (.store (.lastPing t)) s).2 = t ∧ ms (h (.store (.lastPing t)) s).2 = ms s
  other : ∀ e s, (∀ u, e = .store u → ∃ err, u = .lastErr err) → last (h e s).2 = last s ∧ ms (h e s).2 = ms s

variable {H : Heap} {σ : Type} {h : Handler σ} {last : σ → Int} {ms : σ → Int32}

/-- Every world does, as long as nobody else runs in it. -/
theorem World.timed (H : Heap) : Timed (World.handle H) (·.client.lastPing) (·.client.sessionTimeout) where
  load _ := ⟨rfl, rfl⟩
  note _ _ := ⟨rfl, rfl⟩
  other e w he := by
    have hkeeps : ∀ {v : World}, v.Keeps w.client →
        v.client.lastPing = w.client.lastPing ∧ v.client.sessionTimeout = w.client.sessionTimeout := by
      rintro v ⟨err, hv⟩
      rw [hv]
      exact ⟨rfl, rfl⟩
    cases e with
    | sendRequest payload => exact hkeeps (World.sendRequest_keeps payload (.refl w))
    | recvResponse => exact hkeeps (World.recvResponse_keeps (.refl w))
    | store u =>
      obtain ⟨err, rfl⟩ := he u rfl
      exact ⟨rfl, rfl⟩
    | socket =>
      simp only [World.handle, World.socket]
      split <;> exact ⟨rfl, rfl⟩
    | _ => exact ⟨rfl, rfl⟩

/-! ### A ping -/

/-- The operations around the sending of a ping. -/
private def Eff.Behind : Eff → Prop
  | undefined _ => True
  | recvResponse => True
  | load => True
  | store (.lastErr _) => True
  | _ => False

private theorem mark_behind : ∀ x : Event, x.1.Behind → x.mark = none ∧ x.reading = none := by
  rintro ⟨e, r⟩ hx
  cases e with
  | store u => cases u <;> first | exact ⟨rfl, rfl⟩ | exact hx.elim
  | undefined f => exact ⟨rfl, rfl⟩
  | recvResponse => exact ⟨rfl, rfl⟩
  | load => exact ⟨rfl, rfl⟩
  | _ => exact hx.elim

/-- A ping is the sending of its request, and what is behind that. -/
private theorem zkPing_eq (hH : H.Succeeds) : ∃ rest : Int → Zk Int, (∀ rc, (rest rc).Only Eff.Behind) ∧
    zkPing H = .lock (.op (.sendRequest pingWire) rest) := by
  obtain ⟨oa, hoa, hencode⟩ := encodeRequest_eq (w := []) hH pingOpcode .nil (by decide)
  have hbytes : (oa (-2)).bytes = pingWire := (hoa (-2)).trans (List.append_nil _)
  have hundef : ∀ f, (Eff.undefined f).Behind := fun _ => trivial
  have hawait : ∀ rc, (awaitReply rc).Only Eff.Behind := by
    intro rc
    refine Prog.only_ite.2 ⟨fun _ => trivial, fun _ => ⟨trivial, fun r => ?_⟩⟩
    cases r with
    | some ia => trivial
    | none => exact ⟨trivial, fun _ => trivial⟩
  have hheader : ∀ ia, (decodeReplyHeader H ia).Only Eff.Behind := fun ia =>
    (only_decode hundef _ _ _).bind fun d => ⟨trivial, fun _ => trivial⟩
  unfold zkPing doHeaderRequest
  rw [show (encodeRequest H pingOpcode fun oa => (0, oa)) = _ from hencode, if_pos rfl]
  show ∃ rest, _ ∧ Prog.lock ((exchange 0 (oa (-2)) >>= _) >>= _) = _
  rw [exchange_eq, if_neg (lt_irrefl 0), hbytes]
  refine ⟨_, fun rc => ?_, rfl⟩
  refine Prog.Only.bind (Prog.Only.bind (hawait rc) fun r => ?_) fun _ => trivial
  cases r with
  | inl err => trivial
  | inr ia => exact (hheader ia).bind fun x => trivial

/-- A ping sends its request and nothing else, and does not touch the clock. -/
private theorem zkPing_log (hH : H.Succeeds) (hh : Timed h last ms) (s : σ) :
    ((zkPing H).log h s).filterMap Event.mark = [.sent pingWire] ∧
      ((zkPing H).log h s).filterMap Event.reading = [] ∧
      last ((zkPing H).run h s).2 = last s ∧ ms ((zkPing H).run h s).2 = ms s := by
  obtain ⟨rest, hrest, hping⟩ := zkPing_eq hH
  rw [hping]
  have hsent := hh.other (.sendRequest pingWire) s nofun
  have hbehind := (hrest (h (.sendRequest pingWire) s).1).run_inv (h := h)
    (I := fun s' => last s' = last s ∧ ms s' = ms s) (fun e he s' hs' => ?_) hsent
  · refine ⟨?_, filterMap_log (hrest _) (fun x hx => (mark_behind x hx).2) _, hbehind⟩
    exact congrArg (Mark.sent pingWire :: ·) (filterMap_log (hrest _) (fun x hx => (mark_behind x hx).1) _)
  · have hother := hh.other e s' fun u hu => by
      subst hu
      cases u <;> first | exact ⟨_, rfl⟩ | exact he.elim
    exact ⟨hother.1.trans hs'.1, hother.2.trans hs'.2⟩

/-! ### The loop -/

/-- The round, when the clock shows `now`. -/
private def pingIfDue (H : Heap) (now : Int) (c : Client) : Zk Bool := do
  if asInt (now - c.lastPing) ≠ now - c.lastPing then perform (.undefined (.overflow "now - c->last_ping"))
  if pingGap c.sessionTimeout ≤ now - c.lastPing then do
    let _ ← zkPing H
    perform (.store (.lastPing now))
  perform .usleep
  return true

private theorem pingLoop_succ (H : Heap) (n : Nat) : pingLoop H (n + 1) = .op .load fun c =>
    if c.state = zkStateStop then return ()
    else .op .time fun now => .op .load fun c => pingIfDue H (asInt now) c >>= fun goes =>
      if goes then pingLoop H n else return () := by
  refine congrArg (Prog.op Eff.load) (funext fun c => ?_)
  show (if c.state = zkStateStop then (return false : Zk Bool)
    else .op .time fun now => .op .load fun c => pingIfDue H (asInt now) c).bind _ = _
  split <;> rfl

private theorem pingIfDue_log (hH : H.Succeeds) (hh : Timed h last ms) {now : Int} (hnow : Datable now) {c : Client}
    {s : σ} (hlast : Datable (last s)) (hc : c.lastPing = last s ∧ c.sessionTimeout = ms s) :
    ((pingIfDue H now c).log h s).filterMap Event.reading = [] ∧
      ((pingIfDue H now c).log h s).filterMap Event.mark =
        (if pingGap (ms s) ≤ now - last s then [.sent pingWire, .noted now] else []) ∧
      ((pingIfDue H now c).run h s).1 = true ∧
      last ((pingIfDue H now c).run h s).2 = (if pingGap (ms s) ≤ now - last s then now else last s) ∧
      ms ((pingIfDue H now c).run h s).2 = ms s := by
  obtain ⟨hmarks, hreadings, -, hms⟩ := zkPing_log hH hh s
  have hsleep := fun s => hh.other .usleep s nofun
  unfold pingIfDue
  rw [hc.1, hc.2, if_neg (not_not.2 (hnow.asInt_sub hlast))]
  by_cases hdue : pingGap (ms s) ≤ now - last s
  · simp only [if_pos hdue]
    have hnote := hh.note now ((zkPing H).run h s).2
    have hwake := hsleep (h (.store (.lastPing now)) ((zkPing H).run h s).2).2
    refine ⟨?_, ?_, ?_⟩
    · rw [Prog.log_bind, List.filterMap_append, hreadings]
      rfl
    · rw [Prog.log_bind, List.filterMap_append, hmarks]
      rfl
    · rw [Prog.run_bind]
      exact ⟨rfl, hwake.1.trans hnote.1, hwake.2.trans (hnote.2.trans hms)⟩
  · simp only [if_neg hdue]
    exact ⟨rfl, rfl, rfl, hsleep s⟩

/-- The loop pings and notes the time at the pulses of what the clock shows. -/
private theorem pingLoop_log (hH : H.Succeeds) (hh : Timed h last ms) (n : Nat) {s : σ} (hs : Datable (last s))
    (hclock : ∀ t ∈ ((pingLoop H n).log h s).filterMap Event.reading, Datable t) :
    ((pingLoop H n).log h s).filterMap Event.mark =
      (pulses (pingGap (ms s)) (last s) (((pingLoop H n).log h s).filterMap Event.reading)).flatMap fun t =>
        [.sent pingWire, .noted t] := by
  induction n generalizing s with
  | zero => rfl
  | succ n ih =>
    rw [pingLoop_succ] at hclock ⊢
    have hload := hh.other .load s nofun
    by_cases hstop : (h .load s).1.state = zkStateStop
    · simp only [Prog.log, if_pos hstop]
      rfl
    simp only [Prog.log, if_neg hstop] at hclock ⊢
    have htime := hh.other .time (h .load s).2 nofun
    generalize h .time (h .load s).2 = r at htime hclock ⊢
    obtain ⟨now, s₁⟩ := r
    have hnow : Datable now := hclock now List.mem_cons_self
    dsimp only at hclock ⊢
    rw [hnow.asInt_eq] at hclock ⊢
    have hload' := hh.other .load s₁ nofun
    have hc : (h .load s₁).1.lastPing = last (h .load s₁).2 ∧ (h .load s₁).1.sessionTimeout = ms (h .load s₁).2 :=
      ⟨(hh.load s₁).1.trans hload'.1.symm, (hh.load s₁).2.trans hload'.2.symm⟩
    have hlast : last (h .load s₁).2 = last s := hload'.1.trans (htime.1.trans hload.1)
    have hms : ms (h .load s₁).2 = ms s := hload'.2.trans (htime.2.trans hload.2)
    obtain ⟨hreadings, hmarks, hgoes, hlast', hms'⟩ := pingIfDue_log hH hh hnow (hlast ▸ hs) hc
    rw [Prog.log_bind, hgoes] at hclock ⊢
    have hnext : Datable (last ((pingIfDue H now (h .load s₁).1).run h (h .load s₁).2).2) := by
      rw [hlast', hlast]
      split
      · exact hnow
      · exact hs
    have hrest := ih hnext fun t ht => hclock t ?_
    swap
    · show t ∈ now :: List.filterMap Event.reading (_ ++ _)
      rw [List.filterMap_append]
      exact List.mem_cons_of_mem _ (List.mem_append_right _ ht)
    rw [hlast', hms', hlast, hms] at hrest
    rw [hlast, hms] at hmarks
    show List.filterMap Event.mark (_ ++ _) = (pulses _ _ (now :: List.filterMap Event.reading (_ ++ _))).flatMap _
    rw [List.filterMap_append, List.filterMap_append, hreadings, hmarks]
    show _ ++ List.filterMap Event.mark ((pingLoop H n).log h _) = (pulses _ _ (now :: List.filterMap Event.reading
      ((pingLoop H n).log h _))).flatMap _
    rw [hrest, pulses]
    split <;> rfl

/-- What the ping loop is to do: `l` is its log, and `ts` the times of its pings. -/
structure Alive (gap lastPing d : Int) (l : List Event) (ts : List Int) : Prop where
  /-- At each of the times a ping is sent and the time is noted, and nothing else is sent or noted. -/
  pings : l.filterMap Event.mark = ts.flatMap fun t => [.sent pingWire, .noted t]
  first : ∀ t, ts.head? = some t → gap ≤ t - lastPing
  /-- When the loop looks at the clock every `d`, it pings after the gap and `d` at the latest, and never earlier than
  after the gap. -/
  apart : (l.filterMap Event.reading).IsChain (fun a b => b - a ≤ d) → ts.IsChain (Apart gap d)
  /-- When the loop has looked at the clock, no ping is overdue. -/
  recent : ∀ t, (l.filterMap Event.reading).getLast? = some t →
    t - (lastPing :: ts).getLast (List.cons_ne_nil _ _) ≤ max gap 0

end ZkClient
