import ZkClient.Lib.Rotation
import ZkClient.Session

/-!
# Trying the servers of the list

`do_connect` goes around the server list from a random start until a server accepts the session (`Rotation.loop`).  A
pass of its loop is `prepare`, which ends with a descriptor in `c->sock`, and then `authenticate` on that descriptor.
-/

namespace ZkClient

open Pthread Rotation

/-! ### A pass of the loop -/

/-- The body of the retry loop up to `authenticate`: the descriptor in `c->sock`, when it gets there. -/
def prepare (server : Bytes) : Zk (Option Int) := do
  match strrchr server 58 with
  | none => return none
  | some pos => do
    if hostSize ≤ pos then perform (.undefined (.outOfBounds "host"))
    let c ← perform .load
    let sock ← connectServer (server.take pos) (atoi (server.drop (pos + 1))) c.connectTimeout
    if sock = zkError then return none
    perform (.store (.sock sock))
    perform (.store (.state zkStateConnected))
    return some sock

/-- The body of the retry loop from `authenticate` on. -/
def enter (H : Heap) : Option Int → Zk Bool
  | none => return false
  | some _ => do
    let rc ← authenticate H
    if rc = zkOk then do
      startPingThread
      perform (.store (.state zkStateAuthed))
      return true
    else return false

theorem connectTo_eq (H : Heap) (server : Bytes) : connectTo H server = prepare server >>= enter H := by
  unfold connectTo prepare
  cases strrchr server 58 with
  | none => rfl
  | some pos =>
    dsimp only
    -- both sides begin with the test of the length and then go on in the same way
    have hrest : (do
        let c ← perform .load
        let sock ← connectServer (server.take pos) (atoi (server.drop (pos + 1))) c.connectTimeout
        if sock = zkError then return false
        perform (.store (.sock sock))
        perform (.store (.state zkStateConnected))
        let rc ← authenticate H
        if rc = zkOk then do
          startPingThread
          perform (.store (.state zkStateAuthed))
          return true
        else return false : Zk Bool) = (do
        let c ← perform .load
        let sock ← connectServer (server.take pos) (atoi (server.drop (pos + 1))) c.connectTimeout
        if sock = zkError then return none
        perform (.store (.sock sock))
        perform (.store (.state zkStateConnected))
        return some sock : Zk (Option Int)) >>= enter H := by
      refine congrArg (@bind Zk _ Client Bool (perform .load)) (funext fun c => ?_)
      refine Eq.trans (congrArg (Prog.bind _) (funext fun sock => ?_)) (Prog.bind_assoc _ _ _).symm
      split <;> rfl
    split
    · exact congrArg (Prog.op (Eff.undefined (.outOfBounds "host"))) (funext fun _ => hrest)
    · exact hrest

variable {H : Heap} {w : World} {server : Bytes}

/-- The client is about to authenticate on `sock`. -/
def World.connected (w : World) (sock : Int) : World := (w.assign (.sock sock)).assign (.state zkStateConnected)

/-- The ping thread of the connection has been started. -/
def World.authed (w : World) : World := (w.assign (.pingTid 1)).assign (.state zkStateAuthed)

/-- What happens to a list entry: it is skipped, `connect_server` fails, the server does not authenticate the client,
or it does. -/
inductive Outcome (H : Heap) (server : Bytes) (w : World) : Bool → World → Prop
  | skipped (hsep : 58 ∉ server) : Outcome H server w false w
  | unconnected {pos : Nat} {w₁ : World} (hpos : strrchr server 58 = some pos)
      (hconnect : exec H (connectServer (server.take pos) (atoi (server.drop (pos + 1))) w.client.connectTimeout) w =
        (zkError, w₁)) : Outcome H server w false w₁
  | rejected {pos : Nat} {sock rc : Int} {w₁ w₂ : World} (hpos : strrchr server 58 = some pos)
      (hconnect : exec H (connectServer (server.take pos) (atoi (server.drop (pos + 1))) w.client.connectTimeout) w =
        (sock, w₁)) (hsock : sock ≠ zkError) (hauth : exec H (authenticate H) (w₁.connected sock) = (rc, w₂))
      (hrc : rc ≠ zkOk) : Outcome H server w false w₂
  | accepted {pos : Nat} {sock : Int} {w₁ w₂ : World} (hpos : strrchr server 58 = some pos)
      (hconnect : exec H (connectServer (server.take pos) (atoi (server.drop (pos + 1))) w.client.connectTimeout) w =
        (sock, w₁)) (hsock : sock ≠ zkError) (hauth : exec H (authenticate H) (w₁.connected sock) = (zkOk, w₂)) :
      Outcome H server w true w₂.authed

theorem prepare_skipped (hpos : strrchr server 58 = none) :
    exec H (prepare server) w = (none, w) ∧ (prepare server).log (World.handle H) w = [] := by
  unfold prepare
  rw [hpos]
  exact ⟨rfl, rfl⟩

/-- The copy of the host part has overrun the local array. -/
def World.overrun (w : World) (pos : Nat) : World := if hostSize ≤ pos then w.fault (.outOfBounds "host") else w

theorem World.overrun_client (w : World) (pos : Nat) : (w.overrun pos).client = w.client := by
  unfold World.overrun
  split <;> rfl

/-- `prepare` after the copy of the host part. -/
private def prepareAt (server : Bytes) (pos : Nat) : Zk (Option Int) := do
  let c ← perform .load
  let sock ← connectServer (server.take pos) (atoi (server.drop (pos + 1))) c.connectTimeout
  if sock = zkError then return none
  perform (.store (.sock sock))
  perform (.store (.state zkStateConnected))
  return some sock

private theorem prepare_eq {pos : Nat} (hpos : strrchr server 58 = some pos) : prepare server =
    if hostSize ≤ pos then @bind Zk _ Unit _ (perform (.undefined (.outOfBounds "host"))) fun _ => prepareAt server pos
    else prepareAt server pos := by
  unfold prepare
  rw [hpos]
  rfl

theorem exec_prepare {pos : Nat} (hpos : strrchr server 58 = some pos) {sock : Int} {w₁ : World}
    (hconnect : exec H (connectServer (server.take pos) (atoi (server.drop (pos + 1))) w.client.connectTimeout)
      (w.overrun pos) = (sock, w₁)) :
    exec H (prepare server) w = if sock = zkError then (none, w₁) else (some sock, w₁.connected sock) := by
  have hrest : exec H (prepareAt server pos) (w.overrun pos) =
      if sock = zkError then (none, w₁) else (some sock, w₁.connected sock) := by
    rw [prepareAt, exec, Prog.run_bind, run_load, World.handle_load, Prog.run_bind, World.overrun_client]
    rw [exec] at hconnect
    rw [hconnect]
    split <;> rfl
  rw [prepare_eq hpos, ← hrest]
  unfold World.overrun
  split <;> rfl

theorem log_prepare {pos : Nat} (hpos : strrchr server 58 = some pos) {sock : Int}
    (hconnect : (exec H (connectServer (server.take pos) (atoi (server.drop (pos + 1))) w.client.connectTimeout)
      (w.overrun pos)).1 = sock) :
    (prepare server).log (World.handle H) w =
      (if hostSize ≤ pos then [⟨.undefined (.outOfBounds "host"), ()⟩] else []) ++ ⟨.load, w.client⟩ ::
      ((connectServer (server.take pos) (atoi (server.drop (pos + 1))) w.client.connectTimeout).log (World.handle H)
        (w.overrun pos) ++
      if sock = zkError then [] else [⟨.store (.sock sock), ()⟩, ⟨.store (.state zkStateConnected), ()⟩]) := by
  have hrest : (prepareAt server pos).log (World.handle H) (w.overrun pos) = ⟨.load, w.client⟩ ::
      ((connectServer (server.take pos) (atoi (server.drop (pos + 1))) w.client.connectTimeout).log (World.handle H)
        (w.overrun pos) ++
      if sock = zkError then [] else [⟨.store (.sock sock), ()⟩, ⟨.store (.state zkStateConnected), ()⟩]) := by
    rw [prepareAt, Prog.log_bind, run_load, World.handle_load, Prog.log_bind, World.overrun_client]
    rw [exec] at hconnect
    rw [hconnect, ← World.overrun_client w pos]
    refine congrArg (List.cons _) (congrArg (_ ++ ·) ?_)
    split <;> rfl
  rw [prepare_eq hpos, ← hrest]
  unfold World.overrun
  split <;> rfl

theorem exec_enter (sock : Int) : exec H (enter H (some sock)) w =
    if (exec H (authenticate H) w).1 = zkOk then (true, (exec H (authenticate H) w).2.authed)
    else (false, (exec H (authenticate H) w).2) := by
  have henter : enter H (some sock) = authenticate H >>= fun rc =>
      if rc = zkOk then (do
        startPingThread
        perform (.store (.state zkStateAuthed))
        return true : Zk Bool)
      else return false := rfl
  rw [henter, exec, Prog.run_bind]
  split <;> rfl

/-- A pass of the loop has one of the four outcomes. -/
theorem outcome_connectTo (hhost : ∀ pos, strrchr server 58 = some pos → pos < hostSize) :
    Outcome H server w (exec H (connectTo H server) w).1 (exec H (connectTo H server) w).2 := by
  rw [connectTo_eq, exec, Prog.run_bind]
  cases hpos : strrchr server 58 with
  | none =>
    have hskip := (prepare_skipped (H := H) (w := w) hpos).1
    rw [exec] at hskip
    rw [hskip]
    exact .skipped (strrchr_eq_none.1 hpos)
  | some pos =>
    obtain ⟨⟨sock, w₁⟩, hconnect⟩ : ∃ r, exec H (connectServer (server.take pos) (atoi (server.drop (pos + 1)))
      w.client.connectTimeout) w = r := ⟨_, rfl⟩
    have hfits : w.overrun pos = w := if_neg (Nat.not_le.2 (hhost pos hpos))
    have hprep := exec_prepare (w := w) hpos (by rw [hfits, hconnect])
    rw [exec] at hprep
    rw [hprep]
    by_cases hsock : sock = zkError
    · rw [if_pos hsock]
      exact .unconnected hpos (hsock ▸ hconnect)
    · rw [if_neg hsock]
      have henter := exec_enter (H := H) (w := w₁.connected sock) sock
      rw [exec] at henter
      rw [henter]
      obtain ⟨⟨rc, w₂⟩, hauth⟩ : ∃ r, exec H (authenticate H) (w₁.connected sock) = r := ⟨_, rfl⟩
      rw [hauth]
      by_cases hrc : rc = zkOk
      · rw [if_pos hrc]
        exact .accepted hpos hconnect hsock (hrc ▸ hauth)
      · rw [if_neg hrc]
        exact .rejected hpos hconnect hsock hauth hrc

/-! ### The loop -/

/-- The entry at a position of the server list. -/
def serverAt (servers : List Bytes) (i : Nat) : Bytes := (servers[i]?).getD []

theorem exec_connectLoop {servers : List Bytes} {k start : Nat} :
    exec H (connectLoop H servers k start) w =
      (if (loop servers.length (fun i => exec H (connectTo H (serverAt servers i))) k start w).1 then zkOk else zkError,
        (loop servers.length (fun i => exec H (connectTo H (serverAt servers i))) k start w).2) := by
  induction k generalizing start w with
  | zero => rfl
  | succ k ih =>
    have hstep : exec H (connectLoop H servers (k + 1) start) w =
        exec H (if (exec H (connectTo H (serverAt servers (start % servers.length))) w).1 then return zkOk
          else connectLoop H servers k (start + 1)) (exec H (connectTo H (serverAt servers (start % servers.length))) w).2 :=
      Prog.run_bind ..
    rw [hstep, loop]
    generalize exec H (connectTo H (serverAt servers (start % servers.length))) w = r
    obtain ⟨connected, w₁⟩ := r
    cases connected with
    | true => rfl
    | false => exact ih

/-- The passes of the loop in a call of `do_connect`. -/
def connectVisits (H : Heap) (w : World) : List (Visit World) :=
  visits w.client.servers.length (fun i => exec H (connectTo H (serverAt w.client.servers i))) w.client.servers.length
    (w.rands.headD 0 % w.client.servers.length) { w with rands := w.rands.tail }

theorem connectVisits_attempt {v : Visit World} (hv : v ∈ connectVisits H w) :
    exec H (connectTo H (serverAt w.client.servers v.index)) v.before = (v.done, v.after) := visits_attempt hv

/-- What the passes that fail preserve holds before every pass. -/
theorem connectVisits_inv {I : World → Prop} (hstart : I { w with rands := w.rands.tail })
    (hstep : ∀ v ∈ connectVisits H w, I v.before → v.done = false → I v.after) :
    ∀ v ∈ connectVisits H w, I v.before := visits_inv hstart hstep

/-- The result of `do_connect` is that of the last pass. -/
theorem exec_doConnect : exec H (doConnect H) w =
    (if (connectVisits H w).any Visit.done then zkOk else zkError,
      (((connectVisits H w).getLast?).map Visit.after).getD { w with rands := w.rands.tail }) := by
  have hrun : exec H (doConnect H) w = exec H (connectLoop H w.client.servers w.client.servers.length
      (w.rands.headD 0 % w.client.servers.length)) { w with rands := w.rands.tail } := rfl
  rw [hrun, exec_connectLoop, loop_eq]
  rfl

/-- What is to hold when `do_connect` has made the passes `vs` and returns `r`. -/
structure Rotates (H : Heap) (w : World) (vs : List (Visit World)) (r : Int × World) : Prop where
  outcome : ∀ v ∈ vs, Outcome H (serverAt w.client.servers v.index) v.before v.done v.after
  first : ∀ v ∈ vs.head?, v.before = { w with rands := w.rands.tail }
  chain : vs.IsChain fun u v => v.before = u.after
  order : vs.map Visit.index <+: positions w.client.servers.length w.client.servers.length
    (w.rands.headD 0 % w.client.servers.length)
  once : (vs.map Visit.index).Nodup
  stops : ∀ v ∈ vs.dropLast, v.done = false
  status : r.1 = zkOk ∨ r.1 = zkError
  succeeds : ∀ v ∈ vs, v.done = true → r.1 = zkOk
  accepted : r.1 = zkOk → ∃ v ∈ vs.getLast?, v.done = true ∧ r.2 = v.after ∧ r.2.client.state = zkStateAuthed ∧
    ∃ pos, strrchr (serverAt w.client.servers v.index) 58 = some pos ∧
      r.2.client.sock = (exec H (connectServer ((serverAt w.client.servers v.index).take pos)
        (atoi ((serverAt w.client.servers v.index).drop (pos + 1))) v.before.client.connectTimeout) v.before).1
  exhausted : r.1 = zkError → ∀ i < w.client.servers.length, ∃ v ∈ vs, v.index = i ∧ v.done = false

theorem serverAt_mem {servers : List Bytes} {i : Nat} (hi : i < servers.length) : serverAt servers i ∈ servers := by
  rw [serverAt, List.getElem?_eq_getElem hi]
  exact List.getElem_mem hi

/-- `do_connect` goes once around the server list, from the random start to the first server that authenticates the
client. -/
theorem doConnect_rotates (hservers : w.client.servers ≠ [])
    (hhost : ∀ server ∈ w.client.servers, ∀ pos, strrchr server 58 = some pos → pos < hostSize) :
    Rotates H w (connectVisits H w) (exec H (doConnect H) w) := by
  have hpos : 0 < w.client.servers.length := List.length_pos_iff.2 hservers
  have houtcome : ∀ v ∈ connectVisits H w, Outcome H (serverAt w.client.servers v.index) v.before v.done v.after := by
    intro v hv
    have hattempt := connectVisits_attempt hv
    have hlt : v.index < w.client.servers.length := visits_index_lt hpos hv
    have hout := outcome_connectTo (H := H) (w := v.before) (hhost _ (serverAt_mem hlt))
    rwa [hattempt] at hout
  obtain ⟨hchain, hfirst⟩ := @visits_chain World w.client.servers.length
    (fun i => exec H (connectTo H (serverAt w.client.servers i))) w.client.servers.length
    (w.rands.headD 0 % w.client.servers.length) { w with rands := w.rands.tail }
  rw [exec_doConnect]
  refine ⟨houtcome, hfirst, hchain, visits_index, nodup_visits le_rfl, fun v => visits_dropLast, ?_, ?_, ?_, ?_⟩
  · split
    · exact .inl rfl
    · exact .inr rfl
  · intro v hv hdone
    exact if_pos (List.any_eq_true.2 ⟨v, hv, hdone⟩)
  · intro hok
    have hany : (connectVisits H w).any Visit.done = true := by
      by_contra hnone
      rw [if_neg hnone] at hok
      cases hok
    obtain ⟨v, hlast, hv, hdone⟩ := exists_last hany
    have hafter : (((connectVisits H w).getLast?).map Visit.after).getD { w with rands := w.rands.tail } = v.after := by
      rw [show (connectVisits H w).getLast? = some v from hlast]
      rfl
    have hout := houtcome v hv
    simp only [hafter]
    rw [hdone] at hout
    generalize hend : v.after = after at hout ⊢
    cases hout with
    | @accepted pos sock w₁ w₂ hcolon hconnect hsock hauth =>
      obtain ⟨e, id, t, b, hframe⟩ := exec_authenticate_frame (H := H) (w := w₁.connected sock)
      rw [hauth] at hframe
      refine ⟨v, hlast, hdone, hend.symm, rfl, pos, hcolon, ?_⟩
      rw [hconnect]
      exact congrArg Client.sock hframe
  · intro herr i hi
    have hnone : (connectVisits H w).any Visit.done = false := by
      by_contra hany
      rw [Bool.not_eq_false] at hany
      rw [if_pos hany] at herr
      cases herr
    obtain ⟨v, hv, hindex⟩ := visits_complete hnone hi
    exact ⟨v, hv, hindex, Bool.eq_false_iff.2 (List.any_eq_false.1 hnone v hv)⟩

/-- A list whose first entry names no port. -/
private def twoServers : World := World.idle (initClient [[104], [104, 58, 49]] 10 3 0 0 0)

theorem doConnect_rotates_two :
    Rotates Heap.plenty twoServers (connectVisits Heap.plenty twoServers)
      (exec Heap.plenty (doConnect Heap.plenty) twoServers) := by
  refine doConnect_rotates (by decide) fun server hserver pos hpos => ?_
  have hshort : ∀ server ∈ twoServers.client.servers, server.length < hostSize := by decide
  exact (strrchr_lt hpos).trans (hshort server hserver)

end ZkClient
