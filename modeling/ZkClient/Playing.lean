import ZkClient.Numbers
import ZkClient.Shell

/-!
# The program at a service

`Plays` says of a part of the program that it does, at a channel to a service, what a part of the shell does; there is
one lemma for each function of the program.  `main_implements` is the result for the whole, and `main_runs` adds the
bytes: over a network that delivers at once, the program is the shell, however the network cuts the bytes up.

The program is its command thread here, which runs alone: its locks are free, and the ping thread that it starts does
nothing.
-/

namespace ZkClient

open Pthread Cutting

namespace Shell

variable {S : Type}

/-! ### The client and the shell -/

/-- The client at a channel shows the shell, and `n` more connections can be made: `socket` gives a positive descriptor,
and one that has been closed may come again. -/
structure Shows (n : Nat) (c : Channel (S × Bool)) (x : Shell S) : Prop where
  attends : c.Attends x.server
  timeOut : c.client.sessionTimeout = x.timeOut
  lastErr : c.client.lastErr = x.lastErr
  output : c.output = x.output
  faults : c.faults = x.faults
  servers : c.client.servers ≠ [] ∧ ∀ server ∈ c.client.servers, Dialable server
  sockets : n ≤ c.sockets.length ∧ ∀ fd ∈ c.sockets, 0 < fd
  opened : c.opened = [c.client.sock] ∧ 0 < c.client.sock

/-- The client has no session yet, and `n` connections can be made. -/
structure Begins (n : Nat) (c : Channel (S × Bool)) (x : Shell S) : Prop where
  server : c.peer.1 = x.server
  client : c.client.Sessionless
  timeOut : c.client.sessionTimeout = x.timeOut
  lastErr : c.client.lastErr = x.lastErr
  output : c.output = x.output
  faults : c.faults = x.faults
  servers : c.client.servers ≠ [] ∧ ∀ server ∈ c.client.servers, Dialable server
  sockets : n ≤ c.sockets.length ∧ ∀ fd ∈ c.sockets, 0 < fd
  opened : c.opened = []

/-- A program of the client, at a channel to the service, does what the shell does. -/
abbrev Plays {α γ : Type} (v : Service S) (H : Heap) (n m : Nat) (φ : γ → α) (p : Zk α) (act : StateM (Shell S) γ) :
    Prop :=
  Prog.Implements (Channel.handle (v.peer H)) Channel.Orderly (Shows n) (Shows m) φ p act

variable {v : Service S} {H : Heap} {n : Nat}

theorem plays_print (fmt : String) (args : List Arg) :
    Plays v H n n id (perform (.printf fmt args)) (print fmt args) := fun _ _ hc =>
  ⟨_, v.reaches_perform _ ⟨trivial, by simp⟩, { hc with
    attends := ⟨hc.attends.peer, hc.attends.inbox⟩, output := congrArg (· ++ [(fmt, args)]) hc.output }⟩

private theorem plays_printed {fmt : String} {args args' : List Arg} (hargs : args = args') :
    Plays v H n n id (perform (.printf fmt args)) (print fmt args') := hargs ▸ plays_print fmt args

theorem plays_fault (f : Fault) : Plays v H n n id (perform (.undefined f)) (fault f) := fun _ _ hc =>
  ⟨_, v.reaches_perform _ ⟨trivial, by simp⟩, { hc with
    attends := ⟨hc.attends.peer, hc.attends.inbox⟩, faults := congrArg (· ++ [f]) hc.faults }⟩

theorem plays_lastStatus : Plays v H n n id (do return (← perform .load).lastErr : Zk Int) lastStatus := fun c x hc =>
  ⟨c, by
    rw [show id (lastStatus x).1 = c.client.lastErr from hc.lastErr.symm]
    exact (v.reaches_perform .load ⟨trivial, by simp⟩).bind (.pure ..), hc⟩

theorem plays_report (fmt : String) (path : Bytes) :
    Plays v H n n id (reportError fmt (some path)) (report fmt path) := by
  intro c x hc
  have hprint := plays_print (v := v) (H := H) (n := n) fmt [.bytes path, .text (zkErrorText x.lastErr)] c x hc
  obtain ⟨c', hreach, hc'⟩ := hprint
  have hlast : c'.client.lastErr = x.lastErr := hc'.lastErr
  refine ⟨c', ?_, { hc' with }⟩
  refine (v.reaches_perform .load ⟨trivial, by simp⟩).bind ?_
  rw [show (Channel.handle (v.peer H) .load c).1.lastErr = x.lastErr from hc.lastErr]
  refine hreach.bind ((v.reaches_perform .load ⟨trivial, by simp⟩).bind ?_)
  rw [show (Channel.handle (v.peer H) .load c').1.lastErr = x.lastErr from hlast]
  exact .pure ..

/-! ### Operations -/

theorem plays_ask (hH : H.Succeeds) {op : Operation} (hop : op.Sendable) :
    Plays v H n n (fun r : op.received.Reply => (op.status r.err.toInt, r.output)) (op.run H) (ask v op) := by
  intro c x hc
  refine ⟨_, op.reaches_run hH hop.valid hop.size hc.attends, ?_⟩
  have hpeer : c.peer.1 = x.server := congrArg Prod.fst hc.attends.peer
  simp only [Operation.asked, hpeer]
  exact { hc with attends := ⟨rfl, rfl⟩, lastErr := rfl }

section Operations

variable {path : Bytes}

private theorem status_eq (op : Operation) (err : Int) (h : ∀ path, op ≠ .exists path) : op.status err = err := by
  cases op with
  | «exists» path => exact absurd rfl (h path)
  | _ => rfl

/-- A function that gives the status of an operation. -/
private theorem plays_status {op : Operation} {p : Zk Int} (hexists : ∀ path, op ≠ .exists path)
    (hout : ∀ resp, op.received.output resp = none)
    (hask : Plays v H n n (fun r : op.received.Reply => (op.status r.err.toInt, r.output))
      (do return (← p, none)) (ask v op)) :
    Plays v H n n (fun r : op.received.Reply => r.err.toInt) p (ask v op) := by
  have hval : (fun r : op.received.Reply => (op.status r.err.toInt, r.output)) =
      (fun status : Int => (status, (none : Option Output))) ∘ fun r : op.received.Reply => r.err.toInt := by
    funext r
    rw [status_eq op _ hexists]
    cases r <;> simp [Operation.Reply.output, Operation.Reply.value, hout]
  rw [hval] at hask
  exact .of_map (fun _ _ h => (Prod.mk.inj h).1) hask

/-- A function that gives the status of an operation and what it stores. -/
private theorem plays_stored {α : Type} {op : Operation} {p : Zk (Int × Option α)} {g : α → Output}
    {k : op.received.Response → α} (hg : g.Injective) (hout : ∀ resp, op.received.output resp = some (g (k resp)))
    (hask : Plays v H n n (fun r : op.received.Reply => (op.status r.err.toInt, r.output))
      (do let r ← p; return (r.1, r.2.map g)) (ask v op)) :
    Plays v H n n (fun r : op.received.Reply => (op.status r.err.toInt, r.value.map k)) p (ask v op) := by
  have hval : (fun r : op.received.Reply => (op.status r.err.toInt, r.output)) =
      (fun r : Int × Option α => (r.1, r.2.map g)) ∘
        fun r : op.received.Reply => (op.status r.err.toInt, r.value.map k) := by
    funext r
    cases r <;> simp [Operation.Reply.output, Operation.Reply.value, hout]
  rw [hval] at hask
  exact .of_map (Function.injective_id.prodMap (Option.map_injective hg)) hask

theorem plays_zkCreate (hH : H.Succeeds) {data : Option Bytes} {size : Int32}
    (hop : (Operation.create path data size 0).Sendable) :
    Plays v H n n (fun r => r.err.toInt) (zkCreate H (some path) data size 0) (ask v (.create path data size 0)) :=
  plays_status nofun (fun _ => rfl) (plays_ask hH hop)

theorem plays_zkSet (hH : H.Succeeds) {data : Buffer} (hop : (Operation.set path data).Sendable) :
    Plays v H n n (fun r => r.err.toInt) (zkSet H (some path) data) (ask v (.set path data)) :=
  plays_status nofun (fun _ => rfl) (plays_ask hH hop)

theorem plays_zkDel (hH : H.Succeeds) (hop : (Operation.del path).Sendable) :
    Plays v H n n (fun r => r.err.toInt) (zkDel H (some path)) (ask v (.del path)) :=
  plays_status nofun (fun _ => rfl) (plays_ask hH hop)

theorem plays_zkExists (hH : H.Succeeds) (hop : (Operation.exists path).Sendable) :
    Plays v H n n (fun r => ((Operation.exists path).status r.err.toInt, r.value.map id)) (zkExists H (some path) true)
      (ask v (.exists path)) :=
  plays_stored (g := .stat) (fun _ _ => Output.stat.inj) (fun _ => rfl) (plays_ask hH hop)

theorem plays_zkGet (hH : H.Succeeds) (hop : (Operation.get path).Sendable) :
    Plays v H n n (fun r => (r.err.toInt, r.value.map fun resp => Buffer.of resp.1)) (zkGet H (some path) true)
      (ask v (.get path)) :=
  plays_stored (g := .data) (fun _ _ => Output.data.inj) (fun _ => rfl) (plays_ask hH hop)

theorem plays_zkGetChildren (hH : H.Succeeds) (hop : (Operation.getChildren path).Sendable) :
    Plays v H n n (fun r => (r.err.toInt, r.value.map Operation.vectorOf)) (zkGetChildren H (some path))
      (ask v (.getChildren path)) :=
  plays_stored (g := .children) (fun _ _ => Output.children.inj) (fun _ => rfl) (plays_ask hH hop)

end Operations

/-! ### Commands of the program -/

section Commands

variable {path : Bytes}

private theorem plays_return {α : Type} (a : α) : Plays v H n n id (pure a : Zk α) (pure a) := .pure id a

private theorem status_exists_ne {err : Int32} (neg : err.toInt < 0) :
    (Operation.exists path).status err.toInt ≠ 1 := by
  simp only [Operation.status]
  split
  · omega
  · split <;> omega

theorem plays_printData (hH : H.Succeeds) (h0 : 0 ∉ path) (hsize : path.length + 64 < 2 ^ 29) :
    Plays v H n n id (getCommand H (some path)) (printData v path) := by
  refine (plays_zkExists hH (.exists h0 hsize)).bind fun r => ?_
  cases r with
  | refused err neg =>
    show Plays v H n n id (if (Operation.exists path).status err.toInt ≠ 1 then _ else _) _
    rw [if_pos (status_exists_ne neg)]
    exact plays_report _ path
  | done stat valid fits =>
    show Plays v H n n id (if (stat : Stat).dataLength = 0 then _ else _) (if (stat : Stat).dataLength = 0 then _ else _)
    refine .ite (fun _ => (plays_print _ _).bind fun _ => plays_return zkOk) fun _ => ?_
    refine (plays_zkGet hH (.get h0 hsize)).bind fun r => ?_
    cases r with
    | refused err neg =>
      show Plays v H n n id (if err.toInt ≠ zkOk then _ else _) _
      rw [if_pos (show err.toInt ≠ zkOk by simp only [zkOk]; omega)]
      exact plays_report _ path
    | done data valid fits =>
      obtain ⟨data, stat⟩ : Option Bytes × Stat := data
      cases data with
      | none => exact (plays_fault _).bind fun _ => plays_return zkOk
      | some bs =>
        have hlen : (Int32.ofNat bs.length).toInt = bs.length := Int32.toInt_ofNat_of_lt (valid bs rfl)
        have hout : ¬ (0 ≤ (Int32.ofNat bs.length).toInt ∧ (Int32.ofNat bs.length).toInt < bs.length) := by
          rw [hlen]
          omega
        have htake : bs.take (Int32.ofNat bs.length).toInt.toNat = bs := by
          rw [hlen, Int.toNat_natCast, List.take_length]
        show Plays v H n n id (if ¬ (0 ≤ (Int32.ofNat bs.length).toInt ∧ (Int32.ofNat bs.length).toInt < bs.length) then _
          else _) _
        rw [if_pos hout]
        refine (plays_fault _).bind fun _ => ?_
        show Plays v H n n id (perform (.printf "%s\n" _) >>= fun _ => return zkOk)
          (print "%s\n" [.bytes (bs.takeWhile (· ≠ 0))] >>= fun _ => return zkOk)
        refine (plays_printed ?_).bind fun _ => plays_return zkOk
        exact congrArg (fun bs : Bytes => [Arg.bytes (bs.takeWhile (· ≠ 0))]) htake

private theorem plays_printChildren (names : List Bytes) {l : List Bytes} :
    Plays v H n n id (printChildren (Operation.vectorOf (l ++ names)) names.length l.length)
      (names.forM fun name => print "%s\t" [.bytes name]) := by
  induction names generalizing l with
  | nil => exact plays_return ()
  | cons name names ih =>
    have hentry : (Operation.vectorOf (l ++ name :: names)).entry l.length = return some name := by
      simp [StringVector.entry, Operation.vectorOf]
    have hrest := ih (l := l ++ [name])
    rw [List.append_assoc, List.singleton_append, List.length_append, List.length_singleton] at hrest
    rw [List.length_cons, printChildren, hentry]
    exact (plays_print _ _).bind fun _ => hrest

theorem plays_printNames (hH : H.Succeeds) (h0 : 0 ∉ path) (hsize : path.length + 64 < 2 ^ 29) :
    Plays v H n n id (lsCommand H (some path)) (printNames v path) := by
  refine (plays_zkGetChildren hH (.getChildren h0 hsize)).bind fun r => ?_
  cases r with
  | refused err neg =>
    show Plays v H n n id (if err.toInt ≠ zkOk then _ else _) _
    rw [if_pos (show err.toInt ≠ zkOk by simp only [zkOk]; omega)]
    exact plays_report _ path
  | done names valid fits =>
    change List Bytes at names
    have hcount : (Operation.vectorOf names).count.toInt = names.length := Int32.toInt_ofNat_of_lt valid.1
    show Plays v H n n id (printChildren (Operation.vectorOf names) (Operation.vectorOf names).count.toInt.toNat 0 >>= _) _
    rw [hcount]
    refine (plays_printChildren names (l := [])).bind fun _ => ?_
    show Plays v H n n id (if 0 < (Operation.vectorOf names).count.toInt then perform (.printf "\n" []) >>= _ else _)
      (if names ≠ [] then _ else _)
    by_cases hnames : names = []
    · rw [if_neg (not_not.2 hnames), if_neg (by rw [hcount, hnames]; decide)]
      exact plays_return zkOk
    · have hpos : 0 < names.length := List.length_pos_iff.2 hnames
      rw [if_pos hnames, if_pos (by rw [hcount]; omega)]
      exact (plays_print _ _).bind fun _ => plays_return zkOk

private theorem addLonglong_eq (H : Heap) (m : Int) : addLonglong H m = numberOrDigits m := by
  unfold addLonglong numberOrDigits
  split
  · rfl
  · have hm : m = (m.toNat : Nat) := by omega
    rw [← string_ll2string (H := H) (show 0 < m.toNat by omega), ← hm]

private theorem statJson_eq (H : Heap) (stat : Stat) : statJson H stat = statMembers stat := by
  simp only [statJson, statMembers, addLonglong_eq]

theorem plays_printStat (hH : H.Succeeds) (h0 : 0 ∉ path) (hsize : path.length + 64 < 2 ^ 29) :
    Plays v H n n id (statCommand H (some path)) (printStat v path) := by
  refine (plays_zkExists hH (.exists h0 hsize)).bind fun r => ?_
  cases r with
  | refused err neg =>
    show Plays v H n n id (if (Operation.exists path).status err.toInt ≠ 1 then _ else _) _
    rw [if_pos (status_exists_ne neg)]
    exact plays_lastStatus
  | done stat valid fits =>
    change Stat at stat
    exact (plays_printed (congrArg (fun members => [Arg.json members]) (statJson_eq H stat))).bind fun _ =>
      plays_return zkOk

theorem plays_makePath (hH : H.Succeeds) (path : Bytes) (h0 : 0 ∉ path) (hsize : path.length + 64 < 2 ^ 29) :
    Plays v H n n id (zkMkdir H (some path)) (makePath v path) := by
  show Plays v H n n id (zkMkdirWith (fun path => zkCreate H (some path) none 0 0)
    (perform (.undefined (.nullPointer "strrchr"))) path) _
  induction hlen : path.length using Nat.strong_induction_on generalizing path with
  | _ len ih =>
    subst hlen
    have hcreate := (plays_zkCreate (v := v) (n := n) hH (@Operation.Sendable.create _ none h0 hsize)).through
    unfold makePath
    rw [zkMkdirWith_eq, zkMkdirWith_eq (m := StateM (Shell S))]
    refine hcreate.bind fun status => .ite (fun _ => ?_) fun _ => plays_return status
    cases hpos : strrchr path slash with
    | none => exact (plays_fault _).bind fun _ => plays_return status
    | some pos =>
      have hlt := strrchr_lt hpos
      have htake : (path.take pos).length = pos := List.length_take_of_le hlt.le
      have hparent := ih _ (by rw [htake]; exact hlt) (path.take pos) (fun h => h0 (List.mem_of_mem_take h))
        (by rw [htake]; omega) rfl
      exact hparent.bind fun status => .ite (fun _ => hcreate) fun _ => plays_return status

/-- The command function that is called for a command. -/
def commandFunction (H : Heap) : Command → Zk Int
  | .get path => getCommand H (some path)
  | .create path data => createCommand H (some path) data (Int32.ofNat (data.getD []).length)
  | .mkdir path => mkdirCommand H (some path)
  | .ls path => lsCommand H (some path)
  | .stat path => statCommand H (some path)
  | .set path data => setCommand H (some path) data (Int32.ofNat data.length) (-1)
  | .del path => delCommand H (some path) (-1)
  | .quit => return zkOk
  | .unknown => do
    perform (.printf "%s\n" [.text "Unkonwn command."])
    return zkOk

def commandStatus (H : Heap) : Option Command → Zk (Option Int)
  | none => return none
  | some c => do return some (← commandFunction H c)

theorem runCommand_eq (H : Heap) (args : List Bytes) :
    runCommand H args = commandStatus H (Command.parse args) := by
  unfold runCommand Command.parse
  dsimp only
  simp only [apply_ite (commandStatus H)]
  rcases args with _ | ⟨cmd, _ | ⟨arg, _ | ⟨data, rest⟩⟩⟩
  · rfl
  all_goals
    refine ite_congr rfl (fun _ => rfl) fun _ => ite_congr rfl (fun _ => rfl) fun _ => ite_congr rfl (fun _ => rfl) fun _ =>
      ite_congr rfl (fun _ => rfl) fun _ => ite_congr rfl (fun _ => rfl) fun _ => ite_congr rfl (fun _ => rfl) fun _ =>
      ite_congr rfl (fun _ => rfl) fun _ => ite_congr rfl (fun _ => rfl) fun _ => rfl

/-- A function that creates, writes or deletes a node. -/
private theorem plays_askOnce {op : Operation} {p : Zk Int} {success failure : String}
    (hp : Plays v H n n (fun r : op.received.Reply => r.err.toInt) p (ask v op)) :
    Plays v H n n id (do
      let status ← p
      if status = zkOk then do
        perform (.printf success [.str (some path)])
        return zkOk
      else reportError failure (some path)) (askOnce v op path success failure) := by
  refine hp.bind fun r => ?_
  cases r with
  | refused err neg =>
    show Plays v H n n id (if err.toInt = zkOk then _ else _) _
    rw [if_neg (show err.toInt ≠ zkOk by simp only [zkOk]; omega)]
    exact plays_report _ path
  | done resp valid fits => exact (plays_print _ _).bind fun _ => plays_return zkOk

theorem plays_act (hH : H.Succeeds) {c : Command} (hc : c.Fits) : Plays v H n n id (commandFunction H c) (act v c) := by
  have hswap : ∀ {status : Int} {p q : Zk Int}, (if status ≠ zkOk then p else q) = if status = zkOk then q else p :=
    ite_not ..
  cases c with
  | get path => exact plays_printData hH hc.1 hc.2
  | create path data =>
    exact plays_askOnce (plays_zkCreate hH (.create hc.1 hc.2))
  | mkdir path =>
    exact (plays_makePath hH path hc.1 hc.2).bind fun status =>
      .ite (fun _ => (plays_print _ _).bind fun _ => plays_return zkOk) fun _ => plays_report _ path
  | ls path => exact plays_printNames hH hc.1 hc.2
  | stat path => exact plays_printStat hH hc.1 hc.2
  | set path data =>
    show Plays v H n n id (setCommand H (some path) data _ (-1)) _
    simp only [setCommand, hswap]
    exact plays_askOnce (plays_zkSet hH (.set hc.1 hc.2))
  | del path =>
    show Plays v H n n id (delCommand H (some path) (-1)) _
    simp only [delCommand, hswap]
    exact plays_askOnce (plays_zkDel hH (.del hc.1 hc.2))
  | quit => exact plays_return zkOk
  | unknown => exact (plays_print _ _).bind fun _ => plays_return zkOk

end Commands

/-! ### Sessions -/

theorem Shows.anti {m : Nat} {c : Channel (S × Bool)} {x : Shell S} (h : Shows m c x) (hle : n ≤ m) : Shows n c x :=
  { h with sockets := ⟨hle.trans h.sockets.1, h.sockets.2⟩ }

private theorem plays_anti {α γ : Type} {φ : γ → α} {p : Zk α} {act : StateM (Shell S) γ} {m k l : Nat}
    (hp : Plays v H n m φ p act) (hn : n ≤ k) (hm : l ≤ m) : Plays v H k l φ p act := by
  intro c x hc
  obtain ⟨c', hreach, hc'⟩ := hp c x (hc.anti hn)
  exact ⟨c', hreach, hc'.anti hm⟩

private theorem Begins.socket {c : Channel (S × Bool)} {x : Shell S} (hc : Begins (n + 1) c x) :
    ∃ fd fds, c.sockets = fd :: fds ∧ 0 < fd := by
  obtain ⟨fd, fds, hsockets⟩ : ∃ fd fds, c.sockets = fd :: fds :=
    List.exists_cons_of_length_pos (by have := hc.sockets.1; omega)
  exact ⟨fd, fds, hsockets, hc.sockets.2 fd (by rw [hsockets]; exact List.mem_cons_self)⟩

/-- After a new session has been opened. -/
private theorem shows_connected {c : Channel (S × Bool)} {x : Shell S} (hc : Begins (n + 1) c x) :
    Shows n (c.connected v) (connect v x).2 := by
  obtain ⟨fd, fds, hsockets, hfd⟩ := hc.socket
  refine ⟨⟨?_, rfl⟩, ?_, hc.lastErr, hc.output, hc.faults, hc.servers, ⟨?_, fun fd hfd => ?_⟩, ?_⟩
  · simp only [Channel.connected, connect, hc.server, hc.timeOut]
  · simp only [Channel.connected, connect, hc.server, hc.timeOut]
    rfl
  · have := hc.sockets.1
    simp only [Channel.connected, List.length_tail]
    omega
  · exact hc.sockets.2 fd (List.mem_of_mem_tail hfd)
  · simp only [Channel.connected, Client.connected, hsockets, hc.opened, List.headD_cons]
    exact ⟨trivial, hfd⟩

/-- `reset_zkclient` leaves no descriptor open. -/
private theorem begins_reset {c : Channel (S × Bool)} {x : Shell S} (hc : Shows n c x) :
    Begins n { c.reset with rands := c.rands.tail } x := by
  obtain ⟨hopened, hsock⟩ := hc.opened
  have hclosed : c.reset.opened = [] := by
    rw [Channel.reset, hopened]
    exact (if_pos hsock.ne').trans (List.erase_cons_head ..)
  exact { hc with server := congrArg Prod.fst hc.attends.peer, client := ⟨rfl, rfl, rfl⟩, opened := hclosed }

theorem plays_reconnect (hH : H.Succeeds) : Plays v H (n + 1) n id (reconnect H) (do
    connect v
    print logFormat (Level.warn.line "Reconnect to zookeeper success.")) := by
  intro c x hc
  have hbegins := begins_reset hc
  obtain ⟨fd, fds, hsockets, hfd⟩ := hbegins.socket
  have hfresh : 0 ≤ fd ∧ fd ∉ c.reset.opened := ⟨hfd.le, hbegins.opened ▸ List.not_mem_nil⟩
  have hshows := shows_connected (v := v) hbegins
  exact ⟨_, reaches_reconnect hH hc.servers.1 hc.servers.2 hsockets hfresh, { hshows with
    attends := ⟨hshows.attends.peer, hshows.attends.inbox⟩, output := congrArg (· ++ [_]) hshows.output }⟩

theorem plays_process (hH : H.Succeeds) {args : List Bytes} (hargs : ∀ c, Command.parse args = some c → c.Fits) :
    Plays v H (n + 1) n id (processCommand H args) (process v args) := by
  unfold processCommand process
  rw [runCommand_eq]
  cases hparse : Command.parse args with
  | none => exact plays_anti (plays_print _ _) le_rfl (Nat.le_succ n)
  | some c =>
    have hstatus : ∀ k : Option Int → Zk Unit,
        (commandStatus H (some c) >>= k) = commandFunction H c >>= fun status => k (some status) := fun k =>
      Prog.bind_assoc _ _ k
    rw [hstatus]
    refine (plays_act hH (hargs c hparse)).bind fun status => ?_
    show Plays v H (n + 1) n id ((do return (← perform .load).lastErr : Zk Int) >>= fun last =>
      if status = zkSocketErr ∨ checkReconnect last then reconnect H else return ()) _
    exact plays_lastStatus.bind fun last => .ite (fun _ => plays_reconnect hH) fun _ =>
      plays_anti (plays_return ()) le_rfl (Nat.le_succ n)

/-! ### Completion -/

/-- On strings, the comparison of the program is the test for a prefix. -/
private theorem filter_strncmpEq {typed : Bytes} (h0 : 0 ∉ typed) {names : List Bytes}
    (hnames : ∀ name ∈ names, 0 ∉ name) :
    (names.filter fun name => strncmpEq typed name typed.length) = names.filter (typed.isPrefixOf ·) := by
  refine List.filter_congr fun name hname => ?_
  rw [Bool.eq_iff_iff, strncmpEq_iff h0, cstring_eq_self (hnames name hname), List.isPrefixOf_iff_prefix]

theorem completionQuery_fits {text : Bytes} (h0 : 0 ∉ text) :
    0 ∉ completionQuery text ∧ (completionQuery text).length ≤ text.length + 1 := by
  have hword : lastWord (typedLine text) <:+ text := (List.rtakeWhile_suffix _ _).trans (List.dropWhile_suffix _)
  have hdir : directory (lastWord (typedLine text)) <+: lastWord (typedLine text) := List.rdropWhile_prefix _ _
  have hlen := hdir.length_le.trans hword.length_le
  unfold completionQuery queryOf
  split
  · exact ⟨by decide, by simp⟩
  · refine ⟨fun h => h0 (hword.subset (hdir.subset (List.dropLast_subset _ h))), ?_⟩
    rw [List.length_dropLast]
    omega

private theorem offerMatches_eq {buf pre dir : Bytes} {c : UInt8} {names : List Bytes}
    (hbuf : buf = pre ++ c :: lastWord buf) (hword : lastWord buf = dir ++ slash :: typedName (lastWord buf))
    (h0 : 0 ∉ buf) (hnames : names.length < 2 ^ 31 ∧ ∀ name ∈ names, 0 ∉ name) :
    offerMatches buf (lastSlashPos buf) (zkOk, some (Operation.vectorOf names)) = return offers buf names := by
  obtain ⟨htake, hdrop⟩ := cut_slash hbuf hword
  have hcount : (Operation.vectorOf names).count.toInt = names.length := Int32.toInt_ofNat_of_lt hnames.1
  have hlists : (Operation.vectorOf names).Lists names :=
    ⟨by rw [hcount, Int.toNat_natCast], .inr ⟨[], by simp [Operation.vectorOf]⟩⟩
  have hname : 0 ∉ typedName (lastWord buf) := fun h => h0 (List.mem_of_mem_drop (hdrop ▸ h))
  show (offerChildren (Operation.vectorOf names) _ _ 0 >>= _) = _
  rw [Option.getD_some, offerChildren_lists hlists, hdrop, filter_strncmpEq hname hnames.2, htake, offers]
  generalize names.filter _ = found
  rcases found with _ | ⟨only, _ | ⟨other, rest⟩⟩ <;> rfl

theorem plays_complete (hH : H.Succeeds) {text : Bytes} (h0 : 0 ∉ text) (hlen : text.length + 65 < 2 ^ 29) :
    Plays v H n n id (completion H text) (complete v text) := by
  have hcompletion : completion H text = if typedLine text = [] then return []
      else if 32 ∈ typedLine text then pathCompletion H (typedLine text)
      else return commands.filter fun c => strncmpEq (typedLine text) c (typedLine text).length := rfl
  have hnul := zero_not_mem_typedLine h0
  unfold complete
  rw [hcompletion, filter_strncmpEq hnul (by decide)]
  refine .ite (fun _ => plays_return []) fun _ => ?_
  by_cases hspace : 32 ∈ typedLine text
  swap
  · rw [if_neg hspace, if_pos hspace]
    exact plays_return _
  rw [if_pos hspace, if_neg (not_not.2 hspace)]
  obtain ⟨pre, c, hc, hbuf⟩ := split_blank hspace
  by_cases hword : slash ∈ lastWord (typedLine text)
  swap
  · rw [if_pos hword, pathCompletion_idle H hc hbuf hword]
    exact plays_return []
  obtain ⟨dir, hdir, hsplit⟩ := split_slash hword
  obtain ⟨htake, hdrop⟩ := cut_slash hbuf hsplit
  obtain ⟨hquery, hshort⟩ := completionQuery_fits h0
  rw [if_neg (not_not.2 hword), pathCompletion_asks H hc hbuf hsplit, ← hdir]
  refine (plays_zkGetChildren hH (.getChildren hquery (by omega))).bind fun r => ?_
  cases r with
  | refused err neg =>
    show Plays v H n n id (if err.toInt ≠ zkOk then _ else _) _
    rw [if_pos (show err.toInt ≠ zkOk by simp only [zkOk]; omega)]
    exact plays_return []
  | done names valid fits =>
    show Plays v H n n id (offerMatches (typedLine text) _ (zkOk, some (Operation.vectorOf names))) _
    rw [offerMatches_eq hbuf hsplit hnul valid]
    exact plays_return _

/-! ### The loop -/

theorem splitWords_eq {grants : Int → Bool} (hgrants : ∀ n, grants n = true) {text : Bytes} (h0 : 0 ∉ text) :
    splitWords grants text = return words text := by
  obtain ⟨x, hx, hstrings, -⟩ := sdssplitlen_strings hgrants (show 1 ≤ [(32 : UInt8)].length from le_rfl) h0
  rw [splitWords, hx]
  exact congrArg pure hstrings

theorem fits_words {text : Bytes} (h0 : 0 ∉ text) (hlen : text.length + 65 < 2 ^ 29) {c : Command}
    (hc : Command.parse (words text) = some c) : c.Fits := by
  have hsep : [(32 : UInt8)] ≠ [] := List.cons_ne_nil _ _
  refine Command.fits_of_parse (fun arg harg hmem => ?_) ?_ hc
  · exact h0 (mem_of_mem_cut hsep (List.mem_filter.1 harg).1 hmem)
  · have hle := length_flatten_cut hsep text
    rw [words, List.flatten_filter_ne_nil]
    omega

theorem plays_loop (hH : H.Succeeds) {grants : Int → Bool} (hgrants : ∀ n, grants n = true) {inputs : List Input}
    (hinputs : ∀ input ∈ inputs, input.Fits) :
    Plays v H (n + inputs.length) n id (mainLoop H grants inputs) (loop v inputs) := by
  induction inputs with
  | nil => exact plays_return []
  | cons input inputs ih =>
    have ih := ih fun input h => hinputs input (List.mem_cons_of_mem _ h)
    have hinput := hinputs input List.mem_cons_self
    rw [List.length_cons]
    cases input with
    | tab text =>
      refine (plays_anti (plays_complete hH hinput.1 hinput.2) le_rfl (Nat.le_succ _)).bind fun offered => ?_
      exact ih.bind fun rest => plays_return _
    | line text =>
      show Plays v H _ n id (splitWords grants text >>= _) _
      rw [splitWords_eq hgrants hinput.1]
      have hrest : Plays v H (n + inputs.length) n id
          (if quits (words text) then return [] else mainLoop H grants inputs)
          (if quits (words text) then return [] else loop v inputs) :=
        .ite (fun _ => plays_anti (plays_return []) le_rfl (Nat.le_add_right n _)) fun _ => ih
      refine .ite (fun _ => ?_) fun _ => ?_
      · exact (plays_process hH fun c => fits_words hinput.1 hinput.2).bind fun _ => hrest
      · exact plays_anti hrest (Nat.le_succ _) le_rfl

/-! ### The program -/

/-- The session is closed, and nothing is under way. -/
structure Ends (c : Channel (S × Bool)) (x : Shell S) : Prop where
  server : c.peer.1 = x.server
  inbox : c.inbox = []
  lastErr : c.client.lastErr = x.lastErr
  output : c.output = x.output
  faults : c.faults = x.faults

/-- The program at a channel to a service is the shell. -/
theorem main_implements (v : Service S) (hH : H.Succeeds) {grants : Int → Bool} (hgrants : ∀ n, grants n = true)
    {inputs : List Input} (hinputs : ∀ input ∈ inputs, input.Fits) :
    Prog.Implements (Channel.handle (v.peer H)) Channel.Orderly (Begins (inputs.length + 1)) Ends id
      (ZkClient.main H grants inputs) (main v inputs) := by
  have hopen : Prog.Implements (Channel.handle (v.peer H)) Channel.Orderly (Begins (inputs.length + 1))
      (Shows inputs.length) (fun _ => zkOk) (do
        let _ ← perform .time
        let now ← perform .time
        perform (.store (.lastPing (asInt now)))
        doConnect H) (connect v) := by
    intro c x hc
    let d : Channel (S × Bool) := { c with
      clock := c.clock.tail.tail, client := { c.client with lastPing := asInt (c.clock.tail.headD 0) } }
    have hd : Begins (inputs.length + 1) { d with rands := d.rands.tail } x := { hc with client := { hc.client with } }
    obtain ⟨fd, fds, hsockets, hfd⟩ := hd.socket
    refine ⟨_, ?_, shows_connected hd⟩
    refine (v.reaches_perform .time ⟨trivial, by simp⟩).bind <| (v.reaches_perform .time ⟨trivial, by simp⟩).bind <|
      (v.reaches_perform (.store _) ⟨trivial, by simp⟩).bind ?_
    exact reaches_doConnect (c := d) hH hd.servers.1 hd.servers.2 hsockets
      ⟨hfd.le, hd.opened ▸ List.not_mem_nil⟩ { hd.client with }
  have hclose : Prog.Implements (Channel.handle (v.peer H)) Channel.Orderly (Shows 0) Ends id (destroyClient H)
      (close v) := by
    intro c x hc
    obtain ⟨opened, hreach⟩ := reaches_destroyClient hH hc.attends
    exact ⟨_, hreach, ⟨rfl, rfl, rfl, hc.output, hc.faults⟩⟩
  have hloop : Plays v H inputs.length 0 id (mainLoop H grants inputs) (loop v inputs) := by
    have hplays := plays_loop (v := v) (n := 0) hH hgrants hinputs
    rwa [Nat.zero_add] at hplays
  exact hopen.bind fun _ => hloop.bind fun offers => hclose.bind fun _ => .pure id offers

/-- The operation with which the process ends. -/
def exits : Eff → Bool
  | .exit => true
  | _ => false

/-- What a program does in good order at a channel it does over a pipe, and it goes to its end there. -/
private theorem run_pipe (hH : H.Succeeds) {α : Type} {p : Zk α} {a : α} {c c' : Channel (S × Bool)}
    {s : Pipe (S × Bool)} (hreach : v.Reaches H p c a c')
    (hs : Pipe.Carries (p.cost (Channel.handle (v.peer H)) Channel.need c) s c) :
    ∃ s', (p.haltAt exits).run (Pipe.handle H (v.peer H)) s = (some a, s') ∧ Pipe.Carries 0 s' c' := by
  have hstay : p.Along (Channel.handle (v.peer H)) (fun e _ => exits e = false) c :=
    hreach.along.mono fun e _ h => by cases e <;> first | rfl | exact absurd rfl h.2
  obtain ⟨hrun, halong, hcost⟩ := Prog.run_haltAt hstay
  have hfits := (halong Channel.Fits).2 (hreach.along.mono fun _ _ h => h.1)
  rw [← hcost] at hs
  obtain ⟨hresult, hcarries⟩ := Prog.run_sim (c := Channel.need) (I := Pipe.Carries) (n := 0)
    (fun e _ _ _ hok hI => Pipe.step_carries hH e hok hI) hfits hs
  rw [hrun, hreach.run] at hresult hcarries
  exact ⟨_, Prod.ext hresult rfl, hcarries⟩

/-- What a run of the program over bytes has in common with the shell: the completions that are offered, the output and
the undefined behaviour, the last error and the state of the server.  Nothing is left under way. -/
structure Shown (r : Option (List (List Bytes)) × Pipe (S × Bool)) (y : List (List Bytes) × Shell S) : Prop where
  offers : r.1 = some y.1
  server : r.2.peer.1 = y.2.server
  lastErr : r.2.world.client.lastErr = y.2.lastErr
  output : r.2.world.output = y.2.output
  faults : r.2.world.faults = y.2.faults
  received : r.2.world.stream = []
  taken : r.2.taken = r.2.world.wire.length

/-- **The program is the shell.**  Over a network that delivers at once, however it cuts the bytes up, and at a service,
the command thread alone goes to its end and shows what the shell shows. -/
theorem main_runs (hH : H.Succeeds) {grants : Int → Bool} (hgrants : ∀ n, grants n = true) {inputs : List Input}
    (hinputs : ∀ input ∈ inputs, input.Fits) {c : Channel (S × Bool)} {s : Pipe (S × Bool)} {x : Shell S}
    (hc : Begins (inputs.length + 1) c x)
    (hs : Pipe.Carries ((ZkClient.main H grants inputs).cost (Channel.handle (v.peer H)) Channel.need c) s c) :
    Shown (((ZkClient.main H grants inputs).haltAt exits).run (Pipe.handle H (v.peer H)) s) (main v inputs x) := by
  obtain ⟨c', hreach, hends⟩ := main_implements v hH hgrants hinputs c x hc
  obtain ⟨s', hrun, hcarries⟩ := run_pipe hH hreach hs
  rw [hrun]
  exact {
    offers := rfl
    server := (congrArg Prod.fst hcarries.peer).trans hends.server
    lastErr := (congrArg Client.lastErr hcarries.client).trans hends.lastErr
    output := hcarries.output.trans hends.output
    faults := hcarries.faults.trans hends.faults
    received := by rw [hcarries.stream, hends.inbox]; rfl
    taken := hcarries.taken }

/-- A server that knows no node. -/
private def barren : Service Nat where
  connect _ n := (⟨10000, 1, List.replicate 16 0, rfl⟩, n + 1)
  operate _ n := (.refused (-101) (by decide), n)
  header _ n := (0, n)
  zxid _ := 0

private def dialing : Channel (Nat × Bool) where
  peer := (0, false)
  client := initClient [[49, 58, 49]] 10 3 0 0 0
  xid := -1
  clock := []
  rands := []
  sockets := [4, 4, 4]
  opened := []
  inbox := []
  output := []
  faults := []
  exited := false

private def waiting : Shell Nat := { server := 0, timeOut := 10000, lastErr := 0, output := [], faults := [] }

private theorem dialing_begins : Begins 3 dialing waiting where
  server := rfl
  client := ⟨rfl, rfl, by decide⟩
  timeOut := rfl
  lastErr := rfl
  output := rfl
  faults := rfl
  servers := ⟨by decide, fun server h => List.mem_singleton.1 h ▸ ⟨1, by decide, by decide, by decide⟩⟩
  sockets := by decide
  opened := rfl

private def typed : List Input := [.tab [103], .line [109, 107, 100, 105, 114, 32, 97]]

private theorem typed_fits : ∀ input ∈ typed, input.Fits := by
  intro input h
  simp only [typed, List.mem_cons, List.not_mem_nil, or_false] at h
  rcases h with rfl | rfl <;> exact ⟨by decide, by decide⟩

/-- The bytes pass one by one. -/
theorem main_runs_mkdir :
    let s := Pipe.bytewise ((ZkClient.main .plenty (fun _ => true) typed).cost
      (Channel.handle (barren.peer .plenty)) Channel.need dialing) dialing
    Shown (((ZkClient.main .plenty (fun _ => true) typed).haltAt exits).run (Pipe.handle .plenty (barren.peer .plenty)) s)
      (main barren typed waiting) :=
  main_runs Heap.plenty_succeeds (fun _ => rfl) typed_fits dialing_begins (Pipe.carries_bytewise _ _)

/-! ### Undefined behaviour -/

/-- A program of the shell adds faults that satisfy `P` only. -/
private def Adds {α : Type} (P : Fault → Prop) (m : StateM (Shell S) α) : Prop :=
  ∀ x, ∀ f ∈ (m x).2.faults, f ∈ x.faults ∨ P f

section Adds

variable {α β : Type} {P : Fault → Prop} {m : StateM (Shell S) α} {g : α → StateM (Shell S) β}

private theorem Adds.of_still (h : ∀ x, (m x).2.faults = x.faults) : Adds P m := fun x _ hf => .inl (h x ▸ hf)

private theorem Adds.bind (h : Adds P m) (hg : ∀ a, Adds P (g a)) : Adds P (m >>= g) := by
  intro x f hf
  rcases hg (m x).1 (m x).2 f hf with hf | hf
  · exact h x f hf
  · exact .inr hf

private theorem adds_fault {f : Fault} (hf : P f) : Adds P (fault f : StateM (Shell S) Unit) := by
  intro x f' hf'
  rcases List.mem_append.1 hf' with hf' | hf'
  · exact .inl hf'
  · exact .inr (List.mem_singleton.1 hf' ▸ hf)

private theorem adds_print (fmt : String) (args : List Arg) : Adds P (print fmt args : StateM (Shell S) Unit) :=
  .of_still fun _ => rfl

private theorem adds_report (fmt : String) (path : Bytes) : Adds P (report fmt path : StateM (Shell S) Int) :=
  .of_still fun _ => rfl

private theorem adds_ask (op : Operation) : Adds P (ask v op) := .of_still fun _ => rfl

private theorem adds_return (a : α) : Adds P (pure a : StateM (Shell S) α) := .of_still fun _ => rfl

private theorem adds_askOnce (op : Operation) (path : Bytes) (success failure : String) :
    Adds P (askOnce v op path success failure) := by
  refine (adds_ask op).bind fun r => ?_
  cases r with
  | refused err neg => exact adds_report _ path
  | done resp valid fits => exact (adds_print _ _).bind fun _ => adds_return zkOk

private theorem adds_printData (path : Bytes) : Adds (· ∈ (Command.get path).risks) (printData v path) := by
  refine (adds_ask _).bind fun r => ?_
  cases r with
  | refused err neg => exact adds_report _ path
  | done stat valid fits =>
    show Adds _ (if (stat : Stat).dataLength = 0 then _ else _)
    split
    · exact (adds_print _ _).bind fun _ => adds_return zkOk
    · refine (adds_ask _).bind fun r => ?_
      cases r with
      | refused err neg => exact adds_report _ path
      | done data valid fits =>
        obtain ⟨data, stat⟩ : Option Bytes × Stat := data
        cases data with
        | none => exact (adds_fault (by simp [Command.risks])).bind fun _ => adds_return zkOk
        | some bs =>
          exact (adds_fault (by simp [Command.risks])).bind fun _ => (adds_print _ _).bind fun _ => adds_return zkOk

private theorem adds_forM (names : List Bytes) :
    Adds P (names.forM fun name => (print "%s\t" [.bytes name] : StateM (Shell S) Unit)) := by
  induction names with
  | nil => exact adds_return ()
  | cons name names ih => exact (adds_print _ _).bind fun _ => ih

private theorem adds_printNames (path : Bytes) : Adds P (printNames v path) := by
  refine (adds_ask _).bind fun r => ?_
  cases r with
  | refused err neg => exact adds_report _ path
  | done names valid fits =>
    change List Bytes at names
    refine (adds_forM names).bind fun _ => ?_
    show Adds P (if names ≠ [] then _ else _)
    split
    · exact (adds_print _ _).bind fun _ => adds_return zkOk
    · exact adds_return zkOk

private theorem adds_makePath (path : Bytes) : Adds (· ∈ (Command.mkdir path).risks) (makePath v path) := by
  have hcreate : ∀ path : Bytes, Adds (· ∈ [Fault.nullPointer "strrchr"])
      (do return (← ask v (.create path none 0 0)).err.toInt) := fun path => (adds_ask _).bind fun r => adds_return _
  show Adds (· ∈ [Fault.nullPointer "strrchr"]) _
  unfold makePath
  induction hlen : path.length using Nat.strong_induction_on generalizing path with
  | _ len ih =>
    subst hlen
    rw [zkMkdirWith_eq]
    refine (hcreate path).bind fun status => ?_
    split
    swap
    · exact adds_return status
    cases hpos : strrchr path slash with
    | none => exact (adds_fault (List.mem_singleton_self _)).bind fun _ => adds_return status
    | some pos =>
      have hlt := strrchr_lt hpos
      refine (ih _ (by rw [List.length_take]; omega) (path.take pos) rfl).bind fun status => ?_
      split
      · exact hcreate path
      · exact adds_return status

private theorem adds_act (c : Command) : Adds (· ∈ c.risks) (act v c) := by
  cases c with
  | get path => exact adds_printData path
  | create path data => exact adds_askOnce _ path _ _
  | mkdir path =>
    refine (adds_makePath path).bind fun status => ?_
    split
    · exact (adds_print _ _).bind fun _ => adds_return zkOk
    · exact adds_report _ path
  | ls path => exact adds_printNames path
  | stat path =>
    refine (adds_ask _).bind fun r => ?_
    cases r with
    | refused err neg => exact .of_still fun _ => rfl
    | done stat valid fits => exact (adds_print _ _).bind fun _ => adds_return zkOk
  | set path data => exact adds_askOnce _ path _ _
  | del path => exact adds_askOnce _ path _ _
  | quit => exact adds_return zkOk
  | unknown => exact (adds_print _ _).bind fun _ => adds_return zkOk

private theorem adds_process (args : List Bytes) :
    Adds (fun f => ∃ c, Command.parse args = some c ∧ f ∈ c.risks) (process v args) := by
  unfold process
  cases hparse : Command.parse args with
  | none => exact adds_print _ _
  | some c =>
    refine Adds.bind (fun x f hf => ?_) fun status => ?_
    · exact (adds_act c x f hf).imp_right fun h => ⟨c, rfl, h⟩
    · refine Adds.bind (.of_still fun _ => rfl) fun last => ?_
      split
      · exact .of_still fun _ => rfl
      · exact adds_return ()

private theorem adds_complete (text : Bytes) : Adds P (complete v text) := by
  unfold complete
  dsimp only
  split
  · exact adds_return []
  split
  · exact adds_return _
  split
  · exact adds_return []
  refine (adds_ask _).bind fun r => ?_
  cases r with
  | refused err neg => exact adds_return []
  | done names valid fits => exact adds_return _

/-- The undefined behaviour that the commands among the inputs can have. -/
private def Risky (inputs : List Input) (f : Fault) : Prop :=
  ∃ text c, .line text ∈ inputs ∧ Command.parse (words text) = some c ∧ f ∈ c.risks

private theorem adds_loop (inputs : List Input) : Adds (Risky inputs) (loop v inputs) := by
  induction inputs with
  | nil => exact adds_return []
  | cons input inputs ih =>
    have ih : Adds (Risky (input :: inputs)) (loop v inputs) := fun x f hf =>
      (ih x f hf).imp_right fun ⟨text, c, hmem, h⟩ => ⟨text, c, List.mem_cons_of_mem _ hmem, h⟩
    cases input with
    | tab text => exact (adds_complete text).bind fun offered => ih.bind fun rest => adds_return _
    | line text =>
      have hrest : Adds (Risky (.line text :: inputs)) (if quits (words text) then return [] else loop v inputs) := by
        split
        · exact adds_return []
        · exact ih
      show Adds _ (if words text ≠ [] then _ else _)
      split
      · refine Adds.bind (fun x f hf => ?_) fun _ => hrest
        exact (adds_process (words text) x f hf).imp_right fun ⟨c, hc⟩ => ⟨text, c, List.mem_cons_self, hc⟩
      · exact hrest

private theorem adds_main (inputs : List Input) : Adds (Risky inputs) (main v inputs) :=
  Adds.bind (.of_still fun _ => rfl) fun _ => (adds_loop inputs).bind fun offers =>
    Adds.bind (.of_still fun _ => rfl) fun _ => adds_return offers

end Adds

end Shell

end ZkClient
