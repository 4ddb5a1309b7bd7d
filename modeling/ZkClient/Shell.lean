import ZkClient.Completion
import ZkClient.Lib.Decimal
import ZkClient.Service
import ZkClient.Tokenizer

/-!
# The whole program

`main` is the program from the place where `new_client` has filled in the client: it connects, reads lines and
completes paths until there is no more input or the user quits, and closes the session.  It is the command thread; the
rounds of the ping thread that it starts are not in it.

`Shell` is what it is to a user: commands asked of a service one after the other, with a line printed for each.  There
are no archives, frames, sockets, locks or buffers in a `Shell`.
-/

namespace ZkClient

open Pthread Cutting

/-! ### The program (`main`) -/

/-- What `linenoise` does next: it returns a line, or calls the callback for the text typed so far. -/
inductive Input where
  | line (text : Bytes)
  | tab (text : Bytes)

/-- A string that fits into a request. -/
def Input.Fits : Input → Prop
  | line text | tab text => 0 ∉ text ∧ text.length + 65 < 2 ^ 29

section Main

variable (H : Heap) (grants : Int → Bool)

/-- `args` and `narg`. -/
def splitWords (text : Bytes) : Zk (List Bytes) := do
  match sdssplitlen grants text [32] with
  | some x => return x.strings
  | none => do
    perform (.undefined (.nullPointer "tmp"))
    return []

/-- Whether `quitCommand` is called. -/
def quits (args : List Bytes) : Bool := args.headD [] = quitCmd ∨ args.headD [] = exitCmd

/-- `while (!quit && (line = linenoise(PROMPT)) != NULL)`, with the completions that are offered on the way. -/
def mainLoop : List Input → Zk (List (List Bytes))
  | [] => return []
  | .tab text :: inputs => do
    let offered ← completion H text
    let rest ← mainLoop inputs
    return offered :: rest
  | .line text :: inputs => do
    let args ← splitWords grants text
    if args ≠ [] then processCommand H args
    if quits args then return [] else mainLoop inputs

/-- `main` from `srand(time(0))` on; `initClient` is the client that `new_client` makes, but for the time.  Without a
server that accepts, the process exits, with a line of `logger` that is left out. -/
def main (inputs : List Input) : Zk (List (List Bytes)) := do
  let _ ← perform .time
  let now ← perform .time
  perform (.store (.lastPing (asInt now)))
  let rc ← doConnect H
  if rc ≠ zkOk then perform .exit
  let offers ← mainLoop H grants inputs
  destroyClient H
  return offers

end Main

/-! ### Requests that fit -/

namespace Operation

/-- The operation has a request. -/
structure Sendable (op : Operation) : Prop where
  valid : op.Valid
  size : op.wire.length + 8 < 2 ^ 29

namespace Sendable

variable {path : Bytes}

theorem create {data : Option Bytes} (h0 : 0 ∉ path) (hsize : path.length + (data.getD []).length + 64 < 2 ^ 29) :
    (Operation.create path data (Int32.ofNat (data.getD []).length) 0).Sendable := by
  have hpayload : (Operation.create path data (Int32.ofNat (data.getD []).length) 0).payload.length ≤
      (data.getD []).length := by
    simp only [payload]
    split
    · rw [List.length_take]
      omega
    · exact Nat.zero_le _
  refine ⟨⟨h0, fun block hblock => ?_⟩, ?_⟩
  · rw [hblock, Option.getD_some] at hsize ⊢
    rw [Int32.toInt_ofNat_of_lt (by omega)]
  · simp [wire, wireString, wireVector, aclWire, world, anyone]
    omega

theorem set {data : Bytes} (h0 : 0 ∉ path) (hsize : path.length + data.length + 64 < 2 ^ 29) :
    (Operation.set path { len := Int32.ofNat data.length, buff := some data }).Sendable := by
  have hlen : (Int32.ofNat data.length).toInt = data.length := Int32.toInt_ofNat_of_lt (by omega)
  refine ⟨⟨h0, ?_, ?_⟩, ?_⟩
  · simp only [hlen]
    omega
  · simp [hlen]
  · simp [wire, payload, wireString, hlen]
    omega

theorem del (h0 : 0 ∉ path) (hsize : path.length + 64 < 2 ^ 29) : (Operation.del path).Sendable := by
  refine ⟨h0, ?_⟩
  simp [wire, wireString]
  omega

private theorem length_watchWire (path : Bytes) : (watchWire path).length = path.length + 5 := by
  simp [watchWire, wireString, wireBool]
  omega

theorem «exists» (h0 : 0 ∉ path) (hsize : path.length + 64 < 2 ^ 29) : (Operation.exists path).Sendable := by
  refine ⟨h0, ?_⟩
  rw [wire, length_watchWire]
  omega

theorem get (h0 : 0 ∉ path) (hsize : path.length + 64 < 2 ^ 29) : (Operation.get path).Sendable := by
  refine ⟨h0, ?_⟩
  rw [wire, length_watchWire]
  omega

theorem getChildren (h0 : 0 ∉ path) (hsize : path.length + 64 < 2 ^ 29) : (Operation.getChildren path).Sendable := by
  refine ⟨h0, ?_⟩
  rw [wire, length_watchWire]
  omega

end Sendable

end Operation

/-! ### Commands -/

inductive Shell.Command where
  | get (path : Bytes)
  | create (path : Bytes) (data : Option Bytes)
  | mkdir (path : Bytes)
  | ls (path : Bytes)
  | stat (path : Bytes)
  | set (path data : Bytes)
  | del (path : Bytes)
  | quit
  | unknown
  deriving DecidableEq, Repr

namespace Shell.Command

/-- A path argument without the slashes at its end. -/
def pathOf (arg : Bytes) : Bytes := stripSlashes arg.length arg

/-- The command in the words of a line; `none` when there are too few of them. -/
def parse (args : List Bytes) : Option Command :=
  let cmd := args.headD []
  let path := args[1]?.map pathOf
  if cmd = getCmd then path.map get
  else if cmd = createCmd then path.map (create · args[2]?)
  else if cmd = mkdirCmd then path.map mkdir
  else if cmd = lsCmd then path.map ls
  else if cmd = statCmd then path.map stat
  else if cmd = setCmd then path.bind fun path => args[2]?.map (set path)
  else if cmd = delCmd then path.map del
  else if cmd = quitCmd ∨ cmd = exitCmd then some quit
  else some unknown

/-- The arguments are strings that fit into a request. -/
def Fits : Command → Prop
  | create path data => 0 ∉ path ∧ path.length + (data.getD []).length + 64 < 2 ^ 29
  | set path data => 0 ∉ path ∧ path.length + data.length + 64 < 2 ^ 29
  | get path | mkdir path | ls path | stat path | del path => 0 ∉ path ∧ path.length + 64 < 2 ^ 29
  | quit | unknown => True

/-- The undefined behaviour that a command can have when the server answers in the format of the protocol: null pointers
and accesses outside of a block. -/
def risks : Command → List Fault
  | get _ => [.nullPointer "data.buff", .outOfBounds "data.buff"]
  | mkdir _ => [.nullPointer "strrchr"]
  | _ => []

/-- The words of a line fit together, and then the command does. -/
theorem fits_of_parse {args : List Bytes} {c : Command} (h0 : ∀ arg ∈ args, 0 ∉ arg)
    (hlen : args.flatten.length + 64 < 2 ^ 29) (hc : parse args = some c) : c.Fits := by
  have hfits : ∀ path, args[1]?.map pathOf = some path →
      0 ∉ path ∧ path.length + (args[2]?.getD []).length + 64 < 2 ^ 29 := by
    intro path h
    obtain ⟨arg, harg, rfl⟩ := Option.map_eq_some_iff.1 h
    have hpre : pathOf arg <+: arg := stripSlashes_prefix arg.length arg
    refine ⟨fun hmem => h0 arg (List.mem_of_getElem? harg) (hpre.subset hmem), ?_⟩
    have hle := hpre.length_le
    rcases args with _ | ⟨cmd, _ | ⟨arg', _ | ⟨data, rest⟩⟩⟩ <;> simp at harg hlen ⊢
    all_goals
      subst harg
      omega
  have hmap : ∀ f : Bytes → Command,
      (∀ path, 0 ∉ path → path.length + (args[2]?.getD []).length + 64 < 2 ^ 29 → (f path).Fits) →
      (args[1]?.map pathOf).map f = some c → c.Fits := by
    intro f hf h
    obtain ⟨path, hpath, rfl⟩ := Option.map_eq_some_iff.1 h
    exact hf path (hfits path hpath).1 (hfits path hpath).2
  have hshort : ∀ path : Bytes, 0 ∉ path → path.length + (args[2]?.getD []).length + 64 < 2 ^ 29 →
      0 ∉ path ∧ path.length + 64 < 2 ^ 29 := fun path h0 hlt => ⟨h0, by omega⟩
  unfold parse at hc
  dsimp only at hc
  split_ifs at hc
  · exact hmap get hshort hc
  · exact hmap (create · args[2]?) (fun path h0 hlt => ⟨h0, hlt⟩) hc
  · exact hmap mkdir hshort hc
  · exact hmap ls hshort hc
  · exact hmap stat hshort hc
  · obtain ⟨path, hpath, hset⟩ := Option.bind_eq_some_iff.1 hc
    obtain ⟨data, hdata, rfl⟩ := Option.map_eq_some_iff.1 hset
    obtain ⟨h0, hlt⟩ := hfits path hpath
    rw [hdata] at hlt
    exact ⟨h0, hlt⟩
  · exact hmap del hshort hc
  · obtain rfl := Option.some.inj hc
    trivial
  · obtain rfl := Option.some.inj hc
    trivial

end Shell.Command

/-! ### The shell -/

structure Shell (S : Type) where
  server : S
  /-- The timeout of the session in milliseconds, which the next session is asked for. -/
  timeOut : Int32
  lastErr : Int
  output : List (String × List Arg)
  faults : List Fault

namespace Shell

variable {S : Type} (v : Service S)

/-- Ask the service to do an operation. -/
def ask (op : Operation) : StateM (Shell S) op.received.Reply := fun x =>
  let r := v.operate op.received x.server
  (r.1, { x with server := r.2, lastErr := r.1.err.toInt })

def print (fmt : String) (args : List Arg) : StateM (Shell S) Unit := fun x =>
  ((), { x with output := x.output ++ [(fmt, args)] })

def fault (f : Fault) : StateM (Shell S) Unit := fun x => ((), { x with faults := x.faults ++ [f] })

/-- Print that a command has failed with the last error; the status is this error. -/
def report (fmt : String) (path : Bytes) : StateM (Shell S) Int := fun x =>
  (x.lastErr, { x with output := x.output ++ [(fmt, [.bytes path, .text (zkErrorText x.lastErr)])] })

def lastStatus : StateM (Shell S) Int := fun x => (x.lastErr, x)

/-- A command that asks once and prints one of two lines. -/
def askOnce (op : Operation) (path : Bytes) (success failure : String) : StateM (Shell S) Int := do
  match ← ask v op with
  | .refused .. => report failure path
  | .done .. => do
    print success [.bytes path]
    return zkOk

/-- A number, or above the range of 32 bits its digits. -/
def numberOrDigits (n : Int) : Json := if n ≤ 2147483647 then .number n else .string (Decimal.digits n.toNat)

def statMembers (stat : Stat) : List (String × Json) :=
  [("version", .number stat.version.toInt), ("cversion", .number stat.cversion.toInt),
    ("aversion", .number stat.aversion.toInt), ("dataLength", .number stat.dataLength.toInt),
    ("numChildren", .number stat.numChildren.toInt), ("czxid", numberOrDigits stat.czxid.toInt),
    ("mzxid", numberOrDigits stat.mzxid.toInt), ("pzcxid", numberOrDigits stat.pzxid.toInt),
    ("ctime", numberOrDigits stat.ctime.toInt), ("mtime", numberOrDigits stat.mtime.toInt),
    ("ephemeralOwner", numberOrDigits stat.ephemeralOwner.toInt)]

/-- The node exists, and then its data is asked for; the terminator is put behind the data, out of their block. -/
def printData (path : Bytes) : StateM (Shell S) Int := do
  match ← ask v (.exists path) with
  | .refused .. => report "get %s failed, %s.\n" path
  | .done stat .. =>
    let stat : Stat := stat
    if stat.dataLength = 0 then do
      print "\x7b\x7d\n" []
      return zkOk
    else do
      match ← ask v (.get path) with
      | .refused .. => report "get %s failed, %s.\n" path
      | .done data .. => do
        match (data : Option Bytes × Stat).1 with
        | none => fault (.nullPointer "data.buff")
        | some bs => do
          fault (.outOfBounds "data.buff")
          print "%s\n" [.bytes (bs.takeWhile (· ≠ 0))]
        return zkOk

def printNames (path : Bytes) : StateM (Shell S) Int := do
  match ← ask v (.getChildren path) with
  | .refused .. => report "ls %s failed, %s.\n" path
  | .done names .. => do
    let names : List Bytes := names
    names.forM fun name => print "%s\t" [.bytes name]
    if names ≠ [] then print "\n" []
    return zkOk

def printStat (path : Bytes) : StateM (Shell S) Int := do
  match ← ask v (.exists path) with
  | .refused .. => lastStatus
  | .done stat .. => do
    print "%s\n" [.json (statMembers stat)]
    return zkOk

/-- `zk_mkdir`, with the service's creates. -/
def makePath (path : Bytes) : StateM (Shell S) Int :=
  zkMkdirWith (fun path => do return (← ask v (.create path none 0 0)).err.toInt) (fault (.nullPointer "strrchr")) path

/-- What a command does, and its status. -/
def act : Command → StateM (Shell S) Int
  | .get path => printData v path
  | .create path data =>
    askOnce v (.create path data (Int32.ofNat (data.getD []).length) 0) path "create %s success.\n"
      "create %s failed, %s.\n"
  | .mkdir path => do
    let status ← makePath v path
    if status = zkOk then do
      print "mkdir %s success.\n" [.bytes path]
      return zkOk
    else report "mkdir %s failed, %s.\n" path
  | .ls path => printNames v path
  | .stat path => printStat v path
  | .set path data =>
    askOnce v (.set path { len := Int32.ofNat data.length, buff := some data }) path "set %s success.\n"
      "set %s failed, %s.\n"
  | .del path => askOnce v (.del path) path "del %s success.\n" "del %s failed, %s.\n"
  | .quit => return zkOk
  | .unknown => do
    print "%s\n" [.text "Unkonwn command."]
    return zkOk

/-- A new session. -/
def connect : StateM (Shell S) Unit := fun x =>
  let r := v.connect (sessionRequest x.timeOut) x.server
  ((), { x with server := r.2, timeOut := r.1.timeOut })

/-- The session is renewed when the command has met an error that asks for it, or the last error still does. -/
def process (args : List Bytes) : StateM (Shell S) Unit := do
  match Command.parse args with
  | none => print "Error num of arguments.\n" []
  | some c => do
    let status ← act v c
    let last ← lastStatus
    if status = zkSocketErr ∨ checkReconnect last then do
      connect v
      print logFormat (Level.warn.line "Reconnect to zookeeper success.")

/-- What is offered for a text when these are the children: the names that begin with what was typed, or the text with
the only one. -/
def offers (buf : Bytes) (names : List Bytes) : List Bytes :=
  match names.filter ((typedName (lastWord buf)).isPrefixOf ·) with
  | [only] => [directory buf ++ only]
  | found => found

/-- The completions of a text. -/
def complete (text : Bytes) : StateM (Shell S) (List Bytes) := do
  let buf := typedLine text
  if buf = [] then return []
  else if 32 ∉ buf then return commands.filter (buf.isPrefixOf ·)
  else if slash ∉ lastWord buf then return []
  else do
    match ← ask v (.getChildren (completionQuery text)) with
    | .refused .. => return []
    | .done names .. => return offers buf names

def words (text : Bytes) : List Bytes := (cut [32] text).filter (· ≠ [])

def loop : List Input → StateM (Shell S) (List (List Bytes))
  | [] => return []
  | .tab text :: inputs => do
    let offered ← complete v text
    let rest ← loop inputs
    return offered :: rest
  | .line text :: inputs => do
    if words text ≠ [] then process v (words text)
    if quits (words text) then return [] else loop inputs

def close : StateM (Shell S) Unit := fun x =>
  let r := v.header closeOpcode x.server
  ((), { x with server := r.2, lastErr := r.1.toInt })

def main (inputs : List Input) : StateM (Shell S) (List (List Bytes)) := do
  connect v
  let offers ← loop v inputs
  close v
  return offers

end Shell

end ZkClient
