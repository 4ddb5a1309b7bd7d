import ZkClient.Connection

/-!
# Commands (`main.c`)

The command functions, the dispatcher `processCommand` with its reconnect decision, and tab completion.  Command lines
arrive as the list of words that the tokenizer made of them.
-/

namespace ZkClient

open Pthread

/-! ### Numbers in the output (`util.c`, `main.c`) -/

/-- A block of `char`s being filled: its cells, unset at first, and the indices written, last first. -/
structure Block where
  cells : List (Option UInt8)
  writes : List Int
  deriving DecidableEq, Repr

def Block.write (b : Block) (i : Int) (c : UInt8) : Block :=
  { cells := if 0 ≤ i then b.cells.set i.toNat (some c) else b.cells, writes := i :: b.writes }

private theorem tdiv_ten_lt {v : Int} (h : 0 < v) : (v.tdiv 10).toNat < v.toNat := by
  rw [Int.tdiv_eq_ediv_of_nonneg (by omega)]
  omega

private theorem pos_of_tdiv_pos {v : Int} (h : 0 < v.tdiv 10) : 0 < v := by
  by_contra hneg
  have hnonneg := Int.tdiv_nonneg (a := -v) (b := 10) (by omega) (by omega)
  rw [Int.neg_tdiv] at hnonneg
  omega

/-- `while ((tmp /= 10) > 0) len++`. -/
def ll2stringLen (tmp : Int) (len : Nat) : Nat :=
  if h : 0 < tmp.tdiv 10 then ll2stringLen (tmp.tdiv 10) (len + 1) else len
termination_by tmp.toNat
decreasing_by exact tdiv_ten_lt (pos_of_tdiv_pos h)

/-- `while (v > 0) { buf[i--] = v % 10 + '0'; v /= 10; }`. -/
def ll2stringFill (v i : Int) (b : Block) : Block :=
  if h : 0 < v then ll2stringFill (v.tdiv 10) (i - 1) (b.write i (UInt8.ofNat (v.tmod 10 + 48).toNat)) else b
termination_by v.toNat
decreasing_by exact tdiv_ten_lt h

def ll2string (v : Int) : Block :=
  let len := ll2stringLen v 2
  let b := ll2stringFill v (len - 2 : Int) { cells := List.replicate len none, writes := [] }
  b.write (len - 1 : Int) 0

/-- The string in a block: its characters up to the first NUL. -/
def Block.string (H : Heap) (b : Block) : Bytes :=
  ((List.range b.cells.length).map fun i => ((b.cells[i]?).join).getD (H.junk i)).takeWhile (· ≠ 0)

/-- `cJSON_AddLonglongToObject`. -/
def addLonglong (H : Heap) (v : Int) : Json := if v ≤ 2147483647 then .number v else .string ((ll2string v).string H)

/-- The characters `(null)`, which `printf` shows for a null pointer. -/
def nullText : Bytes := [40, 110, 117, 108, 108, 41]

/-- A `char *` as an argument of `printf`. -/
def Arg.str (s : Option Bytes) : Arg := .bytes (s.getD nullText)

/-! ### Log lines (`util.c`) -/

/-- `enum LEVEL`. -/
inductive Level where
  | debug
  | info
  | warn
  | error
  deriving DecidableEq, Repr

def Level.msg : Level → String
  | debug => "DEBUG"
  | info => "INFO"
  | warn => "WARN"
  | error => "ERROR"

def Level.color : Level → String
  | debug => "\x1b[33m"
  | info => "\x1b[32m"
  | warn => "\x1b[35m"
  | error => "\x1b[31m"

/-- A line of `logger` on the standard output. -/
def logFormat : String := "%s[%s] [%s] %s\x1b[0m\n"

def Level.line (level : Level) (text : String) : List Arg := [.text level.color, .now, .text level.msg, .text text]

/-- `logger` at the level that the program starts with, and without a log file. -/
def logger (level : Level) (text : String) : Zk Unit := do
  if level = .debug then return ()
  perform (.printf logFormat (level.line text))
  if level = .error then perform .exit

theorem logger_warn (text : String) : logger .warn text = perform (.printf logFormat (Level.warn.line text)) := rfl

theorem logger_error (text : String) : logger .error text = (do
    perform (.printf logFormat (Level.error.line text))
    perform .exit) := rfl

/-! ### Command functions -/

section Commands

variable (H : Heap)

/-- `printf(fmt, path, zk_error(c)); return c->last_err;` -/
def reportError (fmt : String) (path : Option Bytes) : Zk Int := do
  perform (.printf fmt [.str path, .text (zkErrorText (← perform .load).lastErr)])
  return (← perform .load).lastErr

def getCommand (path : Option Bytes) : Zk Int := do
  let (status, stat) ← zkExists H path true
  if status ≠ 1 then reportError "get %s failed, %s.\n" path
  else do
    -- a header whose error is 1 is returned as it is, without a stat
    if stat.isNone then perform (.undefined (.readUnassigned "stat"))
    if (stat.getD (uninitStat H)).dataLength = 0 then do
      perform (.printf "\x7b\x7d\n" [])
      return zkOk
    else do
      let (status, data) ← zkGet H path true
      if status ≠ zkOk then reportError "get %s failed, %s.\n" path
      else do
        let data := data.getD ⟨0, none⟩
        match data.buff with
        | none => perform (.undefined (.nullPointer "data.buff"))
        | some bs => do
          -- the terminator is written at index `data.len`
          if ¬ (0 ≤ data.len.toInt ∧ data.len.toInt < bs.length) then perform (.undefined (.outOfBounds "data.buff"))
          perform (.printf "%s\n" [.bytes ((bs.take data.len.toInt.toNat).takeWhile (· ≠ 0))])
        return zkOk

def createCommand (path buf : Option Bytes) (len : Int32) : Zk Int := do
  let status ← zkCreate H path buf len 0
  if status = zkOk then do
    perform (.printf "create %s success.\n" [.str path])
    return zkOk
  else reportError "create %s failed, %s.\n" path

def mkdirCommand (path : Option Bytes) : Zk Int := do
  let status ← zkMkdir H path
  if status = zkOk then do
    perform (.printf "mkdir %s success.\n" [.str path])
    return zkOk
  else reportError "mkdir %s failed, %s.\n" path

/-- The pointer `v.data[i]`, reporting an index outside the array. -/
def StringVector.entry (v : StringVector) (i : Nat) : Zk (Option Bytes) := do
  match v.data with
  | none => do
    perform (.undefined (.nullPointer "data"))
    return none
  | some xs =>
    match xs[i]? with
    | none => do
      perform (.undefined (.outOfBounds "data"))
      return none
    | some s => do
      if s.isNone then perform (.undefined (.nullPointer "data[i]"))
      return s

/-- `for (i = 0; i < childs.count; i++) printf("%s\t", childs.data[i]);` from index `i` on. -/
def printChildren (v : StringVector) : Nat → Nat → Zk Unit
  | 0, _ => return ()
  | n + 1, i => do
    let s ← v.entry i
    perform (.printf "%s\t" [.str s])
    printChildren v n (i + 1)

def lsCommand (path : Option Bytes) : Zk Int := do
  let (status, childs) ← zkGetChildren H path
  if status ≠ zkOk then reportError "ls %s failed, %s.\n" path
  else do
    let childs := childs.getD ⟨H.int, none⟩
    printChildren childs childs.count.toInt.toNat 0
    if 0 < childs.count.toInt then perform (.printf "\n" [])
    return zkOk

/-- The JSON object that `statCommand` prints. -/
def statJson (stat : Stat) : List (String × Json) :=
  [("version", .number stat.version.toInt), ("cversion", .number stat.cversion.toInt),
    ("aversion", .number stat.aversion.toInt), ("dataLength", .number stat.dataLength.toInt),
    ("numChildren", .number stat.numChildren.toInt), ("czxid", addLonglong H stat.czxid.toInt),
    ("mzxid", addLonglong H stat.mzxid.toInt), ("pzcxid", addLonglong H stat.pzxid.toInt),
    ("ctime", addLonglong H stat.ctime.toInt), ("mtime", addLonglong H stat.mtime.toInt),
    ("ephemeralOwner", addLonglong H stat.ephemeralOwner.toInt)]

def statCommand (path : Option Bytes) : Zk Int := do
  let (status, stat) ← zkExists H path true
  if status ≠ 1 then return (← perform .load).lastErr
  else do
    if stat.isNone then perform (.undefined (.readUnassigned "stat"))
    perform (.printf "%s\n" [.json (statJson H (stat.getD (uninitStat H)))])
    return zkOk

/-- The version from the command line does not reach `zk_set`. -/
def setCommand (path : Option Bytes) (buf : Bytes) (len : Int32) (_version : Int) : Zk Int := do
  let status ← zkSet H path { len, buff := some buf }
  if status ≠ zkOk then reportError "set %s failed, %s.\n" path
  else do
    perform (.printf "set %s success.\n" [.str path])
    return zkOk

/-- The version from the command line does not reach `zk_del`. -/
def delCommand (path : Option Bytes) (_version : Int) : Zk Int := do
  let status ← zkDel H path
  if status ≠ zkOk then reportError "del %s failed, %s.\n" path
  else do
    perform (.printf "del %s success.\n" [.str path])
    return zkOk

end Commands

/-! ### The dispatcher -/

def lsCmd : Bytes := [108, 115]
def getCmd : Bytes := [103, 101, 116]
def createCmd : Bytes := [99, 114, 101, 97, 116, 101]
def setCmd : Bytes := [115, 101, 116]
def quitCmd : Bytes := [113, 117, 105, 116]
def exitCmd : Bytes := [101, 120, 105, 116]
def statCmd : Bytes := [115, 116, 97, 116]
def delCmd : Bytes := [100, 101, 108]
def mkdirCmd : Bytes := [109, 107, 100, 105, 114]

/-- `while (path_len > 1 && path[path_len - 1] == '/')` cut the last character. -/
def stripSlashes : Nat → Bytes → Bytes
  | 0, path => path
  | n + 1, path => if 1 < path.length ∧ path.getLast? = some slash then stripSlashes n path.dropLast else path

theorem stripSlashes_prefix (n : Nat) (path : Bytes) : stripSlashes n path <+: path := by
  induction n generalizing path with
  | zero => exact List.prefix_refl _
  | succ n ih =>
    rw [stripSlashes]
    split
    · exact (ih _).trans (List.dropLast_prefix _)
    · exact List.prefix_refl _

section Dispatch

variable (H : Heap)

/-- The command of the line `args`: its status, or `none` when it has too few arguments. -/
def runCommand (args : List Bytes) : Zk (Option Int) := do
  let narg := args.length
  let cmd := args.headD []
  let path := (args[1]?).map fun path => stripSlashes path.length path
  if cmd = getCmd then
    if narg < 2 then return none
    return some (← getCommand H path)
  else if cmd = createCmd then
    if narg < 2 then return none
    let buf := args[2]?
    return some (← createCommand H path buf (Int32.ofNat (buf.getD []).length))
  else if cmd = mkdirCmd then
    if narg < 2 then return none
    return some (← mkdirCommand H path)
  else if cmd = lsCmd then
    if narg < 2 then return none
    return some (← lsCommand H path)
  else if cmd = statCmd then
    if narg < 2 then return none
    return some (← statCommand H path)
  else if cmd = setCmd then
    if narg < 3 then return none
    let data := (args[2]?).getD []
    return some (← setCommand H path data (Int32.ofNat data.length) ((args[3]?).elim (-1) atoi))
  else if cmd = delCmd then
    if narg < 2 then return none
    return some (← delCommand H path ((args[2]?).elim (-1) atoi))
  else if cmd = quitCmd ∨ cmd = exitCmd then
    -- `quitCommand` only sets the flag that ends the loop of `main`
    return some zkOk
  else do
    perform (.printf "%s\n" [.text "Unkonwn command."])
    return some zkOk

/-- `reset_zkclient` and `do_connect`; the process exits in `logger` when no server accepts. -/
def reconnect : Zk Unit := do
  resetZkclient H
  let rc ← doConnect H
  if rc ≠ zkOk then logger .error "Reconnect to zookeeper error, exited..."
  else logger .warn "Reconnect to zookeeper success."

/-- `processCommand`. -/
def processCommand (args : List Bytes) : Zk Unit := do
  match ← runCommand H args with
  | none => perform (.printf "Error num of arguments.\n" [])
  | some status => do
    let c ← perform .load
    if status = zkSocketErr ∨ checkReconnect c.lastErr then reconnect H

end Dispatch

/-! ### Completion -/

/-- `while (low <= i && !stop(buf[i])) --i`. -/
def scanBack (stop : UInt8 → Bool) (low : Int) (buf : Bytes) : Nat → Int → Int
  | 0, i => i
  | n + 1, i => if low ≤ i ∧ ¬ stop (buf.getD i.toNat 0) then scanBack stop low buf n (i - 1) else i

/-- `strncmp(a, b, n) == 0`. -/
def strncmpEq : Bytes → Bytes → Nat → Bool
  | _, _, 0 => true
  | a, b, n + 1 => a.headD 0 = b.headD 0 && (a.headD 0 = 0 || strncmpEq a.tail b.tail n)

/-- The children whose names start with what was typed, from index `i` on. -/
def offerChildren (v : StringVector) (typed : Bytes) : Nat → Nat → Zk (List Bytes)
  | 0, _ => return []
  | n + 1, i => do
    let s := (← v.entry i).getD []
    let rest ← offerChildren v typed n (i + 1)
    return if strncmpEq typed s typed.length then s :: rest else rest

/-- `path_completion`: the completions offered for the line `buf`. -/
def pathCompletion (H : Heap) (buf : Bytes) : Zk (List Bytes) := do
  let len : Int := buf.length
  let lastSpacePos := scanBack (fun b => b = 32 ∨ b = 9) 0 buf buf.length (len - 1)
  if lastSpacePos = len - 1 then return []
  let lastSlashPos := scanBack (· = slash) 1 buf buf.length (len - 1)
  if lastSlashPos - lastSpacePos ≤ 0 then return []
  let pathLen := (lastSlashPos - lastSpacePos).toNat
  let path := (buf.drop (lastSpacePos + 1).toNat).take pathLen
  let path := if 1 < pathLen ∧ path.getLast? = some slash then path.dropLast else path
  let (status, childrens) ← zkGetChildren H (some path)
  if status ≠ zkOk then return []
  let childrens := childrens.getD ⟨0, none⟩
  let offered ← offerChildren childrens (buf.drop (lastSlashPos + 1).toNat) childrens.count.toInt.toNat 0
  match offered with
  | [only] => return [buf.take (lastSlashPos + 1).toNat ++ only]
  | _ => return offered

/-- The order of `commands`. -/
def commands : List Bytes := [lsCmd, createCmd, getCmd, setCmd, delCmd, statCmd, mkdirCmd, quitCmd]

/-- `command_completion`. -/
def commandCompletion (buf : Bytes) : List Bytes := commands.filter fun c => strncmpEq buf c buf.length

/-- `completion`. -/
def completion (H : Heap) (line : Bytes) : Zk (List Bytes) := do
  let buf := line.dropWhile fun b => b = 32 ∨ b = 9
  if buf = [] then return []
  if 32 ∈ buf then pathCompletion H buf
  else return commandCompletion buf

end ZkClient
