import ZkClient.Request

/-!
# Connections (`conn.c`, `zkclient.c`)

Opening a connection to one server of the list, the retry loop over the list, the ping thread, and the two ways a
connection ends: `reset_zkclient` and `destroy_client`.
-/

namespace ZkClient

open Pthread

@[simp] def pollin : Nat := 1
@[simp] def pollout : Nat := 4

/-- `CR_READ` and `CR_WRITE`. -/
inductive RwMode where
  | read
  | write
  deriving DecidableEq, Repr

/-- `do_poll` and `wait_socket`, as functions of the return value `n` of `poll` and the events it reports. -/
def waitResult (rw : RwMode) (n : Int) (revents : Nat) : Int :=
  let rc : Int := if 0 < n then revents else n
  if rc ≤ 0 then zkSocketErr
  else if rw = .read ∧ revents &&& pollin ≠ 0 then zkOk
  else if rw = .write ∧ revents &&& pollout ≠ 0 then zkOk
  else zkSocketErr

/-- `wait_socket`. -/
def waitSocket (fd timeout : Int) (rw : RwMode) : Zk Int := do
  let (n, revents) ← perform (.poll fd timeout)
  return waitResult rw n revents

/-- The loop of `host2IP` over the characters of the name: the test it makes is true of every character. -/
def isIp (host : Bytes) : Bool := host.all fun b => ¬ (b ≠ 46 ∨ b < 48 ∨ b > 57)

/-- `host2IP`: whether there is an address for the name. -/
def host2Ip (host : Bytes) : Zk Bool := if isIp host then return true else perform (.gethostbyname host)

/-- `connect_server`.  The address is resolved after the socket is made, and the result of waiting for the connection
is compared with `ZK_ERROR`. -/
def connectServer (host : Bytes) (port timeout : Int) : Zk Int := do
  if port ≤ 0 then return -1
  let sock ← perform .socket
  if sock < 0 then return -1
  let found ← host2Ip host
  if ¬ found then return -1
  let accepted ← perform (.inetPton host)
  if ¬ accepted then do
    perform (.close sock)
    return zkError
  let (rc, errno) ← perform (.connect sock port)
  if rc = -1 ∧ errno ≠ einprogress then do
    perform (.close sock)
    return zkError
  let rc ← waitSocket sock timeout .write
  if rc = zkError then do
    perform (.close sock)
    return zkError
  return sock

/-! ### The ping thread -/

/-- A value converted to an `int`. -/
def asInt (v : Int) : Int := (Int32.ofInt v).toInt

theorem asInt_eq {v : Int} (h0 : -2 ^ 31 ≤ v) (hlt : v < 2 ^ 31) : asInt v = v := Int32.toInt_ofInt_of_le h0 hlt

section Threads

variable (H : Heap)

/-- One round of `do_ping_loop`; the result says whether there is a next one. -/
def doPingLoop : Zk Bool := do
  if (← perform .load).state = zkStateStop then return false
  let now := asInt (← perform .time)
  let c ← perform .load
  let past := now - c.lastPing
  if asInt past ≠ past then perform (.undefined (.overflow "now - c->last_ping"))
  if (c.sessionTimeout.toInt.tdiv 1000).tdiv 6 ≤ past then do
    let _ ← zkPing H
    perform (.store (.lastPing now))
  perform .usleep
  return true

/-- `start_ping_thread`. -/
def startPingThread : Zk Unit := .create fun t => perform (.store (.pingTid t))

/-! ### Resetting -/

def resetZkclient : Zk Unit := do
  -- the previous holder of the lock is taken to be the ping thread
  let _ ← trylock
  unlock
  let t ← perform .pingTid
  if t ≠ 0 then .cancel t (.ret ())
  let c ← perform .load
  if c.sock ≠ 0 then perform (.close c.sock)
  perform (.store (.sock (-1)))
  perform (.store (.state zkStateInit))
  perform (.store (.lastPing 0))
  perform (.store (.sessionId 0))
  perform (.store (.lastZxid 0))
  if H.ok .passwd 16 then perform (.store (.passwd { len := 16, buff := some (List.replicate 16 0) }))
  else do
    perform (.undefined (.nullPointer "c->passwd"))
    perform (.store (.passwd { len := 16, buff := none }))

/-! ### The server list -/

/-- `strtol` in base ten: blanks, a sign, digits; what does not fit into a `long` is replaced by the nearest one. -/
def strtol (s : Bytes) : Int :=
  let s := s.dropWhile fun b => b = 32 ∨ (9 ≤ b ∧ b ≤ 13)
  let digits (s : Bytes) : Int :=
    (s.takeWhile fun b => 48 ≤ b ∧ b ≤ 57).foldl (fun n b => 10 * n + (b.toNat - 48)) 0
  let value : Int :=
    match s with
    | 45 :: s => -digits s
    | 43 :: s => digits s
    | s => digits s
  max (-2 ^ 63) (min value (2 ^ 63 - 1))

/-- `atoi`: the `long` that `strtol` reads, converted to an `int`. -/
def atoi (s : Bytes) : Int := asInt (strtol s)

/-- The size of the local array `host`. -/
@[simp] def hostSize : Nat := 512

/-- The body of the retry loop for the list entry `server`: whether the client is authenticated now. -/
def connectTo (server : Bytes) : Zk Bool := do
  match strrchr server 58 with
  | none => return false
  | some pos => do
    if hostSize ≤ pos then perform (.undefined (.outOfBounds "host"))
    let c ← perform .load
    let sock ← connectServer (server.take pos) (atoi (server.drop (pos + 1))) c.connectTimeout
    if sock = zkError then return false
    perform (.store (.sock sock))
    perform (.store (.state zkStateConnected))
    let rc ← authenticate H
    if rc = zkOk then do
      startPingThread
      perform (.store (.state zkStateAuthed))
      return true
    else return false

/-- `while (--retries >= 0)`. -/
def connectLoop (servers : List Bytes) : Nat → Nat → Zk Int
  | 0, _ => return zkError
  | retries + 1, start => do
    let connected ← connectTo H ((servers[start % servers.length]?).getD [])
    if connected then return zkOk else connectLoop servers retries (start + 1)

def doConnect : Zk Int := do
  let c ← perform .load
  let r ← perform .rand
  connectLoop H c.servers c.servers.length (r % c.servers.length)

/-! ### Creation and destruction -/

/-- The client as `new_client` fills it in before it connects; `lastErr` and `pingTid` are not assigned there. -/
def initClient (servers : List Bytes) (sessionTimeout timeout now lastErr : Int) (pingTid : Nat) : Client :=
  let session := sessionTimeout * 1000
  let connectTimeout := if timeout < 0 then session.tdiv 3 else timeout * 1000
  { sock := -1, servers, lastZxid := 0, sessionId := 0, sessionTimeout := Int32.ofInt session, connectTimeout
    readTimeout := connectTimeout, writeTimeout := connectTimeout, state := zkStateInit, lastErr
    passwd := { len := 16, buff := some (List.replicate 16 0) }, lastPing := asInt now, pingTid }

def destroyClient : Zk Unit := do
  perform (.store (.state zkStateStop))
  perform (.join (← perform .load).pingTid)
  let _ ← zkClose H
  let c ← perform .load
  if 0 < c.sock then perform (.close c.sock)

end Threads

end ZkClient
