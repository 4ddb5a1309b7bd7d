import ZkClient.Commands

/-!
# The client on its own

One thread of the client against an operating system and a server that are given in advance: the outcomes of the
coming system calls are lists in the world, and the bytes that the server sends are a stream.  `readSocket` and
`writeSocket` are the transfer loops of `read_socket` and `send_request`, `recvResponse` and `sendRequest` the
functions around them, and `World.handle` answers every operation of the client.

A list that is used up stands for a peer that has gone: `poll` times out, `read` answers 0, `write` fails.  So every
run ends, and every finite pattern of outcomes occurs in some world.
-/

namespace ZkClient

open BigEndian

/-- The outcome of a `read`: some bytes (at least one, at most as many as asked for and as have arrived), end of file,
or `-1` with an `errno`. -/
inductive ReadResult where
  | bytes (n : Nat)
  | eof
  | fail (errno : Int)
  deriving DecidableEq, Repr

/-- The outcome of a `write`: some bytes accepted (at least one, at most as many as offered), or `-1`. -/
inductive WriteResult where
  | bytes (n : Nat)
  | fail (errno : Int)
  deriving DecidableEq, Repr

structure World where
  client : Client
  xid : Int32
  clock : List Int
  rands : List Nat
  polls : List (Int × Nat)
  writes : List WriteResult
  reads : List ReadResult
  sockets : List Int
  hosts : List Bool
  addrs : List Bool
  connects : List (Int × Int)
  /-- What the server of the current connection sends and the client has not read. -/
  stream : Bytes
  /-- What the servers of the coming connections send. -/
  streams : List Bytes
  /-- What the socket of the current connection has accepted. -/
  wire : Bytes
  /-- The descriptors that the client has opened and not closed. -/
  opened : List Int
  /-- The descriptor that `connect_server` has made and `c->sock` does not hold yet. -/
  setup : Option Int
  /-- The descriptors on which `close` was called while they were not open. -/
  stale : List Int
  /-- How many times `read` has answered 0. -/
  eofs : Nat
  output : List (String × List Arg)
  faults : List Fault
  exited : Bool

/-- A world in which nothing is about to happen. -/
def World.idle (client : Client) : World :=
  { client, xid := -1, clock := [], rands := [], polls := [], writes := [], reads := [], sockets := [], hosts := []
    addrs := [], connects := [], stream := [], streams := [], wire := [], opened := [], setup := none, stale := []
    eofs := 0, output := [], faults := [], exited := false }

/-! ### Transfers -/

/-- `decode_int32`. -/
def decodeInt32 (buf : Bytes) (off : Nat) : Int32 :=
  let byte (i : Nat) : UInt32 := (buf.getD (off + i) 0).toUInt32
  ((byte 0 <<< 24) ||| (byte 1 <<< 16) ||| (byte 2 <<< 8) ||| (byte 3 &&& 0xff)).toInt32

/-- The four bytes that `send_request` puts before the payload. -/
def lengthPrefix (len : Nat) : Bytes :=
  [UInt8.ofNat (len >>> 24), UInt8.ofNat (len >>> 16), UInt8.ofNat (len >>> 8), UInt8.ofNat (len &&& 0xff)]

/-- Memory around the receive buffer: the byte at each offset from its start. -/
abbrev Memory := Int → UInt8

/-- Copy `bs` to the offset `r`. -/
def Memory.store (mem : Memory) (r : Int) (bs : Bytes) : Memory := fun i =>
  if r ≤ i ∧ i < r + bs.length then bs.getD (i - r).toNat 0 else mem i

/-- The first `len` bytes of the buffer. -/
def Memory.block (mem : Memory) (len : Int) : Bytes := (List.range len.toNat).map fun (i : Nat) => mem i

/-- What `read_socket` leaves behind; `outside` says that a read was given a position before the buffer.  A loop that is
`endless` repeats a read that cannot succeed until `r_bytes` overflows, and then `status` stands for nothing. -/
structure Received where
  status : Int
  mem : Memory
  stream : Bytes
  reads : List ReadResult
  closed : Bool
  outside : Bool
  endless : Bool

/-- The loop of `read_socket`, with `r_bytes = r`.  Every outcome is added to `r_bytes`, the `-1` of a failed read
too; `null` says that the buffer is a null pointer. -/
def readSocket (null : Bool) (len : Int) : List ReadResult → Int → Memory → Bytes → Bool → Received
  | [], r, mem, stream, outside =>
    if r < len then { status := zkSocketErr, mem, stream, reads := [], closed := true, outside, endless := false }
    else { status := zkOk, mem, stream, reads := [], closed := false, outside, endless := false }
  | x :: xs, r, mem, stream, outside =>
    if r < len then
      let outside := outside || decide (r < 0)
      match x with
      | .eof => { status := zkSocketErr, mem, stream, reads := xs, closed := true, outside, endless := false }
      | .fail _ =>
        -- the next read would be at the address before the null pointer, where every read fails
        if null then { status := zkSocketErr, mem, stream, reads := xs, closed := false, outside, endless := true }
        -- a retryable error continues, and any other passes the test for 0 and meets the loop condition as well
        else readSocket null len xs (r - 1) mem stream outside
      | .bytes n =>
        let k := min (min (max 1 n) (len - r).toNat) stream.length
        -- nothing comes any more
        if k = 0 then { status := zkSocketErr, mem, stream, reads := xs, closed := true, outside, endless := false }
        -- the bytes that are there cannot be copied to the null pointer and stay where they are (`EFAULT`)
        else if null then { status := zkSocketErr, mem, stream, reads := xs, closed := false, outside, endless := true }
        else readSocket null len xs (r + k) (mem.store r (stream.take k)) (stream.drop k) outside
    else { status := zkOk, mem, stream, reads := x :: xs, closed := false, outside, endless := false }

structure Sent where
  status : Int
  wire : Bytes
  writes : List WriteResult
  outside : Bool

/-- The `k` bytes at offset `w` of the send buffer. -/
def sliceAt (buf : Bytes) (w : Int) (k : Nat) : Bytes :=
  (List.range k).map fun (i : Nat) => if 0 ≤ w + i then buf.getD (w + i).toNat 0 else 0

/-- The write loop of `send_request`, with `w_bytes = w`; a retried `-1` is added to `w_bytes`. -/
def writeSocket (buf : Bytes) : List WriteResult → Int → Bytes → Bool → Sent
  | [], w, wire, outside =>
    { status := if w < buf.length then zkSocketErr else zkOk, wire, writes := [], outside }
  | x :: xs, w, wire, outside =>
    if w < buf.length then
      let outside := outside || decide (w < 0)
      match x with
      | .fail errno =>
        if errno ≠ eagain ∧ errno ≠ eintr then { status := zkSocketErr, wire, writes := xs, outside }
        else writeSocket buf xs (w - 1) wire outside
      | .bytes n =>
        let k := min (max 1 n) (buf.length - w).toNat
        writeSocket buf xs (w + k) (wire ++ sliceAt buf w k) outside
    else { status := zkOk, wire, writes := x :: xs, outside }

namespace World

variable (H : Heap)

def setErr (w : World) (err : Int) : World := { w with client := { w.client with lastErr := err } }

def fault (w : World) (f : Fault) : World := { w with faults := w.faults ++ [f] }

def nextPoll (w : World) : (Int × Nat) × World := (w.polls.headD (0, 0), { w with polls := w.polls.tail })

/-- `close(fd)`. -/
def closeFd (w : World) (fd : Int) : World :=
  { w with
    opened := w.opened.erase fd
    setup := if w.setup = some fd then none else w.setup
    stale := if fd ∈ w.opened ∨ fd < 0 then w.stale else w.stale ++ [fd] }

/-- Take over what `read_socket` left behind. -/
def received (w : World) (x : Received) : World :=
  let w := { w with stream := x.stream, reads := x.reads }
  let w := if x.outside then w.fault (.outOfBounds "read") else w
  let w := if x.endless then w.fault (.overflow "r_bytes") else w
  if x.closed then { w.closeFd w.client.sock with eofs := w.eofs + 1 } else w

/-- `send_request`. -/
def sendRequest (payload : Bytes) (w : World) : Int × World :=
  if ¬ H.ok .sendBuf (payload.length + 4) then (zkError, w.setErr zkError)
  else
    let (p, w) := w.nextPoll
    if waitResult .write p.1 p.2 ≠ zkOk then (zkSocketErr, w.setErr zkSocketErr)
    else
      let x := writeSocket (lengthPrefix payload.length ++ payload) w.writes 0 w.wire false
      let w := { w with wire := x.wire, writes := x.writes }
      let w := if x.outside then w.fault (.outOfBounds "write") else w
      if x.status ≠ zkOk then (zkSocketErr, w.setErr zkSocketErr) else (zkOk, w)

/-- `recv_response` up to the archive: the length of the frame and the received block, `none` for a null pointer. -/
def recvFrame (w : World) : Option (Int × Option Bytes) × World :=
  let (p, w) := w.nextPoll
  if waitResult .read p.1 p.2 ≠ zkOk then (none, w.setErr zkSocketErr)
  else
    let x := readSocket false 4 w.reads 0 (fun i => H.junk i.toNat) w.stream false
    let w := w.received x
    if x.status ≠ zkOk then (none, w.setErr x.status)
    else
      let len := (decodeInt32 (x.mem.block 4) 0).toInt
      let got := H.ok .recvBuf len
      let x := readSocket (!got) len w.reads 0 (fun i => H.junk i.toNat) w.stream false
      let w := w.received x
      if x.status ≠ zkOk then (none, w.setErr x.status)
      else (some (len, if got then some (x.mem.block len) else none), w)

/-- `recv_response`. -/
def recvResponse (w : World) : Option IArchive × World :=
  match w.recvFrame H with
  | (none, w) => (none, w)
  | (some (len, buffer), w) =>
    -- `create_buffer_iarchive` answers a null pointer when it gets no memory
    if H.ok .archive 0 then (some { len, off := 0, buffer }, w) else (none, w)

/-- `get_xid`: the counter starts at the clock and steps over `-1`. -/
def getXid (w : World) : Int32 × World :=
  let start := if w.xid = -1 then Int32.ofInt (w.clock.headD 0) else w.xid
  (start, { w with xid := start + 1, clock := if w.xid = -1 then w.clock.tail else w.clock })

/-- `socket()`: the kernel answers with a descriptor that is not in use, or fails. -/
def socket (w : World) : Int × World :=
  let fd := w.sockets.headD (-1)
  let w := { w with sockets := w.sockets.tail }
  if 0 ≤ fd ∧ fd ∉ w.opened then
    (fd, { w with opened := fd :: w.opened, setup := some fd, wire := []
                  stream := w.streams.headD [], streams := w.streams.tail })
  else (-1, w)

def assign (w : World) (u : Update) : World :=
  { w with client := w.client.assign u, setup := match u with | .sock _ => none | _ => w.setup }

/-- The answers of the world. -/
def handle : Handler World
  | .getXid, w => w.getXid
  | .time, w => (w.clock.headD 0, { w with clock := w.clock.tail })
  | .rand, w => (w.rands.headD 0, { w with rands := w.rands.tail })
  | .load, w => (w.client, w)
  | .pingTid, w => (w.client.pingTid, w)
  | .store u, w => ((), w.assign u)
  | .sendRequest payload, w => w.sendRequest H payload
  | .recvResponse, w => w.recvResponse H
  | .socket, w => w.socket
  | .gethostbyname _, w => (w.hosts.headD false, { w with hosts := w.hosts.tail })
  | .inetPton _, w => (w.addrs.headD false, { w with addrs := w.addrs.tail })
  | .connect _ _, w => (w.connects.headD (-1, 0), { w with connects := w.connects.tail })
  | .poll _ _, w => w.nextPoll
  | .close fd, w => ((), w.closeFd fd)
  | .usleep, w => ((), w)
  | .join _, w => ((), w)
  | .printf fmt args, w => ((), { w with output := w.output ++ [(fmt, args)] })
  | .undefined f, w => ((), w.fault f)
  | .exit, w => ((), { w with exited := true })

@[simp] theorem handle_getXid (w : World) : handle H .getXid w = w.getXid := rfl

@[simp] theorem handle_load (w : World) : handle H .load w = (w.client, w) := rfl

@[simp] theorem handle_store (u : Update) (w : World) : handle H (.store u) w = ((), w.assign u) := rfl

@[simp] theorem handle_sendRequest (payload : Bytes) (w : World) :
    handle H (.sendRequest payload) w = w.sendRequest H payload := rfl

@[simp] theorem handle_recvResponse (w : World) : handle H .recvResponse w = w.recvResponse H := rfl

@[simp] theorem handle_close (fd : Int) (w : World) : handle H (.close fd) w = ((), w.closeFd fd) := rfl

@[simp] theorem handle_printf (fmt : String) (args : List Arg) (w : World) :
    handle H (.printf fmt args) w = ((), { w with output := w.output ++ [(fmt, args)] }) := rfl

@[simp] theorem handle_undefined (f : Fault) (w : World) : handle H (.undefined f) w = ((), w.fault f) := rfl

end World

/-- Run a function of the client alone in the world `w`. -/
abbrev exec {α : Type} (H : Heap) (p : Zk α) (w : World) : α × World := p.run (World.handle H) w

end ZkClient
