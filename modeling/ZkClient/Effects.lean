import ZkClient.Jute
import ZkClient.Lib.Program

/-!
# The client and what it asks of its surroundings

`Client` is `struct _zk_client` and `Eff` lists the operations through which the functions of the client act: reading
and writing the shared client, the two socket transfers `send_request` and `recv_response`, the system calls of the
connection code, and output.  `Zk` is the type of a function of the client: a program of one thread over these
operations.

Undefined behaviour is an operation of its own (`Eff.undefined`): a program reports it at the place where the code
reads or frees something it has not assigned, and goes on as the compiled code would with an indeterminate value.
-/

namespace ZkClient

open Pthread

/-- `struct _zk_client`; `nservers` is the length of `servers`, `pingTid = 0` stands for no thread. -/
structure Client where
  sock : Int
  servers : List Bytes
  lastZxid : Int32
  sessionId : Int32
  sessionTimeout : Int32
  connectTimeout : Int
  readTimeout : Int
  writeTimeout : Int
  state : Int
  lastErr : Int
  passwd : Buffer
  lastPing : Int
  pingTid : Nat
  deriving DecidableEq, Repr

/-- An assignment to one field of the client. -/
inductive Update where
  | sock (fd : Int)
  | lastZxid (zxid : Int32)
  | sessionId (id : Int32)
  | sessionTimeout (ms : Int32)
  | state (s : Int)
  | lastErr (err : Int)
  | passwd (b : Buffer)
  | lastPing (t : Int)
  | pingTid (t : Nat)
  deriving DecidableEq, Repr

def Client.assign (c : Client) : Update → Client
  | .sock fd => { c with sock := fd }
  | .lastZxid zxid => { c with lastZxid := zxid }
  | .sessionId id => { c with sessionId := id }
  | .sessionTimeout ms => { c with sessionTimeout := ms }
  | .state s => { c with state := s }
  | .lastErr err => { c with lastErr := err }
  | .passwd b => { c with passwd := b }
  | .lastPing t => { c with lastPing := t }
  | .pingTid t => { c with pingTid := t }

/-- The undefined behaviours the code can reach. -/
inductive Fault where
  | readUnassigned (what : String)
  | freeUnassigned (what : String)
  | outOfBounds (what : String)
  | nullPointer (what : String)
  | overflow (what : String)
  deriving DecidableEq, Repr

/-- A member value of a JSON object. -/
inductive Json where
  | number (v : Int)
  | string (s : Bytes)
  deriving DecidableEq, Repr

/-- An argument of `printf`; `now` is the local time at which the line is printed. -/
inductive Arg where
  | bytes (b : Bytes)
  | text (s : String)
  | now
  | json (members : List (String × Json))
  deriving DecidableEq, Repr

/-- The operations of the client. -/
inductive Eff where
  | getXid
  | time
  | rand
  | load
  | pingTid
  | store (u : Update)
  | sendRequest (payload : Bytes)
  | recvResponse
  | socket
  | gethostbyname (host : Bytes)
  | inetPton (host : Bytes)
  | connect (fd port : Int)
  | poll (fd timeout : Int)
  | close (fd : Int)
  | usleep
  | join (t : Nat)
  | printf (fmt : String) (args : List Arg)
  | undefined (what : Fault)
  | exit
  deriving DecidableEq, Repr

/-- The answers: `load` reads the client, `sendRequest` gives the status of `send_request`, `recvResponse` the archive
of `recv_response`, `connect` the return value and `errno`, `poll` its return value and the events it reports. -/
abbrev Eff.Resp : Eff → Type
  | getXid => Int32
  | time => Int
  | rand => Nat
  | load => Client
  | pingTid => Nat
  | sendRequest _ => Int
  | recvResponse => Option IArchive
  | socket => Int
  | gethostbyname _ => Bool
  | inetPton _ => Bool
  | connect _ _ => Int × Int
  | poll _ _ => Int × Nat
  | _ => Unit

abbrev Zk : Type → Type := Prog Eff Eff.Resp

/-- Surroundings with the states `σ`: how they answer each operation. -/
abbrev Handler (σ : Type) : Type := (e : Eff) → σ → e.Resp × σ

/-- An operation with its answer. -/
abbrev Event : Type := (e : Eff) × e.Resp

/-- The operation `e` as a program. -/
def perform (e : Eff) : Zk e.Resp := .op e .ret

def lock : Zk Unit := .lock (.ret ())
def unlock : Zk Unit := .unlock (.ret ())
def trylock : Zk Bool := .trylock .ret

/-- Decode into a variable that holds `v`. -/
def decode {σ : Type} (r : Reader σ) (ia : IArchive) (v : σ) : Zk (Decoded σ) := do
  let d := r ia v
  if d.oob then perform (.undefined (.outOfBounds "archive"))
  return d

/-- What an uninitialised `int32_t` on the stack holds. -/
def Heap.int (H : Heap) : Int32 := BigEndian.ofBe32 ((List.range 4).map H.junk)

/-- What an uninitialised `int64_t` on the stack holds. -/
def Heap.long (H : Heap) : Int64 := BigEndian.ofBe64 ((List.range 8).map H.junk)

end ZkClient
