import ZkClient.Recordio

/-!
# Records (`zookeeper.jute.c`)

The records of the protocol that the client sends or receives, each with its writer and its reader.  A field of type
`char *` is the block it points to, `none` for a null pointer.  The readers take the name of a field from the source
and write it into the variable as they go.
-/

namespace ZkClient

/-! ### Structures -/

structure Id where
  scheme : Option Bytes
  id : Option Bytes
  deriving DecidableEq, Repr

structure Acl where
  perms : Int32
  id : Id
  deriving DecidableEq, Repr

structure AclVector where
  count : Int32
  data : Option (List Acl)
  deriving DecidableEq, Repr

structure StringVector where
  count : Int32
  data : Option (List (Option Bytes))
  deriving DecidableEq, Repr

structure Stat where
  czxid : Int64
  mzxid : Int64
  ctime : Int64
  mtime : Int64
  version : Int32
  cversion : Int32
  aversion : Int32
  ephemeralOwner : Int64
  dataLength : Int32
  numChildren : Int32
  pzxid : Int64
  deriving DecidableEq, Repr

structure RequestHeader where
  xid : Int32
  type : Int32
  deriving DecidableEq, Repr

structure ReplyHeader where
  xid : Int32
  zxid : Int64
  err : Int32
  deriving DecidableEq, Repr

structure ConnectRequest where
  protocolVersion : Int32
  lastZxidSeen : Int64
  timeOut : Int32
  sessionId : Int64
  passwd : Buffer
  deriving DecidableEq, Repr

structure ConnectResponse where
  protocolVersion : Int32
  timeOut : Int32
  sessionId : Int64
  passwd : Buffer
  deriving DecidableEq, Repr

structure CreateRequest where
  path : Option Bytes
  data : Buffer
  acl : AclVector
  flags : Int32
  deriving DecidableEq, Repr

structure CreateResponse where
  path : Option Bytes
  deriving DecidableEq, Repr

structure DeleteRequest where
  path : Option Bytes
  version : Int32
  deriving DecidableEq, Repr

/-- `struct ExistsRequest`, `struct GetDataRequest` and `struct GetChildrenRequest` have these two fields. -/
structure WatchRequest where
  path : Option Bytes
  watch : Int32
  deriving DecidableEq, Repr

structure SetDataRequest where
  path : Option Bytes
  data : Buffer
  version : Int32
  deriving DecidableEq, Repr

/-- `struct ExistsResponse` and `struct SetDataResponse` have this field. -/
structure StatResponse where
  stat : Stat
  deriving DecidableEq, Repr

structure GetDataResponse where
  data : Buffer
  stat : Stat
  deriving DecidableEq, Repr

structure GetChildrenResponse where
  children : StringVector
  deriving DecidableEq, Repr

/-! ### Writers -/

section Writers

variable (H : Heap)

/-- The elements of a vector, after its count; an index past the array is outside the caller's memory. -/
def serializeVector (count : Int32) (data : List (OArchive → Int × OArchive)) : OArchive → Int × OArchive :=
  writeRecord (oaSerializeInt H count :: (List.range count.toInt.toNat).map fun i =>
    (data[i]?).getD fun s => (0, { s with oob := true }))

def serializeId (v : Id) : OArchive → Int × OArchive :=
  writeRecord [oaSerializeString H v.scheme, oaSerializeString H v.id]

def serializeAcl (v : Acl) : OArchive → Int × OArchive :=
  writeRecord [oaSerializeInt H v.perms, serializeId H v.id]

def serializeAclVector (v : AclVector) : OArchive → Int × OArchive :=
  serializeVector H v.count ((v.data.getD []).map (serializeAcl H))

def serializeStringVector (v : StringVector) : OArchive → Int × OArchive :=
  serializeVector H v.count ((v.data.getD []).map (oaSerializeString H))

def serializeStat (v : Stat) : OArchive → Int × OArchive :=
  writeRecord [oaSerializeLong H v.czxid, oaSerializeLong H v.mzxid, oaSerializeLong H v.ctime,
    oaSerializeLong H v.mtime, oaSerializeInt H v.version, oaSerializeInt H v.cversion, oaSerializeInt H v.aversion,
    oaSerializeLong H v.ephemeralOwner, oaSerializeInt H v.dataLength, oaSerializeInt H v.numChildren,
    oaSerializeLong H v.pzxid]

def serializeRequestHeader (v : RequestHeader) : OArchive → Int × OArchive :=
  writeRecord [oaSerializeInt H v.xid, oaSerializeInt H v.type]

def serializeReplyHeader (v : ReplyHeader) : OArchive → Int × OArchive :=
  writeRecord [oaSerializeInt H v.xid, oaSerializeLong H v.zxid, oaSerializeInt H v.err]

def serializeConnectRequest (v : ConnectRequest) : OArchive → Int × OArchive :=
  writeRecord [oaSerializeInt H v.protocolVersion, oaSerializeLong H v.lastZxidSeen, oaSerializeInt H v.timeOut,
    oaSerializeLong H v.sessionId, oaSerializeBuffer H v.passwd]

def serializeCreateRequest (v : CreateRequest) : OArchive → Int × OArchive :=
  writeRecord [oaSerializeString H v.path, oaSerializeBuffer H v.data, serializeAclVector H v.acl,
    oaSerializeInt H v.flags]

def serializeCreateResponse (v : CreateResponse) : OArchive → Int × OArchive :=
  writeRecord [oaSerializeString H v.path]

def serializeDeleteRequest (v : DeleteRequest) : OArchive → Int × OArchive :=
  writeRecord [oaSerializeString H v.path, oaSerializeInt H v.version]

def serializeWatchRequest (v : WatchRequest) : OArchive → Int × OArchive :=
  writeRecord [oaSerializeString H v.path, oaSerializeBool H v.watch]

def serializeExistsRequest : WatchRequest → OArchive → Int × OArchive := serializeWatchRequest H

def serializeGetDataRequest : WatchRequest → OArchive → Int × OArchive := serializeWatchRequest H

def serializeGetChildrenRequest : WatchRequest → OArchive → Int × OArchive := serializeWatchRequest H

def serializeSetDataRequest (v : SetDataRequest) : OArchive → Int × OArchive :=
  writeRecord [oaSerializeString H v.path, oaSerializeBuffer H v.data, oaSerializeInt H v.version]

def serializeExistsResponse (v : StatResponse) : OArchive → Int × OArchive := writeRecord [serializeStat H v.stat]

def serializeSetDataResponse (v : StatResponse) : OArchive → Int × OArchive := writeRecord [serializeStat H v.stat]

def serializeGetDataResponse (v : GetDataResponse) : OArchive → Int × OArchive :=
  writeRecord [oaSerializeBuffer H v.data, serializeStat H v.stat]

def serializeGetChildrenResponse (v : GetChildrenResponse) : OArchive → Int × OArchive :=
  writeRecord [serializeStringVector H v.children]

end Writers

/-! ### Readers -/

section Readers

variable (H : Heap) {σ τ : Type}

/-- The loop `for (i = 0; i < v->count; i++) rc = rc ? rc : elem(&v->data[i])` over `n` zeroed elements: the return
code it ends with, the archive, the elements and whether the archive was left. -/
def readElems (elem : Reader τ) (zero : τ) : Nat → Int → IArchive → Int × IArchive × List τ × Bool
  | 0, rc, ia => (rc, ia, [], false)
  | n + 1, rc, ia =>
    if rc ≠ 0 then
      let (rc, ia, xs, oob) := readElems elem zero n rc ia
      (rc, ia, zero :: xs, oob)
    else
      let d := elem ia zero
      let (rc, ia, xs, oob) := readElems elem zero n d.rc d.ia
      (rc, ia, d.val :: xs, d.oob || oob)

/-- `deserialize_String_vector` and `deserialize_ACL_vector`.  The code of the loop is replaced by that of
`end_vector`, which is 0; with a null `data` the first element is written outside the caller's memory. -/
def deserializeVector (tag : String) (size : Int) (elem : Reader τ) (zero : τ) (getCount : σ → Int32)
    (setCount : Int32 → σ → σ) (setData : Option (List τ) → σ → σ) : Reader σ := fun ia v =>
  let d := iaDeserializeInt (.len tag) setCount ia v
  let count := (getCount d.val).toInt
  if H.ok (.field d.ia.off) (count * size) then
    let (_, ia', xs, oob) := readElems elem zero count.toNat d.rc d.ia
    { rc := 0, ia := ia', val := setData (some xs) d.val, assigned := d.assigned ++ [.buff tag]
      oob := d.oob || oob }
  else
    { d with
      rc := 0
      val := setData none d.val
      assigned := d.assigned ++ [.buff tag]
      oob := d.oob || (decide (0 < count) && d.rc = 0) }

def deserializeStringVector : Reader StringVector :=
  deserializeVector H "children" 8 (iaDeserializeString H "value" fun x _ => x) none StringVector.count
    (fun n v => { v with count := n }) fun xs v => { v with data := xs }

def deserializeId : Reader Id :=
  readRecord [iaDeserializeString H "scheme" fun x v => { v with scheme := x },
    iaDeserializeString H "id" fun x v => { v with id := x }]

def deserializeAcl : Reader Acl :=
  readRecord [iaDeserializeInt (.field "perms") fun x v => { v with perms := x },
    (deserializeId H).into Acl.id fun x v => { v with id := x }]

def deserializeAclVector : Reader AclVector :=
  deserializeVector H "acl" 24 (deserializeAcl H) ⟨0, none, none⟩ AclVector.count
    (fun n v => { v with count := n }) fun xs v => { v with data := xs }

def deserializeStat : Reader Stat :=
  readRecord [iaDeserializeLong (.field "czxid") fun x v => { v with czxid := x },
    iaDeserializeLong (.field "mzxid") fun x v => { v with mzxid := x },
    iaDeserializeLong (.field "ctime") fun x v => { v with ctime := x },
    iaDeserializeLong (.field "mtime") fun x v => { v with mtime := x },
    iaDeserializeInt (.field "version") fun x v => { v with version := x },
    iaDeserializeInt (.field "cversion") fun x v => { v with cversion := x },
    iaDeserializeInt (.field "aversion") fun x v => { v with aversion := x },
    iaDeserializeLong (.field "ephemeralOwner") fun x v => { v with ephemeralOwner := x },
    iaDeserializeInt (.field "dataLength") fun x v => { v with dataLength := x },
    iaDeserializeInt (.field "numChildren") fun x v => { v with numChildren := x },
    iaDeserializeLong (.field "pzxid") fun x v => { v with pzxid := x }]

/-- The slots of a `struct Stat`. -/
def statSlots : List Slot :=
  [.field "czxid", .field "mzxid", .field "ctime", .field "mtime", .field "version", .field "cversion",
    .field "aversion", .field "ephemeralOwner", .field "dataLength", .field "numChildren", .field "pzxid"]

def deserializeRequestHeader : Reader RequestHeader :=
  readRecord [iaDeserializeInt (.field "xid") fun x v => { v with xid := x },
    iaDeserializeInt (.field "type") fun x v => { v with type := x }]

def deserializeReplyHeader : Reader ReplyHeader :=
  readRecord [iaDeserializeInt (.field "xid") fun x v => { v with xid := x },
    iaDeserializeLong (.field "zxid") fun x v => { v with zxid := x },
    iaDeserializeInt (.field "err") fun x v => { v with err := x }]

def deserializeConnectRequest : Reader ConnectRequest :=
  readRecord [iaDeserializeInt (.field "protocolVersion") fun x v => { v with protocolVersion := x },
    iaDeserializeLong (.field "lastZxidSeen") fun x v => { v with lastZxidSeen := x },
    iaDeserializeInt (.field "timeOut") fun x v => { v with timeOut := x },
    iaDeserializeLong (.field "sessionId") fun x v => { v with sessionId := x },
    iaDeserializeBuffer H "passwd" ConnectRequest.passwd fun x v => { v with passwd := x }]

def deserializeConnectResponse : Reader ConnectResponse :=
  readRecord [iaDeserializeInt (.field "protocolVersion") fun x v => { v with protocolVersion := x },
    iaDeserializeInt (.field "timeOut") fun x v => { v with timeOut := x },
    iaDeserializeLong (.field "sessionId") fun x v => { v with sessionId := x },
    iaDeserializeBuffer H "passwd" ConnectResponse.passwd fun x v => { v with passwd := x }]

def deserializeCreateRequest : Reader CreateRequest :=
  readRecord [iaDeserializeString H "path" fun x v => { v with path := x },
    iaDeserializeBuffer H "data" CreateRequest.data fun x v => { v with data := x },
    (deserializeAclVector H).into CreateRequest.acl fun x v => { v with acl := x },
    iaDeserializeInt (.field "flags") fun x v => { v with flags := x }]

def deserializeCreateResponse : Reader CreateResponse :=
  readRecord [iaDeserializeString H "path" fun x v => { v with path := x }]

def deserializeDeleteRequest : Reader DeleteRequest :=
  readRecord [iaDeserializeString H "path" fun x v => { v with path := x },
    iaDeserializeInt (.field "version") fun x v => { v with version := x }]

def deserializeWatchRequest : Reader WatchRequest :=
  readRecord [iaDeserializeString H "path" fun x v => { v with path := x },
    iaDeserializeBool (.field "watch") fun x v => { v with watch := x }]

def deserializeExistsRequest : Reader WatchRequest := deserializeWatchRequest H

def deserializeGetDataRequest : Reader WatchRequest := deserializeWatchRequest H

def deserializeGetChildrenRequest : Reader WatchRequest := deserializeWatchRequest H

def deserializeSetDataRequest : Reader SetDataRequest :=
  readRecord [iaDeserializeString H "path" fun x v => { v with path := x },
    iaDeserializeBuffer H "data" SetDataRequest.data fun x v => { v with data := x },
    iaDeserializeInt (.field "version") fun x v => { v with version := x }]

def deserializeStatResponse : Reader StatResponse :=
  readRecord [deserializeStat.into StatResponse.stat fun x v => { v with stat := x }]

def deserializeExistsResponse : Reader StatResponse := deserializeStatResponse

def deserializeSetDataResponse : Reader StatResponse := deserializeStatResponse

def deserializeGetDataResponse : Reader GetDataResponse :=
  readRecord [iaDeserializeBuffer H "data" GetDataResponse.data fun x v => { v with data := x },
    deserializeStat.into GetDataResponse.stat fun x v => { v with stat := x }]

def deserializeGetChildrenResponse : Reader GetChildrenResponse :=
  readRecord [(deserializeStringVector H).into GetChildrenResponse.children fun x v => { v with children := x }]

end Readers

end ZkClient
