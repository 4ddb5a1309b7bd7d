import ZkClient.Layouts

/-!
# The records of the protocol

All records of `zookeeper.jute.c` with their layouts.  Any records written one after another into one archive are read
back from its bytes (`RecordType.readAll_writeAll`).  A record without vectors is read exactly when the bytes are a form
of it (`RecordType.deserialize_iff`), and `deallocate_X` frees the blocks of a decoded record, each once
(`RecordType.deallocate_deserialize`).
-/

namespace ZkClient

/-- A record with the given fields. -/
def Layout.fields (fs : List (String × Layout)) : Layout := fs.foldr (fun f l => .field f.1 f.2 l) .done

/-- The records of `zookeeper.jute.c`. -/
inductive RecordType where
  | id | acl | stat | statPersisted | statPersistedV1 | connectRequest | connectResponse | stringVector | setWatches
  | requestHeader | multiHeader | authPacket | replyHeader | getDataRequest | setDataRequest | setDataResponse
  | getSaslRequest | setSaslRequest | setSaslResponse | aclVector | createRequest | deleteRequest
  | getChildrenRequest | getChildren2Request | checkVersionRequest | getMaxChildrenRequest | getMaxChildrenResponse
  | setMaxChildrenRequest | syncRequest | syncResponse | getAclRequest | setAclRequest | setAclResponse
  | watcherEvent | errorResponse | createResponse | existsRequest | existsResponse | getDataResponse
  | getChildrenResponse | getChildren2Response | getAclResponse | learnerInfo | idVector | quorumPacket | fileHeader
  | txnHeader | createTxnV0 | createTxn | deleteTxn | setDataTxn | checkVersionTxn | setAclTxn | setMaxChildrenTxn
  | createSessionTxn | errorTxn | txn | txnVector | multiTxn
  deriving DecidableEq, Repr

namespace RecordType

open Layout

def idLayout : Layout := fields [("scheme", string), ("id", string)]

def aclLayout : Layout := fields [("perms", int), ("id", idLayout)]

def statLayout : Layout := fields [("czxid", long), ("mzxid", long), ("ctime", long), ("mtime", long),
  ("version", int), ("cversion", int), ("aversion", int), ("ephemeralOwner", long), ("dataLength", int),
  ("numChildren", int), ("pzxid", long)]

def txnLayout : Layout := fields [("type", int), ("data", buffer)]

/-- The fields that `serialize_X` and `deserialize_X` go through, in this order. -/
def layout : RecordType → Layout
  | .id => idLayout
  | .acl => aclLayout
  | .stat => statLayout
  | .statPersisted => fields [("czxid", long), ("mzxid", long), ("ctime", long), ("mtime", long), ("version", int),
    ("cversion", int), ("aversion", int), ("ephemeralOwner", long), ("pzxid", long)]
  | .statPersistedV1 => fields [("czxid", long), ("mzxid", long), ("ctime", long), ("mtime", long), ("version", int),
    ("cversion", int), ("aversion", int), ("ephemeralOwner", long)]
  | .connectRequest => fields [("protocolVersion", int), ("lastZxidSeen", long), ("timeOut", int),
    ("sessionId", long), ("passwd", buffer)]
  | .connectResponse => fields [("protocolVersion", int), ("timeOut", int), ("sessionId", long), ("passwd", buffer)]
  | .stringVector => vector string
  | .setWatches => fields [("relativeZxid", long), ("dataWatches", vector string), ("existWatches", vector string),
    ("childWatches", vector string)]
  | .requestHeader => fields [("xid", int), ("type", int)]
  | .multiHeader => fields [("type", int), ("done", bool), ("err", int)]
  | .authPacket => fields [("type", int), ("scheme", string), ("auth", buffer)]
  | .replyHeader => fields [("xid", int), ("zxid", long), ("err", int)]
  | .getDataRequest | .getChildrenRequest | .getChildren2Request | .existsRequest =>
    fields [("path", string), ("watch", bool)]
  | .setDataRequest | .setDataTxn => fields [("path", string), ("data", buffer), ("version", int)]
  | .setDataResponse | .setAclResponse | .existsResponse => fields [("stat", statLayout)]
  | .getSaslRequest | .setSaslRequest | .setSaslResponse => fields [("token", buffer)]
  | .aclVector => vector aclLayout
  | .createRequest => fields [("path", string), ("data", buffer), ("acl", vector aclLayout), ("flags", int)]
  | .deleteRequest | .checkVersionRequest | .checkVersionTxn => fields [("path", string), ("version", int)]
  | .getMaxChildrenRequest | .syncRequest | .syncResponse | .getAclRequest | .createResponse | .deleteTxn =>
    fields [("path", string)]
  | .getMaxChildrenResponse => fields [("max", int)]
  | .setMaxChildrenRequest | .setMaxChildrenTxn => fields [("path", string), ("max", int)]
  | .setAclRequest | .setAclTxn => fields [("path", string), ("acl", vector aclLayout), ("version", int)]
  | .watcherEvent => fields [("type", int), ("state", int), ("path", string)]
  | .errorResponse | .errorTxn => fields [("err", int)]
  | .getDataResponse => fields [("data", buffer), ("stat", statLayout)]
  | .getChildrenResponse => fields [("children", vector string)]
  | .getChildren2Response => fields [("children", vector string), ("stat", statLayout)]
  | .getAclResponse => fields [("acl", vector aclLayout), ("stat", statLayout)]
  | .learnerInfo => fields [("serverid", long), ("protocolVersion", int)]
  | .idVector => vector idLayout
  | .quorumPacket => fields [("type", int), ("zxid", long), ("data", buffer), ("authinfo", vector idLayout)]
  | .fileHeader => fields [("magic", int), ("version", int), ("dbid", long)]
  | .txnHeader => fields [("clientId", long), ("cxid", int), ("zxid", long), ("time", long), ("type", int)]
  | .createTxnV0 => fields [("path", string), ("data", buffer), ("acl", vector aclLayout), ("ephemeral", bool)]
  | .createTxn => fields [("path", string), ("data", buffer), ("acl", vector aclLayout), ("ephemeral", bool),
    ("parentCVersion", int)]
  | .createSessionTxn => fields [("timeOut", int)]
  | .txn => txnLayout
  | .txnVector => vector txnLayout
  | .multiTxn => fields [("txns", vector txnLayout)]

/-- The fields that `deallocate_X` goes through. -/
def deallocated : RecordType → List String
  | .id => ["scheme", "id"]
  | .acl => ["id"]
  | .connectRequest | .connectResponse => ["passwd"]
  | .setWatches => ["dataWatches", "existWatches", "childWatches"]
  | .authPacket => ["scheme", "auth"]
  | .getDataRequest | .deleteRequest | .getChildrenRequest | .getChildren2Request | .checkVersionRequest
  | .getMaxChildrenRequest | .setMaxChildrenRequest | .syncRequest | .syncResponse | .getAclRequest
  | .watcherEvent | .createResponse | .existsRequest | .deleteTxn | .checkVersionTxn | .setMaxChildrenTxn => ["path"]
  | .setDataRequest | .setDataTxn => ["path", "data"]
  | .setDataResponse | .setAclResponse | .existsResponse => ["stat"]
  | .getSaslRequest | .setSaslRequest | .setSaslResponse => ["token"]
  | .createRequest | .createTxnV0 | .createTxn => ["path", "data", "acl"]
  | .setAclRequest | .setAclTxn => ["path", "acl"]
  | .getDataResponse => ["data", "stat"]
  | .getChildrenResponse => ["children"]
  | .getChildren2Response => ["children", "stat"]
  | .getAclResponse => ["acl", "stat"]
  | .quorumPacket => ["data", "authinfo"]
  | .txn => ["data"]
  | .multiTxn => ["txns"]
  | _ => []

section Functions

variable (H : Heap)

/-- A variable of the record. -/
abbrev Value (r : RecordType) : Type := r.layout.Value

/-- `serialize_X`. -/
def serialize (r : RecordType) (v : r.Value) : OArchive → Int × OArchive := r.layout.serialize H v

/-- `deserialize_X`. -/
def deserialize (r : RecordType) : Reader r.Value := r.layout.deserialize H "value"

/-- The calls of `deallocate_X`, which are for the fields `tags`. -/
def deallocateFields (tags : List String) : (l : Layout) → l.Value → List Place × l.Value
  | .field tag head tail, (x, y) =>
    let freed := if tag ∈ tags then head.deallocate x else ([], x)
    let rest := deallocateFields tags tail y
    (freed.1.map .head ++ rest.1.map .tail, (freed.2, rest.2))
  | l, v => l.deallocate v

/-- `deallocate_X`: where the blocks are that it frees, and what it leaves of the variable. -/
def deallocate (r : RecordType) (v : r.Value) : List Place × r.Value := deallocateFields r.deallocated r.layout v

/-- Write the records one after another. -/
def writeAll (xs : List (Σ r : RecordType, r.Value)) : OArchive → Int × OArchive :=
  writeRecord (xs.map fun x => x.1.serialize H x.2)

/-- Read records one after another, each into the variable that `vars` has for it: the return code, the archive, the
records, and whether the block was left. -/
def readAll (vars : (r : RecordType) → r.Value) :
    List RecordType → IArchive → Int × IArchive × List (Σ r : RecordType, r.Value) × Bool
  | [], ia => (0, ia, [], false)
  | r :: rs, ia =>
    let d := r.deserialize H ia (vars r)
    if d.rc ≠ 0 then (d.rc, d.ia, [], d.oob)
    else
      let (rc, ia, xs, oob) := readAll vars rs d.ia
      (rc, ia, ⟨r, d.val⟩ :: xs, d.oob || oob)

end Functions

variable {H : Heap}

/-! ### Round trip -/

private theorem writes_all (hH : H.Succeeds) {xs : List (Σ r : RecordType, r.Value)}
    (hvalid : ∀ x ∈ xs, x.1.layout.Valid x.2) :
    Writes (writeAll H xs) (xs.flatMap fun x => x.1.layout.wire x.2) := by
  unfold writeAll
  induction xs with
  | nil => exact .nil
  | cons x xs ih =>
    rw [List.map_cons, List.flatMap_cons]
    exact (writes hH _ (hvalid x (by simp))).cons (ih fun y hy => hvalid y (by simp [hy]))

private theorem reads_all (hH : H.Succeeds) (vars : (r : RecordType) → r.Value)
    {xs : List (Σ r : RecordType, r.Value)} (hvalid : ∀ x ∈ xs, x.1.layout.Valid x.2) {buf rest : Bytes} {k : Nat}
    (hlt : buf.length < 2 ^ 31) (hk : k ≤ buf.length)
    (h : buf.drop k = (xs.flatMap fun x => x.1.layout.wire x.2) ++ rest) :
    readAll H vars (xs.map Sigma.fst) (archiveAt buf k) =
      (0, archiveAt buf (k + (xs.flatMap fun x => x.1.layout.wire x.2).length), xs, false) := by
  induction xs generalizing k with
  | nil => rfl
  | cons x xs ih =>
    rw [List.flatMap_cons, List.append_assoc] at h
    have hlen := length_of_drop hk h
    obtain ⟨slots, hx⟩ := reads hH _ (form_wire _ (hvalid x (by simp))) "value"
    have h1 := hx buf k _ (vars x.1) hlt hk h
    have h2 := ih (fun y hy => hvalid y (by simp [hy])) (k := k + (x.1.layout.wire x.2).length) (by omega) (drop_after h)
    simp [readAll, deserialize, h1, h2, Nat.add_assoc]

/-- **Records back to back.**  Records of any types that are written into one archive are read back from its bytes,
into variables with any contents, and the bytes behind them are left. -/
theorem readAll_writeAll (hH : H.Succeeds) {xs : List (Σ r : RecordType, r.Value)}
    (hvalid : ∀ x ∈ xs, x.1.layout.Valid x.2)
    (hlt : (xs.flatMap fun x => x.1.layout.wire x.2).length < 2 ^ 29) :
    ∃ oa, writeAll H xs (createBufferOarchive H) = (0, oa) ∧ oa.oob = false ∧
      ∀ (H' : Heap) (vars : (r : RecordType) → r.Value) (rest : Bytes), H'.Succeeds →
        (oa.bytes ++ rest).length < 2 ^ 31 →
        readAll H' vars (xs.map Sigma.fst) (archiveAt (oa.bytes ++ rest) 0) =
          (0, archiveAt (oa.bytes ++ rest) oa.bytes.length, xs, false) := by
  obtain ⟨oa, hwrite, hholds⟩ := writes_all hH hvalid _ _ (createBufferOarchive_holds H) (by simpa using hlt)
  refine ⟨oa, hwrite, hholds.inside, fun H' vars rest hH' hsmall => ?_⟩
  have hbytes : oa.bytes = xs.flatMap fun x => x.1.layout.wire x.2 := hholds.bytes_eq
  rw [hbytes] at hsmall ⊢
  have h := reads_all hH' vars hvalid hsmall (Nat.zero_le _) (show List.drop 0 (_ ++ rest) = _ from List.drop_zero)
  rwa [Nat.zero_add] at h

/-- The header of a reply and the children that it announces. -/
theorem readAll_writeAll_listing :
    let xs : List (Σ r : RecordType, r.Value) :=
      [⟨.replyHeader, (1, 5, 0, ())⟩, ⟨.getChildrenResponse, ((2, some [some [97], some [98]]), ())⟩]
    ∃ oa, writeAll .plenty xs (createBufferOarchive .plenty) = (0, oa) ∧ oa.oob = false ∧
      ∀ (H' : Heap) (vars : (r : RecordType) → r.Value) (rest : Bytes), H'.Succeeds →
        (oa.bytes ++ rest).length < 2 ^ 31 →
        readAll H' vars [.replyHeader, .getChildrenResponse] (archiveAt (oa.bytes ++ rest) 0) =
          (0, archiveAt (oa.bytes ++ rest) oa.bytes.length, xs, false) :=
  readAll_writeAll Heap.plenty_succeeds (by simp [layout, fields, Valid]) (by decide)

/-! ### What is refused -/

/-- **Records are read exactly.**  The reader of a record without vectors stays inside the block; it succeeds only in
front of a form of the value that it stores, and in front of a form it fails only for want of memory. -/
theorem deserialize_iff (r : RecordType) (hr : r.layout.flat) {buf : Bytes} {k : Nat} (hlt : buf.length < 2 ^ 31)
    (hk : k ≤ buf.length) (v : r.Value) :
    let d := r.deserialize H (archiveAt buf k) v
    d.oob = false ∧ d.rc ≤ 0 ∧
      (d.rc = 0 → ∃ bs rest, r.layout.Form bs d.val ∧ buf.drop k = bs ++ rest ∧
        d.ia = archiveAt buf (k + bs.length)) ∧
      (H.Succeeds → ∀ bs x rest, r.layout.Form bs x → buf.drop k = bs ++ rest → d.rc = 0 ∧ d.val = x) := by
  obtain ⟨hoob, hcase⟩ := Layout.exact (H := H) r.layout hr "value" buf k v hlt hk
  refine ⟨hoob, ?_, fun hrc => ?_, fun hH bs x rest hx hsplit => ?_⟩
  · rcases hcase with hrc | ⟨hrc, -⟩
    · exact Int.le_of_lt hrc
    · exact Int.le_of_eq hrc
  · rcases hcase with hneg | ⟨-, hform⟩
    · exact absurd hrc (Int.ne_of_lt hneg)
    · exact hform
  · obtain ⟨slots, hread⟩ := reads hH r.layout hx "value"
    have h : r.deserialize H (archiveAt buf k) v = _ := hread buf k rest v hlt hk hsplit
    rw [h]
    exact ⟨rfl, rfl⟩

theorem deserialize_iff_multiHeader :
    let buf : Bytes := [0, 0, 0, 14, 1, 255, 255, 255, 255, 7]
    let d := deserialize .plenty .multiHeader (archiveAt buf 0) (zero _)
    d.oob = false ∧ d.rc ≤ 0 ∧
      (d.rc = 0 → ∃ bs rest, (layout .multiHeader).Form bs d.val ∧ buf.drop 0 = bs ++ rest ∧
        d.ia = archiveAt buf (0 + bs.length)) ∧
      (Heap.plenty.Succeeds → ∀ bs x rest, (layout .multiHeader).Form bs x → buf.drop 0 = bs ++ rest →
        d.rc = 0 ∧ d.val = x) :=
  deserialize_iff .multiHeader rfl (by decide) (Nat.zero_le _) _

/-! ### Who owns the blocks -/

/-- No pointers. -/
private def pointerless : Layout → Bool
  | .int | .long | .bool | .done => true
  | .buffer | .string | .vector _ => false
  | .field _ head tail => pointerless head && pointerless tail

private theorem deallocate_pointerless {l : Layout} (h : pointerless l) (v : l.Value) : l.deallocate v = ([], v) := by
  induction l with
  | field tag head tail ihead itail =>
    obtain ⟨hhead, htail⟩ := Bool.and_eq_true_iff.1 h
    simp [Layout.deallocate, ihead hhead, itail htail]
  | buffer => cases h
  | string => cases h
  | vector elem => cases h
  | _ => rfl

/-- The fields outside `tags` have no pointers. -/
private def covers (tags : List String) : Layout → Bool
  | field tag head tail => (decide (tag ∈ tags) || pointerless head) && covers tags tail
  | _ => true

private theorem deallocateFields_eq {tags : List String} {l : Layout} (h : covers tags l) (v : l.Value) :
    deallocateFields tags l v = l.deallocate v := by
  induction l with
  | field tag head tail ihead itail =>
    obtain ⟨hhead, htail⟩ := Bool.and_eq_true_iff.1 h
    simp only [deallocateFields, Layout.deallocate, itail htail]
    by_cases htag : tag ∈ tags
    · simp only [if_pos htag]
    · rw [decide_eq_false htag, Bool.false_or] at hhead
      simp only [if_neg htag, deallocate_pointerless hhead]
  | _ => rfl

/-- `deallocate_X` forgets no field that has pointers. -/
private theorem deallocate_eq (r : RecordType) (v : r.Value) : r.deallocate v = r.layout.deallocate v := by
  refine deallocateFields_eq ?_ v
  cases r <;> decide

/-- **Decoded records are freed.**  After a decoding that succeeds, and after one into a variable without blocks whatever
its outcome, `deallocate_X` frees the blocks that the decoding has allocated, each once, and nothing else; a second call
frees nothing. -/
theorem deallocate_deserialize (r : RecordType) (ia : IArchive) (v : r.Value)
    (h : (r.deallocate v).1 = [] ∨ (r.deserialize H ia v).rc = 0) :
    let freed := r.deallocate (r.deserialize H ia v).val
    freed.1.Perm (r.layout.allocs H "value" ia v) ∧ freed.1.Nodup ∧ (r.deallocate freed.2).1 = [] := by
  simp only [deallocate_eq] at h ⊢
  have hperm := owned r.layout "value" ia v h
  exact ⟨hperm, hperm.nodup_iff.2 (nodup_allocs ..), deallocate_deallocate ..⟩

/-- The data of a node, cut off inside its `stat`. -/
theorem deallocate_deserialize_cut :
    let ia := archiveAt [0, 0, 0, 1, 97, 0, 0] 0
    let freed := deallocate .getDataResponse (deserialize .plenty .getDataResponse ia (zero _)).val
    freed.1.Perm ((layout .getDataResponse).allocs .plenty "value" ia (zero _)) ∧ freed.1.Nodup ∧
      (deallocate .getDataResponse freed.2).1 = [] :=
  deallocate_deserialize .getDataResponse _ _ (.inl rfl)

end RecordType

end ZkClient
