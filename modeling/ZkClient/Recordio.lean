import ZkClient.Errors
import ZkClient.Lib.BigEndian

/-!
# Buffer archives (`recordio.c`)

The output archive is a growing block of memory with a write offset, the input archive a received block with a read
offset.  Both keep their `int32_t` length and offset as integers; `wrap32` and `sizeT` are the conversions C makes at
the places where they can change a value.  What an archive does outside its block is recorded in `oob`.

A reader (`Reader σ`) decodes into a variable of type `σ` and reports which of its fields it has assigned: the
variable starts with indeterminate contents, and the callers differ in what they do with it after a failure.
-/

namespace ZkClient

open BigEndian

abbrev Bytes := List UInt8

/-- Conversion to `int32_t`. -/
def wrap32 (x : Int) : Int := (x + 2 ^ 31) % 2 ^ 32 - 2 ^ 31

/-- Conversion to `size_t`, as in the comparison of an `int` with a `sizeof`. -/
def sizeT (x : Int) : Int := x % 2 ^ 64

/-- `strlen` of a block that ends in a NUL after the given bytes. -/
def strlen (s : Bytes) : Nat := (s.takeWhile (· ≠ 0)).length

/-- A C string in memory that begins with the given bytes. -/
def cstring (block : Bytes) : Bytes := block.takeWhile (· ≠ 0)

theorem cstring_append {t : Bytes} (h : 0 ∉ t) (rest : Bytes) : cstring (t ++ rest) = t ++ cstring rest := by
  have hne : ∀ c ∈ t, decide (c ≠ 0) = true := by
    intro c hc
    rw [decide_eq_true_eq]
    rintro rfl
    exact h hc
  exact List.takeWhile_append_of_pos hne

theorem cstring_eq_self {t : Bytes} (h : 0 ∉ t) : cstring t = t := by
  have happend := cstring_append h []
  rwa [List.append_nil, show cstring [] = [] from rfl, List.append_nil] at happend

theorem zero_not_mem_cstring (block : Bytes) : (0 : UInt8) ∉ cstring block := by
  intro h
  induction block with
  | nil => cases h
  | cons b block ih =>
    unfold cstring at h
    rw [List.takeWhile_cons] at h
    split at h
    · rename_i hb
      rcases List.mem_cons.1 h with rfl | h
      · exact absurd hb (by decide)
      · exact ih h
    · cases h

/-- The places where the code asks for memory. -/
inductive Site where
  | grow
  | field (off : Int)
  | sendBuf
  | recvBuf
  | archive
  | passwd
  deriving DecidableEq, Repr

/-- The allocator: which requests it grants, and what fresh memory contains.  A size that was negative before its
conversion to `size_t` is larger than any object and is never granted. -/
structure Heap where
  ok : Site → Int → Bool
  junk : Nat → UInt8
  neg : ∀ site n, n < 0 → ok site n = false

/-- Every request of a non-negative size is granted. -/
def Heap.Succeeds (H : Heap) : Prop := ∀ site n, 0 ≤ n → H.ok site n = true

/-- A heap that is never exhausted and hands out zeroed memory. -/
def Heap.plenty : Heap where
  ok := fun _ n => decide (0 ≤ n)
  junk := fun _ => 0
  neg := fun _ _ h => decide_eq_false (by omega)

theorem Heap.plenty_succeeds : Heap.plenty.Succeeds := fun _ _ h => decide_eq_true h

/-- `struct buffer`. -/
structure Buffer where
  len : Int32
  buff : Option Bytes
  deriving DecidableEq, Repr

/-! ### Output archives -/

/-- `struct buff_struct` of an output archive; `buffer` is the whole allocated block. -/
structure OArchive where
  len : Int
  off : Int
  buffer : Bytes
  oob : Bool
  deriving DecidableEq, Repr

/-- `create_buffer_oarchive`. -/
def createBufferOarchive (H : Heap) : OArchive :=
  { len := 128, off := 0, buffer := (List.range 128).map H.junk, oob := false }

/-- The doubling loop of `resize_buffer`.  A positive length either passes `newlen` or overflows to zero within 32
doublings; in the second case the C loop does not end. -/
def growLen : Nat → Int → Int → Int
  | 0, len, _ => len
  | fuel + 1, len, newlen => if len < newlen then growLen fuel (wrap32 (len * 2)) newlen else len

/-- `resize_buffer`. -/
def resizeBuffer (H : Heap) (s : OArchive) (newlen : Int) : Int × OArchive :=
  let len := growLen 32 s.len newlen
  if H.ok .grow len then
    (0, { s with len := len, buffer := s.buffer ++ (List.range (len.toNat - s.buffer.length)).map H.junk })
  else (-enomem, { s with len := len, buffer := [] })

/-- `memcpy(priv->buffer + priv->off, bs, n); priv->off += n`. -/
def OArchive.put (s : OArchive) (bs : Bytes) : OArchive :=
  if 0 ≤ s.off ∧ s.off + bs.length ≤ s.buffer.length then
    { s with
      buffer := s.buffer.take s.off.toNat ++ bs ++ s.buffer.drop (s.off.toNat + bs.length)
      off := s.off + bs.length }
  else { s with off := s.off + bs.length, oob := true }

/-- Grow the block when `short` says that it has no room for `bs`, then copy `bs`. -/
def oaWrite (H : Heap) (short : Bool) (bs : Bytes) (s : OArchive) : Int × OArchive :=
  if short then
    let (rc, s) := resizeBuffer H s (wrap32 (s.len + bs.length))
    if rc < 0 then (rc, s) else (0, s.put bs)
  else (0, s.put bs)

def oaSerializeInt (H : Heap) (d : Int32) (s : OArchive) : Int × OArchive :=
  oaWrite H (sizeT (s.len - s.off) < 4) (be32 d) s

def oaSerializeLong (H : Heap) (d : Int64) (s : OArchive) : Int × OArchive :=
  oaWrite H (sizeT (s.len - s.off) < 8) (be64 d) s

def oaSerializeBool (H : Heap) (i : Int32) (s : OArchive) : Int × OArchive :=
  oaWrite H (s.len - s.off < 1) [if i = 0 then 0 else 1] s

/-- The `n` bytes that `memcpy` reads from the block at `src`, if it has that many. -/
def memRead (src : Option Bytes) (n : Int) : Option Bytes :=
  if n = 0 then some []
  else match src with
    | none => none
    | some bs => if 0 ≤ n ∧ n ≤ bs.length then some (bs.take n.toNat) else none

def oaSerializeBuffer (H : Heap) (b : Buffer) (s : OArchive) : Int × OArchive :=
  let (rc, s) := oaSerializeInt H b.len s
  if rc < 0 then (rc, s)
  else if b.len = -1 then (rc, s)
  else match memRead b.buff b.len.toInt with
    | none => (0, { s with oob := true })
    | some bs => oaWrite H (s.len - s.off < b.len.toInt) bs s

def oaSerializeString (H : Heap) (str : Option Bytes) (s : OArchive) : Int × OArchive :=
  match str with
  | none => (0, (oaSerializeInt H (-1) s).2)
  | some str =>
    let len := Int32.ofNat (strlen str)
    let (rc, s) := oaSerializeInt H len s
    if rc < 0 then (rc, s) else oaWrite H (s.len - s.off < len.toInt) (str.take (strlen str)) s

/-- `rc = rc ? rc : out->serialize_X(..)`, down the fields of a record; `start_record` and `end_record` answer 0. -/
def writeRecord : List (OArchive → Int × OArchive) → OArchive → Int × OArchive
  | [], s => (0, s)
  | f :: fs, s =>
    let (rc, s) := f s
    if rc ≠ 0 then (rc, s) else writeRecord fs s

/-- `get_buffer` cut at `get_buffer_len`: the bytes written so far. -/
def OArchive.bytes (s : OArchive) : Bytes := s.buffer.take s.off.toNat

/-! ### Input archives -/

/-- `struct buff_struct` of an input archive; `buffer` is the received block, `none` for a null pointer. -/
structure IArchive where
  len : Int
  off : Int
  buffer : Option Bytes
  deriving DecidableEq, Repr

/-- An object that decoding assigns: a whole field, or the length or the pointer of a counted one. -/
inductive Slot where
  | field (tag : String)
  | len (tag : String)
  | buff (tag : String)
  deriving DecidableEq, Repr

/-- What decoding leaves behind: the return code, the archive, the variable, the slots assigned so far, and whether
the archive was accessed outside its block. -/
structure Decoded (σ : Type) where
  rc : Int
  ia : IArchive
  val : σ
  assigned : List Slot
  oob : Bool

abbrev Reader (σ : Type) := IArchive → σ → Decoded σ

/-- The bytes at `priv->buffer + priv->off`. -/
def IArchive.fetch (ia : IArchive) (n : Nat) : Bytes := ((ia.buffer.getD []).drop ia.off.toNat).take n

/-- Whether `n` bytes at the offset lie in the block. -/
def IArchive.covers (ia : IArchive) (n : Int) : Bool :=
  match ia.buffer with
  | none => n = 0
  | some bs => 0 ≤ n ∧ 0 ≤ ia.off ∧ ia.off + n ≤ bs.length

def IArchive.skip (ia : IArchive) (n : Int) : IArchive := { ia with off := ia.off + n }

variable {σ τ : Type}

/-- `memcpy(count, priv->buffer + priv->off, sizeof(*count))` after the test of the remaining length. -/
def iaFixed (n : Nat) (slot : Slot) (set : Bytes → σ → σ) : Reader σ := fun ia v =>
  if sizeT (ia.len - ia.off) < n then { rc := -e2big, ia, val := v, assigned := [], oob := false }
  else
    { rc := 0, ia := ia.skip n, val := set (ia.fetch n) v, assigned := [slot], oob := !ia.covers n }

def iaDeserializeInt (slot : Slot) (set : Int32 → σ → σ) : Reader σ := iaFixed 4 slot fun bs => set (ofBe32 bs)

def iaDeserializeLong (slot : Slot) (set : Int64 → σ → σ) : Reader σ := iaFixed 8 slot fun bs => set (ofBe64 bs)

/-- The byte is read as a `char` and widened. -/
def iaDeserializeBool (slot : Slot) (set : Int32 → σ → σ) : Reader σ := fun ia v =>
  if ia.len - ia.off < 1 then { rc := -e2big, ia, val := v, assigned := [], oob := false }
  else
    { rc := 0, ia := ia.skip 1, val := set ((ia.fetch 1).headD 0).toInt8.toInt32 v, assigned := [slot]
      oob := !ia.covers 1 }

/-- `ia_deserialize_buffer`: the length is assigned first, the pointer only when the length is acceptable. -/
def iaDeserializeBuffer (H : Heap) (tag : String) (get : σ → Buffer) (set : Buffer → σ → σ) : Reader σ :=
  fun ia v =>
    let d := iaDeserializeInt (.len tag) (fun n v => set { get v with len := n } v) ia v
    if d.rc < 0 then d
    else
      let len := (get d.val).len
      if d.ia.len - d.ia.off < len.toInt then { d with rc := -e2big }
      else if len = -1 then
        { d with val := set { get d.val with buff := none } d.val, assigned := d.assigned ++ [.buff tag] }
      else if H.ok (.field d.ia.off) len.toInt then
        { rc := 0
          ia := d.ia.skip len.toInt
          val := set { get d.val with buff := some (d.ia.fetch len.toInt.toNat) } d.val
          assigned := d.assigned ++ [.buff tag]
          oob := d.oob || !d.ia.covers len.toInt }
      else
        { d with
          rc := -enomem
          val := set { get d.val with buff := none } d.val
          assigned := d.assigned ++ [.buff tag] }

/-- `ia_deserialize_string`: the length is a local variable, the pointer is assigned by the allocation. -/
def iaDeserializeString (H : Heap) (tag : String) (set : Option Bytes → σ → σ) : Reader σ := fun ia v =>
  let d := iaDeserializeInt (.len tag) (fun n (_ : Int32) => n) ia 0
  let out : Decoded σ := { rc := d.rc, ia := d.ia, val := v, assigned := [], oob := d.oob }
  let len := d.val
  if d.rc < 0 then out
  else if d.ia.len - d.ia.off < len.toInt then { out with rc := -e2big }
  else if len.toInt < 0 then { out with rc := -einval }
  else if H.ok (.field d.ia.off) (len.toInt + 1) then
    { out with
      ia := d.ia.skip len.toInt
      val := set (some (d.ia.fetch len.toInt.toNat)) v
      assigned := [.field tag]
      oob := d.oob || !d.ia.covers len.toInt }
  else { out with rc := -enomem, val := set none v, assigned := [.field tag] }

/-- `rc = rc ? rc : in->deserialize_X(..)`, down the fields of a record. -/
def readRecord : List (Reader σ) → Reader σ
  | [], ia, v => { rc := 0, ia, val := v, assigned := [], oob := false }
  | f :: fs, ia, v =>
    let d := f ia v
    if d.rc ≠ 0 then d
    else
      let e := readRecord fs d.ia d.val
      { e with assigned := d.assigned ++ e.assigned, oob := d.oob || e.oob }

/-- A record decoded into a member of a larger one. -/
def Reader.into (r : Reader τ) (get : σ → τ) (set : τ → σ → σ) : Reader σ := fun ia v =>
  let d := r ia (get v)
  { rc := d.rc, ia := d.ia, val := set d.val v, assigned := d.assigned, oob := d.oob }

end ZkClient
