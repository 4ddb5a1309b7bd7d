import ZkClient.Transfer

/-!
# Received frames

`recv_response` on every header.  The value of the four bytes goes to `malloc` and to the read loop as it is: a
negative length gets no memory and nothing is read for it, and what comes back is an archive without a block.  When
there is no memory for a positive length, the read loop cannot take the bytes that are there and does not end.

`FrameSafe` is what is to hold of the result.  It is about the archive itself and about every archive that the decoders
make of it (`Reached`), so that no access to the block of a frame is outside of it.
-/

namespace ZkClient

open BigEndian

/-! ### The decoders on a whole block -/

/-- The decoders of single fields. -/
inductive Primitive : {σ : Type} → Reader σ → Prop
  | int {σ : Type} (slot : Slot) (set : Int32 → σ → σ) : Primitive (iaDeserializeInt slot set)
  | long {σ : Type} (slot : Slot) (set : Int64 → σ → σ) : Primitive (iaDeserializeLong slot set)
  | bool {σ : Type} (slot : Slot) (set : Int32 → σ → σ) : Primitive (iaDeserializeBool slot set)
  | buffer {σ : Type} (H : Heap) (tag : String) {get : σ → Buffer} {set : Buffer → σ → σ}
      (hget : ∀ b v, get (set b v) = b) : Primitive (iaDeserializeBuffer H tag get set)
  | string {σ : Type} (H : Heap) (tag : String) (set : Option Bytes → σ → σ) :
      Primitive (iaDeserializeString H tag set)

/-- The archives that decoding comes to, one field after another, from the archive `ia`. -/
inductive Reached (ia : IArchive) : IArchive → Prop
  | start : Reached ia ia
  | next {σ : Type} {r : Reader σ} {ia' : IArchive} (v : σ) (h : Reached ia ia') (hr : Primitive r)
      (hrc : (r ia' v).rc = 0) : Reached ia (r ia' v).ia

private theorem sound_bool {σ : Type} (slot : Slot) (set : Int32 → σ → σ) :
    Sound (iaDeserializeBool slot set) (·.length = 1) := by
  intro buf k v hlt hk
  by_cases hroom : (archiveAt buf k).len - (archiveAt buf k).off < 1
  · simp [iaDeserializeBool, hroom]
  · have hpos : k + 1 ≤ buf.length := by
      simp only [archiveAt] at hroom
      omega
    have hlen : ((buf.drop k).take 1).length = 1 := by
      simp only [List.length_take, List.length_drop]
      omega
    have hcov : (archiveAt buf k).covers 1 = true := by
      simp [IArchive.covers, archiveAt]
      omega
    refine ⟨by simp [iaDeserializeBool, hroom, hcov], .inr ⟨by simp [iaDeserializeBool, hroom], (buf.drop k).take 1,
      (buf.drop k).drop 1, hlen, (List.take_append_drop ..).symm, ?_⟩⟩
    rw [hlen, iaDeserializeBool, if_neg hroom]
    simp [IArchive.skip, archiveAt]

/-- A decoder of a single field stays inside the block and ends somewhere in it. -/
theorem Primitive.sound {σ : Type} {r : Reader σ} (hr : Primitive r) : ∃ L, Sound r L := by
  cases hr with
  | int slot set => exact ⟨_, sound_int slot set⟩
  | long slot set => exact ⟨_, sound_long slot set⟩
  | bool slot set => exact ⟨_, sound_bool slot set⟩
  | buffer H tag hget => exact ⟨_, sound_buffer H tag hget⟩
  | string H tag set => exact ⟨_, sound_string H tag set⟩

/-- From the start of a block, decoding comes to positions in it only. -/
theorem Reached.position {buf : Bytes} (hlt : buf.length < 2 ^ 31) {ia : IArchive} (h : Reached (archiveAt buf 0) ia) :
    ∃ k, k ≤ buf.length ∧ ia = archiveAt buf k := by
  induction h with
  | start => exact ⟨0, Nat.zero_le _, rfl⟩
  | next v _ hr hrc ih =>
    obtain ⟨k, hk, rfl⟩ := ih
    obtain ⟨L, hL⟩ := hr.sound
    obtain ⟨-, hneg | ⟨-, bs, rest, -, hsplit, hia⟩⟩ := hL buf k v hlt hk
    · omega
    · have hlen := congrArg List.length hsplit
      simp only [List.length_drop, List.length_append] at hlen
      exact ⟨k + bs.length, by omega, hia⟩

theorem Reached.inside {buf : Bytes} (hlt : buf.length < 2 ^ 31) {ia : IArchive} (h : Reached (archiveAt buf 0) ia)
    {σ : Type} {r : Reader σ} (hr : Primitive r) (v : σ) : (r ia v).oob = false := by
  obtain ⟨k, hk, rfl⟩ := h.position hlt
  obtain ⟨L, hL⟩ := hr.sound
  exact (hL buf k v hlt hk).1

/-! ### Receiving -/

/-- The value of the first four bytes of a stream. -/
def headerLength (stream : Bytes) : Int := (ofBe32 (stream.take 4)).toInt

/-- What is to hold when `recv_response` returns `r` in the world `w`: it gets there without undefined behaviour, and it
has failed or hands on an archive over a block. -/
structure FrameSafe (w : World) (r : Option IArchive × World) : Prop where
  faults : r.2.faults = w.faults
  failed : r.1 = none → r.2.client.lastErr ≠ zkOk
  len : ∀ ia, r.1 = some ia → ia.len = headerLength w.stream
  nonneg : ∀ ia, r.1 = some ia → 0 ≤ ia.len
  block : ∀ ia, r.1 = some ia → ∃ bs, ia.buffer = some bs ∧ (bs.length : Int) = ia.len
  inside : ∀ ia ia', r.1 = some ia → Reached ia ia' → ∀ (σ : Type) (r : Reader σ) (v : σ), Primitive r →
    (r ia' v).oob = false

/-- The frame at the front of the stream is all there, or it needs no more than its header. -/
def Arrives (H : Heap) (stream : Bytes) : Prop :=
  4 ≤ stream.length ∧ (headerLength stream ≤ 0 ∨
    H.ok .recvBuf (headerLength stream) = true ∧ 4 + headerLength stream ≤ stream.length)

/-- Something follows the header, and there is no memory to read it into. -/
def Stuck (H : Heap) (stream : Bytes) : Prop :=
  4 < stream.length ∧ 0 < headerLength stream ∧ H.ok .recvBuf (headerLength stream) = false

/-- A read at the end of the file ends the loop. -/
private theorem readSocket_nothing {null : Bool} {len r : Int} (hlt : r < len) (hr : 0 ≤ r) {xs : List ReadResult}
    (hxs : ∀ x ∈ xs, ∃ k, x = .bytes k) (mem : Memory) :
    ∃ ys, readSocket null len xs r mem [] false =
      { status := zkSocketErr, mem, stream := [], reads := ys, closed := true, outside := false, endless := false } := by
  cases xs with
  | nil => exact ⟨[], by simp [readSocket, hlt]⟩
  | cons x xs =>
    obtain ⟨n, rfl⟩ := hxs x (List.mem_cons_self ..)
    have hinside : decide (r < 0) = false := decide_eq_false (by omega)
    exact ⟨xs, by simp [readSocket, hlt, hinside]⟩

/-- A block that is not filled fails at the end of the file. -/
private theorem readSocket_short {len : Int} {r : Nat} {xs : List ReadResult} (hxs : ∀ x ∈ xs, ∃ k, x = .bytes k)
    (mem : Memory) {stream : Bytes} (hshort : r + stream.length < len) :
    ∃ mem' stream' ys, readSocket false len xs r mem stream false =
      { status := zkSocketErr, mem := mem', stream := stream', reads := ys, closed := true, outside := false
        endless := false } := by
  induction xs generalizing r mem stream with
  | nil =>
    have hlt : (r : Int) < len := by omega
    exact ⟨mem, stream, [], by simp [readSocket, hlt]⟩
  | cons x xs ih =>
    have hlt : (r : Int) < len := by omega
    by_cases hempty : stream = []
    · subst hempty
      obtain ⟨ys, hread⟩ := @readSocket_nothing false len r hlt (by omega) _ hxs mem
      exact ⟨mem, [], ys, hread⟩
    · have hpos := List.length_pos_iff.2 hempty
      obtain ⟨n, rfl⟩ := hxs x (List.mem_cons_self ..)
      -- one read delivers `k` bytes of the stream
      obtain ⟨k, hk, hk0, hle⟩ : ∃ k, min (min (max 1 n) (len - r).toNat) stream.length = k ∧ k ≠ 0 ∧
          k ≤ stream.length := ⟨_, rfl, by omega, by omega⟩
      have hinside : decide ((r : Int) < 0) = false := decide_eq_false (by omega)
      obtain ⟨mem', stream', ys, hread⟩ := @ih (r + k) (fun y hy => hxs y (List.mem_cons_of_mem _ hy))
        (mem.store r (stream.take k)) (stream.drop k) (by rw [List.length_drop]; omega)
      refine ⟨mem', stream', ys, ?_⟩
      rw [← hread, readSocket, if_pos hlt]
      simp only [hk, hk0, hinside, Bool.or_false, if_false, Bool.false_eq_true, Nat.cast_add]

/-- The bytes that are there cannot be read to a null pointer. -/
private theorem readSocket_stuck {len : Int} (hlen : 0 < len) {xs : List ReadResult} (hxs : ∀ x ∈ xs, ∃ k, x = .bytes k)
    (hne : xs ≠ []) (mem : Memory) {stream : Bytes} (hstream : stream ≠ []) :
    ∃ ys, readSocket true len xs 0 mem stream false =
      { status := zkSocketErr, mem, stream, reads := ys, closed := false, outside := false, endless := true } := by
  cases xs with
  | nil => exact absurd rfl hne
  | cons x xs =>
    obtain ⟨n, rfl⟩ := hxs x (List.mem_cons_self ..)
    have hpos := List.length_pos_iff.2 hstream
    have hk : min (min (max 1 n) (len - 0).toNat) stream.length ≠ 0 := by omega
    refine ⟨xs, ?_⟩
    rw [readSocket, if_pos hlen]
    simp only [hk, if_false, if_true, lt_irrefl, decide_false, Bool.or_false]

/-- The read loop fails on a frame that is not all there or has no memory, and it is stuck when there is something that
it has no memory for. -/
private theorem readSocket_missing {n : Int} (hn : 0 < n) {ok : Bool} {xs : List ReadResult} {stream : Bytes}
    (hxs : Delivering xs stream.length) (hmissing : ok = true → stream.length < n) (mem : Memory) :
    ∃ y, readSocket (!ok) n xs 0 mem stream false = y ∧ y.status = zkSocketErr ∧ y.outside = false ∧
      (y.endless = true ↔ ok = false ∧ stream ≠ []) := by
  cases ok with
  | true =>
    obtain ⟨mem', stream', ys, hread⟩ := @readSocket_short n 0 xs hxs.bytes mem stream (by
      have := hmissing rfl
      omega)
    exact ⟨_, hread, rfl, rfl, iff_of_false Bool.false_ne_true fun h => by cases h.1⟩
  | false =>
    by_cases hempty : stream = []
    · subst hempty
      obtain ⟨ys, hread⟩ := @readSocket_nothing true n 0 hn le_rfl xs hxs.bytes mem
      exact ⟨_, hread, rfl, rfl, iff_of_false Bool.false_ne_true fun h => h.2 rfl⟩
    · have hpos := List.length_pos_iff.2 hempty
      obtain ⟨ys, hread⟩ := @readSocket_stuck n hn xs hxs.bytes
        (List.length_pos_iff.1 (by have := hxs.enough; omega)) mem _ hempty
      exact ⟨_, hread, rfl, rfl, iff_of_true rfl ⟨rfl, hempty⟩⟩

private theorem readSocket_empty {null : Bool} {len : Int} (hlen : len ≤ 0) (xs : List ReadResult) (mem : Memory)
    (stream : Bytes) : readSocket null len xs 0 mem stream false =
      { status := zkOk, mem, stream, reads := xs, closed := false, outside := false, endless := false } := by
  cases xs <;> simp [readSocket, not_lt.2 hlen]

/-- A block that the stream has all bytes of. -/
private theorem readSocket_whole {len n : Nat} {xs : List ReadResult} (hxs : Delivering xs (len + n)) (mem : Memory)
    {stream : Bytes} (hle : len ≤ stream.length) :
    ∃ mem' ys, readSocket false len xs 0 mem stream false =
        { status := zkOk, mem := mem', stream := stream.drop len, reads := ys, closed := false, outside := false
          endless := false } ∧
      mem'.block len = stream.take len ∧ Delivering ys n := by
  have hlen : (stream.take len).length = len := by rw [List.length_take]; omega
  obtain ⟨mem', ys, hread, hmem, -, hys⟩ := readSocket_delivering (stream.take len) (stream.drop len) (r := 0)
    (by rwa [hlen]) mem
  rw [hlen, Nat.zero_add, List.take_append_drop] at hread
  refine ⟨mem', ys, hread, ?_, hys⟩
  have hblock := Memory.block_eq (stream.take len) fun i hi => by simpa using hmem i hi
  rwa [hlen] at hblock

private theorem decodeInt32_take {stream : Bytes} (h : 4 ≤ stream.length) :
    (decodeInt32 (stream.take 4) 0).toInt = headerLength stream := by
  obtain ⟨b₀, b₁, b₂, b₃, rest, rfl⟩ : ∃ b₀ b₁ b₂ b₃ rest, stream = b₀ :: b₁ :: b₂ :: b₃ :: rest := by
    match stream, h with
    | b₀ :: b₁ :: b₂ :: b₃ :: rest, _ => exact ⟨b₀, b₁, b₂, b₃, rest, rfl⟩
  simp [headerLength, decodeInt32_eq]

section Receiving

variable {H : Heap} {w : World}

private theorem received_client (w : World) (x : Received) : (w.received x).client = w.client :=
  World.received_inv (I := fun v => v.client = w.client) (fun _ _ _ h => h) (fun _ _ h => h) (fun _ h => h) rfl x

private theorem received_faults (w : World) {x : Received} (h : x.outside = false) :
    (w.received x).faults = w.faults ++ if x.endless then [.overflow "r_bytes"] else [] := by
  simp only [World.received, h, Bool.false_eq_true, if_false]
  cases x.endless <;> cases x.closed <;> simp [World.fault, World.closeFd]

private theorem received_whole (w : World) (status : Int) (mem : Memory) (stream : Bytes) (reads : List ReadResult) :
    w.received { status, mem, stream, reads, closed := false, outside := false, endless := false } =
      { w with stream, reads } := rfl

/-- What `recv_response` does behind a header. -/
private theorem recvFrame_header (hreads : Delivering w.reads w.stream.length)
    (hpoll : waitResult .read (w.polls.headD (0, 0)).1 (w.polls.headD (0, 0)).2 = zkOk) (hlen : 4 ≤ w.stream.length) :
    ∃ (ys : List ReadResult) (w₁ : World), Delivering ys (w.stream.length - 4) ∧ w₁.client = w.client ∧
      w₁.faults = w.faults ∧ ∀ y,
      readSocket (!H.ok .recvBuf (headerLength w.stream)) (headerLength w.stream) ys 0 (fun i => H.junk i.toNat)
        (w.stream.drop 4) false = y →
      w.recvFrame H = if y.status ≠ zkOk then (none, (w₁.received y).setErr y.status)
        else (some (headerLength w.stream,
          if H.ok .recvBuf (headerLength w.stream) then some (y.mem.block (headerLength w.stream)) else none),
          w₁.received y) := by
  obtain ⟨mem, ys, hread, hblock, hys⟩ := @readSocket_whole 4 (w.stream.length - 4) w.reads
    (by rwa [show 4 + (w.stream.length - 4) = w.stream.length by omega]) (fun i => H.junk i.toNat) w.stream hlen
  rw [Nat.cast_ofNat] at hread hblock
  have hvalue : (decodeInt32 (mem.block 4) 0).toInt = headerLength w.stream := by
    rw [hblock, decodeInt32_take hlen]
  refine ⟨ys, { w with polls := w.polls.tail, stream := w.stream.drop 4, reads := ys }, hys, rfl, rfl, fun y hy => ?_⟩
  rw [World.recvFrame, World.nextPoll]
  simp only [hpoll, hread, ne_eq, not_true, if_false, received_whole, hvalue, hy]

/-- A frame that does not arrive is reported as a failure of the socket, and without undefined behaviour unless the
read loop is stuck. -/
private theorem recvFrame_refused (hreads : Delivering w.reads w.stream.length)
    (h : ¬ (waitResult .read (w.polls.headD (0, 0)).1 (w.polls.headD (0, 0)).2 = zkOk ∧ Arrives H w.stream)) :
    (w.recvFrame H).1 = none ∧ (w.recvFrame H).2.client.lastErr = zkSocketErr ∧
      ((w.recvFrame H).2.faults = w.faults ↔
        ¬ (waitResult .read (w.polls.headD (0, 0)).1 (w.polls.headD (0, 0)).2 = zkOk ∧ Stuck H w.stream)) := by
  by_cases hpoll : waitResult .read (w.polls.headD (0, 0)).1 (w.polls.headD (0, 0)).2 ≠ zkOk
  · rw [World.recvFrame, World.nextPoll]
    simp only [if_pos hpoll]
    exact ⟨trivial, rfl, iff_of_true rfl fun hstuck => hpoll hstuck.1⟩
  have hfail : zkSocketErr ≠ zkOk := by decide
  by_cases hlen : 4 ≤ w.stream.length
  · obtain ⟨ys, w₁, hys, -, hfaults, hframe⟩ := recvFrame_header (H := H) hreads (not_not.1 hpoll) hlen
    have hdrop : (w.stream.drop 4).length = w.stream.length - 4 := List.length_drop
    have hmissing : ¬ (headerLength w.stream ≤ 0 ∨
        H.ok .recvBuf (headerLength w.stream) = true ∧ 4 + headerLength w.stream ≤ w.stream.length) :=
      fun harr => h ⟨not_not.1 hpoll, hlen, harr⟩
    rw [not_or, not_and] at hmissing
    obtain ⟨hpos, hshort⟩ := hmissing
    obtain ⟨y, hread, hstatus, houtside, hendless⟩ := readSocket_missing (not_le.1 hpos) (hdrop.symm ▸ hys)
      (fun hok => by have := hshort hok; omega) fun i => H.junk i.toNat
    have hstuck : y.endless = true ↔ Stuck H w.stream := by
      rw [hendless, ← List.length_pos_iff, hdrop]
      exact ⟨fun h => ⟨by omega, not_le.1 hpos, h.1⟩, fun h => ⟨h.2.2, by have := h.1; omega⟩⟩
    rw [hframe y hread, hstatus, if_pos hfail]
    refine ⟨rfl, rfl, ?_⟩
    show (w₁.received y).faults = w.faults ↔ _
    rw [received_faults w₁ houtside, hfaults, ← hstuck]
    cases y.endless with
    | true => exact iff_of_false (by simp) (not_not.2 ⟨not_not.1 hpoll, rfl⟩)
    | false => exact iff_of_true (List.append_nil _) fun h => Bool.false_ne_true h.2
  · obtain ⟨mem', stream', zs, hread⟩ := @readSocket_short 4 0 w.reads hreads.bytes
      (fun i => H.junk i.toNat) w.stream (by omega)
    rw [Nat.cast_zero] at hread
    rw [World.recvFrame, World.nextPoll]
    simp only [if_neg hpoll, hread, if_pos hfail]
    refine ⟨trivial, rfl, iff_of_true ?_ fun hstuck => hlen hstuck.2.1.le⟩
    exact (received_faults _ rfl).trans (List.append_nil _)

/-- A frame that arrives is handed on with the length that its header has. -/
private theorem recvFrame_arrives (hreads : Delivering w.reads w.stream.length)
    (hpoll : waitResult .read (w.polls.headD (0, 0)).1 (w.polls.headD (0, 0)).2 = zkOk) (h : Arrives H w.stream) :
    (w.recvFrame H).1 = some (headerLength w.stream, if H.ok .recvBuf (headerLength w.stream) then
        some ((w.stream.drop 4).take (headerLength w.stream).toNat) else none) ∧
      (w.recvFrame H).2.client = w.client ∧ (w.recvFrame H).2.faults = w.faults := by
  obtain ⟨hlen, harr⟩ := h
  obtain ⟨ys, w₁, hys, hclient, hfaults, hframe⟩ := recvFrame_header (H := H) hreads hpoll hlen
  by_cases hnonpos : headerLength w.stream ≤ 0
  · have hempty : (w.stream.drop 4).take (headerLength w.stream).toNat = [] := by
      rw [Int.toNat_of_nonpos hnonpos, List.take_zero]
    rw [hframe _ (readSocket_empty hnonpos _ _ _), if_neg (not_not.2 rfl), hempty]
    refine ⟨?_, (received_client _ _).trans hclient, (received_faults _ rfl).trans ((List.append_nil _).trans hfaults)⟩
    simp [Memory.block, Int.toNat_of_nonpos hnonpos]
  · obtain ⟨hok, hlong⟩ := harr.resolve_left hnonpos
    obtain ⟨n, hn⟩ := Int.eq_ofNat_of_zero_le (show 0 ≤ headerLength w.stream by omega)
    rw [hn] at hok hlong hframe ⊢
    obtain ⟨mem, zs, hread, hblock, -⟩ := @readSocket_whole n (w.stream.length - 4 - n) ys
      (by rwa [show n + (w.stream.length - 4 - n) = w.stream.length - 4 by omega]) (fun i => H.junk i.toNat) _
      (show n ≤ (w.stream.drop 4).length by rw [List.length_drop]; omega)
    rw [hok, Bool.not_true] at hframe
    rw [hframe _ hread, if_neg (not_not.2 rfl), hok]
    refine ⟨?_, (received_client _ _).trans hclient, (received_faults _ rfl).trans ((List.append_nil _).trans hfaults)⟩
    simp only [if_true, hblock, Int.toNat_natCast]

private theorem recvResponse_none (h : (w.recvFrame H).1 = none) : w.recvResponse H = (none, (w.recvFrame H).2) := by
  have hframe : w.recvFrame H = (none, (w.recvFrame H).2) := Prod.ext h rfl
  rw [World.recvResponse, hframe]

private theorem recvResponse_some {n : Int} {block : Option Bytes} (h : (w.recvFrame H).1 = some (n, block)) :
    w.recvResponse H =
      (if H.ok .archive 0 then some { len := n, off := 0, buffer := block } else none, (w.recvFrame H).2) := by
  have hframe : w.recvFrame H = (some (n, block), (w.recvFrame H).2) := Prod.ext h rfl
  rw [World.recvResponse, hframe]
  cases H.ok .archive 0 <;> rfl

/-- The decoders stay inside the block of an archive that `recv_response` has got memory for. -/
private theorem frameSafe_archive {bs : Bytes} {n : Int} (hn : headerLength w.stream = n) (hlen : (bs.length : Int) = n)
    {w' : World} (hfaults : w'.faults = w.faults) :
    FrameSafe w (some { len := n, off := 0, buffer := some bs }, w') := by
  have harchive : ({ len := n, off := 0, buffer := some bs } : IArchive) = archiveAt bs 0 := by
    rw [archiveAt, hlen, Nat.cast_zero]
  have hlt : bs.length < 2 ^ 31 := by
    have hmax := (ofBe32 (w.stream.take 4)).toInt_lt
    rw [headerLength] at hn
    omega
  rw [harchive]
  refine ⟨hfaults, by simp, fun ia h => ?_, fun ia h => ?_, fun ia h => ?_, fun ia ia' h hreach σ r v hr => ?_⟩ <;>
    obtain rfl := Option.some.inj h
  · exact hlen.trans hn.symm
  · exact Int.natCast_nonneg _
  · exact ⟨bs, rfl, rfl⟩
  · exact hreach.inside hlt hr v

/-- A result without an archive. -/
private theorem frameSafe_none {w' : World} : FrameSafe w (none, w') ↔
    w'.faults = w.faults ∧ w'.client.lastErr ≠ zkOk := by
  constructor
  · exact fun h => ⟨h.faults, h.failed rfl⟩
  · rintro ⟨hfaults, herr⟩
    exact ⟨hfaults, fun _ => herr, by simp, by simp, by simp, by simp⟩

/-- `recv_response` is safe on every header exactly when its read loop is not stuck, no frame that arrives has a length
without memory for it, and the archive is not refused while no error is recorded. -/
theorem recvResponse_safe_iff (hreads : Delivering w.reads w.stream.length) :
    FrameSafe w (w.recvResponse H) ↔
      (waitResult .read (w.polls.headD (0, 0)).1 (w.polls.headD (0, 0)).2 = zkOk →
        ¬ Stuck H w.stream ∧ (Arrives H w.stream →
          (H.ok .archive 0 = true → 0 ≤ headerLength w.stream ∧ H.ok .recvBuf (headerLength w.stream) = true) ∧
          (H.ok .archive 0 = false → w.client.lastErr ≠ zkOk))) := by
  by_cases harr : waitResult .read (w.polls.headD (0, 0)).1 (w.polls.headD (0, 0)).2 = zkOk ∧ Arrives H w.stream
  · obtain ⟨hpoll, harr⟩ := harr
    obtain ⟨hframe, hclient, hfaults⟩ := recvFrame_arrives hreads hpoll harr
    rw [recvResponse_some hframe]
    have hmoving : ¬ Stuck H w.stream := by
      rintro ⟨-, hpos, hok⟩
      rcases harr.2 with hle | ⟨hok', -⟩
      · omega
      · exact absurd (hok'.symm.trans hok) (by decide)
    constructor
    · intro hsafe _
      refine ⟨hmoving, fun _ => ⟨fun harch => ?_, fun harch => ?_⟩⟩
      · rw [if_pos harch] at hsafe
        obtain ⟨bs, hbs, hlen⟩ := hsafe.block _ rfl
        exact ⟨hsafe.nonneg _ rfl, by_contra fun hok => by simp [hok] at hbs⟩
      · rw [if_neg (by simp [harch])] at hsafe
        exact hclient ▸ hsafe.failed rfl
    · intro hcond
      obtain ⟨hmem, herr⟩ := (hcond hpoll).2 harr
      cases harch : H.ok .archive 0 with
      | false =>
        rw [if_neg (by simp)]
        exact frameSafe_none.2 ⟨hfaults, hclient ▸ herr harch⟩
      | true =>
        obtain ⟨hpos, hok⟩ := hmem harch
        rw [if_pos rfl, if_pos hok]
        refine frameSafe_archive rfl ?_ hfaults
        rw [List.length_take, List.length_drop]
        obtain ⟨-, hle | ⟨-, hle⟩⟩ := harr <;> omega
  · obtain ⟨hnone, herr, hfaults⟩ := recvFrame_refused hreads harr
    rw [recvResponse_none hnone, frameSafe_none, hfaults]
    have hfailed : (w.recvFrame H).2.client.lastErr ≠ zkOk := by
      rw [herr]
      decide
    constructor
    · exact fun hsafe hpoll => ⟨fun hstuck => hsafe.1 ⟨hpoll, hstuck⟩, fun hframe => absurd ⟨hpoll, hframe⟩ harr⟩
    · exact fun hcond => ⟨fun hstuck => (hcond hstuck.1).1 hstuck.2, hfailed⟩

end Receiving

/-- A server that sends `stream` and closes the connection. -/
private def framed (stream : Bytes) : World :=
  { World.idle (initClient [] 10 3 0 0 0) with
    polls := [(1, 1)], stream, reads := List.replicate stream.length (.bytes 2) }

private theorem framed_delivering (stream : Bytes) :
    Delivering (framed stream).reads (framed stream).stream.length :=
  ⟨fun _ hx => ⟨2, List.eq_of_mem_replicate hx⟩, by simp [framed]⟩

theorem recvResponse_safe_short :
    FrameSafe (framed [0, 0, 0, 2, 7, 9]) ((framed [0, 0, 0, 2, 7, 9]).recvResponse Heap.plenty) :=
  (recvResponse_safe_iff (framed_delivering [0, 0, 0, 2, 7, 9])).2 fun _ =>
    ⟨fun hstuck => absurd hstuck.2.2 (by decide), fun _ => ⟨fun _ => by decide, by decide⟩⟩

/-- A header with the value `-1`: there is an archive of this length without a block, and reading from it accesses a
null pointer. -/
theorem recvResponse_negative_header :
    ¬ ∀ (H : Heap) (w : World), Delivering w.reads w.stream.length → FrameSafe w (w.recvResponse H) := by
  intro hall
  have hsafe := hall Heap.plenty (framed [255, 255, 255, 255]) (framed_delivering _)
  have hresp : ((framed [255, 255, 255, 255]).recvResponse Heap.plenty).1 =
      some { len := -1, off := 0, buffer := none } := by
    decide +kernel
  have hinside := hsafe.inside _ _ hresp .start Int32 _ 0 (.int (.field "xid") fun x _ => x)
  exact absurd hinside (by decide +kernel)

end ZkClient
