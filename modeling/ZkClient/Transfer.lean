import ZkClient.World
import ZkClient.Decode

/-!
# What the transfers do

With a peer that keeps accepting or delivering bytes, in whatever portions, the write loop puts the whole buffer on the
wire and the read loop takes exactly the requested number of bytes from the stream.  So `recv_response` hands on the
payload of a frame, and what follows the frame stays unread.
-/

namespace ZkClient

open BigEndian

/-! ### The length prefix -/

private theorem or_bytes {a b c d : Nat} (hb : b < 256) (hc : c < 256) (hd : d < 256) :
    a <<< 24 ||| b <<< 16 ||| c <<< 8 ||| d = a * 2 ^ 24 + b * 2 ^ 16 + c * 2 ^ 8 + d := by
  have e1 : a <<< 24 ||| b <<< 16 = (a * 2 ^ 8 + b) <<< 16 := by
    rw [← Nat.shiftLeft_add_eq_or_of_lt (by rw [Nat.shiftLeft_eq]; omega)]
    simp only [Nat.shiftLeft_eq]
    omega
  have e2 : (a * 2 ^ 8 + b) <<< 16 ||| c <<< 8 = ((a * 2 ^ 8 + b) * 2 ^ 8 + c) <<< 8 := by
    rw [← Nat.shiftLeft_add_eq_or_of_lt (by rw [Nat.shiftLeft_eq]; omega)]
    simp only [Nat.shiftLeft_eq]
    omega
  rw [e1, e2, ← Nat.shiftLeft_add_eq_or_of_lt (by omega), Nat.shiftLeft_eq]
  omega

private theorem toNat_shifted (b : UInt8) {k : UInt32} {n : Nat} (hk : k.toNat = n) (hn : n ≤ 24) :
    (b.toUInt32 <<< k).toNat = b.toNat <<< n := by
  have hb := b.toNat_lt
  have hpow : 2 ^ n ≤ 2 ^ 24 := Nat.pow_le_pow_right (n := 2) (by omega) hn
  have hlt : b.toNat * 2 ^ n < 2 ^ 32 := by
    calc b.toNat * 2 ^ n ≤ 255 * 2 ^ 24 := Nat.mul_le_mul (by omega) hpow
      _ < 2 ^ 32 := by omega
  rw [UInt32.toNat_shiftLeft, UInt8.toNat_toUInt32, hk, Nat.mod_eq_of_lt (by omega : n < 32), Nat.shiftLeft_eq,
    Nat.mod_eq_of_lt hlt]

theorem decodeInt32_eq (b₀ b₁ b₂ b₃ : UInt8) (rest : Bytes) :
    decodeInt32 (b₀ :: b₁ :: b₂ :: b₃ :: rest) 0 = ofBe32 [b₀, b₁, b₂, b₃] := by
  have h0 := b₀.toNat_lt
  have h1 := b₁.toNat_lt
  have h2 := b₂.toNat_lt
  have h3 := b₃.toNat_lt
  have hlow : (b₃.toUInt32 &&& 0xff).toNat = b₃.toNat := by
    rw [UInt32.toNat_and, UInt8.toNat_toUInt32, show (0xff : UInt32).toNat = 2 ^ 8 - 1 by rfl,
      Nat.and_two_pow_sub_one_eq_mod]
    omega
  have hval : BigEndian.decode [b₀, b₁, b₂, b₃] =
      b₀.toNat * 2 ^ 24 + b₁.toNat * 2 ^ 16 + b₂.toNat * 2 ^ 8 + b₃.toNat := by
    simp only [BigEndian.decode, List.length_cons, List.length_nil]
    omega
  show ((b₀.toUInt32 <<< 24) ||| (b₁.toUInt32 <<< 16) ||| (b₂.toUInt32 <<< 8) ||| (b₃.toUInt32 &&& 0xff)).toInt32 =
    (UInt32.ofNat (BigEndian.decode [b₀, b₁, b₂, b₃])).toInt32
  congr 1
  apply UInt32.toNat_inj.1
  rw [UInt32.toNat_or, UInt32.toNat_or, UInt32.toNat_or, toNat_shifted b₀ (n := 24) rfl (by omega),
    toNat_shifted b₁ (n := 16) rfl (by omega), toNat_shifted b₂ (n := 8) rfl (by omega), hlow, or_bytes h1 h2 h3,
    UInt32.toNat_ofNat', hval, Nat.mod_eq_of_lt]
  omega

theorem lengthPrefix_eq (n : Nat) : lengthPrefix n = encode 4 n := by
  have hlow : UInt8.ofNat (n &&& 0xff) = UInt8.ofNat n := by
    apply UInt8.toNat_inj.1
    rw [UInt8.toNat_ofNat', UInt8.toNat_ofNat', show 0xff = 2 ^ 8 - 1 by rfl, Nat.and_two_pow_sub_one_eq_mod]
    omega
  simp [lengthPrefix, encode, Nat.shiftRight_eq_div_pow, hlow]

@[simp] theorem length_lengthPrefix (n : Nat) : (lengthPrefix n).length = 4 := rfl

theorem decodeInt32_lengthPrefix {n : Nat} (hn : n < 2 ^ 31) : (decodeInt32 (lengthPrefix n) 0).toInt = n := by
  have h : decodeInt32 (lengthPrefix n) 0 = Int32.ofNat n := by
    rw [lengthPrefix, decodeInt32_eq]
    show (UInt32.ofNat (BigEndian.decode (lengthPrefix n))).toInt32 = Int32.ofNat n
    rw [lengthPrefix_eq, decode_encode, Nat.mod_eq_of_lt (by omega)]
    rfl
  rw [h, Int32.toInt_ofNat_of_lt (by omega)]

/-- A payload as it travels. -/
def frame (payload : Bytes) : Bytes := lengthPrefix payload.length ++ payload

/-! ### Sending -/

/-- The coming writes accept bytes, and there are at least `n` of them. -/
structure Accepting (xs : List WriteResult) (n : Nat) : Prop where
  bytes : ∀ x ∈ xs, ∃ k, x = .bytes k
  enough : n ≤ xs.length

theorem sliceAt_eq {buf : Bytes} {w k : Nat} (h : w + k ≤ buf.length) :
    sliceAt buf w k = (buf.drop w).take k := by
  apply List.ext_getElem
  · simp only [sliceAt, List.length_map, List.length_range, List.length_take, List.length_drop]
    omega
  · intro i h1 h2
    have hi : w + i < buf.length := by
      simp only [List.length_take, List.length_drop] at h2
      omega
    have hcast : ((w : Int) + (i : Int)).toNat = w + i := by omega
    have hpos : (0 : Int) ≤ (w : Int) + (i : Int) := by omega
    simp [sliceAt, hcast, hpos, List.getElem?_eq_getElem hi]

theorem writeSocket_accepting (buf : Bytes) {xs : List WriteResult} {w n : Nat} (hw : w ≤ buf.length)
    (hxs : Accepting xs (buf.length - w + n)) (wire : Bytes) :
    ∃ ys, writeSocket buf xs w wire false =
      { status := zkOk, wire := wire ++ buf.drop w, writes := ys, outside := false } ∧ Accepting ys n := by
  induction xs generalizing w wire with
  | nil =>
    have := hxs.enough
    simp only [List.length_nil] at this
    have hlt : ¬ (w : Int) < buf.length := by omega
    exact ⟨[], by simp [writeSocket, hlt, List.drop_eq_nil_of_le (by omega : buf.length ≤ w)], by simp, by simp; omega⟩
  | cons x xs ih =>
    have henough := hxs.enough
    by_cases hlt : (w : Int) < buf.length
    · obtain ⟨k, rfl⟩ := hxs.bytes x (by simp)
      simp only [List.length_cons] at henough
      -- one write accepts `j` bytes, at least one of them
      obtain ⟨j, hj, hpos, hle⟩ : ∃ j, min (max 1 k) ((buf.length : Int) - w).toNat = j ∧ 0 < j ∧ w + j ≤ buf.length :=
        ⟨_, rfl, by omega, by omega⟩
      obtain ⟨ys, hys, hleft⟩ := ih (w := w + j) hle ⟨fun y hy => hxs.bytes y (by simp [hy]), by omega⟩
        (wire ++ sliceAt buf w j)
      refine ⟨ys, ?_, hleft⟩
      have hnonneg : decide ((w : Int) < 0) = false := decide_eq_false (by omega)
      rw [writeSocket, if_pos hlt]
      simp only [hj, hnonneg, Bool.or_false]
      rw [show (w : Int) + (j : Int) = ((w + j : Nat) : Int) by omega, hys, sliceAt_eq hle, List.append_assoc,
        ← List.drop_drop, List.take_append_drop]
    · exact ⟨x :: xs, by simp [writeSocket, hlt, List.drop_eq_nil_of_le (by omega : buf.length ≤ w)], hxs.bytes,
        by omega⟩

/-! ### Receiving -/

/-- The coming reads deliver bytes, and there are at least `n` of them. -/
structure Delivering (xs : List ReadResult) (n : Nat) : Prop where
  bytes : ∀ x ∈ xs, ∃ k, x = .bytes k
  enough : n ≤ xs.length

private theorem Memory.store_at {mem : Memory} {r : Nat} {bs : Bytes} {i : Nat} (h : i < bs.length) :
    mem.store r bs (r + i : Nat) = bs.getD i 0 := by
  have hin : (r : Int) ≤ (r + i : Nat) ∧ ((r + i : Nat) : Int) < r + bs.length := by omega
  have hsub : (((r + i : Nat) : Int) - r).toNat = i := by omega
  simp only [Memory.store, if_pos hin, hsub]

private theorem Memory.store_before {mem : Memory} {r : Nat} {bs : Bytes} {i : Nat} (h : i < r) :
    mem.store r bs (i : Nat) = mem i := by
  have hout : ¬ ((r : Int) ≤ (i : Nat) ∧ ((i : Nat) : Int) < r + bs.length) := by omega
  simp only [Memory.store, if_neg hout]

theorem Memory.block_eq {mem : Memory} (bs : Bytes) (h : ∀ i, i < bs.length → mem i = bs.getD i 0) :
    mem.block bs.length = bs := by
  apply List.ext_getElem
  · simp [Memory.block]
  · intro i h1 h2
    simp [Memory.block, h i h2, List.getElem?_eq_getElem h2]

/-- The read loop at offset `r`, with the missing bytes `bs` in front of the stream. -/
theorem readSocket_delivering (bs rest : Bytes) {xs : List ReadResult} {n r : Nat}
    (hxs : Delivering xs (bs.length + n)) (mem : Memory) :
    ∃ mem' ys, readSocket false (r + bs.length : Nat) xs r mem (bs ++ rest) false =
        { status := zkOk, mem := mem', stream := rest, reads := ys, closed := false, outside := false
          endless := false } ∧
      (∀ i, i < bs.length → mem' (r + i : Nat) = bs.getD i 0) ∧ (∀ i, i < r → mem' i = mem i) ∧
      Delivering ys n := by
  induction xs generalizing bs r mem with
  | nil =>
    have henough := hxs.enough
    simp only [List.length_nil] at henough
    obtain rfl : bs = [] := List.length_eq_zero_iff.1 (by omega)
    exact ⟨mem, [], by simp [readSocket], by simp, by simp, ⟨by simp, by simp; omega⟩⟩
  | cons x xs ih =>
    by_cases hbs : bs = []
    · subst hbs
      refine ⟨mem, x :: xs, by simp [readSocket], by simp, by simp, ⟨hxs.bytes, ?_⟩⟩
      simpa using hxs.enough
    · have hpos : 0 < bs.length := List.length_pos_iff.2 hbs
      have hlt : (r : Int) < (r + bs.length : Nat) := by omega
      obtain ⟨k, rfl⟩ := hxs.bytes x (by simp)
      have henough := hxs.enough
      simp only [List.length_cons] at henough
      -- one read delivers `j` bytes, at least one of them
      obtain ⟨j, hj, hjpos, hjle⟩ : ∃ j,
          min (min (max 1 k) (((r + bs.length : Nat) : Int) - r).toNat) (bs ++ rest).length = j ∧ 0 < j ∧
            j ≤ bs.length := by
        refine ⟨_, rfl, ?_, ?_⟩ <;> rw [List.length_append] <;> omega
      have htake : (bs ++ rest).take j = bs.take j := List.take_append_of_le_length hjle
      have hdrop : (bs ++ rest).drop j = bs.drop j ++ rest := List.drop_append_of_le_length hjle
      have hlen : r + bs.length = (r + j) + (bs.drop j).length := by rw [List.length_drop]; omega
      obtain ⟨mem', ys, hys, hnew, hold, hdel⟩ := ih (bs.drop j) (r := r + j)
        ⟨fun y hy => hxs.bytes y (by simp [hy]), by rw [List.length_drop]; omega⟩ (mem.store r (bs.take j))
      refine ⟨mem', ys, ?_, ?_, ?_, hdel⟩
      · have hnonneg : decide ((r : Int) < 0) = false := decide_eq_false (by omega)
        have hj0 : j ≠ 0 := by omega
        rw [readSocket, if_pos hlt]
        simp only [hj, hnonneg, Bool.or_false]
        rw [if_neg hj0, if_neg Bool.false_ne_true, htake, hdrop, hlen,
          show (r : Int) + (j : Int) = ((r + j : Nat) : Int) by omega, hys]
      · intro i hi
        by_cases hij : i < j
        · rw [hold (r + i) (by omega), Memory.store_at (by rw [List.length_take]; omega)]
          simp [hij]
        · have := hnew (i - j) (by rw [List.length_drop]; omega)
          rw [show r + i = r + j + (i - j) by omega, this]
          simp [show j + (i - j) = i by omega]
      · intro i hi
        rw [hold i (by omega), Memory.store_before hi]

/-! ### `send_request` and `recv_response` -/

/-- The socket is writable and accepts the next `n` bytes. -/
structure World.Accepts (w : World) (n : Nat) : Prop where
  poll : waitResult .write (w.polls.headD (0, 0)).1 (w.polls.headD (0, 0)).2 = zkOk
  writes : Accepting w.writes n

/-- The socket is readable, and the server sends `payload` as a frame and `rest` after it. -/
structure World.Delivers (w : World) (payload rest : Bytes) : Prop where
  poll : waitResult .read (w.polls.headD (0, 0)).1 (w.polls.headD (0, 0)).2 = zkOk
  stream : w.stream = frame payload ++ rest
  reads : Delivering w.reads (frame payload).length

/-- The write loop takes one outcome for a byte at most, and `n` more are left. -/
theorem World.sendRequest_leaves {H : Heap} (hH : H.Succeeds) {w : World} {payload : Bytes} {n : Nat}
    (hpoll : waitResult .write (w.polls.headD (0, 0)).1 (w.polls.headD (0, 0)).2 = zkOk)
    (hwrites : Accepting w.writes ((frame payload).length + n)) :
    ∃ ys, w.sendRequest H payload =
      (zkOk, { w with polls := w.polls.tail, wire := w.wire ++ frame payload, writes := ys }) ∧ Accepting ys n := by
  have hok : H.ok .sendBuf ((payload.length : Int) + 4) = true := hH _ _ (by omega)
  obtain ⟨ys, hys, hleft⟩ := writeSocket_accepting (frame payload) (Nat.zero_le _) hwrites w.wire
  refine ⟨ys, ?_, hleft⟩
  simp only [World.sendRequest, World.nextPoll, hok, hpoll]
  simp only [frame, List.drop_zero, Nat.cast_zero] at hys
  simp [hys, frame]

theorem World.sendRequest_accepts {H : Heap} (hH : H.Succeeds) {w : World} {payload : Bytes}
    (hw : w.Accepts (payload.length + 4)) :
    ∃ ys, w.sendRequest H payload =
      (zkOk, { w with polls := w.polls.tail, wire := w.wire ++ frame payload, writes := ys }) := by
  have hlen : (frame payload).length = payload.length + 4 := by simp [frame]; omega
  obtain ⟨ys, hsend, -⟩ := World.sendRequest_leaves hH (n := 0) hw.poll (by rw [hlen]; exact hw.writes)
  exact ⟨ys, hsend⟩

/-- The read loops take one outcome for a byte at most, and `n` more are left. -/
theorem World.recvFrame_leaves {H : Heap} (hH : H.Succeeds) {w : World} {payload rest : Bytes} {n : Nat}
    (hlt : payload.length < 2 ^ 31)
    (hpoll : waitResult .read (w.polls.headD (0, 0)).1 (w.polls.headD (0, 0)).2 = zkOk)
    (hstream : w.stream = frame payload ++ rest) (hreads : Delivering w.reads ((frame payload).length + n)) :
    ∃ ys, w.recvFrame H = (some ((payload.length : Int), some payload),
      { w with polls := w.polls.tail, stream := rest, reads := ys }) ∧ Delivering ys n := by
  have hlen := decodeInt32_lengthPrefix hlt
  rw [frame, List.length_append, Nat.add_assoc] at hreads
  -- the four bytes of the length
  obtain ⟨mem₁, ys₁, h₁, hmem₁, -, hdel₁⟩ := readSocket_delivering (lengthPrefix payload.length)
    (payload ++ rest) (r := 0) hreads (fun i => H.junk i.toNat)
  have hblock₁ : mem₁.block 4 = lengthPrefix payload.length :=
    Memory.block_eq (lengthPrefix _) (by simpa using hmem₁)
  -- the payload
  obtain ⟨mem₂, ys₂, h₂, hmem₂, -, hdel₂⟩ := readSocket_delivering payload rest (r := 0) hdel₁
    (fun i => H.junk i.toNat)
  have hblock₂ : mem₂.block payload.length = payload := Memory.block_eq payload (by simpa using hmem₂)
  have hbuf : H.ok .recvBuf (payload.length : Int) = true := hH _ _ (by omega)
  refine ⟨ys₂, ?_, hdel₂⟩
  simp only [Nat.zero_add, length_lengthPrefix, Nat.cast_zero, Nat.cast_ofNat] at h₁ h₂
  have hsplit : w.stream = lengthPrefix payload.length ++ (payload ++ rest) := by
    rw [hstream, frame, List.append_assoc]
  simp only [World.recvFrame, World.nextPoll, hpoll]
  simp [hsplit, h₁, World.received, hblock₁, hlen, hbuf, h₂, hblock₂]

theorem World.recvResponse_leaves {H : Heap} (hH : H.Succeeds) {w : World} {payload rest : Bytes} {n : Nat}
    (hlt : payload.length < 2 ^ 31)
    (hpoll : waitResult .read (w.polls.headD (0, 0)).1 (w.polls.headD (0, 0)).2 = zkOk)
    (hstream : w.stream = frame payload ++ rest) (hreads : Delivering w.reads ((frame payload).length + n)) :
    ∃ ys, w.recvResponse H =
      (some (archiveAt payload 0), { w with polls := w.polls.tail, stream := rest, reads := ys }) ∧
        Delivering ys n := by
  obtain ⟨ys, h, hleft⟩ := World.recvFrame_leaves hH hlt hpoll hstream hreads
  have harch : H.ok .archive 0 = true := hH _ _ (by omega)
  exact ⟨ys, by simp [World.recvResponse, h, harch, archiveAt], hleft⟩

theorem World.recvResponse_delivers {H : Heap} (hH : H.Succeeds) {w : World} {payload rest : Bytes}
    (hlt : payload.length < 2 ^ 31) (hw : w.Delivers payload rest) :
    ∃ ys, w.recvResponse H =
      (some (archiveAt payload 0), { w with polls := w.polls.tail, stream := rest, reads := ys }) := by
  obtain ⟨ys, h, -⟩ := World.recvResponse_leaves hH (n := 0) hlt hw.poll hw.stream hw.reads
  exact ⟨ys, h⟩

/-- What the bytes taken, a fault and the end of the file preserve, a run of the read loop preserves. -/
theorem World.received_inv {I : World → Prop} (htaken : ∀ w stream reads, I w → I { w with stream, reads })
    (hfault : ∀ w f, I w → I (w.fault f))
    (heof : ∀ w, I w → I { w.closeFd w.client.sock with eofs := w.eofs + 1 }) {w : World} (hw : I w) (x : Received) :
    I (w.received x) := by
  have h := htaken w x.stream x.reads hw
  unfold World.received
  cases x.outside <;> cases x.endless <;> cases x.closed
  · exact h
  · exact heof _ h
  · exact hfault _ _ h
  · exact heof _ (hfault _ _ h)
  · exact hfault _ _ h
  · exact heof _ (hfault _ _ h)
  · exact hfault _ _ (hfault _ _ h)
  · exact heof _ (hfault _ _ (hfault _ _ h))

/-- What a poll, a recorded error and a run of the read loop preserve, receiving a frame preserves. -/
theorem World.recvFrame_inv {H : Heap} {I : World → Prop} (hpoll : ∀ w, I w → I { w with polls := w.polls.tail })
    (herr : ∀ w err, I w → I (w.setErr err)) (hrecv : ∀ w x, I w → I (w.received x)) {w : World} (hw : I w) :
    I (w.recvFrame H).2 := by
  unfold World.recvFrame World.nextPoll
  by_cases hwait : waitResult .read (w.polls.headD (0, 0)).1 (w.polls.headD (0, 0)).2 ≠ zkOk
  · simp only [if_pos hwait]
    exact herr _ _ (hpoll _ hw)
  · simp only [if_neg hwait]
    have hw₁ := hpoll _ hw
    generalize readSocket false 4 w.reads 0 (fun i => H.junk i.toNat) w.stream false = x
    by_cases hx : x.status ≠ zkOk
    · simp only [if_pos hx]
      exact herr _ _ (hrecv _ _ hw₁)
    · simp only [if_neg hx]
      generalize readSocket _ _ _ _ _ _ _ = y
      by_cases hy : y.status ≠ zkOk
      · simp only [if_pos hy]
        exact herr _ _ (hrecv _ _ (hrecv _ _ hw₁))
      · simp only [if_neg hy]
        exact hrecv _ _ (hrecv _ _ hw₁)

theorem World.recvResponse_snd {H : Heap} (w : World) : (w.recvResponse H).2 = (w.recvFrame H).2 := by
  simp only [World.recvResponse]
  rcases w.recvFrame H with ⟨_ | ⟨len, buffer⟩, w₁⟩
  · rfl
  · simp only
    split <;> rfl

end ZkClient
