import ZkClient.Encode

/-!
# What the archives read

A reader that stands in front of the format of a value assigns exactly that value and advances by its length
(`Reads`); readers compose along the fields of a record, as the writers do.

`Fixed` is for the records of constant size: such a reader succeeds exactly when enough bytes are left, and otherwise
leaves one of its slots unassigned.
-/

namespace ZkClient

open BigEndian

variable {σ τ : Type}

/-- An input archive over the received block `buf`, at offset `k`. -/
def archiveAt (buf : Bytes) (k : Nat) : IArchive := { len := buf.length, off := k, buffer := some buf }

/-- In front of `bs` the reader `r` succeeds, passes `bs`, updates its variable by `upd` and assigns `slots`. -/
def Reads (r : Reader σ) (bs : Bytes) (upd : σ → σ) (slots : List Slot) : Prop :=
  ∀ buf k rest v, buf.length < 2 ^ 31 → k ≤ buf.length → buf.drop k = bs ++ rest →
    r (archiveAt buf k) v =
      { rc := 0, ia := archiveAt buf (k + bs.length), val := upd v, assigned := slots, oob := false }

/-! ### The archive at an offset -/

theorem length_of_drop {buf bs rest : Bytes} {k : Nat} (hk : k ≤ buf.length) (h : buf.drop k = bs ++ rest) :
    k + bs.length + rest.length = buf.length := by
  have := congrArg List.length h
  simp only [List.length_drop, List.length_append] at this
  omega

theorem drop_after {buf bs rest : Bytes} {k : Nat} (h : buf.drop k = bs ++ rest) :
    buf.drop (k + bs.length) = rest := by
  rw [← List.drop_drop, h, List.drop_left]

theorem fetch_at {buf bs rest : Bytes} {k : Nat} (h : buf.drop k = bs ++ rest) :
    (archiveAt buf k).fetch bs.length = bs := by
  simp [IArchive.fetch, archiveAt, h]

theorem covers_at (buf : Bytes) {k n : Nat} (h : k + n ≤ buf.length) : (archiveAt buf k).covers n = true := by
  simp [IArchive.covers, archiveAt]
  omega

theorem skip_at (buf : Bytes) (k n : Nat) : (archiveAt buf k).skip n = archiveAt buf (k + n) := by
  simp [IArchive.skip, archiveAt]

theorem sizeT_at {buf : Bytes} {k : Nat} (hlt : buf.length < 2 ^ 31) (hk : k ≤ buf.length) :
    sizeT ((archiveAt buf k).len - (archiveAt buf k).off) = buf.length - k := by
  simp only [sizeT, archiveAt]
  omega

/-! ### Single fields -/

theorem reads_fixed {n : Nat} {bs : Bytes} (hn : bs.length = n) (slot : Slot) (set : Bytes → σ → σ) :
    Reads (iaFixed n slot set) bs (set bs) [slot] := by
  subst hn
  intro buf k rest v hlt hk h
  have hlen := length_of_drop hk h
  have hroom : ¬ sizeT ((archiveAt buf k).len - (archiveAt buf k).off) < bs.length := by
    rw [sizeT_at hlt hk]
    omega
  have hcov : (archiveAt buf k).covers bs.length = true := covers_at _ (by omega)
  simp only [iaFixed, if_neg hroom, fetch_at h, skip_at, hcov, Bool.not_true]

theorem reads_int (x : Int32) (slot : Slot) (set : Int32 → σ → σ) :
    Reads (iaDeserializeInt slot set) (be32 x) (set x) [slot] := by
  have h := reads_fixed (length_be32 x) slot fun bs => set (ofBe32 bs)
  rwa [ofBe32_be32] at h

theorem reads_long (x : Int64) (slot : Slot) (set : Int64 → σ → σ) :
    Reads (iaDeserializeLong slot set) (be64 x) (set x) [slot] := by
  have h := reads_fixed (length_be64 x) slot fun bs => set (ofBe64 bs)
  rwa [ofBe64_be64] at h

theorem reads_bool {i : Int32} (hi : i = 0 ∨ i = 1) (slot : Slot) (set : Int32 → σ → σ) :
    Reads (iaDeserializeBool slot set) (wireBool i) (set i) [slot] := by
  intro buf k rest v hlt hk h
  have hlen := length_of_drop hk h
  have hone : (wireBool i).length = 1 := rfl
  have hroom : ¬ (archiveAt buf k).len - (archiveAt buf k).off < 1 := by
    simp only [archiveAt]
    omega
  have hcov : (archiveAt buf k).covers 1 = true := covers_at _ (n := 1) (by omega)
  have hfetch : (archiveAt buf k).fetch 1 = wireBool i := fetch_at h
  have hskip : (archiveAt buf k).skip 1 = archiveAt buf (k + 1) := skip_at buf k 1
  have hval : ((wireBool i).headD 0).toInt8.toInt32 = i := by
    rcases hi with rfl | rfl <;> rfl
  simp only [iaDeserializeBool, if_neg hroom, hfetch, hskip, hcov, hval, hone, Bool.not_true]

private theorem heap_ok {H : Heap} (hH : H.Succeeds) (site : Site) {n : Nat} : H.ok site n = true := hH site n (by omega)

/-- In front of the format of a string everything hangs on the allocation. -/
theorem string_at (H : Heap) (tag : String) (set : Option Bytes → σ → σ) {buf s rest : Bytes} {k : Nat} (v : σ)
    (hlt : buf.length < 2 ^ 31) (hk : k ≤ buf.length) (h : buf.drop k = wireString (some s) ++ rest) :
    iaDeserializeString H tag set (archiveAt buf k) v =
      if H.ok (.field (k + 4 : Nat)) (s.length + 1) then
        { rc := 0, ia := archiveAt buf (k + (wireString (some s)).length), val := set (some s) v
          assigned := [.field tag], oob := false }
      else
        { rc := -enomem, ia := archiveAt buf (k + 4), val := set none v, assigned := [.field tag], oob := false } := by
  have hlen := length_of_drop hk h
  simp only [wireString, List.length_append, length_be32] at hlen
  have hint : (Int32.ofNat s.length).toInt = s.length := Int32.toInt_ofNat_of_lt (by omega)
  have h' : buf.drop k = be32 (Int32.ofNat s.length) ++ (s ++ rest) := by rw [h, wireString, List.append_assoc]
  have hrest : buf.drop (k + 4) = s ++ rest := by simpa using drop_after h'
  have hfirst := reads_int (Int32.ofNat s.length) (.len tag) (fun n (_ : Int32) => n) buf k _ 0 hlt hk h'
  have hroom : ¬ (archiveAt buf (k + 4)).len - (k + 4 : Nat) < s.length := by
    simp only [archiveAt]
    omega
  have hoff : (archiveAt buf (k + 4)).off = (k + 4 : Nat) := rfl
  have hcov : (archiveAt buf (k + 4)).covers s.length = true := covers_at _ (by omega)
  by_cases hok : H.ok (.field (k + 4 : Nat)) (s.length + 1) = true
  · simp only [iaDeserializeString, hfirst, length_be32, hint, hroom, hcov, fetch_at hrest, skip_at, hoff, hok,
      Int.toNat_natCast]
    simp [wireString, Nat.add_assoc, show ¬ ((s.length : Int) < 0) by omega]
  · simp only [iaDeserializeString, hfirst, length_be32, hint, hroom, hoff, hok]
    simp [show ¬ ((s.length : Int) < 0) by omega]

theorem reads_string {H : Heap} (hH : H.Succeeds) (tag : String) (set : Option Bytes → σ → σ) (s : Bytes) :
    Reads (iaDeserializeString H tag set) (wireString (some s)) (set (some s)) [.field tag] := by
  intro buf k rest v hlt hk h
  rw [string_at H tag set v hlt hk h, if_pos (hH _ _ (by omega))]

theorem reads_buffer {H : Heap} (hH : H.Succeeds) (tag : String) (get : σ → Buffer) (set : Buffer → σ → σ)
    (hget : ∀ b v, get (set b v) = b) (hset : ∀ b b' v, set b (set b' v) = set b v) (o : Option Bytes) :
    Reads (iaDeserializeBuffer H tag get set) (wireString o) (set (.of o)) [.len tag, .buff tag] := by
  intro buf k rest v hlt hk h
  have hlen := length_of_drop hk h
  cases o with
  | none =>
    have hfirst := reads_int (-1) (.len tag) (fun n v => set { get v with len := n } v) buf k _ v hlt hk h
    have hm1 : (-1 : Int32).toInt = -1 := rfl
    have hroom : ¬ (archiveAt buf (k + 4)).len - (archiveAt buf (k + 4)).off < -1 := by
      simp only [wireString, length_be32] at hlen
      simp only [archiveAt]
      omega
    simp only [iaDeserializeBuffer, hfirst, length_be32, hget, hset, hm1, hroom]
    simp [wireString, Buffer.of]
  | some s =>
    simp only [wireString, List.length_append, length_be32] at hlen
    have hint : (Int32.ofNat s.length).toInt = s.length := Int32.toInt_ofNat_of_lt (by omega)
    have hne : Int32.ofNat s.length ≠ -1 := by
      intro hm
      have hm1 : (Int32.ofNat s.length).toInt = -1 := by rw [hm]; rfl
      omega
    have h' : buf.drop k = be32 (Int32.ofNat s.length) ++ (s ++ rest) := by rw [h, wireString, List.append_assoc]
    have hrest : buf.drop (k + 4) = s ++ rest := by simpa using drop_after h'
    have hfirst := reads_int (Int32.ofNat s.length) (.len tag) (fun n v => set { get v with len := n } v) buf k _ v
      hlt hk h'
    have hroom : ¬ (archiveAt buf (k + 4)).len - (archiveAt buf (k + 4)).off < s.length := by
      simp only [archiveAt]
      omega
    have hok : H.ok (.field (archiveAt buf (k + 4)).off) (s.length : Int) = true := heap_ok hH _
    have hcov : (archiveAt buf (k + 4)).covers s.length = true := covers_at _ (by omega)
    simp only [iaDeserializeBuffer, hfirst, length_be32, hget, hset, hint, hroom, hne, hok, hcov, fetch_at hrest,
      skip_at, Int.toNat_natCast]
    simp [wireString, Buffer.of, Nat.add_assoc]

/-! ### Records -/

theorem Reads.nil : Reads (readRecord ([] : List (Reader σ))) [] id [] := fun _ _ _ _ _ _ _ => rfl

/-- One more field in front of a record. -/
theorem Reads.cons {f : Reader σ} {fs : List (Reader σ)} {bs cs : Bytes} {upd upd' : σ → σ} {slots slots' : List Slot}
    (hf : Reads f bs upd slots) (hfs : Reads (readRecord fs) cs upd' slots') :
    Reads (readRecord (f :: fs)) (bs ++ cs) (fun v => upd' (upd v)) (slots ++ slots') := by
  intro buf k rest v hlt hk h
  rw [List.append_assoc] at h
  have hlen := length_of_drop hk h
  have h1 := hf buf k _ v hlt hk h
  have h2 := hfs buf (k + bs.length) rest (upd v) hlt (by omega) (drop_after h)
  simp [readRecord, h1, h2, Nat.add_assoc]

theorem Reads.into {r : Reader τ} {bs : Bytes} {upd : τ → τ} {slots : List Slot} (hr : Reads r bs upd slots)
    (get : σ → τ) (set : τ → σ → σ) : Reads (r.into get set) bs (fun v => set (upd (get v)) v) slots := by
  intro buf k rest v hlt hk h
  simp [Reader.into, hr buf k rest (get v) hlt hk h]

private theorem readElems_at {elem : Reader τ} (zero : τ) {W : τ → Bytes} (xs : List τ)
    (helem : ∀ x ∈ xs, ∃ slots, Reads elem (W x) (fun _ => x) slots) {buf rest : Bytes} {k : Nat}
    (hlt : buf.length < 2 ^ 31) (hk : k ≤ buf.length) (h : buf.drop k = xs.flatMap W ++ rest) :
    readElems elem zero xs.length 0 (archiveAt buf k) =
      (0, archiveAt buf (k + (xs.flatMap W).length), xs, false) := by
  induction xs generalizing k with
  | nil => simp [readElems]
  | cons x xs ih =>
    rw [List.flatMap_cons, List.append_assoc] at h
    have hlen := length_of_drop hk h
    obtain ⟨slots, hx⟩ := helem x (by simp)
    have h1 := hx buf k _ zero hlt hk h
    have h2 := ih (fun y hy => helem y (by simp [hy])) (k := k + (W x).length) (by omega) (drop_after h)
    simp [readElems, h1, h2, Nat.add_assoc]

theorem reads_vector {H : Heap} (hH : H.Succeeds) (tag : String) {size : Nat} {elem : Reader τ} {zero : τ}
    {getCount : σ → Int32} {setCount : Int32 → σ → σ} {setData : Option (List τ) → σ → σ}
    (hcount : ∀ n v, getCount (setCount n v) = n) {W : τ → Bytes} (xs : List τ) (hxs : xs.length < 2 ^ 31)
    (helem : ∀ x ∈ xs, ∃ slots, Reads elem (W x) (fun _ => x) slots) :
    Reads (deserializeVector H tag size elem zero getCount setCount setData) (wireVector W xs)
      (fun v => setData (some xs) (setCount (Int32.ofNat xs.length) v)) [.len tag, .buff tag] := by
  intro buf k rest v hlt hk h
  rw [wireVector, List.append_assoc] at h
  have hlen := length_of_drop hk h
  have hint : (Int32.ofNat xs.length).toInt = xs.length := Int32.toInt_ofNat_of_lt hxs
  have hfirst := reads_int (Int32.ofNat xs.length) (.len tag) setCount buf k _ v hlt hk h
  have hrest := drop_after h
  rw [length_be32] at hrest hfirst hlen
  have helems := readElems_at zero xs helem hlt (k := k + 4) (by omega) hrest
  have hok : H.ok (.field (archiveAt buf (k + 4)).off) ((xs.length : Int) * size) = true :=
    hH _ _ (Int.mul_nonneg (by omega) (by omega))
  simp only [deserializeVector, hfirst, hcount, hint, Int.toNat_natCast, helems, hok, if_true, wireVector,
    List.length_append, length_be32]
  simp [Nat.add_assoc]

theorem reads_stat (x : Stat) : Reads deserializeStat x.wire (fun _ => x) statSlots :=
  (reads_long x.czxid _ _).cons <| (reads_long x.mzxid _ _).cons <| (reads_long x.ctime _ _).cons <|
    (reads_long x.mtime _ _).cons <| (reads_int x.version _ _).cons <| (reads_int x.cversion _ _).cons <|
    (reads_int x.aversion _ _).cons <| (reads_long x.ephemeralOwner _ _).cons <|
    (reads_int x.dataLength _ _).cons <| (reads_int x.numChildren _ _).cons <| (reads_long x.pzxid _ _).cons .nil

theorem reads_replyHeader (x : ReplyHeader) : ∃ slots, Reads deserializeReplyHeader x.wire (fun _ => x) slots :=
  ⟨_, (reads_int x.xid _ _).cons <| (reads_long x.zxid _ _).cons <| (reads_int x.err _ _).cons .nil⟩

theorem reads_requestHeader (x : RequestHeader) : ∃ slots, Reads deserializeRequestHeader x.wire (fun _ => x) slots :=
  ⟨_, (reads_int x.xid _ _).cons <| (reads_int x.type _ _).cons .nil⟩

/-! ### What is refused -/

/-- The reader stays inside the block, and it succeeds only in front of bytes in `L`, which it passes. -/
def Sound (r : Reader σ) (L : Bytes → Prop) : Prop :=
  ∀ buf k v, buf.length < 2 ^ 31 → k ≤ buf.length →
    (r (archiveAt buf k) v).oob = false ∧
    ((r (archiveAt buf k) v).rc < 0 ∨
      (r (archiveAt buf k) v).rc = 0 ∧
        ∃ bs rest, L bs ∧ buf.drop k = bs ++ rest ∧ (r (archiveAt buf k) v).ia = archiveAt buf (k + bs.length))

theorem sound_fixed (n : Nat) (slot : Slot) (set : Bytes → σ → σ) : Sound (iaFixed n slot set) (·.length = n) := by
  intro buf k v hlt hk
  by_cases hroom : sizeT ((archiveAt buf k).len - (archiveAt buf k).off) < n
  · simp [iaFixed, hroom]
  · rw [sizeT_at hlt hk] at hroom
    have hlen : ((buf.drop k).take n).length = n := by
      simp only [List.length_take, List.length_drop]
      omega
    have h : buf.drop k = (buf.drop k).take n ++ (buf.drop k).drop n := (List.take_append_drop ..).symm
    have hread := reads_fixed hlen slot set buf k _ v hlt hk h
    rw [hread]
    exact ⟨rfl, .inr ⟨rfl, _, _, hlen, h, rfl⟩⟩

theorem Sound.mono {r : Reader σ} {L L' : Bytes → Prop} (hr : Sound r L) (h : ∀ bs, L bs → L' bs) : Sound r L' := by
  intro buf k v hlt hk
  obtain ⟨hoob, hrc | ⟨hrc, bs, rest, hbs, hsplit, hia⟩⟩ := hr buf k v hlt hk
  · exact ⟨hoob, .inl hrc⟩
  · exact ⟨hoob, .inr ⟨hrc, bs, rest, h bs hbs, hsplit, hia⟩⟩

theorem exists_be32 {bs : Bytes} (h : bs.length = 4) : ∃ x, bs = be32 x := ⟨ofBe32 bs, (be32_ofBe32 h).symm⟩

theorem sound_int (slot : Slot) (set : Int32 → σ → σ) : Sound (iaDeserializeInt slot set) (fun bs => ∃ x, bs = be32 x) :=
  (sound_fixed 4 slot _).mono fun _ => exists_be32

theorem sound_long (slot : Slot) (set : Int64 → σ → σ) : Sound (iaDeserializeLong slot set) (fun bs => ∃ x, bs = be64 x) :=
  (sound_fixed 8 slot _).mono fun _ h => ⟨_, (be64_ofBe64 h).symm⟩

theorem Sound.nil : Sound (readRecord ([] : List (Reader σ))) (· = []) :=
  fun _ _ _ _ _ => ⟨rfl, .inr ⟨rfl, [], _, rfl, rfl, rfl⟩⟩

theorem Sound.cons {f : Reader σ} {fs : List (Reader σ)} {L L' : Bytes → Prop} (hf : Sound f L)
    (hfs : Sound (readRecord fs) L') : Sound (readRecord (f :: fs)) (fun x => ∃ bs cs, x = bs ++ cs ∧ L bs ∧ L' cs) := by
  intro buf k v hlt hk
  obtain ⟨hoob, hrc | ⟨hrc, bs, rest, hbs, hsplit, hia⟩⟩ := hf buf k v hlt hk
  · have hne : (f (archiveAt buf k) v).rc ≠ 0 := by omega
    simp only [readRecord, hne, ne_eq, not_false_eq_true, if_true]
    exact ⟨hoob, .inl hrc⟩
  · have hlen := length_of_drop hk hsplit
    have hnext := hfs buf (k + bs.length) (f (archiveAt buf k) v).val hlt (by omega)
    simp only [readRecord, hrc, ne_eq, not_true, if_false, hia, hoob, Bool.false_or]
    obtain ⟨hoob', hrc' | ⟨hrc', cs, rest', hcs, hsplit', hia'⟩⟩ := hnext
    · exact ⟨hoob', .inl hrc'⟩
    · rw [drop_after hsplit] at hsplit'
      refine ⟨hoob', .inr ⟨hrc', bs ++ cs, rest', ⟨bs, cs, rfl, hbs, hcs⟩, ?_, ?_⟩⟩
      · rw [hsplit, hsplit', List.append_assoc]
      · rw [hia', List.length_append, Nat.add_assoc]

theorem Sound.into {r : Reader τ} {L : Bytes → Prop} (hr : Sound r L) (get : σ → τ) (set : τ → σ → σ) :
    Sound (r.into get set) L := fun buf k v hlt hk => hr buf k (get v) hlt hk

/-- The first four bytes in front of a counted field, when there are as many. -/
private theorem counted_cases {buf : Bytes} {k : Nat} (hlt : buf.length < 2 ^ 31) (hk : k ≤ buf.length)
    (r : Reader σ) (hr : Sound r (fun bs => ∃ x, bs = be32 x)) (v : σ) :
    (r (archiveAt buf k) v).oob = false ∧
    ((r (archiveAt buf k) v).rc < 0 ∨ ∃ x rest, buf.drop k = be32 x ++ rest) := by
  obtain ⟨hoob, hrc | ⟨-, -, rest, ⟨x, rfl⟩, hsplit, -⟩⟩ := hr buf k v hlt hk
  · exact ⟨hoob, .inl hrc⟩
  · exact ⟨hoob, .inr ⟨x, rest, hsplit⟩⟩

/-- A count `x` with that many bytes behind it is the format of a byte string. -/
theorem counted_here {buf rest : Bytes} {k : Nat} {x : Int32} (hk : k ≤ buf.length)
    (hsplit : buf.drop k = be32 x ++ rest) (hpos : 0 ≤ x.toInt) (hle : x.toInt ≤ rest.length) :
    ∃ s rest', buf.drop k = wireString (some s) ++ rest' ∧ (archiveAt buf (k + 4)).covers x.toInt = true ∧
      (archiveAt buf (k + 4)).skip x.toInt = archiveAt buf (k + (wireString (some s)).length) := by
  have hlen := length_of_drop hk hsplit
  have hs : (rest.take x.toInt.toNat).length = x.toInt.toNat := by
    simp only [List.length_take]
    omega
  rw [length_be32] at hlen
  refine ⟨rest.take x.toInt.toNat, rest.drop x.toInt.toNat, ?_, ?_, ?_⟩
  · rw [wireString, hs, ofNat_toInt_toNat hpos, List.append_assoc, List.take_append_drop, hsplit]
  · have h := covers_at buf (k := k + 4) (n := x.toInt.toNat) (by omega)
    rwa [Int.toNat_of_nonneg hpos] at h
  · simp only [IArchive.skip, archiveAt, wireString, List.length_append, length_be32, hs]
    congr 1
    omega

/-- A string is read, or refused without assigning its pointer, or read but for the allocation. -/
theorem string_cases (H : Heap) (tag : String) (set : Option Bytes → σ → σ) {buf : Bytes} {k : Nat} (v : σ)
    (hlt : buf.length < 2 ^ 31) (hk : k ≤ buf.length) :
    (iaDeserializeString H tag set (archiveAt buf k) v).oob = false ∧
    ((∃ s rest, buf.drop k = wireString (some s) ++ rest) ∨
      (iaDeserializeString H tag set (archiveAt buf k) v).rc < 0 ∧
        (iaDeserializeString H tag set (archiveAt buf k) v).assigned = []) ∧
    ((iaDeserializeString H tag set (archiveAt buf k) v).rc < 0 ∨
      (iaDeserializeString H tag set (archiveAt buf k) v).rc = 0 ∧ ∃ s rest, buf.drop k = wireString (some s) ++ rest ∧
        (iaDeserializeString H tag set (archiveAt buf k) v).ia =
          archiveAt buf (k + (wireString (some s)).length)) := by
  obtain ⟨hoob, hrc | ⟨x, rest, hsplit⟩⟩ := counted_cases hlt hk
    (iaDeserializeInt (.len tag) fun n (_ : Int32) => n) (sound_int _ _) 0
  · simp [iaDeserializeString, hrc, hoob]
  · have hlen := length_of_drop hk hsplit
    have hfirst := reads_int x (.len tag) (fun n (_ : Int32) => n) buf k _ 0 hlt hk hsplit
    have hrest := drop_after hsplit
    rw [length_be32] at hlen hfirst hrest
    have hroom : (archiveAt buf (k + 4)).len - (archiveAt buf (k + 4)).off = rest.length := by
      simp only [archiveAt]
      omega
    by_cases hlong : (rest.length : Int) < x.toInt
    · simp [iaDeserializeString, hfirst, hroom, hlong]
    · by_cases hneg : x.toInt < 0
      · simp [iaDeserializeString, hfirst, hroom, hlong, hneg]
      · obtain ⟨s, rest', hwire, hcov, hend⟩ := counted_here hk hsplit (by omega) (by omega)
        by_cases hok : H.ok (.field (archiveAt buf (k + 4)).off) (x.toInt + 1)
        · refine ⟨by simp [iaDeserializeString, hfirst, hroom, hlong, hneg, hok, hcov], .inl ⟨_, _, hwire⟩,
            .inr ⟨by simp [iaDeserializeString, hfirst, hroom, hlong, hneg, hok], _, _, hwire, ?_⟩⟩
          simpa [iaDeserializeString, hfirst, hroom, hlong, hneg, hok] using hend
        · exact ⟨by simp [iaDeserializeString, hfirst, hroom, hlong, hneg, hok], .inl ⟨_, _, hwire⟩,
            .inl (by simp [iaDeserializeString, hfirst, hroom, hlong, hneg, hok])⟩

theorem sound_string (H : Heap) (tag : String) (set : Option Bytes → σ → σ) :
    Sound (iaDeserializeString H tag set) (fun bs => ∃ s, bs = wireString (some s)) := by
  intro buf k v hlt hk
  obtain ⟨hoob, -, hrc | ⟨hrc, s, rest, hsplit, hia⟩⟩ := string_cases H tag set v hlt hk
  · exact ⟨hoob, .inl hrc⟩
  · exact ⟨hoob, .inr ⟨hrc, _, rest, ⟨s, rfl⟩, hsplit, hia⟩⟩

theorem sound_buffer (H : Heap) (tag : String) {get : σ → Buffer} {set : Buffer → σ → σ}
    (hget : ∀ b v, get (set b v) = b) :
    Sound (iaDeserializeBuffer H tag get set) (fun bs => ∃ o, bs = wireString o) := by
  intro buf k v hlt hk
  obtain ⟨hoob, hrc | ⟨x, rest, hsplit⟩⟩ := counted_cases hlt hk
    (iaDeserializeInt (.len tag) fun n v => set { get v with len := n } v) (sound_int _ _) v
  · simp [iaDeserializeBuffer, hrc, hoob]
  · have hlen := length_of_drop hk hsplit
    have hfirst := reads_int x (.len tag) (fun n v => set { get v with len := n } v) buf k _ v hlt hk hsplit
    rw [length_be32] at hlen hfirst
    have hroom : (archiveAt buf (k + 4)).len - (archiveAt buf (k + 4)).off = rest.length := by
      simp only [archiveAt]
      omega
    by_cases hlong : (rest.length : Int) < x.toInt
    · simp [iaDeserializeBuffer, hfirst, hroom, hlong, hget]
    · by_cases hnull : x = -1
      · subst hnull
        have hm1 : ¬ (rest.length : Int) < -1 := hlong
        refine ⟨by simp [iaDeserializeBuffer, hfirst, hroom, hm1, hget], .inr ⟨?_, be32 (-1), rest, ⟨none, rfl⟩, hsplit, ?_⟩⟩
        · simp [iaDeserializeBuffer, hfirst, hroom, hm1, hget]
        · simp [iaDeserializeBuffer, hfirst, hroom, hm1, hget]
      · by_cases hok : H.ok (.field (archiveAt buf (k + 4)).off) x.toInt
        · have hpos : 0 ≤ x.toInt := by
            by_contra hneg
            rw [H.neg _ _ (by omega)] at hok
            exact absurd hok (by decide)
          obtain ⟨s, rest', hwire, hcov, hend⟩ := counted_here hk hsplit hpos (by omega)
          refine ⟨by simp [iaDeserializeBuffer, hfirst, hroom, hlong, hnull, hok, hget, hcov],
            .inr ⟨by simp [iaDeserializeBuffer, hfirst, hroom, hlong, hnull, hok, hget], _, rest', ⟨_, rfl⟩, hwire, ?_⟩⟩
          simpa [iaDeserializeBuffer, hfirst, hroom, hlong, hnull, hok, hget] using hend
        · simp [iaDeserializeBuffer, hfirst, hroom, hlong, hnull, hok, hget]

theorem sound_stat : Sound deserializeStat (fun bs => ∃ v : Stat, bs = v.wire) := by
  have hlong : ∀ (slot : Slot) (set : Int64 → Stat → Stat), Sound (iaDeserializeLong slot set) _ := sound_long
  have hint : ∀ (slot : Slot) (set : Int32 → Stat → Stat), Sound (iaDeserializeInt slot set) _ := sound_int
  refine ((hlong _ _).cons <| (hlong _ _).cons <| (hlong _ _).cons <| (hlong _ _).cons <| (hint _ _).cons <|
    (hint _ _).cons <| (hint _ _).cons <| (hlong _ _).cons <| (hint _ _).cons <| (hint _ _).cons <|
    (hlong _ _).cons .nil).mono ?_
  rintro _ ⟨_, _, rfl, ⟨czxid, rfl⟩, _, _, rfl, ⟨mzxid, rfl⟩, _, _, rfl, ⟨ctime, rfl⟩, _, _, rfl, ⟨mtime, rfl⟩,
    _, _, rfl, ⟨version, rfl⟩, _, _, rfl, ⟨cversion, rfl⟩, _, _, rfl, ⟨aversion, rfl⟩, _, _, rfl, ⟨owner, rfl⟩,
    _, _, rfl, ⟨dataLength, rfl⟩, _, _, rfl, ⟨numChildren, rfl⟩, _, _, rfl, ⟨pzxid, rfl⟩, rfl⟩
  exact ⟨⟨czxid, mzxid, ctime, mtime, version, cversion, aversion, owner, dataLength, numChildren, pzxid⟩, rfl⟩

theorem sound_replyHeader : Sound deserializeReplyHeader (fun bs => ∃ v : ReplyHeader, bs = v.wire) := by
  refine ((sound_int _ _).cons <| (sound_long _ _).cons <| (sound_int _ _).cons .nil).mono ?_
  rintro _ ⟨_, _, rfl, ⟨xid, rfl⟩, _, _, rfl, ⟨zxid, rfl⟩, _, _, rfl, ⟨err, rfl⟩, rfl⟩
  exact ⟨⟨xid, zxid, err⟩, rfl⟩

/-- Sixteen bytes are enough for a header. -/
theorem exists_replyHeader {payload : Bytes} (h : 16 ≤ payload.length) :
    ∃ header tail, payload = ReplyHeader.wire header ++ tail := by
  have hxid : (payload.take 4).length = 4 := by rw [List.length_take]; omega
  have hzxid : ((payload.drop 4).take 8).length = 8 := by rw [List.length_take, List.length_drop]; omega
  have herr : ((payload.drop 12).take 4).length = 4 := by rw [List.length_take, List.length_drop]; omega
  refine ⟨⟨ofBe32 (payload.take 4), ofBe64 ((payload.drop 4).take 8), ofBe32 ((payload.drop 12).take 4)⟩,
    payload.drop 16, ?_⟩
  have h12 : payload.drop 12 = (payload.drop 4).drop 8 := by rw [List.drop_drop]
  have h16 : payload.drop 16 = (payload.drop 12).drop 4 := by rw [List.drop_drop]
  simp only [ReplyHeader.wire, be32_ofBe32 hxid, be64_ofBe64 hzxid, be32_ofBe32 herr, List.flatten_cons,
    List.flatten_nil, List.append_nil, List.append_assoc]
  rw [h16, List.take_append_drop, h12, List.take_append_drop, List.take_append_drop]

end ZkClient
