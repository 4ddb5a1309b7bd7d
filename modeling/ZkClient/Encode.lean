import ZkClient.Jute
import Mathlib.Data.List.TakeWhile

/-!
# What the archives write

The byte format of the records (`Stat.wire`, `wireString`, …), stated apart from the code, and the fact that ties the
code to it: a writer appends the format of its argument to an output archive, across every growth of the block
(`Writes`).  Writers compose along the fields of a record.
-/

namespace ZkClient

open BigEndian

variable {σ τ : Type}

/-! ### Formats -/

def wireBool (i : Int32) : Bytes := [if i = 0 then 0 else 1]

def wireString : Option Bytes → Bytes
  | none => be32 (-1)
  | some s => be32 (Int32.ofNat s.length) ++ s

/-- The buffer that holds the given bytes; `none` is the null buffer. -/
def Buffer.of : Option Bytes → Buffer
  | none => { len := -1, buff := none }
  | some bs => { len := Int32.ofNat bs.length, buff := some bs }

def wireVector (elem : τ → Bytes) (xs : List τ) : Bytes := be32 (Int32.ofNat xs.length) ++ xs.flatMap elem

def Stat.wire (v : Stat) : Bytes :=
  [be64 v.czxid, be64 v.mzxid, be64 v.ctime, be64 v.mtime, be32 v.version, be32 v.cversion, be32 v.aversion,
    be64 v.ephemeralOwner, be32 v.dataLength, be32 v.numChildren, be64 v.pzxid].flatten

def ReplyHeader.wire (v : ReplyHeader) : Bytes := [be32 v.xid, be64 v.zxid, be32 v.err].flatten

def RequestHeader.wire (v : RequestHeader) : Bytes := [be32 v.xid, be32 v.type].flatten

/-! ### Writers -/

/-- `s` holds the bytes `w`: they are the first `off` bytes of its block, and the block is as long as `len` says. -/
structure OArchive.Holds (s : OArchive) (w : Bytes) : Prop where
  inside : s.oob = false
  off_eq : s.off = w.length
  len_eq : s.len = s.buffer.length
  off_le : s.off ≤ s.len
  big : 128 ≤ s.len
  small : s.len < 2 ^ 31
  bytes_eq : s.bytes = w

/-- `f` appends `bs` to the archive, as long as the total stays below `2^29` bytes. -/
def Writes (f : OArchive → Int × OArchive) (bs : Bytes) : Prop :=
  ∀ s w, s.Holds w → w.length + bs.length < 2 ^ 29 → ∃ s', f s = (0, s') ∧ s'.Holds (w ++ bs)

theorem createBufferOarchive_holds (H : Heap) : (createBufferOarchive H).Holds [] := by
  constructor <;> simp [createBufferOarchive, OArchive.bytes]

private theorem growLen_spec (fuel : Nat) (len newlen : Int) (hpos : 0 < len) (hlt : len < 2 ^ 31)
    (hnew : newlen < 2 ^ 30) (hfuel : newlen ≤ len * 2 ^ fuel) :
    newlen ≤ growLen fuel len newlen ∧ len ≤ growLen fuel len newlen ∧ growLen fuel len newlen < 2 ^ 31 := by
  induction fuel generalizing len with
  | zero =>
    simp only [growLen]
    refine ⟨by simpa using hfuel, Int.le_refl _, hlt⟩
  | succ fuel ih =>
    unfold growLen
    split
    · rename_i hshort
      have hwrap : wrap32 (len * 2) = len * 2 := by unfold wrap32; omega
      have hpow : len * 2 * 2 ^ fuel = len * 2 ^ (fuel + 1) := by ring
      rw [hwrap]
      obtain ⟨h1, h2, h3⟩ := ih (len * 2) (by omega) (by omega) (by rw [hpow]; exact hfuel)
      exact ⟨h1, by omega, h3⟩
    · exact ⟨by omega, Int.le_refl _, hlt⟩

/-- Growing keeps the bytes written so far and makes room up to `newlen`. -/
theorem resizeBuffer_holds {H : Heap} (hH : H.Succeeds) {s : OArchive} {w : Bytes} (hs : s.Holds w) (newlen : Int)
    (hnew : newlen < 2 ^ 30) (hle : s.len ≤ newlen) :
    ∃ s', resizeBuffer H s newlen = (0, s') ∧ s'.Holds w ∧ newlen ≤ s'.len := by
  have hbig := hs.big
  obtain ⟨h1, h2, h3⟩ := growLen_spec 32 s.len newlen (by omega) hs.small hnew (by omega)
  have hok := hH .grow (growLen 32 s.len newlen) (by omega)
  refine ⟨{ s with
    len := growLen 32 s.len newlen
    buffer := s.buffer ++
      (List.range ((growLen 32 s.len newlen).toNat - s.buffer.length)).map H.junk }, ?_, ?_, h1⟩
  · simp [resizeBuffer, hok]
  · have hlen := hs.len_eq
    have hoff := hs.off_le
    constructor
    · exact hs.inside
    · exact hs.off_eq
    · simp only [List.length_append, List.length_map, List.length_range]
      omega
    · show s.off ≤ growLen 32 s.len newlen
      omega
    · show 128 ≤ growLen 32 s.len newlen
      omega
    · exact h3
    · have := hs.bytes_eq
      simp only [OArchive.bytes] at this ⊢
      rw [List.take_append_of_le_length (by omega)]
      exact this

theorem OArchive.Holds.put {s : OArchive} {w : Bytes} (hs : s.Holds w) {bs : Bytes}
    (hroom : s.off + bs.length ≤ s.len) : (s.put bs).Holds (w ++ bs) := by
  have hlen := hs.len_eq
  have hoff := hs.off_eq
  have hin : 0 ≤ s.off ∧ s.off + bs.length ≤ s.buffer.length := by omega
  have hw : (s.buffer.take s.off.toNat) = w := hs.bytes_eq
  have hwl : s.off.toNat = w.length := by omega
  unfold OArchive.put
  rw [if_pos hin]
  constructor
  · exact hs.inside
  · show s.off + bs.length = _
    simp [hoff]
  · show s.len = _
    simp only [List.length_append, List.length_take, List.length_drop]
    omega
  · exact hroom
  · exact hs.big
  · exact hs.small
  · show List.take (s.off + bs.length).toNat _ = w ++ bs
    rw [hw, show (s.off + bs.length).toNat = (w ++ bs).length by simp; omega, List.take_left' rfl]

theorem writes_oaWrite {H : Heap} (hH : H.Succeeds) {bs : Bytes} (short : OArchive → Bool)
    (hshort : ∀ s w, s.Holds w → w.length + bs.length < 2 ^ 29 → (short s = true ↔ s.len - s.off < bs.length)) :
    Writes (fun s => oaWrite H (short s) bs s) bs := by
  intro s w hs hlt
  have hsh := hshort s w hs hlt
  have hoff := hs.off_eq
  have hle := hs.off_le
  by_cases h : s.len - s.off < bs.length
  · have hwrap : wrap32 (s.len + bs.length) = s.len + bs.length := by
      have := hs.big
      unfold wrap32
      omega
    obtain ⟨s', hr, hs', hroom⟩ := resizeBuffer_holds hH hs (s.len + bs.length) (by omega) (by omega)
    refine ⟨s'.put bs, ?_, hs'.put (by have := hs'.off_eq; omega)⟩
    simp [oaWrite, hsh.2 h, hwrap, hr]
  · have hnot : short s = false := by simpa using mt hsh.1 h
    refine ⟨s.put bs, ?_, hs.put (by omega)⟩
    simp [oaWrite, hnot]

private theorem sizeT_room {s : OArchive} {w : Bytes} (hs : s.Holds w) : sizeT (s.len - s.off) = s.len - s.off := by
  have h1 := hs.off_le
  have h2 := hs.off_eq
  have h3 := hs.small
  unfold sizeT
  omega

theorem writes_int {H : Heap} (hH : H.Succeeds) (d : Int32) : Writes (oaSerializeInt H d) (be32 d) :=
  writes_oaWrite hH (fun s => decide (sizeT (s.len - s.off) < 4)) fun s w hs _ => by
    simp [sizeT_room hs]

theorem writes_long {H : Heap} (hH : H.Succeeds) (d : Int64) : Writes (oaSerializeLong H d) (be64 d) :=
  writes_oaWrite hH (fun s => decide (sizeT (s.len - s.off) < 8)) fun s w hs _ => by
    simp [sizeT_room hs]

theorem writes_bool {H : Heap} (hH : H.Succeeds) (i : Int32) : Writes (oaSerializeBool H i) (wireBool i) :=
  writes_oaWrite hH (fun s => decide (s.len - s.off < 1)) fun s w _ _ => by simp

theorem Writes.nil : Writes (writeRecord []) [] := fun s w hs _ => ⟨s, rfl, by simpa using hs⟩

/-- One more field in front of a record. -/
theorem Writes.cons {f : OArchive → Int × OArchive} {fs : List (OArchive → Int × OArchive)} {bs cs : Bytes}
    (hf : Writes f bs) (hfs : Writes (writeRecord fs) cs) : Writes (writeRecord (f :: fs)) (bs ++ cs) := by
  intro s w hs hlt
  rw [List.length_append] at hlt
  obtain ⟨s₁, e₁, h₁⟩ := hf s w hs (by omega)
  obtain ⟨s₂, e₂, h₂⟩ := hfs s₁ (w ++ bs) h₁ (by rw [List.length_append]; omega)
  refine ⟨s₂, by simp [writeRecord, e₁, e₂], ?_⟩
  rwa [List.append_assoc] at h₂

private theorem writes_counted {H : Heap} (hH : H.Succeeds) (bs : Bytes) {f : OArchive → Int × OArchive}
    (hf : ∀ s, f s = let (rc, s) := oaSerializeInt H (Int32.ofNat bs.length) s
      if rc < 0 then (rc, s) else oaWrite H (s.len - s.off < (Int32.ofNat bs.length).toInt) bs s) :
    Writes f (be32 (Int32.ofNat bs.length) ++ bs) := by
  intro s w hs hlt
  rw [List.length_append, length_be32] at hlt
  have hlen : (Int32.ofNat bs.length).toInt = bs.length := Int32.toInt_ofNat_of_lt (by omega)
  obtain ⟨s₁, e₁, h₁⟩ := writes_int hH (Int32.ofNat bs.length) s w hs (by rw [length_be32]; omega)
  have hshort : Writes (fun s => oaWrite H (s.len - s.off < (Int32.ofNat bs.length).toInt) bs s) bs :=
    writes_oaWrite hH (fun s => decide (s.len - s.off < (Int32.ofNat bs.length).toInt)) fun s w _ _ => by simp [hlen]
  obtain ⟨s₂, e₂, h₂⟩ := hshort s₁ _ h₁ (by rw [List.length_append, length_be32]; omega)
  refine ⟨s₂, ?_, by rwa [List.append_assoc] at h₂⟩
  rw [hf, e₁]
  simpa using e₂

theorem strlen_of_nul_free {s : Bytes} (h : 0 ∉ s) : strlen s = s.length := congrArg List.length (cstring_eq_self h)

theorem writes_string {H : Heap} (hH : H.Succeeds) {s : Bytes} (h : 0 ∉ s) :
    Writes (oaSerializeString H (some s)) (wireString (some s)) := by
  apply writes_counted hH s
  intro a
  simp only [oaSerializeString, strlen_of_nul_free h, List.take_length]

/-- A buffer whose block holds its length's bytes `bs`. -/
theorem writes_buffer {H : Heap} (hH : H.Succeeds) {b : Buffer} {bs : Bytes} (hlen : b.len = Int32.ofNat bs.length)
    (hread : memRead b.buff bs.length = some bs) : Writes (oaSerializeBuffer H b) (wireString (some bs)) := by
  intro s w hs hlt
  have hsmall : bs.length < 2 ^ 31 := by
    simp only [wireString, List.length_append] at hlt
    omega
  have hint : (Int32.ofNat bs.length).toInt = bs.length := Int32.toInt_ofNat_of_lt hsmall
  have hne : b.len ≠ -1 := by
    intro h
    have h1 : b.len.toInt = -1 := by rw [h]; rfl
    rw [hlen, hint] at h1
    omega
  rw [hlen] at hne
  refine writes_counted hH bs (fun a => ?_) s w hs hlt
  simp only [oaSerializeBuffer, hne, if_false, hlen, hint, hread]

theorem writes_nullBuffer {H : Heap} (hH : H.Succeeds) {b : Buffer} (hlen : b.len = -1) :
    Writes (oaSerializeBuffer H b) (wireString none) := by
  intro s w hs hlt
  obtain ⟨s', e, h⟩ := writes_int hH (-1) s w hs hlt
  exact ⟨s', by simp [oaSerializeBuffer, hlen, e], h⟩

/-- A count that is not negative is the length of what it counts. -/
theorem ofNat_toInt_toNat {x : Int32} (h : 0 ≤ x.toInt) : Int32.ofNat x.toInt.toNat = x := by
  apply Int32.toInt_inj.1
  have := x.toInt_lt
  rw [Int32.toInt_ofNat_of_lt (by omega)]
  omega

theorem memRead_all (bs : Bytes) : memRead (some bs) bs.length = some bs := by
  unfold memRead
  split
  · rename_i h
    have : bs = [] := List.length_eq_zero_iff.1 (by omega)
    simp [this]
  · simp

theorem writes_bufferOf {H : Heap} (hH : H.Succeeds) (o : Option Bytes) :
    Writes (oaSerializeBuffer H (.of o)) (wireString o) := by
  cases o with
  | none => exact writes_nullBuffer hH rfl
  | some bs => exact writes_buffer hH rfl (memRead_all bs)

private theorem range_getD {α : Type} (xs : List α) (d : α) :
    (List.range xs.length).map (fun i => (xs[i]?).getD d) = xs := by
  apply List.ext_getElem
  · simp
  · intro i h1 h2
    simp [List.getElem?_eq_getElem h2]

private theorem writes_elems {f : τ → OArchive → Int × OArchive} {elem : τ → Bytes} (xs : List τ)
    (h : ∀ x ∈ xs, Writes (f x) (elem x)) : Writes (writeRecord (xs.map f)) (xs.flatMap elem) := by
  induction xs with
  | nil => exact .nil
  | cons x xs ih =>
    rw [List.map_cons, List.flatMap_cons]
    exact (h x (by simp)).cons (ih fun y hy => h y (by simp [hy]))

theorem writes_vector {H : Heap} (hH : H.Succeeds) {f : τ → OArchive → Int × OArchive} {elem : τ → Bytes}
    (xs : List τ) (hxs : xs.length < 2 ^ 31) (h : ∀ x ∈ xs, Writes (f x) (elem x)) :
    Writes (serializeVector H (Int32.ofNat xs.length) (xs.map f)) (wireVector elem xs) := by
  have hint : (Int32.ofNat xs.length).toInt.toNat = (xs.map f).length := by
    rw [Int32.toInt_ofNat_of_lt hxs]
    simp
  have hmap := range_getD (xs.map f) fun s => (0, { s with oob := true })
  simp only [serializeVector, wireVector]
  rw [hint, hmap]
  exact (writes_int hH _).cons (writes_elems xs h)

theorem writes_requestHeader {H : Heap} (hH : H.Succeeds) (v : RequestHeader) :
    Writes (serializeRequestHeader H v) v.wire :=
  (writes_int hH _).cons <| (writes_int hH _).cons .nil

/-! ### Writers of any size

Past `2^29` bytes the doubling of the block may overflow, and a writer may fail or leave its block.  One that does not
has still written its format.
-/

/-- The offset lies in the block. -/
def OArchive.Inside (s : OArchive) : Prop := 0 ≤ s.off ∧ s.off ≤ s.buffer.length

/-- When `f` succeeds without leaving the block, it has appended `bs`. -/
def Appends (f : OArchive → Int × OArchive) (bs : Bytes) : Prop :=
  ∀ s s', f s = (0, s') → s'.oob = false → s.oob = false ∧ (s.Inside → s'.Inside ∧ s'.bytes = s.bytes ++ bs)

private theorem append_put {s : OArchive} {bs : Bytes} (hin : (s.put bs).oob = false) :
    s.oob = false ∧ (s.Inside → (s.put bs).Inside ∧ (s.put bs).bytes = s.bytes ++ bs) := by
  unfold OArchive.put at hin ⊢
  split at hin
  · rename_i hfit
    rw [if_pos hfit]
    refine ⟨hin, fun hs => ?_⟩
    have hlen : (s.buffer.take s.off.toNat).length = s.off.toNat := by
      rw [List.length_take]
      omega
    refine ⟨⟨by simp only; omega, ?_⟩, ?_⟩
    · simp only [List.length_append, List.length_drop, hlen]
      omega
    · have hnat : (s.off + bs.length).toNat = (s.buffer.take s.off.toNat ++ bs).length := by
        rw [List.length_append, hlen]
        omega
      simp only [OArchive.bytes]
      rw [hnat, List.take_left']
      rfl
  · exact absurd hin (by simp)

private theorem oaWrite_rc (H : Heap) (short : Bool) (bs : Bytes) (s : OArchive) : (oaWrite H short bs s).1 ≤ 0 := by
  cases short with
  | false => simp [oaWrite]
  | true => by_cases hok : H.ok .grow (growLen 32 s.len (wrap32 (s.len + bs.length))) <;>
    simp [oaWrite, resizeBuffer, hok]

theorem appends_oaWrite (H : Heap) (short : OArchive → Bool) (bs : Bytes) :
    Appends (fun s => oaWrite H (short s) bs s) bs := by
  intro s s' h hin
  cases hshort : short s with
  | false =>
    simp only [oaWrite, hshort, Bool.false_eq_true, if_false, Prod.mk.injEq, true_and] at h
    subst h
    exact append_put hin
  | true =>
    by_cases hok : H.ok .grow (growLen 32 s.len (wrap32 (s.len + bs.length)))
    · simp only [oaWrite, resizeBuffer, hshort, if_true, hok, lt_irrefl, if_false, Prod.mk.injEq, true_and] at h
      subst h
      obtain ⟨hin₀, happ⟩ := append_put hin
      refine ⟨hin₀, fun ⟨hpos, hle⟩ => ?_⟩
      have hgrown := happ ⟨hpos, by simp only [List.length_append]; omega⟩
      refine ⟨hgrown.1, hgrown.2.trans ?_⟩
      simp only [OArchive.bytes]
      rw [List.take_append_of_le_length (by omega)]
    · simp [oaWrite, resizeBuffer, hshort, hok] at h

theorem appends_int (H : Heap) (d : Int32) : Appends (oaSerializeInt H d) (be32 d) :=
  appends_oaWrite H (fun s => decide (sizeT (s.len - s.off) < 4)) _

theorem appends_long (H : Heap) (d : Int64) : Appends (oaSerializeLong H d) (be64 d) :=
  appends_oaWrite H (fun s => decide (sizeT (s.len - s.off) < 8)) _

theorem Appends.nil : Appends (writeRecord []) [] := by
  intro s s' h hin
  simp only [writeRecord, Prod.mk.injEq, true_and] at h
  subst h
  exact ⟨hin, fun hs => ⟨hs, by simp⟩⟩

/-- One writer after another. -/
private theorem Appends.andThen {f g h : OArchive → Int × OArchive} {bs cs : Bytes} (hf : Appends f bs)
    (hg : Appends g cs) (hfg : ∀ s s', h s = (0, s') → ∃ s₁, f s = (0, s₁) ∧ g s₁ = (0, s')) :
    Appends h (bs ++ cs) := by
  intro s s' hs hin
  obtain ⟨s₁, e₁, e₂⟩ := hfg s s' hs
  obtain ⟨hin₁, h₂⟩ := hg s₁ s' e₂ hin
  obtain ⟨hin₀, h₁⟩ := hf s s₁ e₁ hin₁
  refine ⟨hin₀, fun hs => ?_⟩
  obtain ⟨hs₁, hbytes₁⟩ := h₁ hs
  obtain ⟨hs₂, hbytes₂⟩ := h₂ hs₁
  exact ⟨hs₂, by rw [hbytes₂, hbytes₁, List.append_assoc]⟩

/-- One more field in front of a record. -/
theorem Appends.cons {f : OArchive → Int × OArchive} {fs : List (OArchive → Int × OArchive)} {bs cs : Bytes}
    (hf : Appends f bs) (hfs : Appends (writeRecord fs) cs) : Appends (writeRecord (f :: fs)) (bs ++ cs) := by
  refine hf.andThen hfs fun s s' h => ?_
  simp only [writeRecord] at h
  split at h
  · rename_i hrc
    rw [Prod.mk.injEq] at h
    exact absurd h.1 hrc
  · rename_i hrc
    exact ⟨(f s).2, Prod.ext (not_not.1 hrc) rfl, h⟩

private theorem appends_counted (H : Heap) (n : Int32) (short : OArchive → Bool) {bs : Bytes}
    {f : OArchive → Int × OArchive} (hf : ∀ s, f s = let (rc, s) := oaSerializeInt H n s
      if rc < 0 then (rc, s) else oaWrite H (short s) bs s) : Appends f (be32 n ++ bs) := by
  refine (appends_int H n).andThen (appends_oaWrite H short bs) fun s s' h => ?_
  rw [hf] at h
  simp only at h
  split at h
  · rename_i hrc
    rw [Prod.mk.injEq] at h
    omega
  · rename_i hrc
    have hle : (oaSerializeInt H n s).1 ≤ 0 := oaWrite_rc ..
    exact ⟨(oaSerializeInt H n s).2, Prod.ext (by omega) rfl, h⟩

theorem appends_string (H : Heap) {s : Bytes} (h : 0 ∉ s) :
    Appends (oaSerializeString H (some s)) (wireString (some s)) := by
  refine appends_counted H (Int32.ofNat s.length)
    (fun a => decide (a.len - a.off < (Int32.ofNat s.length).toInt)) fun a => ?_
  simp only [oaSerializeString, strlen_of_nul_free h, List.take_length]

/-- A buffer whose block holds its length's bytes `bs`. -/
theorem appends_buffer (H : Heap) {b : Buffer} {bs : Bytes} (hlen : b.len = Int32.ofNat bs.length)
    (hlt : bs.length < 2 ^ 31) (hread : memRead b.buff bs.length = some bs) :
    Appends (oaSerializeBuffer H b) (wireString (some bs)) := by
  have hint : (Int32.ofNat bs.length).toInt = bs.length := Int32.toInt_ofNat_of_lt hlt
  have hne : Int32.ofNat bs.length ≠ -1 := by
    intro hm
    have hm1 : (Int32.ofNat bs.length).toInt = -1 := by rw [hm]; rfl
    omega
  refine appends_counted H (Int32.ofNat bs.length)
    (fun a => decide (a.len - a.off < (Int32.ofNat bs.length).toInt)) fun a => ?_
  simp only [oaSerializeBuffer, hlen, hne, if_false, hint, hread]

theorem appends_nullBuffer (H : Heap) {b : Buffer} (hlen : b.len = -1) :
    Appends (oaSerializeBuffer H b) (wireString none) := by
  intro s s' h hin
  refine appends_int H (-1) s s' ?_ hin
  simpa [oaSerializeBuffer, hlen] using h

theorem appends_bufferOf (H : Heap) {o : Option Bytes} (ho : ∀ bs, o = some bs → bs.length < 2 ^ 31) :
    Appends (oaSerializeBuffer H (.of o)) (wireString o) := by
  cases o with
  | none => exact appends_nullBuffer H rfl
  | some bs => exact appends_buffer H rfl (ho bs rfl) (memRead_all bs)

private theorem appends_elems {f : τ → OArchive → Int × OArchive} {elem : τ → Bytes} (xs : List τ)
    (h : ∀ x ∈ xs, Appends (f x) (elem x)) : Appends (writeRecord (xs.map f)) (xs.flatMap elem) := by
  induction xs with
  | nil => exact .nil
  | cons x xs ih =>
    rw [List.map_cons, List.flatMap_cons]
    exact (h x (by simp)).cons (ih fun y hy => h y (by simp [hy]))

theorem appends_vector (H : Heap) {f : τ → OArchive → Int × OArchive} {elem : τ → Bytes} (xs : List τ)
    (hxs : xs.length < 2 ^ 31) (h : ∀ x ∈ xs, Appends (f x) (elem x)) :
    Appends (serializeVector H (Int32.ofNat xs.length) (xs.map f)) (wireVector elem xs) := by
  have hint : (Int32.ofNat xs.length).toInt.toNat = (xs.map f).length := by
    rw [Int32.toInt_ofNat_of_lt hxs]
    simp
  have hmap := range_getD (xs.map f) fun s => (0, { s with oob := true })
  simp only [serializeVector, wireVector]
  rw [hint, hmap]
  exact (appends_int H _).cons (appends_elems xs h)

theorem appends_stat (H : Heap) (v : Stat) : Appends (serializeStat H v) v.wire :=
  (appends_long H _).cons <| (appends_long H _).cons <| (appends_long H _).cons <| (appends_long H _).cons <|
    (appends_int H _).cons <| (appends_int H _).cons <| (appends_int H _).cons <| (appends_long H _).cons <|
    (appends_int H _).cons <| (appends_int H _).cons <| (appends_long H _).cons .nil

theorem appends_replyHeader (H : Heap) (v : ReplyHeader) : Appends (serializeReplyHeader H v) v.wire :=
  (appends_int H _).cons <| (appends_long H _).cons <| (appends_int H _).cons .nil

/-! ### Return codes -/

/-- The writer answers 0, or `-ENOMEM` when the block could not grow. -/
def Coded (f : OArchive → Int × OArchive) : Prop := ∀ s, (f s).1 = 0 ∨ (f s).1 = -enomem

private theorem coded_oaWrite (H : Heap) (short : OArchive → Bool) (bs : Bytes) :
    Coded fun s => oaWrite H (short s) bs s := by
  intro s
  cases hshort : short s with
  | false => simp [oaWrite, hshort]
  | true =>
    by_cases hok : H.ok .grow (growLen 32 s.len (wrap32 (s.len + bs.length)))
    · simp [oaWrite, hshort, resizeBuffer, hok]
    · simp [oaWrite, hshort, resizeBuffer, hok]

theorem coded_int (H : Heap) (d : Int32) : Coded (oaSerializeInt H d) := coded_oaWrite H _ _

theorem coded_bool (H : Heap) (i : Int32) : Coded (oaSerializeBool H i) := coded_oaWrite H (fun _ => decide _) _

theorem coded_string (H : Heap) (str : Option Bytes) : Coded (oaSerializeString H str) := by
  intro s
  cases str with
  | none => exact .inl rfl
  | some str =>
    unfold oaSerializeString
    dsimp only
    split
    · exact coded_int H _ s
    · exact coded_oaWrite H (fun s => decide _) _ _

theorem coded_buffer (H : Heap) (b : Buffer) : Coded (oaSerializeBuffer H b) := by
  intro s
  have hint := coded_int H b.len s
  unfold oaSerializeBuffer
  dsimp only
  split
  · exact hint
  · split
    · exact hint
    · split
      · exact .inl rfl
      · exact coded_oaWrite H (fun s => decide _) _ _

theorem coded_record {fs : List (OArchive → Int × OArchive)} (h : ∀ f ∈ fs, Coded f) : Coded (writeRecord fs) := by
  induction fs with
  | nil => exact fun _ => .inl rfl
  | cons f fs ih =>
    intro s
    unfold writeRecord
    dsimp only
    split
    · exact h f List.mem_cons_self s
    · exact ih (fun g hg => h g (List.mem_cons_of_mem f hg)) _

theorem coded_vector {H : Heap} (count : Int32) {data : List (OArchive → Int × OArchive)} (h : ∀ f ∈ data, Coded f) :
    Coded (serializeVector H count data) := by
  refine coded_record fun f hf => ?_
  rcases List.mem_cons.1 hf with rfl | hf
  · exact coded_int H count
  · obtain ⟨i, -, rfl⟩ := List.mem_map.1 hf
    cases hi : data[i]? with
    | none => exact fun _ => .inl rfl
    | some f => exact h f (List.mem_of_getElem? hi)

theorem coded_requestHeader (H : Heap) (v : RequestHeader) : Coded (serializeRequestHeader H v) := by
  refine coded_record ?_
  simp [coded_int]

theorem coded_acl (H : Heap) (v : Acl) : Coded (serializeAcl H v) := by
  have hid : Coded (serializeId H v.id) := coded_record (by simp [coded_string])
  exact coded_record (by simp [coded_int, hid])

end ZkClient
