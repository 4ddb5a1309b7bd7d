import Mathlib.Data.List.Nodup
import ZkClient.Decode

/-!
# Records by their layout

`zookeeper.jute.c` is generated code: `serialize_X`, `deserialize_X` and `deallocate_X` go through the fields of `X` one
after another, and a field is a number, a block, a vector or another record.  A `Layout` says what the fields are, and
`Layout.serialize`, `Layout.deserialize` and `Layout.deallocate` are the three functions for any layout.

`Layout.Form` is the format, as a relation between bytes and values.  A writer writes a form of its value
(`Layout.writes`), a reader in front of a form stores the value (`Layout.reads`), and the reader of a layout without
vectors refuses everything else (`Layout.exact`).
-/

namespace ZkClient

open BigEndian

/-- The type of a field, or the fields of a record from one on. -/
inductive Layout where
  | int
  | long
  | bool
  | buffer
  | string
  | vector (elem : Layout)
  | done
  | field (tag : String) (head tail : Layout)
  deriving DecidableEq, Repr

namespace Layout

/-- A variable of the type; a vector is its `count` and its `data`. -/
@[reducible] def Value : Layout → Type
  | int => Int32
  | long => Int64
  | bool => Int32
  | buffer => Buffer
  | string => Option Bytes
  | vector elem => Int32 × Option (List elem.Value)
  | done => Unit
  | field _ head tail => head.Value × tail.Value

/-- What `calloc` leaves in the variable. -/
def zero : (l : Layout) → l.Value
  | int => (0 : Int32)
  | long => (0 : Int64)
  | bool => (0 : Int32)
  | buffer => ({ len := 0, buff := none } : Buffer)
  | string => none
  | vector _ => (0, none)
  | done => ()
  | field _ head tail => (head.zero, tail.zero)

def align : Layout → Nat
  | int | bool => 4
  | long | buffer | string | vector _ => 8
  | done => 1
  | field _ head tail => max head.align tail.align

/-- The first multiple of `a` from `n` on. -/
def roundUp (n a : Nat) : Nat := (n + a - 1) / a * a

/-- The offset behind the type when it is placed at the first aligned offset from `off` on. -/
def extent : Layout → Nat → Nat
  | int, off | bool, off => roundUp off 4 + 4
  | long, off | string, off => roundUp off 8 + 8
  | buffer, off | vector _, off => roundUp off 8 + 16
  | done, off => off
  | field _ head tail, off => tail.extent (roundUp (head.extent (roundUp off head.align)) head.align)

/-- `sizeof`. -/
def sizeof (l : Layout) : Nat := roundUp (l.extent 0) l.align

section Functions

variable (H : Heap)

/-- `serialize_X`. -/
def serialize : (l : Layout) → l.Value → OArchive → Int × OArchive
  | int, v => oaSerializeInt H v
  | long, v => oaSerializeLong H v
  | bool, v => oaSerializeBool H v
  | buffer, v => oaSerializeBuffer H v
  | string, v => oaSerializeString H v
  | vector elem, (count, data) => serializeVector H count ((data.getD []).map elem.serialize)
  | done, () => writeRecord []
  | field _ head tail, (x, y) => writeRecord [head.serialize x, tail.serialize y]

/-- `deserialize_X`, for a field with the given tag. -/
def deserialize (tag : String) : (l : Layout) → Reader l.Value
  | int => iaDeserializeInt (.field tag) fun x _ => x
  | long => iaDeserializeLong (.field tag) fun x _ => x
  | bool => iaDeserializeBool (.field tag) fun x _ => x
  | buffer => iaDeserializeBuffer H tag id fun x _ => x
  | string => iaDeserializeString H tag fun x _ => x
  | vector elem =>
    deserializeVector H tag elem.sizeof (elem.deserialize "value") elem.zero Prod.fst (fun n v => (n, v.2))
      fun xs v => (v.1, xs)
  | done => readRecord []
  | field tag head tail =>
    readRecord [(head.deserialize tag).into Prod.fst fun x v => (x, v.2),
      (tail.deserialize tag).into Prod.snd fun y v => (v.1, y)]

end Functions

/-! ### The format -/

/-- A list of forms of the given values, one after the other. -/
def Forms {τ : Type} (form : Bytes → τ → Prop) : Bytes → List τ → Prop
  | bs, [] => bs = []
  | bs, x :: xs => ∃ b c, bs = b ++ c ∧ form b x ∧ Forms form c xs

/-- `bs` stands for the value.  A string may have any bytes, and a `bool` is a byte of any value. -/
def Form : (l : Layout) → Bytes → l.Value → Prop
  | int, bs, v => bs = be32 v
  | long, bs, v => bs = be64 v
  | bool, bs, v => ∃ b, bs = [b] ∧ v = b.toInt8.toInt32
  | buffer, bs, v => ∃ o, bs = wireString o ∧ v = .of o
  | string, bs, v => ∃ s, bs = wireString (some s) ∧ v = some s
  | vector elem, bs, v =>
    ∃ xs cs, v = (Int32.ofNat xs.length, some xs) ∧ xs.length < 2 ^ 31 ∧ bs = be32 (Int32.ofNat xs.length) ++ cs ∧
      Forms elem.Form cs xs
  | done, bs, _ => bs = []
  | field _ head tail, bs, (x, y) => ∃ b c, bs = b ++ c ∧ head.Form b x ∧ tail.Form c y

/-- What a writer turns the value into. -/
def wire : (l : Layout) → l.Value → Bytes
  | int, v => be32 v
  | long, v => be64 v
  | bool, v => wireBool v
  | buffer, v => wireString v.buff
  | string, v => wireString v
  | vector elem, (_, data) => wireVector elem.wire (data.getD [])
  | done, () => []
  | field _ head tail, (x, y) => head.wire x ++ tail.wire y

/-- The values that have a format: a `bool` is 0 or 1, strings are C strings and not null, and a block or a vector has
as many elements as it says. -/
def Valid : (l : Layout) → l.Value → Prop
  | int, _ => True
  | long, _ => True
  | bool, v => v = 0 ∨ v = 1
  | buffer, v => v = .of v.buff
  | string, v => ∃ s, v = some s ∧ 0 ∉ s
  | vector elem, v =>
    ∃ xs, v = (Int32.ofNat xs.length, some xs) ∧ xs.length < 2 ^ 31 ∧ ∀ x ∈ xs, elem.Valid x
  | done, _ => True
  | field _ head tail, (x, y) => head.Valid x ∧ tail.Valid y

/-! ### Round trip -/

variable {H : Heap}

/-- A writer writes the format of its value. -/
theorem writes (hH : H.Succeeds) (l : Layout) {v : l.Value} (hv : l.Valid v) : Writes (l.serialize H v) (l.wire v) := by
  induction l with
  | int => exact writes_int hH v
  | long => exact writes_long hH v
  | bool => exact writes_bool hH v
  | buffer =>
    have h := writes_bufferOf hH v.buff
    rwa [← show v = .of v.buff from hv] at h
  | string =>
    obtain ⟨s, rfl, hs⟩ := hv
    exact writes_string hH hs
  | vector elem ih =>
    obtain ⟨xs, rfl, hlt, hxs⟩ := hv
    exact writes_vector hH xs hlt fun x hx => ih (hxs x hx)
  | done => exact .nil
  | field tag head tail ihead itail =>
    have h := (ihead hv.1).cons <| (itail hv.2).cons .nil
    rwa [List.append_nil] at h

private theorem forms_flatMap {τ : Type} {form : Bytes → τ → Prop} {W : τ → Bytes} {xs : List τ}
    (h : ∀ x ∈ xs, form (W x) x) : Forms form (xs.flatMap W) xs := by
  induction xs with
  | nil => rfl
  | cons x xs ih => exact ⟨W x, _, rfl, h x (by simp), ih fun y hy => h y (by simp [hy])⟩

/-- The format of a value stands for the value. -/
theorem form_wire (l : Layout) {v : l.Value} (hv : l.Valid v) : l.Form (l.wire v) v := by
  induction l with
  | int => rfl
  | long => rfl
  | bool =>
    rcases hv with rfl | rfl
    · exact ⟨0, rfl, rfl⟩
    · exact ⟨1, rfl, rfl⟩
  | buffer => exact ⟨v.buff, rfl, hv⟩
  | string =>
    obtain ⟨s, rfl, -⟩ := hv
    exact ⟨s, rfl, rfl⟩
  | vector elem ih =>
    obtain ⟨xs, rfl, hlt, hxs⟩ := hv
    exact ⟨xs, _, rfl, hlt, rfl, forms_flatMap fun x hx => ih (hxs x hx)⟩
  | done => rfl
  | field tag head tail ihead itail => exact ⟨_, _, rfl, ihead hv.1, itail hv.2⟩

theorem reads_byte {σ : Type} (b : UInt8) (slot : Slot) (set : Int32 → σ → σ) :
    Reads (iaDeserializeBool slot set) [b] (set b.toInt8.toInt32) [slot] := by
  intro buf k rest v hlt hk h
  have hlen := length_of_drop hk h
  rw [List.length_singleton] at hlen
  have hroom : ¬ (archiveAt buf k).len - (archiveAt buf k).off < 1 := by
    simp only [archiveAt]
    omega
  have hcov : (archiveAt buf k).covers 1 = true := covers_at _ (n := 1) (by omega)
  have hfetch : (archiveAt buf k).fetch 1 = [b] := fetch_at h
  have hskip : (archiveAt buf k).skip 1 = archiveAt buf (k + 1) := skip_at buf k 1
  simp only [iaDeserializeBool, if_neg hroom, hfetch, hskip, hcov, List.headD_cons, List.length_singleton, Bool.not_true]

private theorem readElems_forms {τ : Type} {elem : Reader τ} (zero : τ) {form : Bytes → τ → Prop}
    (helem : ∀ b x, form b x → ∃ slots, Reads elem b (fun _ => x) slots) {xs : List τ} {cs buf rest : Bytes} {k : Nat}
    (hforms : Forms form cs xs) (hlt : buf.length < 2 ^ 31) (hk : k ≤ buf.length) (h : buf.drop k = cs ++ rest) :
    readElems elem zero xs.length 0 (archiveAt buf k) = (0, archiveAt buf (k + cs.length), xs, false) := by
  induction xs generalizing k cs with
  | nil =>
    obtain rfl : cs = [] := hforms
    simp [readElems]
  | cons x xs ih =>
    obtain ⟨b, c, rfl, hb, hc⟩ := hforms
    rw [List.append_assoc] at h
    have hlen := length_of_drop hk h
    obtain ⟨slots, hx⟩ := helem b x hb
    have h1 := hx buf k _ zero hlt hk h
    have h2 := ih hc (k := k + b.length) (by omega) (drop_after h)
    simp [readElems, h1, h2, Nat.add_assoc]

/-- In front of a form a reader stores the value that the form stands for, and passes the form. -/
theorem reads (hH : H.Succeeds) (l : Layout) {bs : Bytes} {v : l.Value} (hv : l.Form bs v) (tag : String) :
    ∃ slots, Reads (l.deserialize H tag) bs (fun _ => v) slots := by
  induction l generalizing bs tag with
  | int =>
    obtain rfl : bs = be32 v := hv
    exact ⟨_, reads_int v _ _⟩
  | long =>
    obtain rfl : bs = be64 v := hv
    exact ⟨_, reads_long v _ _⟩
  | bool =>
    obtain ⟨b, rfl, rfl⟩ := hv
    exact ⟨_, reads_byte b _ _⟩
  | buffer =>
    obtain ⟨o, rfl, rfl⟩ := hv
    exact ⟨_, reads_buffer hH tag id (fun x _ => x) (fun _ _ => rfl) (fun _ _ _ => rfl) o⟩
  | string =>
    obtain ⟨s, rfl, rfl⟩ := hv
    exact ⟨_, reads_string hH tag _ s⟩
  | vector elem ih =>
    obtain ⟨xs, cs, rfl, hxs, rfl, hforms⟩ := hv
    refine ⟨[.len tag, .buff tag], fun buf k rest v hlt hk h => ?_⟩
    rw [List.append_assoc] at h
    have hlen := length_of_drop hk h
    have hint : (Int32.ofNat xs.length).toInt = xs.length := Int32.toInt_ofNat_of_lt hxs
    have hfirst := reads_int (Int32.ofNat xs.length) (.len tag) (fun n (v : Int32 × _) => (n, v.2)) buf k _ v hlt hk h
    have hrest := drop_after h
    rw [length_be32] at hrest hfirst hlen
    have helems := readElems_forms elem.zero (fun b x hb => ih hb "value") hforms hlt (k := k + 4) (by omega) hrest
    have hok : H.ok (.field (archiveAt buf (k + 4)).off) ((xs.length : Int) * elem.sizeof) = true :=
      hH _ _ (Int.mul_nonneg (by omega) (by omega))
    simp only [deserialize, deserializeVector, hfirst, hint, Int.toNat_natCast, helems, hok, if_true]
    simp [Nat.add_assoc]
  | done =>
    obtain rfl : bs = [] := hv
    exact ⟨_, .nil⟩
  | field tag' head tail ihead itail =>
    obtain ⟨b, c, rfl, hb, hc⟩ := hv
    obtain ⟨slots, hhead⟩ := ihead hb tag'
    obtain ⟨slots', htail⟩ := itail hc tag'
    have h := (hhead.into Prod.fst fun x (v : head.Value × tail.Value) => (x, v.2)).cons <|
      (htail.into Prod.snd fun y v => (v.1, y)).cons .nil
    rw [List.append_nil] at h
    exact ⟨_, h⟩

end Layout

/-! ### What is refused -/

section Exact

variable {τ υ : Type} {H : Heap}

/-- The reader stays inside the block, and when it succeeds it stands in front of a form of the value that it stores,
and passes it. -/
def Exact (r : Reader τ) (form : Bytes → τ → Prop) : Prop :=
  ∀ buf k v, buf.length < 2 ^ 31 → k ≤ buf.length →
    (r (archiveAt buf k) v).oob = false ∧
    ((r (archiveAt buf k) v).rc < 0 ∨
      (r (archiveAt buf k) v).rc = 0 ∧ ∃ bs rest, form bs (r (archiveAt buf k) v).val ∧ buf.drop k = bs ++ rest ∧
        (r (archiveAt buf k) v).ia = archiveAt buf (k + bs.length))

private theorem exact_fixed (n : Nat) (slot : Slot) (f : Bytes → τ) :
    Exact (iaFixed n slot fun bs _ => f bs) fun bs v => bs.length = n ∧ v = f bs := by
  intro buf k v hlt hk
  by_cases hroom : sizeT ((archiveAt buf k).len - (archiveAt buf k).off) < n
  · simp [iaFixed, hroom]
  · rw [sizeT_at hlt hk] at hroom
    have hlen : ((buf.drop k).take n).length = n := by
      simp only [List.length_take, List.length_drop]
      omega
    have h : buf.drop k = (buf.drop k).take n ++ (buf.drop k).drop n := (List.take_append_drop ..).symm
    rw [reads_fixed hlen slot (fun bs _ => f bs) buf k _ v hlt hk h]
    exact ⟨rfl, .inr ⟨rfl, _, _, ⟨hlen, rfl⟩, h, rfl⟩⟩

private theorem Exact.mono {r : Reader τ} {form form' : Bytes → τ → Prop} (hr : Exact r form)
    (h : ∀ bs v, form bs v → form' bs v) : Exact r form' := by
  intro buf k v hlt hk
  obtain ⟨hoob, hrc | ⟨hrc, bs, rest, hbs, hsplit, hia⟩⟩ := hr buf k v hlt hk
  · exact ⟨hoob, .inl hrc⟩
  · exact ⟨hoob, .inr ⟨hrc, bs, rest, h _ _ hbs, hsplit, hia⟩⟩

private theorem exact_bool (slot : Slot) :
    Exact (iaDeserializeBool slot fun x (_ : Int32) => x) fun bs v => ∃ b, bs = [b] ∧ v = b.toInt8.toInt32 := by
  intro buf k v hlt hk
  cases hdrop : buf.drop k with
  | nil =>
    have hlen := congrArg List.length hdrop
    rw [List.length_drop, List.length_nil] at hlen
    have hroom : (archiveAt buf k).len - (archiveAt buf k).off < 1 := by
      simp only [archiveAt]
      omega
    simp [iaDeserializeBool, hroom]
  | cons b rest =>
    have h : iaDeserializeBool slot (fun x (_ : Int32) => x) (archiveAt buf k) v = _ :=
      Layout.reads_byte b slot (fun x _ => x) buf k rest v hlt hk hdrop
    rw [h]
    exact ⟨rfl, .inr ⟨rfl, [b], rest, ⟨b, rfl, rfl⟩, rfl, rfl⟩⟩

private theorem exact_string (tag : String) :
    Exact (iaDeserializeString H tag fun x (_ : Option Bytes) => x) fun bs v =>
      ∃ s, bs = wireString (some s) ∧ v = some s := by
  intro buf k v hlt hk
  obtain ⟨hoob, -, hrc | ⟨hrc, s, rest, hsplit, hia⟩⟩ := string_cases H tag (fun x (_ : Option Bytes) => x) v hlt hk
  · exact ⟨hoob, .inl hrc⟩
  · refine ⟨hoob, .inr ⟨hrc, _, rest, ⟨s, rfl, ?_⟩, hsplit, hia⟩⟩
    have h := string_at H tag (fun x (_ : Option Bytes) => x) v hlt hk hsplit
    rw [h] at hrc ⊢
    split at hrc
    · rename_i hok
      rw [if_pos hok]
    · exact absurd hrc (show -enomem ≠ 0 by decide)

/-- In front of the format of a block, everything but the allocation succeeds. -/
private theorem val_of_buffer (tag : String) {o : Option Bytes} {buf rest : Bytes} {k : Nat} (v : Buffer)
    (hlt : buf.length < 2 ^ 31) (hk : k ≤ buf.length) (h : buf.drop k = wireString o ++ rest)
    (hrc : (iaDeserializeBuffer H tag id (fun x (_ : Buffer) => x) (archiveAt buf k) v).rc = 0) :
    (iaDeserializeBuffer H tag id (fun x (_ : Buffer) => x) (archiveAt buf k) v).val = .of o := by
  have hlen := length_of_drop hk h
  cases o with
  | none =>
    have hfirst := reads_int (-1) (.len tag) (fun n (v : Buffer) => { v with len := n }) buf k _ v hlt hk h
    have hroom : ¬ (archiveAt buf (k + 4)).len - (archiveAt buf (k + 4)).off < -1 := by
      simp only [wireString, length_be32] at hlen
      simp only [archiveAt]
      omega
    simp [iaDeserializeBuffer, hfirst, hroom, Buffer.of, show (-1 : Int32).toInt = -1 from rfl]
  | some s =>
    simp only [wireString, List.length_append, length_be32] at hlen
    have hint : (Int32.ofNat s.length).toInt = s.length := Int32.toInt_ofNat_of_lt (by omega)
    have hne : Int32.ofNat s.length ≠ -1 := by
      intro hm
      rw [hm, show (-1 : Int32).toInt = -1 from rfl] at hint
      omega
    have h' : buf.drop k = be32 (Int32.ofNat s.length) ++ (s ++ rest) := by rw [h, wireString, List.append_assoc]
    have hrest : buf.drop (k + 4) = s ++ rest := by simpa using drop_after h'
    have hfirst := reads_int (Int32.ofNat s.length) (.len tag) (fun n (v : Buffer) => { v with len := n }) buf k _ v
      hlt hk h'
    have hroom : ¬ (archiveAt buf (k + 4)).len - (archiveAt buf (k + 4)).off < s.length := by
      simp only [archiveAt]
      omega
    by_cases hok : H.ok (.field (archiveAt buf (k + 4)).off) (s.length : Int)
    · simp [iaDeserializeBuffer, hfirst, hroom, hint, hne, hok, fetch_at hrest, Buffer.of]
    · simp [iaDeserializeBuffer, hfirst, hroom, hint, hne, hok, enomem] at hrc

private theorem exact_buffer (tag : String) :
    Exact (iaDeserializeBuffer H tag id fun x (_ : Buffer) => x) fun bs v => ∃ o, bs = wireString o ∧ v = .of o := by
  intro buf k v hlt hk
  have hsound : Sound (iaDeserializeBuffer H tag id fun x (_ : Buffer) => x) (fun bs => ∃ o, bs = wireString o) :=
    sound_buffer H tag fun _ _ => rfl
  obtain ⟨hoob, hrc | ⟨hrc, bs, rest, ⟨o, rfl⟩, hsplit, hia⟩⟩ := hsound buf k v hlt hk
  · exact ⟨hoob, .inl hrc⟩
  · refine ⟨hoob, .inr ⟨hrc, _, rest, ⟨o, rfl, ?_⟩, hsplit, hia⟩⟩
    exact val_of_buffer tag v hlt hk hsplit hrc

private theorem Exact.field {r : Reader τ} {r' : Reader υ} {form : Bytes → τ → Prop} {form' : Bytes → υ → Prop}
    (hr : Exact r form) (hr' : Exact r' form') :
    Exact (readRecord [r.into Prod.fst fun x (v : τ × υ) => (x, v.2), r'.into Prod.snd fun y v => (v.1, y)])
      fun bs v => ∃ b c, bs = b ++ c ∧ form b v.1 ∧ form' c v.2 := by
  intro buf k v hlt hk
  obtain ⟨hoob, hrc | ⟨hrc, b, rest, hb, hsplit, hia⟩⟩ := hr buf k v.1 hlt hk
  · have hne : (r (archiveAt buf k) v.1).rc ≠ 0 := by omega
    simp [readRecord, Reader.into, hne, hoob, hrc]
  · have hlen := length_of_drop hk hsplit
    obtain ⟨hoob', hrc' | ⟨hrc', c, rest', hc, hsplit', hia'⟩⟩ := hr' buf (k + b.length) v.2 hlt (by omega)
    · have hne : (r' (archiveAt buf (k + b.length)) v.2).rc ≠ 0 := by omega
      simp [readRecord, Reader.into, hrc, hia, hoob, hne, hoob', hrc']
    · rw [drop_after hsplit] at hsplit'
      subst hsplit'
      refine ⟨by simp [readRecord, Reader.into, hrc, hia, hoob, hrc', hoob'], .inr ⟨?_, b ++ c, rest', ⟨b, c, rfl, ?_, ?_⟩, ?_, ?_⟩⟩
      all_goals simp [readRecord, Reader.into, hrc, hia, hrc', hia', hb, hc, hsplit, Nat.add_assoc]

end Exact

namespace Layout

/-- No vectors. -/
def flat : Layout → Bool
  | vector _ => false
  | field _ head tail => head.flat && tail.flat
  | _ => true

/-- The reader of a layout without vectors accepts the forms of its values and nothing else. -/
theorem exact {H : Heap} (l : Layout) (hl : l.flat) (tag : String) : Exact (l.deserialize H tag) l.Form := by
  induction l generalizing tag with
  | int => exact (exact_fixed 4 _ ofBe32).mono fun bs v h => by rw [h.2]; exact (be32_ofBe32 h.1).symm
  | long => exact (exact_fixed 8 _ ofBe64).mono fun bs v h => by rw [h.2]; exact (be64_ofBe64 h.1).symm
  | bool => exact exact_bool _
  | buffer => exact exact_buffer tag
  | string => exact exact_string tag
  | vector elem => cases hl
  | done => exact fun buf k v _ _ => ⟨rfl, .inr ⟨rfl, [], _, rfl, rfl, rfl⟩⟩
  | field tag' head tail ihead itail =>
    obtain ⟨hhead, htail⟩ := Bool.and_eq_true_iff.1 hl
    exact (ihead hhead tag').field (itail htail tag')

/-! ### Who owns the blocks -/

/-- The way from a variable to one of the pointers in it. -/
inductive Place where
  | here
  | head (p : Place)
  | tail (p : Place)
  | elem (i : Nat) (p : Place)
  deriving DecidableEq, Repr

/-- `deallocate_X`: where the blocks are that it frees, and what it leaves of the variable. -/
def deallocate : (l : Layout) → l.Value → List Place × l.Value
  | buffer, v => (if v.buff.isSome then [.here] else [], { v with buff := none })
  | string, v => (if v.isSome then [.here] else [], none)
  | vector elem, (count, data) =>
    match data with
    | none => ([], (count, none))
    | some xs =>
      ((List.range count.toInt.toNat).flatMap (fun i => ((elem.deallocate (xs.getD i elem.zero)).1.map (.elem i))) ++
        [.here], (count, none))
  | field _ head tail, (x, y) =>
    ((head.deallocate x).1.map .head ++ (tail.deallocate y).1.map .tail, ((head.deallocate x).2, (tail.deallocate y).2))
  | int, v => ([], v)
  | long, v => ([], v)
  | bool, v => ([], v)
  | done, v => ([], v)

section Allocations

variable (H : Heap)

/-- The allocations in the loop of a vector, from element `i` on, when `allocs` are those of one element. -/
def elemAllocs {τ : Type} (elem : Reader τ) (zero : τ) (allocs : IArchive → τ → List Place) :
    Nat → Nat → Int → IArchive → List Place
  | 0, _, _, _ => []
  | n + 1, i, rc, ia =>
    if rc ≠ 0 then elemAllocs elem zero allocs n (i + 1) rc ia
    else (allocs ia zero).map (.elem i) ++ elemAllocs elem zero allocs n (i + 1) (elem ia zero).rc (elem ia zero).ia

/-- Where `deserialize_X` puts the blocks that it allocates, in the order of the allocations. -/
def allocs (tag : String) : (l : Layout) → IArchive → l.Value → List Place
  | buffer, ia, v =>
    let d := iaDeserializeInt (.len tag) (fun n (v : Buffer) => { v with len := n }) ia v
    if d.rc < 0 then []
    else if d.ia.len - d.ia.off < d.val.len.toInt then []
    else if d.val.len = -1 then []
    else if H.ok (.field d.ia.off) d.val.len.toInt then [.here]
    else []
  | string, ia, _ =>
    let d := iaDeserializeInt (.len tag) (fun n (_ : Int32) => n) ia 0
    if d.rc < 0 then []
    else if d.ia.len - d.ia.off < d.val.toInt then []
    else if d.val.toInt < 0 then []
    else if H.ok (.field d.ia.off) (d.val.toInt + 1) then [.here]
    else []
  | vector elem, ia, v =>
    let d := iaDeserializeInt (.len tag) (fun n (v : Int32 × Option (List elem.Value)) => (n, v.2)) ia v
    if H.ok (.field d.ia.off) (d.val.1.toInt * elem.sizeof) then
      .here :: elemAllocs (elem.deserialize H "value") elem.zero (elem.allocs "value") d.val.1.toInt.toNat 0 d.rc d.ia
    else []
  | field tag head tail, ia, (x, y) =>
    let d := head.deserialize H tag ia x
    (head.allocs tag ia x).map .head ++ if d.rc ≠ 0 then [] else (tail.allocs tag d.ia y).map .tail
  | _, _, _ => []

end Allocations

variable {H : Heap}

theorem deallocate_zero (l : Layout) : (l.deallocate l.zero).1 = [] := by
  induction l with
  | field tag head tail ihead itail => simp [deallocate, zero, ihead, itail]
  | _ => rfl

/-- The pointers are null afterwards. -/
theorem deallocate_deallocate (l : Layout) (v : l.Value) : (l.deallocate (l.deallocate v).2).1 = [] := by
  induction l with
  | vector elem ih =>
    obtain ⟨count, _ | xs⟩ := v <;> rfl
  | field tag head tail ihead itail => simp [deallocate, ihead, itail]
  | _ => rfl

private theorem length_readElems {τ : Type} (elem : Reader τ) (zero : τ) (n : Nat) (rc : Int) (ia : IArchive) :
    (readElems elem zero n rc ia).2.2.1.length = n := by
  induction n generalizing rc ia with
  | zero => rfl
  | succ n ih =>
    unfold readElems
    split <;> simp [ih]

/-- The elements of a vector from element `i` on. -/
private theorem elems_owned {elem : Layout} {tag : String}
    (ih : ∀ ia v, (elem.deallocate v).1 = [] ∨ (elem.deserialize H tag ia v).rc = 0 →
      ((elem.deallocate (elem.deserialize H tag ia v).val).1).Perm (elem.allocs H tag ia v))
    (n i : Nat) (rc : Int) (ia : IArchive) :
    ((List.range n).flatMap fun j => (elem.deallocate
      ((readElems (elem.deserialize H tag) elem.zero n rc ia).2.2.1.getD j elem.zero)).1.map (.elem (i + j))).Perm
      (elemAllocs (elem.deserialize H tag) elem.zero (elem.allocs H tag) n i rc ia) := by
  induction n generalizing i rc ia with
  | zero => exact .refl _
  | succ n ihn =>
    rw [List.range_succ_eq_map, List.flatMap_cons, List.flatMap_map]
    unfold readElems elemAllocs
    by_cases hrc : rc = 0
    · have hnext := ihn (i + 1) (elem.deserialize H tag ia elem.zero).rc (elem.deserialize H tag ia elem.zero).ia
      have hfirst := ih ia elem.zero (.inl (deallocate_zero elem))
      simp only [hrc, ne_eq, not_true, if_false, List.getD_cons_zero, List.getD_cons_succ, Nat.add_zero]
      refine (hfirst.map _).append ?_
      simpa only [Nat.succ_eq_add_one, Nat.add_comm 1, Nat.add_assoc] using hnext
    · have hnext := ihn (i + 1) rc ia
      simp only [ne_eq, hrc, not_false_eq_true, if_true, List.getD_cons_zero, List.getD_cons_succ, deallocate_zero,
        List.map_nil, List.nil_append]
      simpa only [Nat.succ_eq_add_one, Nat.add_comm 1, Nat.add_assoc] using hnext

/-- Decoding into a variable without blocks, and a decoding that succeeds whatever was in the variable, leave exactly the
blocks in the variable that they have allocated. -/
theorem owned (l : Layout) (tag : String) (ia : IArchive) (v : l.Value)
    (h : (l.deallocate v).1 = [] ∨ (l.deserialize H tag ia v).rc = 0) :
    (l.deallocate (l.deserialize H tag ia v).val).1.Perm (l.allocs H tag ia v) := by
  induction l generalizing tag ia with
  | int => exact .refl _
  | long => exact .refl _
  | bool => exact .refl _
  | done => exact .refl _
  | buffer =>
    have hkeep : (iaDeserializeInt (.len tag) (fun n (v : Buffer) => { v with len := n }) ia v).val.buff = v.buff := by
      unfold iaDeserializeInt iaFixed
      split <;> rfl
    simp only [deserialize, iaDeserializeBuffer, allocs, deallocate, id_eq] at h ⊢
    generalize iaDeserializeInt (.len tag) (fun n (v : Buffer) => { v with len := n }) ia v = d at h hkeep ⊢
    -- where the reader stops early, the pointer is what it was
    have hstop : ∀ rc : Int, rc ≠ 0 → ((if v.buff.isSome then [Place.here] else []) = [] ∨ rc = 0) → v.buff = none :=
      fun rc hrc h => by simpa [hrc] using h
    by_cases hrc : d.rc < 0
    · simp only [hrc, if_true] at h ⊢
      simp [hkeep, hstop d.rc (by omega) h]
    · by_cases hbig : d.ia.len - d.ia.off < d.val.len.toInt
      · simp only [hrc, hbig, if_true, if_false] at h ⊢
        simp [hkeep, hstop (-e2big) (by decide) h]
      · by_cases hnull : d.val.len = -1
        · simp only [hrc, hbig, if_false]
          simp [hnull]
        · by_cases hok : H.ok (.field d.ia.off) d.val.len.toInt <;> simp [hrc, hbig, hnull, hok]
  | string =>
    simp only [deserialize, iaDeserializeString, allocs, deallocate] at h ⊢
    generalize iaDeserializeInt (.len tag) (fun n (_ : Int32) => n) ia 0 = d at h ⊢
    have hstop : ∀ rc : Int, rc ≠ 0 → ((if v.isSome then [Place.here] else []) = [] ∨ rc = 0) → v = none :=
      fun rc hrc h => by simpa [hrc] using h
    by_cases hrc : d.rc < 0
    · simp only [hrc, if_true] at h ⊢
      simp [hstop d.rc (by omega) h]
    · by_cases hbig : d.ia.len - d.ia.off < d.val.toInt
      · simp only [hrc, hbig, if_true, if_false] at h ⊢
        simp [hstop (-e2big) (by decide) h]
      · by_cases hneg : d.val.toInt < 0
        · simp only [hrc, hbig, hneg, if_true, if_false] at h ⊢
          simp [hstop (-einval) (by decide) h]
        · by_cases hok : H.ok (.field d.ia.off) (d.val.toInt + 1) <;> simp [hrc, hbig, hneg, hok]
  | vector elem ih =>
    simp only [deserialize, deserializeVector, allocs]
    generalize iaDeserializeInt (.len tag) (fun n (v : Int32 × Option (List elem.Value)) => (n, v.2)) ia v = d
    by_cases hok : H.ok (.field d.ia.off) (d.val.1.toInt * elem.sizeof)
    · have helems := elems_owned (ih "value") d.val.1.toInt.toNat 0 d.rc d.ia
      simp only [Nat.zero_add] at helems
      simp only [hok, if_true, deallocate]
      exact (List.perm_append_comm.trans (.cons _ helems))
    · simp [hok, deallocate]
  | field tag' head tail ihead itail =>
    obtain ⟨x, y⟩ := v
    simp only [deserialize, readRecord, Reader.into, allocs, deallocate, List.append_eq_nil_iff, List.map_eq_nil_iff] at h ⊢
    by_cases hrc : (head.deserialize H tag' ia x).rc = 0
    · have hhead := ihead tag' ia x (.inr hrc)
      have htail := itail tag' (head.deserialize H tag' ia x).ia y (h.imp And.right fun h => by
        by_contra hne
        simp [hrc, hne] at h)
      simp only [hrc, ne_eq, not_true, if_false]
      by_cases hrc' : (tail.deserialize H tag' (head.deserialize H tag' ia x).ia y).rc = 0
      all_goals simp only [hrc', not_true, not_false_eq_true, if_true, if_false]
      all_goals exact (hhead.map _).append (htail.map _)
    · obtain ⟨hx, hy⟩ : (head.deallocate x).1 = [] ∧ (tail.deallocate y).1 = [] := by
        simpa [hrc] using h
      have hhead := ihead tag' ia x (.inl hx)
      simp only [ne_eq, hrc, not_false_eq_true, if_true, hy, List.map_nil]
      exact (hhead.map _).append (.refl _)

private theorem mem_elemAllocs {τ : Type} {elem : Reader τ} {zero : τ} {allocs : IArchive → τ → List Place} {n i : Nat}
    {rc : Int} {ia : IArchive} {p : Place} (h : p ∈ elemAllocs elem zero allocs n i rc ia) :
    ∃ j q, i ≤ j ∧ p = .elem j q := by
  induction n generalizing i rc ia with
  | zero => cases h
  | succ n ih =>
    unfold elemAllocs at h
    split at h
    · obtain ⟨j, q, hj, rfl⟩ := ih h
      exact ⟨j, q, by omega, rfl⟩
    · rcases List.mem_append.1 h with h | h
      · obtain ⟨q, -, rfl⟩ := List.mem_map.1 h
        exact ⟨i, q, le_rfl, rfl⟩
      · obtain ⟨j, q, hj, rfl⟩ := ih h
        exact ⟨j, q, by omega, rfl⟩

private theorem nodup_elemAllocs {τ : Type} {elem : Reader τ} {zero : τ} {allocs : IArchive → τ → List Place}
    (hallocs : ∀ ia v, (allocs ia v).Nodup) (n i : Nat) (rc : Int) (ia : IArchive) :
    (elemAllocs elem zero allocs n i rc ia).Nodup := by
  induction n generalizing i rc ia with
  | zero => exact .nil
  | succ n ih =>
    unfold elemAllocs
    split
    · exact ih _ _ _
    · have helem := List.Nodup.map (f := Place.elem i) (fun _ _ h => (Place.elem.inj h).2) (hallocs ia zero)
      refine List.Nodup.append helem (ih _ _ _) fun p hp hp' => ?_
      obtain ⟨q, -, rfl⟩ := List.mem_map.1 hp
      obtain ⟨j, q', hj, he⟩ := mem_elemAllocs hp'
      have := (Place.elem.inj he).1
      omega

/-- A reader stores one block at a place at most. -/
theorem nodup_allocs (l : Layout) (tag : String) (ia : IArchive) (v : l.Value) : (l.allocs H tag ia v).Nodup := by
  induction l generalizing tag ia with
  | int => exact .nil
  | long => exact .nil
  | bool => exact .nil
  | done => exact .nil
  | buffer =>
    unfold allocs
    dsimp only
    repeat' split
    all_goals simp
  | string =>
    unfold allocs
    dsimp only
    repeat' split
    all_goals simp
  | vector elem ih =>
    unfold allocs
    dsimp only
    split
    · refine List.nodup_cons.2 ⟨fun h => ?_, nodup_elemAllocs (fun ia v => ih "value" ia v) _ _ _ _⟩
      obtain ⟨j, q, -, he⟩ := mem_elemAllocs h
      cases he
    · exact .nil
  | field tag' head tail ihead itail =>
    obtain ⟨x, y⟩ := v
    unfold allocs
    dsimp only
    have hhead := List.Nodup.map (f := Place.head) (fun _ _ h => Place.head.inj h) (ihead tag' ia x)
    refine List.Nodup.append hhead ?_ fun p hp hp' => ?_
    · split
      · exact .nil
      · exact List.Nodup.map (f := Place.tail) (fun _ _ h => Place.tail.inj h) (itail _ _ y)
    · obtain ⟨q, -, rfl⟩ := List.mem_map.1 hp
      split at hp'
      · cases hp'
      · obtain ⟨q', -, he⟩ := List.mem_map.1 hp'
        cases he

end Layout

end ZkClient
