import ZkClient.Lib.Tally
import ZkClient.Transfer

/-!
# Short transfers and retried errors

`read_socket` and the write loop of `send_request` over any outcomes of `read` and `write`.  Both loops add what they
got to their offset before they look at the error, so a retried `-1` moves the offset back by one: the next transfer
starts one byte too early, and the loop ends one byte too late.

`Feed` and `Sink` are the outcomes up to the one that ends every transfer.  The loops are counting loops
(`Tally.Loop`), so what they do with any outcomes is described by the last outcome that they take
(`readSocket_last`, `writeSocket_last`).
-/

namespace ZkClient

open BigEndian Tally

/-! ### Receiving -/

/-- `EWOULDBLOCK` is `EAGAIN`. -/
def Retryable (errno : Int) : Prop := errno = eagain ∨ errno = eintr

instance (errno : Int) : Decidable (Retryable errno) := inferInstanceAs (Decidable (_ ∨ _))

namespace ReadResult

/-- How many bytes the read delivers. -/
def size : ReadResult → Nat
  | bytes n => max 1 n
  | _ => 0

def failed : ReadResult → Bool
  | fail _ => true
  | _ => false

/-- End of file, or an error that is not to be retried. -/
def Fatal : ReadResult → Prop
  | bytes _ => False
  | eof => True
  | fail errno => ¬ Retryable errno

/-- The loop of `read_socket` counts the bytes and takes one away for every failed read; end of file stops it. -/
def loop : Loop ReadResult where
  count
    | bytes n => (max 1 n : Nat)
    | eof => 0
    | fail _ => -1
  stops x := x = eof

end ReadResult

/-- How many bytes the reads deliver. -/
def delivered (xs : List ReadResult) : Nat := (xs.map ReadResult.size).sum

/-- The outcomes of the coming reads, up to an end of file and further, and the bytes that they deliver. -/
structure Feed where
  reads : List ReadResult
  stream : Bytes
  ends : .eof ∈ reads
  there : delivered reads ≤ stream.length

/-- What is to hold when `read_socket` returns from reading `len` bytes. -/
structure ExactReceive (len : Nat) (f : Feed) (x : Received) : Prop where
  whole : x.status = zkOk → x.mem.block len = f.stream.take len ∧ x.stream = f.stream.drop len
  inside : x.outside = false
  stops : ∀ pre y post, f.reads = pre ++ y :: post → y.Fatal → x.reads.length ≤ post.length →
    x.status = zkSocketErr ∧ x.reads = post

@[simp] private theorem delivered_cons (x : ReadResult) (xs : List ReadResult) :
    delivered (x :: xs) = x.size + delivered xs := by
  simp [delivered]

private theorem delivered_append (xs ys : List ReadResult) : delivered (xs ++ ys) = delivered xs + delivered ys := by
  simp [delivered]

private theorem readSocket_done {len r : Int} (h : ¬ r < len) (xs : List ReadResult) (mem : Memory) (stream : Bytes)
    (outside : Bool) :
    readSocket false len xs r mem stream outside =
      { status := zkOk, mem, stream, reads := xs, closed := false, outside, endless := false } := by
  cases xs <;> simp [readSocket, h]

/-- A read that delivers `k` bytes. -/
private theorem readSocket_bytes {len r : Int} {n k : Nat} {xs : List ReadResult} {mem : Memory} {stream : Bytes}
    {outside : Bool} (hlt : r < len) (hk : min (max 1 n) (len - r).toNat = k) (hle : k ≤ stream.length) :
    readSocket false len (.bytes n :: xs) r mem stream outside =
      readSocket false len xs (r + k) (mem.store r (stream.take k)) (stream.drop k)
        (outside || decide (r < 0)) := by
  have hpos : k ≠ 0 := by omega
  have hmin : min (min (max 1 n) (len - r).toNat) stream.length = k := by omega
  rw [readSocket, if_pos hlt]
  simp only [hmin, hpos, Bool.false_eq_true, if_false]

private theorem store_inside {mem : Memory} {r i : Int} {k : Nat} {stream : Bytes} (hk : k ≤ stream.length)
    (hr : r ≤ i) (hi : i < r + k) : mem.store r (stream.take k) i = stream.getD (i - r).toNat 0 := by
  have hlen : (stream.take k).length = k := by rw [List.length_take]; omega
  have hlt : (i - r).toNat < k := by omega
  rw [Memory.store, hlen, if_pos ⟨hr, hi⟩]
  simp [hlt]

private theorem store_outside {mem : Memory} {r i : Int} {bs : Bytes} (hi : i < r) : mem.store r bs i = mem i := by
  rw [Memory.store, if_neg (by omega)]

/-- What a run of the read loop does that ends with the outcome `x`: the bytes it takes, where it puts them while no
read fails, and whether it was before the buffer. -/
structure ReadLast (len : Int) (r : Int) (pre : List ReadResult) (x : ReadResult) (mem : Memory) (stream : Bytes)
    (outside : Bool) (res : Received) : Prop where
  eof : x = .eof → res.status = zkSocketErr
  ok : x ≠ .eof → res.status = zkOk ∧ res.stream = stream.drop ((len - r).toNat + pre.countP ReadResult.failed)
  mem : x ≠ .eof → pre.countP ReadResult.failed = 0 → 0 ≤ r → (∀ i : Nat, i < r → res.mem i = mem i) ∧
    ∀ i : Nat, r ≤ i → i < len → res.mem i = stream.getD (i - r).toNat 0
  outside : res.outside = false ↔ outside = false ∧ ∀ p, p <+: pre → 0 ≤ r + ReadResult.loop.total p

section Inside

variable {X : Type} {L : Loop X} {r r' : Int} {outside : Bool}

/-- A step of a loop is outside the block when the offset is negative. -/
private theorem inside_nil :
    (outside || decide (r < 0)) = false ↔ outside = false ∧ ∀ p, p <+: ([] : List X) → 0 ≤ r + L.total p := by
  simp only [List.prefix_nil, forall_eq, Loop.total_nil, Int.add_zero]
  rw [Bool.or_eq_false_iff, decide_eq_false_iff_not, not_lt]

private theorem inside_cons {y : X} {pre : List X} (hr : r' = r + L.count y) :
    ((outside || decide (r < 0)) = false ∧ ∀ p, p <+: pre → 0 ≤ r' + L.total p) ↔
      outside = false ∧ ∀ p, p <+: y :: pre → 0 ≤ r + L.total p := by
  rw [hr, Loop.nonneg_cons, Bool.or_eq_false_iff, decide_eq_false_iff_not, not_lt, and_assoc]

end Inside

namespace ReadLast

variable {len r : Int} {pre : List ReadResult} {x : ReadResult} {mem : Memory} {stream : Bytes} {outside : Bool}
  {post : List ReadResult} {res : Received}

/-- A failed read in front. -/
private theorem fail {errno : Int} (hlt : r < len)
    (h : ReadLast len (r - 1) pre x mem stream (outside || decide (r < 0)) res) :
    ReadLast len r (.fail errno :: pre) x mem stream outside res where
  eof := h.eof
  ok hx := by
    obtain ⟨hstatus, hstream⟩ := h.ok hx
    have hgap : (len - (r - 1)).toNat = (len - r).toNat + 1 := by omega
    refine ⟨hstatus, hstream.trans (congrArg (stream.drop ·) ?_)⟩
    rw [List.countP_cons_of_pos (show ReadResult.failed (.fail errno) = true from rfl), hgap]
    omega
  mem _ hfail := absurd hfail (by simp [ReadResult.failed])
  outside := h.outside.trans (inside_cons rfl)

/-- A read of `k` bytes in front. -/
private theorem bytes {n k : Nat} (hk : max 1 n = k) (hle : k ≤ stream.length) (hshort : r + k < len)
    (h : ReadLast len (r + k) pre x (mem.store r (stream.take k)) (stream.drop k) (outside || decide (r < 0)) res) :
    ReadLast len r (.bytes n :: pre) x mem stream outside res where
  eof := h.eof
  ok hx := by
    obtain ⟨hstatus, hstream⟩ := h.ok hx
    refine ⟨hstatus, hstream.trans ?_⟩
    rw [List.drop_drop, List.countP_cons_of_neg (by simp [ReadResult.failed])]
    congr 1
    omega
  mem hx hfail hr := by
    rw [List.countP_cons_of_neg (by simp [ReadResult.failed])] at hfail
    obtain ⟨hold, hnew⟩ := h.mem hx hfail (by omega)
    refine ⟨fun i hi => (hold i (by omega)).trans (store_outside hi), fun i hri hi => ?_⟩
    by_cases hik : (i : Int) < r + k
    · rw [hold i hik, store_inside hle hri hik]
    · rw [hnew i (by omega) hi, List.getD_eq_getElem?_getD, List.getElem?_drop, List.getD_eq_getElem?_getD]
      congr 2
      omega
  outside := h.outside.trans (inside_cons (by rw [← hk]; rfl))

/-- The read that fills the buffer. -/
private theorem full {n k : Nat} (hkr : r + k = len) (hle : k ≤ stream.length) :
    ReadLast len r [] (.bytes n) mem stream outside
      { status := zkOk, mem := mem.store r (stream.take k), stream := stream.drop k, reads := post, closed := false,
        outside := outside || decide (r < 0), endless := false } where
  eof hx := by cases hx
  ok _ := by
    have hk : (len - r).toNat = k := by omega
    exact ⟨rfl, by rw [List.countP_nil, hk, Nat.add_zero]⟩
  mem _ _ hr := ⟨fun i hi => store_outside hi, fun i hr hi => store_inside hle hr (by omega)⟩
  outside := inside_nil

end ReadLast

theorem readSocket_last {len r : Int} {pre post : List ReadResult} {x : ReadResult} {mem : Memory} {stream : Bytes}
    {outside : Bool} (h : ReadResult.loop.Last (len - r) pre x) (hthere : delivered (pre ++ [x]) ≤ stream.length) :
    (readSocket false len (pre ++ x :: post) r mem stream outside).reads = post ∧
      ReadLast len r pre x mem stream outside (readSocket false len (pre ++ x :: post) r mem stream outside) := by
  induction pre generalizing r mem stream outside with
  | nil =>
    obtain ⟨hgoal, hends⟩ := Loop.last_nil.1 h
    have hlt : r < len := by omega
    cases x with
    | eof =>
      rw [List.nil_append, readSocket, if_pos hlt]
      exact ⟨rfl, fun _ => rfl, fun hne => absurd rfl hne, fun hne => absurd rfl hne, inside_nil⟩
    | fail errno =>
      rcases hends with hstops | hle
      · cases hstops
      · have hcount : ReadResult.loop.count (.fail errno) = -1 := rfl
        omega
    | bytes n =>
      have hn : len - r ≤ (max 1 n : Nat) := by
        rcases hends with hstops | hle
        · cases hstops
        · exact hle
      have hlen : max 1 n ≤ stream.length := by simpa [delivered, ReadResult.size] using hthere
      obtain ⟨k, hk, hkr⟩ : ∃ k, min (max 1 n) (len - r).toNat = k ∧ r + k = len := ⟨_, rfl, by omega⟩
      have hdone : ¬ r + k < len := by omega
      rw [List.nil_append, readSocket_bytes hlt hk (by omega), readSocket_done hdone]
      exact ⟨rfl, .full hkr (by omega)⟩
  | cons y pre ih =>
    obtain ⟨hgoal, hy, hlast⟩ := Loop.last_cons.1 h
    have hlt : r < len := by omega
    rw [List.cons_append, delivered_cons] at hthere
    cases y with
    | eof => exact absurd rfl hy
    | fail errno =>
      have hcount : ReadResult.loop.count (.fail errno) = -1 := rfl
      rw [hcount, show len - r - -1 = len - (r - 1) by omega] at hlast
      obtain ⟨hreads, hres⟩ := @ih _ mem stream (outside || decide (r < 0)) hlast (by omega)
      rw [List.cons_append, readSocket, if_pos hlt]
      simp only [Bool.false_eq_true, if_false]
      exact ⟨hreads, hres.fail hlt⟩
    | bytes n =>
      obtain ⟨k, hk, hpos⟩ : ∃ k, max 1 n = k ∧ 0 < k := ⟨_, rfl, by omega⟩
      have hcount : ReadResult.loop.count (.bytes n) = k := congrArg Nat.cast hk
      have hsize : ReadResult.size (.bytes n) = k := hk
      rw [hcount, show len - r - k = len - (r + k) by omega] at hlast
      have hshort := (Loop.going_nil.1 (hlast.going.of_prefix List.nil_prefix))
      rw [hsize] at hthere
      obtain ⟨hreads, hres⟩ := @ih _ (mem.store r (stream.take k)) (stream.drop k)
        (outside || decide (r < 0)) hlast (by rw [List.length_drop]; omega)
      rw [List.cons_append, readSocket_bytes (k := k) hlt (by omega) (by omega)]
      exact ⟨hreads, hres.bytes hk (by omega) (by omega)⟩

private theorem memory_block {mem : Memory} {len : Nat} {stream : Bytes} (hlen : len ≤ stream.length)
    (h : ∀ i : Nat, (i : Int) < len → mem i = stream.getD i 0) : mem.block len = stream.take len := by
  apply List.ext_getElem
  · simp [Memory.block, hlen]
  · intro i h1 h2
    have hi : i < len := by
      simp only [List.length_take] at h2
      omega
    have hlt : i < stream.length := by omega
    simp [Memory.block, h i (by omega), List.getElem?_eq_getElem hlt]

private theorem count_neg {x : ReadResult} : ReadResult.loop.count x < 0 ↔ x.failed = true := by
  cases x with
  | bytes n =>
    have hcount : ReadResult.loop.count (.bytes n) = (max 1 n : Nat) := rfl
    simp [hcount, ReadResult.failed]
  | eof => simp [ReadResult.loop, ReadResult.failed]
  | fail errno => simp [ReadResult.loop, ReadResult.failed]

private theorem neg_one_le_count (x : ReadResult) : -1 ≤ ReadResult.loop.count x := by
  cases x with
  | bytes n =>
    have hcount : ReadResult.loop.count (.bytes n) = (max 1 n : Nat) := rfl
    omega
  | eof => exact Int.neg_nonpos_of_nonneg (by omega)
  | fail errno => exact le_rfl

private theorem total_add_failed (xs : List ReadResult) :
    ReadResult.loop.total xs + xs.countP ReadResult.failed = delivered xs := by
  induction xs with
  | nil => rfl
  | cons x xs ih =>
    rw [Loop.total_cons, delivered_cons]
    cases x with
    | bytes n =>
      have hcount : ReadResult.loop.count (.bytes n) = (max 1 n : Nat) := rfl
      have hsize : ReadResult.size (.bytes n) = max 1 n := rfl
      rw [List.countP_cons_of_neg (by simp [ReadResult.failed])]
      omega
    | eof =>
      have hcount : ReadResult.loop.count .eof = 0 := rfl
      have hsize : ReadResult.size .eof = 0 := rfl
      rw [List.countP_cons_of_neg (by simp [ReadResult.failed])]
      omega
    | fail errno =>
      have hcount : ReadResult.loop.count (.fail errno) = -1 := rfl
      have hsize : ReadResult.size (.fail errno) = 0 := rfl
      rw [List.countP_cons_of_pos (show ReadResult.failed (.fail errno) = true from rfl)]
      omega

/-- The last outcome is no failed read. -/
private theorem last_not_failed {len : Int} {pre : List ReadResult} {x : ReadResult}
    (h : ReadResult.loop.Last len pre x) : x.failed = false := by
  by_contra hfailed
  have hneg := count_neg.2 (Bool.not_eq_false _ ▸ hfailed)
  have hgoing := (h.going pre List.prefix_rfl).1
  rcases h.ends with rfl | hgoal
  · exact hfailed rfl
  · rw [Loop.total_append, Loop.total_cons, Loop.total_nil] at hgoal
    omega

/-- A run of `read_socket` is exact when it never is before the buffer, and when reads that fail are to be retried and
the run ends with the end of the file. -/
private theorem ReadLast.exact_iff {len : Nat} {f : Feed} {pre post : List ReadResult} {x : ReadResult} {mem : Memory}
    {res : Received} (hlast : ReadResult.loop.Last len pre x) (hf : f.reads = pre ++ x :: post)
    (hreads : res.reads = post) (hres : ReadLast len 0 pre x mem f.stream false res) :
    ExactReceive len f res ↔ (∀ p, p <+: pre → 0 ≤ ReadResult.loop.total p) ∧
      ∀ y ∈ pre, y.failed → ¬ y.Fatal ∧ x = .eof := by
  have htaken : delivered (pre ++ [x]) ≤ f.stream.length := by
    have hthere := f.there
    have hsplit : pre ++ x :: post = (pre ++ [x]) ++ post := by simp
    rw [hf, hsplit, delivered_append] at hthere
    omega
  have htotal := total_add_failed (pre ++ [x])
  have hinside := hres.outside
  simp only [Int.zero_add, true_and] at hinside
  constructor
  · intro hex
    refine ⟨hinside.1 hex.inside, fun y hmem hy => ⟨fun hfatal => ?_, ?_⟩⟩
    · obtain ⟨p, q, rfl⟩ := List.append_of_mem hmem
      -- another read follows the error
      have hstop := (hex.stops p y (q ++ x :: post) (by simp [hf]) hfatal (by rw [hreads]; simp; omega)).2
      have hlen := congrArg List.length (hreads.symm.trans hstop)
      simp only [List.length_append, List.length_cons] at hlen
      omega
    · by_contra hx
      -- more than `len` bytes have been taken
      obtain ⟨hstatus, hstream⟩ := hres.ok hx
      have hfailed : 0 < pre.countP ReadResult.failed := List.countP_pos_iff.2 ⟨y, hmem, hy⟩
      have hgoal := hlast.ends.resolve_left hx
      rw [List.countP_append] at htotal
      have hdrop := congrArg List.length (hstream.symm.trans (hex.whole hstatus).2)
      simp only [List.length_drop] at hdrop
      omega
  · rintro ⟨htotal', hfail⟩
    refine ⟨fun hstatus => ?_, hinside.2 htotal', fun pre' y post' heq hfatal hle => ?_⟩
    · have hx : x ≠ .eof := by
        intro hx
        rw [hres.eof hx] at hstatus
        cases hstatus
      have hnone : pre.countP ReadResult.failed = 0 := by
        rw [List.countP_eq_zero]
        exact fun y hy hfailed => hx (hfail y hy hfailed).2
      obtain ⟨-, hstream⟩ := hres.ok hx
      obtain ⟨-, hmem⟩ := hres.mem hx hnone le_rfl
      have hgoal := hlast.ends.resolve_left hx
      have hlen : len ≤ f.stream.length := by omega
      refine ⟨memory_block hlen fun i hi => ?_, ?_⟩
      · rw [hmem i (by omega) hi, Int.sub_zero, Int.toNat_natCast]
      · rw [hstream, hnone, Int.sub_zero, Int.toNat_natCast, Nat.add_zero]
    · rw [hreads] at hle ⊢
      rcases split_compare (hf.symm.trans heq) hle with hbefore | ⟨-, rfl, rfl⟩
      · have hmem : y ∈ pre := hbefore.subset (by simp)
        cases y with
        | bytes n => exact hfatal.elim
        | eof => exact absurd rfl ((hlast.going _ List.prefix_rfl).2 .eof hmem)
        | fail errno => exact absurd hfatal (hfail _ hmem rfl).1
      · cases y with
        | bytes n => exact hfatal.elim
        | eof => exact ⟨hres.eof rfl, rfl⟩
        | fail errno => exact absurd (last_not_failed hlast) Bool.noConfusion

/-- `read_socket` is exact unless a read fails before it is through; then the error has to be a retryable one with
bytes before it that make up for it, and the file has to end before as many bytes have come as `read_socket` waits for.
-/
theorem readSocket_exact_iff (len : Nat) (f : Feed) (mem : Memory) :
    ExactReceive len f (readSocket false len f.reads 0 mem f.stream false) ↔
      ∀ pre x post, f.reads = pre ++ x :: post → x.failed → ReadResult.loop.Going len pre →
        ¬ x.Fatal ∧ 0 < ReadResult.loop.total pre ∧ ¬ ReadResult.loop.Reaches len f.reads := by
  rcases Nat.eq_zero_or_pos len with rfl | hpos
  · -- nothing is read
    have hdone := @readSocket_done ((0 : Nat) : Int) 0 (lt_irrefl _) f.reads mem f.stream false
    rw [hdone]
    constructor
    · intro _ pre x post _ _ hgoing
      exact absurd (hgoing [] List.nil_prefix).1 (lt_irrefl _)
    · intro _
      refine ⟨fun _ => ⟨rfl, rfl⟩, rfl, fun pre y post hreads _ hle => ?_⟩
      have hlen := congrArg List.length hreads
      simp only [List.length_append, List.length_cons] at hlen hle
      omega
  obtain ⟨pre, x, post, hf, hlast⟩ := Loop.exists_last (L := ReadResult.loop) (show 0 < (len : Int) by omega)
    ⟨.eof, f.ends, rfl⟩
  have hthere := f.there
  have hsplit : pre ++ x :: post = (pre ++ [x]) ++ post := by simp
  rw [hf, hsplit, delivered_append] at hthere
  obtain ⟨hreads, hres⟩ := @readSocket_last len 0 pre post x mem f.stream false (by rwa [Int.sub_zero]) (by omega)
  rw [← hf] at hreads hres
  have hretried := hlast.retried_iff (R := fun y => ¬ y.Fatal) neg_one_le_count post
  simp only [count_neg] at hretried
  rw [← hf] at hretried
  refine ((hres.exact_iff hlast hf hreads).trans hretried.symm).trans ?_
  constructor
  · intro hall p y q heq hy hgoing
    refine hall p y q heq hy ?_ hgoing
    rintro rfl
    cases hy
  · intro hall p y q heq hy _ hgoing
    exact hall p y q heq hy hgoing

/-- A frame of four bytes whose middle is late: the buffer misses a byte, and one byte too many is taken. -/
theorem readSocket_skips_byte :
    ¬ ∀ (len : Nat) (f : Feed) (mem : Memory),
      ExactReceive len f (readSocket false len f.reads 0 mem f.stream false) := by
  intro hall
  let f : Feed := { reads := [.bytes 2, .fail eagain, .bytes 3, .eof], stream := [1, 2, 3, 4, 5], ends := by decide
                    there := by decide }
  have hwhole := (hall 4 f fun _ => 0).whole (by decide)
  exact absurd hwhole.1 (by decide)

/-! ### Sending -/

namespace WriteResult

def failed : WriteResult → Bool
  | fail _ => true
  | _ => false

/-- An error that is not to be retried. -/
def Fatal : WriteResult → Prop
  | bytes _ => False
  | fail errno => ¬ Retryable errno

/-- The write loop of `send_request` counts the bytes and takes one away for every write that it retries. -/
def loop : Loop WriteResult where
  count
    | bytes n => (max 1 n : Nat)
    | fail _ => -1
  stops := Fatal

end WriteResult

/-- A world whose coming writes go on up to an error that ends every `send_request`, and further. -/
structure Sink where
  world : World
  ends : ∃ x ∈ world.writes, x.Fatal

/-- What is to hold when `send_request` returns. -/
structure ExactSend (payload : Bytes) (w : World) (r : Int × World) : Prop where
  whole : r.1 = zkOk → r.2.wire = w.wire ++ (encode 4 payload.length ++ payload)
  inside : r.2.faults = w.faults
  stops : ∀ pre x post, w.writes = pre ++ x :: post → x.Fatal → r.2.writes.length ≤ post.length →
    r.1 = zkSocketErr ∧ r.2.client.lastErr = zkSocketErr ∧ r.2.writes = post

private theorem writeSocket_done {buf : Bytes} {w : Int} (h : ¬ w < buf.length) (xs : List WriteResult) (wire : Bytes)
    (outside : Bool) : writeSocket buf xs w wire outside = { status := zkOk, wire, writes := xs, outside } := by
  cases xs <;> simp [writeSocket, h]

private theorem length_sliceAt (buf : Bytes) (w : Int) (k : Nat) : (sliceAt buf w k).length = k := by
  simp [sliceAt]

/-- What a run of the write loop does that ends with the outcome `x`. -/
structure WriteLast (buf : Bytes) (w : Int) (pre : List WriteResult) (x : WriteResult) (wire : Bytes) (outside : Bool)
    (res : Sent) : Prop where
  fatal : x.Fatal → res.status = zkSocketErr
  ok : ¬ x.Fatal → res.status = zkOk ∧
    res.wire.length = wire.length + (buf.length - w).toNat + pre.countP WriteResult.failed
  wire : ¬ x.Fatal → pre.countP WriteResult.failed = 0 → 0 ≤ w → res.wire = wire ++ buf.drop w.toNat
  outside : res.outside = false ↔ outside = false ∧ ∀ p, p <+: pre → 0 ≤ w + WriteResult.loop.total p

namespace WriteLast

variable {buf : Bytes} {w : Int} {pre : List WriteResult} {x : WriteResult} {wire : Bytes} {outside : Bool} {res : Sent}

/-- A write that is retried in front. -/
private theorem fail {errno : Int} (hlt : w < buf.length)
    (h : WriteLast buf (w - 1) pre x wire (outside || decide (w < 0)) res) :
    WriteLast buf w (.fail errno :: pre) x wire outside res where
  fatal := h.fatal
  ok hx := by
    obtain ⟨hstatus, hlen⟩ := h.ok hx
    refine ⟨hstatus, hlen.trans ?_⟩
    rw [List.countP_cons_of_pos (show WriteResult.failed (.fail errno) = true from rfl)]
    omega
  wire _ hfail := absurd hfail (by simp [WriteResult.failed])
  outside := h.outside.trans (inside_cons rfl)

/-- A write of `k` bytes in front. -/
private theorem bytes {n k : Nat} (hk : max 1 n = k) (hshort : w + k < buf.length)
    (h : WriteLast buf (w + k) pre x (wire ++ sliceAt buf w k) (outside || decide (w < 0)) res) :
    WriteLast buf w (.bytes n :: pre) x wire outside res where
  fatal := h.fatal
  ok hx := by
    obtain ⟨hstatus, hlen⟩ := h.ok hx
    refine ⟨hstatus, hlen.trans ?_⟩
    rw [List.length_append, length_sliceAt, List.countP_cons_of_neg (by simp [WriteResult.failed])]
    omega
  wire hx hfail hw := by
    rw [List.countP_cons_of_neg (by simp [WriteResult.failed])] at hfail
    obtain ⟨w, rfl⟩ := Int.eq_ofNat_of_zero_le hw
    have hcast : ((w : Int) + (k : Int)).toNat = w + k := by omega
    rw [h.wire hx hfail (by omega), sliceAt_eq (by omega), List.append_assoc, hcast, Int.toNat_natCast,
      ← List.drop_drop, List.take_append_drop]
  outside := h.outside.trans (inside_cons (by rw [← hk]; rfl))

/-- The write that takes the rest of the frame. -/
private theorem full {n k : Nat} {post : List WriteResult} (hkw : w + k = buf.length) :
    WriteLast buf w [] (.bytes n) wire outside
      { status := zkOk, wire := wire ++ sliceAt buf w k, writes := post, outside := outside || decide (w < 0) } where
  fatal := False.elim
  ok _ := by
    refine ⟨rfl, ?_⟩
    rw [List.length_append, length_sliceAt, List.countP_nil]
    omega
  wire _ _ hw := by
    obtain ⟨w, rfl⟩ := Int.eq_ofNat_of_zero_le hw
    rw [sliceAt_eq (by omega), Int.toNat_natCast, List.take_of_length_le (by rw [List.length_drop]; omega)]
  outside := inside_nil

end WriteLast

theorem writeSocket_last {buf : Bytes} {w : Int} {pre post : List WriteResult} {x : WriteResult} {wire : Bytes}
    {outside : Bool} (h : WriteResult.loop.Last (buf.length - w) pre x) :
    (writeSocket buf (pre ++ x :: post) w wire outside).writes = post ∧
      WriteLast buf w pre x wire outside (writeSocket buf (pre ++ x :: post) w wire outside) := by
  induction pre generalizing w wire outside with
  | nil =>
    obtain ⟨hgoal, hends⟩ := Loop.last_nil.1 h
    have hlt : w < buf.length := by omega
    cases x with
    | fail errno =>
      have hfatal : ¬ Retryable errno := by
        rcases hends with hstops | hle
        · exact hstops
        · have hcount : WriteResult.loop.count (.fail errno) = -1 := rfl
          omega
      rw [List.nil_append, writeSocket, if_pos hlt]
      simp only [if_pos (not_or.1 hfatal)]
      exact ⟨trivial, fun _ => rfl, fun hno => absurd hfatal hno, fun hno => absurd hfatal hno, inside_nil⟩
    | bytes n =>
      have hn : buf.length - w ≤ (max 1 n : Nat) := by
        rcases hends with hstops | hle
        · exact hstops.elim
        · exact hle
      obtain ⟨k, hk, hkw⟩ : ∃ k, min (max 1 n) (buf.length - w).toNat = k ∧ w + k = buf.length := ⟨_, rfl, by omega⟩
      have hdone : ¬ w + k < buf.length := by omega
      rw [List.nil_append, writeSocket, if_pos hlt]
      simp only [hk]
      rw [writeSocket_done hdone]
      exact ⟨rfl, .full hkw⟩
  | cons y pre ih =>
    obtain ⟨hgoal, hy, hlast⟩ := Loop.last_cons.1 h
    have hlt : w < buf.length := by omega
    cases y with
    | fail errno =>
      have hretry : Retryable errno := not_not.1 hy
      have hcount : WriteResult.loop.count (.fail errno) = -1 := rfl
      rw [hcount, show buf.length - w - -1 = buf.length - (w - 1) by omega] at hlast
      have hgo : ¬ (errno ≠ eagain ∧ errno ≠ eintr) := fun hno => hretry.elim hno.1 hno.2
      obtain ⟨hwrites, hres⟩ := @ih _ wire (outside || decide (w < 0)) hlast
      rw [List.cons_append, writeSocket, if_pos hlt]
      simp only [if_neg hgo]
      exact ⟨hwrites, hres.fail hlt⟩
    | bytes n =>
      obtain ⟨k, hk, hpos⟩ : ∃ k, max 1 n = k ∧ 0 < k := ⟨_, rfl, by omega⟩
      have hcount : WriteResult.loop.count (.bytes n) = k := congrArg Nat.cast hk
      rw [hcount, show buf.length - w - k = buf.length - (w + k) by omega] at hlast
      have hshort := (Loop.going_nil.1 (hlast.going.of_prefix List.nil_prefix))
      have hmin : min (max 1 n) (buf.length - w).toNat = k := by omega
      obtain ⟨hwrites, hres⟩ := @ih _ (wire ++ sliceAt buf w k) (outside || decide (w < 0)) hlast
      rw [List.cons_append, writeSocket, if_pos hlt]
      simp only [hmin]
      exact ⟨hwrites, hres.bytes hk (by omega)⟩

private theorem write_count_neg {x : WriteResult} : WriteResult.loop.count x < 0 ↔ x.failed = true := by
  cases x with
  | bytes n =>
    have hcount : WriteResult.loop.count (.bytes n) = (max 1 n : Nat) := rfl
    simp [hcount, WriteResult.failed]
  | fail errno => simp [WriteResult.loop, WriteResult.failed]

private theorem write_neg_one_le_count (x : WriteResult) : -1 ≤ WriteResult.loop.count x := by
  cases x with
  | bytes n =>
    have hcount : WriteResult.loop.count (.bytes n) = (max 1 n : Nat) := rfl
    omega
  | fail errno => exact le_rfl

/-- What `send_request` makes of a run of the write loop. -/
private theorem sendRequest_written {H : Heap} {w : World} {payload : Bytes} {res : Sent}
    (hok : H.ok .sendBuf (payload.length + 4) = true)
    (hpoll : waitResult .write (w.polls.headD (0, 0)).1 (w.polls.headD (0, 0)).2 = zkOk)
    (hres : writeSocket (lengthPrefix payload.length ++ payload) w.writes 0 w.wire false = res) :
    let r := w.sendRequest H payload
    r.2.wire = res.wire ∧ r.2.writes = res.writes ∧ (r.2.faults = w.faults ↔ res.outside = false) ∧
      (r.1 = zkOk ↔ res.status = zkOk) ∧ (res.status ≠ zkOk → r.1 = zkSocketErr ∧ r.2.client.lastErr = zkSocketErr) := by
  obtain ⟨status, wire, writes, outside⟩ := res
  simp only [World.sendRequest, World.nextPoll, hok, hpoll, hres]
  by_cases hstatus : status = zkOk
  · cases outside <;> simp [hstatus, World.fault]
  · have hne : status ≠ 0 := hstatus
    cases outside <;> simp [hne, World.fault, World.setErr]

/-- Without memory, or without a writable socket, nothing is written. -/
private theorem exactSend_nothing {payload : Bytes} {w : World} {r : Int × World} (hfaults : r.2.faults = w.faults)
    (hwrites : r.2.writes = w.writes) (herr : r.1 ≠ zkOk) : ExactSend payload w r := by
  refine ⟨fun h => absurd h herr, hfaults, fun pre x post heq _ hle => ?_⟩
  have hlen := congrArg List.length (hwrites.trans heq)
  simp only [List.length_append, List.length_cons] at hlen hle
  omega

/-- A run of `send_request` that writes is exact when it never is before the frame, and ends with an error if it retries
a write. -/
private theorem WriteLast.exact_iff {H : Heap} {payload : Bytes} {w : World} {pre post : List WriteResult}
    {x : WriteResult} {res : Sent} (hlast : WriteResult.loop.Last (payload.length + 4) pre x)
    (hsplit : w.writes = pre ++ x :: post) (hwrites : res.writes = post)
    (hlast' : WriteLast (lengthPrefix payload.length ++ payload) 0 pre x w.wire false res)
    (hok : H.ok .sendBuf (payload.length + 4) = true)
    (hpoll : waitResult .write (w.polls.headD (0, 0)).1 (w.polls.headD (0, 0)).2 = zkOk)
    (hres : writeSocket (lengthPrefix payload.length ++ payload) w.writes 0 w.wire false = res) :
    ExactSend payload w (w.sendRequest H payload) ↔
      (∀ p, p <+: pre → 0 ≤ WriteResult.loop.total p) ∧ ∀ y ∈ pre, y.failed → x.Fatal := by
  have hlen : (lengthPrefix payload.length ++ payload).length = payload.length + 4 := by
    rw [List.length_append, length_lengthPrefix]
    omega
  obtain ⟨hwire, hwrites', hfaults, hstatus, herr⟩ := sendRequest_written hok hpoll hres
  have hinside := hlast'.outside
  simp only [Int.zero_add, true_and] at hinside
  generalize w.sendRequest H payload = r at hwire hwrites' hfaults hstatus herr
  constructor
  · intro hex
    refine ⟨hinside.1 (hfaults.1 hex.inside), fun y hmem hy => ?_⟩
    by_contra hx
    -- more bytes than those of the frame have been accepted
    obtain ⟨hok', hlength⟩ := hlast'.ok hx
    have hfailed : 0 < pre.countP WriteResult.failed := List.countP_pos_iff.2 ⟨y, hmem, hy⟩
    have hframe := congrArg List.length (hwire.symm.trans (hex.whole (hstatus.2 hok')))
    rw [hlength, hlen, List.length_append, List.length_append, length_encode] at hframe
    omega
  · rintro ⟨htotal, hfail⟩
    refine ⟨fun hr => ?_, hfaults.2 (hinside.2 htotal), fun pre' y post' heq hfatal hle => ?_⟩
    · have hx : ¬ x.Fatal := by
        intro hx
        have hbad := (hlast'.fatal hx).symm.trans (hstatus.1 hr)
        cases hbad
      have hnone : pre.countP WriteResult.failed = 0 := by
        rw [List.countP_eq_zero]
        exact fun y hy hfailed => hx (hfail y hy hfailed)
      rw [hwire, hlast'.wire hx hnone le_rfl, ← lengthPrefix_eq]
      rfl
    · rw [hwrites', hwrites] at hle ⊢
      rcases split_compare (hsplit.symm.trans heq) hle with hbefore | ⟨-, rfl, rfl⟩
      · exact absurd hfatal ((hlast.going _ List.prefix_rfl).2 y (hbefore.subset (by simp)))
      · obtain ⟨hr, hlastErr⟩ := herr (by rw [hlast'.fatal hfatal]; decide)
        exact ⟨hr, hlastErr, rfl⟩

/-- `send_request` is exact unless a write is retried before it is through; then bytes have to come before it that make
up for it, and an error has to end `send_request` before as many bytes are accepted as it waits for. -/
theorem World.sendRequest_exact_iff (H : Heap) (payload : Bytes) (s : Sink) :
    ExactSend payload s.world (s.world.sendRequest H payload) ↔
      (H.ok .sendBuf (payload.length + 4) →
        waitResult .write (s.world.polls.headD (0, 0)).1 (s.world.polls.headD (0, 0)).2 = zkOk →
        ∀ pre x post, s.world.writes = pre ++ x :: post → x.failed → ¬ x.Fatal →
          WriteResult.loop.Going (payload.length + 4) pre →
          0 < WriteResult.loop.total pre ∧ ¬ WriteResult.loop.Reaches (payload.length + 4) s.world.writes) := by
  obtain ⟨w, hends⟩ := s
  dsimp only
  by_cases hok : H.ok .sendBuf (payload.length + 4) = true
  swap
  · have hsend : w.sendRequest H payload = (zkError, w.setErr zkError) := if_pos hok
    rw [hsend]
    exact ⟨fun _ h => absurd h hok, fun _ => exactSend_nothing rfl rfl (by simp)⟩
  by_cases hpoll : waitResult .write (w.polls.headD (0, 0)).1 (w.polls.headD (0, 0)).2 = zkOk
  swap
  · have hsend : w.sendRequest H payload = (zkSocketErr, w.nextPoll.2.setErr zkSocketErr) :=
      (if_neg (not_not.2 hok)).trans (if_pos hpoll)
    rw [hsend]
    exact ⟨fun _ _ h => absurd h hpoll, fun _ => exactSend_nothing rfl rfl (by simp)⟩
  simp only [hok, hpoll, true_imp_iff]
  have hlen : (lengthPrefix payload.length ++ payload).length = payload.length + 4 := by
    rw [List.length_append, length_lengthPrefix]
    omega
  obtain ⟨x₀, hmem, hfatal₀⟩ := hends
  obtain ⟨pre, x, post, hsplit, hlast⟩ := Loop.exists_last (L := WriteResult.loop)
    (show 0 < ((payload.length : Int) + 4) by omega) ⟨x₀, hmem, hfatal₀⟩
  obtain ⟨hwrites, hlast'⟩ := @writeSocket_last (lengthPrefix payload.length ++ payload) 0 pre post x w.wire false
    (by rwa [hlen, Int.sub_zero, Nat.cast_add])
  have hretried := hlast.retried_iff (R := fun _ => True) write_neg_one_le_count post
  simp only [write_count_neg, true_and] at hretried
  rw [← hsplit] at hwrites hlast' hretried
  exact (hlast'.exact_iff hlast hsplit hwrites hok hpoll rfl).trans hretried.symm

/-- A frame of five bytes for which the socket has no room at first: one byte of it is sent twice. -/
theorem World.sendRequest_repeats_byte :
    ¬ ∀ (H : Heap) (payload : Bytes) (s : Sink), ExactSend payload s.world (s.world.sendRequest H payload) := by
  intro hall
  let w : World := { World.idle (initClient [] 60 3 0 0 0) with
    polls := [(1, pollout)], writes := [.bytes 3, .fail eagain, .bytes 3, .fail einval] }
  let s : Sink := { world := w, ends := ⟨.fail einval, by decide, show ¬ Retryable einval by decide⟩ }
  exact absurd ((hall .plenty [7] s).whole (by decide)) (by decide)

end ZkClient
