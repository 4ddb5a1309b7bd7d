import ZkClient.Commands

/-!
# Blocks of characters

`Block` records the indices written as well as the cells, so that a write outside a block can be told.  `memcpy` is
`Block.copy`; the blocks of this program are filled from the left and get a terminator behind the last character.
-/

namespace ZkClient

/-- `char b[n]` or `malloc(n)`. -/
def Block.fresh (n : Nat) : Block := { cells := List.replicate n none, writes := [] }

/-- `memcpy(b + start, src, ..)`. -/
def Block.copy (b : Block) (start : Nat) : Bytes → Block
  | [] => b
  | c :: src => (b.write start c).copy (start + 1) src

/-- Every write is inside the block. -/
def Block.Inside (b : Block) : Prop := ∀ i ∈ b.writes, 0 ≤ i ∧ i < b.cells.length

instance (b : Block) : Decidable b.Inside := inferInstanceAs (Decidable (∀ _ ∈ _, _))

variable {b : Block} {start : Nat} {src : Bytes}

@[simp] theorem writes_write (i : Int) (c : UInt8) : (b.write i c).writes = i :: b.writes := rfl

@[simp] theorem length_write (i : Int) (c : UInt8) : (b.write i c).cells.length = b.cells.length := by
  unfold Block.write
  dsimp only
  split
  · exact List.length_set
  · rfl

@[simp] theorem length_copy : (b.copy start src).cells.length = b.cells.length := by
  induction src generalizing b start with
  | nil => rfl
  | cons c src ih => rw [Block.copy, ih, length_write]

theorem mem_writes_copy {i : Int} :
    i ∈ (b.copy start src).writes ↔ i ∈ b.writes ∨ (start ≤ i ∧ i < start + src.length) := by
  induction src generalizing b start with
  | nil =>
    rw [Block.copy, List.length_nil]
    constructor
    · exact .inl
    · rintro (h | ⟨hle, hlt⟩)
      · exact h
      · omega
  | cons c src ih =>
    rw [Block.copy, ih, writes_write, List.mem_cons, List.length_cons]
    constructor
    · rintro ((rfl | h) | ⟨hle, hlt⟩)
      · exact .inr (by omega)
      · exact .inl h
      · exact .inr (by omega)
    · rintro (h | ⟨hle, hlt⟩)
      · exact .inl (.inr h)
      · by_cases hi : i = start
        · exact .inl (.inl hi)
        · exact .inr (by omega)

/-- A write replaces the cell at its index. -/
theorem cells_write {left right : List (Option UInt8)} {old : Option UInt8} (hb : b.cells = left ++ old :: right)
    (c : UInt8) :
    (b.write left.length c).cells = left ++ some c :: right := by
  unfold Block.write
  dsimp only
  rw [if_pos (by omega), hb, Int.toNat_natCast, List.set_append_right _ _ le_rfl, Nat.sub_self, List.set_cons_zero]

/-- A copy replaces the cells from its start on. -/
theorem cells_copy {left mid right : List (Option UInt8)} (hb : b.cells = left ++ mid ++ right)
    (hmid : mid.length = src.length) : (b.copy left.length src).cells = left ++ src.map some ++ right := by
  induction src generalizing b left mid with
  | nil =>
    rw [List.eq_nil_of_length_eq_zero hmid] at hb
    rw [Block.copy, hb]
    rfl
  | cons c src ih =>
    obtain ⟨old, mid, rfl⟩ : ∃ old rest, mid = old :: rest := List.exists_cons_of_length_eq_add_one hmid
    have hhead : b.cells = left ++ old :: (mid ++ right) := by simp [hb]
    have htail : (b.write left.length c).cells = left ++ [some c] ++ mid ++ right := by simp [cells_write hhead c]
    have hrest := ih htail (Nat.succ.inj hmid)
    rw [List.length_append, List.length_singleton] at hrest
    rw [Block.copy, hrest, List.map_cons, List.append_assoc, List.append_assoc, List.append_assoc]
    rfl

theorem cells_fresh {n k : Nat} (hk : k < n) :
    (Block.fresh n).cells = List.replicate k none ++ none :: List.replicate (n - k - 1) none := by
  rw [← List.replicate_succ, List.replicate_append_replicate]
  show List.replicate n none = _
  congr 1
  omega

/-- A block that begins with the characters of `s` and a NUL holds the string `s`. -/
theorem string_of_cells {H : Heap} {s : Bytes} {right : List (Option UInt8)} (hb : b.cells = s.map some ++ some 0 :: right)
    (hs : 0 ∉ s) : b.string H = s := by
  have hcells : (List.range b.cells.length).map (fun i => ((b.cells[i]?).join).getD (H.junk i)) = s ++ 0 ::
      (List.range right.length).map fun i => ((right[i]?).join).getD (H.junk (s.length + (i + 1))) := by
    apply List.ext_getElem
    · simp [hb]
    · intro i hi hi'
      simp only [List.getElem_map, List.getElem_range, hb]
      by_cases hlt : i < s.length
      · rw [List.getElem?_append_left (by simpa using hlt), List.getElem_append_left hlt, List.getElem?_map,
          List.getElem?_eq_getElem hlt]
        rfl
      · obtain ⟨k, rfl⟩ : ∃ k, i = s.length + k := ⟨i - s.length, by omega⟩
        rw [List.getElem?_append_right (by simp), List.getElem_append_right (by omega)]
        simp only [List.length_map, Nat.add_sub_cancel_left]
        cases k with
        | zero => rfl
        | succ k => simp
  rw [Block.string, hcells]
  exact (cstring_append hs _).trans (List.append_nil s)

theorem copy_append {src' : Bytes} : b.copy start (src ++ src') = (b.copy start src).copy (start + src.length) src' := by
  induction src generalizing b start with
  | nil => rfl
  | cons c src ih =>
    rw [List.cons_append, Block.copy, Block.copy, ih, List.length_cons, Nat.add_right_comm, Nat.add_assoc]

/-! ### A string at the beginning of a block -/

/-- The string `s` with a terminator in a new block of `n` characters. -/
def Block.place (n : Nat) (s : Bytes) : Block := ((Block.fresh n).copy 0 s).write s.length 0

variable {n : Nat} {s : Bytes}

theorem mem_writes_place {i : Int} : i ∈ (Block.place n s).writes ↔ 0 ≤ i ∧ i ≤ s.length := by
  rw [Block.place, writes_write, List.mem_cons, mem_writes_copy]
  constructor
  · rintro (rfl | h | h)
    · omega
    · cases h
    · omega
  · intro h
    by_cases hi : i = s.length
    · exact .inl hi
    · exact .inr (.inr (by omega))

theorem length_place : (Block.place n s).cells.length = n := by
  rw [Block.place, length_write, length_copy, Block.fresh, List.length_replicate]

theorem inside_place : (Block.place n s).Inside ↔ s.length < n := by
  unfold Block.Inside
  rw [length_place]
  constructor
  · intro hinside
    have := hinside s.length (mem_writes_place.2 (by omega))
    omega
  · intro hlt i hi
    have := mem_writes_place.1 hi
    omega

theorem cells_place (hfits : s.length < n) :
    (Block.place n s).cells = s.map some ++ some 0 :: List.replicate (n - s.length - 1) none := by
  have hfresh : (Block.fresh n).cells =
      [] ++ List.replicate s.length none ++ none :: List.replicate (n - s.length - 1) none := by
    rw [List.nil_append, cells_fresh hfits]
  have hcopy : ((Block.fresh n).copy ([] : List (Option UInt8)).length s).cells = _ :=
    cells_copy hfresh List.length_replicate
  have hwrite := cells_write hcopy 0
  rw [List.nil_append, List.length_map] at hwrite
  exact hwrite

theorem string_place {H : Heap} (h0 : 0 ∉ s) (hfits : s.length < n) : (Block.place n s).string H = s :=
  string_of_cells (cells_place hfits) h0

end ZkClient
