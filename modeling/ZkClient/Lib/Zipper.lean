import Mathlib.Data.List.Basic

/-!
# A list with a cursor

`Zipper` is a list with a place in it, in two halves that meet at the cursor.  Its operations are those of a line editor.

In memory such a list is a block, with the number of the cells in use and the index of the cursor, and behind the cells
in use there is an end mark.  `Zipper.Held` says that a block holds a zipper.  `Cells.store` and `Cells.move` are what is
done to blocks, and for each operation there is a lemma with the steps that carry it out.
-/

namespace Cells

variable {α : Type}

/-- Write the item into the cell `i`. -/
def store (i : Nat) (a : α) (cells : List α) : List α := cells.set i a

/-- `memmove`: `n` cells from `src` on are copied to `dst` and on. -/
def move (dst src n : Nat) (cells : List α) : List α :=
  cells.take dst ++ (cells.drop src).take n ++ cells.drop (dst + n)

@[simp] theorem length_store (i : Nat) (a : α) (cells : List α) : (store i a cells).length = cells.length :=
  List.length_set

theorem length_move {cells : List α} {dst src n : Nat} (hdst : dst + n ≤ cells.length) (hsrc : src + n ≤ cells.length) :
    (move dst src n cells).length = cells.length := by
  simp only [move, List.length_append, List.length_take, List.length_drop]
  omega

end Cells

/-- The items before the cursor, nearest first, and those behind it. -/
structure Zipper (α : Type) where
  before : List α
  behind : List α
  deriving DecidableEq, Repr

namespace Zipper

open Cells

variable {α : Type}

/-- All items in their order. -/
def items (z : Zipper α) : List α := z.before.reverse ++ z.behind

/-- The cursor behind the last item. -/
def ofList (xs : List α) : Zipper α := ⟨xs.reverse, []⟩

def insert (a : α) (z : Zipper α) : Zipper α := ⟨a :: z.before, z.behind⟩

def left : Zipper α → Zipper α
  | ⟨a :: l, r⟩ => ⟨l, a :: r⟩
  | z => z

def right : Zipper α → Zipper α
  | ⟨l, a :: r⟩ => ⟨a :: l, r⟩
  | z => z

def home (z : Zipper α) : Zipper α := ⟨[], z.items⟩

def last (z : Zipper α) : Zipper α := ofList z.items

/-- Remove the item behind the cursor. -/
def delete (z : Zipper α) : Zipper α := ⟨z.before, z.behind.tail⟩

/-- Remove the item before the cursor. -/
def backspace (z : Zipper α) : Zipper α := ⟨z.before.tail, z.behind⟩

/-- Remove what lies before the cursor, back over the items with `p` and then over those without. -/
def deleteWord (p : α → Bool) (z : Zipper α) : Zipper α := ⟨(z.before.dropWhile p).dropWhile (! p ·), z.behind⟩

/-- Remove what is behind the cursor. -/
def kill (z : Zipper α) : Zipper α := ⟨z.before, []⟩

/-- Swap the items on both sides of the cursor and go on, but not behind the last item. -/
def swap : Zipper α → Zipper α
  | ⟨a :: l, [b]⟩ => ⟨b :: l, [a]⟩
  | ⟨a :: l, b :: r⟩ => ⟨a :: b :: l, r⟩
  | z => z

@[simp] theorem items_ofList (xs : List α) : (ofList xs).items = xs := by simp [items, ofList]

@[simp] theorem items_left (z : Zipper α) : z.left.items = z.items := by
  obtain ⟨_ | ⟨a, l⟩, r⟩ := z <;> simp [left, items]

@[simp] theorem items_right (z : Zipper α) : z.right.items = z.items := by
  obtain ⟨l, _ | ⟨a, r⟩⟩ := z <;> simp [right, items]

@[simp] theorem items_home (z : Zipper α) : z.home.items = z.items := by simp [home, items]

@[simp] theorem items_last (z : Zipper α) : z.last.items = z.items := items_ofList _

theorem items_swap (z : Zipper α) : z.swap.items.Perm z.items := by
  obtain ⟨_ | ⟨a, l⟩, _ | ⟨b, _ | ⟨c, r⟩⟩⟩ := z <;> simp only [swap, items, List.Perm.refl]
  · simp only [List.reverse_cons, List.append_assoc, List.cons_append, List.nil_append]
    exact (List.Perm.swap a b []).append_left _
  · simp only [List.reverse_cons, List.append_assoc, List.cons_append, List.nil_append]
    exact (List.Perm.swap a b _).append_left _

theorem left_of_before {z : Zipper α} (h : z.before = []) : z.left = z := by
  obtain ⟨l, r⟩ := z
  obtain rfl : l = [] := h
  rfl

theorem right_of_behind {z : Zipper α} (h : z.behind = []) : z.right = z := by
  obtain ⟨l, r⟩ := z
  obtain rfl : r = [] := h
  rfl

theorem home_of_before {z : Zipper α} (h : z.before = []) : z.home = z := by
  obtain ⟨l, r⟩ := z
  obtain rfl : l = [] := h
  rfl

theorem last_of_behind {z : Zipper α} (h : z.behind = []) : z.last = z := by
  obtain ⟨l, r⟩ := z
  obtain rfl : r = [] := h
  simp [last, ofList, items]

theorem delete_of_behind {z : Zipper α} (h : z.behind = []) : z.delete = z := by
  obtain ⟨l, r⟩ := z
  obtain rfl : r = [] := h
  rfl

theorem backspace_of_before {z : Zipper α} (h : z.before = []) : z.backspace = z := by
  obtain ⟨l, r⟩ := z
  obtain rfl : l = [] := h
  rfl

theorem swap_of_nil {z : Zipper α} (h : z.before = [] ∨ z.behind = []) : z.swap = z := by
  obtain ⟨_ | ⟨a, l⟩, _ | ⟨b, r⟩⟩ := z <;> simp_all [swap]

theorem length_items (z : Zipper α) : z.items.length = z.before.length + z.behind.length := by simp [items]

/-! ### Blocks -/

/-- The block holds the items of the zipper and the end mark behind them, and its cursor is that of the zipper. -/
structure Held (mark : α) (cells : List α) (pos len : Nat) (z : Zipper α) : Prop where
  cells : ∃ rest, cells = z.items ++ mark :: rest
  pos : pos = z.before.length
  len : len = z.items.length

variable {mark : α} {cells : List α} {pos len : Nat} {z : Zipper α}

private theorem store_append (xs rest : List α) (a b : α) {i : Nat} (hi : i = xs.length) :
    store i a (xs ++ b :: rest) = xs ++ a :: rest := by
  subst hi
  simp [store]

/-- Cells are moved to the left, over a gap; the gap is behind them then. -/
private theorem move_left (xs gap ys rest : List α) {dst src : Nat} (hdst : dst = xs.length)
    (hsrc : src = xs.length + gap.length) :
    ∃ gap' : List α, gap'.length = gap.length ∧
      move dst src ys.length (xs ++ gap ++ ys ++ rest) = xs ++ ys ++ gap' ++ rest := by
  subst hdst hsrc
  refine ⟨(gap ++ ys).drop ys.length, by simp, ?_⟩
  have hfrom : (xs ++ gap ++ ys ++ rest).drop (xs.length + gap.length) = ys ++ rest := by
    rw [List.append_assoc (xs ++ gap), ← List.length_append, List.drop_left]
  have hto : (xs ++ gap ++ ys ++ rest).take xs.length = xs := by
    rw [List.append_assoc (xs ++ gap), List.append_assoc xs, List.take_left]
  have hbehind : (xs ++ gap ++ ys ++ rest).drop (xs.length + ys.length) = (gap ++ ys).drop ys.length ++ rest := by
    rw [← List.drop_drop, List.append_assoc xs, List.append_assoc xs, List.drop_left,
      List.drop_append_of_le_length (by simp)]
  rw [move, hfrom, hto, hbehind, List.take_left, List.append_assoc (xs ++ ys)]

/-- Cells are moved to the right, over a gap; the gap is before them then. -/
private theorem move_right (xs ys gap rest : List α) {dst src : Nat} (hdst : dst = xs.length + gap.length)
    (hsrc : src = xs.length) :
    ∃ gap' : List α, gap'.length = gap.length ∧
      move dst src ys.length (xs ++ ys ++ gap ++ rest) = xs ++ gap' ++ ys ++ rest := by
  subst hdst hsrc
  refine ⟨(ys ++ gap).take gap.length, by simp, ?_⟩
  have hfrom : (xs ++ ys ++ gap ++ rest).drop xs.length = ys ++ (gap ++ rest) := by
    rw [List.append_assoc (xs ++ ys), List.append_assoc xs, List.drop_left]
  have hto : (xs ++ ys ++ gap ++ rest).take (xs.length + gap.length) = xs ++ (ys ++ gap).take gap.length := by
    rw [List.append_assoc xs, List.append_assoc xs, List.take_append, List.take_of_length_le (by omega),
      Nat.add_sub_cancel_left, List.take_append_of_le_length (by simp)]
  have hbehind : (xs ++ ys ++ gap ++ rest).drop (xs.length + gap.length + ys.length) = rest := by
    rw [show xs.length + gap.length + ys.length = (xs ++ ys ++ gap).length by simp; omega, List.drop_left]
  rw [move, hfrom, hto, hbehind, List.take_left]

/-! ### The operations in a block -/

namespace Held

theorem lt_length (h : Held mark cells pos len z) : len < cells.length := by
  obtain ⟨rest, hcells⟩ := h.cells
  simp [hcells, h.len]

theorem pos_le (h : Held mark cells pos len z) : pos ≤ len := by
  rw [h.pos, h.len, length_items]
  omega

private theorem halves {l r : List α} (h : Held mark cells pos len ⟨l, r⟩) :
    ∃ rest, cells = l.reverse ++ r ++ mark :: rest ∧ pos = l.length ∧ len = l.length + r.length := by
  obtain ⟨rest, hcells⟩ := h.cells
  exact ⟨rest, hcells, h.pos, h.len.trans (length_items _)⟩

private theorem of_halves {l r : List α} (rest : List α) (hcells : cells = l.reverse ++ r ++ mark :: rest) (hpos : pos = l.length)
    (hlen : len = l.length + r.length) : Held mark cells pos len ⟨l, r⟩ :=
  ⟨⟨rest, hcells⟩, hpos, hlen.trans (length_items ⟨l, r⟩).symm⟩

/-- Any items with the end mark behind them. -/
theorem ofList {xs : List α} (h : ∃ rest, cells = xs ++ mark :: rest) :
    Held mark cells xs.length xs.length (ofList xs) where
  cells := by simpa using h
  pos := by simp [Zipper.ofList]
  len := by simp

/-- The cursor is moved. -/
theorem moved {z' : Zipper α} {pos' : Nat} (h : Held mark cells pos len z) (hitems : z'.items = z.items)
    (hpos : pos' = z'.before.length) : Held mark cells pos' len z' :=
  ⟨by rw [hitems]; exact h.cells, hpos, by rw [hitems]; exact h.len⟩

/-- Nothing is behind the cursor. -/
theorem behind_eq_nil (h : Held mark cells pos len z) (hlast : pos = len) : z.behind = [] := by
  have hlen := h.len
  rw [length_items, ← h.pos] at hlen
  exact List.eq_nil_of_length_eq_zero (by omega)

theorem before_eq_nil (h : Held mark cells pos len z) (hfirst : pos = 0) : z.before = [] :=
  List.eq_nil_of_length_eq_zero (h.pos ▸ hfirst)

/-- The cells on both sides of the cursor. -/
theorem getD_around {a b : α} {l r : List α} (h : Held mark cells pos len z) (ha : z.before = a :: l)
    (hb : z.behind = b :: r) (d : α) : cells.getD (pos - 1) d = a ∧ cells.getD pos d = b := by
  obtain ⟨rest, hcells⟩ := h.cells
  have hpos := h.pos
  rw [ha, List.length_cons] at hpos
  rw [hcells, hpos, items, ha, hb]
  simp

theorem left (h : Held mark cells pos len z) : Held mark cells (pos - 1) len z.left := by
  refine h.moved (items_left z) ?_
  rw [h.pos]
  obtain ⟨_ | ⟨a, l⟩, r⟩ := z <;> rfl

theorem right (h : Held mark cells pos len z) (hbehind : pos ≠ len) : Held mark cells (pos + 1) len z.right := by
  refine h.moved (items_right z) ?_
  obtain ⟨l, _ | ⟨a, r⟩⟩ := z
  · exact absurd (by rw [h.pos, h.len, length_items]; rfl) hbehind
  · exact congrArg (· + 1) h.pos

theorem home (h : Held mark cells pos len z) : Held mark cells 0 len z.home := h.moved (items_home z) rfl

theorem last (h : Held mark cells pos len z) : Held mark cells len len z.last :=
  h.moved (items_last z) (by rw [h.len]; simp [Zipper.last, Zipper.ofList])

/-- An item is put behind the last one. -/
theorem append (h : Held mark cells pos len z) (hlast : len = pos) (hroom : len + 1 < cells.length) (a : α) :
    Held mark (store (len + 1) mark (store pos a cells)) (pos + 1) (len + 1) (z.insert a) := by
  obtain ⟨l, r⟩ := z
  obtain ⟨rest, hcells, hpos, hlen⟩ := h.halves
  obtain rfl : r = [] := List.eq_nil_of_length_eq_zero (by omega)
  obtain ⟨old, rest, rfl⟩ : ∃ old rest', rest = old :: rest' := by
    refine List.exists_cons_of_ne_nil fun hnil => ?_
    simp [hcells, hnil] at hroom
    omega
  rw [List.append_nil] at hcells
  have hitem : store pos a cells = (l.reverse ++ [a]) ++ old :: rest := by
    rw [hcells, store_append _ _ _ _ (by simp [hpos])]
    simp
  have hmark : store (len + 1) mark (store pos a cells) = (l.reverse ++ [a]) ++ mark :: rest := by
    rw [hitem, store_append _ _ _ _ (by simp [hlen])]
  exact of_halves rest (by simp [hmark]) (by simp [hpos]) (by simp [hlen])

/-- An item is put at the cursor, after what is behind the cursor has been moved. -/
theorem insert (h : Held mark cells pos len z) (hroom : len + 1 < cells.length) (a : α) :
    Held mark (store (len + 1) mark (store pos a (move (pos + 1) pos (len - pos) cells))) (pos + 1) (len + 1)
      (z.insert a) := by
  obtain ⟨l, r⟩ := z
  obtain ⟨rest, hcells, hpos, hlen⟩ := h.halves
  obtain ⟨old, rest, rfl⟩ : ∃ old rest', rest = old :: rest' := by
    refine List.exists_cons_of_ne_nil fun hnil => ?_
    simp [hcells, hnil] at hroom
    omega
  obtain ⟨gap, hgap, hmove⟩ := move_right l.reverse r [mark] (old :: rest)
    (show pos + 1 = l.reverse.length + 1 by simp [hpos]) (show pos = l.reverse.length by simp [hpos])
  obtain ⟨g, rfl⟩ := List.length_eq_one_iff.1 hgap
  have hmoved : move (pos + 1) pos (len - pos) cells = l.reverse ++ g :: (r ++ old :: rest) := by
    rw [hcells, show len - pos = r.length by omega]
    simpa using hmove
  have hitem : store pos a (move (pos + 1) pos (len - pos) cells) = (l.reverse ++ a :: r) ++ old :: rest := by
    rw [hmoved, store_append _ _ _ _ (by simp [hpos])]
    simp
  rw [hitem, store_append _ _ _ _ (by simp [hlen]; omega)]
  exact of_halves rest (by simp) (by simp [hpos]) (by simp [hlen]; omega)

/-- What is behind the item at the cursor is moved over it. -/
theorem delete (h : Held mark cells pos len z) (hbehind : pos < len) :
    Held mark (store (len - 1) mark (move pos (pos + 1) (len - pos - 1) cells)) pos (len - 1) z.delete := by
  obtain ⟨l, r⟩ := z
  obtain ⟨rest, hcells, hpos, hlen⟩ := h.halves
  obtain ⟨b, r, rfl⟩ : ∃ b r', r = b :: r' := by
    refine List.exists_cons_of_ne_nil fun hnil => ?_
    rw [hnil, List.length_nil] at hlen
    omega
  rw [List.length_cons] at hlen
  obtain ⟨gap, hgap, hmove⟩ := move_left l.reverse [b] r (mark :: rest)
    (show pos = l.reverse.length by simp [hpos]) (show pos + 1 = l.reverse.length + 1 by simp [hpos])
  obtain ⟨g, rfl⟩ := List.length_eq_one_iff.1 hgap
  have hmoved : move pos (pos + 1) (len - pos - 1) cells = (l.reverse ++ r) ++ g :: mark :: rest := by
    rw [hcells, show len - pos - 1 = r.length by omega]
    simpa using hmove
  rw [hmoved, store_append _ _ _ _ (by simp [hlen])]
  exact of_halves (mark :: rest) (by simp) hpos (by simp; omega)

/-- What is behind the cursor is moved over the item before it. -/
theorem backspace (h : Held mark cells pos len z) (hbefore : 0 < pos) :
    Held mark (store (len - 1) mark (move (pos - 1) pos (len - pos) cells)) (pos - 1) (len - 1) z.backspace := by
  obtain ⟨_ | ⟨a, l⟩, r⟩ := z
  · exact absurd h.pos (Nat.ne_of_gt hbefore)
  obtain ⟨rest, hcells, hpos, hlen⟩ := h.halves
  rw [List.length_cons] at hpos hlen
  obtain ⟨gap, hgap, hmove⟩ := move_left l.reverse [a] r (mark :: rest)
    (show pos - 1 = l.reverse.length by simp [hpos]) (show pos = l.reverse.length + 1 by simp [hpos])
  obtain ⟨g, rfl⟩ := List.length_eq_one_iff.1 hgap
  have hmoved : move (pos - 1) pos (len - pos) cells = (l.reverse ++ r) ++ g :: mark :: rest := by
    rw [hcells, show len - pos = r.length by omega]
    simpa using hmove
  rw [hmoved, store_append _ _ _ _ (by simp [hlen])]
  show Held mark _ _ _ ⟨l, r⟩
  exact of_halves (mark :: rest) (by simp) (by omega) (by omega)

/-- What is behind the cursor is moved over the items between `pos'` and the cursor, together with the end mark. -/
theorem cut {n : Nat} (h : Held mark cells pos len z) (hn : n ≤ pos) :
    Held mark (move (pos - n) pos (len - pos + 1) cells) (pos - n) (len - n) ⟨z.before.drop n, z.behind⟩ := by
  obtain ⟨l, r⟩ := z
  obtain ⟨rest, hcells, hpos, hlen⟩ := h.halves
  have hsplit : l.reverse = (l.drop n).reverse ++ (l.take n).reverse := by
    rw [← List.reverse_append, List.take_append_drop]
  obtain ⟨gap, -, hmove⟩ := move_left (l.drop n).reverse (l.take n).reverse (r ++ [mark]) rest
    (show pos - n = (l.drop n).reverse.length by simp [hpos])
    (show pos = (l.drop n).reverse.length + (l.take n).reverse.length by simp [hpos]; omega)
  have hmoved : move (pos - n) pos (len - pos + 1) cells = (l.drop n).reverse ++ r ++ mark :: (gap ++ rest) := by
    rw [hcells, hsplit, show len - pos + 1 = (r ++ [mark]).length by simp; omega]
    simpa using hmove
  exact of_halves (gap ++ rest) hmoved (by simp [hpos]) (by simp [hlen]; omega)

/-- The end mark is put at the cursor. -/
theorem kill (h : Held mark cells pos len z) : Held mark (store pos mark cells) pos pos z.kill := by
  obtain ⟨l, r⟩ := z
  obtain ⟨rest, hcells, hpos, -⟩ := h.halves
  obtain ⟨b, rest', hrest⟩ : ∃ b rest', r ++ mark :: rest = b :: rest' :=
    List.exists_cons_of_ne_nil (by simp)
  have hkill : store pos mark cells = l.reverse ++ mark :: rest' := by
    rw [hcells, List.append_assoc, hrest, store_append _ _ _ _ (by simp [hpos])]
  exact of_halves rest' (by simp [hkill]) hpos (by simp [hpos])

/-- The items on both sides of the cursor, each in the cell of the other. -/
theorem swap {a b : α} (h : Held mark cells pos len z) (ha : z.before.head? = some a) (hb : z.behind.head? = some b) :
    Held mark (store pos a (store (pos - 1) b cells)) (if pos = len - 1 then pos else pos + 1) len z.swap := by
  obtain ⟨_ | ⟨a', l⟩, _ | ⟨b', r⟩⟩ := z
  · cases ha
  · cases ha
  · cases hb
  obtain rfl : a' = a := Option.some.inj ha
  obtain rfl : b' = b := Option.some.inj hb
  obtain ⟨rest, hcells, hpos, hlen⟩ := h.halves
  rw [List.length_cons] at hpos hlen
  rw [List.length_cons] at hlen
  have hfirst : store (pos - 1) b' cells = (l.reverse ++ [b']) ++ b' :: (r ++ mark :: rest) := by
    rw [hcells]
    simpa using store_append l.reverse (b' :: (r ++ mark :: rest)) b' a' (show pos - 1 = _ by simp [hpos])
  have hsecond : store pos a' (store (pos - 1) b' cells) = l.reverse ++ b' :: a' :: (r ++ mark :: rest) := by
    rw [hfirst, store_append _ _ _ _ (by simp [hpos])]
    simp
  rw [hsecond]
  cases r with
  | nil =>
    rw [if_pos (by simp at hlen; omega)]
    exact of_halves rest (by simp) (by simp [hpos]) (by simp at hlen ⊢; omega)
  | cons c r =>
    rw [if_neg (by simp at hlen; omega)]
    exact of_halves rest (by simp) (by simp [hpos]) (by simp at hlen ⊢; omega)

end Held

end Zipper
