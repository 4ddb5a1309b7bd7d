import ZkClient.Drafts
import ZkClient.Linenoise

/-!
# Editing a line

The editor of `linenoise.c` keeps the line in a block of memory and the other lines in an array.  It shows a draft
(`Shows`), each key does to it what it does to the draft, and in the end it has read what the draft reads.  It does not
leave the block, when the prompt is shorter than a row of the terminal and the candidates for completion fit into the
block (`linenoise_reads`).
-/

namespace ZkClient

/-! ### The block holds the draft -/

/-- The editor shows the draft; a line has at most `n` characters. -/
structure Shows (n : Nat) (l : LinenoiseState) (d : Draft) : Prop where
  held : Zipper.Held 0 l.buf l.pos l.len d.line
  length : l.buf.length = n + 1
  buflen : l.buflen = n
  index : l.historyIndex = d.newer.length
  history : l.history = d.history
  strings : ∀ s ∈ d.history, 0 ∉ s
  asked : l.asked = d.asked
  inside : l.outside = false
  wide : l.prompt.length < l.cols

section Refresh

private theorem scroll_eq {plen cols n : Nat} {off len pos : Int} (hn : plen + pos < n + cols) :
    scroll plen cols n (off, len, pos) =
      (off + max 0 (plen + pos + 1 - cols), len - max 0 (plen + pos + 1 - cols), pos - max 0 (plen + pos + 1 - cols)) := by
  induction n generalizing off len pos with
  | zero =>
    have hnone : max 0 (plen + pos + 1 - cols) = 0 := max_eq_left (by omega)
    rw [scroll, hnone]
    simp
  | succ n ih =>
    unfold scroll
    split
    case isTrue hle =>
      have hone : max 0 ((plen : Int) + pos + 1 - cols) = max 0 (plen + (pos - 1) + 1 - cols) + 1 := by omega
      rw [ih (by omega), hone]
      simp only [Prod.mk.injEq]
      omega
    case isFalse hlt =>
      have hnone : max 0 ((plen : Int) + pos + 1 - cols) = 0 := max_eq_left (by omega)
      rw [hnone]
      simp

private theorem clip_eq {plen cols n : Nat} {len : Int} (hn : plen + len ≤ n + cols) :
    clip plen cols n len = min len (cols - plen) := by
  induction n generalizing len with
  | zero =>
    rw [clip]
    omega
  | succ n ih =>
    unfold clip
    split
    · rw [ih (by omega)]
      omega
    · omega

/-- What is written to the terminal is a part of the line around the cursor that fits into the row, and the cursor is put
into its column. -/
theorem refreshSingleLine_eq {l : LinenoiseState} (hpos : l.pos ≤ l.len) (hlen : l.len ≤ l.buf.length)
    (hwide : l.prompt.length < l.cols) :
    let off := l.prompt.length + l.pos + 1 - l.cols
    refreshSingleLine l = { l with
      output := l.output ++ [[13] ++ l.prompt ++ (l.buf.drop off).take (min (l.len - off) (l.cols - l.prompt.length)) ++
        [27, 91, 48, 75] ++ [13, 27, 91] ++ Decimal.render (l.prompt.length + l.pos - off) ++ [67]] } := by
  intro off
  have hscroll : scroll l.prompt.length l.cols (l.prompt.length + l.pos) (0, l.len, l.pos) =
      ((off : Int), (l.len : Int) - off, (l.pos : Int) - off) := by
    rw [scroll_eq (by omega), show max 0 ((l.prompt.length : Int) + l.pos + 1 - l.cols) = off by omega, zero_add]
  have hclip : clip l.prompt.length l.cols (l.prompt.length + l.len) ((l.len : Int) - off) =
      (min (l.len - off) (l.cols - l.prompt.length) : Nat) := by
    rw [clip_eq (by omega)]
    omega
  have hcolumn : (l.pos : Int) - off + l.prompt.length = l.prompt.length + l.pos - off := by omega
  have hinside : ¬ (((min (l.len - off) (l.cols - l.prompt.length) : Nat) : Int) < 0 ∨
      (l.buf.length : Int) < off + (min (l.len - off) (l.cols - l.prompt.length) : Nat)) := by omega
  unfold refreshSingleLine
  simp only [hscroll, hclip, hcolumn, decide_eq_false hinside, Bool.or_false, Int.toNat_natCast]

variable {n : Nat} {l : LinenoiseState} {d : Draft}

theorem Shows.pos_le (h : Shows n l d) : l.pos ≤ l.len := h.held.pos_le

theorem Shows.len_le (h : Shows n l d) : l.len ≤ n := by
  have hlt := h.held.lt_length
  rw [h.length] at hlt
  omega

theorem Shows.refresh (h : Shows n l d) : Shows n (refreshSingleLine l) d := by
  have heq := refreshSingleLine_eq h.pos_le (by have := h.len_le; have := h.length; omega) h.wide
  rw [heq]
  exact { h with }

theorem Shows.write (h : Shows n l d) (bs : Bytes) : Shows n (l.write bs) d := { h with }

end Refresh

/-! ### Edits -/

section Edits

variable {n : Nat} {l : LinenoiseState} {d : Draft}

/-- The text is the string in the block, and the block has an end of it. -/
theorem Shows.text_eq (h : Shows n l d) : cstring l.buf = d.text ∧ 0 ∈ l.buf := by
  obtain ⟨rest, hbuf⟩ := h.held.cells
  rw [hbuf]
  refine ⟨?_, by simp⟩
  unfold Draft.text cstring
  generalize d.line.items = xs
  induction xs with
  | nil => simp
  | cons x xs ih =>
    rw [List.cons_append, List.takeWhile_cons, List.takeWhile_cons, ih]

/-- The block has its length, and nothing outside of a block has been touched. -/
private def Intact (n : Nat) (l : LinenoiseState) : Prop := l.buf.length = n + 1 ∧ l.outside = false

private theorem Shows.intact (h : Shows n l d) : Intact n l := ⟨h.length, h.inside⟩

private theorem Intact.store (h : Intact n l) {i : Nat} (hi : i ≤ n) (c : UInt8) : Intact n (l.store i c) := by
  constructor
  · simp only [LinenoiseState.store, Cells.length_store, h.1]
  · simp only [LinenoiseState.store, h.1, h.2, Bool.false_or]
    exact decide_eq_false (by omega)

private theorem Intact.memmove (h : Intact n l) {dst src k : Nat} (hdst : dst + k ≤ n + 1) (hsrc : src + k ≤ n + 1) :
    Intact n (l.memmove dst src k) := by
  constructor
  · simp only [LinenoiseState.memmove]
    rw [Cells.length_move (by rw [h.1]; exact hdst) (by rw [h.1]; exact hsrc), h.1]
  · simp only [LinenoiseState.memmove, h.1, h.2, Bool.false_or]
    exact decide_eq_false (by omega)

/-- Another line and another cursor in the block. -/
private theorem Shows.edited (h : Shows n l d) {l' : LinenoiseState} {z : Zipper UInt8}
    (hheld : Zipper.Held 0 l'.buf l'.pos l'.len z) (hintact : Intact n l')
    (hrest : l' = { l with buf := l'.buf, pos := l'.pos, len := l'.len, outside := l'.outside }) :
    Shows n l' { d with line := z } := by
  rw [hrest]
  exact { h with held := hheld, length := hintact.1, inside := hintact.2 }

/-- The cursor is moved. -/
private theorem Shows.moved (h : Shows n l d) {pos : Nat} {z : Zipper UInt8} (hheld : Zipper.Held 0 l.buf pos l.len z) :
    Shows n (refreshSingleLine { l with pos }) { d with line := z } := by
  have hedited : Shows n { l with pos } { d with line := z } := h.edited hheld h.intact rfl
  exact hedited.refresh

/-- The line stays as it is. -/
private theorem Shows.unmoved (h : Shows n l d) {z : Zipper UInt8} (hz : z = d.line) : Shows n l { d with line := z } := by
  rw [hz]
  exact h

theorem Shows.left (h : Shows n l d) : Shows n (linenoiseEditMoveLeft l) (d.edit n .left) := by
  unfold linenoiseEditMoveLeft
  split
  case isTrue hpos => exact h.moved h.held.left
  case isFalse hpos => exact h.unmoved (Zipper.left_of_before (h.held.before_eq_nil (by omega)))

theorem Shows.right (h : Shows n l d) : Shows n (linenoiseEditMoveRight l) (d.edit n .right) := by
  unfold linenoiseEditMoveRight
  split
  case isTrue hpos => exact h.moved (h.held.right hpos)
  case isFalse hpos => exact h.unmoved (Zipper.right_of_behind (h.held.behind_eq_nil (not_not.1 hpos)))

theorem Shows.home (h : Shows n l d) : Shows n (linenoiseEditMoveHome l) (d.edit n .home) := by
  unfold linenoiseEditMoveHome
  split
  case isTrue hpos => exact h.moved h.held.home
  case isFalse hpos => exact h.unmoved (Zipper.home_of_before (h.held.before_eq_nil (not_not.1 hpos)))

theorem Shows.last (h : Shows n l d) : Shows n (linenoiseEditMoveEnd l) (d.edit n .last) := by
  unfold linenoiseEditMoveEnd
  split
  case isTrue hpos => exact h.moved h.held.last
  case isFalse hpos => exact h.unmoved (Zipper.last_of_behind (h.held.behind_eq_nil (not_not.1 hpos)))

theorem Shows.delete (h : Shows n l d) : Shows n (linenoiseEditDelete l) (d.edit n .delete) := by
  have hpos := h.pos_le
  have hlen := h.len_le
  unfold linenoiseEditDelete
  split
  case isTrue hbehind =>
    have hmoved := h.intact.memmove (show l.pos + (l.len - l.pos - 1) ≤ n + 1 by omega)
      (show l.pos + 1 + (l.len - l.pos - 1) ≤ n + 1 by omega)
    refine Shows.refresh (h.edited (h.held.delete hbehind.2) ?_ rfl)
    exact hmoved.store (show l.len - 1 ≤ n by omega) 0
  case isFalse hlast => exact h.unmoved (Zipper.delete_of_behind (h.held.behind_eq_nil (by omega)))

theorem Shows.backspace (h : Shows n l d) : Shows n (linenoiseEditBackspace l) (d.edit n .backspace) := by
  have hpos := h.pos_le
  have hlen := h.len_le
  unfold linenoiseEditBackspace
  split
  case isTrue hbefore =>
    have hmoved := h.intact.memmove (show l.pos - 1 + (l.len - l.pos) ≤ n + 1 by omega)
      (show l.pos + (l.len - l.pos) ≤ n + 1 by omega)
    refine Shows.refresh (h.edited (h.held.backspace hbefore.1) ?_ rfl)
    exact hmoved.store (show l.len - 1 ≤ n by omega) 0
  case isFalse hfirst => exact h.unmoved (Zipper.backspace_of_before (h.held.before_eq_nil (by omega)))

theorem Shows.kill (h : Shows n l d) :
    Shows n (refreshSingleLine { l.store l.pos 0 with len := l.pos }) (d.edit n .kill) := by
  have hpos := h.pos_le
  have hlen := h.len_le
  refine Shows.refresh (h.edited h.held.kill ?_ rfl)
  exact h.intact.store (by omega) 0

/-- The first cell becomes the end of the string. -/
theorem Shows.clear (h : Shows n l d) :
    Shows n (refreshSingleLine { l.store 0 0 with pos := 0, len := 0 }) (d.edit n .clear) := by
  obtain ⟨c, rest, hbuf⟩ : ∃ c rest, l.buf = c :: rest := List.exists_cons_of_length_eq_add_one h.length
  have hheld : Zipper.Held 0 (Cells.store 0 0 l.buf) 0 0 ⟨[], []⟩ := ⟨⟨rest, by rw [hbuf]; rfl⟩, rfl, rfl⟩
  refine Shows.refresh (h.edited hheld ?_ rfl)
  exact h.intact.store (Nat.zero_le n) 0

theorem Shows.swap (h : Shows n l d) : Shows n (swapCharacters l) (d.edit n .swap) := by
  have hlen := h.len_le
  unfold swapCharacters
  split
  case isTrue hinner =>
    obtain ⟨a, before, ha⟩ : ∃ a before, d.line.before = a :: before := by
      refine List.exists_cons_of_ne_nil fun hnil => ?_
      have hpos := h.held.pos
      rw [hnil] at hpos
      exact absurd hpos (Nat.ne_of_gt hinner.1)
    obtain ⟨b, behind, hb⟩ : ∃ b behind, d.line.behind = b :: behind := by
      refine List.exists_cons_of_ne_nil fun hnil => ?_
      have hpos := h.held.pos
      have hlen := h.held.len
      rw [Zipper.length_items, hnil, List.length_nil] at hlen
      omega
    obtain ⟨hget, hgetb⟩ := h.held.getD_around ha hb 0
    have hheld := h.held.swap (congrArg List.head? ha) (congrArg List.head? hb)
    have hintact := (h.intact.store (show l.pos - 1 ≤ n by omega) b).store (show l.pos ≤ n by omega) a
    dsimp only
    rw [hget, hgetb]
    split
    case isTrue hne =>
      rw [if_neg (show ¬ l.pos = l.len - 1 from hne)] at hheld
      refine Shows.refresh (h.edited hheld ?_ rfl)
      exact hintact
    case isFalse heq =>
      rw [if_pos (show l.pos = l.len - 1 from not_not.1 heq)] at hheld
      refine Shows.refresh (h.edited hheld ?_ rfl)
      exact hintact
  case isFalse hend =>
    have hpos := h.pos_le
    have hnil : d.line.before = [] ∨ d.line.behind = [] := by
      by_cases hfirst : l.pos = 0
      · exact .inl (h.held.before_eq_nil hfirst)
      · exact .inr (h.held.behind_eq_nil (by omega))
    exact h.unmoved (Zipper.swap_of_nil hnil)

private theorem backWhile_eq {p : UInt8 → Bool} {xs rest : Bytes} :
    backWhile p (xs.reverse ++ rest) xs.length = (xs.dropWhile p).length := by
  induction xs generalizing rest with
  | nil => rfl
  | cons x xs ih =>
    have hx : ((x :: xs).reverse ++ rest).getD xs.length 0 = x := by simp
    have hrest : (x :: xs).reverse ++ rest = xs.reverse ++ (x :: rest) := by simp
    rw [List.length_cons, backWhile, hx, List.dropWhile_cons, hrest, ih]
    split <;> rfl

theorem Shows.deleteWord (h : Shows n l d) : Shows n (linenoiseEditDeletePrevWord l) (d.edit n .deleteWord) := by
  have hpos := h.pos_le
  have hlen := h.len_le
  have hword : backWhile (· ≠ 32) l.buf (backWhile (· = 32) l.buf l.pos) = (d.line.deleteWord (· = 32)).before.length := by
    obtain ⟨rest, hbuf⟩ := h.held.cells
    have hdrop : ∀ {p : UInt8 → Bool} {xs : Bytes}, xs <:+ d.line.before →
        backWhile p l.buf xs.length = (xs.dropWhile p).length := by
      rintro p xs ⟨ys, hys⟩
      rw [hbuf, Zipper.items, ← hys, List.reverse_append, List.append_assoc, List.append_assoc]
      exact backWhile_eq
    have hspaces : List.dropWhile (· = 32) d.line.before <:+ d.line.before := List.dropWhile_suffix _
    rw [h.held.pos, hdrop List.suffix_rfl, hdrop hspaces, Zipper.deleteWord]
    simp
  have hsuffix : (d.line.deleteWord (· = 32)).before <:+ d.line.before :=
    (List.dropWhile_suffix _).trans (List.dropWhile_suffix _)
  have hle : (d.line.deleteWord (· = 32)).before.length ≤ l.pos := h.held.pos ▸ hsuffix.length_le
  have hcut := h.held.cut (Nat.sub_le l.pos (d.line.deleteWord (· = 32)).before.length)
  rw [Nat.sub_sub_self hle, h.held.pos, ← List.suffix_iff_eq_drop.1 hsuffix, ← h.held.pos] at hcut
  have hmoved := h.intact.memmove
    (show (d.line.deleteWord (· = 32)).before.length + (l.len - l.pos + 1) ≤ n + 1 by omega)
    (show l.pos + (l.len - l.pos + 1) ≤ n + 1 by omega)
  have hread : decide (l.buf.length < l.pos) = false := decide_eq_false (by rw [h.length]; omega)
  unfold linenoiseEditDeletePrevWord
  dsimp only
  rw [hword, hread, Bool.or_false]
  refine Shows.refresh (h.edited hcut ?_ rfl)
  exact hmoved

theorem Shows.insert (h : Shows n l d) {tty : Nat → Bool} (htty : ∀ k, tty k = true) (c : UInt8) :
    (linenoiseEditInsert tty c l).1 = true ∧ Shows n (linenoiseEditInsert tty c l).2 (d.edit n (.insert c)) := by
  have hpos := h.pos_le
  have hlen := h.held.len
  unfold linenoiseEditInsert
  rw [h.buflen, Draft.edit_insert, ← hlen]
  split
  case isFalse hfull => exact ⟨rfl, h⟩
  case isTrue hroom =>
    have hspace : l.len + 1 < l.buf.length := by rw [h.length]; omega
    split
    case isTrue hlast =>
      have hintact := (h.intact.store (show l.pos ≤ n by omega) c).store (show l.len + 1 ≤ n by omega) 0
      have hshows : Shows n (LinenoiseState.store (l.len + 1) 0 { l.store l.pos c with pos := l.pos + 1, len := l.len + 1 })
          { d with line := d.line.insert c } := by
        refine h.edited (h.held.append hlast hspace c) ?_ rfl
        exact hintact
      dsimp only
      split
      · rw [if_pos (htty _)]
        exact ⟨rfl, { hshows with }⟩
      · exact ⟨rfl, hshows.refresh⟩
    case isFalse hinner =>
      have hmoved := h.intact.memmove (show l.pos + 1 + (l.len - l.pos) ≤ n + 1 by omega)
        (show l.pos + (l.len - l.pos) ≤ n + 1 by omega)
      have hintact := (hmoved.store (show l.pos ≤ n by omega) c).store (show l.len + 1 ≤ n by omega) 0
      refine ⟨rfl, Shows.refresh (h.edited (h.held.insert hspace c) ?_ rfl)⟩
      exact hintact

/-! ### History -/

/-- A string that is cut off at the last place, in a block that is filled up with zeros. -/
private theorem padded_eq (hn : 0 < n) (s tail : Bytes) :
    ∃ rest, Cells.store (n - 1) 0 (s.take n ++ List.replicate (n - s.length) 0 ++ tail) = s.take (n - 1) ++ 0 :: rest := by
  obtain ⟨k, rfl⟩ := Nat.exists_eq_succ_of_ne_zero hn.ne'
  rw [Nat.succ_eq_add_one, Nat.add_sub_cancel]
  by_cases hk : s.length ≤ k
  · have hpad : List.replicate (k + 1 - s.length) (0 : UInt8) = 0 :: List.replicate (k - s.length) 0 := by
      rw [show k + 1 - s.length = k - s.length + 1 by omega, List.replicate_succ]
    rw [List.take_of_length_le (by omega), List.take_of_length_le hk, hpad, List.append_assoc, Cells.store,
      List.set_append_right _ _ hk]
    generalize k - s.length = i
    cases i with
    | zero => exact ⟨_, rfl⟩
    | succ i => exact ⟨_, rfl⟩
  · have hlt : k < s.length := by omega
    rw [List.take_succ_eq_append_getElem hlt, show k + 1 - s.length = 0 by omega]
    refine ⟨tail, ?_⟩
    have hlen : (s.take k).length = k := List.length_take_of_le hlt.le
    rw [List.replicate_zero, List.append_nil, List.append_assoc, Cells.store,
      List.set_append_right _ _ (Nat.le_of_eq hlen), hlen, Nat.sub_self]
    rfl

/-- A string of the history in the block. -/
private theorem Shows.load (h : Shows n l d) (hn : 0 < n) {s : Bytes} (hs : 0 ∉ s) :
    Shows n (l.load s) { d with line := .ofList (s.take (n - 1)) } := by
  have htake : 0 ∉ s.take (n - 1) := fun hmem => hs (List.mem_of_mem_take hmem)
  obtain ⟨rest, hrest⟩ := padded_eq hn s (l.buf.drop n)
  have hbuf : (l.load s).buf = s.take (n - 1) ++ 0 :: rest := by
    rw [← hrest, ← h.buflen]
    rfl
  have hstrlen : strlen (l.load s).buf = (s.take (n - 1)).length := by
    show (cstring (l.load s).buf).length = _
    rw [hbuf, cstring_append htake]
    simp [cstring]
  have hheld := Zipper.Held.ofList ⟨rest, hbuf⟩
  rw [← hstrlen] at hheld
  have hpadded : Intact n { l with
      buf := s.take l.buflen ++ List.replicate (l.buflen - s.length) 0 ++ l.buf.drop l.buflen
      outside := l.outside || decide (l.buf.length < l.buflen) } := by
    constructor
    · simp [h.buflen, h.length]
      omega
    · simp [h.buflen, h.length, h.inside]
  refine h.edited hheld ?_ rfl
  exact hpadded.store (show l.buflen - 1 ≤ n by rw [h.buflen]; omega) 0

/-- The line is put into the array, in its place. -/
private theorem Shows.stash (h : Shows n l d) (hothers : 1 < l.history.length) :
    Shows n { l with
      history := l.history.set ((l.history.length : Int) - 1 - l.historyIndex).toNat (cstring l.buf)
      outside := l.outside || decide ((l.history.length : Int) - 1 - l.historyIndex < 0 ∨
        (l.history.length : Int) ≤ l.history.length - 1 - l.historyIndex ∨ 0 ∉ l.buf) } d.stash := by
  obtain ⟨htext, hmem⟩ := h.text_eq
  have hlen : l.history.length = d.older.length + 1 + d.newer.length := by
    rw [h.history, Draft.history, List.length_append, List.length_reverse, List.length_cons]
    omega
  have hne : ¬ (d.older = [] ∧ d.newer = []) := by
    rintro ⟨holder, hnewer⟩
    rw [holder, hnewer] at hlen
    exact absurd hothers (by rw [hlen]; decide)
  have hentry : (l.history.length : Int) - 1 - l.historyIndex = d.older.length := by
    rw [h.index, hlen]
    omega
  have hset : l.history.set d.older.length d.text = d.older.reverse ++ d.text :: d.newer := by
    rw [h.history, Draft.history, List.set_append_right _ _ (by simp)]
    simp
  rw [Draft.stash, if_neg hne, hentry, htext]
  refine { h with history := ?_, strings := ?_, inside := ?_ }
  · exact hset
  · intro s hs
    rcases List.mem_append.1 hs with hs | hs
    · exact h.strings s (List.mem_append_left _ hs)
    · rcases List.mem_cons.1 hs with rfl | hs
      · exact zero_not_mem_cstring _
      · exact h.strings s (List.mem_append_right _ (List.mem_cons_of_mem _ hs))
  · simp only [h.inside, Bool.false_or]
    refine decide_eq_false ?_
    rintro (hneg | hle | hmem')
    · omega
    · omega
    · exact hmem' hmem

private theorem Shows.length_history (h : Shows n l d) : l.history.length = d.older.length + 1 + d.newer.length := by
  rw [h.history, Draft.history, List.length_append, List.length_reverse, List.length_cons]
  omega

/-- With other lines the line is put into its place, and the index says what follows. -/
private theorem Shows.historyNext (h : Shows n l d) (hothers : 1 < l.history.length) (dir : Int) :
    ∃ l', Shows n l' d.stash ∧ linenoiseEditHistoryNext dir l =
      if l'.historyIndex + dir < 0 then { l' with historyIndex := 0 }
      else if l'.history.length ≤ l'.historyIndex + dir then { l' with historyIndex := l'.history.length - 1 }
      else refreshSingleLine ({ l' with historyIndex := l'.historyIndex + dir }.load
        (l'.history.getD (l'.history.length - 1 - (l'.historyIndex + dir)).toNat [])) := by
  refine ⟨_, h.stash hothers, ?_⟩
  rw [linenoiseEditHistoryNext, if_pos hothers]
  simp only [List.length_set]

/-- Another line of the history is taken. -/
private theorem Shows.turn {d' : Draft} (h : Shows n l d) (hn : 0 < n) {index : Int} {s : Bytes}
    (hindex : index = d'.newer.length) (hhistory : d'.history = d.history) (hasked : d'.asked = d.asked)
    (hs : d'.stored = s) (hline : d'.line = .ofList (s.take (n - 1))) :
    Shows n (refreshSingleLine ({ l with historyIndex := index }.load s)) d' := by
  have hmem : s ∈ d'.history := by simp [Draft.history, hs]
  have h' : Shows n { l with historyIndex := index } { d' with line := d.line } := by
    refine { h with index := hindex, history := ?_, strings := ?_, asked := ?_ }
    · exact h.history.trans hhistory.symm
    · exact fun s hs => h.strings s (hhistory ▸ hs)
    · exact h.asked.trans hasked.symm
  have hload := (h'.load hn (h.strings s (hhistory ▸ hmem))).refresh
  rw [← hline] at hload
  exact hload

theorem Shows.older (h : Shows n l d) (hn : 0 < n) : Shows n (linenoiseEditHistoryNext 1 l) (d.edit n .older) := by
  have hlen := h.length_history
  by_cases hothers : 1 < l.history.length
  · obtain ⟨l', h', heq⟩ := h.historyNext hothers 1
    have hlen' := h'.length_history
    have hindex := h'.index
    rw [heq, if_neg (by omega)]
    cases holder : d.older with
    | nil =>
      rw [Draft.older_stash, holder, List.length_nil] at hlen'
      rw [if_pos (by omega)]
      have hedit : d.edit n .older = d.stash := by simp only [Draft.edit, holder]
      rw [hedit]
      exact { h' with index := by simp only; omega }
    | cons s older =>
      have hstash : d.stash = { d with stored := d.text } := by simp [Draft.stash, holder]
      have hcount : d.stash.older.length = older.length + 1 := by simp [hstash, holder]
      rw [if_neg (by omega)]
      have hget : l'.history.getD (l'.history.length - 1 - (l'.historyIndex + 1)).toNat [] = s := by
        rw [show (l'.history.length - 1 - (l'.historyIndex + 1) : Int).toNat = older.length by omega, h'.history]
        simp [Draft.history, hstash, holder]
      rw [hget]
      refine h'.turn hn ?_ ?_ ?_ ?_ ?_ <;> simp [Draft.edit, Draft.history, hstash, holder, hindex]
  · have hnone : d.older = [] ∧ d.newer = [] :=
      ⟨List.eq_nil_of_length_eq_zero (by omega), List.eq_nil_of_length_eq_zero (by omega)⟩
    rw [linenoiseEditHistoryNext, if_neg hothers]
    simpa only [Draft.edit, hnone.1, Draft.stash, hnone, and_self, if_true] using h

theorem Shows.newer (h : Shows n l d) (hn : 0 < n) : Shows n (linenoiseEditHistoryNext (-1) l) (d.edit n .newer) := by
  have hlen := h.length_history
  by_cases hothers : 1 < l.history.length
  · obtain ⟨l', h', heq⟩ := h.historyNext hothers (-1)
    have hlen' := h'.length_history
    have hindex := h'.index
    rw [heq]
    cases hnewer : d.newer with
    | nil =>
      rw [Draft.newer_stash, hnewer, List.length_nil] at hindex
      rw [if_pos (by omega)]
      have hedit : d.edit n .newer = d.stash := by simp only [Draft.edit, hnewer]
      rw [hedit]
      exact { h' with index := by rw [Draft.newer_stash, hnewer]; rfl }
    | cons s newer =>
      have hstash : d.stash = { d with stored := d.text } := by simp [Draft.stash, hnewer]
      have hcount : d.stash.newer.length = newer.length + 1 ∧ d.stash.older.length = d.older.length := by
        simp [hstash, hnewer]
      rw [if_neg (by omega), if_neg (by omega)]
      have hget : l'.history.getD (l'.history.length - 1 - (l'.historyIndex + -1)).toNat [] = s := by
        rw [show (l'.history.length - 1 - (l'.historyIndex + -1) : Int).toNat = d.older.length + 1 by omega, h'.history]
        simp [Draft.history, hstash, hnewer]
      rw [hget]
      refine h'.turn hn ?_ ?_ ?_ ?_ ?_ <;> simp [Draft.edit, Draft.history, hstash, hnewer, hindex]
  · have hnone : d.older = [] ∧ d.newer = [] :=
      ⟨List.eq_nil_of_length_eq_zero (by omega), List.eq_nil_of_length_eq_zero (by omega)⟩
    rw [linenoiseEditHistoryNext, if_neg hothers]
    simpa only [Draft.edit, hnone.2, Draft.stash, hnone, and_self, if_true] using h

/-! ### Keys -/

private theorem Shows.arrow (h : Shows n l d) (hn : 0 < n) (c : UInt8) :
    Shows n (if c = 65 then linenoiseEditHistoryNext 1 l
      else if c = 66 then linenoiseEditHistoryNext (-1) l
      else if c = 67 then linenoiseEditMoveRight l
      else if c = 68 then linenoiseEditMoveLeft l
      else if c = 72 then linenoiseEditMoveHome l
      else if c = 70 then linenoiseEditMoveEnd l
      else l) (d.edit n (arrowEdit true c)) := by
  simp only [arrowEdit, and_true]
  split_ifs
  · exact h.older hn
  · exact h.newer hn
  · exact h.right
  · exact h.left
  · exact h.home
  · exact h.last
  · exact h

private theorem Shows.arrowO (h : Shows n l d) (c : UInt8) :
    Shows n (if c = 72 then linenoiseEditMoveHome l else if c = 70 then linenoiseEditMoveEnd l else l)
      (d.edit n (arrowEdit false c)) := by
  simp only [arrowEdit, Bool.false_eq_true, and_false, if_false]
  split_ifs
  · exact h.home
  · exact h.last
  · exact h

theorem Shows.escape (h : Shows n l d) (hn : 0 < n) (keys : List UInt8) :
    (escapeSequence keys l).1 = (escapeEdit keys).2 ∧
      Shows n (escapeSequence keys l).2 (d.edit n (escapeEdit keys).1) := by
  fun_cases escapeSequence keys l with
  | case1 c hc =>
    rw [escapeEdit, if_pos hc]
    exact ⟨rfl, h⟩
  | case2 c hc e keys =>
    rw [escapeEdit, if_pos hc]
    refine ⟨rfl, ?_⟩
    simp only [List.head?_cons, Option.some.injEq]
    split
    · exact h.delete
    · exact h
  | case3 c keys hc =>
    rw [escapeEdit, if_neg hc]
    exact ⟨rfl, h.arrow hn c⟩
  | case4 c keys => exact ⟨rfl, h.arrowO c⟩
  | case5 a b keys ha hb =>
    rw [escapeEdit]
    · exact ⟨rfl, h⟩
    · exact ha
    · exact hb
  | case6 keys harrow hO hlong =>
    have hnone : escapeEdit keys = (.nothing, []) := by
      rcases keys with _ | ⟨a, _ | ⟨b, keys⟩⟩
      · rfl
      · simp [escapeEdit]
      · exact (hlong a b keys rfl).elim
    rw [hnone]
    exact ⟨rfl, h⟩

/-- The reading has ended as the draft says. -/
structure Ends (r : Flow × List UInt8 × LinenoiseState) (reading : Reading) : Prop where
  flow : r.1 ≠ .next
  line : reading.line = if r.1 = .null then none else some (cstring r.2.2.buf)
  keys : reading.keys = r.2.1
  history : reading.history = r.2.2.history
  asked : reading.asked = r.2.2.asked
  inside : r.2.2.outside = false
  terminated : 0 ∈ r.2.2.buf

/-- The editor and the draft have gone on together, or ended together. -/
def Agree (n : Nat) (r : Flow × List UInt8 × LinenoiseState) : (Draft × List UInt8) ⊕ Reading → Prop
  | .inl x => r.1 = .next ∧ r.2.1 = x.2 ∧ Shows n r.2.2 x.1
  | .inr reading => Ends r reading

theorem Shows.ends (h : Shows n l d) (keys : List UInt8) : Ends (.line, keys, l) (d.close (some d.text) keys) := by
  obtain ⟨htext, hmem⟩ := h.text_eq
  refine ⟨by simp, ?_, rfl, h.history.symm, h.asked.symm, h.inside, hmem⟩
  rw [if_neg (by simp)]
  exact congrArg some htext.symm

/-- A key that does not end the reading does what its edit does. -/
private def Goes (n : Nat) (d : Draft) (r : Flow × List UInt8 × LinenoiseState) (x : Edit × List UInt8) : Prop :=
  r.1 = .next ∧ r.2.1 = x.2 ∧ Shows n r.2.2 (d.edit n x.1)

private theorem goes_ite {p : Prop} [Decidable p] {r r' : Flow × List UInt8 × LinenoiseState} {x x' : Edit × List UInt8}
    (hpos : p → Goes n d r x) (hneg : ¬ p → Goes n d r' x') : Goes n d (if p then r else r') (if p then x else x') := by
  by_cases hp : p
  · rw [if_pos hp, if_pos hp]
    exact hpos hp
  · rw [if_neg hp, if_neg hp]
    exact hneg hp

theorem Shows.press (h : Shows n l d) (hn : 0 < n) {tty : Nat → Bool} (htty : ∀ k, tty k = true) (c : UInt8)
    (keys : List UInt8) : Agree n (editKey tty c keys l) (d.press n c keys) := by
  obtain ⟨htext, hmem⟩ := h.text_eq
  have hempty : l.len = 0 ↔ d.line.items = [] := by rw [h.held.len, List.length_eq_zero_iff]
  have hpopped : l.history.dropLast = d.history.dropLast := congrArg List.dropLast h.history
  unfold editKey Draft.press
  dsimp only
  by_cases henter : c = 13
  · rw [if_pos henter, if_pos henter]
    refine ⟨by simp, ?_, rfl, hpopped.symm, h.asked.symm, h.inside, hmem⟩
    rw [if_neg (by simp)]
    exact congrArg some htext.symm
  rw [if_neg henter, if_neg henter]
  by_cases hcancel : c = 3
  · rw [if_pos hcancel, if_pos hcancel]
    exact ⟨by simp, rfl, rfl, h.history.symm, h.asked.symm, h.inside, hmem⟩
  rw [if_neg hcancel, if_neg hcancel]
  by_cases hleave : c = 4 ∧ d.line.items = []
  · rw [if_pos hleave, if_neg (by rw [hleave.1]; decide), if_pos hleave.1, if_neg (by have := hempty.2 hleave.2; omega)]
    exact ⟨by simp, rfl, rfl, hpopped.symm, h.asked.symm, h.inside, hmem⟩
  rw [if_neg hleave]
  suffices hgoes : Goes n d _ (keyEdit c keys) from hgoes
  refine goes_ite (fun _ => ⟨rfl, rfl, h.backspace⟩) fun _ => ?_
  refine goes_ite (fun hdelete => ?_) fun _ => ?_
  · have hne : l.len ≠ 0 := fun hzero => hleave ⟨hdelete, hempty.1 hzero⟩
    rw [if_pos (Nat.pos_of_ne_zero hne)]
    exact ⟨rfl, rfl, h.delete⟩
  refine goes_ite (fun _ => ⟨rfl, rfl, h.swap⟩) fun _ => ?_
  refine goes_ite (fun _ => ⟨rfl, rfl, h.left⟩) fun _ => ?_
  refine goes_ite (fun _ => ⟨rfl, rfl, h.right⟩) fun _ => ?_
  refine goes_ite (fun _ => ⟨rfl, rfl, h.older hn⟩) fun _ => ?_
  refine goes_ite (fun _ => ⟨rfl, rfl, h.newer hn⟩) fun _ => ?_
  refine goes_ite (fun _ => ⟨rfl, h.escape hn keys⟩) fun _ => ?_
  refine goes_ite (fun _ => ⟨rfl, rfl, h.clear⟩) fun _ => ?_
  refine goes_ite (fun _ => ⟨rfl, rfl, h.kill⟩) fun _ => ?_
  refine goes_ite (fun _ => ⟨rfl, rfl, h.home⟩) fun _ => ?_
  refine goes_ite (fun _ => ⟨rfl, rfl, h.last⟩) fun _ => ?_
  refine goes_ite (fun _ => ⟨rfl, rfl, (h.write _).refresh⟩) fun _ => ?_
  refine goes_ite (fun _ => ⟨rfl, rfl, h.deleteWord⟩) fun _ => ?_
  obtain ⟨hok, hinsert⟩ := h.insert htty c
  refine ⟨?_, rfl, hinsert⟩
  rw [hok]
  rfl

/-! ### Completion -/

/-- The line for the completion callback. -/
private theorem Shows.ask (h : Shows n l d) :
    Shows n { l with asked := l.asked ++ [cstring l.buf], outside := l.outside || decide (0 ∉ l.buf) }
      { d with asked := d.asked ++ [d.text] } := by
  obtain ⟨htext, hmem⟩ := h.text_eq
  refine { h with asked := ?_, inside := ?_ }
  · exact congrArg₂ (· ++ [·]) h.asked htext
  · simp [h.inside, hmem]

private theorem Shows.showCompletion (h : Shows n l d) (name : Option Bytes) : Shows n (showCompletion name l) d := by
  cases name with
  | none => exact h.refresh
  | some name =>
    have hlen : strlen name ≤ (name ++ [0]).length := by
      have hle : (cstring name).length ≤ name.length := (List.takeWhile_prefix _).length_le
      simp only [List.length_append, List.length_singleton]
      exact hle.trans (Nat.le_add_right _ _)
    have hshown := refreshSingleLine_eq (l := { l with buf := name ++ [0], len := strlen name, pos := strlen name })
      (Nat.le_refl _) hlen h.wide
    rw [ZkClient.showCompletion, hshown]
    exact { h with }

private theorem Shows.accept (h : Shows n l d) {name : Bytes} (h0 : 0 ∉ name) (hlen : name.length < n) :
    Shows n (acceptCompletion name l) { d with line := .ofList name } := by
  have htake : name.take (l.buflen - 1) = name := List.take_of_length_le (by rw [h.buflen]; omega)
  have hstrlen : strlen name = name.length := congrArg List.length (cstring_eq_self h0)
  have hheld : Zipper.Held 0 (name ++ [0] ++ l.buf.drop (name ++ [0]).length) name.length name.length (.ofList name) :=
    Zipper.Held.ofList ⟨l.buf.drop (name ++ [0]).length, by simp⟩
  unfold acceptCompletion
  rw [htake, hstrlen]
  refine h.edited hheld ⟨?_, ?_⟩ rfl
  · simp [h.length]
    omega
  · simp [h.length, h.inside]
    omega

private theorem Shows.choose (h : Shows n l d) {name : Bytes} (h0 : 0 ∉ name) (hlen : name.length < n) (chosen : Bool)
    (keys : List UInt8) : ∃ l', Shows n l' (d.choose name chosen keys).2.2 ∧
      completeLine [name] (if chosen then 0 else 1) keys l =
        ((d.choose name chosen keys).1, (d.choose name chosen keys).2.1, l') := by
  induction keys generalizing l chosen with
  | nil => exact ⟨_, h.showCompletion _, rfl⟩
  | cons c keys ih =>
    have hshown := h.showCompletion [name][if chosen then 0 else 1]?
    have hnext : ((if chosen then 0 else 1) + 1) % ([name].length + 1) = if ! chosen then 0 else 1 := by
      cases chosen <;> simp
    rw [completeLine, Draft.choose, hnext]
    by_cases htab : c = 9
    · rw [if_pos htab, if_pos htab]
      exact ih hshown (! chosen)
    rw [if_neg htab, if_neg htab]
    by_cases hescape : c = 27
    · rw [if_pos hescape, if_neg (fun hboth => hboth.2 hescape)]
      refine ⟨_, ?_, rfl⟩
      by_cases hin : (if chosen then 0 else 1) < [name].length
      · rw [if_pos hin]
        exact hshown.refresh
      · rw [if_neg hin]
        exact hshown
    · rw [if_neg hescape]
      cases chosen with
      | false => exact ⟨_, hshown, rfl⟩
      | true =>
        rw [if_pos ⟨rfl, hescape⟩]
        exact ⟨_, hshown.accept h0 hlen, rfl⟩

/-! ### Reading a line -/

theorem Shows.read (h : Shows n l d) (hn : 0 < n) {tty : Nat → Bool} (htty : ∀ k, tty k = true)
    {complete : List Bytes → List Bytes} (hcomplete : ∀ asked, ∀ name ∈ complete asked, 0 ∉ name ∧ name.length < n)
    (fuel : Nat) (keys : List UInt8) : Ends (editLoop tty complete fuel keys l) (d.read n complete fuel keys) := by
  induction fuel generalizing keys l d with
  | zero => exact h.ends keys
  | succ fuel ih =>
    have henter : ∀ {l : LinenoiseState} {d : Draft}, Shows n l d → ∀ (c : UInt8) (keys : List UInt8),
        Ends (if (editKey tty c keys l).1 = .next then
            editLoop tty complete fuel (editKey tty c keys l).2.1 (editKey tty c keys l).2.2
          else editKey tty c keys l) (Draft.enter (Draft.read n complete fuel) (d.press n c keys)) := by
      intro l d h c keys
      have hpress := h.press hn htty c keys
      cases hresult : d.press n c keys with
      | inl x =>
        obtain ⟨hnext, hkeys, hshows⟩ := hresult ▸ hpress
        rw [if_pos hnext, hkeys]
        exact ih hshows x.2
      | inr reading =>
        rw [hresult] at hpress
        rw [if_neg (Ends.flow hpress)]
        exact hpress
    cases keys with
    | nil => exact h.ends []
    | cons c keys =>
      rw [editLoop, Draft.read]
      dsimp only
      by_cases htab : c = 9
      · rw [if_pos htab, if_pos htab]
        have hask := h.ask
        have hnames := hcomplete (d.asked ++ [d.text])
        have hasked : l.asked ++ [cstring l.buf] = d.asked ++ [d.text] := hask.asked
        rw [hasked] at hask ⊢
        revert hask hnames
        generalize complete (d.asked ++ [d.text]) = names
        generalize { l with asked := d.asked ++ [d.text], outside := l.outside || decide (0 ∉ l.buf) } = l'
        generalize { d with asked := d.asked ++ [d.text] } = d'
        intro hask hnames
        rcases names with _ | ⟨name, _ | ⟨name', names⟩⟩
        · rw [if_pos (by simp), if_pos rfl]
          exact ih hask keys
        · obtain ⟨h0, hlen⟩ := hnames name (List.mem_singleton_self name)
          obtain ⟨l'', hchosen, heq⟩ := hask.choose h0 hlen true keys
          rw [if_pos rfl] at heq
          rw [if_pos (by simp), if_neg (by simp), heq]
          dsimp only
          generalize d'.choose name true keys = r at hchosen ⊢
          obtain ⟨c', keys', d''⟩ := r
          cases c' with
          | none => exact hchosen.ends keys'
          | some c' =>
            dsimp only
            by_cases hwide : 128 ≤ c'
            · rw [if_pos hwide, if_pos hwide]
              exact hchosen.ends keys'
            rw [if_neg hwide, if_neg hwide]
            by_cases hzero : c' = 0
            · rw [if_pos hzero, if_pos hzero]
              exact ih hchosen keys'
            · rw [if_neg hzero, if_neg hzero]
              exact henter hchosen c' keys'
        · rw [if_neg (by simp)]
          exact ih (((hask.write _).write _).write _) keys
      · rw [if_neg htab, if_neg htab]
        exact henter h c keys

end Edits

section Reading

variable {complete : List Bytes → List Bytes}

/-! ### History -/

theorem getLast?_linenoiseHistoryAdd {maxLen : Nat} (hmax : 0 < maxLen) (line : Bytes) (history : List Bytes) :
    (linenoiseHistoryAdd maxLen line history).getLast? = some line := by
  unfold linenoiseHistoryAdd
  rw [if_neg hmax.ne']
  split
  case isTrue hlast => exact hlast
  case isFalse => exact List.getLast?_concat

theorem mem_linenoiseHistoryAdd {maxLen : Nat} {line s : Bytes} {history : List Bytes}
    (h : s ∈ linenoiseHistoryAdd maxLen line history) : s ∈ history ∨ s = line := by
  unfold linenoiseHistoryAdd at h
  split_ifs at h
  · exact .inl h
  · exact .inl h
  · rcases List.mem_append.1 h with h | h
    · exact .inl (List.mem_of_mem_tail h)
    · exact .inr (List.mem_singleton.1 h)
  · rcases List.mem_append.1 h with h | h
    · exact .inl h
    · exact .inr (List.mem_singleton.1 h)

theorem Draft.history_new {maxLen : Nat} (hmax : 0 < maxLen) (history asked : List Bytes) :
    (Draft.new (linenoiseHistoryAdd maxLen [] history) asked).history = linenoiseHistoryAdd maxLen [] history := by
  rw [Draft.history, Draft.new, List.reverse_reverse]
  exact List.dropLast_append_getLast? _ (getLast?_linenoiseHistoryAdd hmax [] history)

/-! ### The editor -/

variable {tty : Nat → Bool} {cols maxLen : Nat} {prompt stack : Bytes} {keys : List UInt8} {history asked : List Bytes}

/-- The editor at the beginning. -/
private def editor (cols maxLen : Nat) (prompt cells : Bytes) (history asked : List Bytes) : LinenoiseState :=
  { buf := 0 :: cells, buflen := cells.length, prompt, pos := 0, len := 0, cols, historyIndex := 0
    history := linenoiseHistoryAdd maxLen [] history, output := [prompt], asked
    outside := false }

private theorem Shows.start {cells : Bytes} (hprompt : prompt.length < cols) (hmax : 0 < maxLen)
    (hhistory : ∀ s ∈ history, 0 ∉ s) :
    Shows cells.length (editor cols maxLen prompt cells history asked)
      (.new (linenoiseHistoryAdd maxLen [] history) asked) := by
  have hall := Draft.history_new hmax history asked
  have hcells : ∃ rest, (0 : UInt8) :: cells = [] ++ 0 :: rest := ⟨cells, rfl⟩
  have hheld : Zipper.Held (0 : UInt8) (0 :: cells) 0 0 (.ofList []) := Zipper.Held.ofList hcells
  refine ⟨hheld, rfl, rfl, rfl, hall.symm, ?_, rfl, rfl, hprompt⟩
  intro s hs
  rw [hall] at hs
  rcases mem_linenoiseHistoryAdd hs with hs | rfl
  · exact hhistory s hs
  · exact List.not_mem_nil

private theorem Ends.eq {r : Flow × List UInt8 × LinenoiseState} {reading : Reading} (h : Ends r reading) :
    reading = ⟨if r.1 = .null then none else some (cstring r.2.2.buf), r.2.1, r.2.2.history, r.2.2.asked⟩ := by
  rw [← h.line, ← h.keys, ← h.history, ← h.asked]

/-- What `linenoise` has read in the end. -/
theorem linenoise_eq (htty : ∀ k, tty k = true) (hstack : 2 ≤ stack.length) (hprompt : prompt.length < cols)
    (hmax : 0 < maxLen) (hhistory : ∀ s ∈ history, 0 ∉ s)
    (hcomplete : ∀ asked, ∀ name ∈ complete asked, 0 ∉ name ∧ name.length + 1 < stack.length) (keys : List UInt8)
    (asked : List Bytes) :
    let r := linenoise tty complete cols maxLen prompt stack keys history asked
    Draft.read (stack.length - 1) complete keys.length keys (.new (linenoiseHistoryAdd maxLen [] history) asked) =
      ⟨r.1, r.2.1, r.2.2.history, r.2.2.asked⟩ ∧ r.2.2.outside = false := by
  obtain ⟨x, cells, rfl⟩ : ∃ x cells, stack = x :: cells :=
    List.exists_cons_of_length_pos (Nat.lt_of_lt_of_le Nat.zero_lt_two hstack)
  intro r
  rw [List.length_cons] at hstack hcomplete
  have hstart : Shows cells.length (editor cols maxLen prompt cells history asked) _ :=
    Shows.start hprompt hmax hhistory
  have hends := hstart.read (by omega) htty (fun asked name hname =>
    ⟨(hcomplete asked name hname).1, Nat.lt_of_succ_lt_succ (hcomplete asked name hname).2⟩) keys.length keys
  have hr : r = linenoise tty complete cols maxLen prompt (x :: cells) keys history asked := rfl
  rw [linenoise, show decide (x :: cells = []) = false from rfl] at hr
  change r = if (editLoop tty complete keys.length keys (editor cols maxLen prompt cells history asked)).1 = .null
    then _ else _ at hr
  refine ⟨hends.eq.trans ?_, ?_⟩
  · rw [hr]
    split <;> rfl
  · rw [hr]
    split
    · exact hends.inside
    · exact (Bool.or_eq_false_iff).2 ⟨hends.inside, decide_eq_false (not_not.2 hends.terminated)⟩

/-- `linenoise` reads what the draft reads, in as many rounds as there are keys or more, and it touches no cell outside
of a block. -/
theorem linenoise_reads (htty : ∀ k, tty k = true) (hstack : 2 ≤ stack.length) (hprompt : prompt.length < cols)
    (hmax : 0 < maxLen) (hhistory : ∀ s ∈ history, 0 ∉ s)
    (hcomplete : ∀ asked, ∀ name ∈ complete asked, 0 ∉ name ∧ name.length + 1 < stack.length) (fuel : Nat)
    (hfuel : keys.length ≤ fuel) :
    let r := linenoise tty complete cols maxLen prompt stack keys history asked
    let reading := Draft.read (stack.length - 1) complete fuel keys
      (.new (linenoiseHistoryAdd maxLen [] history) asked)
    r.1 = reading.line ∧ r.2.1 = reading.keys ∧ r.2.2.history = reading.history ∧ r.2.2.asked = reading.asked ∧
      r.2.2.outside = false := by
  obtain ⟨heq, hinside⟩ := linenoise_eq htty hstack hprompt hmax hhistory hcomplete keys asked
  intro r reading
  have hreading : reading = ⟨r.1, r.2.1, r.2.2.history, r.2.2.asked⟩ := (Draft.read_fuel hfuel (Nat.le_refl _)).trans heq
  rw [hreading]
  exact ⟨rfl, rfl, rfl, rfl, hinside⟩

end Reading

/-- `sl` is put right, a candidate is taken and the line is entered; a key is left. -/
theorem linenoise_reads_tab :
    let r := linenoise (fun _ => true) (fun _ => [[108, 115, 32, 47, 122]]) 80 100 [62] (List.replicate 16 255)
      [115, 1, 108, 5, 32, 47, 9, 13, 100] [[108, 115]] []
    r.1 = some [108, 115, 32, 47, 122] ∧ r.2.1 = [100] ∧ r.2.2.history = [[108, 115]] ∧
      r.2.2.asked = [[108, 115, 32, 47]] ∧ r.2.2.outside = false := by
  exact linenoise_reads (fun _ => rfl) (by decide) (by decide) (by decide) (by decide) (fun _ => by decide) 9 (by decide)

end ZkClient
