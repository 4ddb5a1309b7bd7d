import Mathlib.Data.List.Infix
import ZkClient.Lib.Zipper
import ZkClient.Recordio

/-!
# Drafts of a line

What a line editor is for: a `Draft` is a line with a cursor, which is edited in the midst of older and newer lines.
`Draft.read` says what becomes of the keys.  What is read is short (`Draft.Tidy.read`), and characters that stand for
themselves make up the line (`Draft.read_typed`).  There is no memory here; that is the matter of `ZkClient.Editing`.
-/

namespace ZkClient

structure Draft where
  line : Zipper UInt8
  /-- The lines before this one in the history, nearest first. -/
  older : List Bytes
  /-- What the history has at the place of this line. -/
  stored : Bytes
  newer : List Bytes
  asked : List Bytes

/-- What a key does to a draft. -/
inductive Edit where
  | insert (c : UInt8)
  | left
  | right
  | home
  | last
  | delete
  | backspace
  | deleteWord
  | swap
  | clear
  | kill
  | older
  | newer
  | nothing
  deriving DecidableEq, Repr

/-- How a line has been read; `line` is `none` when there is no more of them. -/
structure Reading where
  line : Option Bytes
  keys : List UInt8
  history : List Bytes
  asked : List Bytes

namespace Draft

/-- The line as a string. -/
def text (d : Draft) : Bytes := cstring d.line.items

def history (d : Draft) : List Bytes := d.older.reverse ++ d.stored :: d.newer

/-- The empty line behind a history. -/
def new (history asked : List Bytes) : Draft :=
  { line := .ofList [], older := history.dropLast.reverse, stored := [], newer := [], asked }

/-- The line is put into the history, if there is another one to go to. -/
def stash (d : Draft) : Draft := if d.older = [] ∧ d.newer = [] then d else { d with stored := d.text }

@[simp] theorem older_stash (d : Draft) : d.stash.older = d.older := by
  unfold stash
  split <;> rfl

@[simp] theorem newer_stash (d : Draft) : d.stash.newer = d.newer := by
  unfold stash
  split <;> rfl

/-- Edit a line of at most `n` characters. -/
def edit (n : Nat) (d : Draft) : Edit → Draft
  | .insert c => if d.line.items.length < n then { d with line := d.line.insert c } else d
  | .left => { d with line := d.line.left }
  | .right => { d with line := d.line.right }
  | .home => { d with line := d.line.home }
  | .last => { d with line := d.line.last }
  | .delete => { d with line := d.line.delete }
  | .backspace => { d with line := d.line.backspace }
  | .deleteWord => { d with line := d.line.deleteWord (· = 32) }
  | .swap => { d with line := d.line.swap }
  | .clear => { d with line := ⟨[], []⟩ }
  | .kill => { d with line := d.line.kill }
  | .older =>
    match d.older with
    | [] => d.stash
    -- the last place of the block is not used for a line of the history
    | s :: older =>
      { d.stash with line := .ofList (s.take (n - 1)), older, stored := s, newer := d.stash.stored :: d.newer }
  | .newer =>
    match d.newer with
    | [] => d.stash
    | s :: newer =>
      { d.stash with line := .ofList (s.take (n - 1)), newer, stored := s, older := d.stash.stored :: d.older }
  | .nothing => d

theorem edit_insert (n : Nat) (d : Draft) (c : UInt8) :
    d.edit n (.insert c) = if d.line.items.length < n then { d with line := d.line.insert c } else d := rfl

/-- The end of the reading. -/
def close (line : Option Bytes) (keys : List UInt8) (d : Draft) : Reading := ⟨line, keys, d.history, d.asked⟩

/-- The end of the reading, without the newest line of the history. -/
def closePopped (line : Option Bytes) (keys : List UInt8) (d : Draft) : Reading := ⟨line, keys, d.history.dropLast, d.asked⟩

end Draft

/-! ### Keys -/

/-- The edit of a final byte of `ESC [` or `ESC O`. -/
def arrowEdit (arrows : Bool) (c : UInt8) : Edit :=
  if c = 65 ∧ arrows then .older
  else if c = 66 ∧ arrows then .newer
  else if c = 67 ∧ arrows then .right
  else if c = 68 ∧ arrows then .left
  else if c = 72 then .home
  else if c = 70 then .last
  else .nothing

/-- The edit of an escape sequence, and the keys behind it. -/
def escapeEdit : List UInt8 → Edit × List UInt8
  | 91 :: c :: keys =>
    if 48 ≤ c ∧ c ≤ 57 then (if keys.head? = some 126 ∧ c = 51 then .delete else .nothing, keys.tail)
    else (arrowEdit true c, keys)
  | 79 :: c :: keys => (arrowEdit false c, keys)
  | _ :: _ :: keys => (.nothing, keys)
  | _ => (.nothing, [])

/-- The edit of a key, and the keys behind it. -/
def keyEdit (c : UInt8) (keys : List UInt8) : Edit × List UInt8 :=
  if c = 127 ∨ c = 8 then (.backspace, keys)
  else if c = 4 then (.delete, keys)
  else if c = 20 then (.swap, keys)
  else if c = 2 then (.left, keys)
  else if c = 6 then (.right, keys)
  else if c = 16 then (.older, keys)
  else if c = 14 then (.newer, keys)
  else if c = 27 then escapeEdit keys
  else if c = 21 then (.clear, keys)
  else if c = 11 then (.kill, keys)
  else if c = 1 then (.home, keys)
  else if c = 5 then (.last, keys)
  else if c = 12 then (.nothing, keys)
  else if c = 23 then (.deleteWord, keys)
  else (.insert c, keys)

namespace Draft

/-- A key edits the draft, or it ends the reading. -/
def press (n : Nat) (c : UInt8) (keys : List UInt8) (d : Draft) : (Draft × List UInt8) ⊕ Reading :=
  if c = 13 then .inr (d.closePopped (some d.text) keys)
  else if c = 3 then .inr (d.close none keys)
  else if c = 4 ∧ d.line.items = [] then .inr (d.closePopped none keys)
  else .inl (d.edit n (keyEdit c keys).1, (keyEdit c keys).2)

/-- With a single candidate the next key but the tabs accepts it (and is a key as usual), unless it is `ESC`; an even
number of tabs keeps the candidate. -/
def choose (name : Bytes) : Bool → List UInt8 → Draft → Option UInt8 × List UInt8 × Draft
  | _, [], d => (none, [], d)
  | chosen, c :: keys, d =>
    if c = 9 then choose name (! chosen) keys d
    else (some c, keys, if chosen ∧ c ≠ 27 then { d with line := .ofList name } else d)

/-- Go on with the rest, or end. -/
def enter (rest : List UInt8 → Draft → Reading) : (Draft × List UInt8) ⊕ Reading → Reading
  | .inl (d, keys) => rest keys d
  | .inr reading => reading

/-- Read a line, in at most `fuel` rounds. -/
def read (n : Nat) (complete : List Bytes → List Bytes) : Nat → List UInt8 → Draft → Reading
  | 0, keys, d => d.close (some d.text) keys
  | _ + 1, [], d => d.close (some d.text) []
  | fuel + 1, c :: keys, d =>
    if c = 9 then
      let d := { d with asked := d.asked ++ [d.text] }
      match complete d.asked with
      | [name] =>
        match choose name true keys d with
        | (none, keys, d) => d.close (some d.text) keys
        | (some c, keys, d) =>
          -- a character that is not ASCII ends the reading here
          if 128 ≤ c then d.close (some d.text) keys
          else if c = 0 then read n complete fuel keys d
          else enter (read n complete fuel) (d.press n c keys)
      | _ => read n complete fuel keys d
    else enter (read n complete fuel) (d.press n c keys)

end Draft

/-! ### The number of rounds -/

section Rounds

variable {n : Nat} {complete : List Bytes → List Bytes}

theorem length_escapeEdit (keys : List UInt8) : (escapeEdit keys).2.length ≤ keys.length := by
  fun_cases escapeEdit keys <;> simp <;> omega

private theorem length_ite {p : Prop} [Decidable p] {x y : Edit × List UInt8} {k : Nat} (hx : x.2.length ≤ k)
    (hy : y.2.length ≤ k) : (if p then x else y).2.length ≤ k := by
  split
  · exact hx
  · exact hy

theorem length_keyEdit (c : UInt8) (keys : List UInt8) : (keyEdit c keys).2.length ≤ keys.length := by
  have hescape := length_escapeEdit keys
  unfold keyEdit
  repeat' first | apply length_ite | exact hescape | exact Nat.le_refl _

namespace Draft

theorem length_press {c : UInt8} {keys keys' : List UInt8} {d d' : Draft} (h : d.press n c keys = .inl (d', keys')) :
    keys'.length ≤ keys.length := by
  unfold press at h
  split_ifs at h
  obtain ⟨-, rfl⟩ := Prod.mk.inj (Sum.inl.inj h)
  exact length_keyEdit c keys

theorem length_choose (name : Bytes) (chosen : Bool) (keys : List UInt8) (d : Draft) :
    (d.choose name chosen keys).2.1.length ≤ keys.length := by
  induction keys generalizing chosen with
  | nil => exact Nat.le_refl _
  | cons c keys ih =>
    rw [choose]
    split
    · exact (ih _).trans (Nat.le_succ _)
    · exact Nat.le_succ _

theorem enter_congr {rest rest' : List UInt8 → Draft → Reading} {c : UInt8} {keys : List UInt8} {d : Draft}
    (h : ∀ keys' d', keys'.length ≤ keys.length → rest keys' d' = rest' keys' d') :
    enter rest (d.press n c keys) = enter rest' (d.press n c keys) := by
  cases hresult : d.press n c keys with
  | inl x => exact h x.2 x.1 (length_press hresult)
  | inr reading => rfl

/-- As many rounds as there are keys are enough. -/
theorem read_fuel {fuel fuel' : Nat} {keys : List UInt8} {d : Draft} (hfuel : keys.length ≤ fuel)
    (hfuel' : keys.length ≤ fuel') : d.read n complete fuel keys = d.read n complete fuel' keys := by
  induction fuel generalizing fuel' keys d with
  | zero =>
    obtain rfl : keys = [] := List.eq_nil_of_length_eq_zero (Nat.le_zero.1 hfuel)
    cases fuel' <;> rfl
  | succ fuel ih =>
    cases keys with
    | nil => cases fuel' <;> rfl
    | cons c keys =>
      obtain ⟨fuel', rfl⟩ := Nat.exists_eq_succ_of_ne_zero (Nat.ne_of_gt ((Nat.zero_lt_succ _).trans_le hfuel'))
      rw [List.length_cons] at hfuel hfuel'
      have hrest : ∀ keys' d', keys'.length ≤ keys.length →
          read n complete fuel keys' d' = read n complete fuel' keys' d' :=
        fun keys' d' hle => ih (by omega) (by omega)
      rw [read, read]
      split
      case isFalse => exact enter_congr hrest
      case isTrue =>
        dsimp only
        split
        case h_2 => exact hrest _ _ (Nat.le_refl _)
        case h_1 name _ =>
          have hchoose := length_choose name true keys { d with asked := d.asked ++ [d.text] }
          generalize choose name true keys { d with asked := d.asked ++ [d.text] } = r at hchoose ⊢
          obtain ⟨_ | c', keys', d'⟩ := r
          · rfl
          · dsimp only at hchoose ⊢
            split_ifs
            · rfl
            · exact hrest _ _ hchoose
            · exact enter_congr fun _ _ hle => hrest _ _ (hle.trans hchoose)

end Draft

end Rounds

/-! ### Whatever keys are pressed -/

/-- A string of at most `n` characters. -/
def Short (n : Nat) (s : Bytes) : Prop := 0 ∉ s ∧ s.length ≤ n

/-- Lines and strings are short, and the history keeps its length. -/
structure Draft.Tidy (n m : Nat) (d : Draft) : Prop where
  line : d.line.items.length ≤ n
  history : ∀ s ∈ d.history, Short n s
  count : d.history.length = m
  asked : ∀ s ∈ d.asked, Short n s

structure Reading.Tidy (n m : Nat) (x : Reading) : Prop where
  line : ∀ s ∈ x.line, Short n s
  history : ∀ s ∈ x.history, Short n s
  count : x.history.length ≤ m
  asked : ∀ s ∈ x.asked, Short n s

namespace Draft

variable {n m : Nat} {d : Draft}

theorem Tidy.text (h : d.Tidy n m) : Short n d.text :=
  ⟨zero_not_mem_cstring _, (List.takeWhile_prefix _).length_le.trans h.line⟩

private theorem Tidy.edited (h : d.Tidy n m) {z : Zipper UInt8} (hz : z.items.length ≤ n) :
    Tidy n m { d with line := z } := { h with line := hz }

private theorem Tidy.stash (h : d.Tidy n m) : d.stash.Tidy n m := by
  unfold Draft.stash
  split
  case isTrue => exact h
  case isFalse =>
    refine { h with history := ?_, count := ?_ }
    · intro s hs
      rcases List.mem_append.1 hs with hs | hs
      · exact h.history s (List.mem_append_left _ hs)
      · rcases List.mem_cons.1 hs with rfl | hs
        · exact h.text
        · exact h.history s (List.mem_append_right _ (List.mem_cons_of_mem _ hs))
    · rw [← h.count]
      simp [Draft.history]

/-- Another line of the history is taken. -/
private theorem Tidy.turn {d' : Draft} (h : d.Tidy n m) {s : Bytes} (hline : d'.line = .ofList (s.take (n - 1)))
    (hhistory : d'.history = d.history) (hasked : d'.asked = d.asked) : d'.Tidy n m := by
  refine ⟨?_, hhistory ▸ h.history, hhistory ▸ h.count, hasked ▸ h.asked⟩
  rw [hline, Zipper.items_ofList, List.length_take]
  omega

theorem Tidy.edit (h : d.Tidy n m) (e : Edit) : (d.edit n e).Tidy n m := by
  have hline := h.line
  have hlen := Zipper.length_items d.line
  cases e with
  | insert c =>
    rw [Draft.edit_insert]
    split
    case isTrue hroom =>
      refine h.edited ?_
      rw [Zipper.length_items]
      simp only [Zipper.insert, List.length_cons]
      omega
    case isFalse => exact h
  | left => exact h.edited (by rwa [Zipper.items_left])
  | right => exact h.edited (by rwa [Zipper.items_right])
  | home => exact h.edited (by rwa [Zipper.items_home])
  | last => exact h.edited (by rwa [Zipper.items_last])
  | delete =>
    refine h.edited ?_
    rw [Zipper.length_items]
    simp only [Zipper.delete, List.length_tail]
    omega
  | backspace =>
    refine h.edited ?_
    rw [Zipper.length_items]
    simp only [Zipper.backspace, List.length_tail]
    omega
  | deleteWord =>
    refine h.edited ?_
    have hle : (d.line.deleteWord (· = 32)).before.length ≤ d.line.before.length :=
      ((List.dropWhile_suffix _).trans (List.dropWhile_suffix _)).length_le
    rw [Zipper.length_items]
    simp only [Zipper.deleteWord] at hle ⊢
    omega
  | swap => exact h.edited (by rwa [(Zipper.items_swap d.line).length_eq])
  | clear => exact h.edited (Nat.zero_le n)
  | kill =>
    refine h.edited ?_
    rw [Zipper.length_items]
    simp only [Zipper.kill, List.length_nil]
    omega
  | older =>
    rw [Draft.edit]
    cases holder : d.older with
    | nil => exact h.stash
    | cons s older => exact h.stash.turn rfl (by simp [Draft.history, holder]) rfl
  | newer =>
    rw [Draft.edit]
    cases hnewer : d.newer with
    | nil => exact h.stash
    | cons s newer => exact h.stash.turn rfl (by simp [Draft.history, hnewer]) rfl
  | nothing => exact h

theorem Tidy.close (h : d.Tidy n m) {line : Option Bytes} (hline : ∀ s ∈ line, Short n s) (keys : List UInt8) :
    (d.close line keys).Tidy n m :=
  ⟨hline, h.history, h.count.le, h.asked⟩

theorem Tidy.closePopped (h : d.Tidy n m) {line : Option Bytes} (hline : ∀ s ∈ line, Short n s) (keys : List UInt8) :
    (d.closePopped line keys).Tidy n m := by
  refine ⟨hline, fun s hs => h.history s (List.mem_of_mem_dropLast hs), ?_, h.asked⟩
  rw [Draft.closePopped, List.length_dropLast, h.count]
  omega

theorem Tidy.line_text (h : d.Tidy n m) : ∀ s ∈ some d.text, Short n s := by
  rintro s ⟨⟩
  exact h.text

theorem Tidy.choose (h : d.Tidy n m) {name : Bytes} (hname : name.length < n) (chosen : Bool) (keys : List UInt8) :
    (d.choose name chosen keys).2.2.Tidy n m := by
  induction keys generalizing chosen with
  | nil => exact h
  | cons c keys ih =>
    rw [Draft.choose]
    split_ifs
    · exact ih _
    · exact h.edited (by rw [Zipper.items_ofList]; omega)
    · exact h

/-- What is read is short, if the candidates are. -/
theorem Tidy.read (h : d.Tidy n m) {complete : List Bytes → List Bytes}
    (hcomplete : ∀ asked, ∀ name ∈ complete asked, name.length < n) (fuel : Nat) (keys : List UInt8) :
    (d.read n complete fuel keys).Tidy n m := by
  induction fuel generalizing d keys with
  | zero => exact h.close h.line_text keys
  | succ fuel ih =>
    have henter : ∀ {d : Draft}, d.Tidy n m → ∀ (c : UInt8) (keys : List UInt8),
        (enter (Draft.read n complete fuel) (d.press n c keys)).Tidy n m := by
      intro d h c keys
      unfold Draft.press
      by_cases henter : c = 13
      · rw [if_pos henter]
        exact h.closePopped h.line_text keys
      rw [if_neg henter]
      by_cases hcancel : c = 3
      · rw [if_pos hcancel]
        exact h.close (by simp) keys
      rw [if_neg hcancel]
      by_cases hleave : c = 4 ∧ d.line.items = []
      · rw [if_pos hleave]
        exact h.closePopped (by simp) keys
      · rw [if_neg hleave]
        exact ih (h.edit _) _
    cases keys with
    | nil => exact h.close h.line_text []
    | cons c keys =>
      have hask : Tidy n m { d with asked := d.asked ++ [d.text] } := by
        refine { h with asked := ?_ }
        intro s hs
        rcases List.mem_append.1 hs with hs | hs
        · exact h.asked s hs
        · exact List.mem_singleton.1 hs ▸ h.text
      have hnames := hcomplete (d.asked ++ [d.text])
      rw [Draft.read]
      split
      case isFalse => exact henter h c keys
      case isTrue =>
        dsimp only
        split
        case h_2 => exact ih hask keys
        case h_1 name hname =>
          have hchosen := hask.choose (hnames name (by rw [hname]; exact List.mem_singleton_self name)) true keys
          generalize Draft.choose name true keys { d with asked := d.asked ++ [d.text] } = r at hchosen ⊢
          obtain ⟨_ | c', keys', d'⟩ := r
          · exact hchosen.close hchosen.line_text keys'
          · dsimp only
            split_ifs
            · exact hchosen.close hchosen.line_text keys'
            · exact ih hchosen keys'
            · exact henter hchosen c' keys'

end Draft

/-! ### What is typed -/

/-- A character that stands for itself. -/
def Plain (c : UInt8) : Prop := 32 ≤ c ∧ c ≠ 127

theorem Plain.ne {c : UInt8} (h : Plain c) (k : UInt8) (hk : decide (k < 32) = true) : c ≠ k := by
  rintro rfl
  exact absurd h.1 (UInt8.not_le.2 (of_decide_eq_true hk))

namespace Draft

variable {n : Nat} {complete : List Bytes → List Bytes} {d : Draft}

private theorem press_plain {c : UInt8} (hc : Plain c) (keys : List UInt8) :
    d.press n c keys = .inl (d.edit n (.insert c), keys) := by
  have hkey : keyEdit c keys = (.insert c, keys) := by
    simp only [keyEdit, hc.2, hc.ne 8 rfl, hc.ne 4 rfl, hc.ne 20 rfl, hc.ne 2 rfl, hc.ne 6 rfl, hc.ne 16 rfl, hc.ne 14 rfl,
      hc.ne 27 rfl, hc.ne 21 rfl, hc.ne 11 rfl, hc.ne 1 rfl, hc.ne 5 rfl, hc.ne 12 rfl, hc.ne 23 rfl, or_self, if_false]
  rw [press, if_neg (hc.ne 13 rfl), if_neg (hc.ne 3 rfl), if_neg (not_and_of_not_left _ (hc.ne 4 rfl)), hkey]

/-- A line that is typed and entered. -/
theorem read_typed {text typed : Bytes} (hplain : ∀ c ∈ text, Plain c) (hlen : typed.length + text.length ≤ n)
    (h0 : 0 ∉ typed) (rest : List UInt8) {fuel : Nat} (hfuel : text.length < fuel) :
    Draft.read n complete fuel (text ++ 13 :: rest) { d with line := .ofList typed } =
      closePopped (some (typed ++ text)) rest d := by
  induction text generalizing typed fuel with
  | nil =>
    obtain ⟨fuel, rfl⟩ := Nat.exists_eq_succ_of_ne_zero hfuel.ne'
    rw [List.nil_append, Draft.read, if_neg (by decide), press, if_pos rfl, List.append_nil]
    simp [enter, closePopped, Draft.text, cstring_eq_self h0, Draft.history]
  | cons c text ih =>
    obtain ⟨fuel, rfl⟩ := Nat.exists_eq_succ_of_ne_zero (Nat.ne_of_gt ((Nat.zero_lt_succ _).trans hfuel))
    rw [List.length_cons] at hlen hfuel
    have hc := hplain c List.mem_cons_self
    have hinsert : ({ d with line := .ofList typed } : Draft).edit n (.insert c) =
        { d with line := .ofList (typed ++ [c]) } := by
      rw [Draft.edit_insert, if_pos (by rw [Zipper.items_ofList]; omega)]
      simp [Zipper.ofList, Zipper.insert]
    have h0' : 0 ∉ typed ++ [c] := by simp [h0, (hc.ne 0 rfl).symm]
    rw [List.cons_append, Draft.read, if_neg (hc.ne 9 rfl), press_plain hc, enter, hinsert,
      ih (fun c' hc' => hplain c' (List.mem_cons_of_mem _ hc')) (by simp; omega) h0' (by omega), List.append_assoc,
      List.singleton_append]

end Draft

end ZkClient
