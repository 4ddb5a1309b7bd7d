import Mathlib.Data.List.DropRight
import ZkClient.Blocks
import ZkClient.Lib.Looking
import ZkClient.World

/-!
# Path completion

`path_completion` scans the line backwards twice, for the last blank and for the last slash, cuts the directory out of
it, asks for its children and offers those that begin with what was typed behind the slash.  `lastWord`, `directory` and
`typedName` say what the scans are to find.

The arrays that it builds are `pathArray` and `offerArray`, and `completionLooks` is the completion with the indices of
the line at which it looks; its allocations are taken to succeed.
-/

namespace ZkClient

open Pthread

/-! ### The parts of the line -/

def isBlank (b : UInt8) : Bool := b = 32 ∨ b = 9

/-- The line without leading blanks. -/
def typedLine (line : Bytes) : Bytes := line.dropWhile isBlank

/-- What follows the last blank. -/
def lastWord (buf : Bytes) : Bytes := buf.rtakeWhile fun b => ¬ isBlank b

/-- A text up to its last slash, with the slash. -/
def directory (text : Bytes) : Bytes := text.rdropWhile (· ≠ slash)

/-- What follows the last slash. -/
def typedName (text : Bytes) : Bytes := text.rtakeWhile (· ≠ slash)

/-- The path to ask for: the directory without its last slash, or `/` itself. -/
def queryOf (dir : Bytes) : Bytes := if dir = [slash] then [slash] else dir.dropLast

private theorem split_last {p : UInt8 → Bool} {l : Bytes} (h : ∃ b ∈ l, p b = true) :
    ∃ pre c, p c = true ∧ l.rdropWhile (fun b => ¬ p b) = pre ++ [c] ∧
      l = pre ++ c :: l.rtakeWhile (fun b => ¬ p b) := by
  have hne : l.rdropWhile (fun b => ¬ p b) ≠ [] := by
    intro hnil
    obtain ⟨b, hb, hp⟩ := h
    have := (List.rdropWhile_eq_nil_iff.1 hnil) b hb
    simp [hp] at this
  have hlast := List.rdropWhile_last_not _ _ hne
  refine ⟨(l.rdropWhile (fun b => ¬ p b)).dropLast, (l.rdropWhile (fun b => ¬ p b)).getLast hne, by simpa using hlast,
    (List.dropLast_append_getLast hne).symm, ?_⟩
  rw [← List.singleton_append, ← List.append_assoc, List.dropLast_append_getLast hne]
  exact List.rdropWhile_append_rtakeWhile.symm

variable {buf pre dir name : Bytes} {c : UInt8}

/-- A text with a slash is its directory and the name behind it. -/
theorem split_slash {text : Bytes} (h : slash ∈ text) :
    ∃ dir, directory text = dir ++ [slash] ∧ text = dir ++ slash :: typedName text := by
  obtain ⟨dir, c, hc, hdir, htext⟩ := split_last (p := (· = slash)) ⟨slash, h, by simp⟩
  obtain rfl : c = slash := by simpa using hc
  exact ⟨dir, by simpa [directory] using hdir, by simpa [typedName] using htext⟩

/-- A line with a space is a last word behind a blank. -/
theorem split_blank (h : 32 ∈ buf) : ∃ pre c, isBlank c = true ∧ buf = pre ++ c :: lastWord buf := by
  obtain ⟨pre, c, hc, -, hbuf⟩ := split_last (p := isBlank) ⟨32, h, by decide⟩
  exact ⟨pre, c, hc, hbuf⟩

theorem slash_not_mem_typedName (text : Bytes) : slash ∉ typedName text := by
  intro h
  simpa using List.mem_rtakeWhile_imp h

theorem not_isBlank_of_mem_lastWord {b : UInt8} (h : b ∈ lastWord buf) : isBlank b = false := by
  simpa using List.mem_rtakeWhile_imp h

/-! ### The scans -/

section Scan

variable {stop : UInt8 → Bool} {low : Int}

theorem val_scan_scanBack (stop : UInt8 → Bool) (low : Int) (buf : Bytes) (n : Nat) (i : Int) :
    (Looking.scan 0 buf (-1) (low ≤ ·) stop n i).val = scanBack stop low buf n i := by
  induction n generalizing i with
  | zero => rfl
  | succ n ih =>
    unfold Looking.scan scanBack
    by_cases hlow : low ≤ i
    · rw [if_pos (decide_eq_true hlow), Looking.Look.val_bind, Looking.Look.val_ite, ih, Int.add_neg_one]
      by_cases hstop : stop (buf.getD i.toNat 0) = true
      · exact (if_pos hstop).trans (if_neg fun h => h.2 hstop).symm
      · exact (if_neg hstop).trans (if_pos ⟨hlow, hstop⟩).symm
    · rw [if_neg (by simpa using hlow), if_neg fun h => hlow h.1]
      rfl

/-- A scan ends at the last byte that stops it, or in front of `low`. -/
theorem scanBack_spec (stop : UInt8 → Bool) (low : Int) (buf : Bytes) {n : Nat} {i : Int} (hn : i + 1 ≤ low + n)
    (hlow : low ≤ i + 1) :
    low ≤ scanBack stop low buf n i + 1 ∧ scanBack stop low buf n i ≤ i ∧
      (low ≤ scanBack stop low buf n i → stop (buf.getD (scanBack stop low buf n i).toNat 0) = true) ∧
      ∀ k, scanBack stop low buf n i < k → k ≤ i → stop (buf.getD k.toNat 0) = false := by
  induction n generalizing i with
  | zero =>
    show low ≤ i + 1 ∧ i ≤ i ∧ (low ≤ i → _) ∧ ∀ k, i < k → k ≤ i → _
    exact ⟨hlow, le_rfl, fun h => by omega, fun k h h' => by omega⟩
  | succ n ih =>
    unfold scanBack
    by_cases hstep : low ≤ i ∧ ¬ stop (buf.getD i.toNat 0) = true
    · rw [if_pos hstep]
      obtain ⟨hge, hle, hstop, hfree⟩ := ih (i := i - 1) (by omega) (by omega)
      refine ⟨hge, by omega, hstop, fun k hk hki => ?_⟩
      by_cases hlast : k = i
      · rw [hlast]
        simpa using hstep.2
      · exact hfree k hk (by omega)
    · rw [if_neg hstep]
      refine ⟨hlow, le_rfl, fun h => ?_, fun k h h' => by omega⟩
      by_contra hnot
      exact hstep ⟨h, hnot⟩

private theorem getD_at (pre : Bytes) (c : UInt8) (post : Bytes) : (pre ++ c :: post).getD pre.length 0 = c := by
  simp

private theorem getD_behind (pre : Bytes) (c : UInt8) (post : Bytes) {k : Int} (hk : pre.length < k)
    (hlt : k ≤ (pre ++ c :: post).length - 1) :
    (pre ++ c :: post).getD k.toNat 0 ∈ post := by
  rw [List.length_append, List.length_cons] at hlt
  obtain ⟨j, rfl⟩ : ∃ j : Nat, k = pre.length + 1 + j := ⟨(k - pre.length - 1).toNat, by omega⟩
  have hj : j < post.length := by omega
  have hidx : ((pre.length : Int) + 1 + j).toNat = pre.length + (j + 1) := by omega
  rw [hidx, List.getD_append_right _ _ _ _ (by omega), Nat.add_sub_cancel_left, List.getD_cons_succ,
    List.getD_eq_getElem _ _ hj]
  exact List.getElem_mem hj

/-- The scan of a line finds the last byte that stops it. -/
theorem scanBack_last (low : Int) (pre : Bytes) {post : Bytes} (hc : stop c = true)
    (hpost : ∀ b ∈ post, stop b = false) (hlow : 0 ≤ low) (hle : low ≤ pre.length) :
    scanBack stop low (pre ++ c :: post) (pre ++ c :: post).length ((pre ++ c :: post).length - 1) = pre.length := by
  have hlen : (pre ++ c :: post).length = pre.length + post.length + 1 := by simp; omega
  obtain ⟨hge, hle', hstop, hfree⟩ := scanBack_spec stop low (pre ++ c :: post) (n := (pre ++ c :: post).length)
    (i := (pre ++ c :: post).length - 1) (by omega) (by omega)
  generalize scanBack stop low (pre ++ c :: post) _ _ = r at hge hle' hstop hfree ⊢
  by_contra hne
  by_cases hlt : r < pre.length
  · have hnot := hfree pre.length hlt (by omega)
    rw [Int.toNat_natCast, getD_at, hc] at hnot
    cases hnot
  · have hmem := getD_behind pre c post (k := r) (by omega) hle'
    have hyes := hstop (by omega)
    rw [hpost _ hmem] at hyes
    cases hyes

/-- A scan does not end in a part without a byte that stops it. -/
theorem scanBack_front (low : Int) (pre : Bytes) (c : UInt8) {post : Bytes} (hpost : ∀ b ∈ post, stop b = false)
    (hlow : 0 ≤ low) (hle : low ≤ pre.length + 1) :
    scanBack stop low (pre ++ c :: post) (pre ++ c :: post).length ((pre ++ c :: post).length - 1) ≤ pre.length := by
  have hlen : (pre ++ c :: post).length = pre.length + post.length + 1 := by simp; omega
  obtain ⟨hge, hle', hstop, -⟩ := scanBack_spec stop low (pre ++ c :: post) (n := (pre ++ c :: post).length)
    (i := (pre ++ c :: post).length - 1) (by omega) (by omega)
  by_contra hgt
  have hmem := getD_behind pre c post (not_le.1 hgt) hle'
  have hyes := hstop (by omega)
  rw [hpost _ hmem] at hyes
  cases hyes

end Scan

/-! ### The comparison and the loop over the children -/

theorem val_compare (buf b : Bytes) (n i : Nat) :
    (Looking.compare 0 buf b n i).val = strncmpEq (buf.drop i) b n := by
  induction n generalizing b i with
  | zero => rfl
  | succ n ih =>
    have hrest := ih b.tail (i + 1)
    rw [Int.natCast_add, Int.natCast_one, ← List.tail_drop] at hrest
    have hhead : buf.getD i 0 = (buf.drop i).headD 0 := by
      rw [List.headD_eq_head?_getD, List.head?_drop, List.getD_eq_getElem?_getD]
    unfold Looking.compare strncmpEq
    rw [Looking.Look.val_bind, Looking.Look.val_ite, hrest]
    show (if buf.getD i 0 = _ ∧ buf.getD i 0 ≠ 0 then _ else decide (buf.getD i 0 = _)) = _
    rw [hhead]
    generalize (buf.drop i).headD 0 = c
    by_cases heq : c = b.headD 0 <;> by_cases hnul : c = 0 <;> simp [heq, hnul]

/-- On a string, `strncmp` over its whole length tests for a prefix. -/
theorem strncmpEq_iff {typed : Bytes} (h0 : 0 ∉ typed) (name : Bytes) :
    strncmpEq typed name typed.length = true ↔ typed <+: cstring name := by
  induction typed generalizing name with
  | nil => exact iff_of_true rfl List.nil_prefix
  | cons b typed ih =>
    rw [List.mem_cons, not_or] at h0
    have hne : b ≠ 0 := Ne.symm h0.1
    cases name with
    | nil =>
      refine iff_of_false ?_ ?_
      · simp [strncmpEq, hne]
      · simp [cstring]
    | cons d name =>
      by_cases hd : d = 0
      · subst hd
        refine iff_of_false ?_ ?_
        · simp [strncmpEq, hne]
        · simp [cstring]
      · have hcstring : cstring (d :: name) = d :: cstring name := by simp [cstring, hd]
        rw [hcstring, List.cons_prefix_cons, ← ih h0.2]
        simp [strncmpEq, hne]

/-- The children as strings that begin with `typed`. -/
def matching (typed : Bytes) (names : List Bytes) : List Bytes :=
  (names.map cstring).filter fun name => typed.isPrefixOf name

theorem prefix_of_matching (front : Bytes) {typed name : Bytes} {names : List Bytes} (h : name ∈ matching typed names) :
    front ++ typed <+: front ++ name :=
  (List.prefix_append_right_inj front).2 (List.isPrefixOf_iff_prefix.1 (List.mem_filter.1 h).2)

theorem map_filter_strncmpEq {typed : Bytes} (h0 : 0 ∉ typed) (names : List Bytes) :
    (names.filter fun name => strncmpEq typed name typed.length).map cstring = matching typed names := by
  rw [matching, List.filter_map]
  congr 1
  refine List.filter_congr fun name _ => ?_
  rw [Bool.eq_iff_iff, strncmpEq_iff h0, Function.comp_apply, List.isPrefixOf_iff_prefix]

/-- The first `count` children are `names`, none of them a null pointer. -/
def StringVector.Lists (v : StringVector) (names : List Bytes) : Prop :=
  v.count.toInt.toNat = names.length ∧ (names = [] ∨ ∃ rest, v.data = some (names.map some ++ rest))

variable {σ : Type} {H : Heap} {h : Handler σ} {s : σ}

private theorem run_entry {v : StringVector} {xs : List (Option Bytes)} (hv : v.data = some xs) {i : Nat} {name : Bytes}
    (hi : xs[i]? = some (some name)) : v.entry i = return some name := by
  unfold StringVector.entry
  rw [hv]
  dsimp only
  rw [hi]
  rfl

private theorem offerChildren_eq {v : StringVector} {typed : Bytes} {l names : List Bytes} {rest : List (Option Bytes)}
    (hv : names ≠ [] → v.data = some ((l ++ names).map some ++ rest)) :
    offerChildren v typed names.length l.length =
      return names.filter fun name => strncmpEq typed name typed.length := by
  induction names generalizing l with
  | nil => rfl
  | cons name names ih =>
    have hdata := hv (List.cons_ne_nil _ _)
    have hentry : ((l ++ name :: names).map some ++ rest)[l.length]? = some (some name) := by simp
    have hrest := ih (l := l ++ [name]) fun _ => by rw [hdata]; simp
    rw [List.length_append, List.length_singleton] at hrest
    rw [List.length_cons, offerChildren, run_entry hdata hentry]
    show (offerChildren v typed names.length (l.length + 1) >>= _) = _
    rw [hrest, List.filter_cons]
    rfl

/-- The loop over the children. -/
theorem offerChildren_lists {v : StringVector} {names : List Bytes} (hv : v.Lists names) (typed : Bytes) :
    offerChildren v typed v.count.toInt.toNat 0 =
      return names.filter fun name => strncmpEq typed name typed.length := by
  obtain ⟨hcount, hdata⟩ := hv
  rw [hcount]
  rcases hdata with rfl | ⟨rest, hrest⟩
  · rfl
  · exact offerChildren_eq (l := []) fun _ => hrest

/-! ### `path_completion` -/

/-- `path_completion` behind its request. -/
def offerMatches (buf : Bytes) (lastSlashPos : Int) : Int × Option StringVector → Zk (List Bytes)
  | (status, childrens) => do
    if status ≠ zkOk then return []
    let childrens := childrens.getD ⟨0, none⟩
    let offered ← offerChildren childrens (buf.drop (lastSlashPos + 1).toNat) childrens.count.toInt.toNat 0
    match offered with
    | [only] => return [buf.take (lastSlashPos + 1).toNat ++ only]
    | _ => return offered

/-- What is offered for the children `names`. -/
def offersFor (buf : Bytes) (lastSlashPos : Int) (names : List Bytes) : List Bytes :=
  let typed := buf.drop (lastSlashPos + 1).toNat
  match names.filter fun name => strncmpEq typed name typed.length with
  | [only] => [buf.take (lastSlashPos + 1).toNat ++ only]
  | offered => offered

def lastSpacePos (buf : Bytes) : Int := scanBack isBlank 0 buf buf.length (buf.length - 1)

def lastSlashPos (buf : Bytes) : Int := scanBack (· = slash) 1 buf buf.length (buf.length - 1)

/-- The string in `path` for the request. -/
def pathText (buf : Bytes) (lastSpacePos lastSlashPos : Int) : Bytes :=
  let pathLen := (lastSlashPos - lastSpacePos).toNat
  let path := (buf.drop (lastSpacePos + 1).toNat).take pathLen
  if 1 < pathLen ∧ path.getLast? = some slash then path.dropLast else path

theorem pathCompletion_eq (H : Heap) (buf : Bytes) : pathCompletion H buf =
    if lastSpacePos buf = buf.length - 1 then return []
    else if lastSlashPos buf - lastSpacePos buf ≤ 0 then return []
    else zkGetChildren H (some (pathText buf (lastSpacePos buf) (lastSlashPos buf))) >>=
      offerMatches buf (lastSlashPos buf) :=
  rfl

theorem lastSpacePos_eq (hc : isBlank c = true) (hbuf : buf = pre ++ c :: lastWord buf) :
    lastSpacePos buf = pre.length := by
  have hfree : ∀ b ∈ lastWord buf, isBlank b = false := fun b => not_isBlank_of_mem_lastWord
  have hscan := scanBack_last 0 pre hc hfree le_rfl (by omega)
  rwa [← hbuf] at hscan

theorem lastSlashPos_eq (hbuf : buf = pre ++ c :: lastWord buf)
    (hword : lastWord buf = dir ++ slash :: typedName (lastWord buf)) :
    lastSlashPos buf = pre.length + 1 + dir.length := by
  have hfree : ∀ b ∈ typedName (lastWord buf), decide (b = slash) = false := by
    intro b hb
    rw [decide_eq_false_iff_not]
    rintro rfl
    exact slash_not_mem_typedName _ hb
  have hscan := scanBack_last 1 (pre ++ c :: dir) (decide_eq_true (Eq.refl slash)) hfree (by omega) (by simp; omega)
  have hsplit : pre ++ c :: dir ++ slash :: typedName (lastWord buf) = buf := by
    rw [List.append_assoc, List.cons_append, ← hword, ← hbuf]
  rw [hsplit] at hscan
  rw [lastSlashPos, hscan]
  simp
  omega

theorem lastSlashPos_le (hbuf : buf = pre ++ c :: lastWord buf) (hword : slash ∉ lastWord buf) :
    lastSlashPos buf ≤ pre.length := by
  have hfree : ∀ b ∈ lastWord buf, decide (b = slash) = false := by
    intro b hb
    rw [decide_eq_false_iff_not]
    rintro rfl
    exact hword hb
  have hscan := scanBack_front 1 pre c hfree (by omega) (by omega)
  rwa [← hbuf] at hscan

private theorem slash_inside (hbuf : buf = pre ++ c :: lastWord buf)
    (hword : lastWord buf = dir ++ slash :: typedName (lastWord buf)) :
    pre.length + 1 + (dir.length + 1) ≤ buf.length := by
  have hlength := congrArg List.length hbuf
  rw [hword] at hlength
  simp only [List.length_append, List.length_cons] at hlength
  omega

/-- What is copied for the path. -/
private theorem path_cut (hc : isBlank c = true) (hbuf : buf = pre ++ c :: lastWord buf)
    (hword : lastWord buf = dir ++ slash :: typedName (lastWord buf)) :
    (lastSlashPos buf - lastSpacePos buf).toNat = dir.length + 1 ∧
      (buf.drop (lastSpacePos buf + 1).toNat).take (dir.length + 1) = dir ++ [slash] := by
  have hstart : (lastSpacePos buf + 1).toNat = pre.length + 1 := by
    rw [lastSpacePos_eq hc hbuf]
    omega
  have hdrop : buf.drop (pre.length + 1) = dir ++ [slash] ++ typedName (lastWord buf) := by
    rw [List.append_assoc, List.singleton_append, ← hword]
    conv => lhs; rw [hbuf, ← List.drop_drop, List.drop_left]
    rfl
  rw [hstart, hdrop, lastSpacePos_eq hc hbuf, lastSlashPos_eq hbuf hword]
  exact ⟨by omega, List.take_left' (by simp)⟩

theorem pathText_eq (hc : isBlank c = true) (hbuf : buf = pre ++ c :: lastWord buf)
    (hword : lastWord buf = dir ++ slash :: typedName (lastWord buf)) :
    pathText buf (lastSpacePos buf) (lastSlashPos buf) = queryOf (dir ++ [slash]) := by
  obtain ⟨hlen, hpath⟩ := path_cut hc hbuf hword
  unfold pathText
  dsimp only
  rw [hlen, hpath, queryOf, List.getLast?_concat, List.dropLast_concat]
  cases dir with
  | nil => rfl
  | cons b dir => rw [if_pos ⟨by simp, rfl⟩, if_neg (by simp)]

/-! ### The arrays -/

/-- `path` as it is for the request. -/
def pathArray (buf : Bytes) (lastSpacePos lastSlashPos : Int) : Block :=
  let pathLen := (lastSlashPos - lastSpacePos).toNat
  let path := ((Block.fresh (pathLen + 1)).copy 0 ((buf.drop (lastSpacePos + 1).toNat).take pathLen)).write pathLen 0
  if 1 < pathLen ∧ (path.cells[pathLen - 1]?).join = some slash then path.write (pathLen - 1 : Nat) 0 else path

/-- `completion_buf` for the only child. -/
def offerArray (buf : Bytes) (lastSlashPos : Int) (child : Bytes) : Block :=
  let dataLen := child.length
  let slashLen := (lastSlashPos + 1).toNat
  (((Block.fresh (dataLen + lastSlashPos + 2).toNat).copy 0 (buf.take slashLen)).copy slashLen child).write
    (dataLen + lastSlashPos + 1) 0

/-- `path` is filled in bounds and holds the path to ask for. -/
theorem pathArray_text (hc : isBlank c = true) (hbuf : buf = pre ++ c :: lastWord buf)
    (hword : lastWord buf = dir ++ slash :: typedName (lastWord buf)) (h0 : 0 ∉ dir) (H : Heap) :
    (pathArray buf (lastSpacePos buf) (lastSlashPos buf)).Inside ∧
      (pathArray buf (lastSpacePos buf) (lastSlashPos buf)).string H = queryOf (dir ++ [slash]) := by
  obtain ⟨hlen, hpath⟩ := path_cut hc hbuf hword
  have hcopy : ((Block.fresh (dir.length + 1 + 1)).copy 0 (dir ++ [slash])).write (dir.length + 1 : Nat) 0 =
      Block.place (dir.length + 1 + 1) (dir ++ [slash]) := by
    rw [Block.place, List.length_append, List.length_singleton]
  have hfits : (dir ++ [slash]).length < dir.length + 1 + 1 := by simp
  have hcells := cells_place hfits
  rw [List.map_append, List.append_assoc] at hcells
  have hlast : ((Block.place (dir.length + 1 + 1) (dir ++ [slash])).cells[dir.length]?).join = some slash := by
    rw [hcells, List.getElem?_append_right (by simp)]
    simp
  unfold pathArray
  dsimp only
  rw [hlen, hpath, hcopy, Nat.add_sub_cancel, hlast, queryOf]
  by_cases hdir : dir = []
  · subst hdir
    rw [if_neg (by simp), if_pos (List.nil_append [slash])]
    exact ⟨inside_place.2 hfits, string_place (by decide) hfits⟩
  · have hpos := List.length_pos_iff.2 hdir
    rw [if_pos ⟨by omega, rfl⟩, if_neg (by simpa using hdir), List.dropLast_concat]
    constructor
    · intro i hi
      rw [writes_write, List.mem_cons] at hi
      rw [length_write, length_place]
      rcases hi with rfl | hi
      · omega
      · have := mem_writes_place.1 hi
        omega
    · have hwrite := cells_write hcells 0
      rw [List.length_map] at hwrite
      exact string_of_cells hwrite h0

/-- `completion_buf` is filled in bounds and holds the line with the child. -/
theorem offerArray_text {child : Bytes} {slashPos : Int} (hpos : 0 ≤ slashPos) (hlt : slashPos < buf.length)
    (h0 : 0 ∉ buf) (hchild : 0 ∉ child) (H : Heap) :
    (offerArray buf slashPos child).Inside ∧
      (offerArray buf slashPos child).string H = buf.take (slashPos + 1).toNat ++ child := by
  obtain ⟨n, hn⟩ : ∃ n : Nat, slashPos = n := ⟨slashPos.toNat, by omega⟩
  subst hn
  have htake : (buf.take (n + 1)).length = n + 1 := List.length_take_of_le (by omega)
  have harray : offerArray buf n child = Block.place (child.length + n + 2) (buf.take (n + 1) ++ child) := by
    unfold offerArray Block.place
    dsimp only
    rw [copy_append, htake, List.length_append, htake, show ((n : Int) + 1).toNat = n + 1 by omega,
      show ((child.length : Int) + n + 2).toNat = child.length + n + 2 by omega,
      show (child.length : Int) + n + 1 = (n + 1 + child.length : Nat) by omega, Nat.zero_add]
  have hfits : (buf.take (n + 1) ++ child).length < child.length + n + 2 := by
    rw [List.length_append, htake]
    omega
  have hnul : 0 ∉ buf.take (n + 1) ++ child := by
    rw [List.mem_append, not_or]
    exact ⟨fun h => h0 (List.mem_of_mem_take h), hchild⟩
  rw [harray, show ((n : Int) + 1).toNat = n + 1 by omega]
  exact ⟨inside_place.2 hfits, string_place hnul hfits⟩

/-! ### The indices of the line -/

section Looks

open Looking (Look)

/-- `path_completion` with the indices of `buf` at which it looks when the children are `names`: the path that it asks
for, if any, and what it offers. -/
def pathLooks (buf : Bytes) (names : List Bytes) : Look (Option Bytes × List Bytes) := do
  let len : Int := buf.length
  let lastSpacePos ← Looking.scan 0 buf (-1) (0 ≤ ·) isBlank buf.length (len - 1)
  if lastSpacePos = len - 1 then return (none, [])
  let lastSlashPos ← Looking.scan 0 buf (-1) (1 ≤ ·) (· = slash) buf.length (len - 1)
  if lastSlashPos - lastSpacePos ≤ 0 then return (none, [])
  let pathLen := (lastSlashPos - lastSpacePos).toNat
  let path ← Looking.copy 0 buf pathLen (lastSpacePos + 1)
  let path := if 1 < pathLen ∧ path.getLast? = some slash then path.dropLast else path
  let typedLen := (len - lastSlashPos - 1).toNat
  let offered ← Looking.select (fun name => Looking.compare 0 buf name typedLen (lastSlashPos + 1)) names
  match offered with
  | [only] => do
    let front ← Looking.copy 0 buf (lastSlashPos + 1).toNat 0
    return (some path, [front ++ only])
  | _ => return (some path, offered)

/-- `completion` with the indices of the line at which it looks, the one of the terminator included: for the leading
blanks, in `strlen`, in `memchr`, and in `path_completion` or the comparisons with the commands. -/
def completionLooks (line : Bytes) (names : List Bytes) : Look (Option Bytes × List Bytes) := do
  let i ← Looking.scan 0 line 1 (fun _ => true) (fun b => ¬ isBlank b) (line.length + 1) 0
  let len ← Looking.scan 0 line 1 (fun _ => true) (· = 0) (line.length + 1) 0
  if 0 < len - i then
    let buf := line.drop i.toNat
    Look.shift i do
      let pos ← Looking.scan 0 buf 1 (· < len - i) (· = 32) (buf.length + 1) 0
      if pos < len - i then pathLooks buf names
      else return (none, ← Looking.select (fun c => Looking.compare 0 buf c (len - i).toNat 0) commands)
  else return (none, [])

/-- The indices of the line at which `completion` looks. -/
def completionReads (line : Bytes) (names : List Bytes) : List Int := (completionLooks line names).indices

theorem val_scan_space (buf : Bytes) :
    (Looking.scan 0 buf (-1) (0 ≤ ·) isBlank buf.length (buf.length - 1)).val = lastSpacePos buf :=
  val_scan_scanBack ..

theorem val_scan_slash (buf : Bytes) :
    (Looking.scan 0 buf (-1) (1 ≤ ·) (· = slash) buf.length (buf.length - 1)).val = lastSlashPos buf :=
  val_scan_scanBack ..

theorem lastSpacePos_bounds (buf : Bytes) : -1 ≤ lastSpacePos buf ∧ lastSpacePos buf ≤ buf.length - 1 := by
  obtain ⟨hge, hle, -, -⟩ := scanBack_spec isBlank 0 buf (n := buf.length) (i := buf.length - 1) (by omega) (by omega)
  exact ⟨by unfold lastSpacePos; omega, hle⟩

theorem lastSlashPos_bounds (hbuf : buf ≠ []) : 0 ≤ lastSlashPos buf ∧ lastSlashPos buf ≤ buf.length - 1 := by
  have hpos := List.length_pos_iff.2 hbuf
  obtain ⟨hge, hle, -, -⟩ :=
    scanBack_spec (· = slash) 1 buf (n := buf.length) (i := buf.length - 1) (by omega) (by omega)
  exact ⟨by unfold lastSlashPos; omega, hle⟩

theorem val_pathLooks (buf : Bytes) (names : List Bytes) : (pathLooks buf names).val =
    if lastSpacePos buf = buf.length - 1 then (none, [])
    else if lastSlashPos buf - lastSpacePos buf ≤ 0 then (none, [])
    else (some (pathText buf (lastSpacePos buf) (lastSlashPos buf)), offersFor buf (lastSlashPos buf) names) := by
  have hspace := lastSpacePos_bounds buf
  unfold pathLooks
  dsimp only
  rw [Look.val_bind, val_scan_space, Look.val_ite]
  split
  · rfl
  rename_i hend
  have hslash := lastSlashPos_bounds fun hnil : buf = [] => hend (by subst hnil; rfl)
  rw [Look.val_bind, val_scan_slash, Look.val_ite]
  split
  · rfl
  rename_i hword
  obtain ⟨i, hi⟩ : ∃ i : Nat, lastSpacePos buf + 1 = i := ⟨(lastSpacePos buf + 1).toNat, by omega⟩
  obtain ⟨j, hj⟩ : ∃ j : Nat, lastSlashPos buf + 1 = j := ⟨(lastSlashPos buf + 1).toNat, by omega⟩
  have hlen : (buf.length - lastSlashPos buf - 1).toNat = (buf.drop j).length := by
    rw [List.length_drop]
    omega
  rw [Look.val_bind, Look.val_bind, Looking.val_select, hi, Looking.val_copy (by omega)]
  unfold offersFor pathText
  dsimp only
  rw [hi, hj, hlen, Int.toNat_natCast, Int.toNat_natCast]
  simp only [val_compare]
  generalize names.filter _ = found
  have hfront : (Looking.copy 0 buf j 0).val = buf.take j := Looking.val_copy (i := 0) (by omega)
  rcases found with _ | ⟨child, _ | ⟨child', rest⟩⟩
  · rfl
  · rw [← hfront]
    rfl
  · rfl

theorem pathLooks_within (buf : Bytes) (names : List Bytes) :
    (pathLooks buf names).Within fun k => 0 ≤ k ∧ k < buf.length := by
  have hspace := lastSpacePos_bounds buf
  unfold pathLooks
  dsimp only
  refine .bind (Looking.within_scan_back.imp fun k hk => ?_) ?_
  · rw [decide_eq_true_eq] at hk
    omega
  rw [val_scan_space]
  split
  · exact .pure _
  rename_i hend
  have hslash := lastSlashPos_bounds fun hnil : buf = [] => hend (by subst hnil; rfl)
  refine .bind (Looking.within_scan_back.imp fun k hk => ?_) ?_
  · rw [decide_eq_true_eq] at hk
    omega
  rw [val_scan_slash]
  split
  · exact .pure _
  refine .bind (Looking.within_copy.imp fun k hk => by omega) (.bind ?_ ?_)
  · exact Looking.within_select fun name _ => Looking.within_compare.imp fun k hk => by omega
  split
  · exact .bind (Looking.within_copy.imp fun k hk => by omega) (.pure _)
  · exact .pure _

/-- The leading blanks are skipped. -/
theorem val_scan_blanks (line : Bytes) :
    (Looking.scan 0 line 1 (fun _ => true) (fun b => ¬ isBlank b) (line.length + 1) 0).val =
      (line.takeWhile isBlank).length := by
  have hscan : (Looking.scan 0 line 1 (fun _ => true) (fun b => ¬ isBlank b) (line.length + 1) (0 : Nat)).val = _ :=
    Looking.val_scan_forward (fun _ _ => rfl) (fun _ => by decide) (by omega) (by omega)
  simpa using hscan

/-- `strlen`. -/
theorem val_scan_strlen (line : Bytes) :
    (Looking.scan 0 line 1 (fun _ => true) (· = 0) (line.length + 1) 0).val = (cstring line).length := by
  have hscan : (Looking.scan 0 line 1 (fun _ => true) (· = 0) (line.length + 1) (0 : Nat)).val = _ :=
    Looking.val_scan_forward (fun _ _ => rfl) (fun _ => by decide) (by omega) (by omega)
  simpa [cstring] using hscan

theorem drop_blanks (line : Bytes) : line.drop (line.takeWhile isBlank).length = typedLine line := by
  have hsplit : (line.takeWhile isBlank ++ typedLine line).drop (line.takeWhile isBlank).length = typedLine line :=
    List.drop_left
  rwa [typedLine, List.takeWhile_append_dropWhile] at hsplit

theorem length_typedLine (line : Bytes) :
    (line.takeWhile isBlank).length + (typedLine line).length = line.length := by
  rw [typedLine, ← List.length_append, List.takeWhile_append_dropWhile]

theorem completionReads_bounds (line : Bytes) (names : List Bytes) {k : Int} (hk : k ∈ completionReads line names) :
    0 ≤ k ∧ k ≤ line.length := by
  have hwithin : (completionLooks line names).Within fun k => 0 ≤ k ∧ k ≤ line.length := by
    have hlen := length_typedLine line
    have hstring : (cstring line).length ≤ line.length := (List.takeWhile_sublist _).length_le
    unfold completionLooks
    refine .bind ((Looking.within_scan_forward (fun _ => by decide) (by omega)).imp fun k hk => by omega)
      (.bind ((Looking.within_scan_forward (fun _ => by decide) (by omega)).imp fun k hk => by omega) ?_)
    rw [val_scan_blanks, val_scan_strlen]
    split
    · dsimp only
      rw [Int.toNat_natCast, drop_blanks]
      refine .shift (.bind ((Looking.within_scan_forward ?_ (by omega)).imp fun k hk => by omega) ?_)
      · rw [decide_eq_true_eq]
        omega
      · split
        · exact (pathLooks_within _ _).imp fun k hk => by omega
        · refine .bind (Looking.within_select fun c _ => Looking.within_compare.imp fun k hk => by omega) (.pure _)
    · exact .pure _
  exact hwithin k hk

/-- A line with a space goes to `path_completion`. -/
theorem val_completionLooks {line : Bytes} (h0 : 0 ∉ line) (hspace : 32 ∈ typedLine line) (names : List Bytes) :
    (completionLooks line names).val = (pathLooks (typedLine line) names).val := by
  have hlen := length_typedLine line
  have hpos := List.length_pos_of_mem hspace
  have hfind : (Looking.scan 0 (typedLine line) 1 (· < ((typedLine line).length : Int)) (· = 32)
      ((typedLine line).length + 1) 0).val < (typedLine line).length := by
    have hscan : (Looking.scan 0 (typedLine line) 1 (· < ((typedLine line).length : Int)) (· = 32)
        ((typedLine line).length + 1) (0 : Nat)).val = _ :=
      Looking.val_scan_forward (fun k hk => by simpa using hk) (fun h => by simp at h) (by omega) (by omega)
    have hshort : ((typedLine line).takeWhile fun b => ¬ decide (b = 32) = true).length < (typedLine line).length := by
      by_contra hall
      have hself := (List.takeWhile_prefix _).eq_of_length_le (not_lt.1 hall)
      simpa using List.takeWhile_eq_self_iff.1 hself 32 hspace
    rw [Int.natCast_zero] at hscan
    rw [hscan, List.drop_zero]
    omega
  unfold completionLooks
  rw [Look.val_bind, Look.val_bind, val_scan_blanks, val_scan_strlen, cstring_eq_self h0, Look.val_ite,
    if_pos (by omega)]
  dsimp only
  rw [Int.toNat_natCast, drop_blanks, Look.val_shift, Look.val_bind,
    show (line.length : Int) - (line.takeWhile isBlank).length = (typedLine line).length by omega, Look.val_ite,
    if_pos hfind]

end Looks

/-! ### The completion of a line -/

/-- A text with a slash behind `front` is cut at the same slash. -/
private theorem directory_append (front : Bytes) {text : Bytes} (h : text = dir ++ slash :: typedName text) :
    directory (front ++ text) = front ++ (dir ++ [slash]) ∧ typedName (front ++ text) = typedName text := by
  have hfree : ∀ b ∈ (typedName text).reverse, decide (b ≠ slash) = true := by
    intro b hb
    rw [decide_eq_true_eq]
    rintro rfl
    exact slash_not_mem_typedName _ (List.mem_reverse.1 hb)
  have hreverse : (front ++ text).reverse = (typedName text).reverse ++ slash :: (front ++ dir).reverse := by
    conv => lhs; rw [h]
    simp
  constructor
  · rw [directory, List.rdropWhile, hreverse, List.dropWhile_append_of_pos hfree, List.dropWhile_cons]
    simp
  · conv => lhs; rw [typedName, List.rtakeWhile, hreverse, List.takeWhile_append_of_pos hfree, List.takeWhile_cons]
    simp

/-- The line without leading blanks is cut behind its last slash. -/
theorem cut_slash (hbuf : buf = pre ++ c :: lastWord buf)
    (hword : lastWord buf = dir ++ slash :: typedName (lastWord buf)) :
    buf.take (lastSlashPos buf + 1).toNat = directory buf ∧
      buf.drop (lastSlashPos buf + 1).toNat = typedName (lastWord buf) := by
  have hdir := (directory_append (pre ++ [c]) hword).1
  rw [List.append_assoc, List.singleton_append, ← hbuf, List.append_assoc, List.singleton_append] at hdir
  have hsplit : buf = directory buf ++ typedName (lastWord buf) := by
    rw [hdir]
    conv => lhs; rw [hbuf, hword]
    simp
  have hlen : (lastSlashPos buf + 1).toNat = (directory buf).length := by
    rw [lastSlashPos_eq hbuf hword, hdir]
    simp
    omega
  have htake : (directory buf ++ typedName (lastWord buf)).take (directory buf).length = directory buf :=
    List.take_left
  have hdrop : (directory buf ++ typedName (lastWord buf)).drop (directory buf).length = typedName (lastWord buf) :=
    List.drop_left
  rw [← hsplit] at htake hdrop
  rw [hlen]
  exact ⟨htake, hdrop⟩

theorem offerMatches_lists {slashPos : Int} {o : Option StringVector} {names : List Bytes}
    (ho : (o.getD ⟨0, none⟩).Lists names) :
    offerMatches buf slashPos (zkOk, o) = pure (offersFor buf slashPos names) := by
  unfold offerMatches offersFor
  dsimp only
  rw [if_neg (not_not.2 rfl), offerChildren_lists ho]
  generalize names.filter _ = found
  rcases found with _ | ⟨child, _ | ⟨child', rest⟩⟩
  all_goals rfl

/-- What is offered, as strings. -/
private theorem map_offersFor (slashPos : Int) (h0 : 0 ∉ buf) (names : List Bytes) :
    ((matching (buf.drop (slashPos + 1).toNat) names).length ≠ 1 →
      (offersFor buf slashPos names).map cstring = matching (buf.drop (slashPos + 1).toNat) names) ∧
    ∀ only, matching (buf.drop (slashPos + 1).toNat) names = [only] →
      (offersFor buf slashPos names).map cstring = [buf.take (slashPos + 1).toNat ++ only] := by
  have hnul : 0 ∉ buf.drop (slashPos + 1).toNat := fun h => h0 (List.mem_of_mem_drop h)
  rw [← map_filter_strncmpEq hnul, List.length_map]
  unfold offersFor
  dsimp only
  generalize names.filter _ = found
  rcases found with _ | ⟨child, _ | ⟨child', rest⟩⟩
  · exact ⟨fun _ => rfl, fun only h => by cases h⟩
  · refine ⟨fun h => absurd rfl h, fun only h => ?_⟩
    obtain rfl := (List.cons.inj h).1
    show [cstring (buf.take (slashPos + 1).toNat ++ child)] = _
    rw [cstring_append fun h => h0 (List.mem_of_mem_take h)]
  · exact ⟨fun _ => rfl, fun only h => by cases h⟩

/-- The path to ask for. -/
def completionQuery (line : Bytes) : Bytes := queryOf (directory (lastWord (typedLine line)))

/-- What completion is to do when its request is answered with `r`. -/
structure Offers (H : Heap) (h : Handler σ) (s : σ) (line : Bytes) (r : Int × Option StringVector) (s' : σ) : Prop where
  /-- There is one request and nothing else. -/
  once : (r.1 = zkOk → ∃ names, (r.2.getD ⟨0, none⟩).Lists names) →
    (completion H line).log h s = (zkGetChildren H (some (completionQuery line))).log h s ∧
      ((completion H line).run h s).2 = s'
  refused : r.1 ≠ zkOk → ((completion H line).run h s).1 = []
  several : r.1 = zkOk → ∀ names, (r.2.getD ⟨0, none⟩).Lists names →
    (matching (typedName (lastWord (typedLine line))) names).length ≠ 1 →
    ((completion H line).run h s).1.map cstring = matching (typedName (lastWord (typedLine line))) names
  /-- The only child is offered behind the line up to its last slash. -/
  single : r.1 = zkOk → ∀ names only, (r.2.getD ⟨0, none⟩).Lists names →
    matching (typedName (lastWord (typedLine line))) names = [only] →
    ((completion H line).run h s).1.map cstring = [directory (typedLine line) ++ only] ∧
      typedLine line <+: directory (typedLine line) ++ only
  /-- The completion that records where it looks asks for the same path and finds the same offers. -/
  looks : r.1 = zkOk → ∀ names, (r.2.getD ⟨0, none⟩).Lists names →
    (completionLooks line names).val = (some (completionQuery line), ((completion H line).run h s).1)

/-- The arrays of a completion are filled in bounds, `path` with the path to ask for and `completion_buf` with the only
offer. -/
structure Arrays (H : Heap) (line : Bytes) : Prop where
  path_inside : (pathArray (typedLine line) (lastSpacePos (typedLine line)) (lastSlashPos (typedLine line))).Inside
  path : (pathArray (typedLine line) (lastSpacePos (typedLine line)) (lastSlashPos (typedLine line))).string H =
    completionQuery line
  offer_inside : ∀ only, 0 ∉ only → (offerArray (typedLine line) (lastSlashPos (typedLine line)) only).Inside
  offer : ∀ only, 0 ∉ only →
    (offerArray (typedLine line) (lastSlashPos (typedLine line)) only).string H = directory (typedLine line) ++ only

/-- What tab completion is to do for a line with a space. -/
structure Completes (H : Heap) (h : Handler σ) (s : σ) (line : Bytes) : Prop where
  /-- Without a slash in the last word nothing is asked for and nothing is offered. -/
  idle : slash ∉ lastWord (typedLine line) →
    (completion H line).run h s = ([], s) ∧ (completion H line).log h s = [] ∧
      ∀ names, (completionLooks line names).val = (none, [])
  asks : slash ∈ lastWord (typedLine line) → ∀ r s',
    (zkGetChildren H (some (completionQuery line))).run h s = (r, s') → Offers H h s line r s'
  reads : ∀ names, ∀ k ∈ completionReads line names, 0 ≤ k ∧ k ≤ line.length
  arrays : slash ∈ lastWord (typedLine line) → Arrays H line

theorem completion_eq (H : Heap) {line : Bytes} (hspace : 32 ∈ typedLine line) :
    completion H line = pathCompletion H (typedLine line) := by
  have hcompletion : completion H line = if typedLine line = [] then return []
      else if 32 ∈ typedLine line then pathCompletion H (typedLine line)
      else return commands.filter fun c => strncmpEq (typedLine line) c (typedLine line).length := rfl
  rw [hcompletion, if_neg (List.ne_nil_of_mem hspace), if_pos hspace]

theorem pathCompletion_idle (H : Heap) (hc : isBlank c = true) (hbuf : buf = pre ++ c :: lastWord buf)
    (hword : slash ∉ lastWord buf) : pathCompletion H buf = return [] := by
  have hle := lastSlashPos_le hbuf hword
  rw [pathCompletion_eq]
  by_cases hend : lastSpacePos buf = buf.length - 1
  · rw [if_pos hend]
  · rw [if_neg hend, if_pos]
    rw [lastSpacePos_eq hc hbuf]
    omega

theorem pathLooks_idle (hc : isBlank c = true) (hbuf : buf = pre ++ c :: lastWord buf) (hword : slash ∉ lastWord buf)
    (names : List Bytes) : (pathLooks buf names).val = (none, []) := by
  have hle := lastSlashPos_le hbuf hword
  rw [val_pathLooks]
  by_cases hend : lastSpacePos buf = buf.length - 1
  · rw [if_pos hend]
  · rw [if_neg hend, if_pos]
    rw [lastSpacePos_eq hc hbuf]
    omega

/-- A slash in the last word gets `path_completion` to its request. -/
private theorem asks_reached (hc : isBlank c = true) (hbuf : buf = pre ++ c :: lastWord buf)
    (hword : lastWord buf = dir ++ slash :: typedName (lastWord buf)) :
    lastSpacePos buf ≠ buf.length - 1 ∧ ¬ lastSlashPos buf - lastSpacePos buf ≤ 0 := by
  have hlen := slash_inside hbuf hword
  rw [lastSpacePos_eq hc hbuf, lastSlashPos_eq hbuf hword]
  omega

theorem pathCompletion_asks (H : Heap) (hc : isBlank c = true) (hbuf : buf = pre ++ c :: lastWord buf)
    (hword : lastWord buf = dir ++ slash :: typedName (lastWord buf)) : pathCompletion H buf =
      zkGetChildren H (some (queryOf (dir ++ [slash]))) >>= offerMatches buf (lastSlashPos buf) := by
  obtain ⟨hend, hlate⟩ := asks_reached hc hbuf hword
  rw [pathCompletion_eq, pathText_eq hc hbuf hword, if_neg hend, if_neg hlate]

theorem zero_not_mem_typedLine {line : Bytes} (h0 : 0 ∉ line) : 0 ∉ typedLine line := fun hmem =>
  h0 ((List.dropWhile_suffix _).mem hmem)

private theorem completion_offers {line : Bytes} (h0 : 0 ∉ line) (hspace : 32 ∈ typedLine line)
    (hmem : slash ∈ lastWord (typedLine line)) {r : Int × Option StringVector} {s' : σ}
    (hrun : (zkGetChildren H (some (completionQuery line))).run h s = (r, s')) : Offers H h s line r s' := by
  obtain ⟨pre, c, hc, hbuf⟩ := split_blank hspace
  obtain ⟨dir, hdir, hword⟩ := split_slash hmem
  obtain ⟨htake, hdrop⟩ := cut_slash hbuf hword
  obtain ⟨status, o⟩ := r
  have hcompletion : completion H line = zkGetChildren H (some (completionQuery line)) >>=
      offerMatches (typedLine line) (lastSlashPos (typedLine line)) := by
    rw [completion_eq H hspace, pathCompletion_asks H hc hbuf hword, ← hdir]
    rfl
  have hresult : (completion H line).run h s =
      (offerMatches (typedLine line) (lastSlashPos (typedLine line)) (status, o)).run h s' := by
    rw [hcompletion, Prog.run_bind, hrun]
  have hlog : (completion H line).log h s = (zkGetChildren H (some (completionQuery line))).log h s ++
      (offerMatches (typedLine line) (lastSlashPos (typedLine line)) (status, o)).log h s' := by
    rw [hcompletion, Prog.log_bind, hrun]
  have hrefused : status ≠ zkOk →
      offerMatches (typedLine line) (lastSlashPos (typedLine line)) (status, o) = return [] :=
    fun hstatus => if_pos hstatus
  have hoffers := map_offersFor (lastSlashPos (typedLine line)) (zero_not_mem_typedLine h0)
  rw [htake, hdrop] at hoffers
  constructor
  case once =>
    intro hnames
    rw [hlog, hresult]
    by_cases hstatus : status = zkOk
    · subst hstatus
      obtain ⟨names, hnames⟩ := hnames rfl
      rw [offerMatches_lists hnames]
      exact ⟨List.append_nil _, rfl⟩
    · rw [hrefused hstatus]
      exact ⟨List.append_nil _, rfl⟩
  case refused =>
    intro hstatus
    rw [hresult, hrefused hstatus]
    rfl
  case several =>
    intro hstatus names hnames hmany
    obtain rfl : status = zkOk := hstatus
    rw [hresult, offerMatches_lists hnames]
    exact (hoffers names).1 hmany
  case single =>
    intro hstatus names only hnames hone
    obtain rfl : status = zkOk := hstatus
    rw [hresult, offerMatches_lists hnames]
    refine ⟨(hoffers names).2 only hone, ?_⟩
    have honly : only ∈ matching (typedName (lastWord (typedLine line))) names := by
      rw [hone]
      exact List.mem_singleton_self only
    have hextends := prefix_of_matching (directory (typedLine line)) honly
    have hsplit : directory (typedLine line) ++ typedName (lastWord (typedLine line)) = typedLine line := by
      rw [← htake, ← hdrop, List.take_append_drop]
    rwa [hsplit] at hextends
  case looks =>
    intro hstatus names hnames
    obtain rfl : status = zkOk := hstatus
    obtain ⟨hend, hlate⟩ := asks_reached hc hbuf hword
    rw [hresult, offerMatches_lists hnames, val_completionLooks h0 hspace, val_pathLooks, pathText_eq hc hbuf hword,
      if_neg hend, if_neg hlate, ← hdir]
    rfl

private theorem completion_arrays (H : Heap) {line : Bytes} (h0 : 0 ∉ line) (hspace : 32 ∈ typedLine line)
    (hmem : slash ∈ lastWord (typedLine line)) : Arrays H line := by
  have hnul := zero_not_mem_typedLine h0
  obtain ⟨pre, c, hc, hbuf⟩ := split_blank hspace
  obtain ⟨dir, hdir, hword⟩ := split_slash hmem
  obtain ⟨htake, -⟩ := cut_slash hbuf hword
  have hnuldir : 0 ∉ dir := by
    intro h
    have hlast : 0 ∈ lastWord (typedLine line) := by
      rw [hword]
      exact List.mem_append_left _ h
    exact hnul ((List.rtakeWhile_suffix _ _).mem hlast)
  have hslash := lastSlashPos_eq hbuf hword
  have hlen := slash_inside hbuf hword
  have hoffer : ∀ only, 0 ∉ only → (offerArray (typedLine line) (lastSlashPos (typedLine line)) only).Inside ∧
      (offerArray (typedLine line) (lastSlashPos (typedLine line)) only).string H = _ :=
    fun only honly => offerArray_text (by omega) (by omega) hnul honly H
  rw [htake] at hoffer
  obtain ⟨hinside, hpath⟩ := pathArray_text hc hbuf hword hnuldir H
  rw [← hdir] at hpath
  exact ⟨hinside, hpath, fun only h => (hoffer only h).1, fun only h => (hoffer only h).2⟩

/-- Tab completion of a line with a space. -/
theorem completion_completes (H : Heap) (h : Handler σ) (s : σ) {line : Bytes} (h0 : 0 ∉ line)
    (hspace : 32 ∈ typedLine line) : Completes H h s line := by
  obtain ⟨pre, c, hc, hbuf⟩ := split_blank hspace
  refine ⟨fun hword => ?_, fun hmem r s' => completion_offers h0 hspace hmem,
    fun names k => completionReads_bounds line names, completion_arrays H h0 hspace⟩
  rw [completion_eq H hspace, pathCompletion_idle H hc hbuf hword]
  exact ⟨rfl, rfl, fun names => (val_completionLooks h0 hspace names).trans (pathLooks_idle hc hbuf hword names)⟩

/-- The line `ls /a`. -/
theorem completion_completes_ls :
    Completes .plenty (World.handle .plenty) (World.idle (initClient [] 10 3 0 0 0)) [108, 115, 32, 47, 97] :=
  completion_completes .plenty (World.handle .plenty) _ (by decide) (by decide)

end ZkClient
