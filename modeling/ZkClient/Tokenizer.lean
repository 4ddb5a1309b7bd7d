import ZkClient.Lib.Cutting
import ZkClient.Recordio

/-!
# Splitting strings (`util.c`)

`sdssplitlen` takes command lines and server lists apart.  The tokens are kept in an array that is doubled when it is
about to get full; a token is a block with a terminator.  `reads` and `stores` record the accesses: the indices into the
string, and the indices into the array together with the number of its slots at that time.
-/

namespace ZkClient

open Cutting

/-- The local variables of `sdssplitlen`; `none` is a slot that has not been assigned. -/
structure Splitting where
  tokens : List (Option Bytes)
  elements : Nat
  start : Nat
  reads : List Nat
  stores : List (Nat × Nat)
  deriving DecidableEq, Repr

def Splitting.slots (x : Splitting) : Nat := x.tokens.length

section Split

-- `grants n`: the allocator grants a request for `n` bytes
variable (grants : Int → Bool)

/-- `slots *= 2` and `realloc` when there is no room for the next element and the final one. -/
def Splitting.makeRoom (x : Splitting) : Option Splitting :=
  if x.slots < x.elements + 2 then
    if grants (8 * (x.slots * 2 : Nat)) then some { x with tokens := x.tokens ++ List.replicate x.slots none } else none
  else some x

/-- `tmp = malloc(..); memcpy(tmp, s + start, ..); tokens[elements++] = tmp;` for what lies between `start` and `stop`. -/
def Splitting.add (s : Bytes) (stop : Nat) (x : Splitting) : Option Splitting :=
  if 0 < (stop : Int) - x.start then
    -- without memory, `memcpy` writes through the null pointer before it is looked at
    if grants (wrap32 (stop - x.start + 1)) then
      some { x with
        tokens := x.tokens.set x.elements (some ((s.drop x.start).take (stop - x.start) ++ [0]))
        elements := x.elements + 1
        reads := x.reads ++ List.range' x.start (stop - x.start)
        stores := x.stores ++ [(x.elements, x.slots)] }
    else none
  else some x

/-- The test for the separator. -/
def separates (s sep : Bytes) (j : Nat) : Bool :=
  (sep.length = 1 ∧ s.getD j 0 = sep.headD 0) ∨ (s.drop j).take sep.length = sep

/-- The loop of `sdssplitlen`. -/
def splitLoop (s sep : Bytes) (hsep : 1 ≤ sep.length) (j : Nat) (x : Splitting) : Option Splitting :=
  if h : (j : Int) < s.length - (sep.length - 1) then do
    let x ← x.makeRoom grants
    let x := { x with reads := x.reads ++ List.range' j sep.length }
    if separates s sep j then do
      let x ← x.add grants s j
      -- `j = j+seplen-1`, and `j++`
      splitLoop s sep hsep (j + sep.length) { x with start := j + sep.length }
    else splitLoop s sep hsep (j + 1) x
  else some x
termination_by s.length - j

/-- The array before the loop. -/
def Splitting.fresh : Splitting :=
  { tokens := List.replicate 5 none, elements := 0, start := 0, reads := [], stores := [] }

/-- `sdssplitlen`; `*count` is `elements`. -/
def sdssplitlen (s sep : Bytes) : Option Splitting :=
  if hsep : 1 ≤ sep.length then
    if grants (8 * 5) then
      if s = [] then some .fresh
      else do
        let x ← splitLoop grants s sep hsep 0 .fresh
        x.add grants s s.length
    else none
  else none

end Split

/-! ### The loop -/

/-- The tokens for the pieces of a string: the empty ones are left out, the others get a terminator. -/
def tokensOf (pieces : List Bytes) : List Bytes := (pieces.filter (· ≠ [])).map (· ++ [0])

/-- The array holds the tokens `done` and has `room` slots left at least, and every access so far was inside. -/
structure Splitting.Holds (s : Bytes) (x : Splitting) (done : List Bytes) (room : Nat) : Prop where
  elements : x.elements = done.length
  tokens : ∃ free, room ≤ free ∧ x.tokens = done.map some ++ List.replicate free none
  doubled : ∃ k, x.slots = 5 * 2 ^ k
  fits : x.slots ≤ max 5 (s.length + 2)
  reads : ∀ i ∈ x.reads, i < s.length
  indices : x.stores.map Prod.fst = List.range done.length
  stores : ∀ p ∈ x.stores, p.1 < p.2

variable {grants : Int → Bool} {s sep : Bytes} {x : Splitting} {done : List Bytes} {room j : Nat}

private theorem mem_range' {i n k : Nat} (h : i ∈ List.range' n k) : i < n + k := by
  rw [List.mem_range'] at h
  obtain ⟨d, hd, rfl⟩ := h
  omega

theorem Splitting.Holds.slots_ge (h : x.Holds s done room) : done.length + room ≤ x.slots := by
  obtain ⟨free, hfree, htokens⟩ := h.tokens
  rw [Splitting.slots, htokens, List.length_append, List.length_map, List.length_replicate]
  omega

theorem Splitting.Holds.mono {room' : Nat} (h : x.Holds s done room) (hle : room' ≤ room) : x.Holds s done room' := by
  obtain ⟨free, hfree, htokens⟩ := h.tokens
  exact { h with tokens := ⟨free, hle.trans hfree, htokens⟩ }

/-- After `makeRoom` there is room for the next element and the final one. -/
private theorem makeRoom_holds (hok : ∀ n, grants n = true) (h : x.Holds s done 1)
    (htwice : 2 * done.length ≤ s.length) :
    ∃ y, x.makeRoom grants = some y ∧ y.Holds s done 2 ∧ y.start = x.start := by
  have hslots := h.slots_ge
  have helements := h.elements
  obtain ⟨free, hfree, htokens⟩ := h.tokens
  have hlen : x.slots = done.length + free := by
    rw [Splitting.slots, htokens, List.length_append, List.length_map, List.length_replicate]
  unfold Splitting.makeRoom
  by_cases hfull : x.slots < x.elements + 2
  · rw [if_pos hfull, if_pos (hok _)]
    obtain ⟨k, hk⟩ := h.doubled
    have hdouble : (x.tokens ++ List.replicate x.slots none).length = x.slots * 2 := by
      rw [List.length_append, List.length_replicate, Splitting.slots]
      omega
    refine ⟨_, rfl, { h with tokens := ⟨free + x.slots, by omega, ?_⟩, doubled := ⟨k + 1, ?_⟩, fits := ?_ }, rfl⟩
    · show x.tokens ++ _ = _
      rw [htokens, List.append_assoc, List.replicate_append_replicate]
    · show (x.tokens ++ _).length = _
      rw [hdouble, hk, pow_succ, Nat.mul_assoc]
    · show (x.tokens ++ _).length ≤ _
      rw [hdouble]
      omega
  · rw [if_neg hfull]
    exact ⟨x, rfl, { h with tokens := ⟨free, by omega, htokens⟩ }, rfl⟩

/-- What lies between `start` and `stop` becomes a token, unless it is empty. -/
private theorem add_holds (hok : ∀ n, grants n = true) {stop : Nat} (h : x.Holds s done (room + 1))
    (hstart : x.start ≤ stop) (hstop : stop ≤ s.length) :
    ∃ y, x.add grants s stop = some y ∧
      y.Holds s (done ++ tokensOf [(s.drop x.start).take (stop - x.start)]) room ∧
      (tokensOf [(s.drop x.start).take (stop - x.start)]).length ≤ stop - x.start := by
  have hlen : ((s.drop x.start).take (stop - x.start)).length = stop - x.start := by
    rw [List.length_take, List.length_drop]
    omega
  unfold Splitting.add
  by_cases hpos : 0 < (stop : Int) - x.start
  · have hne : (s.drop x.start).take (stop - x.start) ≠ [] := by
      intro hnil
      rw [hnil, List.length_nil] at hlen
      omega
    have htoken : tokensOf [(s.drop x.start).take (stop - x.start)] =
        [(s.drop x.start).take (stop - x.start) ++ [0]] := by simp [tokensOf, hne]
    obtain ⟨free, hfree, htokens⟩ := h.tokens
    obtain ⟨free, rfl⟩ : ∃ n, free = n + 1 := ⟨free - 1, by omega⟩
    have hslots := h.slots_ge
    have hset : ∀ t : Option Bytes, (x.tokens.set x.elements t).length = x.slots := fun t => List.length_set
    rw [if_pos hpos, if_pos (hok _), htoken]
    refine ⟨_, rfl, ⟨?_, ⟨free, by omega, ?_⟩, ?_, ?_, ?_, ?_, ?_⟩, ?_⟩
    · show x.elements + 1 = _
      rw [h.elements, List.length_append, List.length_singleton]
    · show x.tokens.set x.elements _ = _
      rw [htokens, h.elements, List.set_append_right _ _ (by simp), List.length_map, Nat.sub_self,
        List.replicate_succ, List.set_cons_zero, List.map_append, List.append_assoc]
      rfl
    · obtain ⟨k, hk⟩ := h.doubled
      exact ⟨k, (hset _).trans hk⟩
    · exact (hset _).trans_le h.fits
    · intro i hi
      rcases List.mem_append.1 hi with hi | hi
      · exact h.reads i hi
      · have := mem_range' hi
        omega
    · show (x.stores ++ _).map Prod.fst = _
      rw [List.map_append, h.indices, List.length_append, List.length_singleton, List.range_succ, h.elements]
      rfl
    · intro p hp
      rcases List.mem_append.1 hp with hp | hp
      · exact h.stores p hp
      · rw [List.mem_singleton.1 hp]
        show x.elements < x.slots
        rw [h.elements]
        omega
    · rw [List.length_singleton]
      omega
  · have hnil : (s.drop x.start).take (stop - x.start) = [] := List.eq_nil_of_length_eq_zero (by omega)
    rw [if_neg hpos, hnil, show tokensOf [[]] = [] from rfl, List.append_nil]
    exact ⟨x, rfl, h.mono (Nat.le_succ room), Nat.zero_le _⟩

private theorem separates_iff (hsep : 1 ≤ sep.length) (hj : j < s.length) : separates s sep j ↔ sep <+: s.drop j := by
  have hmem : (s.drop j).take sep.length = sep ↔ sep <+: s.drop j := by
    rw [List.prefix_iff_eq_take]
    exact eq_comm
  unfold separates
  rw [decide_eq_true_eq, hmem, or_iff_right_iff_imp]
  rintro ⟨hone, hhead⟩
  obtain ⟨b, rfl⟩ := List.length_eq_one_iff.1 hone
  rw [List.drop_eq_getElem_cons hj, List.cons_prefix_cons]
  rw [List.getD_eq_getElem _ _ hj] at hhead
  exact ⟨hhead.symm, List.nil_prefix⟩

private theorem tokensOf_cons (piece : Bytes) (pieces : List Bytes) :
    tokensOf (piece :: pieces) = tokensOf [piece] ++ tokensOf pieces := by
  rw [← List.singleton_append, tokensOf, List.filter_append, List.map_append]
  rfl

private theorem length_tokensOf_le (pieces : List Bytes) : (tokensOf pieces).length ≤ pieces.length := by
  rw [tokensOf, List.length_map]
  exact List.length_filter_le _ _

/-- Looking for the separator at `j` reads inside the string. -/
private theorem look_holds (sep : Bytes) (j : Nat) (h : x.Holds s done room) (hj : j + sep.length ≤ s.length) :
    Splitting.Holds s { x with reads := x.reads ++ List.range' j sep.length } done room := by
  refine { h with reads := fun i hi => ?_ }
  rcases List.mem_append.1 hi with hi | hi
  · exact h.reads i hi
  · have := mem_range' hi
    omega

/-- The loop and the element behind it make the tokens of what is left of the string; the separator does not begin
between `start` and `j`. -/
private theorem splitLoop_holds (hok : ∀ n, grants n = true) (hsep : 1 ≤ sep.length) (h : x.Holds s done 1)
    (hstart : x.start ≤ j) (hj : j ≤ s.length) (hfree : Free sep (s.drop x.start) (j - x.start))
    (htwice : 2 * done.length ≤ x.start) :
    ∃ y z, splitLoop grants s sep hsep j x = some y ∧ y.add grants s s.length = some z ∧
      z.Holds s (done ++ tokensOf (cut sep (s.drop x.start))) 0 := by
  induction hleft : s.length - j using Nat.strongRecOn generalizing j x done with
  | _ n ih =>
    subst hleft
    rw [splitLoop]
    by_cases hlt : (j : Int) < s.length - (sep.length - 1)
    swap
    · -- what is left is too short for a separator
      obtain ⟨z, hz, hholds, -⟩ := add_holds hok h (hstart.trans hj) le_rfl
      have hwhole : Free sep (s.drop x.start) (s.drop x.start).length := hfree.whole (by
        rw [List.length_drop]
        omega)
      have htake : (s.drop x.start).take (s.length - x.start) = s.drop x.start :=
        List.take_of_length_le (by rw [List.length_drop])
      rw [htake] at hholds
      rw [dif_neg hlt, cut_whole hwhole]
      exact ⟨x, z, rfl, hz, hholds⟩
    rw [dif_pos hlt]
    obtain ⟨y, hy, hroom, hystart⟩ := makeRoom_holds hok h (by omega)
    replace hroom := look_holds sep j hroom (by omega)
    rw [hy]
    show ∃ u z, (if separates s sep j then _ else _) = some u ∧ _
    have hdrop : (s.drop x.start).drop (j - x.start) = s.drop j := by
      rw [List.drop_drop, Nat.add_sub_cancel' hstart]
    by_cases hmatch : separates s sep j
    · have hpre : sep <+: (s.drop x.start).drop (j - x.start) := by
        rw [hdrop]
        exact (separates_iff hsep (by omega)).1 hmatch
      have hcut : cut sep (s.drop x.start) =
          (s.drop x.start).take (j - x.start) :: cut sep (s.drop (j + sep.length)) := by
        rw [cut_at (List.length_pos_iff.1 hsep) (by rw [List.length_drop]; omega) hfree hpre, List.drop_drop]
        congr 3
        omega
      obtain ⟨u, hu, hholds, htoken⟩ := add_holds hok hroom (by rw [hystart]; exact hstart) hj
      rw [hystart] at hholds htoken
      have hle : j + sep.length ≤ s.length := by omega
      have hnext : Splitting.Holds s { u with start := j + sep.length }
          (done ++ tokensOf [(s.drop x.start).take (j - x.start)]) 1 := { hholds with }
      have hone : (tokensOf [(s.drop x.start).take (j - x.start)]).length ≤ 1 := length_tokensOf_le _
      have htwice' : 2 * (done ++ tokensOf [(s.drop x.start).take (j - x.start)]).length ≤ j + sep.length := by
        rw [List.length_append]
        omega
      have hfree' : Free sep (s.drop (j + sep.length)) (j + sep.length - (j + sep.length)) := by
        rw [Nat.sub_self]
        exact Free.zero
      obtain ⟨v, z, hv, hz, hfinal⟩ :=
        ih (s.length - (j + sep.length)) (by omega) hnext le_rfl hle hfree' htwice' rfl
      rw [if_pos hmatch, hu]
      refine ⟨v, z, hv, hz, ?_⟩
      rw [hcut, tokensOf_cons, ← List.append_assoc]
      exact hfinal
    · have hfree' : Free sep (s.drop x.start) (j + 1 - x.start) := by
        rw [Nat.succ_sub hstart]
        refine hfree.succ ?_
        rw [hdrop]
        exact fun hpre => hmatch ((separates_iff hsep (by omega)).2 hpre)
      have hnext := hroom.mono (Nat.le_succ 1)
      rw [← hystart] at hfree' hstart htwice
      obtain ⟨v, z, hv, hz, hfinal⟩ :=
        ih (s.length - (j + 1)) (by omega) hnext (Nat.le_succ_of_le hstart) (by omega) hfree' htwice rfl
      rw [if_neg hmatch, ← hystart]
      exact ⟨v, z, hv, hz, hfinal⟩

/-- What `sdssplitlen` is to make of a string: its non-empty pieces in order, each with a terminator, and all accesses
inside the string and the array. -/
structure Tokenized (s sep : Bytes) (x : Splitting) : Prop where
  count : x.elements = ((cut sep s).filter (· ≠ [])).length
  tokens : x.tokens.take x.elements = ((cut sep s).filter (· ≠ [])).map fun piece => some (piece ++ [0])
  rebuilds : sep.intercalate (cut sep s) = s
  reads : ∀ i ∈ x.reads, i < s.length
  indices : x.stores.map Prod.fst = List.range x.elements
  stores : ∀ p ∈ x.stores, p.1 < p.2
  /-- The `int` that counts the slots does not overflow. -/
  slots : s.length < 2 ^ 31 → x.slots < 2 ^ 31

private theorem tokenized_of_holds (hsep : 1 ≤ sep.length) (h : x.Holds s (tokensOf (cut sep s)) 0) :
    Tokenized s sep x := by
  have hcount : x.elements = ((cut sep s).filter (· ≠ [])).length := by
    rw [h.elements, tokensOf, List.length_map]
  refine ⟨hcount, ?_, intercalate_cut (List.length_pos_iff.1 hsep) s, h.reads, ?_, h.stores, fun hlt => ?_⟩
  · obtain ⟨free, -, htokens⟩ := h.tokens
    have hlen : x.elements = ((tokensOf (cut sep s)).map some).length := by rw [h.elements, List.length_map]
    rw [htokens, hlen, List.take_left, tokensOf, List.map_map]
    rfl
  · rw [h.indices, h.elements]
  · obtain ⟨k, hk⟩ := h.doubled
    have hfits := h.fits
    by_cases hsmall : k ≤ 28
    · have hpow := Nat.pow_le_pow_right (show 0 < 2 by decide) hsmall
      omega
    · have hpow := Nat.pow_le_pow_right (show 0 < 2 by decide) (show 29 ≤ k by omega)
      omega

/-- `sdssplitlen` ends with the tokens of the string in the array. -/
theorem sdssplitlen_holds (hok : ∀ n, grants n = true) (hsep : 1 ≤ sep.length) :
    ∃ x, sdssplitlen grants s sep = some x ∧ x.Holds s (tokensOf (cut sep s)) 0 := by
  have hfresh : Splitting.Holds s .fresh [] 1 :=
    ⟨rfl, ⟨5, by decide, rfl⟩, ⟨0, rfl⟩, le_max_left _ _, fun i hi => absurd hi List.not_mem_nil, rfl,
      fun p hp => absurd hp List.not_mem_nil⟩
  unfold sdssplitlen
  rw [dif_pos hsep, if_pos (hok _)]
  by_cases hnil : s = []
  · subst hnil
    have hpieces : tokensOf (cut sep []) = [] := rfl
    rw [if_pos rfl, hpieces]
    exact ⟨_, rfl, hfresh.mono (Nat.zero_le 1)⟩
  · obtain ⟨y, z, hy, hz, hholds⟩ := splitLoop_holds hok hsep hfresh (Nat.zero_le 0) (Nat.zero_le _)
      Free.zero (Nat.zero_le 0)
    rw [if_neg hnil, hy]
    exact ⟨z, hz, hholds⟩

/-- `sdssplitlen` returns the non-empty pieces of the string between the leftmost occurrences of the separator. -/
theorem sdssplitlen_tokenized (hok : ∀ n, grants n = true) (hsep : 1 ≤ sep.length) :
    ∃ x, sdssplitlen grants s sep = some x ∧ Tokenized s sep x := by
  obtain ⟨x, hx, hholds⟩ := sdssplitlen_holds (s := s) hok hsep
  exact ⟨x, hx, tokenized_of_holds hsep hholds⟩

/-- A line with blanks at its ends and two in a row. -/
theorem sdssplitlen_tokenized_line :
    ∃ x, sdssplitlen (fun _ => true) [32, 97, 32, 32, 98, 32] [32] = some x ∧
      Tokenized [32, 97, 32, 32, 98, 32] [32] x :=
  sdssplitlen_tokenized (fun _ => rfl) (by decide)

/-! ### Tokens as strings -/

/-- The tokens as their users see them. -/
def Splitting.strings (x : Splitting) : List Bytes := (x.tokens.take x.elements).map fun t => cstring (t.getD [])

/-- When the string has no NUL, the tokens are its pieces. -/
theorem sdssplitlen_strings (hok : ∀ n, grants n = true) (hsep : 1 ≤ sep.length) (h0 : 0 ∉ s) :
    ∃ x, sdssplitlen grants s sep = some x ∧ x.strings = (cut sep s).filter (· ≠ []) ∧
      x.elements = ((cut sep s).filter (· ≠ [])).length := by
  obtain ⟨x, hx, hholds⟩ := sdssplitlen_holds (s := s) hok hsep
  have htokenized := tokenized_of_holds hsep hholds
  refine ⟨x, hx, ?_, htokenized.count⟩
  rw [Splitting.strings, htokenized.tokens, List.map_map]
  refine (List.map_congr_left fun piece hpiece => ?_).trans (List.map_id _)
  have hmem : piece ∈ cut sep s := (List.mem_filter.1 hpiece).1
  have hpiece : 0 ∉ piece := fun h => h0 (mem_of_mem_cut (List.length_pos_iff.1 hsep) hmem h)
  exact (cstring_append hpiece [0]).trans (List.append_nil piece)

end ZkClient
