import Mathlib.Data.List.Nodup
import ZkClient.Blocks
import ZkClient.Lib.Decimal

/-!
# Numbers in the output of `stat`

`ll2string` divides twice: to find out how long the block has to be, and to fill it from its end.
`cJSON_AddLonglongToObject` takes it for the numbers that it does not leave to cJSON, whose numbers are doubles.
-/

namespace ZkClient

open Decimal

/-! ### `ll2string` -/

variable {n : Nat}

private theorem tdiv_ten (n : Nat) : (n : Int).tdiv 10 = (n / 10 : Nat) := by
  rw [Int.tdiv_eq_ediv_of_nonneg (by omega)]
  omega

/-- The first loop counts the digits behind the first one. -/
private theorem ll2stringLen_eq (n len : Nat) : ll2stringLen n len = len + (Nat.digits 10 (n / 10)).length := by
  induction n using Nat.strongRecOn generalizing len with
  | _ n ih =>
    rw [ll2stringLen, tdiv_ten]
    by_cases hten : n / 10 = 0
    · rw [hten]
      rfl
    · rw [dif_pos (by omega), ih (n / 10) (by omega), length_digits_step (n := n / 10) (by omega)]
      omega

/-- The block has one byte more than the number has digits. -/
theorem ll2stringLen_digits (h : 0 < n) : ll2stringLen n 2 = (digits n).length + 1 := by
  rw [ll2stringLen_eq, length_digits, length_digits_step h]
  omega

/-- The second loop fills the cells in front of `rest`, from the last one to the first. -/
private theorem ll2stringFill_eq (n : Nat) (rest : List (Option UInt8)) (writes : List Int) :
    ll2stringFill n ((digits n).length - 1 : Int) ⟨List.replicate (digits n).length none ++ rest, writes⟩ =
      ⟨(digits n).map some ++ rest, (List.range (digits n).length).map Int.ofNat ++ writes⟩ := by
  induction n using Nat.strongRecOn generalizing rest writes with
  | _ n ih =>
    rw [ll2stringFill]
    by_cases hn : n = 0
    · subst hn
      rfl
    have hpos : 0 < n := by omega
    have hdigit : UInt8.ofNat ((n : Int).tmod 10 + 48).toNat = char (n % 10) := by
      rw [char]
      congr 1
    obtain ⟨k, hk⟩ : ∃ k, k = (digits (n / 10)).length := ⟨_, rfl⟩
    have hlen : (digits n).length = k + 1 := by
      rw [digits_step hpos, List.length_append, List.length_singleton, hk]
    have hwrite : Block.write ⟨List.replicate (k + 1) none ++ rest, writes⟩ k (char (n % 10)) =
        ⟨List.replicate k none ++ some (char (n % 10)) :: rest, (k : Int) :: writes⟩ := by
      unfold Block.write
      rw [if_pos (by omega), List.replicate_succ', List.append_assoc, Int.toNat_natCast,
        List.set_append_right _ _ (by simp), List.length_replicate, Nat.sub_self]
      rfl
    rw [dif_pos (by omega), tdiv_ten, hdigit, hlen]
    rw [show ((k + 1 : Nat) : Int) - 1 = k by omega, hwrite, hk, ih (n / 10) (by omega)]
    rw [digits_step hpos, List.map_append, List.append_assoc, List.range_succ, List.map_append, List.append_assoc]
    rfl

/-- The block that `ll2string` returns. -/
theorem ll2string_eq (h : 0 < n) : ll2string n =
    ⟨(digits n ++ [0]).map some, (digits n).length :: (List.range (digits n).length).map Int.ofNat⟩ := by
  have hlen := ll2stringLen_digits h
  unfold ll2string
  dsimp only
  rw [hlen, List.replicate_succ',
    show (((digits n).length + 1 : Nat) : Int) - 2 = (digits n).length - 1 by omega, ll2stringFill_eq,
    show (((digits n).length + 1 : Nat) : Int) - 1 = (digits n).length by omega]
  unfold Block.write
  rw [if_pos (by omega), Int.toNat_natCast, List.set_append_right _ _ (by simp), List.length_map, Nat.sub_self,
    List.append_nil, List.map_append]
  rfl

/-- What the block for the number `v` is to be: one byte longer than its digits, every digit position written once, every
write inside the block, and a string that ends with a NUL, has no leading zero and reads back as `v`. -/
structure Rendered (H : Heap) (v : Int) (b : Block) : Prop where
  size : b.cells.length = (Nat.digits 10 v.toNat).length + 1
  once : ∀ i < (Nat.digits 10 v.toNat).length, b.writes.count (i : Int) = 1
  inside : ∀ i ∈ b.writes, 0 ≤ i ∧ i < b.cells.length
  nul : b.cells.getLast? = some (some 0)
  digits : ∀ c ∈ b.string H, 48 ≤ c.toNat ∧ c.toNat < 58
  lead : (b.string H).head? ≠ some 48
  reads : (value (b.string H) : Int) = v

private theorem zero_not_mem_digits (n : Nat) : (0 : UInt8) ∉ digits n := fun h => absurd (mem_digits h).1 (by decide)

theorem string_ll2string {H : Heap} (h : 0 < n) : (ll2string n).string H = digits n :=
  string_of_cells (by rw [ll2string_eq h, List.map_append]; rfl) (zero_not_mem_digits n)

/-- `ll2string` renders every positive number. -/
theorem ll2string_rendered (H : Heap) {v : Int} (hpos : 1 ≤ v) : Rendered H v (ll2string v) := by
  obtain ⟨n, rfl⟩ : ∃ n : Nat, v = n := ⟨v.toNat, by omega⟩
  have hn : 0 < n := by omega
  have hstring := string_ll2string (H := H) hn
  refine ⟨?_, ?_, ?_, ?_, ?_, ?_, ?_⟩
  · simp [ll2string_eq hn]
  · intro i hi
    rw [Int.toNat_natCast] at hi
    have hnodup : ((List.range (digits n).length).map Int.ofNat).Nodup :=
      List.nodup_range.map fun _ _ => Int.ofNat.inj
    have hcount : ((List.range (digits n).length).map Int.ofNat).count (Int.ofNat i) = 1 := by
      refine List.nodup_iff_count_eq_one.1 hnodup _ (List.mem_map_of_mem (List.mem_range.2 ?_))
      rwa [length_digits]
    rw [ll2string_eq hn, List.count_cons_of_ne]
    · exact hcount
    · rw [length_digits]
      omega
  · rw [ll2string_eq hn]
    simp only [List.mem_cons, List.mem_map, List.mem_range, List.length_map, List.length_append, List.length_singleton]
    rintro i (rfl | ⟨j, hj, rfl⟩)
    · omega
    · simp only [Int.ofNat_eq_natCast]
      omega
  · rw [ll2string_eq hn, List.map_append, List.getLast?_append]
    rfl
  · rw [hstring]
    exact fun c hc => mem_digits hc
  · rw [hstring]
    exact head_digits n
  · rw [hstring, value_digits]

/-- The largest number. -/
theorem ll2string_rendered_max : Rendered .plenty (2 ^ 63 - 1) (ll2string (2 ^ 63 - 1)) :=
  ll2string_rendered .plenty (by decide)

/-! ### `cJSON_AddLonglongToObject` -/

/-- The member stands for `v`: a number of the range in which a double holds every integer, or a decimal string. -/
def Json.Denotes (v : Int) : Json → Prop
  | .number n => n = v ∧ -2 ^ 53 ≤ n ∧ n ≤ 2 ^ 53
  | .string s => s = render v

/-- The 64-bit fields of a `struct Stat` with the names that `stat` gives them. -/
def Stat.longs (stat : Stat) : List (String × Int64) :=
  [("czxid", stat.czxid), ("mzxid", stat.mzxid), ("pzcxid", stat.pzxid), ("ctime", stat.ctime), ("mtime", stat.mtime),
    ("ephemeralOwner", stat.ephemeralOwner)]

/-- All of them go through `cJSON_AddLonglongToObject`. -/
theorem statJson_longs (H : Heap) (stat : Stat) {m : String × Int64} (hm : m ∈ stat.longs) :
    (m.1, addLonglong H m.2.toInt) ∈ statJson H stat := by
  have hsublist : List.Sublist (stat.longs.map fun m => (m.1, addLonglong H m.2.toInt)) (statJson H stat) :=
    List.sublist_append_right [_, _, _, _, _] _
  exact hsublist.subset (List.mem_map_of_mem hm)

/-- The member is exact unless the number is less than what a double holds exactly: those numbers are not turned into
strings. -/
theorem addLonglong_exact_iff (H : Heap) (v : Int64) : (addLonglong H v.toInt).Denotes v.toInt ↔ -2 ^ 53 ≤ v.toInt := by
  unfold addLonglong
  by_cases hsmall : v.toInt ≤ 2147483647
  · rw [if_pos hsmall]
    constructor
    · rintro ⟨-, hlow, -⟩
      exact hlow
    · intro hlow
      exact ⟨rfl, hlow, by omega⟩
  · obtain ⟨n, hn⟩ : ∃ n : Nat, v.toInt = n := ⟨v.toInt.toNat, by omega⟩
    have hpos : 0 < n := by omega
    have hrender : render n = digits n := by
      rw [render, if_neg (by omega), if_neg (by omega), Int.toNat_natCast]
    rw [if_neg hsmall, hn]
    refine iff_of_true ?_ (by omega)
    show (ll2string n).string H = render n
    rw [string_ll2string hpos, hrender]

/-- The session id of an ephemeral node can have its top bit set. -/
theorem addLonglong_inexact_negative : ¬ ∀ (H : Heap) (v : Int64), (addLonglong H v.toInt).Denotes v.toInt := by
  intro hall
  have hv : (-9007199254740993 : Int64).toInt = -9007199254740993 := by decide
  have hexact := hall .plenty (-9007199254740993)
  rw [hv] at hexact
  exact absurd hexact.2.1 (by decide)

end ZkClient
