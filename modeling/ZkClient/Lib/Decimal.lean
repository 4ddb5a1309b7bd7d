import Mathlib.Data.Nat.Digits.Defs

/-!
# Decimal numbers as strings

`digits n` are the decimal digits of a natural number as ASCII characters, most significant first; zero has none.  They
have no leading zero (`head_digits`) and read back as the number (`value_digits`).  `render` is the usual notation of an
integer.
-/

namespace Decimal

/-- The character of a digit. -/
def char (d : Nat) : UInt8 := UInt8.ofNat (d + 48)

def digits (n : Nat) : List UInt8 := (Nat.digits 10 n).reverse.map char

/-- The number that a string of digits stands for. -/
def value (s : List UInt8) : Nat := s.foldl (fun n b => 10 * n + (b.toNat - 48)) 0

/-- The notation of an integer. -/
def render (v : Int) : List UInt8 :=
  if v < 0 then 45 :: digits (-v).toNat else if v = 0 then [48] else digits v.toNat

variable {n : Nat}

theorem toNat_char {d : Nat} (h : d < 10) : (char d).toNat = d + 48 := by
  rw [char, UInt8.toNat_ofNat', Nat.mod_eq_of_lt (by omega)]

@[simp] theorem length_digits (n : Nat) : (digits n).length = (Nat.digits 10 n).length := by
  simp [digits]

/-- The last digit is the remainder. -/
theorem digits_step (h : 0 < n) : digits n = digits (n / 10) ++ [char (n % 10)] := by
  rw [digits, Nat.digits_def' (by decide) h, List.reverse_cons, List.map_append]
  rfl

theorem length_digits_step (h : 0 < n) : (Nat.digits 10 n).length = (Nat.digits 10 (n / 10)).length + 1 := by
  rw [Nat.digits_def' (by decide) h, List.length_cons]

theorem value_digits (n : Nat) : value (digits n) = n := by
  induction n using Nat.strongRecOn with
  | _ n ih =>
    by_cases hn : n = 0
    · subst hn
      rfl
    · have hpos : 0 < n := by omega
      have hlast := toNat_char (Nat.mod_lt n (show 0 < 10 by decide))
      rw [digits_step hpos, value, List.foldl_append]
      show 10 * value (digits (n / 10)) + ((char (n % 10)).toNat - 48) = n
      rw [ih (n / 10) (by omega), hlast]
      omega

/-- The characters are digits. -/
theorem mem_digits {b : UInt8} (h : b ∈ digits n) : 48 ≤ b.toNat ∧ b.toNat < 58 := by
  obtain ⟨d, hd, rfl⟩ := List.mem_map.1 h
  have hlt := Nat.digits_lt_base (by decide) (List.mem_reverse.1 hd)
  rw [toNat_char hlt]
  omega

/-- There is no leading zero. -/
theorem head_digits (n : Nat) : (digits n).head? ≠ some 48 := by
  induction n using Nat.strongRecOn with
  | _ n ih =>
    by_cases hn : n = 0
    · subst hn
      exact nofun
    have hpos : 0 < n := by omega
    rw [digits_step hpos]
    by_cases hten : n < 10
    · rw [Nat.div_eq_of_lt hten, Nat.mod_eq_of_lt hten]
      intro h
      have hchar : (char n).toNat = 48 := congrArg UInt8.toNat (Option.some.inj h)
      rw [toNat_char hten] at hchar
      omega
    · have hne : digits (n / 10) ≠ [] := by
        rw [digits_step (by omega)]
        exact List.append_ne_nil_of_right_ne_nil _ (List.cons_ne_nil _ _)
      obtain ⟨b, bs, hbs⟩ := List.exists_cons_of_ne_nil hne
      have hhead := ih (n / 10) (by omega)
      rw [hbs] at hhead ⊢
      exact hhead

end Decimal
