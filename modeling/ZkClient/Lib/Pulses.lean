import Mathlib.Algebra.Order.Group.Defs
import Mathlib.Data.List.Chain

/-!
# What is done at intervals

Something is to be done every `gap`, by somebody who looks at the clock from time to time.  `pulses` are the times at
which it is done.

It is never done twice within the gap, and when the clock is looked at every `d`, it is done after the gap and `d` at
the latest (`isChain_pulses`).
-/

namespace Pulses

variable {α : Type} [AddCommGroup α] [LinearOrder α]

/-- The times among the given ones at which it is done; `last` is when it was done last. -/
def pulses (gap : α) : α → List α → List α
  | _, [] => []
  | last, t :: ts => if gap ≤ t - last then t :: pulses gap t ts else pulses gap last ts

/-- Two times that are at least the gap apart, and `d` more at most. -/
def Apart (gap d a b : α) : Prop := gap ≤ b - a ∧ b - a ≤ max gap 0 + d

variable {gap d last prev : α} {ts : List α}

/-- The first time is not too early. -/
theorem le_of_head?_pulses {t : α} (ht : (pulses gap last ts).head? = some t) : gap ≤ t - last := by
  induction ts with
  | nil => cases ht
  | cons t' ts ih =>
    unfold pulses at ht
    split at ht
    case isTrue hdue => exact Option.some.inj ht ▸ hdue
    case isFalse hdue => exact ih ht

variable [IsOrderedAddMonoid α]

/-- The pulses from a time on at which it was not overdue. -/
private theorem isChain_cons_pulses (hprev : prev - last ≤ max gap 0)
    (hts : (prev :: ts).IsChain fun a b => b - a ≤ d) : (last :: pulses gap last ts).IsChain (Apart gap d) := by
  induction ts generalizing prev last with
  | nil => exact .singleton last
  | cons t ts ih =>
    obtain ⟨ht, hts⟩ := List.isChain_cons_cons.1 hts
    unfold pulses
    split
    case isTrue hdue =>
      refine List.isChain_cons_cons.2 ⟨⟨hdue, ?_⟩, ih ?_ hts⟩
      · rw [← sub_add_sub_cancel' prev last t]
        exact add_le_add hprev ht
      · rw [sub_self]
        exact le_max_right gap 0
    case isFalse hdue => exact ih ((not_le.1 hdue).le.trans (le_max_left gap 0)) hts

theorem isChain_pulses (hts : ts.IsChain fun a b => b - a ≤ d) : (pulses gap last ts).IsChain (Apart gap d) := by
  cases ts with
  | nil => exact .nil
  | cons t ts =>
    unfold pulses
    split
    case isTrue hdue =>
      refine isChain_cons_pulses ?_ hts
      rw [sub_self]
      exact le_max_right gap 0
    case isFalse hdue => exact (isChain_cons_pulses ((not_le.1 hdue).le.trans (le_max_left gap 0)) hts).tail

/-- When the clock has been looked at, it has not been longer than the gap. -/
theorem sub_getLast_pulses_le {t : α} (hts : ts.getLast? = some t) :
    t - (last :: pulses gap last ts).getLast (List.cons_ne_nil _ _) ≤ max gap 0 := by
  induction ts generalizing last with
  | nil => cases hts
  | cons t' ts ih =>
    by_cases hnil : ts = []
    · subst hnil
      obtain rfl : t' = t := Option.some.inj hts
      by_cases hdue : gap ≤ t' - last
      · simp [pulses, hdue]
      · have hle := (not_le.1 hdue).le.trans (le_max_left gap 0)
        simpa [pulses, hdue] using hle
    · rw [List.getLast?_cons_of_ne_nil hnil] at hts
      by_cases hdue : gap ≤ t' - last
      · simpa [pulses, hdue] using @ih t' hts
      · simpa [pulses, hdue] using @ih last hts

end Pulses
