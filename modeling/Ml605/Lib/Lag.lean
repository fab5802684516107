import Mathlib.Order.Monotone.Basic
import Mathlib.Tactic.Common

/-!
# Flags that Lag

A FIFO tells its writer that it is filling up by comparing the words written
with the words read. The flag takes some cycles to get there, and it may have
been made from counts of different moments.

As long as at most one word is written in a cycle, a flag that is low still
bounds how full the FIFO is: it has missed at most as many words as there were
cycles.

## Main definitions

* `ticks`: The ticks of a clock between two moments.
* `Reflects`: A flag made from counts that are at most so many ticks old.

## Theorems

* `reflects_now`: A flag that is not late.
* `lt_of_reflects`: How full a FIFO is at most while its flag is low.
-/

namespace Ml605

namespace Lib

/-- The ticks of the clock `clk` from moment `m` on and before moment `n`. -/
def ticks (clk : Nat → Bool) (m : Nat) : Nat → Nat
  | 0 => 0
  | n + 1 => ticks clk m n + if m ≤ n ∧ clk n = true then 1 else 0

/-- At moment `n` the flag says whether the words written are ahead of the words
    read by the threshold, both counted at most `d` ticks ago. -/
def Reflects (clk : Nat → Bool) (written read : Nat → Nat) (threshold d n : Nat) (flag : Bool) :
    Prop :=
  ∃ m k, m ≤ n ∧ k ≤ n ∧ ticks clk m n ≤ d ∧ ticks clk k n ≤ d ∧
    flag = decide (threshold ≤ written m - read k)

section Counts

variable {clk : Nat → Bool} {written read : Nat → Nat} {threshold d m n : Nat}

theorem ticks_of_le (h : n ≤ m) : ticks clk m n = 0 := by
  induction n with
  | zero => rfl
  | succ n ih => rw [ticks, ih (by omega), if_neg (by omega)]

/-- A flag that is not late. -/
theorem reflects_now :
    Reflects clk written read threshold 0 n (decide (threshold ≤ written n - read n)) :=
  ⟨n, n, Nat.le_refl n, Nat.le_refl n, Nat.le_of_eq (ticks_of_le (Nat.le_refl n)),
    Nat.le_of_eq (ticks_of_le (Nat.le_refl n)), rfl⟩

/-- At most one word is written in a cycle. -/
theorem written_le (hw : ∀ n, written (n + 1) ≤ written n + if clk n = true then 1 else 0)
    (h : m ≤ n) : written n ≤ written m + ticks clk m n := by
  induction n with
  | zero =>
      rw [Nat.le_zero.mp h]
      exact Nat.le_add_right _ _
  | succ n ih =>
      rcases Nat.lt_or_eq_of_le h with hlt | rfl
      · have hle : m ≤ n := Nat.le_of_lt_succ hlt
        have hstep := hw n
        have hrest := ih hle
        rw [ticks]
        simp only [hle, true_and]
        omega
      · exact Nat.le_add_right _ _

/-- A low flag bounds how far the writer is ahead. -/
theorem lt_of_reflects (hw : ∀ n, written (n + 1) ≤ written n + if clk n = true then 1 else 0)
    (hr : ∀ n, read n ≤ read (n + 1))
    (h : Reflects clk written read threshold d n false) : written n < read n + threshold + d := by
  rcases h with ⟨m, k, hm, hk, hlate, _, hflag⟩
  have hbelow := of_decide_eq_false hflag.symm
  have hgrown := written_le hw hm
  have hmore : read k ≤ read n := monotone_nat_of_le_succ hr hk
  omega

end Counts

end Lib

end Ml605
