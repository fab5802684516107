import Mathlib.Data.BitVec
import Mathlib.Tactic.Ring

/-!
# Clocks that Wrap Around

A counter of `w + 1` bits that is stepped with the time. Two readings of it are
compared by the sign of their difference, which gives the order of the times
they were taken at as long as these are no further apart than half a turn of
the counter.

## Main definitions

* `isBefore`: The comparison of two readings.
* `seenAt`: The time a reading stands for, as seen at some time.

## Theorems

* `isBefore_of_lt`: Within half a turn the comparison notices what is later.
* `le_of_not_isBefore`: And what it does not report is not later.
* `le_seenAt`: A time that is not far ahead is never taken for an earlier one.
-/

namespace Ml605

namespace Lib

variable {w : Nat}

/-- The difference of the readings, taken as a signed number, is negative. -/
def isBefore (a b : BitVec (w + 1)) : Bool := (a - b).msb

/-- The time a reading stands for at the time `now`: of all times with that
    reading the one that is nearest. -/
def seenAt (now : Nat) (v : BitVec (w + 1)) : Int := now + (v - BitVec.ofNat (w + 1) now).toInt

theorem ofNat_sub_of_le (a d : Nat) :
    BitVec.ofNat (w + 1) a - BitVec.ofNat (w + 1) (a + d) = -BitVec.ofNat (w + 1) d := by
  rw [BitVec.ofNat_add]
  ring

theorem ofNat_add_sub (a d : Nat) :
    BitVec.ofNat (w + 1) (a + d) - BitVec.ofNat (w + 1) a = BitVec.ofNat (w + 1) d := by
  rw [BitVec.ofNat_add]
  ring

theorem isBefore_of_lt {a b : Nat} (hlt : a < b) (hnear : b ≤ a + 2 ^ w) :
    isBefore (BitVec.ofNat (w + 1) a) (BitVec.ofNat (w + 1) b) = true := by
  rcases Nat.exists_eq_add_of_le (Nat.le_of_lt hlt) with ⟨d, rfl⟩
  have hturn : 2 ^ (w + 1) = 2 ^ w + 2 ^ w := by rw [pow_succ, Nat.mul_two]
  have hpos : 0 < 2 ^ w := Nat.two_pow_pos w
  have hsmall : d % 2 ^ (w + 1) = d := Nat.mod_eq_of_lt (by omega)
  unfold isBefore
  rw [ofNat_sub_of_le, BitVec.msb_eq_decide, decide_eq_true_eq, Nat.add_sub_cancel,
    BitVec.toNat_neg, BitVec.toNat_ofNat, hsmall, Nat.mod_eq_of_lt (by omega)]
  omega

theorem le_of_not_isBefore {a b : Nat} (hnear : b ≤ a + 2 ^ w)
    (h : isBefore (BitVec.ofNat (w + 1) a) (BitVec.ofNat (w + 1) b) = false) : b ≤ a := by
  by_contra hlt
  rw [isBefore_of_lt (by omega) hnear] at h
  exact Bool.false_ne_true h.symm

/-- Going back `d` steps is seen as going back no further. -/
theorem neg_le_toInt_neg (d : Nat) : -(d : Int) ≤ (-BitVec.ofNat (w + 1) d).toInt := by
  have hturn : 2 ^ (w + 1) = 2 ^ w + 2 ^ w := by rw [pow_succ, Nat.mul_two]
  rcases Nat.eq_zero_or_pos d with rfl | hd
  · rw [BitVec.neg_zero, BitVec.toInt_zero]
    exact Int.le_refl 0
  by_cases hfar : d ≤ 2 ^ w
  · -- Half a turn at most: the sign bit is set and the difference is exact.
    have hsmall : d % 2 ^ (w + 1) = d := Nat.mod_eq_of_lt (by omega)
    have hnat : (-BitVec.ofNat (w + 1) d).toNat = 2 ^ (w + 1) - d := by
      rw [BitVec.toNat_neg, BitVec.toNat_ofNat, hsmall, Nat.mod_eq_of_lt (by omega)]
    rw [BitVec.toInt_eq_toNat_cond, hnat, if_neg (by omega)]
    omega
  · have hlow := BitVec.le_toInt (-BitVec.ofNat (w + 1) d)
    have hcast : ((2 ^ w : Nat) : Int) = 2 ^ w := by push_cast; rfl
    rw [Nat.add_sub_cancel, ← hcast] at hlow
    omega

theorem le_seenAt {now e : Nat} (h : e < now + 2 ^ w) :
    (e : Int) ≤ seenAt now (BitVec.ofNat (w + 1) e) := by
  have hturn : 2 ^ (w + 1) = 2 ^ w + 2 ^ w := by rw [pow_succ, Nat.mul_two]
  unfold seenAt
  rcases Nat.le_total now e with hle | hle
  · -- A time ahead is seen as it is.
    rcases Nat.exists_eq_add_of_le hle with ⟨d, rfl⟩
    have hsmall : (BitVec.ofNat (w + 1) d).toNat = d := by
      rw [BitVec.toNat_ofNat, Nat.mod_eq_of_lt (by omega)]
    rw [ofNat_add_sub, BitVec.toInt_eq_toNat_of_lt (by omega), hsmall]
    omega
  · -- One that is long gone may be taken for a later one.
    rcases Nat.exists_eq_add_of_le hle with ⟨d, rfl⟩
    have hge := neg_le_toInt_neg (w := w) d
    rw [ofNat_sub_of_le]
    omega

end Lib

end Ml605
