import Mathlib.Algebra.Group.Nat.Defs
import Mathlib.Tactic.Common

/-!
# The Write Side of the Small FIFO

`small_async_fifo` lets its writer know how full it is by comparing the write
pointer with the read pointer, which reaches the write clock through two
registers. Both flags are registers again.

The pointers are numbers of words here, compared modulo twice the depth as the
source does. They cross the clocks in Gray code, which is one to one, so the
comparison of codes is that of numbers.

## Main definitions

* `WriteSide`, `WriteSide.next`: The registers in the write clock.

## Theorems

* `wfull_next_of_le`: The FIFO is not full while its writer is not far ahead.
* `almost_next_eq`: When the almost-full flag is raised.
-/

namespace Ml605

namespace Eth

namespace SmallFifo

/-- The registers in the write clock: the read pointer in the two registers of
    `sync_r2w`, and the registers of `wptr_full`. -/
structure WriteSide where
  wq1Rptr : Nat
  wq2Rptr : Nat
  wbin : Nat
  wfull : Bool
  wAlmostFull : Bool
deriving DecidableEq, Repr

namespace WriteSide

/-- The write pointer after this cycle. -/
def wbinnext (s : WriteSide) (winc : Bool) : Nat := s.wbin + if winc && !s.wfull then 1 else 0

/-- One cycle of the write clock of a FIFO of `2 ^ asize` words. -/
def next (asize : Nat) (s : WriteSide) (winc : Bool) (rptr : Nat) : WriteSide :=
  { wq1Rptr := rptr
    wq2Rptr := s.wq1Rptr
    wbin := s.wbinnext winc
    wfull := decide ((s.wbinnext winc - s.wq2Rptr) % 2 ^ (asize + 1) = 2 ^ asize)
    -- The top bit of the difference less five, which is the default `ALMOST_FULL_SIZE`.
    wAlmostFull := decide ((s.wbinnext winc + 2 ^ (asize + 1) - s.wq2Rptr - 5) %
      2 ^ (asize + 1) < 2 ^ asize) }

end WriteSide

/-- After reset. -/
def reset : WriteSide := ⟨0, 0, 0, false, false⟩

section Flags

variable {asize : Nat} {s : WriteSide} {winc : Bool} {rptr : Nat}

/-- The FIFO is not full while its writer is not far ahead of what it knows of
    the reader. -/
theorem wfull_next_of_le (h : s.wbinnext winc < s.wq2Rptr + 2 ^ asize) :
    (s.next asize winc rptr).wfull = false := by
  have hdouble : 2 ^ (asize + 1) = 2 * 2 ^ asize := by rw [Nat.pow_succ, Nat.mul_comm]
  have hpos := Nat.two_pow_pos asize
  refine decide_eq_false ?_
  rw [Nat.mod_eq_of_lt (by omega)]
  omega

/-- The almost-full flag is raised when the writer is five words ahead. -/
theorem almost_next_eq (hlo : s.wq2Rptr ≤ s.wbinnext winc)
    (hhi : s.wbinnext winc < s.wq2Rptr + 5 + 2 ^ asize) (hsize : 3 ≤ asize) :
    (s.next asize winc rptr).wAlmostFull = decide (s.wq2Rptr + 5 ≤ s.wbinnext winc) := by
  have hdouble : 2 ^ (asize + 1) = 2 * 2 ^ asize := by rw [Nat.pow_succ, Nat.mul_comm]
  have hbig : 2 ^ 3 ≤ 2 ^ asize := Nat.pow_le_pow_right (by omega) hsize
  refine decide_eq_decide.mpr ?_
  rw [hdouble]
  -- Below five the difference wraps round and has its top bit set.
  by_cases hfive : s.wq2Rptr + 5 ≤ s.wbinnext winc
  · rw [show s.wbinnext winc + 2 * 2 ^ asize - s.wq2Rptr - 5 =
      (s.wbinnext winc - s.wq2Rptr - 5) + 2 * 2 ^ asize by omega, Nat.add_mod_right,
      Nat.mod_eq_of_lt (by omega)]
    omega
  · rw [Nat.mod_eq_of_lt (by omega)]
    omega

end Flags

end SmallFifo

end Eth

end Ml605
