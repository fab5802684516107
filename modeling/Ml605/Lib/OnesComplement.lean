import Mathlib.Tactic

/-!
# One's Complement Sums

Adding with an end-around carry in base `M`: the carry out of a digit is added
back at its low end. The sum of any number of digits is the number in `1 .. M-1`
with the right remainder modulo `M - 1`, or zero if all of them are zero. So it
does not matter whether the carries are folded in at every addition or once at
the end, which is how hardware does it.

The second part is about reading a list of bytes as big-endian words of two.

## Main definitions

* `endAround`: Addition with the carry added back.
* `onesSum`: The sum of a list, carry by carry.
* `residue`: The value such a sum has.
* `beWords`, `wordSum`: Bytes as words, and their plain sum.

## Theorems

* `onesSum_eq_residue`: The sum of a list from its plain sum.
* `fold_eq_residue`: Two digits folded once have the value of the whole.
* `wordSum_append`: Words do not cross an even boundary.
* `wordSum_append_zeros`: Padding adds nothing.
-/

namespace Ml605

namespace Lib

section Carry

variable (M : Nat)

/-- Addition with the carry out added back at the low end. -/
def endAround (a b : Nat) : Nat := (a + b) % M + (a + b) / M

/-- The sum of a list, carry by carry. -/
def onesSum (init : Nat) (ws : List Nat) : Nat := ws.foldl (endAround M) init

/-- The number from `1` to `M - 1` with the remainder of `n` modulo `M - 1`, and
    zero for zero. -/
def residue (n : Nat) : Nat := if n = 0 then 0 else (n - 1) % (M - 1) + 1

variable {M}

theorem residue_add_mul {m : Nat} (hm : m ≠ 0) (k : Nat) :
    residue M (m + k * (M - 1)) = residue M m := by
  unfold residue
  rw [if_neg (show m + k * (M - 1) ≠ 0 by omega), if_neg hm,
    show m + k * (M - 1) - 1 = m - 1 + k * (M - 1) by omega, Nat.add_mul_mod_self_right]

theorem residue_lt (hM : 2 ≤ M) (n : Nat) : residue M n < M := by
  unfold residue
  by_cases hn : n = 0
  · rw [if_pos hn]
    omega
  · rw [if_neg hn]
    have hmod := Nat.mod_lt (n - 1) (show 0 < M - 1 by omega)
    omega

/-- A number is its residue and a multiple of `M - 1`, and only zero has the
    residue zero. -/
theorem exists_residue (n : Nat) :
    ∃ k, n = residue M n + k * (M - 1) ∧ (residue M n = 0 → n = 0) := by
  unfold residue
  by_cases hn : n = 0
  · refine ⟨0, ?_, fun _ => hn⟩
    rw [if_pos hn, hn, Nat.zero_mul]
  · refine ⟨(n - 1) / (M - 1), ?_, fun h => ?_⟩
    · rw [if_neg hn]
      have hdiv := Nat.mod_add_div (n - 1) (M - 1)
      rw [Nat.mul_comm] at hdiv
      omega
    · rw [if_neg hn] at h
      omega

theorem residue_residue_add (a b : Nat) : residue M (residue M a + b) = residue M (a + b) := by
  rcases exists_residue (M := M) a with ⟨k, hk, hzero⟩
  by_cases hsum : residue M a + b = 0
  · -- Both are zero, and so is `a`.
    have ha := hzero (by omega)
    have hb : b = 0 := by omega
    rw [hsum, ha, hb]
  · have hab : a + b = residue M a + b + k * (M - 1) := by omega
    rw [hab, residue_add_mul hsum]

theorem endAround_eq_residue {a b : Nat} (ha : a < M) (hb : b < M) :
    endAround M a b = residue M (a + b) := by
  unfold endAround residue
  by_cases hlt : a + b < M
  · rw [Nat.mod_eq_of_lt hlt, Nat.div_eq_of_lt hlt]
    by_cases h0 : a + b = 0
    · rw [if_pos h0, h0]
    · rw [if_neg h0, Nat.mod_eq_of_lt (by omega)]
      omega
  · -- One carry, which is all two digits can have.
    have hdiv : (a + b) / M = 1 := Nat.div_eq_of_lt_le (by omega) (by omega)
    have hmod : (a + b) % M = a + b - M := by
      rw [Nat.mod_eq_sub_mod (by omega), Nat.mod_eq_of_lt (by omega)]
    rw [hdiv, hmod, if_neg (by omega), Nat.mod_eq_sub_mod (by omega)]
    by_cases htop : a + b - 1 - (M - 1) < M - 1
    · rw [Nat.mod_eq_of_lt htop]
      omega
    · omega

/-- The sum of a list from its plain sum. -/
theorem onesSum_eq_residue (hM : 2 ≤ M) {ws : List Nat} (hws : ∀ w, w ∈ ws → w < M) {init : Nat}
    (hinit : init < M) : onesSum M init ws = residue M (init + ws.sum) := by
  induction ws generalizing init with
  | nil =>
      -- A single digit is its own residue.
      have hzero := endAround_eq_residue (a := init) (b := 0) hinit (by omega)
      rw [endAround, Nat.add_zero, Nat.mod_eq_of_lt hinit, Nat.div_eq_of_lt hinit] at hzero
      exact hzero
  | cons w ws ih =>
      have hw := endAround_eq_residue hinit (hws w List.mem_cons_self)
      have hrest := ih (fun v hv => hws v (List.mem_cons_of_mem w hv)) (residue_lt hM (init + w))
      rw [List.sum_cons, ← Nat.add_assoc, ← residue_residue_add, ← hrest, ← hw]
      rfl

/-- Two digits folded once have the value of the whole. -/
theorem fold_eq_residue {n : Nat} (hn : n < M * M) :
    endAround M (n / M) (n % M) = residue M n := by
  have hM : 0 < M := Nat.pos_of_mul_pos_left (Nat.lt_of_le_of_lt (Nat.zero_le n) hn)
  rw [endAround_eq_residue (Nat.div_lt_of_lt_mul hn) (Nat.mod_lt n hM)]
  have hdiv := Nat.div_add_mod n M
  by_cases hsum : n / M + n % M = 0
  · have hdigits := Nat.add_eq_zero_iff.mp hsum
    rw [hdigits.1, hdigits.2, Nat.mul_zero] at hdiv
    rw [hsum, ← hdiv]
  · -- The high digit counts `M` times, once more than `M - 1` times.
    have hsplit : n = n / M + n % M + n / M * (M - 1) := by
      have hmul : n / M * (M - 1) + n / M = M * (n / M) := by
        rw [Nat.mul_sub_one, Nat.sub_add_cancel (Nat.le_mul_of_pos_right _ hM), Nat.mul_comm]
      omega
    conv_rhs => rw [hsplit]
    rw [residue_add_mul hsum]

end Carry

section Words

/-- Bytes as big-endian words, the last one padded with zero. -/
def beWords : List (BitVec 8) → List Nat
  | [] => []
  | [a] => [a.toNat * 256]
  | a :: b :: l => (a.toNat * 256 + b.toNat) :: beWords l

/-- The plain sum of the words. -/
def wordSum (l : List (BitVec 8)) : Nat := (beWords l).sum

theorem wordSum_cons_cons (a b : BitVec 8) (l : List (BitVec 8)) :
    wordSum (a :: b :: l) = a.toNat * 256 + b.toNat + wordSum l := by
  rw [wordSum, beWords, List.sum_cons]
  rfl

theorem wordSum_singleton (a : BitVec 8) : wordSum [a] = a.toNat * 256 := Nat.add_zero _

theorem beWords_lt (l : List (BitVec 8)) : ∀ w, w ∈ beWords l → w < 65536 := by
  induction l using beWords.induct with
  | case1 =>
      intro w hw
      exact absurd hw List.not_mem_nil
  | case2 a =>
      intro w hw
      have ha := a.isLt
      rw [beWords, List.mem_singleton] at hw
      omega
  | case3 a b l ih =>
      intro w hw
      have ha := a.isLt
      have hb := b.isLt
      rw [beWords, List.mem_cons] at hw
      rcases hw with rfl | hw
      · omega
      · exact ih w hw

/-- Words do not cross an even boundary. -/
theorem wordSum_append (l : List (BitVec 8)) (r : List (BitVec 8)) (h : l.length % 2 = 0) :
    wordSum (l ++ r) = wordSum l + wordSum r := by
  induction l using beWords.induct with
  | case1 =>
      rw [List.nil_append]
      exact (Nat.zero_add _).symm
  | case2 a => exact absurd h (by simp only [List.length_singleton]; omega)
  | case3 a b l ih =>
      have hl : l.length % 2 = 0 := by
        simp only [List.length_cons] at h
        omega
      rw [List.cons_append, List.cons_append, wordSum_cons_cons, wordSum_cons_cons, ih hl]
      omega

theorem wordSum_zeros (k : Nat) : wordSum (List.replicate k 0#8) = 0 := by
  induction k using Nat.twoStepInduction with
  | zero => rfl
  | one => rfl
  | more k ih _ =>
      rw [List.replicate_succ, List.replicate_succ, wordSum_cons_cons, ih]
      rfl

/-- Padding adds nothing, wherever it starts. -/
theorem wordSum_append_zeros (l : List (BitVec 8)) (k : Nat) :
    wordSum (l ++ List.replicate k 0#8) = wordSum l := by
  induction l using beWords.induct with
  | case1 => exact wordSum_zeros k
  | case2 a =>
      -- The first zero completes the word of the odd byte.
      cases k with
      | zero => rfl
      | succ k =>
          rw [List.replicate_succ, List.singleton_append, wordSum_cons_cons, wordSum_zeros,
            wordSum_singleton, BitVec.toNat_ofNat, Nat.zero_mod, Nat.add_zero]
  | case3 a b l ih =>
      rw [List.cons_append, List.cons_append, wordSum_cons_cons, wordSum_cons_cons, ih]

theorem wordSum_le (l : List (BitVec 8)) : 2 * wordSum l ≤ 65535 * (l.length + 1) := by
  induction l using beWords.induct with
  | case1 => exact Nat.zero_le _
  | case2 a =>
      have ha := a.isLt
      rw [wordSum_singleton, List.length_singleton]
      omega
  | case3 a b l ih =>
      have ha := a.isLt
      have hb := b.isLt
      rw [wordSum_cons_cons, List.length_cons, List.length_cons]
      omega

end Words

end Lib

end Ml605
