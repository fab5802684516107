import Mathlib.Tactic

/-!
# Equally Spaced Cells of an Address Space

A block of memory that is cut into cells of one size, in an address space whose
addresses wrap around. A ring of cells is walked by adding a distance to an
address and, if the sum lies behind the last cell, taking the size of the block
off again. The block may end with the address space, so the sum can also wrap
around, and is then below the address that it started from.

Both tests together are exact for a walk of at most one turn, whatever the
position of the block, as long as the block is not the whole address space.

## Main definitions

* `Cells`: A block of cells that does not wrap around.
* `Cells.cell`: The address of a cell.
* `Cells.ahead`, `Cells.back`, `Cells.next`: The walks, over addresses.
* `Cells.name`: The number of a cell, from its address.

## Theorems

* `word_inj`: Words of a block are told apart by the cell and by the offset in it.
* `ahead_cell`, `back_cell`, `next_cell`: The walks, over the numbers of the cells.
* `exists_two_pow`: The test for a power of two.
-/

namespace Ml605

namespace Lib

/-- A block of `count` cells, `sep` addresses apart. -/
structure Cells (w : Nat) where
  base : BitVec w
  sep : Nat
  count : Nat
  sep_pos : 0 < sep
  count_pos : 0 < count
  proper : sep * count < 2 ^ w
  fits : base.toNat + sep * count ≤ 2 ^ w

namespace Cells

variable {w : Nat} (c : Cells w)

/-- The address of a cell. -/
def cell (i : Nat) : BitVec w := c.base + BitVec.ofNat w (c.sep * i)

/-- The address of the last cell. -/
def last : BitVec w := c.cell (c.count - 1)

/-- The size of the block. -/
def size : BitVec w := BitVec.ofNat w (c.sep * c.count)

/-- The cell `n` cells ahead of an address. -/
def ahead (a : BitVec w) (n : Nat) : BitVec w :=
  let b := a + BitVec.ofNat w (c.sep * n)
  if b > c.last ∨ a > b then b - c.size else b

/-- The cell `n` cells behind an address. -/
def back (a : BitVec w) (n : Nat) : BitVec w :=
  let b := a - BitVec.ofNat w (c.sep * n)
  if b < c.base ∨ a < b then b + c.size else b

/-- The cell behind an address. -/
def next (a : BitVec w) : BitVec w :=
  if a ≥ c.last then c.base else a + BitVec.ofNat w c.sep

/-- The number of the cell with an address, or the number of cells if there is
    none. -/
def name (a : BitVec w) : Nat :=
  ((List.range c.count).find? fun i => c.cell i = a).getD c.count

@[simp]
theorem cell_zero : c.cell 0 = c.base := by simp [cell]

theorem cell_add (i n : Nat) : c.cell (i + n) = c.cell i + BitVec.ofNat w (c.sep * n) := by
  simp [cell, Nat.mul_add, BitVec.ofNat_add, BitVec.add_assoc]

theorem cell_count_add (i : Nat) : c.cell (i + c.count) = c.cell i + c.size :=
  c.cell_add i c.count

variable {i j n : Nat}

theorem mul_le (h : i ≤ j) : c.sep * i ≤ c.sep * j := Nat.mul_le_mul_left c.sep h

theorem mul_lt (h : i < j) : c.sep * i + c.sep ≤ c.sep * j := by
  rw [← Nat.mul_succ]
  exact c.mul_le h

/-- The words of the cells have different addresses, which do not wrap. -/
theorem toNat_word (hi : i < c.count) {o : BitVec w} (ho : o.toNat < c.sep) :
    (c.cell i + o).toNat = c.base.toNat + c.sep * i + o.toNat := by
  have hfits := c.fits
  have hi := c.mul_lt hi
  have hcell : (c.cell i).toNat = c.base.toNat + c.sep * i := by
    rw [cell, BitVec.toNat_add, BitVec.toNat_ofNat, Nat.mod_eq_of_lt (a := c.sep * i) (by omega),
      Nat.mod_eq_of_lt (by omega)]
  rw [BitVec.toNat_add, hcell, Nat.mod_eq_of_lt (by omega)]

theorem toNat_cell (hi : i < c.count) : (c.cell i).toNat = c.base.toNat + c.sep * i := by
  have hword := c.toNat_word hi (o := 0) (by simpa using c.sep_pos)
  simpa using hword

/-- Words of a block are told apart by the cell and by the offset in it. -/
theorem word_inj (hi : i < c.count) (hj : j < c.count) {o o' : BitVec w} (ho : o.toNat < c.sep)
    (ho' : o'.toNat < c.sep) : c.cell i + o = c.cell j + o' ↔ i = j ∧ o = o' := by
  constructor
  · intro h
    have hnat := congrArg BitVec.toNat h
    rw [c.toNat_word hi ho, c.toNat_word hj ho'] at hnat
    -- Of two different cells the earlier one ends before the other begins.
    rcases Nat.lt_trichotomy i j with hlt | heq | hgt
    · have := c.mul_lt hlt
      omega
    · subst heq
      exact ⟨rfl, BitVec.eq_of_toNat_eq (by omega)⟩
    · have := c.mul_lt hgt
      omega
  · rintro ⟨rfl, rfl⟩
    rfl

theorem cell_inj (hi : i < c.count) (hj : j < c.count) : c.cell i = c.cell j ↔ i = j := by
  have hzero : (0 : BitVec w).toNat < c.sep := by simpa using c.sep_pos
  have hword := c.word_inj hi hj hzero hzero
  simpa using hword

/-- A word is as far from the beginning of a cell as its offset says if it lies in
    the cell, and not nearer than the size of a cell otherwise. -/
theorem sep_le_of_ne (hi : i < c.count) (hj : j < c.count) (hne : j ≠ i) {o : BitVec w}
    (ho : o.toNat < c.sep) : c.sep ≤ (c.cell j + o - c.cell i).toNat := by
  have hproper := c.proper
  have hfits := c.fits
  have hj' := c.mul_lt hj
  have hi' := c.mul_lt hi
  rw [BitVec.toNat_sub, c.toNat_word hj ho, c.toNat_cell hi]
  rcases Nat.lt_or_gt_of_ne hne with hlt | hgt
  · have := c.mul_lt hlt
    rw [Nat.mod_eq_of_lt (by omega)]
    omega
  · have := c.mul_lt hgt
    rw [Nat.mod_eq_sub_mod (by omega), Nat.mod_eq_of_lt (by omega)]
    omega

section Walks

variable (hi : i < c.count) (hn : n ≤ c.count)

include hi hn

/-- The two tests of a walk ahead find out whether it leaves the block. -/
theorem ahead_wraps_iff : (c.cell (i + n) > c.last ∨ c.cell i > c.cell (i + n)) ↔
    c.count ≤ i + n := by
  have hfits := c.fits
  have hproper := c.proper
  have hpos := c.sep_pos
  have hlast := c.mul_lt (Nat.sub_lt c.count_pos Nat.one_pos)
  have hadd : c.sep * (i + n) = c.sep * i + c.sep * n := Nat.mul_add ..
  have hn' := c.mul_le hn
  have hi' := c.mul_lt hi
  have hsum : (c.cell (i + n)).toNat = (c.base.toNat + c.sep * (i + n)) % 2 ^ w := by
    rw [cell, BitVec.toNat_add, BitVec.toNat_ofNat, Nat.add_mod_mod]
  rw [gt_iff_lt, gt_iff_lt, BitVec.lt_def, BitVec.lt_def, last,
    c.toNat_cell (Nat.sub_lt c.count_pos Nat.one_pos), c.toNat_cell hi, hsum]
  by_cases hover : c.base.toNat + c.sep * (i + n) < 2 ^ w
  · rw [Nat.mod_eq_of_lt hover]
    constructor
    · intro h
      by_contra hc
      have := c.mul_le (i := i + n) (j := c.count - 1) (by omega)
      omega
    · intro h
      have := c.mul_lt (i := c.count - 1) (j := i + n) (by have := c.count_pos; omega)
      omega
  · -- The sum has wrapped around, so it is below where the walk began.
    have hout : c.count ≤ i + n := by
      by_contra hc
      have := c.mul_lt (i := i + n) (j := c.count) (by omega)
      omega
    have hmod : (c.base.toNat + c.sep * (i + n)) % 2 ^ w =
        c.base.toNat + c.sep * (i + n) - 2 ^ w := by
      rw [Nat.mod_eq_sub_mod (by omega), Nat.mod_eq_of_lt (by omega)]
    rw [hmod]
    exact ⟨fun _ => hout, fun _ => Or.inr (by omega)⟩

/-- A walk ahead of at most one turn. -/
theorem ahead_cell : c.ahead (c.cell i) n =
    c.cell (if i + n ≥ c.count then i + n - c.count else i + n) := by
  have hiff := c.ahead_wraps_iff hi hn
  rw [ahead, ← c.cell_add]
  by_cases h : c.count ≤ i + n
  · have hturn : c.cell (i + n) = c.cell (i + n - c.count) + c.size := by
      rw [← c.cell_count_add, Nat.sub_add_cancel h]
    rw [if_pos (hiff.mpr h), if_pos h, hturn, BitVec.add_sub_cancel]
  · rw [if_neg (fun hc => h (hiff.mp hc)), if_neg h]

/-- The two tests of a walk back find out whether it leaves the block. -/
theorem back_wraps_iff {b : BitVec w} (hb : b + BitVec.ofNat w (c.sep * n) = c.cell i) :
    (b < c.base ∨ c.cell i < b) ↔ i < n := by
  have hfits := c.fits
  have hproper := c.proper
  have hpos := c.sep_pos
  have hn' := c.mul_le hn
  have hi' := c.mul_lt hi
  have hlt := b.isLt
  have hsum := congrArg BitVec.toNat hb
  rw [BitVec.toNat_add, BitVec.toNat_ofNat, Nat.mod_eq_of_lt (a := c.sep * n) (by omega),
    c.toNat_cell hi] at hsum
  rw [BitVec.lt_def, BitVec.lt_def, c.toNat_cell hi]
  by_cases hover : b.toNat + c.sep * n < 2 ^ w
  · rw [Nat.mod_eq_of_lt hover] at hsum
    constructor
    · intro h
      by_contra hc
      have := c.mul_le (i := n) (j := i) (by omega)
      omega
    · intro h
      have := c.mul_lt h
      omega
  · -- The difference has wrapped around, so it is above where the walk began.
    rw [Nat.mod_eq_sub_mod (by omega), Nat.mod_eq_of_lt (by omega)] at hsum
    refine ⟨fun _ => ?_, fun _ => Or.inr (by omega)⟩
    by_contra hc
    have := c.mul_le (i := n) (j := i) (by omega)
    omega

/-- A walk back of at most one turn. -/
theorem back_cell : c.back (c.cell i) n =
    c.cell (if i < n then i + c.count - n else i - n) := by
  have hiff := c.back_wraps_iff hi hn (BitVec.sub_add_cancel ..)
  rw [back]
  by_cases h : i < n
  · have hturn : c.cell (i + c.count - n) + BitVec.ofNat w (c.sep * n) = c.cell i + c.size := by
      rw [← c.cell_add, Nat.sub_add_cancel (by omega), c.cell_count_add]
    rw [if_pos (hiff.mpr h), if_pos h, BitVec.sub_add_comm, ← hturn, BitVec.add_sub_cancel]
  · have hback : c.cell i = c.cell (i - n) + BitVec.ofNat w (c.sep * n) := by
      rw [← c.cell_add, Nat.sub_add_cancel (by omega)]
    rw [if_neg (fun hc => h (hiff.mp hc)), if_neg h, hback, BitVec.add_sub_cancel]

end Walks

/-- The next cell. -/
theorem next_cell (hi : i < c.count) :
    c.next (c.cell i) = c.cell (if i + 1 ≥ c.count then 0 else i + 1) := by
  have hiff : c.cell i ≥ c.last ↔ i + 1 ≥ c.count := by
    have hpos := c.count_pos
    have hsep := c.sep_pos
    rw [ge_iff_le, BitVec.le_def, last, c.toNat_cell hi,
      c.toNat_cell (Nat.sub_lt hpos Nat.one_pos)]
    constructor
    · intro h
      by_contra hc
      have := c.mul_lt (i := i) (j := c.count - 1) (by omega)
      omega
    · intro h
      have := c.mul_le (i := c.count - 1) (j := i) (by omega)
      omega
  rw [next]
  by_cases h : i + 1 ≥ c.count
  · rw [if_pos (hiff.mpr h), if_pos h, cell_zero]
  · rw [if_neg (fun hc => h (hiff.mp hc)), if_neg h, c.cell_add, Nat.mul_one]

/-- A cell is found by its address. -/
theorem name_eq_iff {a : BitVec w} (hi : i < c.count) : c.name a = i ↔ a = c.cell i := by
  rw [name]
  rcases hfind : (List.range c.count).find? (fun i => c.cell i = a) with _ | k
  · rw [List.find?_eq_none] at hfind
    refine ⟨fun h => absurd hi (by rw [← h]; exact Nat.lt_irrefl _), fun h => ?_⟩
    exact absurd h.symm (by simpa using hfind i (List.mem_range.mpr hi))
  · have hk : c.cell k = a := by simpa using List.find?_some hfind
    have hlt : k < c.count := List.mem_range.mp (List.mem_of_find?_eq_some hfind)
    rw [Option.getD_some, ← hk, c.cell_inj hlt hi]

end Cells

/-- A number that has no bit in common with the one below it is a power of two. -/
theorem exists_two_pow : ∀ {a : Nat}, 0 < a → (a - 1) &&& a = 0 → ∃ k, a = 2 ^ k := by
  intro a
  induction a using Nat.strong_induction_on with
  | _ a ih =>
      intro hpos h
      have hhalf : (a - 1) / 2 &&& a / 2 = 0 := by rw [← Nat.and_div_two, h]
      rcases Nat.even_or_odd' a with ⟨b, rfl | rfl⟩
      · have hpred : (2 * b - 1) / 2 = b - 1 := by omega
        have hb : 2 * b / 2 = b := by omega
        rw [hpred, hb] at hhalf
        rcases ih b (by omega) (by omega) hhalf with ⟨k, hk⟩
        exact ⟨k + 1, by rw [hk, pow_succ']⟩
      · -- Half of an odd number is shared with half of its predecessor.
        have hpred : (2 * b + 1 - 1) / 2 = b := by omega
        have hb : (2 * b + 1) / 2 = b := by omega
        rw [hpred, hb, Nat.and_self] at hhalf
        exact ⟨0, by rw [hhalf]; rfl⟩

end Lib

end Ml605
