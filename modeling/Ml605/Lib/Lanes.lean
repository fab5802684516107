import Mathlib.Tactic

/-!
# Lanes of a Bus

A bus that carries several words side by side, the first one in the most
significant bits. `lane` reads a word off the bus and `bus` puts words on it.

## Main definitions

* `lane`: The word at a place of a bus, counted from the top.
* `bus`: Words put side by side.

## Theorems

* `lane_bus`: A place of a bus holds the word that was put there.
* `lane_xor`: Buses are combined lane by lane.
* `lane_append_left`, `lane_append_right`, `lane_extract`: The lanes of a
  concatenation and of a slice.
* `lane_rotate`: The lanes of a bus that is turned round.
* `eq_of_lane`: A bus is known by its lanes.
-/

namespace Ml605

namespace Lib

variable {w m : Nat}

/-- The word of width `w` at place `j` of a bus, counted from the top. -/
def lane (w : Nat) (x : BitVec m) (j : Nat) : BitVec w := x.extractLsb' (m - w * (j + 1)) w

/-- Words side by side, the first one at the top. -/
def bus (m : Nat) (l : List (BitVec w)) : BitVec m :=
  l.foldl (fun x a => x <<< w ||| a.setWidth m) 0

theorem getLsbD_lane (x : BitVec m) (j : Nat) {i : Nat} (hi : i < w) :
    (lane w x j).getLsbD i = x.getLsbD (m - w * (j + 1) + i) := by
  rw [lane, BitVec.getLsbD_extractLsb', decide_eq_true hi, Bool.true_and]

/-- A bus that is one word wide. -/
theorem lane_self (x : BitVec w) : lane w x 0 = x := by
  apply BitVec.eq_of_getLsbD_eq
  intro i hi
  rw [getLsbD_lane x 0 hi, Nat.zero_add, Nat.mul_one, Nat.sub_self, Nat.zero_add]

theorem bus_concat (l : List (BitVec w)) (a : BitVec w) :
    bus m (l ++ [a]) = bus m l <<< w ||| a.setWidth m := by
  rw [bus, List.foldl_append]
  rfl

/-- The bits of a bus: those of its last word, and above them those of the
    others. -/
theorem getLsbD_bus_concat (l : List (BitVec w)) (a : BitVec w) {i : Nat} (hi : i < m) :
    (bus m (l ++ [a])).getLsbD i =
      if i < w then a.getLsbD i else (bus m l).getLsbD (i - w) := by
  rw [bus_concat, BitVec.getLsbD_or, BitVec.getLsbD_shiftLeft, BitVec.getLsbD_setWidth,
    decide_eq_true hi, Bool.true_and, Bool.true_and]
  by_cases hlow : i < w
  · rw [if_pos hlow, decide_eq_true hlow, Bool.not_true, Bool.false_and, Bool.false_or]
  · rw [if_neg hlow, decide_eq_false hlow, Bool.not_false, Bool.true_and,
      BitVec.getLsbD_of_ge a i (Nat.le_of_not_lt hlow), Bool.or_false]

/-- Every bit of a bus is a bit of one of its words. -/
theorem getLsbD_bus (l : List (BitVec w)) : ∀ (j i : Nat) (hj : j < l.length), i < w →
    w * l.length ≤ m → (bus m l).getLsbD (w * (l.length - (j + 1)) + i) = l[j].getLsbD i := by
  -- The words are taken off from the end, which holds the lowest bits.
  induction l using List.reverseRecOn with
  | nil => exact fun j _ hj => absurd hj (Nat.not_lt_zero j)
  | append_singleton l a ih =>
      intro j i hj hi hm
      have hlen : (l ++ [a]).length = l.length + 1 := by simp
      have hbit : w * ((l ++ [a]).length - (j + 1)) + i < m := by
        have hle : w * ((l ++ [a]).length - (j + 1)) + w ≤ w * (l ++ [a]).length := by
          rw [← Nat.mul_succ]
          exact Nat.mul_le_mul_left w (by omega)
        omega
      rw [getLsbD_bus_concat l a hbit]
      rcases Nat.lt_or_ge j l.length with hjl | hjl
      · have hup : w * ((l ++ [a]).length - (j + 1)) =
            w * (l.length - (j + 1)) + w := by
          rw [← Nat.mul_succ, hlen]
          congr 1
          omega
        rw [hup, if_neg (by omega),
          show w * (l.length - (j + 1)) + w + i - w = w * (l.length - (j + 1)) + i by omega,
          ih j i hjl hi (Nat.le_trans (Nat.mul_le_mul_left w (by omega)) hm),
          List.getElem_append_left hjl]
      · have hlast : j = l.length := by omega
        subst hlast
        have hzero : (l ++ [a]).length - (l.length + 1) = 0 := by omega
        rw [hzero, Nat.mul_zero, Nat.zero_add, if_pos hi, List.getElem_concat_length rfl]

/-- A place of a bus holds the word that was put there. -/
theorem lane_bus {l : List (BitVec w)} {j : Nat} (hm : w * l.length = m) (hj : j < l.length) :
    lane w (bus m l) j = l[j] := by
  apply BitVec.eq_of_getLsbD_eq
  intro i hi
  rw [getLsbD_lane _ _ hi, ← getLsbD_bus l j i hj hi (Nat.le_of_eq hm), Nat.mul_sub, hm]

theorem lane_bus_eq {l : List (BitVec w)} {j : Nat} {a : BitVec w} (h : l[j]? = some a)
    (hm : w * l.length = m) : lane w (bus m l) j = a := by
  obtain ⟨hj, rfl⟩ := List.getElem?_eq_some_iff.mp h
  exact lane_bus hm hj

theorem lane_bus_range {n : Nat} (f : Nat → BitVec w) (hm : w * n = m) {j : Nat} (hj : j < n) :
    lane w (bus m ((List.range n).map f)) j = f j := by
  refine lane_bus_eq ?_ (by rw [List.length_map, List.length_range, hm])
  rw [List.getElem?_map, List.getElem?_range hj, Option.map_some]

/-- Buses are combined lane by lane. -/
@[simp]
theorem lane_xor (x y : BitVec m) (j : Nat) : lane w (x ^^^ y) j = lane w x j ^^^ lane w y j := by
  apply BitVec.eq_of_getLsbD_eq
  intro i hi
  rw [BitVec.getLsbD_xor, getLsbD_lane _ _ hi, getLsbD_lane _ _ hi, getLsbD_lane _ _ hi,
    BitVec.getLsbD_xor]

/-- The first lanes of a concatenation are those of its first part. -/
theorem lane_append_left {p q : Nat} (a : BitVec p) (b : BitVec q) {j : Nat}
    (hj : w * (j + 1) ≤ p) : lane w (a ++ b) j = lane w a j := by
  apply BitVec.eq_of_getLsbD_eq
  intro i hi
  rw [getLsbD_lane _ _ hi, getLsbD_lane _ _ hi, BitVec.getLsbD_append, if_neg (by omega),
    show p + q - w * (j + 1) + i - q = p - w * (j + 1) + i by omega]

/-- The lanes behind the first part are those of the second. -/
theorem lane_append_right {p q k : Nat} (a : BitVec p) (b : BitVec q) (hp : p = w * k) {j : Nat}
    (hj : w * (j + 1) ≤ q) : lane w (a ++ b) (k + j) = lane w b j := by
  apply BitVec.eq_of_getLsbD_eq
  intro i hi
  have hw : w ≤ w * (j + 1) := Nat.le_mul_of_pos_right w (Nat.succ_pos j)
  have hplace : p + q - w * (k + j + 1) = q - w * (j + 1) := by
    rw [hp, Nat.add_assoc k j 1, Nat.mul_add, Nat.add_sub_add_left]
  rw [getLsbD_lane _ _ hi, getLsbD_lane _ _ hi, BitVec.getLsbD_append, hplace,
    if_pos (by omega)]

/-- A lane of a slice is a lane of the bus it was cut from. -/
theorem lane_extract (x : BitVec m) {start len j k : Nat} (hk : w * (j + 1) ≤ len)
    (h : m - w * (k + 1) = start + (len - w * (j + 1))) :
    lane w (x.extractLsb' start len) j = lane w x k := by
  apply BitVec.eq_of_getLsbD_eq
  intro i hi
  have hw : w ≤ w * (j + 1) := Nat.le_mul_of_pos_right w (Nat.succ_pos j)
  rw [getLsbD_lane _ _ hi, getLsbD_lane _ _ hi, BitVec.getLsbD_extractLsb', h,
    decide_eq_true (by omega), Bool.true_and, Nat.add_assoc]

/-- The low part of a bus put in front of the rest turns the lanes round. -/
theorem lane_rotate (x : BitVec m) {p q k l j : Nat} (hp : p = w * k) (hq : q = w * l)
    (hm : p + q = m) (hj : j < k + l) :
    lane w (x.extractLsb' 0 p ++ x.extractLsb' p q) j = lane w x ((j + l) % (k + l)) := by
  rcases Nat.lt_or_ge j k with hjk | hjk
  · have hle : w * (j + 1) ≤ p := hp ▸ Nat.mul_le_mul_left w hjk
    rw [lane_append_left _ _ hle, Nat.mod_eq_of_lt (by omega)]
    refine lane_extract x hle ?_
    rw [show j + l + 1 = l + (j + 1) by omega, Nat.mul_add, ← hq]
    omega
  · obtain ⟨i, rfl⟩ := Nat.exists_eq_add_of_le hjk
    have hle : w * (i + 1) ≤ q := hq ▸ Nat.mul_le_mul_left w (by omega)
    rw [lane_append_right _ _ hp hle, show k + i + l = i + (k + l) by omega, Nat.add_mod_right,
      Nat.mod_eq_of_lt (by omega)]
    refine lane_extract x hle ?_
    omega

/-- A bus is known by its lanes. -/
theorem eq_of_lane {n : Nat} {x y : BitVec m} (hm : w * n = m)
    (h : ∀ j, j < n → lane w x j = lane w y j) : x = y := by
  apply BitVec.eq_of_getLsbD_eq
  intro i hi
  have hw : 0 < w := Nat.pos_of_ne_zero fun h0 => by
    rw [h0, Nat.zero_mul] at hm
    omega
  have hq : i / w < n := (Nat.div_lt_iff_lt_mul hw).mpr (by rwa [Nat.mul_comm, hm])
  have hlow : i % w < w := Nat.mod_lt i hw
  -- Bit `i` lies in the lane that is as far from the top as `i / w` is from the bottom.
  have hplace : m - w * (n - (i / w + 1) + 1) + i % w = i := by
    rw [← hm, ← Nat.sub_add_comm hq, Nat.add_sub_add_right, Nat.mul_sub,
      Nat.sub_sub_self (Nat.mul_le_mul_left w (Nat.le_of_lt hq))]
    exact Nat.div_add_mod i w
  have hbit := congrArg (fun z => z.getLsbD (i % w))
    (h (n - (i / w + 1)) (Nat.sub_lt (Nat.zero_lt_of_lt hq) (Nat.succ_pos _)))
  simp only [getLsbD_lane _ _ hlow, hplace] at hbit
  exact hbit

end Lib

end Ml605
