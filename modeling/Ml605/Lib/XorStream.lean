import Mathlib.Tactic

/-!
# Combining a Stream with a Keystream

Words combined one by one with a keystream, from a given place of the keystream
on. Doing it twice from the same place gives the words back. When the keystream
repeats after a number of words, the place matters only up to that period, so
whole periods can be taken out of the stream, put together in another way and
combined again.

## Main definitions

* `xorFrom`: A list of words combined with the keystream from a place on.

## Theorems

* `xorFrom_self`: Combining twice gives the words back.
* `xorFrom_append`: The second part of a list starts as many places further.
* `xorFrom_drop`, `xorFrom_take`: A part of the result is the result of a part.
* `xorFrom_period`: Only the place within a period matters.
-/

namespace Ml605

namespace Lib

variable {n : Nat} (ks : Nat → BitVec n)

/-- The words combined with the keystream from place `k` on. -/
def xorFrom (k : Nat) : List (BitVec n) → List (BitVec n)
  | [] => []
  | d :: ds => (d ^^^ ks k) :: xorFrom (k + 1) ds

/-- Combining twice gives the words back. -/
theorem xorFrom_self (ds : List (BitVec n)) : ∀ k, xorFrom ks k (xorFrom ks k ds) = ds := by
  induction ds with
  | nil => intro k; rfl
  | cons d ds ih =>
      intro k
      simp only [xorFrom, ih, BitVec.xor_assoc, BitVec.xor_self, BitVec.xor_zero]

theorem xorFrom_append (ds es : List (BitVec n)) : ∀ k,
    xorFrom ks k (ds ++ es) = xorFrom ks k ds ++ xorFrom ks (k + ds.length) es := by
  induction ds with
  | nil => intro k; rfl
  | cons d ds ih =>
      intro k
      simp only [List.cons_append, xorFrom, ih, List.length_cons]
      rw [show k + 1 + ds.length = k + (ds.length + 1) by omega]

theorem xorFrom_take (m : Nat) (ds : List (BitVec n)) (k : Nat) :
    (xorFrom ks k ds).take m = xorFrom ks k (ds.take m) := by
  induction ds generalizing m k with
  | nil => simp only [xorFrom, List.take_nil]
  | cons d ds ih =>
      cases m with
      | zero => rfl
      | succ m => simp only [xorFrom, List.take_succ_cons, ih]

theorem xorFrom_drop (m : Nat) (ds : List (BitVec n)) (k : Nat) :
    (xorFrom ks k ds).drop m = xorFrom ks (k + m) (ds.drop m) := by
  induction m generalizing ds k with
  | zero => rfl
  | succ m ih =>
      cases ds with
      | nil => rfl
      | cons d ds =>
          simp only [xorFrom, List.drop_succ_cons, ih]
          rw [show k + 1 + m = k + (m + 1) by omega]

variable {ks}

/-- A place can be moved by whole periods. -/
theorem xorFrom_period {p : Nat} (h : ∀ k, ks (k + p) = ks k) (ds : List (BitVec n)) :
    ∀ (k c : Nat), xorFrom ks (k + p * c) ds = xorFrom ks k ds := by
  -- The periods first, for a single word, and then word by word.
  have hword : ∀ c k, ks (k + p * c) = ks k := by
    intro c
    induction c with
    | zero => intro k; rfl
    | succ c ih =>
        intro k
        rw [Nat.mul_succ, ← Nat.add_assoc, h, ih]
  induction ds with
  | nil => intro k c; rfl
  | cons d ds ih =>
      intro k c
      simp only [xorFrom]
      rw [hword c k, show k + p * c + 1 = k + 1 + p * c by omega, ih]

end Lib

end Ml605
