import Mathlib.Data.List.Basic

/-!
# Histories, Windows and Queues

A pipeline holds in its registers what entered it during the last few cycles.
The way to reason about one here is to keep the whole history beside it: the
function that says what entered how many cycles ago, with nothing for a cycle
in which nothing entered. A register of the pipeline then holds a given place
of the history, every clock cycle shifts the history by one, and a relation
between registers and places is kept because both move together.

A window is the part of a history that some stretch of a pipeline holds, as a
list with the oldest first. Windows connect pipelines to queues: a queue whose
writes leave one stage of a pipeline and whose reads leave a later one holds
the window between the two.

## Main definitions

* `shiftIn`: The history one cycle later.
* `window`: A stretch of a history, oldest first.
* `fifoNext`: A cycle of a first-word-fall-through queue.

## Theorems

* `window_shiftIn`: A shift moves a window by one place.
* `window_succ_last`: A window ends with its newest place.
* `window_length_le`: A window is no longer than its stretch.
* `window_eq_nil`: A window in which nothing entered is empty.
* `fifoNext_window`: The queue between two stages holds the window between them.
-/

namespace Ml605

namespace Lib

variable {α : Type}

/-- The history one cycle later, when `a` has entered. -/
def shiftIn (a : Option α) (w : Nat → Option α) : Nat → Option α
  | 0 => a
  | j + 1 => w j

@[simp]
theorem shiftIn_zero (a : Option α) (w : Nat → Option α) : shiftIn a w 0 = a := rfl

@[simp]
theorem shiftIn_succ (a : Option α) (w : Nat → Option α) (j : Nat) :
    shiftIn a w (j + 1) = w j := rfl

/-- The places `lo` to `lo + n - 1` of a history, oldest first. -/
def window (w : Nat → Option α) (lo : Nat) : Nat → List α
  | 0 => []
  | n + 1 => (w (lo + n)).toList ++ window w lo n

theorem window_succ (w : Nat → Option α) (lo n : Nat) :
    window w lo (n + 1) = (w (lo + n)).toList ++ window w lo n := rfl

/-- A shift moves a window by one place. -/
theorem window_shiftIn (a : Option α) (w : Nat → Option α) (lo : Nat) : ∀ n : Nat,
    window (shiftIn a w) (lo + 1) n = window w lo n := by
  intro n
  induction n with
  | zero => rfl
  | succ n ih =>
      rw [window_succ, window_succ, ih]
      -- The place at the old end has the number one less in the old history.
      rw [show lo + 1 + n = (lo + n) + 1 by omega, shiftIn_succ]

/-- A window ends with its newest place. -/
theorem window_succ_last (w : Nat → Option α) (lo : Nat) : ∀ n : Nat,
    window w lo (n + 1) = window w (lo + 1) n ++ (w lo).toList := by
  intro n
  induction n with
  | zero => simp only [window, Nat.add_zero, List.append_nil, List.nil_append]
  | succ n ih =>
      rw [window_succ w lo (n + 1), ih, window_succ w (lo + 1) n, List.append_assoc,
        show lo + 1 + n = lo + (n + 1) by omega]

theorem window_length_le (w : Nat → Option α) (lo : Nat) : ∀ n : Nat,
    (window w lo n).length ≤ n := by
  intro n
  induction n with
  | zero => exact Nat.le_refl 0
  | succ n ih =>
      rw [window_succ, List.length_append]
      have hone : (w (lo + n)).toList.length ≤ 1 := Option.length_toList_le
      omega

/-- A window in which nothing entered is empty. -/
theorem window_eq_nil {w : Nat → Option α} {lo n : Nat} (h : ∀ j, j < n → w (lo + j) = none) :
    window w lo n = [] := by
  induction n with
  | zero => rfl
  | succ n ih =>
      rw [window_succ, ih fun j hj => h j (Nat.lt_succ_of_lt hj), h n (Nat.lt_succ_self n)]
      rfl

/-- A cycle of a queue that shows its oldest word: a read takes that word off,
    a write adds one at the end. -/
def fifoNext (rd : Bool) (wr : Option α) (l : List α) : List α :=
  (if rd then l.tail else l) ++ wr.toList

theorem fifoNext_length_le (rd : Bool) (wr : Option α) (l : List α) :
    (fifoNext rd wr l).length ≤ l.length + 1 := by
  have hwr : wr.toList.length ≤ 1 := Option.length_toList_le
  unfold fifoNext
  rw [List.length_append]
  cases rd with
  | false =>
      simp only [Bool.false_eq_true, if_false]
      omega
  | true =>
      simp only [if_true, List.length_tail]
      omega

/-- The queue between two stages holds the window between them: what leaves the
    first stage is written, and a read happens when something leaves the last. -/
theorem fifoNext_window (w : Nat → Option α) (lo n : Nat) :
    fifoNext (w (lo + 1 + n)).isSome (w lo) (window w (lo + 1) (n + 1)) =
      window w lo (n + 1) := by
  unfold fifoNext
  rw [window_succ_last w lo n]
  congr 1
  rw [window_succ]
  cases w (lo + 1 + n) with
  | none => rfl
  | some a => rfl

end Lib

end Ml605
