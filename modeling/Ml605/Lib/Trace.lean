import Mathlib.Data.List.Basic

/-!
# Clocked Systems over Time

Hardware in this development is a function `S → I → S` that makes one clock
cycle, driven by inputs over all time. `trace` is the state in every cycle.

A property that fails in some runs often comes with a condition on each cycle
that decides it. `trace_iff` is the rule for that: if in a state that has the
property the next one has it exactly when the cycle meets the condition, then
the property holds at all times exactly when every cycle meets the condition.

## Main definitions

* `trace`: The state over time.
* `follow`: The state over time, the inputs being chosen by what it is.

## Theorems

* `trace_eq_foldl`: The state over time as a fold.
* `trace_add`: The state over time from a later moment on.
* `trace_until`: What the cycles up to some time preserve holds up to then.
* `trace_inv`: What every cycle preserves holds at all times.
* `trace_iff`: What decides every cycle decides the whole run.
* `trace_follow`: Those inputs lead to those states.
* `exists_following`: There are inputs that are chosen by what the state is.
-/

namespace Ml605

namespace Lib

variable {S I : Type}

/-- The state over time. -/
def trace (next : S → I → S) (s0 : S) (inp : Nat → I) : Nat → S
  | 0 => s0
  | n + 1 => next (trace next s0 inp n) (inp n)

/-- The state after a number of cycles, as a fold over the inputs so far. -/
theorem trace_eq_foldl (next : S → I → S) (s0 : S) (inp : Nat → I) (n : Nat) :
    trace next s0 inp n = ((List.range n).map inp).foldl next s0 := by
  induction n with
  | zero => rfl
  | succ n ih =>
      rw [trace, ih, List.range_succ, List.map_append, List.foldl_append]
      rfl

/-- The state after more cycles is what these make of the state before them. -/
theorem trace_add (next : S → I → S) (s0 : S) (inp : Nat → I) (n : Nat) : ∀ m,
    trace next s0 inp (n + m) = trace next (trace next s0 inp n) (fun k => inp (n + k)) m := by
  intro m
  induction m with
  | zero => rfl
  | succ m ih => exact congrArg (next · (inp (n + m))) ih

variable {next : S → I → S} {s0 : S} {inp : Nat → I}

theorem trace_until {P : S → Prop} {m : Nat} (h0 : P s0)
    (hstep : ∀ n, n < m → P (trace next s0 inp n) → P (next (trace next s0 inp n) (inp n))) :
    ∀ n, n ≤ m → P (trace next s0 inp n) := by
  intro n
  induction n with
  | zero => exact fun _ => h0
  | succ n ih => exact fun hn => hstep n hn (ih (Nat.le_of_succ_le hn))

theorem trace_inv {P : S → Prop} (h0 : P s0)
    (hstep : ∀ n, P (trace next s0 inp n) → P (next (trace next s0 inp n) (inp n))) :
    ∀ n, P (trace next s0 inp n) := fun n =>
  trace_until h0 (fun k _ => hstep k) n (Nat.le_refl n)

theorem trace_iff {P : S → Prop} {C : S → I → Prop} (h0 : P s0)
    (hstep : ∀ n, P (trace next s0 inp n) →
      (P (next (trace next s0 inp n) (inp n)) ↔ C (trace next s0 inp n) (inp n))) :
    (∀ n, P (trace next s0 inp n)) ↔ ∀ n, C (trace next s0 inp n) (inp n) := by
  constructor
  · intro hall n
    exact (hstep n (hall n)).mp (hall (n + 1))
  · intro hc
    exact trace_inv h0 fun n hn => (hstep n hn).mpr (hc n)

/-- The inputs of surroundings that look at the state. -/
def follow (next : S → I → S) (s0 : S) (choose : Nat → S → I) : Nat → S
  | 0 => s0
  | n + 1 => next (follow next s0 choose n) (choose n (follow next s0 choose n))

theorem trace_follow (next : S → I → S) (s0 : S) (choose : Nat → S → I) (n : Nat) :
    trace next s0 (fun k => choose k (follow next s0 choose k)) n = follow next s0 choose n := by
  induction n with
  | zero => rfl
  | succ n ih => rw [follow, trace, ih]

theorem exists_following (next : S → I → S) (s0 : S) (choose : Nat → S → I) :
    ∃ inp, ∀ n, inp n = choose n (trace next s0 inp n) :=
  ⟨fun n => choose n (follow next s0 choose n), fun n =>
    congrArg (choose n) (trace_follow next s0 choose n).symm⟩

end Lib

end Ml605
