import Ml605.Lib.Trace
import Ml605.Aes.Mm2sStream

/-!
# Resets of the AES Stream Core

`mm2s_prmry_reset_out_n` clears the counter and empties both FIFOs. It does not
clear the line of valid bits, nor the registers before and behind it, and it
does not stop the input stream. So a valid bit that is in the line when the
reset ends goes on to its end. There it reads `din_fifo`, which is empty or
holds a beat that was taken since, and a word is written to `aes_fifo` that
nobody asked for.

Every place of the line holds the handshake of one cycle, up to 31 cycles back.
That makes the condition exact: the module goes on as from power-up if and only
if no beat was taken in the last 31 cycles of the reset, or before it if it was
shorter. `quiescent_of_reset` is the half of it that a long reset gives.

## Main definitions

* `stateAt`: The registers over time.
* `inFlight`: The valid bits, by the cycles since their handshake.
* `AsFromPowerUp`: The module does what it does from power-up.

## Theorems

* `inFlight_stateAt`: Each valid bit is the handshake of its cycle.
* `quiescent_of_inFlight`: A reset with no valid bit left is a clean one.
* `spurious_of_inFlight`: A valid bit that is left becomes a word.
* `asFromPowerUp_iff`: What a reset has to wait for.
-/

namespace Ml605

namespace Aes

open Lib

variable (aes256 : BitVec 128 → BitVec 128)

/-- The registers over time. -/
def stateAt (inp : Nat → Input) : Nat → Mm2s := trace (next aes256) powerUp inp

/-- The valid bit of the beat that was taken `j + 1` cycles ago, for `j` up to
    30. -/
def inFlight (s : Mm2s) (j : Nat) : Bool :=
  if j < 29 then s.sfifoR.getLsbD j else if j = 29 then s.sfifoO else s.sfifoOD1

/-- From here on, for every input stream and every way of reading the output,
    the module delivers the cipher of what it accepts and nothing else. -/
def AsFromPowerUp (s : Mm2s) : Prop :=
  ∀ is l, Run (logStep aes256) Running (Log.start s) is l →
    l.delivered <+: cipher aes256 0 l.accepted ∧ Streams aes256 l

section Line

theorem inFlight_next_zero (s : Mm2s) (i : Input) :
    inFlight (next aes256 s i) 0 = handshake s i := by
  rw [inFlight, if_pos (by omega)]
  exact BitVec.getLsbD_concat_zero

/-- The valid bits move on, whether or not there is a reset. -/
theorem inFlight_next_succ (s : Mm2s) (i : Input) {j : Nat} (hj : j < 30) :
    inFlight (next aes256 s i) (j + 1) = inFlight s j := by
  unfold inFlight
  by_cases hline : j + 1 < 29
  · rw [if_pos hline, if_pos (by omega)]
    change (BitVec.concat (s.sfifoR.setWidth 28) (handshake s i)).getLsbD (j + 1) = _
    rw [BitVec.getLsbD_concat_succ, BitVec.getLsbD_setWidth,
      decide_eq_true (show j < 28 by omega), Bool.true_and]
  · rw [if_neg hline]
    by_cases hend : j = 28
    · subst hend
      rfl
    · rw [if_neg (by omega), if_neg (by omega), if_pos (by omega)]
      rfl

variable (inp : Nat → Input)

/-- Each valid bit is the handshake of its cycle. -/
theorem inFlight_stateAt : ∀ n j k, j ≤ 30 → k + j + 1 = n →
    inFlight (stateAt aes256 inp n) j = handshake (stateAt aes256 inp k) (inp k) := by
  intro n
  induction n with
  | zero => exact fun _ _ _ hk => nomatch hk
  | succ n ih =>
      intro j k hj hk
      cases j with
      | zero =>
          rw [show n = k by omega]
          exact inFlight_next_zero aes256 _ _
      | succ j =>
          rw [← ih j k (by omega) (by omega)]
          exact inFlight_next_succ aes256 _ _ (by omega)

/-- Before there was a cycle for it, a place holds nothing. -/
theorem inFlight_stateAt_early : ∀ n j, j ≤ 30 → n ≤ j →
    inFlight (stateAt aes256 inp n) j = false := by
  intro n
  induction n with
  | zero =>
      intro j _ _
      unfold inFlight
      split
      · exact BitVec.getLsbD_zero
      · split <;> rfl
  | succ n ih =>
      intro j hj hn
      rcases Nat.exists_eq_add_of_lt hn with ⟨k, rfl⟩
      rw [← ih (n + k) (by omega) (by omega)]
      exact inFlight_next_succ aes256 _ _ (by omega)

/-- Nothing is in flight exactly if nothing was taken for 31 cycles. -/
theorem none_inFlight_iff (n : Nat) :
    (∀ j, j ≤ 30 → inFlight (stateAt aes256 inp (n + 1)) j = false) ↔
      ∀ k, k ≤ n → n ≤ k + 30 → handshake (stateAt aes256 inp k) (inp k) = false := by
  constructor
  · intro hnone k hk hn
    rw [← inFlight_stateAt aes256 inp (n + 1) (n - k) k (by omega) (by omega)]
    exact hnone (n - k) (by omega)
  · intro hquiet j hj
    by_cases hjn : j ≤ n
    · rw [inFlight_stateAt aes256 inp (n + 1) j (n - j) hj (by omega)]
      exact hquiet (n - j) (by omega) (by omega)
    · exact inFlight_stateAt_early aes256 inp (n + 1) j hj (by omega)

end Line

/-- A reset with no valid bit left is a clean one. -/
theorem quiescent_of_inFlight {s : Mm2s} {i : Input} (hreset : i.resetN = false)
    (hnone : ∀ j, j ≤ 30 → inFlight (next aes256 s i) j = false) :
    Quiescent (next aes256 s i) := by
  refine ⟨?_, ?_, ?_, hnone 29 (by omega), hnone 30 (by omega), ?_, ?_⟩
  · simp only [next, hreset, Bool.not_false, Bool.true_or, if_true]
  · -- `aes_din_valid` is a copy of the first bit of the line.
    change handshake s i = false
    rw [← inFlight_next_zero aes256]
    exact hnone 0 (by omega)
  · apply BitVec.eq_of_getLsbD_eq
    intro j hj
    have hbit := hnone j (by omega)
    rw [inFlight, if_pos hj] at hbit
    rw [hbit]
    exact BitVec.getLsbD_zero.symm
  · simp only [next, hreset, Bool.not_false, if_true]
  · simp only [next, hreset, Bool.not_false, if_true]

/-- A cycle in which nothing is offered and nothing read. -/
def quiet : Input := ⟨true, false, false, 0, false, false, false, 0⟩

/-- A valid bit that is left becomes a word, though nothing was accepted. -/
theorem spurious_of_inFlight : ∀ (m : Nat) (l : Log), m ≤ 30 → l.accepted = [] →
    inFlight l.hw (30 - m) = true →
    ∃ is l', Run (logStep aes256) Running l is l' ∧ l'.accepted = [] ∧ l'.hw.aesFifo ≠ [] := by
  intro m
  -- The induction is on the places the valid bit is from the end of the line.
  induction m with
  | zero =>
      intro l _ hacc hbit
      refine ⟨[quiet], logNext aes256 l quiet, Run.cons _ _ _ _ _ rfl rfl (Run.nil _), ?_, ?_⟩
      · change l.accepted ++ [] = []
        rw [hacc]
        rfl
      · have hwrite : (logNext aes256 l quiet).hw.aesFifo =
            l.hw.aesFifo ++ (if l.hw.sfifoOD1 then
              some (⟨l.hw.aesOutD1, l.hw.lfifoOD1⟩ : Beat) else none).toList := rfl
        have hbit' : l.hw.sfifoOD1 = true := hbit
        rw [hwrite, hbit']
        exact List.append_ne_nil_of_right_ne_nil _ (List.cons_ne_nil _ _)
  | succ m ih =>
      intro l hm hacc hbit
      have hmoved : inFlight (logNext aes256 l quiet).hw (30 - m) = true := by
        rw [show 30 - m = 30 - (m + 1) + 1 by omega, ← hbit]
        exact inFlight_next_succ aes256 _ _ (by omega)
      have hacc' : (logNext aes256 l quiet).accepted = [] := by
        change l.accepted ++ [] = []
        rw [hacc]
        rfl
      rcases ih (logNext aes256 l quiet) (by omega) hacc' hmoved with ⟨is, l', hrun, hrest⟩
      exact ⟨quiet :: is, l', Run.cons _ _ _ _ _ rfl rfl hrun, hrest⟩

/-- **What a reset has to wait for.** For every history of the inputs that ends
    with a cycle of reset, the module goes on as from power-up exactly if it has
    taken no beat in the last 31 cycles, that one included. -/
theorem asFromPowerUp_iff (inp : Nat → Input) (n : Nat) (hreset : (inp n).resetN = false) :
    AsFromPowerUp aes256 (stateAt aes256 inp (n + 1)) ↔
      ∀ k, k ≤ n → n ≤ k + 30 → handshake (stateAt aes256 inp k) (inp k) = false := by
  rw [← none_inFlight_iff]
  constructor
  · intro hclean j hj
    by_contra hbit
    rw [Bool.not_eq_false] at hbit
    have hplace : inFlight (Log.start (stateAt aes256 inp (n + 1))).hw (30 - (30 - j)) = true := by
      rw [show 30 - (30 - j) = j by omega]
      exact hbit
    rcases spurious_of_inFlight aes256 (30 - j) _ (by omega) rfl hplace with
      ⟨is, l, hrun, hacc, hword⟩
    rcases (hclean is l hrun).2.account with ⟨rest, -, haccount⟩
    -- Nothing was accepted, so nothing may be there.
    rw [hacc] at haccount
    exact hword (List.append_eq_nil_iff.mp (List.append_eq_nil_iff.mp haccount).1).2
  · intro hnone is l hrun
    exact run_streams aes256 (quiescent_of_inFlight aes256 hreset hnone) hrun

/-- A beat in cycle 0 and a reset from cycle 1 on. -/
def beatThenReset (n : Nat) : Input := ⟨n == 0, n == 0, true, 0x11, false, false, false, 0⟩

/-- The reset is long enough after 31 cycles. -/
theorem asFromPowerUp_long : AsFromPowerUp firstBlock (stateAt firstBlock beatThenReset 32) := by
  refine (asFromPowerUp_iff firstBlock beatThenReset 31 rfl).mpr ?_
  intro k _ hk
  have hno : (beatThenReset k).tvalid = false := by
    change (k == 0) = false
    rw [beq_eq_false_iff_ne]
    omega
  rw [handshake, hno, Bool.false_and]

/-- After the reset, a packet of one beat that is taken four cycles later. -/
def beatAfter : List Input :=
  List.replicate 4 quiet ++ ⟨true, true, true, 0x22, true, false, false, 0⟩ ::
    List.replicate 40 ⟨true, false, false, 0, true, false, false, 0⟩

/-- After a reset of one cycle one beat is accepted and two are delivered. -/
theorem short_reset_spurious :
    (beatThenReset 1).resetN = false ∧
      ∃ l, Run (logStep firstBlock) Running
          (Log.start (stateAt firstBlock beatThenReset 2)) beatAfter l ∧
        l.accepted = [⟨0x22, true⟩] ∧ l.delivered.length = 2 ∧
        ¬ AsFromPowerUp firstBlock (stateAt firstBlock beatThenReset 2) := by
  have hrun : Run (logStep firstBlock) Running
      (Log.start (stateAt firstBlock beatThenReset 2)) beatAfter
      (beatAfter.foldl (logNext firstBlock)
        (Log.start (stateAt firstBlock beatThenReset 2))) := by
    refine run_foldl (fun _ _ => rfl) _ _ ?_
    exact fun i hi _ => (by decide : ∀ i, i ∈ beatAfter → i.resetN = true) i hi
  refine ⟨rfl, _, hrun, by decide +kernel, by decide +kernel, ?_⟩
  intro hclean
  have hbegins := (hclean _ _ hrun).1.length_le
  exact absurd hbegins (by decide +kernel)

end Aes

end Ml605
