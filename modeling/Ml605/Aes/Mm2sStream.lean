import Ml605.Aes.Mm2s

/-!
# Correctness of the AES Stream Core

The four lines of `aes_mm2s` agree to the cycle. The invariant keeps beside the
registers the history of the input stream: which beat, with which position in
its packet, was taken how many cycles ago. Every register that belongs to a
beat on its way is tied to one place of that history, and a clock cycle moves
both.

With the cycle of the handshake as zero, the beat is in

    aes_din         in cycle 1, and goes into din_fifo in that cycle
    sfifo_r[j]      in cycle j + 1, up to 29
    sfifo_o         in cycle 30, when it leaves din_fifo
    sfifo_o_d1      in cycle 31, when it goes into aes_fifo.

So `din_fifo` holds the places 1 to 29 of the history, and everything that is
not in `aes_fifo` yet the places 0 to 30.

The input stops when the output FIFO is half full, as seen at most a cycle
late. A beat is therefore only taken while at most 128 words are in the FIFO
and at most 31 on their way to it.

## Main definitions

* `Tracked`: The registers and FIFOs against the history.
* `Streams`: What the module promises: a prefix of the cipher, nothing lost, and
  no FIFO overflow or underflow.

## Theorems

* `step_tracked`: A clock cycle keeps the invariant.
* `run_streams`: What the module promises holds after every run.
* `delivered_of_idle`: What is left comes out once the output is read.
-/

namespace Ml605

namespace Aes

open Lib

variable (aes256 : BitVec 128 → BitVec 128)

/-- A beat with its position in its packet. -/
abbrev Placed := Beat × Nat

/-- The registers and FIFOs against the history of the input stream. -/
structure Tracked (l : Log) (w : Nat → Option Placed) : Prop where
  valid : ∀ j, j < 29 → l.hw.sfifoR.getLsbD j = (w j).isSome
  validO : l.hw.sfifoO = (w 29).isSome
  validD1 : l.hw.sfifoOD1 = (w 30).isSome
  last : ∀ j, j < 29 → ∀ p, w j = some p → l.hw.lfifoR.getLsbD j = p.1.last
  lastO : ∀ p, w 29 = some p → l.hw.lfifoO = p.1.last
  lastD1 : ∀ p, w 30 = some p → l.hw.lfifoOD1 = p.1.last
  dinValid : l.hw.aesDinValid = (w 0).isSome
  dinData : ∀ p, w 0 = some p → l.hw.aesDin = p.1.data
  pipe : ∀ j, j < 29 → ∀ p, w j = some p →
    l.hw.pipe j = aes256 (swapBytes (BitVec.ofNat 128 (p.2 % 32)))
  out : ∀ p, w 29 = some p → l.hw.aesOut = keystream aes256 p.2
  outD1 : ∀ p, w 30 = some p → l.hw.aesOutD1 = p.1.data ^^^ keystream aes256 p.2
  dinFifo : l.hw.dinFifo.map Prod.snd = (window w 1 29).map fun p => p.1.data
  ctr : l.hw.aesCtr = BitVec.ofNat 5 (position 0 l.accepted)
  account : l.delivered ++ l.hw.aesFifo ++
    (window w 0 31).map (fun p => cipherBeat aes256 p.1 p.2) = cipher aes256 0 l.accepted
  occupied : l.hw.aesFifo.length + (window w 0 31).length ≤ 160
  lagging : l.hw.aesFifo.length ≤ l.hw.aesOccPrev + 1

/-- What enters the history in a cycle. -/
def entering (l : Log) (i : Input) : Option Placed :=
  if handshake l.hw i then some (⟨i.tdata, i.tlast⟩, position 0 l.accepted) else none

theorem entering_isSome (l : Log) (i : Input) :
    (entering l i).isSome = handshake l.hw i := by
  unfold entering
  cases handshake l.hw i with
  | false => rfl
  | true => rfl

section Lines

variable {α : Type}

/-- A shift register of 29 bits moves with the history. -/
theorem line_shift (R : Option α → Bool → Prop) {w : Nat → Option α} {r : BitVec 29}
    {a : Option α} {b : Bool} (h : ∀ j, j < 29 → R (w j) (r.getLsbD j)) (hab : R a b) :
    ∀ j, j < 29 → R (shiftIn a w j) ((BitVec.concat (r.setWidth 28) b).getLsbD j) := by
  intro j hj
  cases j with
  | zero =>
      rw [BitVec.getLsbD_concat_zero]
      exact hab
  | succ j =>
      rw [BitVec.getLsbD_concat_succ, BitVec.getLsbD_setWidth, shiftIn_succ,
        decide_eq_true (show j < 28 by omega), Bool.true_and]
      exact h j (by omega)

end Lines

section Step

variable {aes256} {l : Log} {w : Nat → Option Placed} {i : Input}

/-- A beat is taken only while the output FIFO has at most 128 words. -/
theorem aesFifo_le_of_handshake (h : Tracked aes256 l w) (hs : handshake l.hw i = true) :
    l.hw.aesFifo.length ≤ 128 := by
  have hlag := h.lagging
  simp only [handshake, mm2sTready, aesRdFull, Bool.and_eq_true, Bool.not_eq_true',
    decide_eq_false_iff_not] at hs
  have hfull := hs.2.1
  split at hfull <;> omega

/-- The beat that leaves the store is the one that entered thirty cycles ago. -/
theorem dinRdData_of_tracked (h : Tracked aes256 l w) {p : Placed} (hp : w 29 = some p) :
    dinRdData l.hw i = p.1.data := by
  have hfifo := h.dinFifo
  rw [window_succ, show 1 + 28 = 29 from rfl, hp] at hfifo
  unfold dinRdData
  cases hd : l.hw.dinFifo with
  | nil =>
      rw [hd] at hfifo
      exact absurd hfifo (by simp)
  | cons x xs =>
      rw [hd] at hfifo
      simp only [Option.toList_some, List.map_cons, List.cons_append, List.nil_append,
        List.cons.injEq] at hfifo
      exact hfifo.1

/-- The store holds the beats between its write and its read. -/
theorem dinFifo_step (h : Tracked aes256 l w) (hr : i.resetN = true) (a : Option Placed) :
    (next aes256 l.hw i).dinFifo.map Prod.snd =
      (window (shiftIn a w) 1 29).map fun p => p.1.data := by
  rw [window_shiftIn, ← fifoNext_window w 0 28, show 0 + 1 + 28 = 29 from rfl]
  simp only [next, hr, Bool.not_true, Bool.false_eq_true, if_false]
  -- Both sides read under the same condition and write the same word.
  rw [h.validO, h.dinValid]
  unfold fifoNext
  rw [List.map_append, List.map_append]
  congr 1
  · cases (w 29).isSome with
    | false => exact h.dinFifo
    | true =>
        simp only [if_true]
        rw [List.map_tail, List.map_tail, h.dinFifo]
  · cases hw : w 0 with
    | none => rfl
    | some p =>
        simp only [Option.isSome_some, if_true, Option.toList_some, List.map_cons, List.map_nil,
          h.dinData p hw]

/-- The counter follows the position in the packet. -/
theorem ctr_step (h : Tracked aes256 l w) (hr : i.resetN = true) :
    (next aes256 l.hw i).aesCtr = BitVec.ofNat 5 (position 0
      (l.accepted ++ (if handshake l.hw i then [⟨i.tdata, i.tlast⟩] else []))) := by
  simp only [next, hr, Bool.not_true, Bool.false_or]
  cases hs : handshake l.hw i with
  | false =>
      simp only [Bool.false_and, Bool.false_eq_true, if_false, List.append_nil]
      exact h.ctr
  | true =>
      simp only [Bool.true_and, if_true]
      rw [position_append]
      unfold bump
      cases i.tlast with
      | true => rfl
      | false =>
          simp only [Bool.false_eq_true, if_false]
          rw [h.ctr, BitVec.ofNat_add]
          rfl

/-- The counter feeds the core with the position of the beat, modulo 32. -/
theorem counter_input (h : Tracked aes256 l w) :
    l.hw.aesCtr.setWidth 128 = BitVec.ofNat 128 (position 0 l.accepted % 32) := by
  rw [h.ctr]
  apply BitVec.eq_of_toNat_eq
  simp only [BitVec.toNat_setWidth, BitVec.toNat_ofNat, Nat.reducePow]

/-- A word read from the output FIFO is delivered, and nothing else leaves. -/
theorem deliver_split (i : Input) (s : Mm2s) :
    (if i.tready then s.aesFifo.head?.toList else []) ++
      (if i.tready && s2mmTvalid s then s.aesFifo.tail else s.aesFifo) = s.aesFifo := by
  unfold s2mmTvalid
  cases i.tready with
  | false => rfl
  | true =>
      cases s.aesFifo with
      | nil => rfl
      | cons x xs => rfl

/-- The word written to the output FIFO is the combined beat. -/
theorem aesFifo_written (h : Tracked aes256 l w) :
    (if l.hw.sfifoOD1 then some (⟨l.hw.aesOutD1, l.hw.lfifoOD1⟩ : Beat) else none) =
      (w 30).map fun p => cipherBeat aes256 p.1 p.2 := by
  rw [h.validD1]
  cases hw : w 30 with
  | none => rfl
  | some p =>
      simp only [Option.isSome_some, if_true, Option.map_some, h.outD1 p hw, h.lastD1 p hw]
      rfl

/-- What was delivered, what is in the FIFO and what is on its way add up. -/
theorem account_step (h : Tracked aes256 l w) (hr : i.resetN = true) :
    (l.delivered ++ (if i.tready then l.hw.aesFifo.head?.toList else [])) ++
      (next aes256 l.hw i).aesFifo ++
        (window (shiftIn (entering l i) w) 0 31).map (fun p => cipherBeat aes256 p.1 p.2) =
      cipher aes256 0 (l.accepted ++ (if handshake l.hw i then [⟨i.tdata, i.tlast⟩] else [])) := by
  have hold := h.account
  rw [window_succ, List.map_append, Nat.zero_add] at hold
  simp only [next, hr, Bool.not_true, Bool.false_eq_true, if_false, fifoNext]
  rw [aesFifo_written h, window_succ_last, window_shiftIn, shiftIn_zero, List.map_append]
  -- The cipher of one more beat is the old cipher with that beat at its end.
  have hnew : cipher aes256 0
      (l.accepted ++ (if handshake l.hw i then [⟨i.tdata, i.tlast⟩] else [])) =
        cipher aes256 0 l.accepted ++
          (entering l i).toList.map (fun p => cipherBeat aes256 p.1 p.2) := by
    unfold entering
    cases handshake l.hw i with
    | false => simp only [Bool.false_eq_true, if_false, List.append_nil, Option.toList_none,
        List.map_nil]
    | true =>
        simp only [if_true, Option.toList_some, List.map_cons, List.map_nil]
        exact cipher_append aes256 _ _ 0
  rw [hnew, ← hold, Option.toList_map]
  have hsplit := deliver_split i l.hw
  calc _ = l.delivered ++ ((if i.tready then l.hw.aesFifo.head?.toList else []) ++
        (if i.tready && s2mmTvalid l.hw then l.hw.aesFifo.tail else l.hw.aesFifo)) ++
          ((w 30).toList.map fun p => cipherBeat aes256 p.1 p.2) ++
            ((window w 0 30).map fun p => cipherBeat aes256 p.1 p.2) ++
              ((entering l i).toList.map fun p => cipherBeat aes256 p.1 p.2) := by
        simp only [List.append_assoc]
    _ = _ := by
        rw [hsplit]
        simp only [List.append_assoc]

/-- A beat that enters finds room for itself and for all that are on their way. -/
theorem occupied_step (h : Tracked aes256 l w) (hr : i.resetN = true) :
    (next aes256 l.hw i).aesFifo.length +
      (window (shiftIn (entering l i) w) 0 31).length ≤ 160 := by
  have hold := h.occupied
  rw [window_succ, List.length_append, Nat.zero_add] at hold
  rw [window_succ_last, window_shiftIn, shiftIn_zero, List.length_append]
  have hfifo : (next aes256 l.hw i).aesFifo.length ≤
      l.hw.aesFifo.length + (w 30).toList.length := by
    simp only [next, hr, Bool.not_true, Bool.false_eq_true, if_false, fifoNext]
    rw [aesFifo_written h, List.length_append, Option.toList_map, List.length_map]
    have htail : (if (i.tready && s2mmTvalid l.hw) = true then l.hw.aesFifo.tail
        else l.hw.aesFifo).length ≤ l.hw.aesFifo.length := by
      split
      · rw [List.length_tail]
        omega
      · exact Nat.le_refl _
    omega
  by_cases hs : handshake l.hw i = true
  · -- The FIFO has at most 128 words, and the pipeline 31 places.
    have h128 := aesFifo_le_of_handshake h hs
    have hwin := window_length_le w 0 31
    rw [window_succ, List.length_append, Nat.zero_add] at hwin
    have hone : (entering l i).toList.length ≤ 1 := Option.length_toList_le
    omega
  · have hnone : entering l i = none := if_neg hs
    rw [hnone, Option.toList_none, List.length_nil]
    omega

end Step

/-- A clock cycle keeps the invariant, with the history shifted. -/
theorem step_tracked {l l' : Log} {w : Nat → Option Placed} {i : Input}
    (h : Tracked aes256 l w) (hr : i.resetN = true) (hstep : logStep aes256 l i = some l') :
    Tracked aes256 l' (shiftIn (entering l i) w) := by
  rw [logStep, Option.some.injEq] at hstep
  subst hstep
  have hentering (p : Placed) (hp : entering l i = some p) :
      p = (⟨i.tdata, i.tlast⟩, position 0 l.accepted) := by
    unfold entering at hp
    split at hp
    · exact (Option.some.inj hp).symm
    · exact absurd hp (by simp only [reduceCtorEq, not_false_eq_true])
  refine ⟨?_, ?_, ?_, ?_, ?_, ?_, ?_, ?_, ?_, ?_, ?_, dinFifo_step h hr _, ctr_step h hr,
    account_step h hr, occupied_step h hr, ?_⟩
  -- The valid bits, from the line to the two registers behind it.
  · exact line_shift (fun o b => b = o.isSome) h.valid (entering_isSome l i).symm
  · exact h.valid 28 (by omega)
  · exact h.validO
  -- The last bits go with them.
  · refine line_shift (fun o b => ∀ p : Placed, o = some p → b = p.1.last) h.last ?_
    intro p hp
    rw [hentering p hp]
  · intro p hp
    exact h.last 28 (by omega) p hp
  · exact h.lastO
  · exact (entering_isSome l i).symm
  · intro p hp
    rw [hentering p hp]
    rfl
  -- The keystream is worked out from the counter as it was at the handshake.
  · intro j hj p hp
    cases j with
    | zero =>
        rw [hentering p hp]
        change aes256 (swapBytes (l.hw.aesCtr.setWidth 128)) = _
        rw [counter_input h]
    | succ j => exact h.pipe j (by omega) p hp
  · intro p hp
    change swapBytes (l.hw.pipe 28) = _
    rw [h.pipe 28 (by omega) p hp]
    rfl
  · intro p hp
    change l.hw.aesOut ^^^ dinRdData l.hw i = _
    rw [h.out p hp, dinRdData_of_tracked h hp, BitVec.xor_comm]
  · change (next aes256 l.hw i).aesFifo.length ≤ l.hw.aesFifo.length + 1
    simp only [next, hr, Bool.not_true, Bool.false_eq_true, if_false]
    exact fifoNext_length_le _ _ _

theorem start_tracked {s : Mm2s} (h : Quiescent s) :
    Tracked aes256 (Log.start s) fun _ => none := by
  have hno : ∀ {P : Prop} (p : Placed), (none : Option Placed) = some p → P := by
    intro P p hp
    exact absurd hp (by simp only [reduceCtorEq, not_false_eq_true])
  have hnil (lo n : Nat) : window (fun _ => (none : Option Placed)) lo n = [] :=
    window_eq_nil fun _ _ => rfl
  refine ⟨?_, h.out, h.outD1, fun _ _ p hp => hno p hp, fun p hp => hno p hp,
    fun p hp => hno p hp, h.din, fun p hp => hno p hp, fun _ _ p hp => hno p hp,
    fun p hp => hno p hp, fun p hp => hno p hp, ?_, h.ctr, ?_, ?_, ?_⟩
  · intro j _
    change s.sfifoR.getLsbD j = false
    rw [h.line]
    exact BitVec.getLsbD_zero
  · change s.dinFifo.map Prod.snd = _
    rw [h.dinFifo, hnil]
    rfl
  · change [] ++ s.aesFifo ++ _ = _
    rw [h.aesFifo, hnil]
    rfl
  · change s.aesFifo.length + _ ≤ 160
    rw [h.aesFifo, hnil]
    exact Nat.zero_le 160
  · change s.aesFifo.length ≤ _
    rw [h.aesFifo]
    exact Nat.zero_le _

/-- The state has a history. -/
def Traced (l : Log) : Prop := ∃ w, Tracked aes256 l w

theorem step_traced {l l' : Log} {i : Input} (h : Traced aes256 l) (hr : Running l i)
    (hstep : logStep aes256 l i = some l') : Traced aes256 l' := by
  rcases h with ⟨w, hw⟩
  exact ⟨_, step_tracked aes256 hw hr hstep⟩

/-- Every state that a run reaches from a reset has a history. -/
theorem run_traced {s : Mm2s} (hq : Quiescent s) {is : List Input} {l : Log}
    (h : Run (logStep aes256) Running (Log.start s) is l) : Traced aes256 l :=
  run_inv (fun _ _ _ => step_traced aes256) h ⟨_, start_tracked aes256 hq⟩

/-- An input that offers nothing and takes everything. -/
def Idle (_ : Log) (i : Input) : Prop :=
  i.resetN = true ∧ i.tvalid = false ∧ i.tready = true

/-- Nothing entered in the last `n` cycles, and once the pipeline has run empty
    the FIFO is emptied word by word. -/
structure Draining (l : Log) (w : Nat → Option Placed) (n : Nat) : Prop where
  tracked : Tracked aes256 l w
  empty : ∀ j, j < n → w j = none
  fifo : l.hw.aesFifo.length + n ≤ max 191 n

theorem step_draining {l l' : Log} {w : Nat → Option Placed} {n : Nat} {i : Input}
    (h : Draining aes256 l w n) (hi : Idle l i) (hstep : logStep aes256 l i = some l') :
    Draining aes256 l' (shiftIn none w) (n + 1) ∧ l'.accepted = l.accepted := by
  rcases hi with ⟨hr, hv, ht⟩
  have hhs : handshake l.hw i = false := by
    unfold handshake
    rw [hv, Bool.false_and]
  have hent : entering l i = none := by
    unfold entering
    rw [hhs]
    rfl
  have htracked := step_tracked aes256 h.tracked hr hstep
  rw [hent] at htracked
  rw [logStep, Option.some.injEq] at hstep
  subst hstep
  refine ⟨⟨htracked, ?_, ?_⟩, ?_⟩
  · intro j hj
    cases j with
    | zero => rfl
    | succ j => exact h.empty j (by omega)
  · by_cases hn : n < 31
    · -- While beats are still on their way the general bound is enough.
      have hocc := htracked.occupied
      omega
    · -- After that no word is written and one is read.
      have hfifo := h.fifo
      have hdry : l.hw.sfifoOD1 = false := by
        rw [h.tracked.validD1, h.empty 30 (by omega)]
        rfl
      have hlen : (next aes256 l.hw i).aesFifo.length = l.hw.aesFifo.length - 1 := by
        simp only [next, hr, ht, hdry, Bool.not_true, Bool.false_eq_true, if_false, fifoNext,
          Bool.true_and, Option.toList_none, List.append_nil]
        unfold s2mmTvalid
        cases l.hw.aesFifo with
        | nil => rfl
        | cons x xs => rfl
      change (next aes256 l.hw i).aesFifo.length + (n + 1) ≤ max 191 (n + 1)
      omega
  · change l.accepted ++ (if handshake l.hw i then _ else []) = l.accepted
    rw [hhs]
    exact List.append_nil _

/-- A run of idle cycles drains the module. -/
theorem run_draining {l l' : Log} {is : List Input}
    (hrun : Run (logStep aes256) Idle l is l') : ∀ (n : Nat) (w : Nat → Option Placed),
    Draining aes256 l w n →
    (∃ w', Draining aes256 l' w' (n + is.length)) ∧ l'.accepted = l.accepted := by
  intro n w h
  refine run_inv_count (fun n u => (∃ w, Draining aes256 u w n) ∧ u.accepted = l.accepted) ?_ hrun n
    ⟨⟨w, h⟩, rfl⟩
  rintro n u i u' ⟨⟨w, hd⟩, hacc⟩ hi hstep
  rcases step_draining aes256 hd hi hstep with ⟨hd', hacc'⟩
  exact ⟨⟨_, hd'⟩, hacc'.trans hacc⟩

/-- What was accepted comes out within 191 cycles once nothing is offered and
    the output is read. -/
theorem delivered_of_idle {l l' : Log} {is : List Input} (h : Traced aes256 l)
    (hrun : Run (logStep aes256) Idle l is l') (hlong : 191 ≤ is.length) :
    l'.delivered = cipher aes256 0 l.accepted := by
  rcases h with ⟨w, hw⟩
  have hstart : Draining aes256 l w 0 := by
    refine ⟨hw, fun j hj => absurd hj (Nat.not_lt_zero j), ?_⟩
    have hocc := hw.occupied
    omega
  rcases run_draining aes256 hrun 0 w hstart with ⟨⟨w', hd⟩, hacc⟩
  have hfifo := hd.fifo
  have hnil : l'.hw.aesFifo = [] := by
    rw [← List.length_eq_zero_iff]
    omega
  have hwin : window w' 0 31 = [] := window_eq_nil fun j hj => hd.empty _ (by omega)
  have hacct := hd.tracked.account
  rw [hnil, hwin, hacc, List.append_nil, List.map_nil, List.append_nil] at hacct
  exact hacct

/-- What the module promises. -/
structure Streams (l : Log) : Prop where
  /-- What has been delivered is a prefix of the cipher of what was accepted, and
      the rest is in the output FIFO or on its way there. -/
  account : ∃ onTheWay : List Beat, onTheWay.length ≤ 31 ∧
    l.delivered ++ l.hw.aesFifo ++ onTheWay = cipher aes256 0 l.accepted
  /-- Nothing of it is lost: it comes out once the output is read. -/
  complete : ∀ is l', Run (logStep aes256) Idle l is l' → 191 ≤ is.length →
    l'.delivered = cipher aes256 0 l.accepted
  dinRoom : l.hw.aesDinValid = true → l.hw.dinFifo.length < 256
  dinFilled : l.hw.sfifoO = true → l.hw.dinFifo ≠ []
  aesRoom : l.hw.sfifoOD1 = true → l.hw.aesFifo.length < 256

theorem streams_of_traced {l : Log} (h : Traced aes256 l) : Streams aes256 l := by
  have hcomplete : ∀ is l', Run (logStep aes256) Idle l is l' → 191 ≤ is.length →
      l'.delivered = cipher aes256 0 l.accepted :=
    fun _ _ hrun hlong => delivered_of_idle aes256 h hrun hlong
  rcases h with ⟨w, hw⟩
  have hlen : l.hw.dinFifo.length = (window w 1 29).length := by
    have := congrArg List.length hw.dinFifo
    rw [List.length_map, List.length_map] at this
    exact this
  refine ⟨⟨_, ?_, hw.account⟩, hcomplete, ?_, ?_, ?_⟩
  · rw [List.length_map]
    exact window_length_le w 0 31
  · intro _
    have hle := window_length_le w 1 29
    omega
  · intro ho hnil
    rw [hw.validO, Option.isSome_iff_exists] at ho
    rcases ho with ⟨p, hp⟩
    rw [hnil, window_succ, show 1 + 28 = 29 from rfl, hp] at hlen
    exact absurd hlen (by simp)
  · intro _
    have hocc := hw.occupied
    omega

/-- From a reset on, for every input stream and every way of reading the output,
    the module delivers the cipher of what it accepts, and its FIFOs are safe. -/
theorem run_streams {s : Mm2s} (hq : Quiescent s) {is : List Input} {l : Log}
    (h : Run (logStep aes256) Running (Log.start s) is l) :
    l.delivered <+: cipher aes256 0 l.accepted ∧ Streams aes256 l := by
  have hst := streams_of_traced aes256 (run_traced aes256 hq h)
  rcases hst.account with ⟨rest, -, hacct⟩
  refine ⟨⟨l.hw.aesFifo ++ rest, ?_⟩, hst⟩
  rw [← hacct, List.append_assoc]

/-- The AES core as far as the first beat of a packet needs it: the block for the
    counter zero under the key that is all zeros. -/
def firstBlock : BitVec 128 → BitVec 128 := fun _ => 0xDC95C078A2408989AD48A21492842087

/-- One beat, and then 32 cycles in which the output is read. -/
def oneBeat : List Input :=
  ⟨true, true, true, 0x11, false, false, true, 0⟩ ::
    List.replicate 32 ⟨true, false, false, 0, true, false, false, 0⟩

theorem run_streams_one_beat :
    ∃ l, Run (logStep firstBlock) Running (Log.start powerUp) oneBeat l ∧
      l.accepted = [⟨0x11, true⟩] ∧ l.delivered = [⟨0x8720849214A248AD898940A278C095CD, true⟩] ∧
      l.delivered <+: cipher firstBlock 0 l.accepted ∧ Streams firstBlock l := by
  have hrun : Run (logStep firstBlock) Running (Log.start powerUp) oneBeat
      (oneBeat.foldl (logNext firstBlock) (Log.start powerUp)) := by
    refine run_foldl (fun _ _ => rfl) _ _ ?_
    intro i hi u
    rcases List.mem_cons.mp hi with rfl | hi
    · rfl
    · rw [List.eq_of_mem_replicate hi]
      rfl
  exact ⟨_, hrun, by decide +kernel, by decide +kernel,
    run_streams firstBlock powerUp_quiescent hrun⟩

end Aes

end Ml605
