import Ml605.Eth.CsumJob
import Ml605.Lib.Trace

/-!
# The Checksum of Every Frame

The inputs of `eth_csum` over all time, cut into frames. A slot says which
frame is written in which cycles, with pauses between its beats as the input
has them; slots are at least three cycles apart and nothing is written outside
them. The registers at the start are arbitrary where there is no reset.

In the cycle after the last beat `CsBegin` can matter once more, if the beat
that holds it is the last one: it is only then compared with the byte counter.

## Main definitions

* `Slot`, `Placed`, `Feed`: Frames in time, and an input made of them.
* `Held`: `CsBegin` kept for one cycle more where that matters.

## Theorems

* `sof_of_first`: A slot finds the start-of-frame flag set.
* `track_at`: Inside a slot the registers follow its beats.
* `frames_summed`: One result for each frame, in the right cycle, and right.
* `begin_dropped_early`: A start in the last beat is missed if `CsBegin` changes
  right after it.
-/

namespace Ml605

namespace Eth

namespace Csum

open Lib

/-- The beats written in the `k` cycles from cycle `a` on. -/
def beatsFrom (x : Nat → Input) (a : Nat) : Nat → List Beat
  | 0 => []
  | k + 1 => beatsFrom x a k ++ arriving (x (a + k))

/-- A frame in time: its first beat in cycle `first`, its last `span` cycles
    later. -/
structure Slot where
  frame : Frame
  csBegin : BitVec 16
  csInit : BitVec 16
  first : Nat
  span : Nat

namespace Slot

/-- The cycle of the last beat. -/
def last (s : Slot) : Nat := s.first + s.span

/-- The checksum of the frame. -/
def value (s : Slot) : BitVec 16 := checksum s.csInit (s.frame.bytes.drop s.csBegin.toNat)

end Slot

/-- The slot is in the input: the beats are those of its frame, and `CsBegin`
    and `CsInit` are stable from two cycles before it to its end. -/
structure Placed (x : Nat → Input) (s : Slot) : Prop where
  early : 2 ≤ s.first
  firstBeat : (x s.first).dataFifoWren = true
  lastBeat : (x s.last).dataFifoWren = true
  beats : beatsFrom x s.first (s.span + 1) = s.frame.beats
  short : s.frame.length < 65536
  even : s.csBegin.toNat % 2 = 0
  fits : s.csBegin.toNat + 8 ≤ s.frame.length
  stable : ∀ n, s.first ≤ n + 2 → n ≤ s.last →
    (x n).csBegin = s.csBegin ∧ (x n).csInit = s.csInit

/-- An input made of frames that are at least three cycles apart. -/
structure Feed (x : Nat → Input) (S : Slot → Prop) : Prop where
  placed : ∀ s, S s → Placed x s
  covered : ∀ n, (x n).dataFifoWren = true → ∃ s, S s ∧ s.first ≤ n ∧ n ≤ s.last
  apart : ∀ s s', S s → S s' → s ≠ s' → s.last + 3 ≤ s'.first ∨ s'.last + 3 ≤ s.first

/-- If the beat that holds `CsBegin` is the last one, `CsBegin` is kept for one
    cycle more. -/
def Held (x : Nat → Input) (s : Slot) : Prop :=
  s.csBegin.toNat / 8 = s.frame.body.length → (x (s.last + 1)).csBegin = s.csBegin

section Slots

variable {x : Nat → Input} {s : Slot}

theorem beatsFrom_add (x : Nat → Input) (a k m : Nat) :
    beatsFrom x a (k + m) = beatsFrom x a k ++ beatsFrom x (a + k) m := by
  induction m with
  | zero => exact (List.append_nil _).symm
  | succ m ih =>
      rw [← Nat.add_assoc, beatsFrom, ih, beatsFrom, List.append_assoc, Nat.add_assoc]

theorem beatsFrom_begins (x : Nat → Input) (a : Nat) {k m : Nat} (h : k ≤ m) :
    beatsFrom x a k <+: beatsFrom x a m := by
  rw [show m = k + (m - k) by omega, beatsFrom_add]
  exact List.prefix_append _ _

/-- The last beat has the last flag. -/
theorem Placed.last_flag (h : Placed x s) : (x s.last).dataFifoWdata.last = true := by
  have hbeats := h.beats
  rw [beatsFrom, show s.first + s.span = s.last from rfl, arriving_of_wren h.lastBeat] at hbeats
  rcases s.frame.beats_split hbeats.symm with ⟨_, hx, _⟩ | ⟨hne, _⟩
  · rw [hx]
    rfl
  · exact absurd rfl hne

/-- The other beats do not. -/
theorem Placed.not_last_flag (h : Placed x s) {n : Nat} (hlo : s.first ≤ n) (hhi : n < s.last)
    (hw : (x n).dataFifoWren = true) : (x n).dataFifoWdata.last = false := by
  have hbeats := h.beats
  have hin : n < s.first + s.span := hhi
  -- Cut the beats at cycle `n`; the last beat is in the second part.
  rw [show s.span + 1 = (n - s.first) + 1 + (s.first + s.span - n) by omega, beatsFrom_add,
    beatsFrom, show s.first + (n - s.first) = n by omega, arriving_of_wren hw,
    List.append_assoc, List.singleton_append] at hbeats
  rcases s.frame.beats_split hbeats.symm with ⟨hnil, _⟩ | ⟨_, _, hlast⟩
  · rw [show s.first + s.span - n = s.first + s.span - n - 1 + 1 by omega, beatsFrom,
      show s.first + (n - s.first + 1) + (s.first + s.span - n - 1) = s.last by
        unfold Slot.last; omega, arriving_of_wren h.lastBeat] at hnil
    exact absurd (List.append_eq_nil_iff.mp hnil).2 (List.cons_ne_nil _ _)
  · exact hlast

/-- The frame of a slot with its checksum. -/
def Placed.job (h : Placed x s) : Job :=
  { frame := s.frame
    csBegin := s.csBegin
    csInit := s.csInit
    short := h.short
    even := h.even
    full := by have hfits := h.fits; omega }

end Slots

section Feeds

variable {x : Nat → Input} {S : Slot → Prop} {c0 : Regs} {s : Slot}

/-- A beat with the last flag ends a slot, and every slot ends with one. -/
theorem end_iff (h : Feed x S) (n : Nat) :
    ((x n).dataFifoWren && (x n).dataFifoWdata.last) = true ↔ ∃ s, S s ∧ n = s.last := by
  constructor
  · intro hend
    rw [Bool.and_eq_true] at hend
    rcases h.covered n hend.1 with ⟨s, hs, hlo, hhi⟩
    refine ⟨s, hs, ?_⟩
    by_contra hne
    have hflag := (h.placed s hs).not_last_flag hlo (by omega) hend.1
    exact absurd hend.2 (by rw [hflag]; exact Bool.false_ne_true)
  · rintro ⟨s, hs, rfl⟩
    rw [(h.placed s hs).lastBeat, (h.placed s hs).last_flag]
    rfl

/-- Two slots that are closer than three cycles are one. -/
theorem slot_unique (h : Feed x S) {s s' : Slot} (hs : S s) (hs' : S s')
    (h1 : s.first < s'.last + 3) (h2 : s'.first < s.last + 3) : s = s' := by
  by_contra hne
  rcases h.apart s s' hs hs' hne with hlt | hlt <;> omega

theorem first_le_last (s : Slot) : s.first ≤ s.last := Nat.le_add_right _ _

/-- A marker that is registered once more comes a cycle later. -/
theorem later_iff (S : Slot → Prop) (n k m : Nat) :
    (∃ s, S s ∧ n = s.last + k) ↔ ∃ s, S s ∧ n + m = s.last + (k + m) := by
  constructor
  · rintro ⟨s, hs, rfl⟩
    exact ⟨s, hs, by omega⟩
  · rintro ⟨s, hs, hn⟩
    exact ⟨s, hs, by omega⟩

/-- So soon after reset no slot can have ended. -/
theorem none_yet {n k : Nat} (h : n < k) : ¬ ∃ s, S s ∧ n = s.last + k := by
  rintro ⟨s, _, hn⟩
  omega

/-- The first end marker. -/
theorem endHitReg_iff (h0 : AfterReset c0) (h : Feed x S) (n : Nat) :
    (trace next c0 x n).endHitReg = true ↔ ∃ s, S s ∧ n = s.last + 2 := by
  match n with
  | 0 => exact iff_of_false (ne_true_of_eq_false h0.endHitReg) (none_yet (by omega))
  | 1 =>
      have hnone : (trace next c0 x 1).endHitReg = false := by
        simp only [trace, next, h0.tvalidD1, Bool.false_and]
      exact iff_of_false (ne_true_of_eq_false hnone) (none_yet (by omega))
  | n + 2 => exact (end_iff h n).trans (later_iff S n 0 2)

/-- The second end marker is the first, a cycle later. -/
theorem endHitD1_iff (h0 : AfterReset c0) (h : Feed x S) (n : Nat) :
    (trace next c0 x n).endHitD1 = true ↔ ∃ s, S s ∧ n = s.last + 3 := by
  match n with
  | 0 => exact iff_of_false (ne_true_of_eq_false h0.endHitD1) (none_yet (by omega))
  | n + 1 => exact (endHitReg_iff h0 h n).trans (later_iff S n 2 1)

theorem sumValid_iff (h0 : AfterReset c0) (h : Feed x S) (n : Nat) :
    (trace next c0 x n).sumValid = true ↔ ∃ s, S s ∧ n = s.last + 4 := by
  match n with
  | 0 => exact iff_of_false (ne_true_of_eq_false h0.sumValid) (none_yet (by omega))
  | n + 1 => exact (endHitD1_iff h0 h n).trans (later_iff S n 3 1)

/-- The start-of-frame flag is off exactly inside a slot. -/
theorem sof_iff (h0 : AfterReset c0) (h : Feed x S) (n : Nat) :
    (trace next c0 x n).sof = false ↔ ∃ s, S s ∧ s.first < n ∧ n ≤ s.last := by
  induction n with
  | zero =>
      refine ⟨fun hf => absurd (h0.sof.symm.trans hf) (Ne.symm Bool.false_ne_true), ?_⟩
      rintro ⟨s, _, hlt, _⟩
      omega
  | succ n ih =>
      have hstep : (trace next c0 x (n + 1)).sof =
          if (x n).dataFifoWren && (x n).dataFifoWdata.last then true
          else if (x n).dataFifoWren then false else (trace next c0 x n).sof := rfl
      rw [hstep]
      by_cases hend : ((x n).dataFifoWren && (x n).dataFifoWdata.last) = true
      · -- The end of one slot is not inside another.
        rw [if_pos hend]
        refine ⟨fun hf => absurd hf (Ne.symm Bool.false_ne_true), ?_⟩
        rintro ⟨s, hs, hlo, hhi⟩
        rcases (end_iff h n).mp hend with ⟨s', hs', rfl⟩
        have hle := first_le_last s'
        rcases slot_unique h hs hs' (by omega) (by omega) with rfl
        omega
      · rw [if_neg hend]
        cases hw : (x n).dataFifoWren with
        | true =>
            -- A beat that is not the last leaves the slot open.
            refine ⟨fun _ => ?_, fun _ => rfl⟩
            rcases h.covered n hw with ⟨s, hs, hlo, hhi⟩
            have hne : n ≠ s.last := fun hn => hend ((end_iff h n).mpr ⟨s, hs, hn⟩)
            exact ⟨s, hs, by omega, by omega⟩
        | false =>
            rw [if_neg Bool.false_ne_true, ih]
            -- A pause neither starts nor ends a slot.
            constructor
            · rintro ⟨s, hs, hlo, hhi⟩
              have hne : n ≠ s.last := by
                rintro rfl
                exact absurd ((h.placed s hs).lastBeat.symm.trans hw) (Ne.symm Bool.false_ne_true)
              exact ⟨s, hs, by omega, by omega⟩
            · rintro ⟨s, hs, hlo, hhi⟩
              have hne : n ≠ s.first := by
                rintro rfl
                exact absurd ((h.placed s hs).firstBeat.symm.trans hw) (Ne.symm Bool.false_ne_true)
              exact ⟨s, hs, by omega, by omega⟩

/-- A slot finds the start-of-frame flag set. -/
theorem sof_of_first (h0 : AfterReset c0) (h : Feed x S) (hs : S s) :
    (trace next c0 x s.first).sof = true := by
  by_contra hf
  rw [Bool.not_eq_true] at hf
  rcases (sof_iff h0 h s.first).mp hf with ⟨s', hs', hlo, hhi⟩
  have hle := first_le_last s
  rcases slot_unique h hs hs' (by omega) (by omega) with rfl
  omega

/-- After a slot there are two idle cycles. -/
theorem idle_after (h : Feed x S) (hs : S s) {n : Nat} (hlo : s.last < n) (hhi : n < s.last + 3) :
    (x n).dataFifoWren = false := by
  by_contra hw
  rw [Bool.not_eq_false] at hw
  rcases h.covered n hw with ⟨s', hs', hlo', hhi'⟩
  have hle := first_le_last s
  rcases slot_unique h hs hs' (by omega) (by omega) with rfl
  omega

/-- The end marker of the slot before is gone when a slot begins. -/
theorem endHitReg_inside (h0 : AfterReset c0) (h : Feed x S) (hs : S s) {n : Nat}
    (hlo : s.first < n) (hhi : n ≤ s.last + 1) : (trace next c0 x n).endHitReg = false := by
  by_contra hr
  rw [Bool.not_eq_false] at hr
  rcases (endHitReg_iff h0 h n).mp hr with ⟨s', hs', rfl⟩
  have hle := first_le_last s'
  rcases slot_unique h hs hs' (by omega) (by omega) with rfl
  omega

/-- The beats of the first cycles of a slot are a beginning of its frame. -/
theorem Placed.begins (hp : Placed x s) {m : Nat} (hm : m ≤ s.span + 1) :
    beatsFrom x s.first m <+: s.frame.beats := by
  rw [← hp.beats]
  exact beatsFrom_begins x s.first hm

/-- Inside a slot the registers follow its beats. -/
theorem track_at (h0 : AfterReset c0) (h : Feed x S) (hs : S s) {k : Nat} (hk : k ≤ s.span) :
    Track s.csBegin s.csInit (beatsFrom x s.first (k + 1)) (beatsFrom x s.first k)
      (beatsFrom x s.first (k - 1)) (trace next c0 x (s.first + k + 1)) := by
  have hp := h.placed s hs
  -- The induction is on the cycle; whether it brings a beat is up to the input.
  induction k with
  | zero =>
      have hearly := hp.early
      have hfirst : beatsFrom x s.first 1 = [(x s.first).dataFifoWdata] :=
        arriving_of_wren hp.firstBeat
      rw [hfirst]
      have hstable := hp.stable s.first (by omega) (first_le_last s)
      -- `CsBegin` a cycle before has prepared the mask.
      have hmask : (trace next c0 x s.first).csumMaskBeginBcnt = beginBcnt s.csBegin := by
        rw [show s.first = s.first - 1 + 1 by omega]
        exact maskBcnt_next (hp.stable (s.first - 1) (by omega) (by unfold Slot.last; omega)).1
      exact track_start (sof_of_first h0 h hs) hp.firstBeat hstable.1 hstable.2 hmask
  | succ k ih =>
      have hlast : s.last = s.first + s.span := rfl
      have hsof : (trace next c0 x (s.first + (k + 1))).sof = false :=
        (sof_iff h0 h _).mpr ⟨s, hs, by omega, by omega⟩
      exact track_step (ih (by omega)) (by rw [hsof, Bool.and_false])
        (endHitReg_inside h0 h hs (by omega) (by omega))
        (Or.inl (hp.stable _ (by omega) (by omega)).1)

/-- Two cycles after the last beat all beats have passed a cycle ago. -/
theorem track_after (h0 : AfterReset c0) (h : Feed x S) (hs : S s) (hheld : Held x s) :
    Track s.csBegin s.csInit s.frame.beats s.frame.beats (beatsFrom x s.first s.span)
      (trace next c0 x (s.last + 2)) := by
  have hp := h.placed s hs
  have htrack := track_at h0 h hs (Nat.le_refl s.span)
  have hidle := arriving_of_idle (idle_after h hs (n := s.last + 1) (by omega) (by omega))
  have hlen : (beatsFrom x s.first s.span).length = s.frame.body.length := by
    have hcount := congrArg List.length hp.beats
    rw [beatsFrom, List.length_append, show s.first + s.span = s.last from rfl,
      arriving_of_wren hp.lastBeat, List.length_singleton, Frame.beats_length] at hcount
    omega
  -- Only if `CsBegin` is in the last beat is it still looked at.
  have hbegin : (x (s.last + 1)).csBegin = s.csBegin ∨
      (acc s.csBegin s.csInit (beatsFrom x s.first s.span)).hit = true := by
    have hacc := (acc_job (j := hp.job) (hp.begins (Nat.le_succ _))).2.1
    rcases Nat.lt_or_eq_of_le hp.job.start_le with hlt | heq
    · exact Or.inr (hacc.trans (decide_eq_true (by rw [hlen]; exact hlt)))
    · exact Or.inl (hheld heq)
  have hmid : ((x (s.last + 1)).dataFifoWren && (trace next c0 x (s.last + 1)).sof) = false := by
    rw [idle_after h hs (by omega) (by omega), Bool.false_and]
  have hnext := track_step htrack hmid
    (endHitReg_inside h0 h hs (Nat.lt_succ_of_le (first_le_last s)) (Nat.le_refl _)) hbegin
  rw [show s.first + s.span = s.last from rfl, hidle, List.append_nil, hp.beats] at hnext
  exact hnext

/-- One more cycle completes the sum. -/
theorem sum_after (h0 : AfterReset c0) (h : Feed x S) (hs : S s) (hheld : Held x s) :
    sumInt (trace next c0 x (s.last + 3)).sum = s.value ∧
      NoOverflow (trace next c0 x (s.last + 3)) := by
  have hp := h.placed s hs
  have htrack := track_after h0 h hs hheld
  have hmid : ((x (s.last + 2)).dataFifoWren && (trace next c0 x (s.last + 2)).sof) = false := by
    rw [idle_after h hs (by omega) (by omega), Bool.false_and]
  refine ⟨(track_last htrack hmid).trans (packetSum_job hp.job), noOverflow_of_lt ?_⟩
  rw [show s.last + 3 = s.last + 2 + 1 from rfl, trace, sum_next htrack hmid]
  exact acc_sum_lt (j := hp.job) List.prefix_rfl

/-- `eth_csum` gives one result for each frame, four cycles after its last beat
    and at no other time. The result is the checksum of the bytes from `CsBegin`
    on, and no addition on the way to it overflows. -/
theorem frames_summed (x : Nat → Input) (S : Slot → Prop) (c0 : Regs) (h0 : AfterReset c0)
    (hfeed : Feed x S) (hheld : ∀ s, S s → Held x s) :
    (∀ n, (trace next c0 x n).sumValid = true ↔ ∃! s, S s ∧ n = s.last + 4) ∧
      ∀ s, S s → txSum (trace next c0 x (s.last + 4)) = txSumOf s.value ∧
        rxSum (trace next c0 x (s.last + 4)) = rxSumOf s.value ∧
        ∀ n, s.first < n → n ≤ s.last + 3 → NoOverflow (trace next c0 x n) := by
  refine ⟨fun n => (sumValid_iff h0 hfeed n).trans ⟨?_, ExistsUnique.exists⟩, fun s hs => ?_⟩
  · rintro ⟨s, hs, rfl⟩
    refine ⟨s, ⟨hs, rfl⟩, ?_⟩
    rintro s' ⟨hs', hn⟩
    have hle := first_le_last s
    have hle' := first_le_last s'
    exact slot_unique hfeed hs' hs (by omega) (by omega)
  · have hp := hfeed.placed s hs
    have hdone := sum_after h0 hfeed hs (hheld s hs)
    have hend : (trace next c0 x (s.last + 3)).endHitD1 = true :=
      (endHitD1_iff h0 hfeed _).mpr ⟨s, hs, rfl⟩
    refine ⟨?_, ?_, fun n hlo hhi => ?_⟩
    · rw [show s.last + 4 = s.last + 3 + 1 from rfl, trace]
      simp only [txSum, next, hend, if_true, hdone.1, txSumOf]
      split_ifs <;> rfl
    · rw [show s.last + 4 = s.last + 3 + 1 from rfl, trace]
      simp only [rxSum, next, hend, if_true, hdone.1, rxSumOf]
      split_ifs <;> rfl
    · -- Inside the slot, in the cycle after it, or when the sum is complete.
      have hlast : s.last = s.first + s.span := rfl
      rcases Nat.lt_trichotomy n (s.last + 2) with hin | rfl | hout
      · have htrack := track_at h0 hfeed hs (k := n - s.first - 1) (by omega)
        rw [show s.first + (n - s.first - 1) + 1 = n by omega] at htrack
        have hlt := acc_sum_lt (j := hp.job) (hp.begins (m := n - s.first - 1 - 1) (by omega))
        exact noOverflow_of_lt (by rw [htrack.sum]; exact hlt)
      · have htrack := track_after h0 hfeed hs (hheld s hs)
        have hlt := acc_sum_lt (j := hp.job) (hp.begins (Nat.le_succ s.span))
        exact noOverflow_of_lt (by rw [htrack.sum]; exact hlt)
      · rw [show n = s.last + 3 by omega]
        exact hdone.2

end Feeds

/-- Registers after reset. -/
def resetRegs : Regs :=
  { sof := true, sum := 0, curSum := 0, curSumEn := false, sumValid := false, txSumLe := 0
    rxSumLe := 0, tdataD1 := 0, tkeepD1 := 0, tvalidD1 := false, tlastD1 := false, bcnt := 0
    beginHitReg := false, endHitReg := false, endHitD1 := false, csumMaskBeginBcnt := 0
    csumMaskBeginReg := 0 }

theorem resetRegs_afterReset : AfterReset resetRegs := ⟨rfl, rfl, rfl, rfl, rfl⟩

section TwoFrames

/-- A frame of 21 bytes in cycles two to five, with a pause in cycle three, summed
    from byte ten on. -/
def longSlot : Slot :=
  { frame := ⟨[0x0706050403020100, 0x0F0E0D0C0B0A0908], 0xFFFFFF1413121110, 5, by decide, by decide⟩
    csBegin := 10
    csInit := 0xFFF0
    first := 2
    span := 3 }

/-- A frame of 16 bytes right after it, summed from its last beat on. -/
def shortSlot : Slot :=
  { frame := .whole [0x1122334455667788] 0x99AABBCCDDEEFF00
    csBegin := 8
    csInit := 0
    first := 9
    span := 1 }

/-- The two frames as they come in. `CsBegin` and `CsInit` change in between. -/
def twoFrames (n : Nat) : Input :=
  { dataFifoWren := n == 2 || n == 4 || n == 5 || n == 9 || n == 10
    dataFifoWdata :=
      if n = 2 then fullBeat 0x0706050403020100
      else if n = 4 then fullBeat 0x0F0E0D0C0B0A0908
      else if n = 5 then longSlot.frame.tailBeat
      else if n = 9 then fullBeat 0x1122334455667788
      else shortSlot.frame.tailBeat
    csBegin := if n ≤ 6 then 10 else 8
    csInit := if n ≤ 6 then 0xFFF0 else 0 }

theorem twoFrames_feed : Feed twoFrames fun s => s = longSlot ∨ s = shortSlot := by
  refine ⟨?_, ?_, ?_⟩
  · rintro s (rfl | rfl)
    · refine ⟨by decide, rfl, rfl, by decide, by decide, by decide, by decide, ?_⟩
      intro n _ hn
      have hle : n ≤ 6 := le_trans hn (by decide)
      exact ⟨if_pos hle, if_pos hle⟩
    · refine ⟨by decide, rfl, rfl, by decide, by decide, by decide, by decide, ?_⟩
      intro n hn _
      have hlt : ¬ n ≤ 6 := by
        change 9 ≤ n + 2 at hn
        omega
      exact ⟨if_neg hlt, if_neg hlt⟩
  · intro n hw
    simp only [twoFrames, Bool.or_eq_true, beq_iff_eq] at hw
    by_cases hle : n ≤ 5
    · exact ⟨longSlot, Or.inl rfl, by change 2 ≤ n; omega, hle⟩
    · exact ⟨shortSlot, Or.inr rfl, by change 9 ≤ n; omega, by change n ≤ 10; omega⟩
  · rintro s s' (rfl | rfl) (rfl | rfl) hne
    · exact absurd rfl hne
    · exact Or.inl (by decide)
    · exact Or.inr (by decide)
    · exact absurd rfl hne

theorem twoFrames_held : ∀ s, s = longSlot ∨ s = shortSlot → Held twoFrames s := by
  rintro s (rfl | rfl)
  · exact fun hlast => absurd hlast (by decide)
  · exact fun _ => rfl

/-- Each of the two frames has its result in its cycle, and there is none between. -/
theorem twoFrames_summed :
    (trace next resetRegs twoFrames 9).sumValid = true ∧
      rxSum (trace next resetRegs twoFrames 9) = 0x3C5A ∧
      (trace next resetRegs twoFrames 10).sumValid = false ∧
      (trace next resetRegs twoFrames 14).sumValid = true ∧
      txSum (trace next resetRegs twoFrames 14) = 0xCD98 := by
  have hall := frames_summed twoFrames (fun s => s = longSlot ∨ s = shortSlot) resetRegs
    resetRegs_afterReset twoFrames_feed twoFrames_held
  have hrx : rxSumOf longSlot.value = 0x3C5A := by decide
  have htx : txSumOf shortSlot.value = 0xCD98 := by decide
  refine ⟨(hall.1 9).mpr ⟨longSlot, ⟨Or.inl rfl, rfl⟩, ?_⟩,
    (hall.2 longSlot (Or.inl rfl)).2.1.trans hrx, ?_,
    (hall.1 14).mpr ⟨shortSlot, ⟨Or.inr rfl, rfl⟩, ?_⟩,
    (hall.2 shortSlot (Or.inr rfl)).1.trans htx⟩
  · rintro s ⟨rfl | rfl, hn⟩
    · rfl
    · exact absurd hn (by decide)
  · by_contra hvalid
    rcases ((hall.1 10).mp (Bool.eq_true_of_not_eq_false hvalid)).exists with ⟨s, rfl | rfl, hn⟩
    · exact absurd hn (by decide)
    · exact absurd hn (by decide)
  · rintro s ⟨rfl | rfl, hn⟩
    · exact absurd hn (by decide)
    · rfl

end TwoFrames

section OneBeat

/-- One frame of one full beat in cycle two, summed from its first byte on.
    `CsBegin` is `late` from the cycle after it. -/
def oneBeat (late : BitVec 16) (n : Nat) : Input :=
  { dataFifoWren := n == 2
    dataFifoWdata := ⟨0x01, keepOf 8, true⟩
    csBegin := if n ≤ 2 then 0 else late
    csInit := 0 }

/-- The frame of that input. -/
def oneBeatSlot : Slot :=
  { frame := .whole [] 0x01
    csBegin := 0
    csInit := 0
    first := 2
    span := 0 }

theorem oneBeat_feed (late : BitVec 16) : Feed (oneBeat late) (· = oneBeatSlot) := by
  refine ⟨?_, ?_, ?_⟩
  · rintro s rfl
    refine ⟨Nat.le_refl 2, rfl, rfl, rfl, by decide, rfl, by decide, ?_⟩
    intro n _ hn
    have hle : n ≤ 2 := hn
    refine ⟨?_, rfl⟩
    simp only [oneBeat, if_pos hle]
    rfl
  · intro n hw
    have hn : n = 2 := beq_iff_eq.mp hw
    exact ⟨oneBeatSlot, rfl, by rw [hn]; exact Nat.le_refl 2, by rw [hn]; exact Nat.le_refl 2⟩
  · rintro s s' rfl rfl hne
    exact absurd rfl hne

/-- With `CsBegin` changed right after the last beat, the frame is not summed at
    all, though `CsBegin` was stable up to the last beat. -/
theorem begin_dropped_early : ∃ (x : Nat → Input) (S : Slot → Prop) (s : Slot),
    Feed x S ∧ S s ∧ AfterReset resetRegs ∧ s.value = 0x0100 ∧
      rxSum (trace next resetRegs x (s.last + 4)) = 0xFFFF ∧
        rxSum (trace next resetRegs x (s.last + 4)) ≠ rxSumOf s.value ∧
          txSum (trace next resetRegs x (s.last + 4)) ≠ txSumOf s.value := by
  refine ⟨oneBeat 8, (· = oneBeatSlot), oneBeatSlot, oneBeat_feed 8, rfl, resetRegs_afterReset, ?_⟩
  exact ⟨by decide, by decide, by decide, by decide⟩

end OneBeat

end Csum

end Eth

end Ml605
