import Ml605.Eth.OfmIn

/-!
# Every Transmit Packet gets its Entry

The state machine and the checksum pipeline over a whole run. Two things move
at once: the packet that is being taken, and the one before it, whose sum is
still on its way to the control FIFO. They do not meet. The sum takes six cycles
from the last beat to the write port, and the next packet's first beat is taken
nine cycles after it at the earliest.

## Main definitions

* `Inv`: The invariant, for the packets that have been taken.
* `Faithful`: What the two FIFOs have been given.

## Theorems

* `inv_pass`, `inv_end`: A cycle inside a packet, and its last one.
* `faithful_of_inv`: What the invariant says about the FIFOs.
* `age_le`: Time passes one cycle at a time.
* `offload_faithful`: Every packet gets one entry, its own, after its beats.
-/

namespace Ml605

namespace Eth

namespace OfmIn

open Lib Ofm

/-- The packets `done` have been taken. All have their entries, except that the
    last one may still be on its way. -/
structure Inv (ps : List Packet) (s : Offload) (done : List Packet) : Prop where
  stage : Stage ps s done
  marks : ∀ k, 1 ≤ k → k ≤ 6 → mark s k = decide (s.age = k)
  written : s.written = s.txd
  pending : s.age ≤ 6 → ∃ before q, done = before ++ [q] ∧ Ended q s s.age ∧
    s.ctrlFed = before.map Packet.entry
  settled : 7 ≤ s.age → s.ctrlFed = done.map Packet.entry

/-- The data FIFO gets the beats that are taken, unchanged and in order. The
    control FIFO gets the entries of the packets in order, one for each packet
    that has ended, at the latest in the sixth cycle after its last beat was
    taken and not before all its beats are in the data FIFO. -/
structure Faithful (ps : List Packet) (s : Offload) : Prop where
  written : s.written = s.txd
  beats : s.txd <+: beatsOf ps
  entries : s.entered <+: ps.map Packet.entry
  each : s.entered.length + (if s.age < 6 then 1 else 0) = s.txd.countP Beat.last
  behind : beatsOf (ps.take s.entered.length) <+: s.dataFed

section Step

variable {ps done : List Packet} {s : Offload} {c : Cycle}

theorem written_next : (s.next c).written = s.written ++ if txdTakes s.fsm c then [c.txd] else [] :=
  rfl

theorem ctrlFed_next : (s.next c).ctrlFed = s.ctrlFed ++ ctrlWriting s.fsm := rfl

theorem marks_next (h : Inv ps s done) :
    ∀ k, 1 ≤ k → k ≤ 6 → mark (s.next c) k = decide ((s.next c).age = k) := by
  intro k hlo hhi
  have hpos := age_pos h.stage
  have hlate (hend : s.ending c = true) := age_of_data h.stage (takes_of_ending hend).1
  match k with
  | 1 =>
      rw [mark_one]
      cases hend : s.ending c with
      | true => rw [age_end hend]; rfl
      | false => rw [age_pass hend, decide_eq_false (by omega)]
  | k + 2 =>
      rw [mark_next (by omega) (by omega), h.marks (k + 1) (by omega) (by omega)]
      cases hend : s.ending c with
      | true =>
          have hage := hlate hend
          rw [age_end hend, decide_eq_false (by omega), decide_eq_false (by omega)]
      | false =>
          rw [age_pass hend]
          exact decide_eq_decide.mpr (by omega)

/-- The entry of the packet that ended is on the write port in the sixth cycle. -/
theorem ctrlWriting_eq (h : Inv ps s done) :
    ctrlWriting s.fsm = if s.age = 6 then [s.fsm.ctrlFifoWdata] else [] := by
  have hmark : s.fsm.ctrlFifoWren = decide (s.age = 6) := h.marks 6 (by decide) (by decide)
  rw [ctrlWriting, hmark]
  by_cases hsix : s.age = 6
  · rw [decide_eq_true hsix, if_pos rfl, if_pos hsix]
  · rw [decide_eq_false hsix, if_neg Bool.false_ne_true, if_neg hsix]

/-- What has been entered: the last packet may be missing for five cycles. -/
theorem entered_eq (h : Inv ps s done) :
    (s.age < 6 ∧ ∃ before q, done = before ++ [q] ∧ s.entered = before.map Packet.entry) ∨
      (6 ≤ s.age ∧ s.entered = done.map Packet.entry) := by
  have hwriting := ctrlWriting_eq h
  rcases Nat.lt_trichotomy s.age 6 with hlt | heq | hgt
  · rcases h.pending (Nat.le_of_lt hlt) with ⟨before, q, hdone, _, hfed⟩
    refine Or.inl ⟨hlt, before, q, hdone, ?_⟩
    rw [Offload.entered, hwriting, if_neg (Nat.ne_of_lt hlt), List.append_nil, hfed]
  · rcases h.pending (Nat.le_of_eq heq) with ⟨before, q, hdone, hended, hfed⟩
    rw [heq] at hended
    have hentry : s.fsm.ctrlFifoWdata = q.entry := by
      rw [show s.fsm.ctrlFifoWdata = ⟨s.fsm.ctrlFifoWdata.txCsSum,
        s.fsm.ctrlFifoWdata.txCsInsert, s.fsm.ctrlFifoWdata.txCsCntrl⟩ from rfl, hended.2,
        hended.1.1, hended.1.2]
      rfl
    refine Or.inr ⟨Nat.le_of_eq heq.symm, ?_⟩
    rw [Offload.entered, hwriting, if_pos heq, hfed, hdone, List.map_append, hentry]
    rfl
  · refine Or.inr ⟨Nat.le_of_lt hgt, ?_⟩
    rw [Offload.entered, hwriting, if_neg (Nat.ne_of_gt hgt), List.append_nil, h.settled hgt]

/-- The write port is idle while the sum of the last packet is on its way. -/
theorem wren_of_age (h : Inv ps s done) (hlo : 2 ≤ s.age) (hhi : s.age ≤ 6) :
    s.fsm.dataFifoWren = false := by
  cases h.stage with
  | idle rest hps state txc txd age quiet => exact (quiet hlo).1
  | ctrl q rest hps state k hk txc txd tcnt loaded age quiet => exact quiet.1
  | wait q rest hps state txc txd loaded age still csum => exact still
  | data q rest hps state pre post hbeats hpost txc txd loaded age through port csum => omega

/-- A cycle in which no packet ends. -/
theorem inv_pass (h : Inv ps s done) (hoff : Offered ps s c) (hgo : s.ending c = false) :
    Inv ps (s.next c) done := by
  have hage := age_pass hgo
  have hpos := age_pos h.stage
  refine ⟨stage_pass h.stage (h.marks 1 (by decide) (by decide)) hoff hgo, marks_next h, ?_, ?_, ?_⟩
  · rw [written_next, h.written]
    rfl
  · intro hhi
    rw [hage] at hhi ⊢
    rcases h.pending (by omega) with ⟨before, q, hdone, hended, hfed⟩
    have hstate : s.fsm.state ≠ .data := fun hd => by
      have := age_of_data h.stage hd
      omega
    refine ⟨before, q, hdone, ?_, ?_⟩
    · refine ended_next hpos (by omega) hended hstate (idle_of_age h.stage)
        (fun hlo => wren_of_age h hlo (by omega)) fun hfive => ?_
      exact (h.marks 5 (by decide) (by decide)).trans (decide_eq_true hfive)
    · rw [ctrlFed_next, ctrlWriting_eq h, if_neg (by omega), List.append_nil, hfed]
  · intro hlo
    rw [hage] at hlo
    rcases entered_eq h with ⟨hlt, _⟩ | ⟨_, hentered⟩
    · omega
    · exact hentered

/-- The cycle in which the last beat of a packet is taken. -/
theorem inv_end (h : Inv ps s done) (hoff : Offered ps s c) (hgo : s.ending c = true) :
    ∃ q, Inv ps (s.next c) (done ++ [q]) := by
  rcases stage_end h.stage hoff hgo with ⟨q, hstage, hended⟩
  have hage := age_end hgo
  have hlate := age_of_data h.stage (takes_of_ending hgo).1
  refine ⟨q, hstage, marks_next h, ?_, ?_, ?_⟩
  · rw [written_next, h.written]
    rfl
  · intro _
    refine ⟨done, q, rfl, ?_, ?_⟩
    · rw [hage]
      exact hended
    · rw [ctrlFed_next, ctrlWriting_eq h, if_neg (by omega), List.append_nil,
        h.settled (by omega)]
  · intro hlo
    rw [hage] at hlo
    exact absurd hlo (by decide)

theorem inv_next (h : Inv ps s done) (hoff : Offered ps s c) :
    ∃ done', Inv ps (s.next c) done' := by
  cases hgo : s.ending c with
  | false => exact ⟨done, inv_pass h hoff hgo⟩
  | true =>
      rcases inv_end h hoff hgo with ⟨q, hinv⟩
      exact ⟨done ++ [q], hinv⟩

theorem afterReset_inv (ps : List Packet) (h : AfterReset s) : Inv ps s [] := by
  have hage := h.age
  refine ⟨.idle ps rfl h.state h.txc h.txd (by omega) fun _ => ⟨h.dataFifoWren, h.csum.sof⟩, ?_, ?_,
    fun hle => absurd hle (by omega), fun _ => h.ctrlFed⟩
  · intro k hlo hhi
    rw [decide_eq_false (by omega)]
    interval_cases k
    · simp only [mark, h.dataFifoWren, Bool.false_and]
    · simp only [mark, h.csum.tvalidD1, Bool.false_and]
    · exact h.csum.endHitReg
    · exact h.csum.endHitD1
    · exact h.csum.sumValid
    · exact h.ctrlFifoWren
  · rw [Offload.written, h.dataFed, dataWriting, h.dataFifoWren, h.txd]
    rfl

end Step

section Result

variable {ps done : List Packet} {s : Offload}

theorem countP_beatsOf (ps : List Packet) : (beatsOf ps).countP Beat.last = ps.length := by
  induction ps with
  | nil => rfl
  | cons p ps ih =>
      rw [beatsOf_cons, List.countP_append,
        countP_ends p.ends, ih, List.length_cons, Nat.add_comm]

/-- What has been taken: the packets and a beginning of the next one. -/
theorem txd_eq (h : Stage ps s done) :
    done <+: ps ∧ s.txd <+: beatsOf ps ∧ beatsOf done <+: s.txd ∧
      s.txd.countP Beat.last = done.length := by
  have hplain {rest : List Packet} (hps : ps = done ++ rest) (htxd : s.txd = beatsOf done) :
      done <+: ps ∧ s.txd <+: beatsOf ps ∧ beatsOf done <+: s.txd ∧
        s.txd.countP Beat.last = done.length := by
    rw [htxd, hps, beatsOf_append]
    exact ⟨List.prefix_append _ _, List.prefix_append _ _, List.prefix_rfl, countP_beatsOf done⟩
  cases h with
  | idle rest hps state txc txd => exact hplain hps txd
  | ctrl q rest hps state k hk txc txd => exact hplain hps txd
  | wait q rest hps state txc txd => exact hplain hps txd
  | data q rest hps state pre post hbeats hpost txc txd =>
      rw [txd, hps, beatsOf_append, List.countP_append, countP_beatsOf,
        countP_before q.ends hbeats hpost]
      refine ⟨List.prefix_append _ _, ?_, List.prefix_append _ _, rfl⟩
      rw [List.prefix_append_right_inj, beatsOf_cons,
        hbeats, List.append_assoc]
      exact List.prefix_append _ _

theorem dataWriting_length (r : Regs) : (dataWriting r).length ≤ 1 := by
  rw [dataWriting]
  split_ifs
  · exact Nat.le_refl 1
  · exact Nat.zero_le 1

/-- The beats before the one on the write port are in the FIFO. -/
theorem dataFed_of_before {before : List Packet} {q : Packet} (h : Inv ps s (before ++ [q])) :
    beatsOf before <+: s.dataFed := by
  have hwritten := h.written
  have hlen := (txd_eq h.stage).2.2.1
  rw [← hwritten, Offload.written, beatsOf_append] at hlen
  -- The packet behind them has two beats, only one of which can be on the port.
  have htwo := q.two
  have hone := dataWriting_length s.fsm
  have hle := hlen.length_le
  rw [List.length_append, List.length_append,
    beatsOf_singleton] at hle
  refine List.prefix_of_prefix_length_le ((List.prefix_append _ _).trans hlen)
    (List.prefix_append _ _) (by omega)

/-- A cycle after the last beat of a packet it is in the FIFO too. -/
theorem dataFed_of_done (h : Inv ps s done) (hage : 2 ≤ s.age) : beatsOf done <+: s.dataFed := by
  have hidle (hw : s.fsm.dataFifoWren = false) : beatsOf done <+: s.dataFed := by
    have hwritten := h.written
    rw [Offload.written, dataWriting, hw, if_neg Bool.false_ne_true, List.append_nil] at hwritten
    rw [hwritten]
    exact (txd_eq h.stage).2.2.1
  cases h.stage with
  | idle rest hps state txc txd age quiet => exact hidle (quiet hage).1
  | ctrl q rest hps state k hk txc txd tcnt loaded age quiet => exact hidle quiet.1
  | wait q rest hps state txc txd loaded age still csum => exact hidle still
  | data q rest hps state pre post hbeats hpost txc txd loaded age through port csum =>
      -- What is on the port belongs to the next packet.
      have hwritten := h.written
      rw [Offload.written, txd, port, ← List.append_assoc, List.append_cancel_right_eq] at hwritten
      rw [hwritten]
      exact List.prefix_append _ _

theorem faithful_of_inv (h : Inv ps s done) : Faithful ps s := by
  rcases txd_eq h.stage with ⟨hdone, hbeats, hfull, hcount⟩
  rcases entered_eq h with ⟨hage, before, q, rfl, hentered⟩ | ⟨hage, hentered⟩
  · have hbefore : before <+: ps := (List.prefix_append before [q]).trans hdone
    refine ⟨h.written, hbeats, ?_, ?_, ?_⟩
    · rw [hentered]
      exact hbefore.map _
    · rw [hentered, if_pos hage, hcount, List.length_map, List.length_append, List.length_singleton]
    · rw [hentered, List.length_map, ← List.prefix_iff_eq_take.mp hbefore]
      exact dataFed_of_before h
  · refine ⟨h.written, hbeats, ?_, ?_, ?_⟩
    · rw [hentered]
      exact hdone.map _
    · rw [hentered, if_neg (by omega), hcount, List.length_map, Nat.add_zero]
    · rw [hentered, List.length_map, ← List.prefix_iff_eq_take.mp hdone]
      exact dataFed_of_done h (by omega)

end Result

section Run

variable {ps : List Packet} {s0 : Offload} {inp : Nat → Cycle}

theorem trace_invariant (h0 : AfterReset s0) {n : Nat}
    (hoff : ∀ k, k < n → Offered ps (trace Offload.next s0 inp k) (inp k)) :
    ∀ k, k ≤ n → ∃ done, Inv ps (trace Offload.next s0 inp k) done := by
  refine trace_until (P := fun s => ∃ done, Inv ps s done) ⟨[], afterReset_inv ps h0⟩
    fun k hk hinv => ?_
  rcases hinv with ⟨done, hinv⟩
  exact inv_next hinv (hoff k hk)

/-- Time passes one cycle at a time. -/
theorem age_le (s0 : Offload) (inp : Nat → Cycle) (m k : Nat) :
    (trace Offload.next s0 inp (m + k)).age ≤ (trace Offload.next s0 inp m).age + k := by
  induction k with
  | zero => exact Nat.le_refl _
  | succ k ih =>
      have hstep : (trace Offload.next s0 inp (m + (k + 1))).age ≤
          (trace Offload.next s0 inp (m + k)).age + 1 := by
        change (Offload.next (trace Offload.next s0 inp (m + k)) _).age ≤ _
        simp only [Offload.next]
        split_ifs <;> omega
      omega

/-- The FIFOs get the right data, and after a last beat on the write port of the
    data FIFO there are at least three cycles until the next packet. -/
theorem offload_faithful (h0 : AfterReset s0) (n : Nat)
    (hoff : ∀ k, k < n → Offered ps (trace Offload.next s0 inp k) (inp k)) :
    Faithful ps (trace Offload.next s0 inp n) ∧
      ∀ m, m < n → (trace Offload.next s0 inp m).fsm.dataFifoWren = true →
        (trace Offload.next s0 inp m).fsm.dataFifoWdata.last = true →
        (trace Offload.next s0 inp n).fsm.dataFifoWren = true → m + 3 < n := by
  have hinv := trace_invariant h0 hoff
  refine ⟨?_, ?_⟩
  · rcases hinv n (Nat.le_refl n) with ⟨done, h⟩
    exact faithful_of_inv h
  · intro m hm hwren hlast hnext
    rcases Nat.exists_eq_add_of_lt hm with ⟨k, rfl⟩
    rcases hinv m (Nat.le_of_lt hm) with ⟨_, hm'⟩
    rcases hinv (m + k) (Nat.le_succ _) with ⟨_, hk'⟩
    have hone : (trace Offload.next s0 inp m).age = 1 := by
      have hmark := hm'.marks 1 (by decide) (by decide)
      rw [show mark (trace Offload.next s0 inp m) 1 = true from
        Bool.and_eq_true_iff.mpr ⟨hwren, hlast⟩] at hmark
      exact of_decide_eq_true hmark.symm
    -- The beat was taken in the cycle before, which was in the data state.
    have hdata : (trace Offload.next s0 inp (m + k)).fsm.state = .data := by
      by_contra hne
      have hidle : (trace Offload.next s0 inp (m + k + 1)).fsm.dataFifoWren = false :=
        wren_next hne
      exact absurd (hnext.symm.trans hidle) (by decide)
    have hlate := age_of_data hk'.stage hdata
    have hpass := age_le s0 inp m k
    omega

/-- The registers after reset. -/
def start : Offload where
  fsm := ⟨.idle, 0, false, false, 0, 0, 0, 0, 0, ⟨0, 0, 0⟩, false, ⟨0, 0, false⟩, false⟩
  csum := ⟨true, 0, 0, false, false, 0, 0, 0, 0, false, false, 0, false, false, false, 0, 0⟩
  txc := []
  txd := []
  ctrlFed := []
  dataFed := []
  age := 9

/-- The packet without gaps: the words in the cycles 1 to 6, the beats in 8 and 9. -/
def twoBeatsInput (n : Nat) : Cycle where
  txd := twoBeats.beats.getD (n - 8) ⟨0, 0, false⟩
  txdTvalid := decide (n = 7) || decide (n = 8) || decide (n = 9)
  txc := twoBeats.ctrl.getD (n - 1) ⟨0, false⟩
  txcTvalid := decide (n ≤ 6)
  ctrlFifoAfull := false
  dataFifoAfull := false

/-- The entry of the packet is written in cycle 15, six after its last beat. -/
theorem offload_faithful_twoBeats :
    (trace Offload.next start twoBeatsInput 15).fsm.ctrlFifoWren = true ∧
      Faithful [twoBeats] (trace Offload.next start twoBeatsInput 16) := by
  refine ⟨by decide +kernel, (offload_faithful ?_ 16 ?_).1⟩
  · exact ⟨rfl, rfl, rfl, ⟨rfl, rfl, rfl, rfl, rfl⟩, rfl, rfl, rfl, rfl, rfl⟩
  · intro k hk
    interval_cases k <;> exact ⟨by decide +kernel, by decide +kernel⟩

end Run

end OfmIn

end Eth

end Ml605
