import Ml605.Lib.Lag
import Ml605.Eth.OfmPath

/-!
# How Full the Transmit FIFOs Get

Either side looks at the flag of the FIFO behind it before it starts a packet
and not again before the packet's end. So the room above the threshold of 256
has to take a whole packet:

* The input side waits for room in the data FIFO after the control words. The
  packets before are all in the FIFO then, so the flag tells of all of them.
* The output side waits for room in the transmit FIFO before the first beat,
  when nothing is on its way there.
* The control FIFO is almost full with five entries. The flag is looked at
  before the control words, when one more entry may be on its way.

A packet of more than 512 beats fills the data FIFO on its own. The output side
does not start it before its entry, and the entry does not come before its last
beat is stored.

## Main definitions

* `CtrlRoom`, `DataRoom`, `TxRoom`: How full the FIFOs are, packet by packet.
* `Bounded`: All of it.
* `Surroundings`: What is assumed of the inputs.
* `NoOverflow`: No FIFO holds more than its depth.
* `greedy`: Surroundings that offer and take as fast as they can.

## Theorems

* `mm2s_bounded`, `tx_bounded`: Either clock keeps the bounds.
* `transmit_never_overflows`: Short packets never overflow a FIFO.
* `long_packet_overflows`: A packet of 8996 bytes does.
-/

namespace Ml605

namespace Eth

namespace OfmBounds

open Lib OfmPath
open Ofm (TxCs Tx txNext ports writing)
open OfmIn (Packet Offload beatsOf ctrlOf beatsOf_append beatsOf_singleton)

/-- The control FIFO: what its write side knows, and how far the packets taken
    are ahead of the packets read. -/
structure CtrlRoom (s : Path) (done : List Packet) : Prop where
  wbin : s.ctrl.wbin = s.mm2s.ctrlFed.length
  wfull : s.ctrl.wfull = false
  wq1 : s.ctrl.wq1Rptr ≤ ctrlReads s.tx ∧ s.mm2s.ctrlFed.length ≤ s.ctrl.wq1Rptr + 8
  wq2 : s.ctrl.wq2Rptr ≤ ctrlReads s.tx ∧ s.mm2s.ctrlFed.length ≤ s.ctrl.wq2Rptr + 9
  almost : s.ctrl.wAlmostFull = false → s.mm2s.ctrlFed.length ≤ ctrlReads s.tx + 4
  reg : s.mm2s.fsm.ctrlFifoAfullReg = false → s.mm2s.ctrlFed.length ≤ ctrlReads s.tx + 5
  begun : s.mm2s.fsm.state ≠ .idle → done.length ≤ ctrlReads s.tx + 6
  ended : done.length ≤ ctrlReads s.tx + 7

/-- The data FIFO, for packets of at most `n` beats and a flag that is late by
    `d` words: a packet is started below the threshold. -/
structure DataRoom (n d : Nat) (s : Path) (done : List Packet) : Prop where
  waiting : s.mm2s.fsm.state = .wait → s.mm2s.fsm.dataFifoAfullReg = false →
    (beatsOf done).length ≤ dataReads s.tx + 255 + d
  begun : s.mm2s.fsm.state = .data → (beatsOf done).length ≤ dataReads s.tx + 255 + d
  ended : (beatsOf done).length ≤ dataReads s.tx + 255 + d + n

/-- The transmit FIFO. -/
structure TxRoom (n d : Nat) (s : Path) (gone : List Packet) : Prop where
  begun : s.tx.fsm.state = .data ∨ s.tx.fsm.state = .eof →
    (beatsOf gone).length ≤ s.mac.length + 255 + d
  ended : (beatsOf gone).length ≤ s.mac.length + 255 + d + n

/-- Both sides with the bounds. -/
structure Bounded (ps : List Packet) (n d : Nat) (s : Path) (done gone : List Packet) : Prop where
  carried : Carried ps s done gone
  ctrl : CtrlRoom s done
  data : DataRoom n d s done
  tx : TxRoom n d s gone

/-- What is known at a tick, the flags of the FIFOs being late by `d` words. -/
def Granted (d : Nat) (s : Path) : Event → Prop
  | .mm2sClk c => c.dataFifoAfull = false →
      s.mm2s.dataFed.length < dataReads s.tx + 256 + d
  | .txClk c => c.txFifoAfull = false → s.tx.written.length < s.mac.length + 256 + d

/-- No FIFO holds more than its depth: words written less words read for the
    FIFOs between the clocks. -/
structure NoOverflow (s : Path) : Prop where
  data : s.mm2s.dataFed.length - dataReads s.tx ≤ 512
  ctrl : s.mm2s.ctrlFed.length - ctrlReads s.tx ≤ 256
  tx : s.txFifo.length ≤ 512

section InputSide

variable {ps done : List Packet} {s : Offload} {c : OfmIn.Cycle} {n : Nat}

/-- The entries written are those of the packets taken, but for the last one. -/
theorem ctrlFed_between (h : OfmIn.Inv ps s done) :
    s.ctrlFed.length ≤ done.length ∧ done.length ≤ s.ctrlFed.length + 1 := by
  -- The entry of a packet is written some cycles after its last beat.
  rcases Nat.lt_or_ge s.age 7 with hage | hage
  · rcases h.pending (Nat.le_of_lt_succ hage) with ⟨before, q, hdone, _, hfed⟩
    rw [hfed, hdone, List.length_append, List.length_map, List.length_singleton]
    exact ⟨Nat.le_succ _, Nat.le_refl _⟩
  · rw [h.settled hage, List.length_map]
    exact ⟨Nat.le_refl _, Nat.le_succ _⟩

/-- Control words are taken only if there was room for an entry. -/
theorem begun_cases (h : (s.next c).fsm.state ≠ .idle) :
    s.fsm.state ≠ .idle ∨ s.fsm.ctrlFifoAfullReg = false := by
  by_contra hnot
  rw [not_or, not_ne_iff, Bool.not_eq_false] at hnot
  refine h ?_
  simp only [Offload.next, OfmIn.next, OfmIn.stateNs, hnot.1, hnot.2, Bool.not_true,
    Bool.and_false, Bool.false_eq_true, if_false]

/-- Beats are taken only if there was room for them. -/
theorem data_cases (h : (s.next c).fsm.state = .data) :
    s.fsm.state = .data ∨ s.fsm.state = .wait ∧ s.fsm.dataFifoAfullReg = false := by
  simp only [Offload.next, OfmIn.next, OfmIn.stateNs] at h
  cases hstate : s.fsm.state with
  | idle => rw [hstate] at h; dsimp only at h; split_ifs at h
  | ctrl => rw [hstate] at h; dsimp only at h; split_ifs at h
  | wait =>
      rw [hstate] at h
      dsimp only at h
      split_ifs at h with hgo
      exact Or.inr ⟨rfl, Bool.eq_false_of_not_eq_true' (Bool.and_eq_true_iff.mp hgo).2⟩
  | data => exact Or.inl rfl

theorem wait_cases (h : (s.next c).fsm.state = .wait) :
    s.fsm.state = .ctrl ∨ s.fsm.state = .wait := by
  simp only [Offload.next, OfmIn.next, OfmIn.stateNs] at h
  cases hstate : s.fsm.state with
  | idle => rw [hstate] at h; dsimp only at h; split_ifs at h
  | ctrl => exact Or.inl rfl
  | wait => exact Or.inr rfl
  | data => rw [hstate] at h; dsimp only at h; split_ifs at h

theorem idle_of_ending (h : s.ending c = true) : (s.next c).fsm.state = .idle := by
  rcases OfmIn.takes_of_ending h with ⟨hstate, hv, hlast⟩
  have hgo : ((s.input c).txdTvalid && (s.input c).txd.last) = true :=
    Bool.and_eq_true_iff.mpr ⟨hv, hlast⟩
  simp only [Offload.next, OfmIn.next, OfmIn.stateNs, hstate, hgo, if_true]

/-- Before a packet's first beat all of the packets before it is in the FIFO. -/
theorem dataFed_of_waiting (h : OfmIn.Inv ps s done)
    (hstate : s.fsm.state = .ctrl ∨ s.fsm.state = .wait) : s.dataFed = beatsOf done := by
  have hwritten := h.written
  rw [Offload.written, OfmIn.dataWriting] at hwritten
  -- In both states the write port is idle, so no beat is between stream and FIFO.
  cases h.stage with
  | idle rest hps state =>
      rcases hstate with hs | hs <;> exact absurd (hs.symm.trans state) (by decide)
  | ctrl q rest hps state k hk txc txd tcnt loaded age quiet =>
      rw [quiet.1, if_neg Bool.false_ne_true, List.append_nil, txd] at hwritten
      exact hwritten
  | wait q rest hps state txc txd loaded age still csum =>
      rw [still, if_neg Bool.false_ne_true, List.append_nil, txd] at hwritten
      exact hwritten
  | data q rest hps state =>
      rcases hstate with hs | hs <;> exact absurd (hs.symm.trans state) (by decide)

/-- How much has been taken. -/
theorem txd_le (hsize : ∀ p, p ∈ ps → p.beats.length ≤ n) (h : OfmIn.Stage ps s done) :
    s.txd.length ≤ (beatsOf done).length ∨
      s.fsm.state = .data ∧ s.txd.length ≤ (beatsOf done).length + n := by
  cases h with
  | idle rest hps state txc txd => exact Or.inl (by rw [txd])
  | ctrl q rest hps state k hk txc txd => exact Or.inl (by rw [txd])
  | wait q rest hps state txc txd => exact Or.inl (by rw [txd])
  | data q rest hps state pre post hbeats hpost txc txd =>
      -- A part of the packet at hand, which has at most `n` beats.
      have hq := hsize q (by rw [hps]; exact List.mem_append_right _ List.mem_cons_self)
      rw [hbeats, List.length_append] at hq
      rw [txd, List.length_append]
      exact Or.inr ⟨state, by omega⟩

end InputSide

section OutputSide

variable {ps gone : List Packet} {t : Tx} {c : Ofm.Cycle} {n : Nat}

/-- How much has been read. -/
theorem dataReads_le (hsize : ∀ p, p ∈ ps → p.beats.length ≤ n) (h : Reading ps t gone) :
    dataReads t = (beatsOf gone).length ∨
      (t.fsm.state = .data ∨ t.fsm.state = .eof) ∧ dataReads t ≤ (beatsOf gone).length + n := by
  cases h with
  | idle rest hps state data => exact Or.inl (reads_of_data data)
  | sof rest hps state data => exact Or.inl (reads_of_data data)
  | data q rest hps state pre post hbeats hpost data =>
      have hq := hsize q (by rw [hps]; exact List.mem_append_right _ List.mem_cons_self)
      rw [hbeats, List.length_append] at hq
      rw [reads_of_data data, List.length_append]
      exact Or.inr ⟨Or.inl state, by omega⟩
  | eof q rest hps state data =>
      have hq := hsize q (by rw [hps]; exact List.mem_append_right _ List.mem_cons_self)
      rw [reads_of_data data, List.length_append]
      exact Or.inr ⟨Or.inr state, by omega⟩

/-- A packet is copied only if there was room for it, and nothing was on its way
    to the transmit FIFO then. -/
theorem copy_cases (h : Reading ps t gone) (haccount : Account t)
    (hstate : (txNext t c).fsm.state = .data ∨ (txNext t c).fsm.state = .eof) :
    t.fsm.state = .data ∨ c.txFifoAfull = false ∧ t.written.length = (beatsOf gone).length := by
  simp only [txNext, Ofm.next, Ofm.stateNs] at hstate
  cases h with
  | idle rest hps state =>
      rw [state] at hstate
      dsimp only at hstate
      split_ifs at hstate <;> exact absurd hstate (by decide)
  | sof rest hps state data ctrl entry rden wren =>
      rw [state] at hstate
      dsimp only at hstate
      split_ifs at hstate with hgo
      · -- The flag is looked at here and not again until the packet is copied.
        refine Or.inr ⟨?_, ?_⟩
        · exact Bool.eq_false_of_not_eq_true' (Bool.and_eq_true_iff.mp hgo).1
        · rw [Account, writing, wren, rden, reads_of_data data] at haccount
          exact haccount
      · exact absurd hstate (by decide)
  | data q rest hps state => exact Or.inl state
  | eof q rest hps state =>
      rw [state] at hstate
      dsimp only at hstate
      exact absurd hstate (by decide)

end OutputSide

section Steps

variable {ps done done' gone gone' : List Packet} {n d : Nat} {s : Path} {c : OfmIn.Cycle}
  {r : ReadCycle}

/-- The write side of the control FIFO at a tick of the stream clock. -/
theorem ctrlRoom_mm2s (h : CtrlRoom s done) (hcarried : Carried ps s done gone)
    (hbegun : (s.next (.mm2sClk c)).mm2s.fsm.state ≠ .idle → done' = done)
    (hended : done' = done ∨
      s.mm2s.fsm.state ≠ .idle ∧ done'.length = done.length + 1) :
    CtrlRoom (s.next (.mm2sClk c)) done' := by
  have hfed := ctrlFed_between hcarried.mm2s
  have hreads : ctrlReads s.tx ≤ s.mm2s.ctrlFed.length :=
    (Nat.sub_le _ _).trans hcarried.ctrl.length_le
  have hle := h.ended
  have hq1 := h.wq1
  have hq2 := h.wq2
  -- The FIFO takes what is on its write port, since it is not full.
  have hwrites : (s.next (.mm2sClk c)).mm2s.ctrlFed.length =
      s.ctrl.wbinnext s.mm2s.fsm.ctrlFifoWren := by
    have hnext : (s.next (.mm2sClk c)).mm2s.ctrlFed =
        s.mm2s.ctrlFed ++ OfmIn.ctrlWriting s.mm2s.fsm := rfl
    rw [hnext, List.length_append, SmallFifo.WriteSide.wbinnext, h.wbin, h.wfull,
      OfmIn.ctrlWriting]
    cases s.mm2s.fsm.ctrlFifoWren with
    | false => rfl
    | true => rfl
  have hone : s.ctrl.wbinnext s.mm2s.fsm.ctrlFifoWren ≤ s.mm2s.ctrlFed.length + 1 ∧
      s.mm2s.ctrlFed.length ≤ s.ctrl.wbinnext s.mm2s.fsm.ctrlFifoWren := by
    rw [SmallFifo.WriteSide.wbinnext, h.wbin]
    split <;> omega
  -- Each stage of the read pointer's way to the write side, and then the flag and its
  -- register, is a cycle older than the one before and so allows one entry more.
  refine ⟨hwrites.symm, ?_, ?_, ?_, ?_, ?_, ?_, ?_⟩
  · exact SmallFifo.wfull_next_of_le (by omega)
  · rw [hwrites]
    change ctrlReads s.tx ≤ ctrlReads s.tx ∧ _ ≤ ctrlReads s.tx + 8
    omega
  · rw [hwrites]
    change s.ctrl.wq1Rptr ≤ ctrlReads s.tx ∧ _ ≤ s.ctrl.wq1Rptr + 9
    omega
  · intro hlow
    have hflag : (s.ctrl.next 8 s.mm2s.fsm.ctrlFifoWren (ctrlReads s.tx)).wAlmostFull = false :=
      hlow
    rw [SmallFifo.almost_next_eq (by omega) (by omega) (by decide)] at hflag
    have hbelow := of_decide_eq_false hflag
    rw [hwrites]
    change _ ≤ ctrlReads s.tx + 4
    omega
  · intro hlow
    have hbefore := h.almost hlow
    rw [hwrites]
    change _ ≤ ctrlReads s.tx + 5
    omega
  · -- A packet is begun under the registered flag, and ends with one entry more.
    intro hstate
    change done'.length ≤ ctrlReads s.tx + 6
    rw [hbegun hstate]
    rcases begun_cases hstate with hs | hlow
    · exact h.begun hs
    · have hbefore := h.reg hlow
      omega
  · change done'.length ≤ ctrlReads s.tx + 7
    rcases hended with rfl | ⟨hs, hlen⟩
    · exact hle
    · have hbefore := h.begun hs
      omega

/-- At a tick of the transmit clock only the reads change. -/
theorem ctrlRoom_tx (h : CtrlRoom s done) : CtrlRoom (s.next (.txClk r)) done := by
  have hreads := (reads_le s (.txClk r)).2.1
  have hq1 := h.wq1
  have hq2 := h.wq2
  refine ⟨h.wbin, h.wfull, ⟨hq1.1.trans hreads, hq1.2⟩, ⟨hq2.1.trans hreads, hq2.2⟩, ?_, ?_, ?_, ?_⟩
  · exact fun hlow => (h.almost hlow).trans (Nat.add_le_add_right hreads 4)
  · exact fun hlow => (h.reg hlow).trans (Nat.add_le_add_right hreads 5)
  · exact fun hstate => (h.begun hstate).trans (Nat.add_le_add_right hreads 6)
  · exact h.ended.trans (Nat.add_le_add_right hreads 7)

/-- A packet that goes on, or the next one. -/
theorem dataRoom_pass (h : DataRoom n d s done) (hinv : OfmIn.Inv ps s.mm2s done)
    (hflag : Granted d s (.mm2sClk c)) : DataRoom n d (s.next (.mm2sClk c)) done := by
  refine ⟨fun hstate hlow => ?_, fun hstate => ?_, h.ended⟩
  · -- The flag is about what is in the FIFO, and that is all of the packets so far.
    have hbelow := hflag hlow
    rw [dataFed_of_waiting hinv (wait_cases hstate)] at hbelow
    change _ ≤ dataReads s.tx + 255 + d
    omega
  · rcases data_cases hstate with hs | ⟨hs, hlow⟩
    · exact h.begun hs
    · exact h.waiting hs hlow

/-- A packet ends. -/
theorem dataRoom_end {q : Packet} (h : DataRoom n d s done) (hq : q.beats.length ≤ n)
    (hgo : s.mm2s.ending (s.input c) = true) :
    DataRoom n d (s.next (.mm2sClk c)) (done ++ [q]) := by
  have hidle : (s.next (.mm2sClk c)).mm2s.fsm.state = .idle := idle_of_ending hgo
  have hbegun := h.begun (OfmIn.takes_of_ending hgo).1
  refine ⟨fun hstate => absurd (hidle.symm.trans hstate) (by decide),
    fun hstate => absurd (hidle.symm.trans hstate) (by decide), ?_⟩
  rw [beatsOf_append, List.length_append, beatsOf_singleton]
  change _ ≤ dataReads s.tx + 255 + d + n
  omega

theorem dataRoom_tx (h : DataRoom n d s done) : DataRoom n d (s.next (.txClk r)) done := by
  have hreads := (reads_le s (.txClk r)).1
  refine ⟨fun hstate hlow => ?_, fun hstate => ?_, ?_⟩
  · have hwaiting := h.waiting hstate hlow
    omega
  · have hbegun := h.begun hstate
    omega
  · have hended := h.ended
    omega

/-- A packet that is copied goes on, or the next one. -/
theorem txRoom_pass (h : TxRoom n d s gone) (hcarried : Carried ps s done gone)
    (hflag : Granted d s (.txClk r)) : TxRoom n d (s.next (.txClk r)) gone := by
  have hmac := (reads_le s (.txClk r)).2.2
  have hended := h.ended
  refine ⟨fun hstate => ?_, by omega⟩
  -- Inside a packet the bound of its start stays; at its start the flag gives it.
  rcases copy_cases hcarried.tx hcarried.account hstate with hs | ⟨hlow, hlen⟩
  · have hbegun := h.begun (Or.inl hs)
    omega
  · have hbelow := hflag hlow
    omega

/-- A packet has been copied. -/
theorem txRoom_end {q : Packet} (h : TxRoom n d s gone) (hq : q.beats.length ≤ n)
    (heof : s.tx.fsm.state = .eof) : TxRoom n d (s.next (.txClk r)) (gone ++ [q]) := by
  have hidle : (s.next (.txClk r)).tx.fsm.state = .idle := by
    simp only [Path.next, txNext, Ofm.next, Ofm.stateNs, heof]
  have hbegun := h.begun (Or.inr heof)
  have hmac := (reads_le s (.txClk r)).2.2
  refine ⟨fun hstate => ?_, ?_⟩
  · rw [hidle] at hstate
    exact absurd hstate (by decide)
  · rw [beatsOf_append, List.length_append, beatsOf_singleton]
    omega

/-- A tick of the stream clock keeps the bounds. -/
theorem mm2s_bounded (hsize : ∀ p, p ∈ ps → p.beats.length ≤ n) (h : Bounded ps n d s done gone)
    (hoff : OfmIn.Offered ps s.mm2s c) (hflag : Granted d s (.mm2sClk c)) :
    ∃ done', Bounded ps n d (s.next (.mm2sClk c)) done' gone := by
  cases hgo : s.mm2s.ending (s.input c) with
  | false =>
      exact ⟨done, mm2s_pass h.carried hoff hgo,
        ctrlRoom_mm2s h.ctrl h.carried (fun _ => rfl) (Or.inl rfl),
        dataRoom_pass h.data h.carried.mm2s hflag, h.tx.begun, h.tx.ended⟩
  | true =>
      rcases mm2s_end h.carried hoff hgo with ⟨q, hcarried⟩
      have hidle : (s.next (.mm2sClk c)).mm2s.fsm.state = .idle := idle_of_ending hgo
      have hdata := (OfmIn.takes_of_ending hgo).1
      have hq : q.beats.length ≤ n := by
        refine hsize q ((OfmIn.txd_eq hcarried.mm2s.stage).1.subset ?_)
        exact List.mem_append_right _ List.mem_cons_self
      refine ⟨done ++ [q], hcarried,
        ctrlRoom_mm2s h.ctrl h.carried (fun hstate => absurd hidle hstate) (Or.inr ⟨?_, ?_⟩),
        dataRoom_end h.data hq hgo, h.tx.begun, h.tx.ended⟩
      · rw [hdata]
        decide
      · rw [List.length_append, List.length_singleton]

/-- A tick of the transmit clock keeps the bounds. -/
theorem tx_bounded (hsize : ∀ p, p ∈ ps → p.beats.length ≤ n) (h : Bounded ps n d s done gone)
    (hflag : Granted d s (.txClk r)) : ∃ gone', Bounded ps n d (s.next (.txClk r)) done gone' := by
  rcases tx_next (c := r) h.carried with hcarried | ⟨heof, q, rest, hps, hcarried⟩
  · exact ⟨gone, hcarried, ctrlRoom_tx h.ctrl, dataRoom_tx h.data,
      txRoom_pass h.tx h.carried hflag⟩
  · have hq := hsize q (by rw [hps]; exact List.mem_append_right _ List.mem_cons_self)
    exact ⟨gone ++ [q], hcarried, ctrlRoom_tx h.ctrl, dataRoom_tx h.data,
      txRoom_end h.tx hq heof⟩

/-- The bounds are within the depths. -/
theorem noOverflow_of_bounded (hsize : ∀ p, p ∈ ps → p.beats.length ≤ n) (hnd : n + d ≤ 257)
    (h : Bounded ps n d s done gone) : NoOverflow s := by
  -- Started below 256 words with a flag `d` words late, a packet of `n` beats ends
  -- below 256 + `d` + `n`.
  refine ⟨?_, ?_, ?_⟩
  · have hwritten := congrArg List.length h.carried.mm2s.written
    have hended := h.data.ended
    rw [Offload.written, List.length_append] at hwritten
    rcases txd_le hsize h.carried.mm2s.stage with hle | ⟨hstate, hle⟩
    · omega
    · have hbegun := h.data.begun hstate
      omega
  · have hfed := ctrlFed_between h.carried.mm2s
    have hended := h.ctrl.ended
    omega
  · have hwritten := congrArg List.length h.carried.mac
    have haccount := h.carried.account
    have hended := h.tx.ended
    rw [List.length_append] at hwritten
    unfold Account at haccount
    rcases dataReads_le hsize h.carried.tx with heq | ⟨hstate, hle⟩
    · omega
    · have hbegun := h.tx.begun hstate
      omega

theorem afterReset_bounded (ps : List Packet) (n d : Nat) (h0 : AfterReset s) :
    Bounded ps n d s [] [] := by
  have hfed : s.mm2s.ctrlFed.length = 0 := by
    rw [h0.mm2s.ctrlFed]
    rfl
  have hctrl : s.ctrl = ⟨0, 0, 0, false, false⟩ := h0.ctrl
  refine ⟨afterReset_carried ps h0, ⟨?_, ?_, ?_, ?_, ?_, ?_, ?_, ?_⟩, ⟨?_, ?_, ?_⟩, ⟨?_, ?_⟩⟩
  · rw [hfed, hctrl]
  · rw [hctrl]
  · rw [hfed, hctrl]
    exact ⟨Nat.zero_le _, Nat.zero_le _⟩
  · rw [hfed, hctrl]
    exact ⟨Nat.zero_le _, Nat.zero_le _⟩
  · exact fun _ => by omega
  · exact fun _ => by omega
  · exact fun _ => Nat.zero_le _
  · exact Nat.zero_le _
  · exact fun _ _ => Nat.zero_le _
  · exact fun _ => Nat.zero_le _
  · exact Nat.zero_le _
  · exact fun _ => Nat.zero_le _
  · exact Nat.zero_le _

end Steps

/-- Whether the stream clock ticks. -/
def mm2sTick : Event → Bool
  | .mm2sClk _ => true
  | .txClk _ => false

/-- What is assumed of the input at a moment: the streams offer the packets in
    order, and the flags of the data FIFO and of the transmit FIFO are at most
    `d` cycles of their clocks late. -/
structure Surroundings (ps : List Packet) (d : Nat) (s0 : Path) (inp : Nat → Event) (n : Nat) :
    Prop where
  streams : Offering ps (trace Path.next s0 inp n) (inp n)
  dataFlag : ∀ c, inp n = .mm2sClk c → Reflects (fun m => mm2sTick (inp m))
    (fun m => (trace Path.next s0 inp m).mm2s.dataFed.length)
    (fun m => dataReads (trace Path.next s0 inp m).tx) 256 d n c.dataFifoAfull
  txFlag : ∀ c, inp n = .txClk c → Reflects (fun m => !mm2sTick (inp m))
    (fun m => (trace Path.next s0 inp m).tx.written.length)
    (fun m => (trace Path.next s0 inp m).mac.length) 256 d n c.txFifoAfull

section Trace

variable {ps : List Packet} {n d : Nat} {s0 : Path} {inp : Nat → Event}

theorem dataFed_grows (s : Path) (e : Event) : (s.next e).mm2s.dataFed.length ≤
    s.mm2s.dataFed.length + if mm2sTick e = true then 1 else 0 := by
  cases e with
  | mm2sClk c =>
      have hfed : (s.next (.mm2sClk c)).mm2s.dataFed =
          s.mm2s.dataFed ++ OfmIn.dataWriting s.mm2s.fsm := rfl
      rw [hfed, List.length_append, mm2sTick, if_pos rfl]
      exact Nat.add_le_add_left (OfmIn.dataWriting_length _) _
  | txClk c => exact Nat.le_add_right _ _

theorem written_grows (s : Path) (e : Event) : (s.next e).tx.written.length ≤
    s.tx.written.length + if (!mm2sTick e) = true then 1 else 0 := by
  cases e with
  | mm2sClk c => exact Nat.le_add_right _ _
  | txClk c =>
      have hfed : (s.next (.txClk c)).tx.written = s.tx.written ++ writing s.tx.fsm := rfl
      rw [hfed, List.length_append, writing, mm2sTick, Bool.not_false, if_pos rfl]
      split_ifs
      · exact Nat.le_refl _
      · exact Nat.le_add_right _ _

/-- A flag that is late has missed so many words at most. -/
theorem granted_of_surroundings {m : Nat} (h : Surroundings ps d s0 inp m) :
    Granted d (trace Path.next s0 inp m) (inp m) := by
  cases he : inp m with
  | mm2sClk c =>
      intro hlow
      have hflag := h.dataFlag c he
      rw [hlow] at hflag
      exact lt_of_reflects (fun k => dataFed_grows _ (inp k)) (fun k => (reads_le _ (inp k)).1)
        hflag
  | txClk c =>
      intro hlow
      have hflag := h.txFlag c he
      rw [hlow] at hflag
      exact lt_of_reflects (fun k => written_grows _ (inp k)) (fun k => (reads_le _ (inp k)).2.2)
        hflag

/-- Whatever the relative speed of the clocks and the readiness of the MAC: with
    packets of at most `n` beats and flags at most `d` cycles late no FIFO ever
    overflows, as long as `n + d` is at most 257. -/
theorem transmit_never_overflows (hnd : n + d ≤ 257) (hsize : ∀ p, p ∈ ps → p.beats.length ≤ n)
    (h0 : AfterReset s0) (m : Nat) (h : ∀ k, k < m → Surroundings ps d s0 inp k) :
    NoOverflow (trace Path.next s0 inp m) := by
  have hbounded : ∃ done gone, Bounded ps n d (trace Path.next s0 inp m) done gone := by
    -- Only the ticks before `m` are known to meet the assumptions.
    refine trace_until (P := fun s => ∃ done gone, Bounded ps n d s done gone)
      ⟨[], [], afterReset_bounded ps n d h0⟩ (fun k hk hs => ?_) m (Nat.le_refl m)
    rcases hs with ⟨done, gone, hs⟩
    have hflag := granted_of_surroundings (h k hk)
    have hoff := (h k hk).streams
    cases he : inp k with
    | mm2sClk c =>
        rw [he] at hflag hoff
        rcases mm2s_bounded hsize hs hoff hflag with ⟨done', hs'⟩
        exact ⟨done', gone, hs'⟩
    | txClk c =>
        rw [he] at hflag
        rcases tx_bounded hsize hs hflag with ⟨gone', hs'⟩
        exact ⟨done, gone', hs'⟩
  rcases hbounded with ⟨done, gone, hbounded⟩
  exact noOverflow_of_bounded hsize hnd hbounded

end Trace

section Greedy

/-- The clocks take turns. The streams offer their next words without a pause,
    what was written is seen at once, the flags are not late and the MAC is
    always ready. -/
def greedy (ps : List Packet) (n : Nat) (s : Path) : Event :=
  if n % 2 = 0 then
    .mm2sClk
      { txd := (beatsOf ps).getD s.mm2s.txd.length ⟨0, 0, false⟩
        txdTvalid := decide (s.mm2s.txd.length < (beatsOf ps).length)
        txc := (ctrlOf ps).getD s.mm2s.txc.length ⟨0, false⟩
        txcTvalid := decide (s.mm2s.txc.length < (ctrlOf ps).length)
        ctrlFifoAfull := false
        dataFifoAfull := decide (256 ≤ s.mm2s.dataFed.length - dataReads s.tx) }
  else
    .txClk
      { txFifoAfull := decide (256 ≤ s.tx.written.length - s.mac.length)
        txAxisMacTready := true
        dataSeen := s.mm2s.dataFed.length
        ctrlSeen := s.mm2s.ctrlFed.length
        idleData := ⟨0, 0, false⟩
        idleCtrl := ⟨0, 0, 0⟩ }

/-- Both sides after reset. -/
def start : Path where
  mm2s := OfmIn.start
  tx := ⟨⟨.idle, 0, false, ⟨0, 0, false⟩, false, ⟨0, 0, false⟩, false⟩, [], [], [], [], []⟩
  ctrl := SmallFifo.reset
  txFifo := []
  mac := []

/-- Their inputs. -/
def greedyInput (ps : List Packet) (n : Nat) : Event :=
  greedy ps n (follow Path.next start (greedy ps) n)

/-- A packet of `k + 1` full beats and four more bytes. -/
def packetOf (k : Nat) : Packet where
  words := fun _ => 0
  beats := List.replicate (k + 1) ⟨0, 0xFF, false⟩ ++ [⟨0, 0x0F, true⟩]
  ends := endsOnly_snoc (fun x hx => by rw [List.eq_of_mem_replicate hx]) rfl
  two := by
    rw [List.length_append, List.length_replicate, List.length_singleton]
    omega

/-- A packet of 8996 bytes: 1124 full beats and four more bytes. -/
def long : Packet := packetOf 1123

theorem start_afterReset : AfterReset start where
  mm2s := ⟨rfl, rfl, rfl, ⟨rfl, rfl, rfl, rfl, rfl⟩, rfl, rfl, rfl, rfl, rfl⟩
  tx := ⟨rfl, rfl, rfl, rfl, rfl, rfl, rfl, rfl⟩
  ctrl := rfl
  txFifo := rfl
  mac := rfl

variable {ps done gone : List Packet} {s : Path}

theorem greedyInput_eq (ps : List Packet) (n : Nat) :
    greedyInput ps n = greedy ps n (trace Path.next start (greedyInput ps) n) :=
  congrArg (greedy ps n) (trace_follow Path.next start (greedy ps) n).symm

/-- What has been taken of the control words. -/
theorem txc_begins {s : Offload} (h : OfmIn.Stage ps s done) : s.txc <+: ctrlOf ps := by
  cases h with
  | idle rest hps state txc =>
      rw [txc, hps, ctrlOf, ctrlOf, List.flatMap_append]
      exact List.prefix_append _ _
  | ctrl q rest hps state k hk txc =>
      rw [txc, hps, ctrlOf, ctrlOf, List.flatMap_append, List.prefix_append_right_inj]
      exact (List.take_prefix k q.ctrl).trans (List.prefix_append _ _)
  | wait q rest hps state txc =>
      rw [txc, hps, ctrlOf, ctrlOf, List.flatMap_append, List.prefix_append_right_inj]
      exact List.prefix_append _ _
  | data q rest hps state pre post hbeats hpost txc =>
      rw [txc, hps, ctrlOf, ctrlOf, List.flatMap_append, List.prefix_append_right_inj]
      exact List.prefix_append _ _

/-- The next word of a stream continues what was taken of it. -/
theorem snoc_begins {α : Type} {taken stream : List α} {x : α} (h : taken <+: stream)
    (hlt : taken.length < stream.length) :
    taken ++ [stream.getD taken.length x] <+: stream := by
  rcases h with ⟨rest, rfl⟩
  cases rest with
  | nil =>
      rw [List.append_nil] at hlt
      exact absurd hlt (Nat.lt_irrefl _)
  | cons y rest =>
      rw [List.getD_eq_getElem?_getD, List.getElem?_append_right (Nat.le_refl _), Nat.sub_self,
        List.getElem?_cons_zero, Option.getD_some, List.prefix_append_right_inj]
      exact List.prefix_append [y] rest

theorem greedy_offering (n : Nat) (h : Carried ps s done gone) :
    Offering ps s (greedy ps n s) := by
  unfold greedy
  split
  · refine ⟨fun hv => ?_, fun hv => ?_⟩
    · exact snoc_begins (txc_begins h.mm2s.stage) (of_decide_eq_true hv)
    · exact snoc_begins (OfmIn.txd_eq h.mm2s.stage).2.1 (of_decide_eq_true hv)
  · exact trivial

theorem greedy_carried (ps : List Packet) (n : Nat) :
    ∃ done gone, Carried ps (trace Path.next start (greedyInput ps) n) done gone := by
  refine trace_inv (P := fun s => ∃ done gone, Carried ps s done gone)
    ⟨[], [], afterReset_carried ps start_afterReset⟩ (fun k hs => ?_) n
  rcases hs with ⟨done, gone, hs⟩
  rw [greedyInput_eq]
  exact step_carried hs (greedy_offering k hs)

theorem greedy_surroundings (ps : List Packet) (n : Nat) :
    Surroundings ps 0 start (greedyInput ps) n := by
  rcases greedy_carried ps n with ⟨done, gone, hs⟩
  refine ⟨?_, fun c hc => ?_, fun c hc => ?_⟩
  · rw [greedyInput_eq]
    exact greedy_offering n hs
  · rw [greedyInput_eq, greedy] at hc
    split at hc
    · rw [← Event.mm2sClk.inj hc]
      exact reflects_now
    · exact absurd hc Event.noConfusion
  · rw [greedyInput_eq, greedy] at hc
    split at hc
    · exact absurd hc Event.noConfusion
    · rw [← Event.txClk.inj hc]
      exact reflects_now

/-- A packet of six beats and one of four. -/
def twoPackets : List Packet := [packetOf 4, packetOf 2]

/-- Both get through to the MAC. -/
theorem transmit_never_overflows_twoPackets :
    (trace Path.next start (greedyInput twoPackets) 90).mac.length = 10 ∧
      NoOverflow (trace Path.next start (greedyInput twoPackets) 90) := by
  refine ⟨?_, transmit_never_overflows (n := 6) (d := 0) (by decide) (fun p hp => ?_)
    start_afterReset 90 fun k _ => greedy_surroundings _ k⟩
  · rw [show trace Path.next start (greedyInput twoPackets) 90 = _ from
      trace_follow Path.next start (greedy twoPackets) 90]
    decide +kernel
  · rcases List.mem_pair.mp hp with rfl | rfl
    · exact Nat.le_refl 6
    · exact (by decide : 4 ≤ 6)

/-- Two ticks inside the long packet: a beat is taken. -/
theorem long_goes_on {n : Nat} (heven : n % 2 = 0)
    (hstate : (trace Path.next start (greedyInput [long]) n).mm2s.fsm.state = .data)
    (hlt : (trace Path.next start (greedyInput [long]) n).mm2s.txd.length < 1124) :
    (trace Path.next start (greedyInput [long]) (n + 2)).mm2s.fsm.state = .data ∧
      (trace Path.next start (greedyInput [long]) (n + 2)).mm2s.txd.length =
        (trace Path.next start (greedyInput [long]) n).mm2s.txd.length + 1 := by
  generalize hs : trace Path.next start (greedyInput [long]) n = s at hstate hlt
  have hbeats : beatsOf [long] = List.replicate 1124 ⟨0, 0xFF, false⟩ ++ [⟨0, 0x0F, true⟩] :=
    beatsOf_singleton long
  -- At the even tick the stream clock, at the odd one the transmit clock.
  have hnext : (trace Path.next start (greedyInput [long]) (n + 2)).mm2s =
      (s.next (greedy [long] n s)).mm2s := by
    have hodd : ¬ (n + 1) % 2 = 0 := by omega
    rw [trace, greedyInput_eq, greedy, if_neg hodd, trace, greedyInput_eq, hs]
    rfl
  have hvalid : s.mm2s.txd.length < (beatsOf [long]).length := by
    rw [hbeats, List.length_append, List.length_replicate]
    omega
  have hbeat : (beatsOf [long]).getD s.mm2s.txd.length ⟨0, 0, false⟩ = ⟨0, 0xFF, false⟩ := by
    rw [hbeats, List.getD_eq_getElem?_getD,
      List.getElem?_append_left (by rw [List.length_replicate]; exact hlt),
      List.getElem?_replicate, if_pos hlt, Option.getD_some]
  rw [hnext, greedy, if_pos heven]
  simp only [Path.next, Path.input, Offload.next, OfmIn.next, OfmIn.stateNs, Offload.input,
    OfmIn.txdTakes, OfmIn.txdTready, hstate, hbeat, decide_eq_true hvalid, Bool.and_false,
    Bool.and_true, Bool.false_eq_true, if_false, beq_self_eq_true, if_true, List.length_append,
    List.length_singleton, and_self]

/-- The long packet is taken beat by beat. -/
theorem long_taken (i : Nat) (hi : i ≤ 1124) :
    (trace Path.next start (greedyInput [long]) (16 + 2 * i)).mm2s.fsm.state = .data ∧
      (trace Path.next start (greedyInput [long]) (16 + 2 * i)).mm2s.txd.length = i := by
  induction i with
  | zero =>
      rw [show trace Path.next start (greedyInput [long]) (16 + 2 * 0) = _ from
        trace_follow Path.next start (greedy [long]) 16]
      decide +kernel
  | succ i ih =>
      rcases ih (by omega) with ⟨hstate, hlen⟩
      have hstep := long_goes_on (n := 16 + 2 * i) (by omega) hstate (by omega)
      rw [hlen] at hstep
      exact hstep

/-- Nothing is read while the first packet is being taken. -/
theorem reads_of_first {p : Packet} (h : Carried [p] s done gone)
    (hstate : s.mm2s.fsm.state = .data) : dataReads s.tx = 0 := by
  -- No packet is complete, so there is no entry.
  have hnone : s.mm2s.ctrlFed = [] := by
    have hage := OfmIn.age_of_data h.mm2s.stage hstate
    have hdone : done = [] := by
      cases h.mm2s.stage with
      | idle rest hps state => exact absurd (hstate.symm.trans state) (by decide)
      | ctrl q rest hps state => exact absurd (hstate.symm.trans state) (by decide)
      | wait q rest hps state => exact absurd (hstate.symm.trans state) (by decide)
      | data q rest hps state =>
          have hlen := congrArg List.length hps
          rw [List.length_singleton, List.length_append, List.length_cons] at hlen
          exact List.eq_nil_of_length_eq_zero (by omega)
    rw [h.mm2s.settled (by omega), hdone]
    rfl
  have hfed : s.tx.fedCtrl.length = 0 := by
    have hle := h.ctrl.length_le
    rw [hnone, List.length_nil] at hle
    omega
  have hempty (hctrl : s.tx.fedCtrl.length = gone.length + s.tx.ctrlFifo.length) :
      gone = [] ∧ s.tx.ctrlFifo = [] :=
    ⟨List.eq_nil_of_length_eq_zero (by omega), List.eq_nil_of_length_eq_zero (by omega)⟩
  cases h.tx with
  | idle rest hps state data ctrl =>
      rw [reads_of_data data, (hempty ctrl).1]
      rfl
  | sof rest hps state data ctrl entry => exact absurd (hempty ctrl).2 entry
  | data q rest hps state pre post hbeats hpost data ctrl entry =>
      exact absurd (hempty ctrl).2 entry
  | eof q rest hps state data ctrl entry => exact absurd (hempty ctrl).2 entry

/-- Packets of at most 8996 bytes do overflow the data FIFO, even with flags that
    are not late. -/
theorem long_packet_overflows :
    ¬ ∀ (ps : List Packet) (s0 : Path) (inp : Nat → Event) (m : Nat),
      (∀ p, p ∈ ps → byteCount p.beats ≤ 8982 + 14) → AfterReset s0 →
        (∀ k, k < m → Surroundings ps 0 s0 inp k) → NoOverflow (trace Path.next s0 inp m) := by
  intro hall
  have hbytes : ∀ p, p ∈ [long] → byteCount p.beats ≤ 8982 + 14 := by
    intro p hp
    rw [List.mem_singleton.mp hp]
    decide +kernel
  -- After 600 beats nothing has been read, and the FIFO has room for 512.
  have hno := hall [long] start (greedyInput [long]) (16 + 2 * 600) hbytes start_afterReset
    fun k _ => greedy_surroundings [long] k
  rcases greedy_carried [long] (16 + 2 * 600) with ⟨done, gone, hs⟩
  rcases long_taken 600 (by decide) with ⟨hstate, hlen⟩
  have hreads := reads_of_first hs hstate
  have hwritten := congrArg List.length hs.mm2s.written
  have hport := OfmIn.dataWriting_length
    (trace Path.next start (greedyInput [long]) (16 + 2 * 600)).mm2s.fsm
  rw [Offload.written, List.length_append, hlen] at hwritten
  have hdata := hno.data
  omega

end Greedy

end OfmBounds

end Eth

end Ml605
