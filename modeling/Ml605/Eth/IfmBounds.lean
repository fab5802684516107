import Ml605.Lib.Lag
import Ml605.Eth.SmallFifo
import Ml605.Eth.IfmCount
import Ml605.Eth.IfmPath

/-!
# The Receive FIFOs do not Overflow

The input side looks at the flags of its two FIFOs when a frame starts, the
output side at that of the good FIFO before it copies one, and nobody looks at
the control FIFO. A frame that has been started is written to its end. So the
room above a threshold has to take a whole frame, and for the rest:

* The info FIFO has an entry for each frame in the data FIFO and at most one
  more, and a frame has at least eight beats.
* The control FIFO has six words for each frame in the good FIFO, since the
  status of a frame leaves before its beats.

The flags of the vendor's FIFOs may be late by some cycles. The info FIFO is
`small_async_fifo`, and its flag is the register of the source. The FIFOs of the
model have no bound of their own; the theorem says that they keep the real one.

One thing more is needed. The output side starts a copy on an entry of the info
FIFO and then reads the data FIFO without looking whether it is empty. If the
words of the frame have not come through by then, it writes whatever the data
FIFO shows to the good FIFO, cycle by cycle, and that overflows.

## Main definitions

* `Sys`, `Sys.next`: The receive path with the flag of the info FIFO.
* `FrameBytes`: The MAC sends frames of 60 to 1518 bytes.
* `Surroundings`: What is assumed of the inputs.
* `Readable`: The output side finds a word in the data FIFO when it reads one.
* `NoOverflow`: No FIFO holds more than its depth.
* `Bounded`: How full the FIFOs are, frame by frame.

## Theorems

* `rxClk_bounded`, `s2mmClk_bounded`: Either clock keeps the bounds.
* `never_overflows`: No FIFO ever overflows.
* `late_words_overflow`: The good FIFO does, if the words of a frame come through
  long after its entry.
-/

namespace Ml605

namespace Eth

namespace IfmBounds

open Lib IfmIn Ifm IfmPath

/-- The receive path with the write side of the info FIFO. -/
structure Sys where
  path : Path
  info : SmallFifo.WriteSide

namespace Sys

/-- The flag of the info FIFO is not an input any more. -/
def input (s : Sys) (i : IfmIn.Input) : IfmIn.Input := { i with infoFifoWfull := s.info.wfull }

/-- A tick of one of the clocks. -/
def next (s : Sys) : Event → Sys
  | .rxClk i =>
      { path := s.path.next (.rxClk (s.input i))
        info := s.info.next 9 s.path.mac.regs.infoFifoWren (infoReads s.path.rx) }
  | .s2mmClk c => { s with path := s.path.next (.s2mmClk c) }

end Sys

/-- Both sides after reset. -/
structure AfterReset (s : Sys) : Prop where
  path : IfmPath.AfterReset s.path
  info : s.info = SmallFifo.reset

/-- A beat that fits a frame of 60 to 1518 bytes: the beats before the last one
    are full. -/
def FrameBytes (s : Watch) (i : IfmIn.Input) : Prop :=
  i.tvalid = true →
    if i.tlast then ∃ n, 1 ≤ n ∧ n ≤ 8 ∧ i.tkeep = keepOf n ∧
      60 ≤ 8 * s.seen.length + n ∧ 8 * s.seen.length + n ≤ 1518
    else i.tkeep = keepOf 8 ∧ 8 * (s.seen.length + 1) < 1518

/-- What is known at a tick, the flags of the FIFOs being late by `d` words. -/
def Granted (d : Nat) (s : Sys) : Event → Prop
  | .rxClk i => FrameBytes s.path.mac i ∧
      (i.dataFifoAfull = false → s.path.mac.dataFed.length < dataReads s.path.rx + 1536 + d)
  | .s2mmClk c => Ready s.path ∧
      (c.goodFifoAfull = false → s.path.rx.goodFed.length < goodReads s.path.rx + 256 + d)

/-- No FIFO holds more than its depth: words written less words read for the
    FIFOs between the clocks. -/
structure NoOverflow (s : Sys) : Prop where
  data : s.path.mac.dataFed.length - dataReads s.path.rx ≤ 2048
  info : s.path.mac.infoFed.length - infoReads s.path.rx ≤ 512
  good : s.path.rx.goodFifo.length ≤ 512
  ctrl : s.path.rx.ctrlFifo.length ≤ 512

/-- How full the FIFOs are. While a frame is written, what came before it is
    below the threshold, and so is what was before a frame that is copied. -/
structure Bounded (d : Nat) (s : Sys) : Prop where
  carried : Carried s.path
  sized : ∀ f, f ∈ s.path.mac.accepted → 7 ≤ f.body.length ∧ f.body.length ≤ 189
  seen : s.path.mac.seen.length ≤ 189
  room : ∀ ws, s.path.mac.current = some (true, ws) →
    (beatsOf s.path.packets).length ≤ dataReads s.path.rx + 1536 + d
  data : (beatsOf s.path.packets).length ≤ dataReads s.path.rx + 1726 + d
  copy : s.path.rx.fsm.state = .wait ∨ s.path.rx.fsm.infoFifoRden = true →
    upTo s.path.packets (infoReads s.path.rx) ≤ goodReads s.path.rx + 255 + d
  good : upTo s.path.packets (infoReads s.path.rx) ≤ goodReads s.path.rx + 445 + d
  wbin : s.info.wbin = s.path.mac.infoFed.length
  wfull : s.info.wfull = false
  wq1 : s.path.mac.infoFed.length ≤ s.info.wq1Rptr + 226
  wq2 : s.path.mac.infoFed.length ≤ s.info.wq2Rptr + 227

section Bounds

variable {d : Nat} {s : Sys}

theorem sized_packets (h : Bounded d s) : Sized s.path.packets := by
  intro p hp
  rcases List.mem_map.mp hp with ⟨f, hf, rfl⟩
  have hsize := h.sized f hf
  have hlen : (packet f).beats.length = f.body.length + 1 := by
    simp only [packet, MacFrame.beats, List.length_append, List.length_map, List.length_singleton]
  omega

/-- What is written to the data FIFO and not read. -/
theorem dataFed_le (h : Bounded d s) :
    s.path.mac.dataFed.length ≤ dataReads s.path.rx + 1726 + d := by
  have hlen := (dataFed_begins h.carried.exact).length_le
  have hdata := h.data
  rw [List.length_append] at hlen
  rcases hcur : s.path.mac.current with _ | ⟨_ | _, ws⟩
  · simp only [Watch.inProgress, hcur, List.length_nil] at hlen
    omega
  · simp only [Watch.inProgress, hcur, List.length_nil] at hlen
    omega
  · have hroom := h.room ws hcur
    have hseen := h.seen
    simp only [Watch.seen, hcur, Option.map_some, Option.getD_some] at hseen
    simp only [Watch.inProgress, hcur, List.length_map] at hlen
    omega

/-- An entry for each frame that is in the data FIFO, and one more. -/
theorem infoFed_le (hd : d ≤ 67) (h : Bounded d s) :
    s.path.mac.infoFed.length ≤ infoReads s.path.rx + 225 := by
  have hcount := (infoFed_begins h.carried.exact).length_le
  have hbehind := (h.carried.exact.behind _ (Nat.le_refl _)).length_le
  have hdata := dataFed_le h
  have hsized := sized_packets h
  rw [dataReads_eq h.carried.rx.1] at hdata
  rw [entriesOf, List.length_map] at hcount
  have hwritten : upTo s.path.packets s.path.mac.infoFed.length ≤ s.path.mac.dataFed.length := by
    rw [upTo, Path.packets, ← List.map_take, beatsOf_macFrames]
    exact hbehind
  rcases stage_position h.carried.rx.1.stage with ⟨m, hout | hin⟩
  · have hfront := hout.front
    rw [hout.reads]
    by_cases hle : s.path.mac.infoFed.length ≤ m
    · omega
    · have hgap := upTo_gap hsized (a := m) (by omega) hcount
      omega
  · have hhi := hin.hi
    rw [hin.reads]
    by_cases hle : s.path.mac.infoFed.length ≤ m + 1
    · omega
    · have hgap := upTo_gap hsized (a := m + 1) (by omega) hcount
      omega

/-- What has been copied is not far ahead of what has left. -/
theorem front_le (h : Bounded d s) :
    (front s.path.rx).length ≤ goodReads s.path.rx + 445 + d := by
  have hgood := h.good
  rcases stage_position h.carried.rx.1.stage with ⟨m, hout | hin⟩
  · rw [hout.reads, ← hout.front] at hgood
    exact hgood
  · have hnext := upTo_succ_le (sized_packets h) hin.lt
    have hhi := hin.hi
    have hcopy := h.copy (inside_copies hin)
    rw [hin.reads] at hcopy
    omega

/-- The bounds are within the depths. -/
theorem noOverflow_of_bounded (hd : d ≤ 67) (h : Bounded d s) : NoOverflow s := by
  have hdata := dataFed_le h
  have hinfo := infoFed_le hd h
  have hfront := front_le h
  have hsized := sized_packets h
  rcases gate_position h.carried.rx.2 with ⟨hgood, a, ha, hreads, hctrl⟩
  rw [front, List.length_append] at hfront
  refine ⟨by omega, by omega, by omega, ?_⟩
  -- Six words for each packet that is through, less those of the packets that have left.
  have hupTo := h.good
  have hthrough : ∃ m, m ≤ s.path.packets.length ∧ infoReads s.path.rx = m ∧
      (status s.path.rx).length ≤ 6 * m := by
    rcases stage_position h.carried.rx.1.stage with ⟨m, hout | hin⟩
    · exact ⟨m, hout.le, hout.reads, hout.status⟩
    · exact ⟨m, Nat.le_of_lt hin.lt, hin.reads, hin.status⟩
  rcases hthrough with ⟨m, hm, hinfoReads, hstatus⟩
  rw [hinfoReads] at hupTo
  rw [status, List.length_append] at hstatus
  by_cases hle : m ≤ a
  · omega
  · have hgap := upTo_gap hsized (a := a) (by omega) hm
    omega

end Bounds

section Steps

variable {d : Nat} {s : Sys} {i : IfmIn.Input} {c : ReadCycle}

/-- A frame of sixty bytes does not end with its first beat. -/
theorem twoBeats_of_frameBytes {w : Watch} (h : FrameBytes w i) : TwoBeats w i := by
  intro hnone hv
  by_contra hlast
  have hbytes := h hv
  rw [if_pos (Bool.eq_true_of_not_eq_false hlast)] at hbytes
  rcases hbytes with ⟨n, _, hn, _, hlo, _⟩
  rw [Watch.seen, hnone] at hlo
  simp only [Option.map_none, Option.getD_none, List.length_nil] at hlo
  omega

/-- A frame that ends has 8 to 190 beats. -/
theorem seen_of_last {w : Watch} (h : FrameBytes w i) (hv : i.tvalid = true)
    (hlast : i.tlast = true) : 7 ≤ w.seen.length ∧ w.seen.length ≤ 189 := by
  have hbytes := h hv
  rw [if_pos hlast] at hbytes
  rcases hbytes with ⟨n, _, _, _, _, _⟩
  omega

theorem seen_next {w : Watch} (h : FrameBytes w i) (hseen : w.seen.length ≤ 189) :
    (w.next i).seen.length ≤ 189 := by
  cases hv : i.tvalid with
  | false =>
      simp only [Watch.seen, Watch.next, hv, Bool.false_eq_true, if_false] at hseen ⊢
      exact hseen
  | true =>
      cases hlast : i.tlast with
      | true =>
          simp only [Watch.seen, Watch.next, hv, hlast, if_true, Option.map_none, Option.getD_none,
            List.length_nil]
          omega
      | false =>
          have hbytes := h hv
          rw [hlast, if_neg Bool.false_ne_true] at hbytes
          have hnext : (w.next i).seen.length = w.seen.length + 1 := by
            simp only [Watch.seen, Watch.next, hv, hlast, if_true, Bool.false_eq_true, if_false,
              Option.map_some, Option.getD_some, List.length_append, List.length_singleton]
          omega

theorem sized_next {w : Watch} (h : FrameBytes w i)
    (hsized : ∀ f, f ∈ w.accepted → 7 ≤ f.body.length ∧ f.body.length ≤ 189) :
    ∀ f, f ∈ (w.next i).accepted → 7 ≤ f.body.length ∧ f.body.length ≤ 189 := by
  intro f hf
  rw [accepted_next, List.mem_append] at hf
  rcases hf with hf | hf
  · exact hsized f hf
  · cases hend : i.tvalid && i.tlast && w.verdict i with
    | false =>
        rw [hend, if_neg Bool.false_ne_true] at hf
        exact absurd hf List.not_mem_nil
    | true =>
        rw [hend, if_pos rfl, List.mem_singleton] at hf
        rw [Bool.and_eq_true, Bool.and_eq_true] at hend
        rw [hf]
        exact seen_of_last h hend.1.1 hend.1.2

/-- The beats of the accepted frames grow by those of a frame that ends. -/
theorem beats_next (p : Path) (i : IfmIn.Input) :
    (beatsOf (p.next (.rxClk i)).packets).length = (beatsOf p.packets).length +
      if i.tvalid && i.tlast && p.mac.verdict i then p.mac.seen.length + 1 else 0 := by
  have hpackets : (p.next (.rxClk i)).packets = (p.mac.next i).accepted.map packet := rfl
  rw [hpackets, accepted_next, List.map_append, beatsOf_append, List.length_append, Path.packets]
  cases i.tvalid && i.tlast && p.mac.verdict i with
  | false => rfl
  | true =>
      simp only [if_true, List.map_cons, List.map_nil, beatsOf, List.flatMap_cons,
        List.flatMap_nil, List.append_nil, packet, MacFrame.beats, List.length_append,
        List.length_map, List.length_singleton]

/-- A frame that is being accepted was started below the threshold. -/
theorem room_next (h : Bounded d s) (hi : Granted d s (.rxClk i)) (ws : List Word)
    (hcur : (s.next (.rxClk i)).path.mac.current = some (true, ws)) :
    (beatsOf (s.next (.rxClk i)).path.packets).length ≤ dataReads s.path.rx + 1536 + d := by
  have hcur' : (s.path.mac.next (s.input i)).current = some (true, ws) := hcur
  have hlen := beats_next s.path (s.input i)
  rw [Sys.next, hlen]
  cases hv : (s.input i).tvalid with
  | false =>
      simp only [Watch.next, hv, Bool.false_eq_true, if_false] at hcur'
      have hroom := h.room ws hcur'
      simp only [Bool.false_and, Bool.false_eq_true, if_false]
      omega
  | true =>
      cases hlast : (s.input i).tlast with
      | true => simp [Watch.next, hv, hlast] at hcur'
      | false =>
          simp only [Watch.next, hv, hlast, if_true, Bool.false_eq_true, if_false,
            Option.some.injEq, Prod.mk.injEq] at hcur'
          simp only [Bool.and_false, Bool.false_and, Bool.false_eq_true, if_false]
          rcases hc : s.path.mac.current with _ | ⟨v, ws0⟩
          · -- The first beat: the flag was low, and a word may be on the write port.
            have haccept : accepts (s.input i) = true := by
              have hok := hcur'.1
              simp only [Watch.verdict, hc, Option.map_none, Option.getD_none] at hok
              exact hok
            simp only [accepts, Bool.not_eq_true', Bool.or_eq_false_iff] at haccept
            have hflag := hi.2 haccept.1
            have hdata := congrArg List.length h.carried.exact.data
            have hport : (dataWriting s.path.mac.regs).length ≤ 1 := by
              unfold dataWriting
              split_ifs
              · exact Nat.le_refl 1
              · exact Nat.zero_le 1
            rw [Watch.written, Watch.inProgress, hc, List.length_append, List.append_nil,
              ← beatsOf_macFrames] at hdata
            unfold Path.packets
            omega
          · have hok := hcur'.1
            simp only [Watch.verdict, hc, Option.map_some, Option.getD_some] at hok
            have hroom := h.room ws0 (by rw [hc, hok])
            omega

/-- A frame that ends fits above the threshold. -/
theorem data_next (h : Bounded d s) (hi : Granted d s (.rxClk i)) :
    (beatsOf (s.next (.rxClk i)).path.packets).length ≤ dataReads s.path.rx + 1726 + d := by
  have hlen := beats_next s.path (s.input i)
  have hdata := h.data
  rw [Sys.next, hlen]
  cases hend : (s.input i).tvalid && (s.input i).tlast && s.path.mac.verdict (s.input i) with
  | false =>
      rw [if_neg Bool.false_ne_true]
      omega
  | true =>
      rw [Bool.and_eq_true, Bool.and_eq_true] at hend
      have hsize := seen_of_last hi.1 hend.1.1 hend.1.2
      rw [if_pos rfl]
      rcases hc : s.path.mac.current with _ | ⟨v, ws⟩
      · exact absurd (twoBeats_of_frameBytes hi.1 hc hend.1.1)
          (by rw [show i.tlast = true from hend.1.2]; exact Bool.noConfusion)
      · have hok := hend.2
        simp only [Watch.verdict, hc, Option.map_some, Option.getD_some] at hok
        have hroom := h.room ws (by rw [hc, hok])
        omega

/-- A tick of the receive clock keeps the bounds. -/
theorem rxClk_bounded (hd : d ≤ 67) (h : Bounded d s) (hi : Granted d s (.rxClk i)) :
    Bounded d (s.next (.rxClk i)) := by
  have htwo : TwoBeats s.path.mac (s.input i) := twoBeats_of_frameBytes hi.1
  have hstray : ¬ Stray s.path.mac (s.input i) := by
    rintro ⟨_, _, hfull, _⟩
    exact absurd (h.wfull.symm.trans hfull) Bool.false_ne_true
  have hcarried : Carried (s.next (.rxClk i)).path := rxClk_carried h.carried htwo hstray
  have hinfo := infoFed_le hd h
  -- The info FIFO takes what is on its write port, since it is not full.
  have hwrites : (s.next (.rxClk i)).path.mac.infoFed.length =
      s.info.wbinnext s.path.mac.regs.infoFifoWren := by
    have hfed : (s.next (.rxClk i)).path.mac.infoFed =
        s.path.mac.infoFed ++ infoWriting s.path.mac.regs := rfl
    rw [hfed, List.length_append, SmallFifo.WriteSide.wbinnext, h.wbin, h.wfull, infoWriting]
    cases s.path.mac.regs.infoFifoWren with
    | false => rfl
    | true => rfl
  have hone : s.info.wbinnext s.path.mac.regs.infoFifoWren ≤ s.path.mac.infoFed.length + 1 := by
    rw [SmallFifo.WriteSide.wbinnext, h.wbin]
    split <;> omega
  have hq1 := h.wq1
  have hq2 := h.wq2
  -- The packets that the output side is at are there already.
  rcases packets_next s.path (s.input i) with ⟨qs, hqs⟩
  have hupTo : upTo (s.next (.rxClk i)).path.packets (infoReads s.path.rx) =
      upTo s.path.packets (infoReads s.path.rx) := by
    refine (congrArg (fun ps => upTo ps _) hqs).trans (upTo_append qs ?_)
    have hle := fedInfo_le h.carried
    unfold infoReads
    omega
  refine ⟨hcarried, sized_next hi.1 h.sized, seen_next hi.1 h.seen, room_next h hi,
    data_next h hi, ?_, ?_, hwrites.symm, ?_, ?_, ?_⟩
  · intro hstate
    have hcopy := h.copy hstate
    change upTo (s.next (.rxClk i)).path.packets (infoReads s.path.rx) ≤ _
    rw [hupTo]
    exact hcopy
  · change upTo (s.next (.rxClk i)).path.packets (infoReads s.path.rx) ≤ _
    rw [hupTo]
    exact h.good
  · exact SmallFifo.wfull_next_of_le (by omega)
  · rw [hwrites]
    change _ ≤ infoReads s.path.rx + 226
    omega
  · rw [hwrites]
    change _ ≤ s.info.wq1Rptr + 227
    omega

/-- A packet that is copied was started below the threshold. -/
theorem copy_next (h : Bounded d s) (hc : Granted d s (.s2mmClk c))
    (hstate : (rxNext s.path.rx (s.path.cycle c)).fsm.state = .wait ∨
      (rxNext s.path.rx (s.path.cycle c)).fsm.infoFifoRden = true) :
    upTo s.path.packets (infoReads (rxNext s.path.rx (s.path.cycle c))) ≤
      goodReads s.path.rx + 255 + d := by
  rcases copy_cases (state_ne_drop h.carried.rx.1.stage) hstate with hwait | ⟨hidle, hflag⟩
  · -- No entry is read before the last beat has been.
    have hrden : s.path.rx.fsm.infoFifoRden = false := by
      rcases stage_position h.carried.rx.1.stage with ⟨m, hout | hin⟩
      · exact hout.rden
      · rcases hin.state with hs | hs
        · exact hs.2
        · exact absurd (hwait.symm.trans hs.1) (by decide)
    rw [infoReads_next hrden]
    exact h.copy (Or.inl hwait)
  · have hlow := hc.2 hflag
    rcases stage_position h.carried.rx.1.stage with ⟨m, hout | hin⟩
    · rw [infoReads_next hout.rden, hout.reads, ← hout.front, front, goodWriting, hout.good,
        if_neg Bool.false_ne_true, List.append_nil]
      omega
    · rcases hin.state with hs | hs <;> exact absurd (hidle.symm.trans hs.1) (by decide)

/-- What has been copied stays within reach of the output. -/
theorem good_next (h : Bounded d s) (hc : Granted d s (.s2mmClk c))
    (hnext : Carried (s.path.next (.s2mmClk c))) :
    upTo s.path.packets (infoReads (rxNext s.path.rx (s.path.cycle c))) ≤
      goodReads s.path.rx + 445 + d := by
  have hstage : Stage s.path.packets (rxNext s.path.rx (s.path.cycle c)) := hnext.rx.1.stage
  rcases stage_position hstage with ⟨m, hout | hin⟩
  · -- Between packets nothing was copied in this cycle but the last beat before.
    have hquiet : s.path.rx.fsm.state ≠ .wait := fun hwait => inside_of_wait hwait hout
    rw [hout.reads, ← hout.front, (good_quiet hquiet).2]
    exact front_le h
  · have hcopy := copy_next h hc (inside_copies hin)
    omega

/-- A tick of the stream clock keeps the bounds. -/
theorem s2mmClk_bounded (h : Bounded d s) (hc : Granted d s (.s2mmClk c)) :
    Bounded d (s.next (.s2mmClk c)) := by
  have hcarried : Carried (s.path.next (.s2mmClk c)) := s2mmClk_carried h.carried hc.1
  have hreads : dataReads s.path.rx ≤ dataReads (s.next (.s2mmClk c)).path.rx :=
    dataReads_le s.path.rx _
  have hgoodReads : goodReads s.path.rx ≤ goodReads (s.next (.s2mmClk c)).path.rx :=
    goodReads_le s.path.rx _
  refine ⟨hcarried, h.sized, h.seen, ?_, ?_, ?_, ?_, h.wbin, h.wfull, h.wq1, h.wq2⟩
  · intro ws hcur
    have hroom := h.room ws hcur
    change (beatsOf s.path.packets).length ≤ _
    omega
  · have hdata := h.data
    change (beatsOf s.path.packets).length ≤ _
    omega
  · intro hstate
    exact (copy_next h hc hstate).trans (by omega)
  · exact (good_next h hc hcarried).trans (by omega)

theorem step_bounded {e : Event} (hd : d ≤ 67) (h : Bounded d s) (he : Granted d s e) :
    Bounded d (s.next e) := by
  cases e with
  | rxClk i => exact rxClk_bounded hd h he
  | s2mmClk c => exact s2mmClk_bounded h he

theorem afterReset_bounded (h0 : AfterReset s) : Bounded d s := by
  have hnone : s.path.mac.accepted = [] := by
    rw [Watch.accepted, h0.path.mac.frames]
    rfl
  have hpackets : s.path.packets = [] := by
    rw [Path.packets, hnone]
    rfl
  have hfed : s.path.mac.infoFed.length = 0 := by
    rw [h0.path.mac.infoFed]
    rfl
  have hupTo (n : Nat) : upTo s.path.packets n = 0 := by
    rw [hpackets, upTo, List.take_nil]
    rfl
  have hbeats : (beatsOf s.path.packets).length = 0 := by
    rw [hpackets]
    rfl
  refine ⟨afterReset_carried h0.path, ?_, ?_, ?_, by omega, ?_, ?_, ?_, ?_, by omega, by omega⟩
  · intro f hf
    rw [hnone] at hf
    exact absurd hf List.not_mem_nil
  · rw [Watch.seen, h0.path.mac.current]
    exact Nat.zero_le _
  · intro ws hcur
    rw [h0.path.mac.current] at hcur
    exact absurd hcur.symm (Option.some_ne_none _)
  · intro _
    rw [hupTo]
    omega
  · rw [hupTo]
    omega
  · rw [h0.info, hfed]
    rfl
  · rw [h0.info]
    rfl

end Steps

/-- Whether the receive clock ticks. -/
def rxTick : Event → Bool
  | .rxClk _ => true
  | .s2mmClk _ => false

/-- What is assumed of the inputs: the MAC sends frames of 60 to 1518 bytes, and
    the flags of the data FIFO and of the good FIFO are at most `d` cycles of
    their clocks late. -/
structure Surroundings (d : Nat) (s0 : Sys) (inp : Nat → Event) : Prop where
  frames : ∀ n i, inp n = .rxClk i → FrameBytes (trace Sys.next s0 inp n).path.mac i
  dataFlag : ∀ n i, inp n = .rxClk i → Reflects (fun m => rxTick (inp m))
    (fun m => (trace Sys.next s0 inp m).path.mac.dataFed.length)
    (fun m => dataReads (trace Sys.next s0 inp m).path.rx) 1536 d n i.dataFifoAfull
  goodFlag : ∀ n c, inp n = .s2mmClk c → Reflects (fun m => !rxTick (inp m))
    (fun m => (trace Sys.next s0 inp m).path.rx.goodFed.length)
    (fun m => goodReads (trace Sys.next s0 inp m).path.rx) 256 d n c.goodFifoAfull

/-- Whenever the output side reads the data FIFO, there is a word in it. -/
def Readable (s0 : Sys) (inp : Nat → Event) : Prop :=
  ∀ n c, inp n = .s2mmClk c → Ready (trace Sys.next s0 inp n).path

section Trace

variable {d : Nat} {s0 : Sys} {inp : Nat → Event}

theorem dataFed_grows (s : Sys) (e : Event) : (s.next e).path.mac.dataFed.length ≤
    s.path.mac.dataFed.length + if rxTick e = true then 1 else 0 := by
  cases e with
  | rxClk i =>
      have hfed : (s.next (.rxClk i)).path.mac.dataFed =
          s.path.mac.dataFed ++ dataWriting s.path.mac.regs := rfl
      rw [hfed, List.length_append, dataWriting, rxTick, if_pos rfl]
      split_ifs
      · exact Nat.le_refl _
      · exact Nat.le_add_right _ _
  | s2mmClk c => exact Nat.le_add_right _ _

theorem goodFed_grows (s : Sys) (e : Event) : (s.next e).path.rx.goodFed.length ≤
    s.path.rx.goodFed.length + if (!rxTick e) = true then 1 else 0 := by
  cases e with
  | rxClk i => exact Nat.le_add_right _ _
  | s2mmClk c =>
      have hfed : (s.next (.s2mmClk c)).path.rx.goodFed =
          s.path.rx.goodFed ++ goodWriting s.path.rx.fsm := rfl
      rw [hfed, List.length_append, goodWriting, rxTick, Bool.not_false, if_pos rfl]
      split_ifs
      · exact Nat.le_refl _
      · exact Nat.le_add_right _ _

theorem dataReads_grows (s : Sys) (e : Event) :
    dataReads s.path.rx ≤ dataReads (s.next e).path.rx := by
  cases e with
  | rxClk i => exact Nat.le_refl _
  | s2mmClk c => exact dataReads_le s.path.rx _

theorem goodReads_grows (s : Sys) (e : Event) :
    goodReads s.path.rx ≤ goodReads (s.next e).path.rx := by
  cases e with
  | rxClk i => exact Nat.le_refl _
  | s2mmClk c => exact goodReads_le s.path.rx _

/-- A flag that is late has missed so many words at most. -/
theorem granted_of_surroundings (h : Surroundings d s0 inp) (hr : Readable s0 inp) (n : Nat) :
    Granted d (trace Sys.next s0 inp n) (inp n) := by
  cases he : inp n with
  | rxClk i =>
      refine ⟨h.frames n i he, fun hlow => ?_⟩
      have hflag := h.dataFlag n i he
      rw [hlow] at hflag
      exact lt_of_reflects (fun m => dataFed_grows _ (inp m)) (fun m => dataReads_grows _ (inp m))
        hflag
  | s2mmClk c =>
      refine ⟨hr n c he, fun hlow => ?_⟩
      have hflag := h.goodFlag n c he
      rw [hlow] at hflag
      exact lt_of_reflects (fun m => goodFed_grows _ (inp m)) (fun m => goodReads_grows _ (inp m))
        hflag

/-- Whatever the frames, the relative speed of the clocks and the readiness of
    the two streams: no FIFO ever overflows, as long as the flags are not more
    than 67 cycles late and the output side finds the words it reads. -/
theorem never_overflows (hd : d ≤ 67) (h0 : AfterReset s0) (h : Surroundings d s0 inp)
    (hr : Readable s0 inp) : ∀ n, NoOverflow (trace Sys.next s0 inp n) := by
  have hbounded : ∀ n, Bounded d (trace Sys.next s0 inp n) :=
    trace_inv (afterReset_bounded h0) fun n hn =>
      step_bounded hd hn (granted_of_surroundings h hr n)
  exact fun n => noOverflow_of_bounded hd (hbounded n)

end Trace

/-- A state after reset. -/
def start : Sys := ⟨IfmPath.start, SmallFifo.reset⟩

theorem start_afterReset : AfterReset start := ⟨IfmPath.start_afterReset, rfl⟩

/-- A tick of the receive clock, with the next beat of a frame of 64 bytes if there
    is one. The flag is not late. -/
def macTick (n : Nat) (send : Bool) (s : Sys) : IfmIn.Input :=
  { tdata := BitVec.ofNat 64 n
    tkeep := keepOf 8
    tlast := decide (s.path.mac.seen.length = 7)
    tuser := true
    tvalid := send && decide (s.path.mac.seen.length ≤ 7)
    dataFifoAfull := decide (1536 ≤ s.path.mac.dataFed.length - dataReads s.path.rx)
    wrDataCount := 0
    infoFifoWfull := false }

/-- A tick of the stream clock with everything in sight but the words of the data
    FIFO, of which `data` come into sight. The flag is not late, and the streams
    are taken. -/
def streamTick (data : Nat) (s : Sys) : ReadCycle :=
  { goodFifoAfull := decide (256 ≤ s.path.rx.goodFed.length - goodReads s.path.rx)
    rxsTready := true
    rxdTready := true
    dataSeen := data
    infoSeen := s.path.mac.infoFed.length
    idleData := ⟨0, 0, false⟩
    idleInfo := 0 }

theorem macTick_frameBytes (n : Nat) (send : Bool) (s : Sys) :
    FrameBytes s.path.mac (macTick n send s) := by
  intro hv
  have hle : s.path.mac.seen.length ≤ 7 := of_decide_eq_true (Bool.and_eq_true_iff.mp hv).2
  by_cases hlast : s.path.mac.seen.length = 7
  · have hend : (macTick n send s).tlast = true := decide_eq_true hlast
    rw [if_pos hend]
    exact ⟨8, by omega, by omega, rfl, by omega, by omega⟩
  · have hmore : (macTick n send s).tlast = false := decide_eq_false hlast
    rw [hmore, if_neg Bool.false_ne_true]
    exact ⟨rfl, by omega⟩

/-- Ticks whose flags are not late and whose frames are of 64 bytes. -/
def Plain (s : Sys) : Event → Prop
  | .rxClk i => FrameBytes s.path.mac i ∧
      i.dataFifoAfull = decide (1536 ≤ s.path.mac.dataFed.length - dataReads s.path.rx)
  | .s2mmClk c =>
      c.goodFifoAfull = decide (256 ≤ s.path.rx.goodFed.length - goodReads s.path.rx)

theorem surroundings_of_plain {s0 : Sys} {inp : Nat → Event}
    (h : ∀ n, Plain (trace Sys.next s0 inp n) (inp n)) : Surroundings 0 s0 inp := by
  refine ⟨?_, ?_, ?_⟩
  · intro n i he
    have hn := h n
    rw [he] at hn
    exact hn.1
  · intro n i he
    have hn := h n
    rw [he] at hn
    rw [hn.2]
    exact reflects_now
  · intro n c he
    have hn := h n
    rw [he] at hn
    change c.goodFifoAfull = _ at hn
    rw [hn]
    exact reflects_now

section Busy

/-- The clocks take turns, and the MAC sends frame after frame. What was written
    is seen at once. -/
def busy (n : Nat) (s : Sys) : Event :=
  if n % 2 = 0 then .rxClk (macTick n true s)
  else .s2mmClk (streamTick s.path.mac.dataFed.length s)

theorem busy_plain (n : Nat) (s : Sys) : Plain s (busy n s) := by
  unfold busy
  split
  · exact ⟨macTick_frameBytes n _ s, rfl⟩
  · exact rfl

theorem busy_ready {n : Nat} {s : Sys} (h : Carried s.path) (hready : Ready s.path) :
    Ready (s.next (busy n s)).path := by
  unfold busy
  split
  · exact hready
  · exact (seen_ready h hready (Nat.le_refl _) (Nat.le_refl _)).2

/-- Such surroundings exist. -/
theorem busy_surroundings : ∃ inp, (∀ n, inp n = busy n (trace Sys.next start inp n)) ∧
    Surroundings 0 start inp ∧ Readable start inp := by
  rcases exists_following Sys.next start busy with ⟨inp, hinp⟩
  have hplain (n : Nat) : Plain (trace Sys.next start inp n) (inp n) := by
    rw [hinp n]
    exact busy_plain n _
  have hbounded : ∀ n, Bounded 0 (trace Sys.next start inp n) ∧
      Ready (trace Sys.next start inp n).path := by
    have hstart : Bounded 0 start ∧ Ready start.path :=
      ⟨afterReset_bounded start_afterReset, afterReset_ready start_afterReset.path⟩
    refine trace_inv (P := fun s => Bounded 0 s ∧ Ready s.path) hstart fun n hn => ⟨?_, ?_⟩
    · refine step_bounded (Nat.zero_le _) hn.1 ?_
      have hticks := hplain n
      cases he : inp n with
      | rxClk i =>
          rw [he] at hticks
          refine ⟨hticks.1, fun hlow => ?_⟩
          have hless := of_decide_eq_false (hticks.2.symm.trans hlow)
          omega
      | s2mmClk c =>
          rw [he] at hticks
          refine ⟨hn.2, fun hlow => ?_⟩
          have hless := of_decide_eq_false (Eq.trans (Eq.symm hticks) hlow)
          omega
    · rw [hinp n]
      exact busy_ready hn.1.carried hn.2
  exact ⟨inp, hinp, surroundings_of_plain hplain, fun n _ _ => (hbounded n).2⟩

/-- A receive path that is always busy does not overflow. -/
theorem never_overflows_busy : ∃ inp, (∀ n, inp n = busy n (trace Sys.next start inp n)) ∧
    ∀ n, NoOverflow (trace Sys.next start inp n) := by
  rcases busy_surroundings with ⟨inp, hinp, hsur, hread⟩
  exact ⟨inp, hinp, never_overflows (Nat.zero_le 67) start_afterReset hsur hread⟩

end Busy

section Late

/-- One frame of 64 bytes, and then the stream clock alone. The entry of the frame
    is seen at once, its words after six hundred cycles. -/
def late (n : Nat) (s : Sys) : Event :=
  if n < 9 then .rxClk (macTick n (decide (n < 8)) s)
  else .s2mmClk (streamTick (if n < 609 then 0 else s.path.mac.dataFed.length) s)

theorem late_plain (n : Nat) (s : Sys) : Plain s (late n s) := by
  unfold late
  split
  · exact ⟨macTick_frameBytes n _ s, rfl⟩
  · exact rfl

/-- The copy goes on with nothing in the data FIFO, and `k` words have come of it.
    They stay, since their status is not there. -/
structure Starved (k : Nat) (s : Sys) : Prop where
  state : s.path.rx.fsm.state = .wait
  data : s.path.rx.dataFifo = []
  turn : s.path.rx.readyForData = false
  ctrl : s.path.rx.ctrlFifo = []
  quiet : s.path.rx.fsm.ctrlFifoWren = false
  writes : s.path.rx.fsm.goodFifoWren = true
  good : s.path.rx.goodFifo.length = k

/-- Each cycle without a word from the data FIFO makes one more. -/
theorem starved_next {k : Nat} {s : Sys} (h : Starved k s) :
    Starved (k + 1) (s.next (.s2mmClk (streamTick 0 s))) := by
  have hrxd : rxdTransfer s.path.rx (s.path.cycle (streamTick 0 s)) = none :=
    rxdTransfer_none h.turn
  have hrxs : rxsTransfer s.path.rx (s.path.cycle (streamTick 0 s)) = none := by
    rw [rxsTransfer, h.ctrl, List.head?_nil, ite_self]
  have hport : (ports s.path.rx (s.path.cycle (streamTick 0 s))).dataFifoRdata.last = false := by
    rw [ports, h.data]
    rfl
  refine ⟨?_, ?_, ?_, ?_, ?_, ?_, ?_⟩
  · simp only [Sys.next, Path.next, rxNext, Ifm.next, Ifm.stateNs, h.state, hport,
      Bool.false_eq_true, if_false]
  · simp only [Sys.next, Path.next, rxNext, Path.cycle, streamTick, h.data, List.tail_nil, ite_self,
      List.take_zero, List.append_nil]
  · simp only [Sys.next, Path.next, rxNext, readyNext, hrxd, hrxs, Option.map_none,
      Option.getD_none, Bool.false_eq_true, if_false, h.turn]
  · simp only [Sys.next, Path.next, rxNext, hrxs, Option.isSome_none, Bool.false_eq_true, if_false,
      ctrlWriting, h.quiet, h.ctrl, List.append_nil]
  · simp only [Sys.next, Path.next, rxNext, Ifm.next, h.state, beq_eq_false_iff_ne, ne_eq,
      reduceCtorEq, not_false_eq_true]
  · simp only [Sys.next, Path.next, rxNext, Ifm.next, h.state, BEq.rfl]
  · simp only [Sys.next, Path.next, rxNext, hrxd, Option.isSome_none, Bool.false_eq_true, if_false,
      goodWriting, h.writes, if_true, List.length_append, List.length_singleton, h.good]

/-- Three cycles after the entry came into sight the copy is under way. -/
theorem late_starved {k : Nat} (hk : 12 + k ≤ 609) :
    Starved k (follow Sys.next start late (12 + k)) := by
  induction k with
  | zero => exact ⟨by decide, by decide, by decide, by decide, by decide, by decide, by decide⟩
  | succ k ih =>
      have hnext := starved_next (ih (by omega))
      have hevent : late (12 + k) (follow Sys.next start late (12 + k)) =
          .s2mmClk (streamTick 0 (follow Sys.next start late (12 + k))) := by
        rw [late, if_neg (by omega), if_pos (by omega)]
      rw [← hevent] at hnext
      exact hnext

/-- The good FIFO overflows with one frame in the data FIFO, if the words of the
    frame come through long after its entry. -/
theorem late_words_overflow : AfterReset start ∧
    ∃ inp, (∀ n, inp n = late n (trace Sys.next start inp n)) ∧ Surroundings 0 start inp ∧
      (trace Sys.next start inp 525).path.rx.goodFifo.length = 513 ∧
      ¬ ∀ n, NoOverflow (trace Sys.next start inp n) := by
  rcases exists_following Sys.next start late with ⟨inp, hinp⟩
  have hplain (n : Nat) : Plain (trace Sys.next start inp n) (inp n) := by
    rw [hinp n]
    exact late_plain n _
  have hfollow (n : Nat) : trace Sys.next start inp n = follow Sys.next start late n := by
    induction n with
    | zero => rfl
    | succ n ih => rw [trace, follow, hinp n, ih]
  have hgood : (trace Sys.next start inp 525).path.rx.goodFifo.length = 513 := by
    rw [hfollow 525]
    exact (late_starved (k := 513) (by omega)).good
  refine ⟨start_afterReset, inp, hinp, surroundings_of_plain hplain, hgood, fun hall => ?_⟩
  have hdepth := (hall 525).good
  omega

end Late

end IfmBounds

end Eth

end Ml605
