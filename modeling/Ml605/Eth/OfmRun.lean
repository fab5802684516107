import Ml605.Lib.Fifo
import Ml605.Eth.OfmInsert

/-!
# Runs of the Transmit Output State Machine

Whatever the pace at which packets arrive and the transmit FIFO has room, the
clocked state machine writes what the pass over each frame computes, packet
after packet. The invariant says in which packet and at which beat it is: the
beats before are in the record or on their way to it, the beat in hand is in
`fifo_rdata`, and the byte counter and the hit flag are those of the pass.

Nothing of the previous frame is left over: the counter is loaded and the flag
cleared while the state machine waits for the first beat.

## Main definitions

* `Quiet`, `Busy`: The registers and FIFOs between frames and inside one.
* `Stage`: In which packet the state machine is.
* `work`: The cycles left until everything is written.
* `Inserts`: What the state machine promises for some packets.

## Theorems

* `step_inv`: A clock cycle keeps the invariant.
* `flush_written`: Once everything has arrived it is written.
* `inserts_iff_aligned`: Packets are written as they should be exactly when they
  are aligned.
* `tail_insert_misplaced`: A checksum in a short last beat is not.
-/

namespace Ml605

namespace Eth

namespace Ofm

open Lib

/-- Between frames: no word is in hand, and what has been read is written or
    about to be. -/
structure Quiet (done : List Packet) (t : Tx) : Prop where
  rden : t.fsm.fifoRden = false
  data : t.fedData = stream done ++ t.dataFifo
  ctrl : t.fedCtrl = entries done ++ t.ctrlFifo
  out : t.written ++ writing t.fsm = emitted done

/-- Inside the frame of `p`, with `pre` behind and `x` in hand. -/
structure Busy (done : List Packet) (p : Packet) (pre : List Beat) (x : Beat) (t : Tx) : Prop where
  rden : t.fsm.fifoRden = true
  rdata : t.fsm.fifoRdata = x
  bcnt : t.fsm.bcnt = (scan p.cs (pre ++ [x])).bcnt
  hit : t.fsm.insertHitReg = (scan p.cs pre).hit
  data : t.fedData = stream done ++ (pre ++ [x]) ++ t.dataFifo
  ctrl : t.fedCtrl = entries done ++ t.ctrlFifo
  head : t.ctrlFifo.head? = some p.cs
  out : t.written ++ writing t.fsm = emitted done ++ (scan p.cs pre).out

/-- In which packet the state machine is. -/
inductive Stage (ps : List Packet) (t : Tx) : Prop
  | idle (done rest : List Packet) (hps : ps = done ++ rest) (hstate : t.fsm.state = .idle)
      (h : Quiet done t)
  | sof (done : List Packet) (p : Packet) (rest : List Packet) (hps : ps = done ++ p :: rest)
      (hstate : t.fsm.state = .sof) (h : Quiet done t) (hhead : t.ctrlFifo.head? = some p.cs)
  | data (done : List Packet) (p : Packet) (rest : List Packet) (hps : ps = done ++ p :: rest)
      (pre : List Beat) (x : Beat) (post : List Beat) (hbeats : p.frame.beats = pre ++ x :: post)
      (hpost : post ≠ []) (hstate : t.fsm.state = .data) (h : Busy done p pre x t)
  | eof (done : List Packet) (p : Packet) (rest : List Packet) (hps : ps = done ++ p :: rest)
      (pre : List Beat) (x : Beat) (hbeats : p.frame.beats = pre ++ [x])
      (hstate : t.fsm.state = .eof) (h : Busy done p pre x t)

/-- The invariant: where the state machine is, and that only packets arrive. -/
structure Inv (ps : List Packet) (t : Tx) : Prop where
  stage : Stage ps t
  data : t.fedData <+: stream ps
  ctrl : t.fedCtrl <+: entries ps

section Streams

variable {done rest : List Packet} {p : Packet}

theorem stream_append (done rest : List Packet) :
    stream (done ++ rest) = stream done ++ stream rest := List.flatMap_append

theorem stream_cons (p : Packet) (rest : List Packet) :
    stream (p :: rest) = p.frame.beats ++ stream rest := rfl

theorem entries_append (done rest : List Packet) :
    entries (done ++ rest) = entries done ++ entries rest := List.map_append

theorem emitted_snoc (done : List Packet) (p : Packet) :
    emitted (done ++ [p]) = emitted done ++ (scan p.cs p.frame.beats).out := by
  simp only [emitted, List.flatMap_append, List.flatMap_cons, List.flatMap_nil, List.append_nil]

end Streams

section Step

variable {ps done rest : List Packet} {p : Packet} {pre post : List Beat} {x : Beat}
  {t : Tx} {c : Cycle}

/-- With the entry of `p` at the front, its fields are what the ports show. -/
theorem ports_ctrl (hhead : t.ctrlFifo.head? = some p.cs) : (ports t c).ctrlFifoRdata = p.cs := by
  simp only [ports, List.headD_eq_head?_getD, hhead, Option.getD_some]

/-- A cycle that reads nothing between frames. -/
theorem quiet_next (h : Quiet done t) (hrd : dataFifoRden t.fsm (ports t c) = false)
    (heof : t.fsm.state ≠ .eof) : Quiet done (txNext t c) := by
  have hce : ctrlFifoRden t.fsm = false := by
    rw [ctrlFifoRden, beq_false_of_ne heof]
  refine ⟨hrd, fifo_kept h.data hrd, fifo_kept h.ctrl hce, ?_⟩
  · -- The word in `tx_fifo_wdata` is taken and no other follows.
    simp only [txNext, next, writing, h.rden, Bool.false_eq_true, if_false, List.append_nil]
    exact h.out

/-- With a word in hand, the flag and the record follow the pass. -/
theorem busy_next (h : Busy done p pre x t) (hstate : t.fsm.state ≠ .sof) :
    (txNext t c).fsm.insertHitReg = (scan p.cs (pre ++ [x])).hit ∧
      (txNext t c).written ++ writing (txNext t c).fsm =
        emitted done ++ (scan p.cs (pre ++ [x])).out := by
  have hbcnt : t.fsm.bcnt = (scan p.cs pre).bcnt + (keepToCnt x.keep).setWidth 16 := by
    rw [h.bcnt, scan_snoc]
    rfl
  constructor
  · simp only [txNext, next, if_neg hstate, ports_ctrl h.head, hbcnt, h.hit, scan_snoc, Scan.take]
    cases (scan p.cs pre).hit with
    | false => rfl
    | true => rfl
  · have hrecord : (txNext t c).written = emitted done ++ (scan p.cs pre).out := h.out
    rw [hrecord, scan_snoc]
    simp only [txNext, next, writing, h.rden, if_true, ports_ctrl h.head, hbcnt, h.hit, h.rdata,
      Scan.take, List.append_assoc]

/-- From the idle state an entry starts a frame. -/
theorem step_idle (hinv : Inv ps t) (hps : ps = done ++ rest) (hstate : t.fsm.state = .idle)
    (h : Quiet done t) : Stage ps (txNext t c) := by
  have hrd : dataFifoRden t.fsm (ports t c) = false := by rw [dataFifoRden, hstate]; rfl
  have hq : Quiet done (txNext t c) := quiet_next h hrd (by rw [hstate]; exact State.noConfusion)
  have hcontinues : t.ctrlFifo <+: entries rest := by
    refine fifo_continues h.ctrl ?_
    rw [← entries_append, ← hps]
    exact hinv.ctrl
  cases hfifo : t.ctrlFifo with
  | nil =>
      refine .idle done rest hps ?_ hq
      simp only [txNext, next, stateNs, hstate, ports, hfifo, List.isEmpty_nil, Bool.not_true,
        Bool.false_eq_true, if_false]
  | cons e es =>
      -- The entry is that of the next packet.
      rw [hfifo] at hcontinues
      cases rest with
      | nil => exact absurd (List.prefix_nil.mp hcontinues) (List.cons_ne_nil e es)
      | cons p rest =>
          have he : e = p.cs := (List.cons_prefix_cons.mp hcontinues).1
          refine .sof done p rest hps ?_ hq ?_
          · simp only [txNext, next, stateNs, hstate, ports, hfifo, List.isEmpty_cons,
              Bool.not_false, if_true]
          · have hce : ctrlFifoRden t.fsm = false := by rw [ctrlFifoRden, hstate]; rfl
            exact fifo_head hce (by rw [hfifo, he, List.head?_cons])

/-- The state machine waits for room and for the first beat, and takes it. -/
theorem step_sof (hinv : Inv ps t) (hps : ps = done ++ p :: rest) (hstate : t.fsm.state = .sof)
    (h : Quiet done t) (hhead : t.ctrlFifo.head? = some p.cs) : Stage ps (txNext t c) := by
  have hce : ctrlFifoRden t.fsm = false := by rw [ctrlFifoRden, hstate]; rfl
  have hhead' : (txNext t c).ctrlFifo.head? = some p.cs := fifo_head hce hhead
  have hrd : dataFifoRden t.fsm (ports t c) = (!c.txFifoAfull && !t.dataFifo.isEmpty) := by
    rw [dataFifoRden, hstate]
    exact Bool.or_false _
  cases hgo : !c.txFifoAfull && !t.dataFifo.isEmpty with
  | false =>
      rw [hgo] at hrd
      refine .sof done p rest hps ?_ (quiet_next h hrd (by rw [hstate]; exact State.noConfusion))
        hhead'
      simp only [txNext, next, stateNs, hstate, ports, hgo, Bool.false_eq_true, if_false]
  | true =>
      rw [hgo] at hrd
      rcases p.frame.beats_two (by have hlong := p.long; omega) with ⟨x, post, hbeats, hpost⟩
      have hstream : t.fedData <+: stream done ++ x :: (post ++ stream rest) := by
        have hpre := hinv.data
        rw [hps, stream_append, stream_cons, hbeats, List.cons_append] at hpre
        exact hpre
      cases hfifo : t.dataFifo with
      | nil => exact absurd hgo (by simp [hfifo])
      | cons y ys =>
          have hfirst : t.dataFifo.head? = some y := by rw [hfifo, List.head?_cons]
          rcases fifo_next h.data hstream hfirst with rfl
          refine .data done p rest hps [] y post hbeats hpost ?_ ?_
          · simp only [txNext, next, stateNs, hstate, ports, hgo, if_true]
          · have hport : (ports t c).dataFifoRdata = y := by
              simp only [ports, hfifo, List.headD_cons]
            refine ⟨hrd, hport, ?_, ?_, fifo_taken h.data hrd hfirst, fifo_kept h.ctrl hce, hhead',
              ?_⟩
            · -- The counter is loaded with the first beat.
              simp only [txNext, next, hstate, hport, List.nil_append, scan, List.foldl_cons,
                List.foldl_nil, Scan.take]
              exact (BitVec.zero_add _).symm
            · simp only [txNext, next, hstate, if_true]
              rfl
            · simp only [txNext, next, writing, h.rden, Bool.false_eq_true, if_false,
                List.append_nil]
              exact h.out.trans (List.append_nil _).symm

/-- Inside a frame every cycle takes the next beat. -/
theorem step_data (hinv : Inv ps t) (hps : ps = done ++ p :: rest)
    (hbeats : p.frame.beats = pre ++ x :: post) (hpost : post ≠ []) (hstate : t.fsm.state = .data)
    (hready : t.dataFifo ≠ []) (h : Busy done p pre x t) : Stage ps (txNext t c) := by
  have hce : ctrlFifoRden t.fsm = false := by rw [ctrlFifoRden, hstate]; rfl
  have hrd : dataFifoRden t.fsm (ports t c) = !t.dataFifo.isEmpty := by
    rw [dataFifoRden, hstate]
    exact Bool.false_or _
  have hbusy := busy_next h (c := c) (by rw [hstate]; exact State.noConfusion)
  have hbeats' : p.frame.beats = (pre ++ [x]) ++ post := by
    rw [hbeats, List.append_assoc, List.singleton_append]
  have hstream : t.fedData <+: stream done ++ (pre ++ [x]) ++ (post ++ stream rest) := by
    have hpre := hinv.data
    rw [hps, stream_append, stream_cons, hbeats', List.append_assoc, ← List.append_assoc] at hpre
    exact hpre
  cases hfifo : t.dataFifo with
  | nil => exact absurd hfifo hready
  | cons y ys =>
      -- The word at the front of the FIFO is the next beat of the frame.
      cases post with
      | nil => exact absurd rfl hpost
      | cons z post =>
          have hfirst : t.dataFifo.head? = some y := by rw [hfifo, List.head?_cons]
          rcases fifo_next h.data hstream hfirst with rfl
          have hport : (ports t c).dataFifoRdata = y := by
            simp only [ports, hfifo, List.headD_cons]
          have hnext : Busy done p (pre ++ [x]) y (txNext t c) := by
            rw [hfifo, List.isEmpty_cons, Bool.not_false] at hrd
            refine ⟨hrd, hport, ?_, hbusy.1, ?_, fifo_kept h.ctrl hce, fifo_head hce h.head,
              hbusy.2⟩
            · rw [scan_snoc]
              simp only [txNext, next, hstate, hport, h.bcnt, Scan.take]
            · rw [← List.append_assoc (stream done)]
              exact fifo_taken h.data hrd hfirst
          have hns : (txNext t c).fsm.state = if y.last then .eof else .data := by
            simp only [txNext, next, stateNs, hstate, hport]
            simp only [ports, hfifo, List.isEmpty_cons, Bool.not_false, Bool.and_true]
          -- The last flag tells the last beat from the others.
          rcases p.frame.beats_split hbeats' with ⟨rfl, rfl, _⟩ | ⟨hmore, _, hlast⟩
          · exact .eof done p rest hps (pre ++ [x]) _ hbeats' hns hnext
          · rw [hlast] at hns
            exact .data done p rest hps (pre ++ [x]) y post hbeats' hmore hns hnext

/-- The end of a frame takes its entry away. -/
theorem step_eof (hps : ps = done ++ p :: rest) (hbeats : p.frame.beats = pre ++ [x])
    (hstate : t.fsm.state = .eof) (h : Busy done p pre x t) : Stage ps (txNext t c) := by
  have hrd : dataFifoRden t.fsm (ports t c) = false := by rw [dataFifoRden, hstate]; rfl
  have hbusy := busy_next h (c := c) (by rw [hstate]; exact State.noConfusion)
  have hps' : ps = (done ++ [p]) ++ rest := by rw [hps, List.append_assoc, List.singleton_append]
  refine .idle (done ++ [p]) rest hps' ?_ ⟨hrd, ?_, ?_, ?_⟩
  · simp only [txNext, next, stateNs, hstate]
  · have hstream : stream (done ++ [p]) = stream done ++ (pre ++ [x]) := by
      rw [stream_append, stream_cons, hbeats]
      exact congrArg _ (List.append_nil _)
    rw [hstream]
    exact fifo_kept h.data hrd
  · have hce : ctrlFifoRden t.fsm = true := by rw [ctrlFifoRden, hstate]; rfl
    rw [entries_append]
    exact fifo_taken h.ctrl hce h.head
  · rw [hbusy.2, emitted_snoc, hbeats]

/-- A clock cycle keeps the invariant. -/
theorem step_inv (hinv : Inv ps t) (hc : Fed ps t c) : Inv ps (txNext t c) := by
  refine ⟨?_, hc.data, hc.ctrl⟩
  rcases hinv.stage with ⟨done, rest, hps, hstate, h⟩ | ⟨done, p, rest, hps, hstate, h, hhead⟩ |
    ⟨done, p, rest, hps, pre, x, post, hbeats, hpost, hstate, h⟩ |
    ⟨done, p, rest, hps, pre, x, hbeats, hstate, h⟩
  · exact step_idle hinv hps hstate h
  · exact step_sof hinv hps hstate h hhead
  · exact step_data hinv hps hbeats hpost hstate (hc.ready hstate) h
  · exact step_eof hps hbeats hstate h

/-- After reset nothing has happened. -/
theorem afterReset_inv (h0 : AfterReset t) : Inv ps t := by
  refine ⟨.idle [] ps rfl h0.state ⟨h0.fifoRden, ?_, ?_, ?_⟩, ?_, ?_⟩
  · rw [h0.fedData, h0.dataFifo]
    rfl
  · rw [h0.fedCtrl, h0.ctrlFifo]
    rfl
  · rw [h0.written, writing, h0.txFifoWren]
    rfl
  · rw [h0.fedData]
    exact List.nil_prefix
  · rw [h0.fedCtrl]
    exact List.nil_prefix

end Step

section Written

variable {ps : List Packet} {t : Tx} {c : Cycle}

theorem scan_out_begins (c : TxCs) (pre post : List Beat) :
    (scan c pre).out <+: (scan c (pre ++ post)).out := by
  induction post using List.reverseRecOn with
  | nil => rw [List.append_nil]
  | append_singleton post y ih =>
      rw [← List.append_assoc, scan_snoc]
      exact ih.trans (List.prefix_append _ _)

/-- What has been written is a beginning of what the passes compute. -/
theorem written_begins (hinv : Inv ps t) : t.written <+: emitted ps := by
  have hmore (done rest : List Packet) : emitted done <+: emitted (done ++ rest) := by
    rw [emitted, emitted, List.flatMap_append]
    exact List.prefix_append _ _
  have hinside (done : List Packet) (p : Packet) (rest : List Packet) (pre post : List Beat)
      (hbeats : p.frame.beats = pre ++ post) :
      emitted done ++ (scan p.cs pre).out <+: emitted (done ++ p :: rest) := by
    have hone := scan_out_begins p.cs pre post
    rw [← hbeats] at hone
    have hsnoc := hmore (done ++ [p]) rest
    rw [emitted_snoc, List.append_assoc, List.singleton_append] at hsnoc
    exact ((List.prefix_append_right_inj _).mpr hone).trans hsnoc
  have hrecord : t.written <+: t.written ++ writing t.fsm := List.prefix_append _ _
  refine hrecord.trans ?_
  rcases hinv.stage with ⟨done, rest, rfl, _, h⟩ | ⟨done, p, rest, rfl, _, h, _⟩ |
    ⟨done, p, rest, rfl, pre, x, post, hbeats, _, _, h⟩ |
    ⟨done, p, rest, rfl, pre, x, hbeats, _, h⟩
  · rw [h.out]
    exact hmore done rest
  · rw [h.out]
    exact hmore done (p :: rest)
  · rw [h.out]
    exact hinside done p rest pre _ hbeats
  · rw [h.out]
    exact hinside done p rest pre _ hbeats

/-- All packets have arrived in the FIFOs. -/
structure Arrived (ps : List Packet) (t : Tx) : Prop where
  data : t.fedData = stream ps
  ctrl : t.fedCtrl = entries ps

/-- The cycles left: a frame takes one for each beat and three more, and the
    last word one. -/
def work (t : Tx) : Nat :=
  match t.fsm.state with
  | .idle => 4 * t.ctrlFifo.length + t.dataFifo.length + (writing t.fsm).length
  | _ => 4 * t.ctrlFifo.length + t.dataFifo.length - 1

theorem writing_length_le (s : OutFsm) : (writing s).length ≤ 1 := by
  unfold writing
  split <;> simp only [List.length_singleton, List.length_nil, le_refl, Nat.zero_le]

/-- With everything there, the data FIFO does not run empty inside a frame. -/
theorem fed_of_flush (hinv : Inv ps t) (ha : Arrived ps t) (hf : Flush t c) : Fed ps t c := by
  refine ⟨?_, ?_, fun hs => ?_⟩
  · rw [hf.data, List.append_nil]
    exact hinv.data
  · rw [hf.ctrl, List.append_nil]
    exact hinv.ctrl
  · rcases hinv.stage with ⟨_, _, _, hstate, _⟩ | ⟨_, _, _, _, hstate, _, _⟩ |
      ⟨done, p, rest, rfl, pre, x, post, hbeats, hpost, _, h⟩ | ⟨_, _, _, _, _, _, _, hstate, _⟩
    · exact absurd (hstate.symm.trans hs) State.noConfusion
    · exact absurd (hstate.symm.trans hs) State.noConfusion
    · have hall : t.fedData = stream done ++ (pre ++ [x]) ++ (post ++ stream rest) := by
        rw [ha.data, stream_append, stream_cons, hbeats]
        simp only [List.append_assoc, List.cons_append, List.nil_append]
      exact fifo_ne_nil h.data hall (List.append_ne_nil_of_left_ne_nil hpost _)
    · exact absurd (hstate.symm.trans hs) State.noConfusion

theorem arrived_next (ha : Arrived ps t) (hf : Flush t c) : Arrived ps (txNext t c) := by
  refine ⟨?_, ?_⟩
  · simp only [txNext, hf.data, List.append_nil, ha.data]
  · simp only [txNext, hf.ctrl, List.append_nil, ha.ctrl]

/-- Between frames with no entry left, everything has been read. -/
theorem quiet_last {done rest : List Packet} (ha : Arrived ps t) (hps : ps = done ++ rest)
    (h : Quiet done t) (hctrl : t.ctrlFifo = []) : ps = done ∧ t.dataFifo = [] := by
  have hentries := h.ctrl
  rw [ha.ctrl, hctrl, hps, entries_append] at hentries
  have hrest : rest = [] := List.map_eq_nil_iff.mp (List.append_cancel_left hentries)
  subst hrest
  rw [List.append_nil] at hps
  have hdata := h.data
  rw [ha.data, hps] at hdata
  exact ⟨hps, List.append_right_eq_self.mp hdata.symm⟩

theorem work_idle (hstate : t.fsm.state = .idle) :
    work t = 4 * t.ctrlFifo.length + t.dataFifo.length + (writing t.fsm).length := by
  rw [work, hstate]

theorem work_busy (hstate : t.fsm.state ≠ .idle) :
    work t = 4 * t.ctrlFifo.length + t.dataFifo.length - 1 := by
  unfold work
  split
  · exact absurd ‹_› hstate
  · rfl

/-- Between frames nothing is read, and an entry opens the next one. -/
theorem flush_idle (hf : Flush t c) (hstate : t.fsm.state = .idle) :
    (txNext t c).dataFifo = t.dataFifo ∧ (txNext t c).ctrlFifo = t.ctrlFifo ∧
      (txNext t c).fsm.state = if !t.ctrlFifo.isEmpty then .sof else .idle := by
  have hrd : dataFifoRden t.fsm (ports t c) = false := by rw [dataFifoRden, hstate]; rfl
  have hce : ctrlFifoRden t.fsm = false := by rw [ctrlFifoRden, hstate]; rfl
  refine ⟨?_, ?_, ?_⟩
  · simp only [txNext, hrd, hf.data, Bool.false_eq_true, if_false, List.append_nil]
  · simp only [txNext, hce, hf.ctrl, Bool.false_eq_true, if_false, List.append_nil]
  · simp only [txNext, next, stateNs, hstate]
    rfl

/-- With room, the first beat is read. -/
theorem flush_sof (hf : Flush t c) (hstate : t.fsm.state = .sof) (hne : t.dataFifo ≠ []) :
    (txNext t c).dataFifo = t.dataFifo.tail ∧ (txNext t c).ctrlFifo = t.ctrlFifo ∧
      (txNext t c).fsm.state = .data := by
  have hsome : t.dataFifo.isEmpty = false := List.isEmpty_eq_false_iff.mpr hne
  have hgo : (!c.txFifoAfull && !t.dataFifo.isEmpty) = true := by rw [hf.room, hsome]; rfl
  have hrd : dataFifoRden t.fsm (ports t c) = true := by
    rw [dataFifoRden, hstate]
    exact (Bool.or_false _).trans hgo
  have hce : ctrlFifoRden t.fsm = false := by rw [ctrlFifoRden, hstate]; rfl
  refine ⟨?_, ?_, ?_⟩
  · simp only [txNext, hrd, hf.data, if_true, List.append_nil]
  · simp only [txNext, hce, hf.ctrl, Bool.false_eq_true, if_false, List.append_nil]
  · simp only [txNext, next, stateNs, hstate, ports, hgo, if_true]

/-- Inside a frame a beat is read, and the frame is not left yet. -/
theorem flush_data (hf : Flush t c) (hstate : t.fsm.state = .data) (hne : t.dataFifo ≠ []) :
    (txNext t c).dataFifo = t.dataFifo.tail ∧ (txNext t c).ctrlFifo = t.ctrlFifo ∧
      (txNext t c).fsm.state ≠ .idle := by
  have hsome : t.dataFifo.isEmpty = false := List.isEmpty_eq_false_iff.mpr hne
  have hrd : dataFifoRden t.fsm (ports t c) = true := by
    rw [dataFifoRden, hstate]
    exact (Bool.false_or _).trans (by rw [ports, hsome]; rfl)
  have hce : ctrlFifoRden t.fsm = false := by rw [ctrlFifoRden, hstate]; rfl
  refine ⟨?_, ?_, ?_⟩
  · simp only [txNext, hrd, hf.data, if_true, List.append_nil]
  · simp only [txNext, hce, hf.ctrl, Bool.false_eq_true, if_false, List.append_nil]
  · simp only [txNext, next, stateNs, hstate]
    split
    · exact State.noConfusion
    · exact State.noConfusion

/-- The end of a frame takes its entry away. -/
theorem flush_eof (hf : Flush t c) (hstate : t.fsm.state = .eof) :
    (txNext t c).dataFifo = t.dataFifo ∧ (txNext t c).ctrlFifo = t.ctrlFifo.tail ∧
      (txNext t c).fsm.state = .idle := by
  have hrd : dataFifoRden t.fsm (ports t c) = false := by rw [dataFifoRden, hstate]; rfl
  have hce : ctrlFifoRden t.fsm = true := by rw [ctrlFifoRden, hstate]; rfl
  refine ⟨?_, ?_, ?_⟩
  · simp only [txNext, hrd, hf.data, Bool.false_eq_true, if_false, List.append_nil]
  · simp only [txNext, hce, hf.ctrl, if_true, List.append_nil]
  · simp only [txNext, next, stateNs, hstate]

/-- With no word in hand, nothing is on its way after a cycle. -/
theorem writing_next (hrden : t.fsm.fifoRden = false) : writing (txNext t c).fsm = [] := by
  simp only [txNext, next, writing, hrden, Bool.false_eq_true, if_false]

/-- Every cycle with room in the transmit FIFO is one less to go. -/
theorem work_next (hinv : Inv ps t) (ha : Arrived ps t) (hf : Flush t c) :
    work (txNext t c) ≤ work t - 1 := by
  rcases hinv.stage with ⟨done, rest, hps, hstate, h⟩ | ⟨done, p, rest, rfl, hstate, h, hhead⟩ |
    ⟨done, p, rest, _, pre, x, post, hbeats, hpost, hstate, h⟩ |
    ⟨done, p, rest, hps, pre, x, hbeats, hstate, h⟩
  · rcases flush_idle hf hstate with ⟨hdata, hctrl, hnext⟩
    cases hfifo : t.ctrlFifo with
    | nil =>
        -- Nothing is left but the word on its way, which is written now.
        have hnone := (quiet_last ha hps h hfifo).2
        rw [hfifo] at hctrl hnext
        rw [work_idle hnext, hctrl, hdata, hnone, writing_next h.rden]
        exact Nat.zero_le _
    | cons e es =>
        rw [hfifo] at hctrl hnext
        rw [work_busy (by rw [hnext]; exact State.noConfusion), work_idle hstate, hctrl, hdata,
          hfifo]
        omega
  · have hall : t.fedData = stream done ++ (p.frame.beats ++ stream rest) := by
      rw [ha.data, stream_append, stream_cons]
    have hbeats : p.frame.beats ≠ [] :=
      List.append_ne_nil_of_right_ne_nil _ (List.cons_ne_nil p.frame.tailBeat [])
    have hne := fifo_ne_nil h.data hall (List.append_ne_nil_of_left_ne_nil hbeats _)
    have hpos := List.length_pos_iff.mpr hne
    rcases flush_sof hf hstate hne with ⟨hdata, hctrl, hnext⟩
    rw [work_busy (by rw [hnext]; exact State.noConfusion),
      work_busy (by rw [hstate]; exact State.noConfusion), hctrl, hdata, List.length_tail]
    omega
  · have hne := (fed_of_flush hinv ha hf).ready hstate
    have hpos := List.length_pos_iff.mpr hne
    rcases flush_data hf hstate hne with ⟨hdata, hctrl, hnext⟩
    rw [work_busy hnext, work_busy (by rw [hstate]; exact State.noConfusion), hctrl, hdata,
      List.length_tail]
    omega
  · -- The entry of the frame goes away, and the last beat is still to be written.
    rcases flush_eof hf hstate with ⟨hdata, hctrl, hnext⟩
    have hle := writing_length_le (txNext t c).fsm
    have hpos : 0 < t.ctrlFifo.length := by
      rw [List.eq_cons_of_mem_head? h.head]
      exact Nat.succ_pos _
    rw [work_idle hnext, work_busy (by rw [hstate]; exact State.noConfusion), hctrl, hdata,
      List.length_tail]
    omega

/-- A packet whose frame is not over still has its entry in the FIFO. -/
theorem idle_of_work_zero (hinv : Inv ps t) (hw : work t = 0) :
    ∃ done rest, ps = done ++ rest ∧ Quiet done t ∧ t.ctrlFifo = [] ∧ writing t.fsm = [] := by
  have hbusy {e : TxCs} (hhead : t.ctrlFifo.head? = some e) (hs : t.fsm.state ≠ .idle) : False := by
    have hpos : 0 < t.ctrlFifo.length := by
      rw [List.eq_cons_of_mem_head? hhead]
      exact Nat.succ_pos _
    rw [work_busy hs] at hw
    omega
  rcases hinv.stage with ⟨done, rest, hps, hstate, h⟩ | ⟨done, p, rest, _, hstate, _, hhead⟩ |
    ⟨done, p, rest, _, pre, x, post, _, _, hstate, h⟩ | ⟨done, p, rest, _, pre, x, _, hstate, h⟩
  · rw [work_idle hstate] at hw
    refine ⟨done, rest, hps, h, List.eq_nil_of_length_eq_zero ?_, List.eq_nil_of_length_eq_zero ?_⟩
    · omega
    · omega
  · exact absurd (hbusy hhead (by rw [hstate]; exact State.noConfusion)) id
  · exact absurd (hbusy h.head (by rw [hstate]; exact State.noConfusion)) id
  · exact absurd (hbusy h.head (by rw [hstate]; exact State.noConfusion)) id

/-- No more is left than has arrived. -/
theorem work_le (hinv : Inv ps t) (ha : Arrived ps t) :
    work t ≤ 4 * ps.length + (stream ps).length + 1 := by
  have hwriting := writing_length_le t.fsm
  have hctrl : t.ctrlFifo.length ≤ t.fedCtrl.length := by
    rcases hinv.stage with ⟨_, _, _, _, h⟩ | ⟨_, _, _, _, _, h, _⟩ |
      ⟨_, _, _, _, _, _, _, _, _, _, h⟩ | ⟨_, _, _, _, _, _, _, _, h⟩ <;>
      rw [h.ctrl, List.length_append] <;> omega
  have hdata : t.dataFifo.length ≤ t.fedData.length := by
    rcases hinv.stage with ⟨_, _, _, _, h⟩ | ⟨_, _, _, _, _, h, _⟩ |
      ⟨_, _, _, _, _, _, _, _, _, _, h⟩ | ⟨_, _, _, _, _, _, _, _, h⟩ <;>
      rw [h.data, List.length_append] <;> omega
  rw [ha.ctrl, entries, List.length_map] at hctrl
  rw [ha.data] at hdata
  unfold work
  split <;> omega

end Written

section Runs

variable {ps : List Packet} {t0 t : Tx} {cs : List Cycle}

theorem next_of_step {t t' : Tx} {c : Cycle} (hs : step t c = some t') : t' = txNext t c :=
  (Option.some.inj hs).symm

/-- The invariant with everything arrived. -/
def Filled (ps : List Packet) (t : Tx) : Prop := Inv ps t ∧ Arrived ps t

theorem step_filled (t : Tx) (c : Cycle) (t' : Tx) (h : Filled ps t) (hf : Flush t c)
    (hs : step t c = some t') : Filled ps t' := by
  rcases next_of_step hs with rfl
  exact ⟨step_inv h.1 (fed_of_flush h.1 h.2 hf), arrived_next h.2 hf⟩

/-- Once everything has arrived it is written, in a number of cycles that only
    depends on the packets. -/
theorem flush_written (h : Filled ps t0) (hrun : Run step Flush t0 cs t)
    (hlong : 4 * ps.length + (stream ps).length + 1 ≤ cs.length) : t.written = emitted ps := by
  have hinv := run_inv step_filled hrun h
  have hdrop : work t ≤ work t0 - cs.length := by
    refine run_size_le work step_filled ?_ hrun h
    intro t c t' hfilled hf hs
    rcases next_of_step hs with rfl
    exact work_next hfilled.1 hfilled.2 hf
  have hle := work_le h.1 h.2
  rcases idle_of_work_zero hinv.1 (by omega) with ⟨done, rest, hps, hq, hctrl, hnone⟩
  have hall := quiet_last hinv.2 hps hq hctrl
  have hout := hq.out
  rw [hnone, List.append_nil, ← hall.1] at hout
  exact hout

theorem run_inv_fed (h0 : AfterReset t0) (hrun : Run step (Fed ps) t0 cs t) : Inv ps t := by
  refine run_inv ?_ hrun (afterReset_inv h0)
  intro t c t' hinv hfed hs
  rcases next_of_step hs with rfl
  exact step_inv hinv hfed

theorem fed_run_of_flush (h : Filled ps t0) (hrun : Run step Flush t0 cs t) :
    Run step (Fed ps) t0 cs t :=
  run_mono (Filled ps) step_filled (fun _ _ hs hf => fed_of_flush hs.1 hs.2 hf) hrun h

/-- What the state machine promises for some packets. Whatever the run, what has
    been written is a beginning of the frames with the checksums in place, and
    once all packets have arrived all of it gets written. -/
def Inserts (ps : List Packet) : Prop :=
  ∀ (t0 t : Tx) (cs : List Cycle), AfterReset t0 → Run step (Fed ps) t0 cs t →
    ∃ outs : List (List Beat),
      List.Forall₂ (fun p out => Inserted p.cs p.frame.beats out) ps outs ∧
        t.written <+: outs.flatten ∧
        (t.fedData = stream ps → t.fedCtrl = entries ps → ∀ cs' t', Run step Flush t cs' t' →
          4 * ps.length + (stream ps).length + 1 ≤ cs'.length → t'.written = outs.flatten)

theorem inserts_of_aligned (ha : ∀ p, p ∈ ps → Aligned p) : Inserts ps := by
  intro t0 t cs h0 hrun
  have hinv := run_inv_fed h0 hrun
  -- What each packet comes out as is what the pass over it computes.
  refine ⟨ps.map fun p => (scan p.cs p.frame.beats).out, ?_, ?_, ?_⟩
  · rw [List.forall₂_map_right_iff]
    exact List.forall₂_same.mpr fun p hp => scan_inserted (ha p hp)
  · rw [← List.flatMap_def]
    exact written_begins hinv
  · intro hdata hctrl cs' t' hflush hlong
    rw [← List.flatMap_def]
    exact flush_written ⟨hinv, hdata, hctrl⟩ hflush hlong

/-- A state after reset. -/
def resetTx : Tx :=
  { fsm := ⟨.idle, 0, false, ⟨0, 0, false⟩, false, ⟨0, 0, false⟩, false⟩
    dataFifo := []
    ctrlFifo := []
    fedData := []
    fedCtrl := []
    written := [] }

/-- A cycle in which words arrive. -/
def feedCycle (data : List Beat) (ctrl : List TxCs) : Cycle :=
  { txFifoAfull := false
    newData := data
    newCtrl := ctrl
    idleData := ⟨0, 0, false⟩
    idleCtrl := ⟨0, 0, 0⟩ }

theorem resetTx_afterReset : AfterReset resetTx := ⟨rfl, rfl, rfl, rfl, rfl, rfl, rfl, rfl⟩

/-- Any packets can be sent: all arrive in one cycle, then nothing does. -/
theorem exists_run (ps : List Packet) : ∃ cs0 t0 cs t, Run step (Fed ps) resetTx cs0 t0 ∧
    Filled ps t0 ∧ Run step Flush t0 cs t ∧ 4 * ps.length + (stream ps).length + 1 ≤ cs.length := by
  have hfeed : Run step (Fed ps) resetTx [feedCycle (stream ps) (entries ps)]
      (txNext resetTx (feedCycle (stream ps) (entries ps))) := by
    refine Run.cons _ _ _ _ _ rfl ⟨List.prefix_rfl, List.prefix_rfl, ?_⟩ (Run.nil _)
    intro hs
    exact absurd hs State.noConfusion
  refine ⟨_, _, List.replicate (4 * ps.length + (stream ps).length + 1) (feedCycle [] []), _,
    hfeed, ⟨run_inv_fed resetTx_afterReset hfeed, rfl, rfl⟩,
    run_foldl (fun _ _ => rfl) _ _ ?_, ?_⟩
  · intro c hc t
    rw [List.eq_of_mem_replicate hc]
    exact ⟨rfl, rfl, rfl⟩
  · rw [List.length_replicate]

/-- The frames in what is written are told apart by their lengths. -/
theorem inserted_of_flatten {outs : List (List Beat)}
    (h : List.Forall₂ (fun p out => Inserted p.cs p.frame.beats out) ps outs)
    (heq : emitted ps = outs.flatten) :
    ∀ p, p ∈ ps → Inserted p.cs p.frame.beats (scan p.cs p.frame.beats).out := by
  induction h with
  | nil =>
      intro p hp
      exact absurd hp List.not_mem_nil
  | @cons q out qs outs hq _ ih =>
      have hlen : (scan q.cs q.frame.beats).out.length = out.length := by
        have hkeeps := congrArg List.length hq.keep
        rw [List.length_map, List.length_map] at hkeeps
        rw [scan_out_length, hkeeps]
      have hsplit : (scan q.cs q.frame.beats).out ++ emitted qs = out ++ outs.flatten := heq
      have hparts := List.append_inj hsplit hlen
      intro p hp
      rcases List.mem_cons.mp hp with rfl | hp
      · rw [hparts.1]
        exact hq
      · exact ih hparts.2 p hp

/-- The state machine keeps its promise for exactly the packets whose checksum
    goes into a full beat within the range of the byte counter. Left aside are
    packets that are not but have the checksum in their data already. -/
theorem inserts_iff_aligned (ps : List Packet) (hps : ∀ p, p ∈ ps → Aligned p ∨ ¬ InPlace p) :
    Inserts ps ↔ ∀ p, p ∈ ps → Aligned p := by
  refine ⟨fun h p hp => ?_, inserts_of_aligned⟩
  -- One run to the end is enough to see every packet as it is written.
  rcases exists_run ps with ⟨cs0, t0, cs, t, hfeed, hfilled, hflush, hlong⟩
  rcases h resetTx t0 cs0 resetTx_afterReset hfeed with ⟨outs, houts, _, hall⟩
  have hwritten := hall hfilled.2.data hfilled.2.ctrl cs t hflush hlong
  rw [flush_written hfilled hflush hlong] at hwritten
  rcases hps p hp with ha | hn
  · exact ha
  · exact (scan_inserted_iff hn).mp (inserted_of_flatten houts hwritten p hp)

/-- A frame of 24 bytes with the checksum at offset 18, in its last beat, which
    is full. -/
def fullTail : Packet :=
  { frame := .whole [0, 0] 0
    cs := ⟨0xFFFF, 18, 0b01⟩
    long := by decide
    even := by decide
    past := by decide
    fits := by decide }

theorem fullTail_inserts : Inserts [fullTail] := by
  have ha : ∀ p, p ∈ [fullTail] → Aligned p := by
    intro p hp _
    rcases List.mem_singleton.mp hp with rfl
    exact ⟨by decide, by decide⟩
  exact (inserts_iff_aligned [fullTail] fun p hp => Or.inl (ha p hp)).mpr ha

/-- A frame of 54 bytes, all zero, with the checksum at offset 50. -/
def shortTail : Packet :=
  { frame := ⟨[0, 0, 0, 0, 0, 0], 0, 6, by decide, by decide⟩
    cs := ⟨0xFFFF, 50, 0b01⟩
    long := by decide
    even := by decide
    past := by decide
    fits := by decide }

/-- The checksum of that frame is written to the offsets 52 and 53. -/
theorem tail_insert_misplaced : ∃ cs t, Run step (Fed [shortTail]) resetTx cs t ∧
    t.written.length = 7 ∧ (lanes t.written)[50]? = some 0x00 ∧ (lanes t.written)[51]? = some 0x00 ∧
      (lanes t.written)[52]? = some 0xFF ∧ (lanes t.written)[53]? = some 0xFF ∧
        ¬ Inserted shortTail.cs shortTail.frame.beats t.written := by
  rcases exists_run [shortTail] with ⟨cs0, t0, cs, t, hfeed, hfilled, hflush, hlong⟩
  refine ⟨cs0 ++ cs, t, run_append hfeed (fed_run_of_flush hfilled hflush), ?_⟩
  rw [flush_written hfilled hflush hlong]
  refine ⟨by decide, by decide, by decide, by decide, by decide, fun h => ?_⟩
  exact absurd (h.byte 50) (by decide)

end Runs

end Ofm

end Eth

end Ml605
