import Ml605.Lib.Fifo
import Ml605.Eth.IfmOut

/-!
# What the Receive State Machine Writes

The words written to the two output FIFOs are a beginning of the packets and of
their status words. The invariant follows the state machine through a packet:
waiting, the first cycle of the copy, the beats, the last beat, and the six
cycles in which the status words are made.

The checksum pipeline is one of the registers of that invariant. With the last
beat on the write port of the good FIFO in the first of the six cycles, the
fifth is the one in which the checksum is in `RxSum`, and there `wcnt` is four.

## Main definitions

* `front`, `status`: What was written, with the words on the write ports.
* `Stage`: In which packet the state machine is, and where in it.

## Theorems

* `status_take_succ`: A word made in the right cycle is the status word.
* `step_inv`: A clock cycle keeps the invariant.
* `written_begins`: What is written is a beginning of the streams.
* `stage_append`: More packets may follow.
* `ready_of_visible`: The copy does not find the data FIFO empty.
-/

namespace Ml605

namespace Eth

namespace Ifm

open Lib

/-- What was written to the good FIFO, with the word on its write port. -/
def front (t : Rx) : List Beat := t.goodFed ++ goodWriting t.fsm

/-- What was written to the control FIFO, with the word on its write port. -/
def status (t : Rx) : List CtrlWord := t.ctrlFed ++ ctrlWriting t.fsm

/-- The status words of some packets. -/
def statuses (ps : List Packet) : List CtrlWord := ps.flatMap Packet.status

section Words

variable (r : Packet)

theorem status_length : r.status.length = 6 := by
  rw [Packet.status, List.length_map, List.length_range]

theorem ctrlWord_last {k : Nat} (hk : k < 6) {info : BitVec 8} {sum cnt : BitVec 16} :
    (ctrlWord (BitVec.ofNat 4 k) info sum cnt).last = decide (k = 5) := by
  interval_cases k <;> rfl

/-- The status words end with the last flag, and it is on no other. -/
theorem status_ends : EndsOnly CtrlWord.last r.status := by
  refine ⟨fun h => ?_, fun pre x post h => ?_⟩
  · have hlen := status_length r
    rw [h] at hlen
    exact absurd hlen (by simp only [List.length_nil]; omega)
  · -- Six words; the place of `x` is the length of `pre`.
    have hlen := congrArg List.length h
    have hx : r.status[pre.length]? = some x := by
      rw [h, List.getElem?_append_right (Nat.le_refl _), Nat.sub_self, List.getElem?_cons_zero]
    rw [status_length, List.length_append, List.length_cons] at hlen
    have hpost : post = [] ↔ pre.length = 5 := by
      rw [← List.length_eq_zero_iff]
      omega
    rw [decide_eq_decide.mpr hpost]
    have hlt : pre.length < 6 := by omega
    simp only [Packet.status, List.getElem?_map, List.getElem?_range hlt, Option.map_some,
      Option.some.injEq] at hx
    rw [← hx, ctrlWord_last hlt]

/-- The word made when the counter is `k`, if the checksum and the byte count
    are there when they are asked for. -/
theorem status_take_succ {k : Nat} (hk : k < 6) {sum cnt : BitVec 16}
    (hsum : k = 4 → sum = Csum.rxSumOf (Csum.packetSum 0xE 0x0 r.beats))
    (hcnt : k = 5 → cnt = BitVec.ofNat 16 (byteCount r.beats)) :
    r.status.take (k + 1) =
      r.status.take k ++ [ctrlWord (BitVec.ofNat 4 k) r.info sum cnt] := by
  have hlt : k < r.status.length := by
    rw [status_length]
    exact hk
  have hword : r.status[k] = ctrlWord (BitVec.ofNat 4 k) r.info sum cnt := by
    simp only [Packet.status, List.getElem_map, List.getElem_range]
    -- Only the words 4 and 5 depend on what was measured.
    interval_cases k
    · rfl
    · rfl
    · rfl
    · rfl
    · rw [hsum rfl]
      rfl
    · rw [hcnt rfl]
      rfl
  rw [List.take_succ_eq_append_getElem hlt, hword]

/-- A beat of a packet is its last, or more follow. -/
theorem last_eq {pre post : List Beat} {x : Beat} (h : r.beats = pre ++ x :: post) :
    x.last = decide (post = []) := r.ends.split pre x post h

end Words

/-- Between packets nothing is on a write port. -/
structure Between (done : List Packet) (t : Rx) : Prop where
  good : t.fsm.goodFifoWren = false
  ctrl : t.fsm.ctrlFifoWren = false
  rden : t.fsm.infoFifoRden = false
  info : t.fedInfo = entriesOf done ++ t.infoFifo
  front : front t = beatsOf done
  status : status t = statuses done
  sof : t.csum.sof = true

/-- The packet `r` has been started. -/
structure Begun (r : Packet) (t : Rx) : Prop where
  reg : t.fsm.infoFifoReg = r.info
  wcnt : t.fsm.wcnt = 0
  head : t.infoFifo.head? = some r.info

/-- Inside the packet `r`, with `pre` behind and `x` on the write port. -/
structure Passing (done : List Packet) (r : Packet) (pre : List Beat) (x : Beat) (t : Rx) :
    Prop where
  begun : Begun r t
  good : t.fsm.goodFifoWren = true
  wdata : t.fsm.goodFifoWdata = x
  byte : t.fsm.goodFifoByte = keepToCnt x.keep
  cnt : t.fsm.bytecnt = BitVec.ofNat 16 (byteCount pre)
  info : t.fedInfo = entriesOf done ++ t.infoFifo
  front : front t = beatsOf done ++ (pre ++ [x])
  status : status t = statuses done
  csum : Csum.Passing 0xE 0x0 pre t.csum

/-- After the last beat of `r`, with `k` status words made. -/
structure Closing (done : List Packet) (r : Packet) (k : Nat) (t : Rx) : Prop where
  good : t.fsm.goodFifoWren = false
  rden : t.fsm.infoFifoRden = false
  reg : t.fsm.infoFifoReg = r.info
  wcnt : t.fsm.wcnt = BitVec.ofNat 4 k
  cnt : t.fsm.bytecnt = BitVec.ofNat 16 (byteCount r.beats)
  info : t.fedInfo = entriesOf (done ++ [r]) ++ t.infoFifo
  front : front t = beatsOf (done ++ [r])
  status : status t = statuses done ++ r.status.take k
  csum : Csum.Closing 0xE 0x0 r.beats k t.csum
  sof : t.csum.sof = true

/-- In which packet the state machine is, and where in it. -/
inductive Stage (rs : List Packet) (t : Rx) : Prop
  | idle (done rest : List Packet) (hrs : rs = done ++ rest) (hstate : t.fsm.state = .idle)
      (h : Between done t)
  | first (done : List Packet) (r : Packet) (rest : List Packet) (hrs : rs = done ++ r :: rest)
      (hstate : t.fsm.state = .wait) (h : Between done t) (hbegun : Begun r t)
      (hcnt : t.fsm.bytecnt = 0)
  | wait (done : List Packet) (r : Packet) (rest : List Packet) (hrs : rs = done ++ r :: rest)
      (pre : List Beat) (x : Beat) (post : List Beat) (hbeats : r.beats = pre ++ x :: post)
      (hpost : post ≠ []) (hstate : t.fsm.state = .wait) (hrden : t.fsm.infoFifoRden = false)
      (h : Passing done r pre x t)
  | last (done : List Packet) (r : Packet) (rest : List Packet) (hrs : rs = done ++ r :: rest)
      (pre : List Beat) (x : Beat) (hbeats : r.beats = pre ++ [x])
      (hstate : t.fsm.state = .eof) (hrden : t.fsm.infoFifoRden = true)
      (h : Passing done r pre x t)
  | eof (done : List Packet) (r : Packet) (rest : List Packet) (hrs : rs = done ++ r :: rest)
      (k : Nat) (hlo : 1 ≤ k) (hhi : k ≤ 5) (hstate : t.fsm.state = .eof) (h : Closing done r k t)
  | done (done : List Packet) (r : Packet) (rest : List Packet) (hrs : rs = done ++ r :: rest)
      (hstate : t.fsm.state = .done) (h : Closing done r 6 t)

/-- The invariant: where the state machine is, that only packets arrive, and that
    what was read is what was written. -/
structure Inv (rs : List Packet) (t : Rx) : Prop where
  stage : Stage rs t
  kept : t.fedData = front t ++ t.dataFifo
  data : ∃ more, t.fedData <+: beatsOf rs ++ more
  info : t.fedInfo <+: entriesOf rs

section Streams

theorem beatsOf_append (done rest : List Packet) :
    beatsOf (done ++ rest) = beatsOf done ++ beatsOf rest := List.flatMap_append

theorem beatsOf_cons (r : Packet) (rest : List Packet) :
    beatsOf (r :: rest) = r.beats ++ beatsOf rest := rfl

theorem entriesOf_append (done rest : List Packet) :
    entriesOf (done ++ rest) = entriesOf done ++ entriesOf rest := List.map_append

theorem statuses_append (done rest : List Packet) :
    statuses (done ++ rest) = statuses done ++ statuses rest := List.flatMap_append

theorem statuses_cons (r : Packet) (rest : List Packet) :
    statuses (r :: rest) = r.status ++ statuses rest := rfl

end Streams

section Step

variable {rs done rest : List Packet} {r : Packet} {pre post : List Beat} {x : Beat} {k : Nat}
  {t : Rx} {c : Cycle}

/-- A cycle puts the word on the write port into the FIFO and the next one on it. -/
theorem front_next (t : Rx) (c : Cycle) : front (rxNext t c) =
    front t ++ (if t.fsm.state = .wait then [(ports t c).dataFifoRdata] else []) := by
  simp only [front, rxNext, next, goodWriting, beq_iff_eq]

theorem status_next (t : Rx) (c : Cycle) : status (rxNext t c) = status t ++
    (if t.fsm.state = .eof then
      [ctrlWord t.fsm.wcnt t.fsm.infoFifoReg (Csum.rxSum t.csum) t.fsm.bytecnt] else []) := by
  simp only [status, rxNext, next, ctrlWriting, beq_iff_eq, ports]

/-- Only the copy puts beats on the write port of the good FIFO. -/
theorem good_quiet (hs : t.fsm.state ≠ .wait) :
    (rxNext t c).fsm.goodFifoWren = false ∧ front (rxNext t c) = front t := by
  constructor
  · simp only [rxNext, next, beq_false_of_ne hs]
  · rw [front_next, if_neg hs, List.append_nil]

/-- Only the six cycles after it put words on the write port of the control FIFO. -/
theorem ctrl_quiet (hs : t.fsm.state ≠ .eof) :
    (rxNext t c).fsm.ctrlFifoWren = false ∧ status (rxNext t c) = status t := by
  constructor
  · simp only [rxNext, next, beq_false_of_ne hs]
  · rw [status_next, if_neg hs, List.append_nil]

/-- Only the end of a packet takes an entry from the info FIFO. -/
theorem rden_quiet (hwait : t.fsm.state ≠ .wait) (hdrop : t.fsm.state ≠ .drop) :
    (rxNext t c).fsm.infoFifoRden = false := by
  simp only [rxNext, next, beq_false_of_ne hwait, beq_false_of_ne hdrop, Bool.false_and,
    Bool.or_self]

/-- What waits in the info FIFO continues the entries. -/
theorem infoFifo_continues (hrs : rs = done ++ rest) (hinv : Inv rs t)
    (hinfo : t.fedInfo = entriesOf done ++ t.infoFifo) : t.infoFifo <+: entriesOf rest := by
  refine fifo_continues hinfo ?_
  rw [← entriesOf_append, ← hrs]
  exact hinv.info

/-- A cycle in the idle state writes nothing. -/
theorem between_next (h : Between done t) (hs : t.fsm.state = .idle) :
    Between done (rxNext t c) := by
  have hwait : t.fsm.state ≠ .wait := by rw [hs]; exact State.noConfusion
  have heof : t.fsm.state ≠ .eof := by rw [hs]; exact State.noConfusion
  have hdrop : t.fsm.state ≠ .drop := by rw [hs]; exact State.noConfusion
  have hidle : (csumInput t.fsm).dataFifoWren = false := h.good
  exact ⟨(good_quiet hwait).1, (ctrl_quiet heof).1, rden_quiet hwait hdrop,
    fifo_kept h.info h.rden, (good_quiet hwait).2.trans h.front, (ctrl_quiet heof).2.trans h.status,
    (Csum.sof_idle hidle).trans h.sof⟩

/-- From the idle state an entry starts a packet, if the good FIFO has room. -/
theorem step_idle (hinv : Inv rs t) (hrs : rs = done ++ rest) (hs : t.fsm.state = .idle)
    (h : Between done t) : Stage rs (rxNext t c) := by
  have hnext : Between done (rxNext t c) := between_next h hs
  have hcontinues := infoFifo_continues hrs hinv h.info
  -- The entry is looked at and not taken: it stays at the front until the last beat.
  cases hgo : !t.infoFifo.isEmpty && !c.goodFifoAfull with
  | false =>
      refine .idle done rest hrs ?_ hnext
      simp only [rxNext, next, stateNs, hs, ports, hgo, Bool.false_eq_true, if_false]
  | true =>
      cases hfifo : t.infoFifo with
      | nil => exact absurd hgo (by simp [hfifo])
      | cons e es =>
          -- The entry is that of the next packet, which is good.
          rw [hfifo] at hcontinues
          cases rest with
          | nil => exact absurd (List.prefix_nil.mp hcontinues) (List.cons_ne_nil e es)
          | cons r rest =>
              have he : e = r.info := (List.cons_prefix_cons.mp hcontinues).1
              have hhead : t.infoFifo.head? = some r.info := by rw [hfifo, he, List.head?_cons]
              have hport : (ports t c).infoFifoRdata = r.info := by
                simp only [ports, List.headD_eq_head?_getD, hhead, Option.getD_some]
              refine .first done r rest hrs ?_ hnext ⟨?_, ?_, fifo_head h.rden hhead⟩ ?_
              · simp only [rxNext, next, stateNs, hs, hport, r.good, Bool.false_eq_true, if_false]
                simp only [ports, hgo, if_true]
              · simp only [rxNext, next, hs, if_true, hport]
              · simp only [rxNext, next, hs, if_true]
              · simp only [rxNext, next, hs, if_true]

/-- The next beat of a packet comes onto the write port. What is common to the
    first beat and to the others. -/
theorem step_beat (pre post : List Beat) (hinv : Inv rs t) (hrs : rs = done ++ r :: rest)
    (hs : t.fsm.state = .wait) (hready : t.dataFifo ≠ [])
    (hrden : t.fsm.infoFifoRden = false) (hbegun : Begun r t)
    (hinfo : t.fedInfo = entriesOf done ++ t.infoFifo) (hstatus : status t = statuses done)
    (hpost : post ≠ []) (hbeats : r.beats = pre ++ post)
    (hfront : front t = beatsOf done ++ pre)
    (hcnt : (rxNext t c).fsm.bytecnt = BitVec.ofNat 16 (byteCount pre))
    (hcsum : Csum.Passing 0xE 0x0 pre (rxNext t c).csum) : Stage rs (rxNext t c) := by
  rcases hinv.data with ⟨more, hpre⟩
  -- So what is read next is the first of `post`.
  have hstream : t.fedData <+: front t ++ (post ++ (beatsOf rest ++ more)) := by
    rw [hrs, beatsOf_append, beatsOf_cons, hbeats] at hpre
    rw [hfront]
    simp only [List.append_assoc] at hpre ⊢
    exact hpre
  cases hfifo : t.dataFifo with
  | nil => exact absurd hfifo hready
  | cons y ys =>
      cases post with
      | nil => exact absurd rfl hpost
      | cons z post =>
          have hfirst : t.dataFifo.head? = some y := by rw [hfifo, List.head?_cons]
          rcases fifo_next hinv.kept hstream hfirst with rfl
          have hport : (ports t c).dataFifoRdata = y := by
            simp only [ports, hfifo, List.headD_cons]
          have hwait : (t.fsm.state == State.wait) = true := by rw [hs]; rfl
          have hdrop : (t.fsm.state == State.drop) = false := by rw [hs]; rfl
          have hpassing : Passing done r pre y (rxNext t c) := by
            refine ⟨⟨?_, ?_, fifo_head hrden hbegun.head⟩, hwait, hport, ?_, hcnt,
              fifo_kept hinfo hrden, ?_, ?_, hcsum⟩
            · simp only [rxNext, next, hs, reduceCtorEq, if_false, hbegun.reg]
            · simp only [rxNext, next, hs, reduceCtorEq, if_false, hbegun.wcnt]
            · simp only [rxNext, next, hport]
            · rw [front_next, if_pos hs, hport, hfront, List.append_assoc]
            · exact (ctrl_quiet (by rw [hs]; exact State.noConfusion)).2.trans hstatus
          have hns : (rxNext t c).fsm.state = if y.last then .eof else .wait := by
            simp only [rxNext, next, stateNs, hs, hport]
          have hpop : (rxNext t c).fsm.infoFifoRden = y.last := by
            simp only [rxNext, next, hwait, hdrop, hport, Bool.false_and, Bool.true_and,
              Bool.false_or]
          -- The last flag tells the last beat from the others.
          have hlast := last_eq r hbeats
          by_cases hmore : post = []
          · rw [hlast, decide_eq_true hmore] at hns hpop
            rw [hmore] at hbeats
            exact .last done r rest hrs pre y hbeats hns hpop hpassing
          · rw [hlast, decide_eq_false hmore] at hns hpop
            exact .wait done r rest hrs pre y post hbeats hmore hns hpop hpassing

/-- The first cycle of the copy. -/
theorem step_first (hinv : Inv rs t) (hrs : rs = done ++ r :: rest) (hs : t.fsm.state = .wait)
    (hready : t.dataFifo ≠ []) (h : Between done t) (hbegun : Begun r t)
    (hcnt : t.fsm.bytecnt = 0) : Stage rs (rxNext t c) := by
  have hidle : (csumInput t.fsm).dataFifoWren = false := h.good
  refine step_beat [] r.beats hinv hrs hs hready h.rden hbegun h.info h.status r.ends.ne_nil rfl
    (by rw [h.front, List.append_nil]) ?_ (Or.inl ⟨rfl, ?_, ?_, hidle⟩)
  · -- Nothing was on the write port, so nothing is counted yet.
    simp only [rxNext, next, hs, reduceCtorEq, if_false, h.good, Bool.false_eq_true, hcnt]
    rfl
  · exact (Csum.sof_idle hidle).trans h.sof
  · -- `CsBegin` never changes, so the mask is always prepared.
    exact Csum.maskBcnt_next rfl

/-- The byte counter and the checksum take in the beat on the write port. -/
theorem passing_counts (h : Passing done r pre x t) (hs : t.fsm.state ≠ .idle) :
    (rxNext t c).fsm.bytecnt = BitVec.ofNat 16 (byteCount (pre ++ [x])) ∧
      ∃ s1 s2, Csum.Track 0xE 0x0 (pre ++ [x]) s1 s2 (rxNext t c).csum ∧
        (rxNext t c).csum.endHitReg = false ∧ (rxNext t c).csum.sof = x.last ∧
          ((rxNext t c).csum.tvalidD1 && (rxNext t c).csum.tlastD1) = x.last := by
  constructor
  · simp only [rxNext, next, if_neg hs, h.good, if_true, h.cnt, h.byte]
    rw [byteCount_snoc, BitVec.ofNat_add, BitVec.ofNat_toNat]
  · have hbeat := Csum.passing_beat (i := csumInput t.fsm) h.csum h.good rfl rfl
    simp only [csumInput, h.wdata] at hbeat
    simp only [rxNext, csumInput, h.wdata]
    exact hbeat

/-- A beat that is not the last, and the one after it. -/
theorem step_wait (hinv : Inv rs t) (hrs : rs = done ++ r :: rest)
    (hbeats : r.beats = pre ++ x :: post) (hpost : post ≠ []) (hs : t.fsm.state = .wait)
    (hready : t.dataFifo ≠ []) (hrden : t.fsm.infoFifoRden = false) (h : Passing done r pre x t) :
    Stage rs (rxNext t c) := by
  have hbeats' : r.beats = (pre ++ [x]) ++ post := by
    rw [hbeats, List.append_assoc, List.singleton_append]
  have hcounts := passing_counts (c := c) h (by rw [hs]; exact State.noConfusion)
  rcases hcounts.2 with ⟨s1, s2, htrack, hreg, hsof, hend⟩
  -- The counters are one beat behind the write port.
  rw [last_eq r hbeats, decide_eq_false hpost] at hsof hend
  exact step_beat (pre ++ [x]) post hinv hrs hs hready hrden h.begun h.info h.status hpost hbeats'
    h.front hcounts.1 (Or.inr ⟨s1, s2, htrack, hsof, hreg, hend⟩)

/-- The last beat, while the first status word is made. -/
theorem step_last (hrs : rs = done ++ r :: rest) (hbeats : r.beats = pre ++ [x])
    (hs : t.fsm.state = .eof) (hrden : t.fsm.infoFifoRden = true) (h : Passing done r pre x t) :
    Stage rs (rxNext t c) := by
  have hcounts := passing_counts (c := c) h (by rw [hs]; exact State.noConfusion)
  rcases hcounts.2 with ⟨s1, s2, htrack, hreg, hsof, hend⟩
  rw [last_eq r hbeats, decide_eq_true rfl] at hsof hend
  rw [← hbeats] at htrack
  have hwait : t.fsm.state ≠ .wait := by rw [hs]; exact State.noConfusion
  have hdrop : t.fsm.state ≠ .drop := by rw [hs]; exact State.noConfusion
  refine .eof done r rest hrs 1 (by omega) (by omega) ?_
    ⟨(good_quiet hwait).1, rden_quiet hwait hdrop, ?_, ?_, ?_, ?_, ?_, ?_,
      ⟨s1, s2, htrack, hreg, hend⟩, hsof⟩
  · simp only [rxNext, next, stateNs, hs, h.begun.wcnt]
    rfl
  · simp only [rxNext, next, hs, reduceCtorEq, if_false, h.begun.reg]
  · simp only [rxNext, next, hs, reduceCtorEq, if_false, if_true, h.begun.wcnt]
    rfl
  · rw [hcounts.1, ← hbeats]
  · -- The entry of the packet leaves the info FIFO in this cycle.
    rw [entriesOf_append]
    exact fifo_taken h.info hrden h.begun.head
  · rw [(good_quiet hwait).2, h.front, ← hbeats, beatsOf_append, beatsOf_cons]
    exact congrArg _ (List.append_nil _).symm
  · -- The first word needs neither the checksum nor the byte count.
    rw [status_next, if_pos hs, h.status, h.begun.wcnt, h.begun.reg,
      status_take_succ r (k := 0) (by omega) (fun h0 => absurd h0 (by omega))
        (fun h0 => absurd h0 (by omega))]
    rfl

/-- One more status word is made. -/
theorem step_eof (hrs : rs = done ++ r :: rest) (hlo : 1 ≤ k) (hhi : k ≤ 5)
    (hs : t.fsm.state = .eof) (h : Closing done r k t) : Stage rs (rxNext t c) := by
  have hidle : (csumInput t.fsm).dataFifoWren = false := h.good
  have hwcnt : (rxNext t c).fsm.wcnt = BitVec.ofNat 4 (k + 1) := by
    simp only [rxNext, next, hs, reduceCtorEq, if_false, if_true, h.wcnt]
    rw [BitVec.ofNat_add]
    rfl
  have hwait : t.fsm.state ≠ .wait := by rw [hs]; exact State.noConfusion
  have hdrop : t.fsm.state ≠ .drop := by rw [hs]; exact State.noConfusion
  have hclosing : Closing done r (k + 1) (rxNext t c) := by
    refine ⟨(good_quiet hwait).1, rden_quiet hwait hdrop, ?_, hwcnt, ?_, fifo_kept h.info h.rden,
      (good_quiet hwait).2.trans h.front, ?_, Csum.closing_next hlo h.csum hidle fun _ => rfl,
      (Csum.sof_idle hidle).trans h.sof⟩
    · simp only [rxNext, next, hs, reduceCtorEq, if_false, h.reg]
    · simp only [rxNext, next, hs, reduceCtorEq, if_false, h.good, Bool.false_eq_true, h.cnt]
    · -- In the fifth cycle the checksum is there.
      have hsum : k = 4 → Csum.rxSum t.csum = Csum.rxSumOf (Csum.packetSum 0xE 0x0 r.beats) := by
        rintro rfl
        exact h.csum.1
      rw [status_next, if_pos hs, h.status, h.wcnt, h.reg, List.append_assoc,
        status_take_succ r (by omega) hsum (fun _ => h.cnt)]
  have hns : (rxNext t c).fsm.state = if k = 5 then .done else .eof := by
    simp only [rxNext, next, stateNs, hs, h.wcnt]
    interval_cases k <;> rfl
  -- The sixth word ends the packet.
  by_cases hk : k = 5
  · rw [if_pos hk] at hns
    rw [hk] at hclosing
    exact .done done r rest hrs hns hclosing
  · rw [if_neg hk] at hns
    exact .eof done r rest hrs (k + 1) (by omega) (by omega) hns hclosing

/-- The packet is over. -/
theorem step_done (hrs : rs = done ++ r :: rest) (hs : t.fsm.state = .done)
    (h : Closing done r 6 t) : Stage rs (rxNext t c) := by
  have hidle : (csumInput t.fsm).dataFifoWren = false := h.good
  have hrs' : rs = (done ++ [r]) ++ rest := by rw [hrs, List.append_assoc, List.singleton_append]
  have hwait : t.fsm.state ≠ .wait := by rw [hs]; exact State.noConfusion
  have heof : t.fsm.state ≠ .eof := by rw [hs]; exact State.noConfusion
  have hdrop : t.fsm.state ≠ .drop := by rw [hs]; exact State.noConfusion
  refine .idle (done ++ [r]) rest hrs' ?_ ⟨(good_quiet hwait).1, (ctrl_quiet heof).1,
    rden_quiet hwait hdrop, fifo_kept h.info h.rden, (good_quiet hwait).2.trans h.front, ?_,
    (Csum.sof_idle hidle).trans h.sof⟩
  · simp only [rxNext, next, stateNs, hs]
  · -- Six words are all of them.
    rw [(ctrl_quiet heof).2, h.status, statuses_append,
      List.take_of_length_le (by rw [status_length])]
    exact congrArg _ (List.append_nil _).symm

/-- A good packet is never dropped. -/
theorem state_ne_drop (h : Stage rs t) : t.fsm.state ≠ .drop := by
  rcases h with ⟨_, _, _, hs, _⟩ | ⟨_, _, _, _, hs, _⟩ | ⟨_, _, _, _, _, _, _, _, _, hs, _⟩ |
    ⟨_, _, _, _, _, _, _, hs, _⟩ | ⟨_, _, _, _, _, _, _, hs, _⟩ | ⟨_, _, _, _, hs, _⟩ <;>
    rw [hs] <;> exact State.noConfusion

/-- What is read from the data FIFO goes onto the write port. -/
theorem kept_next (hinv : Inv rs t) (hc : Supplied rs t c) :
    (rxNext t c).fedData = front (rxNext t c) ++ (rxNext t c).dataFifo := by
  have hdrop := state_ne_drop hinv.stage
  rw [front_next]
  -- The data FIFO is read in this state and, for bad packets, in the one that drops.
  by_cases hs : t.fsm.state = .wait
  · have hrd : dataFifoRden t.fsm = true := by rw [dataFifoRden, hs]; rfl
    cases hfifo : t.dataFifo with
    | nil => exact absurd hfifo (hc.ready hs)
    | cons y ys =>
        have hport : (ports t c).dataFifoRdata = y := by
          simp only [ports, hfifo, List.headD_cons]
        rw [if_pos hs, hport]
        exact fifo_taken hinv.kept hrd (by rw [hfifo, List.head?_cons])
  · have hrd : dataFifoRden t.fsm = false := by
      rw [dataFifoRden, beq_false_of_ne hs, beq_false_of_ne hdrop]
      rfl
    rw [if_neg hs, List.append_nil]
    exact fifo_kept hinv.kept hrd

/-- A clock cycle keeps the invariant. -/
theorem step_inv (hinv : Inv rs t) (hc : Supplied rs t c) : Inv rs (rxNext t c) := by
  refine ⟨?_, kept_next hinv hc, hc.data, hc.info⟩
  rcases hinv.stage with ⟨done, rest, hrs, hs, h⟩ | ⟨done, r, rest, hrs, hs, h, hbegun, hcnt⟩ |
    ⟨done, r, rest, hrs, pre, x, post, hbeats, hpost, hs, hrden, h⟩ |
    ⟨done, r, rest, hrs, pre, x, hbeats, hs, hrden, h⟩ |
    ⟨done, r, rest, hrs, k, hlo, hhi, hs, h⟩ | ⟨done, r, rest, hrs, hs, h⟩
  · exact step_idle hinv hrs hs h
  · exact step_first hinv hrs hs (hc.ready hs) h hbegun hcnt
  · exact step_wait hinv hrs hbeats hpost hs (hc.ready hs) hrden h
  · exact step_last hrs hbeats hs hrden h
  · exact step_eof hrs hlo hhi hs h
  · exact step_done hrs hs h

/-- After reset nothing has happened. -/
theorem afterReset_inv (h0 : AfterReset t) : Inv rs t := by
  have hfront : front t = [] := by
    rw [front, h0.goodFed, goodWriting, h0.goodFifoWren]
    rfl
  have hstatus : status t = [] := by
    rw [status, h0.ctrlFed, ctrlWriting, h0.ctrlFifoWren]
    rfl
  refine ⟨.idle [] rs rfl h0.state
    ⟨h0.goodFifoWren, h0.ctrlFifoWren, h0.infoFifoRden, ?_, hfront, hstatus, h0.sof⟩, ?_, ?_, ?_⟩
  · rw [h0.fedInfo, h0.infoFifo]
    rfl
  · rw [h0.fedData, hfront, h0.dataFifo]
    rfl
  · rw [h0.fedData]
    exact ⟨[], List.nil_prefix⟩
  · rw [h0.fedInfo]
    exact List.nil_prefix

/-- What comes of some packets and of a part of the next one. -/
theorem flatMap_part {α : Type} (f : Packet → List α) (done : List Packet) {r : Packet}
    (rest : List Packet) {part : List α} (h : part <+: f r) :
    done.flatMap f ++ part <+: (done ++ r :: rest).flatMap f := by
  rw [List.flatMap_append, List.flatMap_cons, List.prefix_append_right_inj]
  exact h.trans (List.prefix_append _ _)

/-- What is written to the good FIFO is a beginning of the packets, and what is
    written to the control FIFO is a beginning of their status words. -/
theorem written_begins (h : Stage rs t) : front t <+: beatsOf rs ∧ status t <+: statuses rs := by
  have hdone (done rest : List Packet) : beatsOf done <+: beatsOf (done ++ rest) ∧
      statuses done <+: statuses (done ++ rest) :=
    ⟨(List.prefix_append done rest).flatMap _, (List.prefix_append done rest).flatMap _⟩
  have hnext (done : List Packet) (r : Packet) (rest : List Packet) :
      beatsOf (done ++ [r]) <+: beatsOf (done ++ r :: rest) := by
    have hbegin := (hdone (done ++ [r]) rest).1
    rw [List.append_assoc, List.singleton_append] at hbegin
    exact hbegin
  rcases h with ⟨done, rest, rfl, _, h⟩ | ⟨done, r, rest, rfl, _, h, _⟩ |
    ⟨done, r, rest, rfl, pre, x, post, hbeats, _, _, _, h⟩ |
    ⟨done, r, rest, rfl, pre, x, hbeats, _, _, h⟩ |
    ⟨done, r, rest, rfl, k, _, _, _, h⟩ | ⟨done, r, rest, rfl, _, h⟩
  · rw [h.front, h.status]
    exact hdone done rest
  · rw [h.front, h.status]
    exact hdone done (r :: rest)
  · rw [h.front, h.status]
    refine ⟨flatMap_part _ done rest ?_, (hdone done (r :: rest)).2⟩
    exact ⟨post, by rw [hbeats, List.append_assoc, List.singleton_append]⟩
  · rw [h.front, h.status]
    exact ⟨flatMap_part _ done rest (by rw [hbeats]), (hdone done (r :: rest)).2⟩
  · rw [h.front, h.status]
    exact ⟨hnext done r rest, flatMap_part _ done rest (List.take_prefix k _)⟩
  · rw [h.front, h.status]
    exact ⟨hnext done r rest, flatMap_part _ done rest (List.take_prefix 6 _)⟩

/-- More packets may follow. -/
theorem stage_append (h : Stage rs t) (qs : List Packet) : Stage (rs ++ qs) t := by
  have hrest {done rest : List Packet} (hrs : rs = done ++ rest) :
      rs ++ qs = done ++ (rest ++ qs) := by
    rw [hrs, List.append_assoc]
  cases h with
  | idle done rest hrs hs h => exact .idle done _ (hrest hrs) hs h
  | first done r rest hrs hs h hbegun hcnt => exact .first done r _ (hrest hrs) hs h hbegun hcnt
  | wait done r rest hrs pre x post hbeats hpost hs hrden h =>
      exact .wait done r _ (hrest hrs) pre x post hbeats hpost hs hrden h
  | last done r rest hrs pre x hbeats hs hrden h =>
      exact .last done r _ (hrest hrs) pre x hbeats hs hrden h
  | eof done r rest hrs k hlo hhi hs h => exact .eof done r _ (hrest hrs) k hlo hhi hs h
  | done done r rest hrs hs h => exact .done done r _ (hrest hrs) hs h

/-- The packet that is being copied has an entry, so if the packets with an entry
    are in the data FIFO, the copy does not find it empty. -/
theorem ready_of_visible (hinv : Inv rs t) (hs : t.fsm.state = .wait)
    (hvisible : (beatsOf (rs.take t.fedInfo.length)).length ≤ t.fedData.length) :
    t.dataFifo ≠ [] := by
  -- What is left of the packet is still in the FIFO.
  have hleft (done : List Packet) (r : Packet) (rest : List Packet)
      (hrs : rs = done ++ r :: rest) (pre post : List Beat) (hbeats : r.beats = pre ++ post)
      (hpost : post ≠ []) (hfront : front t = beatsOf done ++ pre)
      (hinfo : t.fedInfo = entriesOf done ++ t.infoFifo) (hbegun : Begun r t) :
      t.dataFifo ≠ [] := by
    intro hempty
    have hentry : done.length + 1 ≤ t.fedInfo.length := by
      rw [hinfo, List.eq_cons_of_mem_head? hbegun.head, List.length_append, entriesOf,
        List.length_map, List.length_cons]
      omega
    have hin : done ++ [r] <+: rs.take t.fedInfo.length := by
      rw [List.prefix_take_iff, hrs, List.length_append, List.length_singleton]
      refine ⟨⟨rest, ?_⟩, hentry⟩
      rw [List.append_assoc, List.singleton_append]
    have hlen := (hin.flatMap Packet.beats).length_le
    have hkept := congrArg List.length hinv.kept
    have hpos := List.length_pos_iff.mpr hpost
    rw [List.flatMap_append, List.flatMap_singleton, hbeats, List.length_append,
      List.length_append] at hlen
    rw [hempty, List.append_nil, hfront, List.length_append] at hkept
    unfold beatsOf at hvisible hkept
    omega
  rcases hinv.stage with ⟨_, _, _, hstate, _⟩ | ⟨done, r, rest, hrs, _, h, hbegun, _⟩ |
    ⟨done, r, rest, hrs, pre, x, post, hbeats, hpost, _, _, h⟩ |
    ⟨_, _, _, _, _, _, _, hstate, _, _⟩ | ⟨_, _, _, _, _, _, _, hstate, _⟩ |
    ⟨_, _, _, _, hstate, _⟩
  · exact absurd (hstate.symm.trans hs) State.noConfusion
  · exact hleft done r rest hrs [] r.beats rfl r.ends.ne_nil (by rw [h.front, List.append_nil])
      h.info hbegun
  · refine hleft done r rest hrs (pre ++ [x]) post ?_ hpost h.front h.info h.begun
    rw [hbeats, List.append_assoc, List.singleton_append]
  · exact absurd (hstate.symm.trans hs) State.noConfusion
  · exact absurd (hstate.symm.trans hs) State.noConfusion
  · exact absurd (hstate.symm.trans hs) State.noConfusion

end Step

end Ifm

end Eth

end Ml605
