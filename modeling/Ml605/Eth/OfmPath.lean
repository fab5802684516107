import Ml605.Lib.Fifo
import Ml605.Eth.SmallFifo
import Ml605.Eth.OfmInRun

/-!
# The Transmit Path from the Streams to the MAC

The input side in the stream clock and the output side in the transmit clock,
with the FIFOs between them and the transmit FIFO in front of the MAC. Either
clock may tick at any time, and what the input side has written is seen by the
output side some time later, in order.

The output side takes a packet from the data FIFO when it finds an entry in the
control FIFO, and it gives the entry back when it has read the last beat. It
follows the last flags alone, so it depends on packets of two beats at least:
the first beat is read without a look at its flag.

## Main definitions

* `Path`, `Event`, `Path.next`: Both sides and the ticks of the two clocks.
* `dataReads`, `ctrlReads`: The words read from the FIFOs.
* `Reading`: Which packets the output side has read.
* `Carried`: What both sides have in common.

## Theorems

* `reading_next`: A tick of the transmit clock.
* `account_next`: What has been read is written two cycles later.
* `mm2s_pass`, `mm2s_end`, `tx_next`: The ticks of the two clocks.
* `reads_le`: The counts of words read only grow.
-/

namespace Ml605

namespace Eth

namespace OfmPath

open Lib
open Ofm (TxCs Tx ports txNext writing dataFifoRden ctrlFifoRden)
open OfmIn (Packet Offload beatsOf beatsOf_append beatsOf_cons beatsOf_singleton)

/-- Both sides, the write side of the control FIFO, the transmit FIFO, and what
    the MAC has taken. -/
structure Path where
  mm2s : Offload
  tx : Tx
  ctrl : SmallFifo.WriteSide
  txFifo : List Beat
  mac : List Beat

/-- A cycle of the transmit clock: the surroundings of the output side, and how
    many more words of either FIFO it gets to see. -/
structure ReadCycle where
  txFifoAfull : Bool
  txAxisMacTready : Bool
  dataSeen : Nat
  ctrlSeen : Nat
  idleData : Beat
  idleCtrl : TxCs

/-- The ticks of the stream clock and of the transmit clock. -/
inductive Event
  | mm2sClk (c : OfmIn.Cycle)
  | txClk (c : ReadCycle)

/-- The words read from the data FIFO. -/
def dataReads (t : Tx) : Nat := t.fedData.length - t.dataFifo.length

/-- The entries read from the control FIFO. -/
def ctrlReads (t : Tx) : Nat := t.fedCtrl.length - t.ctrlFifo.length

namespace Path

/-- The almost-full flag of the control FIFO is its register, not an input. -/
def input (s : Path) (c : OfmIn.Cycle) : OfmIn.Cycle :=
  { c with ctrlFifoAfull := s.ctrl.wAlmostFull }

/-- The words that have been written and are not yet seen, as far as they are
    seen now. -/
def cycle (s : Path) (c : ReadCycle) : Ofm.Cycle :=
  { txFifoAfull := c.txFifoAfull
    newData := (s.mm2s.dataFed.drop s.tx.fedData.length).take c.dataSeen
    newCtrl := (s.mm2s.ctrlFed.drop s.tx.fedCtrl.length).take c.ctrlSeen
    idleData := c.idleData
    idleCtrl := c.idleCtrl }

/-- A tick of one of the clocks. -/
def next (s : Path) : Event → Path
  | .mm2sClk c =>
      { s with
        mm2s := s.mm2s.next (s.input c)
        ctrl := s.ctrl.next 8 s.mm2s.fsm.ctrlFifoWren (ctrlReads s.tx) }
  | .txClk c =>
      { s with
        tx := txNext s.tx (s.cycle c)
        txFifo := (if c.txAxisMacTready then s.txFifo.tail else s.txFifo) ++ writing s.tx.fsm
        mac := s.mac ++ if c.txAxisMacTready then s.txFifo.head?.toList else [] }

end Path

/-- Both sides after reset. -/
structure AfterReset (s : Path) : Prop where
  mm2s : OfmIn.AfterReset s.mm2s
  tx : Ofm.AfterReset s.tx
  ctrl : s.ctrl = SmallFifo.reset
  txFifo : s.txFifo = []
  mac : s.mac = []

/-- The output side has read the packets `gone`, and the state tells how much of
    the next one. Its entry stays in the control FIFO until it has been read. -/
inductive Reading (ps : List Packet) (t : Tx) (gone : List Packet) : Prop
  | idle (rest : List Packet) (hps : ps = gone ++ rest) (state : t.fsm.state = .idle)
      (data : t.fedData = beatsOf gone ++ t.dataFifo)
      (ctrl : t.fedCtrl.length = gone.length + t.ctrlFifo.length) (rden : t.fsm.fifoRden = false)
  | sof (rest : List Packet) (hps : ps = gone ++ rest) (state : t.fsm.state = .sof)
      (data : t.fedData = beatsOf gone ++ t.dataFifo)
      (ctrl : t.fedCtrl.length = gone.length + t.ctrlFifo.length) (entry : t.ctrlFifo ≠ [])
      (rden : t.fsm.fifoRden = false) (wren : t.fsm.txFifoWren = false)
  | data (q : Packet) (rest : List Packet) (hps : ps = gone ++ q :: rest)
      (state : t.fsm.state = .data) (pre post : List Beat) (hbeats : q.beats = pre ++ post)
      (hpost : post ≠ []) (data : t.fedData = beatsOf gone ++ pre ++ t.dataFifo)
      (ctrl : t.fedCtrl.length = gone.length + t.ctrlFifo.length) (entry : t.ctrlFifo ≠ [])
  | eof (q : Packet) (rest : List Packet) (hps : ps = gone ++ q :: rest)
      (state : t.fsm.state = .eof) (data : t.fedData = beatsOf gone ++ q.beats ++ t.dataFifo)
      (ctrl : t.fedCtrl.length = gone.length + t.ctrlFifo.length) (entry : t.ctrlFifo ≠ [])

/-- What is assumed of the streams: they offer the packets in order. -/
def Offering (ps : List Packet) (s : Path) : Event → Prop
  | .mm2sClk c => OfmIn.Offered ps s.mm2s c
  | .txClk _ => True

/-- What has been read is written, about to be written or in hand. -/
def Account (t : Tx) : Prop :=
  t.written.length + (writing t.fsm).length + (if t.fsm.fifoRden then 1 else 0) = dataReads t

/-- What both sides have in common: the input side has taken the packets `done`,
    and the output side has read the packets `gone`. -/
structure Carried (ps : List Packet) (s : Path) (done gone : List Packet) : Prop where
  mm2s : OfmIn.Inv ps s.mm2s done
  tx : Reading ps s.tx gone
  account : Account s.tx
  data : s.tx.fedData <+: s.mm2s.dataFed
  ctrl : s.tx.fedCtrl <+: s.mm2s.ctrlFed
  mac : s.tx.written = s.mac ++ s.txFifo

section Registers

variable {ps gone : List Packet} {t : Tx} {c : Ofm.Cycle}

/-- Either there is nothing to read or the first word is presented. -/
theorem data_cases (t : Tx) (c : Ofm.Cycle) :
    (t.dataFifo = [] ∧ (ports t c).dataFifoEmpty = true) ∨
      ∃ x, t.dataFifo.head? = some x ∧ (ports t c).dataFifoEmpty = false ∧
        (ports t c).dataFifoRdata = x := by
  cases hfifo : t.dataFifo with
  | nil => exact Or.inl ⟨rfl, by rw [ports, hfifo]; rfl⟩
  | cons x back => exact Or.inr ⟨x, rfl, by rw [ports, hfifo]; rfl, by rw [ports, hfifo]; rfl⟩

/-- Only the end of a packet takes an entry. -/
theorem ctrl_keep (h : t.fsm.state ≠ .eof)
    (hctrl : t.fedCtrl.length = gone.length + t.ctrlFifo.length) :
    (txNext t c).fedCtrl.length = gone.length + (txNext t c).ctrlFifo.length := by
  have hno : ctrlFifoRden t.fsm = false := beq_eq_false_iff_ne.mpr h
  simp only [txNext, hno, Bool.false_eq_true, if_false, List.length_append]
  omega

theorem entry_keep (h : t.fsm.state ≠ .eof) (hentry : t.ctrlFifo ≠ []) :
    (txNext t c).ctrlFifo ≠ [] := by
  have hno : ctrlFifoRden t.fsm = false := beq_eq_false_iff_ne.mpr h
  simp only [txNext, hno, Bool.false_eq_true, if_false]
  exact List.append_ne_nil_of_left_ne_nil hentry _

/-- A cycle that reads nothing. -/
theorem data_kept {taken : List Beat} (hdata : t.fedData = taken ++ t.dataFifo)
    (hno : dataFifoRden t.fsm (ports t c) = false) :
    (txNext t c).fedData = taken ++ (txNext t c).dataFifo := fifo_kept hdata hno

/-- A cycle that reads a word. -/
theorem data_taken {taken : List Beat} {x : Beat} (hdata : t.fedData = taken ++ t.dataFifo)
    (hyes : dataFifoRden t.fsm (ports t c) = true) (hx : t.dataFifo.head? = some x) :
    (txNext t c).fedData = taken ++ [x] ++ (txNext t c).dataFifo := fifo_taken hdata hyes hx

theorem reads_of_data {taken : List Beat} (hdata : t.fedData = taken ++ t.dataFifo) :
    dataReads t = taken.length := by
  rw [dataReads, hdata, List.length_append, Nat.add_sub_cancel_right]

/-- What has been read is written two cycles later. -/
theorem account_next {taken : List Beat} (hdata : t.fedData = taken ++ t.dataFifo)
    (h : Account t) : Account (txNext t c) := by
  have hmove : (txNext t c).written.length + (writing (txNext t c).fsm).length = dataReads t := by
    have hwritten : (txNext t c).written = t.written ++ writing t.fsm := rfl
    have hwriting : (writing (txNext t c).fsm).length = if t.fsm.fifoRden then 1 else 0 := by
      have hwren : (txNext t c).fsm.txFifoWren = t.fsm.fifoRden := rfl
      rw [writing, hwren]
      split_ifs <;> rfl
    rw [hwritten, hwriting, List.length_append]
    exact h
  have hrden : (txNext t c).fsm.fifoRden = dataFifoRden t.fsm (ports t c) := rfl
  unfold Account
  rw [hmove, hrden, reads_of_data hdata]
  cases hread : dataFifoRden t.fsm (ports t c) with
  | false => rw [reads_of_data (data_kept hdata hread), if_neg Bool.false_ne_true, Nat.add_zero]
  | true =>
      -- A word is only read if there is one.
      rcases data_cases t c with ⟨_, hempty⟩ | ⟨x, hx, _, _⟩
      · simp only [dataFifoRden, hempty, Bool.not_true, Bool.and_false, Bool.or_false] at hread
        exact absurd hread Bool.false_ne_true
      · rw [reads_of_data (data_taken hdata hread hx), if_pos rfl, List.length_append,
          List.length_singleton]

/-- What has been read is some list of beats. -/
theorem taken_of_reading (h : Reading ps t gone) :
    ∃ taken, t.fedData = taken ++ t.dataFifo ∧ beatsOf gone <+: taken := by
  cases h with
  | idle rest hps state data => exact ⟨_, data, List.prefix_rfl⟩
  | sof rest hps state data => exact ⟨_, data, List.prefix_rfl⟩
  | data q rest hps state pre post hbeats hpost data =>
      exact ⟨_, data, List.prefix_append _ _⟩
  | eof q rest hps state data => exact ⟨_, data, List.prefix_append _ _⟩

end Registers

section Reads

variable {ps gone : List Packet} {t : Tx} {c : Ofm.Cycle}

/-- From `S_IDLE` on. -/
theorem reading_idle {rest : List Packet} (hps : ps = gone ++ rest)
    (hstate : t.fsm.state = .idle) (hdata : t.fedData = beatsOf gone ++ t.dataFifo)
    (hctrl : t.fedCtrl.length = gone.length + t.ctrlFifo.length)
    (hrden : t.fsm.fifoRden = false) : Reading ps (txNext t c) gone := by
  have hne : t.fsm.state ≠ .eof := by rw [hstate]; decide
  have hno : dataFifoRden t.fsm (ports t c) = false := by
    rw [dataFifoRden, hstate]
    rfl
  have hns : (txNext t c).fsm.state = if !t.ctrlFifo.isEmpty then .sof else .idle := by
    simp only [txNext, Ofm.next, Ofm.stateNs, hstate]
    rfl
  have hdata' := data_kept (c := c) hdata hno
  have hctrl' := ctrl_keep (c := c) hne hctrl
  cases hempty : t.ctrlFifo.isEmpty with
  | true =>
      rw [hempty, Bool.not_true, if_neg Bool.false_ne_true] at hns
      exact .idle rest hps hns hdata' hctrl' hno
  | false =>
      rw [hempty, Bool.not_false, if_pos rfl] at hns
      have hentry : t.ctrlFifo ≠ [] := List.isEmpty_eq_false_iff.mp hempty
      exact .sof rest hps hns hdata' hctrl' (entry_keep hne hentry) hno hrden

/-- The first beat of a packet is read without a look at its flag. It is not the
    last one. -/
theorem reading_sof {rest : List Packet} (hps : ps = gone ++ rest)
    (hstate : t.fsm.state = .sof) (hdata : t.fedData = beatsOf gone ++ t.dataFifo)
    (hctrl : t.fedCtrl.length = gone.length + t.ctrlFifo.length) (hentry : t.ctrlFifo ≠ [])
    (hrden : t.fsm.fifoRden = false) (hfed : t.fedData <+: beatsOf ps) :
    Reading ps (txNext t c) gone := by
  have hne : t.fsm.state ≠ .eof := by rw [hstate]; decide
  have hctrl' := ctrl_keep (c := c) hne hctrl
  have hentry' := entry_keep (c := c) hne hentry
  have hread : dataFifoRden t.fsm (ports t c) = (!c.txFifoAfull && !t.dataFifo.isEmpty) := by
    rw [dataFifoRden, hstate]
    exact Bool.or_false _
  have hns : (txNext t c).fsm.state =
      if !c.txFifoAfull && !t.dataFifo.isEmpty then .data else .sof := by
    simp only [txNext, Ofm.next, Ofm.stateNs, hstate]
    rfl
  cases hgo : !c.txFifoAfull && !t.dataFifo.isEmpty with
  | false =>
      rw [hgo] at hread
      rw [hgo, if_neg Bool.false_ne_true] at hns
      exact .sof rest hps hns (data_kept hdata hread) hctrl' hentry' hread hrden
  | true =>
      rw [hgo] at hread
      rw [hgo, if_pos rfl] at hns
      rcases data_cases t c with ⟨hnil, _⟩ | ⟨x, hx, _, _⟩
      · rw [hnil] at hgo
        exact absurd (Bool.and_eq_true_iff.mp hgo).2 Bool.false_ne_true
      · -- The word belongs to a packet, which has another beat.
        rw [hps, beatsOf_append] at hfed
        have hback := fifo_continues hdata hfed
        rw [List.eq_cons_of_mem_head? hx] at hback
        cases rest with
        | nil => exact absurd hback.length_le (Nat.not_succ_le_zero _)
        | cons q rest =>
            have htwo := q.two
            rcases hq : q.beats with _ | ⟨y, post⟩
            · exact absurd hq q.ends.ne_nil
            · rw [beatsOf_cons, hq,
                List.cons_append, List.cons_prefix_cons] at hback
              rw [hq, List.length_cons] at htwo
              refine .data q rest hps hns [x] post ?_ ?_ (data_taken hdata hread hx) hctrl' hentry'
              · rw [hq, hback.1, List.singleton_append]
              · exact List.ne_nil_of_length_pos (by omega)

/-- A beat of a packet, up to its last one. -/
theorem reading_data {q : Packet} {rest : List Packet} {pre post : List Beat}
    (hps : ps = gone ++ q :: rest) (hstate : t.fsm.state = .data) (hbeats : q.beats = pre ++ post)
    (hpost : post ≠ []) (hdata : t.fedData = beatsOf gone ++ pre ++ t.dataFifo)
    (hctrl : t.fedCtrl.length = gone.length + t.ctrlFifo.length) (hentry : t.ctrlFifo ≠ [])
    (hfed : t.fedData <+: beatsOf ps) : Reading ps (txNext t c) gone := by
  have hne : t.fsm.state ≠ .eof := by rw [hstate]; decide
  have hctrl' := ctrl_keep (c := c) hne hctrl
  have hentry' := entry_keep (c := c) hne hentry
  have hread : dataFifoRden t.fsm (ports t c) = !(ports t c).dataFifoEmpty := by
    rw [dataFifoRden, hstate]
    exact Bool.false_or _
  have hns : (txNext t c).fsm.state =
      if (ports t c).dataFifoRdata.last && !(ports t c).dataFifoEmpty then .eof else .data := by
    simp only [txNext, Ofm.next, Ofm.stateNs, hstate]
  rcases data_cases t c with ⟨_, hempty⟩ | ⟨x, hx, hsome, hword⟩
  · rw [hempty, Bool.not_true] at hread hns
    rw [Bool.and_false, if_neg Bool.false_ne_true] at hns
    exact .data q rest hps hns pre post hbeats hpost (data_kept hdata hread) hctrl' hentry'
  · rw [hsome, Bool.not_false] at hread hns
    rw [Bool.and_true, hword] at hns
    have hdata' := data_taken hdata hread hx
    -- The word is the next one of the packet.
    have hnext : beatsOf gone ++ pre ++ [x] <+: beatsOf (gone ++ q :: rest) := by
      rw [← hps]
      refine List.IsPrefix.trans ?_ hfed
      rw [hdata, List.prefix_append_right_inj, List.eq_cons_of_mem_head? hx]
      exact List.prefix_append [x] _
    rcases OfmIn.txd_next hbeats hpost hnext with ⟨post', hbeats', hlast⟩
    by_cases hend : post' = []
    · rw [hlast, decide_eq_true hend, if_pos rfl] at hns
      rw [hend, List.append_nil] at hbeats'
      refine .eof q rest hps hns ?_ hctrl' hentry'
      rw [hdata', hbeats', List.append_assoc (beatsOf gone)]
    · rw [hlast, decide_eq_false hend, if_neg Bool.false_ne_true] at hns
      refine .data q rest hps hns (pre ++ [x]) post' hbeats' hend ?_ hctrl' hentry'
      rw [hdata', List.append_assoc (beatsOf gone)]

/-- The entry of a packet that has been read is given back. -/
theorem reading_eof {q : Packet} {rest : List Packet} (hps : ps = gone ++ q :: rest)
    (hstate : t.fsm.state = .eof) (hdata : t.fedData = beatsOf gone ++ q.beats ++ t.dataFifo)
    (hctrl : t.fedCtrl.length = gone.length + t.ctrlFifo.length) (hentry : t.ctrlFifo ≠ []) :
    Reading ps (txNext t c) (gone ++ [q]) := by
  have hno : dataFifoRden t.fsm (ports t c) = false := by
    rw [dataFifoRden, hstate]
    rfl
  have hpop : ctrlFifoRden t.fsm = true := by
    rw [ctrlFifoRden, hstate]
    rfl
  have hns : (txNext t c).fsm.state = .idle := by
    simp only [txNext, Ofm.next, Ofm.stateNs, hstate]
  refine .idle rest ?_ hns ?_ ?_ hno
  · rw [hps, List.append_assoc, List.singleton_append]
  · rw [data_kept hdata hno, beatsOf_append, beatsOf_singleton]
  · have hpos := List.length_pos_of_ne_nil hentry
    simp only [txNext, hpop, if_true, List.length_append, List.length_tail, List.length_singleton]
    omega

/-- A tick of the transmit clock. A packet is through when its end was reached. -/
theorem reading_next (h : Reading ps t gone) (hfed : t.fedData <+: beatsOf ps) :
    Reading ps (txNext t c) gone ∨
      t.fsm.state = .eof ∧ ∃ q rest, ps = gone ++ q :: rest ∧
        Reading ps (txNext t c) (gone ++ [q]) := by
  cases h with
  | idle rest hps state data ctrl rden => exact Or.inl (reading_idle hps state data ctrl rden)
  | sof rest hps state data ctrl entry rden wren =>
      exact Or.inl (reading_sof hps state data ctrl entry rden hfed)
  | data q rest hps state pre post hbeats hpost data ctrl entry =>
      exact Or.inl (reading_data hps state hbeats hpost data ctrl entry hfed)
  | eof q rest hps state data ctrl entry =>
      exact Or.inr ⟨state, q, rest, hps, reading_eof hps state data ctrl entry⟩

theorem afterReset_reading (ps : List Packet) (h : Ofm.AfterReset t) : Reading ps t [] := by
  refine .idle ps rfl h.state ?_ ?_ h.fifoRden
  · rw [h.fedData, h.dataFifo]
    rfl
  · rw [h.fedCtrl, h.ctrlFifo]
    rfl

end Reads

section Steps

variable {ps done gone : List Packet} {s : Path}

theorem dataFed_begins (h : OfmIn.Inv ps s.mm2s done) : s.mm2s.dataFed <+: beatsOf ps := by
  refine List.IsPrefix.trans ?_ (OfmIn.txd_eq h.stage).2.1
  rw [← h.written]
  exact List.prefix_append _ _

/-- The flags do not matter for what the streams offer. -/
theorem offered_input {c : OfmIn.Cycle} (hoff : OfmIn.Offered ps s.mm2s c) :
    OfmIn.Offered ps s.mm2s (s.input c) := ⟨hoff.txc, hoff.txd⟩

/-- A tick of the stream clock, when no packet ends. -/
theorem mm2s_pass {c : OfmIn.Cycle} (h : Carried ps s done gone)
    (hoff : OfmIn.Offered ps s.mm2s c) (hgo : s.mm2s.ending (s.input c) = false) :
    Carried ps (s.next (.mm2sClk c)) done gone :=
  ⟨OfmIn.inv_pass h.mm2s (offered_input hoff) hgo, h.tx, h.account,
    h.data.trans (List.prefix_append _ _), h.ctrl.trans (List.prefix_append _ _), h.mac⟩

/-- A tick of the stream clock, when a packet ends. -/
theorem mm2s_end {c : OfmIn.Cycle} (h : Carried ps s done gone)
    (hoff : OfmIn.Offered ps s.mm2s c) (hgo : s.mm2s.ending (s.input c) = true) :
    ∃ q, Carried ps (s.next (.mm2sClk c)) (done ++ [q]) gone := by
  rcases OfmIn.inv_end h.mm2s (offered_input hoff) hgo with ⟨q, hinv⟩
  exact ⟨q, hinv, h.tx, h.account, h.data.trans (List.prefix_append _ _),
    h.ctrl.trans (List.prefix_append _ _), h.mac⟩

/-- A tick of the transmit clock. -/
theorem tx_next {c : ReadCycle} (h : Carried ps s done gone) :
    Carried ps (s.next (.txClk c)) done gone ∨
      s.tx.fsm.state = .eof ∧ ∃ q rest, ps = gone ++ q :: rest ∧
        Carried ps (s.next (.txClk c)) done (gone ++ [q]) := by
  have hdata : (s.next (.txClk c)).tx.fedData <+: s.mm2s.dataFed := seen_begins h.data _
  have hctrl : (s.next (.txClk c)).tx.fedCtrl <+: s.mm2s.ctrlFed := seen_begins h.ctrl _
  have hmac : (s.next (.txClk c)).tx.written =
      (s.next (.txClk c)).mac ++ (s.next (.txClk c)).txFifo := by
    have hwritten : (s.next (.txClk c)).tx.written = s.tx.written ++ writing s.tx.fsm := rfl
    rw [hwritten, h.mac]
    exact (fifo_moves s.mac s.txFifo (writing s.tx.fsm) c.txAxisMacTready).symm
  rcases taken_of_reading h.tx with ⟨taken, htaken, _⟩
  have haccount : Account (s.next (.txClk c)).tx := account_next htaken h.account
  rcases reading_next (c := s.cycle c) h.tx (h.data.trans (dataFed_begins h.mm2s)) with
    htx | ⟨heof, q, rest, hps, htx⟩
  · exact Or.inl ⟨h.mm2s, htx, haccount, hdata, hctrl, hmac⟩
  · exact Or.inr ⟨heof, q, rest, hps, h.mm2s, htx, haccount, hdata, hctrl, hmac⟩

theorem step_carried {e : Event} (h : Carried ps s done gone) (hoff : Offering ps s e) :
    ∃ done' gone', Carried ps (s.next e) done' gone' := by
  cases e with
  | mm2sClk c =>
      cases hgo : s.mm2s.ending (s.input c) with
      | false => exact ⟨done, gone, mm2s_pass h hoff hgo⟩
      | true =>
          rcases mm2s_end h hoff hgo with ⟨q, hq⟩
          exact ⟨done ++ [q], gone, hq⟩
  | txClk c =>
      rcases tx_next (c := c) h with htx | ⟨_, q, _, _, htx⟩
      · exact ⟨done, gone, htx⟩
      · exact ⟨done, gone ++ [q], htx⟩

theorem afterReset_carried (ps : List Packet) (h0 : AfterReset s) : Carried ps s [] [] := by
  refine ⟨OfmIn.afterReset_inv ps h0.mm2s, afterReset_reading ps h0.tx, ?_, ?_, ?_, ?_⟩
  · rw [Account, dataReads, h0.tx.written, writing, h0.tx.txFifoWren, h0.tx.fifoRden,
      h0.tx.fedData, h0.tx.dataFifo]
    rfl
  · rw [h0.tx.fedData]
    exact List.nil_prefix
  · rw [h0.tx.fedCtrl]
    exact List.nil_prefix
  · rw [h0.tx.written, h0.mac, h0.txFifo]
    rfl

/-- The counts of words read only grow. -/
theorem reads_le (s : Path) (e : Event) : dataReads s.tx ≤ dataReads (s.next e).tx ∧
    ctrlReads s.tx ≤ ctrlReads (s.next e).tx ∧ s.mac.length ≤ (s.next e).mac.length := by
  cases e with
  | mm2sClk c => exact ⟨Nat.le_refl _, Nat.le_refl _, Nat.le_refl _⟩
  | txClk c =>
      refine ⟨fifo_reads_le s.tx.fedData s.tx.dataFifo _ _,
        fifo_reads_le s.tx.fedCtrl s.tx.ctrlFifo _ _, ?_⟩
      simp only [Path.next, List.length_append]
      exact Nat.le_add_right _ _

end Steps

end OfmPath

end Eth

end Ml605
