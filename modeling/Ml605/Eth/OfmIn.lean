import Ml605.Lib.Trace
import Ml605.Lib.Turns
import Ml605.Eth.CsumJob
import Ml605.Eth.OfmOut

/-!
# The Transmit Input Side

`ofm_in_fsm` takes a packet as six control words and a number of beats, on two
streams. The control words say where the checksum starts, where it goes and
what it starts from. The beats go to the data FIFO a cycle after they are
taken, and `eth_csum` watches that write port. Its result comes back some
cycles after the last beat, and only then the control entry is written. With
the cycle in which the last beat is taken as zero:

    cycle 1   the last beat is on the write port, the state is S_IDLE
    cycle 2   tlast_d1; at the earliest the first control word is taken
    cycle 3   end_hit_reg
    cycle 4   end_hit_d1, the sum is complete
    cycle 5   TxSum_valid
    cycle 6   the entry is on the write port
    cycle 9   at the earliest the next packet's first beat is taken.

The registers that hold the control words are loaded again meanwhile. The
insert position and the control bits were copied with the last beat, and
`TxCsBegin` is not looked at any more when the third word comes.

## Main definitions

* `Regs`, `Input`, `next`: The state machine.
* `Offload`, `Offload.next`: The state machine with the checksum pipeline and a
  record of what was taken and written.
* `Packet`, `Packet.entry`: A packet, and the control entry it should get.
* `Offered`: The streams offer the packets in order.
* `mark`: The end of a packet on its way through the registers.
* `Stage`: Which packets have been taken, and what the registers hold.
* `Ended`: What the registers hold for a packet that has ended.

## Theorems

* `mark_next`: The end of a packet moves on by one register.
* `stage_pass`, `stage_end`: A cycle inside a packet, and its last one.
* `ended_next`: The sum of a packet that has ended moves along.
* `entry_sum`: The sum in the entry is the checksum of the frame.
-/

namespace Ml605

namespace Eth

namespace OfmIn

open Lib Ofm

/-- The states `S_IDLE`, `S_CTRL`, `S_WAIT` and `S_DATA`. -/
inductive State
  | idle
  | ctrl
  | wait
  | data
deriving DecidableEq, Repr

/-- The registers. -/
structure Regs where
  state : State
  tcnt : BitVec 3
  ctrlFifoAfullReg : Bool
  dataFifoAfullReg : Bool
  txFlag : BitVec 4
  txCsCntrl : BitVec 2
  txCsBegin : BitVec 16
  txCsInsert : BitVec 16
  txCsInit : BitVec 16
  ctrlFifoWdata : TxCs
  ctrlFifoWren : Bool
  dataFifoWdata : Beat
  dataFifoWren : Bool
deriving DecidableEq, Repr

/-- A word of the control stream. -/
structure CtrlWord where
  tdata : BitVec 32
  tlast : Bool
deriving DecidableEq, Repr

/-- What comes from outside in a cycle: the two streams and the FIFO flags.
    `txc_tkeep` is left out, nothing reads it. -/
structure Cycle where
  txd : Beat
  txdTvalid : Bool
  txc : CtrlWord
  txcTvalid : Bool
  ctrlFifoAfull : Bool
  dataFifoAfull : Bool
deriving DecidableEq, Repr

/-- The inputs. -/
structure Input extends Cycle where
  txSumValid : Bool
  txSum : BitVec 16
deriving DecidableEq, Repr

/-- Output `txc_tready`. -/
def txcTready (s : Regs) : Bool := s.state == .ctrl

/-- Output `txd_tready`. -/
def txdTready (s : Regs) : Bool := s.state == .data

/-- The next state. -/
def stateNs (s : Regs) (i : Cycle) : State :=
  match s.state with
  | .idle => if i.txcTvalid && !s.ctrlFifoAfullReg then .ctrl else .idle
  | .ctrl => if i.txcTvalid && i.txc.tlast then .wait else .ctrl
  | .wait => if i.txdTvalid && !s.dataFifoAfullReg then .data else .wait
  | .data => if i.txdTvalid && i.txd.last then .idle else .data

/-- A control word is taken. -/
def txcTakes (s : Regs) (i : Cycle) : Bool := txcTready s && i.txcTvalid

/-- A beat is taken. -/
def txdTakes (s : Regs) (i : Cycle) : Bool := txdTready s && i.txdTvalid

/-- One clock cycle. -/
def next (s : Regs) (i : Input) : Regs :=
  let txcTaken := txcTakes s i.toCycle
  let txdTaken := txdTakes s i.toCycle
  let tdata := i.txc.tdata
  { state := stateNs s i.toCycle
    tcnt := if s.state = .idle then 0 else if txcTaken then s.tcnt + 1 else s.tcnt
    ctrlFifoAfullReg := i.ctrlFifoAfull
    dataFifoAfullReg := i.dataFifoAfull
    txFlag := if txcTaken && s.tcnt == 0 then tdata.extractLsb' 28 4 else s.txFlag
    txCsCntrl := if txcTaken && s.tcnt == 1 then tdata.extractLsb' 0 2 else s.txCsCntrl
    txCsBegin := if txcTaken && s.tcnt == 2 then tdata.extractLsb' 17 15 ++ 0#1 else s.txCsBegin
    txCsInsert := if txcTaken && s.tcnt == 2 then tdata.extractLsb' 1 15 ++ 0#1 else s.txCsInsert
    txCsInit := if txcTaken && s.tcnt == 3 then tdata.extractLsb' 0 16 else s.txCsInit
    ctrlFifoWdata :=
      { txCsSum := if i.txSumValid then i.txSum else s.ctrlFifoWdata.txCsSum
        txCsInsert := if txdTaken then s.txCsInsert else s.ctrlFifoWdata.txCsInsert
        txCsCntrl := if txdTaken then s.txCsCntrl else s.ctrlFifoWdata.txCsCntrl }
    ctrlFifoWren := i.txSumValid
    dataFifoWdata := i.txd
    dataFifoWren := txdTaken }

/-- A packet: six control words and at least two beats. -/
structure Packet where
  words : Fin 6 → BitVec 32
  beats : List Beat
  ends : EndsOnly Beat.last beats
  two : 2 ≤ beats.length

namespace Packet

/-- The control words on the stream. -/
def ctrl (p : Packet) : List CtrlWord := List.ofFn fun k => ⟨p.words k, decide (k = 5)⟩

def csCntrl (p : Packet) : BitVec 2 := (p.words 1).extractLsb' 0 2

/-- Both positions are even, their low bits are not taken over. -/
def csBegin (p : Packet) : BitVec 16 := (p.words 2).extractLsb' 17 15 ++ 0#1

def csInsert (p : Packet) : BitVec 16 := (p.words 2).extractLsb' 1 15 ++ 0#1

def csInit (p : Packet) : BitVec 16 := (p.words 3).extractLsb' 0 16

/-- The entry of a packet in the control FIFO. -/
def entry (p : Packet) : TxCs :=
  ⟨Csum.txSumOf (Csum.packetSum p.csBegin p.csInit p.beats), p.csInsert, p.csCntrl⟩

end Packet

theorem twoBeats_ends : EndsOnly Beat.last
    ([⟨0x0706050403020100, 0xFF, false⟩] ++ [⟨0x0F0E0D0C0B0A0908, 0xFF, true⟩]) :=
  endsOnly_snoc (fun x hx => by rw [List.mem_singleton.mp hx]) rfl

/-- A packet of two beats whose checksum is put into its second one. -/
def twoBeats : Packet where
  words := fun k => if k = 1 then 1 else if k = 2 then 0x00000008 else 0
  beats := [⟨0x0706050403020100, 0xFF, false⟩] ++ [⟨0x0F0E0D0C0B0A0908, 0xFF, true⟩]
  ends := twoBeats_ends
  two := Nat.le_refl _

/-- The control words of some packets. -/
def ctrlOf (ps : List Packet) : List CtrlWord := ps.flatMap Packet.ctrl

/-- The beats of some packets. -/
def beatsOf (ps : List Packet) : List Beat := ps.flatMap Packet.beats

/-- The state machine and the checksum pipeline, with a record: what was taken
    from the streams, what the FIFOs have taken, and how many cycles ago the
    last beat of a packet was taken. -/
structure Offload where
  fsm : Regs
  csum : Csum.Regs
  txc : List CtrlWord
  txd : List Beat
  ctrlFed : List TxCs
  dataFed : List Beat
  age : Nat
deriving DecidableEq, Repr

/-- The beat the data FIFO takes in this cycle. -/
def dataWriting (s : Regs) : List Beat := if s.dataFifoWren then [s.dataFifoWdata] else []

/-- The entry the control FIFO takes in this cycle. -/
def ctrlWriting (s : Regs) : List TxCs := if s.ctrlFifoWren then [s.ctrlFifoWdata] else []

namespace Offload

/-- The inputs of the state machine. -/
def input (s : Offload) (c : Cycle) : Input :=
  { c with txSumValid := s.csum.sumValid, txSum := Csum.txSum s.csum }

/-- The inputs of the checksum pipeline. -/
def csumInput (s : Offload) : Csum.Input :=
  ⟨s.fsm.dataFifoWren, s.fsm.dataFifoWdata, s.fsm.txCsBegin, s.fsm.txCsInit⟩

/-- The last beat of a packet is taken. -/
def ending (s : Offload) (c : Cycle) : Bool := txdTakes s.fsm c && c.txd.last

/-- One clock cycle with the record. -/
def next (s : Offload) (c : Cycle) : Offload :=
  { fsm := OfmIn.next s.fsm (s.input c)
    csum := Csum.next s.csum s.csumInput
    txc := s.txc ++ if txcTakes s.fsm c then [c.txc] else []
    txd := s.txd ++ if txdTakes s.fsm c then [c.txd] else []
    ctrlFed := s.ctrlFed ++ ctrlWriting s.fsm
    dataFed := s.dataFed ++ dataWriting s.fsm
    age := if s.ending c then 1 else s.age + 1 }

/-- What was written to the control FIFO, with the entry on its write port. -/
def entered (s : Offload) : List TxCs := s.ctrlFed ++ ctrlWriting s.fsm

/-- What was written to the data FIFO, with the beat on its write port. -/
def written (s : Offload) : List Beat := s.dataFed ++ dataWriting s.fsm

end Offload

/-- After reset, before the first packet. No packet has ended, so long ago. -/
structure AfterReset (s : Offload) : Prop where
  state : s.fsm.state = .idle
  ctrlFifoWren : s.fsm.ctrlFifoWren = false
  dataFifoWren : s.fsm.dataFifoWren = false
  csum : Csum.AfterReset s.csum
  txc : s.txc = []
  txd : s.txd = []
  ctrlFed : s.ctrlFed = []
  dataFed : s.dataFed = []
  age : s.age = 9

/-- What the streams offer are the words of the packets in order. -/
structure Offered (ps : List Packet) (s : Offload) (c : Cycle) : Prop where
  txc : c.txcTvalid = true → s.txc ++ [c.txc] <+: ctrlOf ps
  txd : c.txdTvalid = true → s.txd ++ [c.txd] <+: beatsOf ps

/-- The end of a packet on its way: the register that shows it `k` cycles after
    the last beat was taken. -/
def mark (s : Offload) : Nat → Bool
  | 1 => s.fsm.dataFifoWren && s.fsm.dataFifoWdata.last
  | 2 => s.csum.tvalidD1 && s.csum.tlastD1
  | 3 => s.csum.endHitReg
  | 4 => s.csum.endHitD1
  | 5 => s.csum.sumValid
  | 6 => s.fsm.ctrlFifoWren
  | _ => false

/-- The first `k` control words of a packet have been taken over. -/
structure Loaded (q : Packet) (k : Nat) (r : Regs) : Prop where
  txCsCntrl : 2 ≤ k → r.txCsCntrl = q.csCntrl
  txCsBegin : 3 ≤ k → r.txCsBegin = q.csBegin
  txCsInsert : 3 ≤ k → r.txCsInsert = q.csInsert
  txCsInit : 4 ≤ k → r.txCsInit = q.csInit

/-- No beat on the write port, and the pipeline waits for a first one. -/
def Quiet (s : Offload) : Prop := s.fsm.dataFifoWren = false ∧ s.csum.sof = true

/-- The packets `done` have been taken, and the state tells how far the next
    one is. The time since the last one ended is at least what the states
    passed since then take. -/
inductive Stage (ps : List Packet) (s : Offload) (done : List Packet) : Prop
  | idle (rest : List Packet) (hps : ps = done ++ rest) (state : s.fsm.state = .idle)
      (txc : s.txc = ctrlOf done) (txd : s.txd = beatsOf done)
      (age : 1 ≤ s.age) (quiet : 2 ≤ s.age → Quiet s)
  | ctrl (q : Packet) (rest : List Packet) (hps : ps = done ++ q :: rest)
      (state : s.fsm.state = .ctrl) (k : Nat) (hk : k < 6)
      (txc : s.txc = ctrlOf done ++ q.ctrl.take k) (txd : s.txd = beatsOf done)
      (tcnt : s.fsm.tcnt = BitVec.ofNat 3 k) (loaded : Loaded q k s.fsm)
      (age : 2 + k ≤ s.age) (quiet : Quiet s)
  | wait (q : Packet) (rest : List Packet) (hps : ps = done ++ q :: rest)
      (state : s.fsm.state = .wait)
      (txc : s.txc = ctrlOf done ++ q.ctrl) (txd : s.txd = beatsOf done)
      (loaded : Loaded q 6 s.fsm) (age : 8 ≤ s.age) (still : s.fsm.dataFifoWren = false)
      (csum : Csum.Passing q.csBegin q.csInit [] s.csum)
  | data (q : Packet) (rest : List Packet) (hps : ps = done ++ q :: rest)
      (state : s.fsm.state = .data) (pre post : List Beat) (hbeats : q.beats = pre ++ post)
      (hpost : post ≠ [])
      (txc : s.txc = ctrlOf done ++ q.ctrl) (txd : s.txd = beatsOf done ++ pre)
      (loaded : Loaded q 6 s.fsm) (age : 9 ≤ s.age) (through : List Beat)
      (port : pre = through ++ dataWriting s.fsm)
      (csum : Csum.Passing q.csBegin q.csInit through s.csum)

/-- What the registers hold of a packet `k` cycles after its last beat was taken. -/
def Ended (q : Packet) (s : Offload) (k : Nat) : Prop :=
  (s.fsm.ctrlFifoWdata.txCsInsert = q.csInsert ∧ s.fsm.ctrlFifoWdata.txCsCntrl = q.csCntrl) ∧
  match k with
  | 1 => s.fsm.dataFifoWren = true ∧ s.fsm.txCsBegin = q.csBegin ∧ s.fsm.txCsInit = q.csInit ∧
      ∃ through, q.beats = through ++ [s.fsm.dataFifoWdata] ∧
        Csum.Passing q.csBegin q.csInit through s.csum
  | 2 => s.fsm.txCsBegin = q.csBegin ∧ Csum.Closing q.csBegin q.csInit q.beats 1 s.csum
  | 6 => s.fsm.ctrlFifoWdata.txCsSum = q.entry.txCsSum
  | k => Csum.Closing q.csBegin q.csInit q.beats (k - 1) s.csum

section Packets

variable {ps done rest : List Packet} {q : Packet}

theorem beatsOf_append (ps qs : List Packet) : beatsOf (ps ++ qs) = beatsOf ps ++ beatsOf qs :=
  List.flatMap_append

theorem beatsOf_cons (q : Packet) (ps : List Packet) :
    beatsOf (q :: ps) = q.beats ++ beatsOf ps := rfl

theorem beatsOf_singleton (q : Packet) : beatsOf [q] = q.beats := List.flatMap_singleton ..

theorem ctrl_length (q : Packet) : q.ctrl.length = 6 := List.length_ofFn

/-- The control word that is offered is the next one of the packet. -/
theorem txc_next {k : Nat} (hk : k < 6) {w : CtrlWord}
    (h : ctrlOf done ++ q.ctrl.take k ++ [w] <+: ctrlOf (done ++ q :: rest)) :
    q.ctrl.take k ++ [w] = q.ctrl.take (k + 1) ∧ w = ⟨q.words ⟨k, hk⟩, decide (k = 5)⟩ := by
  have hlt : k < q.ctrl.length := by
    rw [ctrl_length]
    exact hk
  have hget : q.ctrl[k] = ⟨q.words ⟨k, hk⟩, decide (k = 5)⟩ := by
    simp only [Packet.ctrl, List.getElem_ofFn, Fin.ext_iff]
    rfl
  rw [List.append_assoc, ctrlOf, ctrlOf, List.flatMap_append, List.flatMap_cons,
    List.prefix_append_right_inj] at h
  have htake : q.ctrl.take k ++ [w] = q.ctrl.take (k + 1) := by
    have hlen : (q.ctrl.take k ++ [w]).length = k + 1 := by
      rw [List.length_append, List.length_take_of_le (Nat.le_of_lt hlt), List.length_singleton]
    have heq := List.prefix_iff_eq_take.mp h
    rw [hlen, List.take_append_of_le_length hlt] at heq
    exact heq
  refine ⟨htake, ?_⟩
  rw [List.take_succ_eq_append_getElem hlt, List.append_cancel_left_eq, hget] at htake
  exact List.singleton_injective htake

/-- The beat that is offered is the next one of the packet. -/
theorem txd_next {pre post : List Beat} {x : Beat} (hbeats : q.beats = pre ++ post)
    (hpost : post ≠ []) (h : beatsOf done ++ pre ++ [x] <+: beatsOf (done ++ q :: rest)) :
    ∃ post', q.beats = pre ++ [x] ++ post' ∧ x.last = decide (post' = []) := by
  cases post with
  | nil => exact absurd rfl hpost
  | cons y post' =>
      rw [beatsOf_append, beatsOf_cons, hbeats, List.append_assoc, List.append_assoc,
        List.prefix_append_right_inj, List.prefix_append_right_inj,
        List.cons_append, List.cons_prefix_cons] at h
      rw [h.1]
      refine ⟨post', ?_, q.ends.split pre y post' hbeats⟩
      rw [hbeats, List.append_assoc, List.singleton_append]

/-- A word that is offered belongs to a packet. -/
theorem rest_of_txc {w : CtrlWord} (h : ctrlOf done ++ [w] <+: ctrlOf (done ++ rest)) :
    ∃ q rest', rest = q :: rest' := by
  cases rest with
  | nil =>
      have hlen := h.length_le
      rw [List.append_nil, List.length_append, List.length_singleton] at hlen
      omega
  | cons q rest' => exact ⟨q, rest', rfl⟩

/-- The sum in the entry is the checksum of the frame. -/
theorem entry_sum (q : Packet) (j : Csum.Job) (hbeats : q.beats = j.frame.beats)
    (hbegin : q.csBegin = j.csBegin) (hinit : q.csInit = j.csInit) :
    q.entry.txCsSum = Csum.txSumOf j.value := by
  rw [Packet.entry, hbeats, hbegin, hinit, Csum.packetSum_job]

end Packets

section Registers

variable {s : Offload} {c : Cycle} {q : Packet} {k : Nat}

/-- The end of a packet moves on by one register. -/
theorem mark_next (hlo : 1 ≤ k) (hhi : k ≤ 5) : mark (s.next c) (k + 1) = mark s k := by
  interval_cases k <;> rfl

theorem mark_one : mark (s.next c) 1 = s.ending c := rfl

theorem takes_of_ending (h : s.ending c = true) :
    s.fsm.state = .data ∧ c.txdTvalid = true ∧ c.txd.last = true := by
  simp only [Offload.ending, txdTakes, txdTready, Bool.and_eq_true, beq_iff_eq] at h
  exact ⟨h.1.1, h.1.2, h.2⟩

theorem txdTakes_of_ne (h : s.fsm.state ≠ .data) : txdTakes s.fsm c = false := by
  rw [txdTakes, txdTready, beq_eq_false_iff_ne.mpr h, Bool.false_and]

theorem txcTakes_of_ne (h : s.fsm.state ≠ .ctrl) : txcTakes s.fsm c = false := by
  rw [txcTakes, txcTready, beq_eq_false_iff_ne.mpr h, Bool.false_and]

theorem ending_of_ne (h : s.fsm.state ≠ .data) : s.ending c = false := by
  rw [Offload.ending, txdTakes_of_ne h, Bool.false_and]

theorem age_pass (h : s.ending c = false) : (s.next c).age = s.age + 1 := by
  simp only [Offload.next, h, Bool.false_eq_true, if_false]

theorem age_end (h : s.ending c = true) : (s.next c).age = 1 := by
  simp only [Offload.next, h, if_true]

theorem txc_keep (h : s.fsm.state ≠ .ctrl) : (s.next c).txc = s.txc := by
  simp only [Offload.next, txcTakes_of_ne h, Bool.false_eq_true, if_false, List.append_nil]

theorem txd_keep (h : txdTakes s.fsm c = false) : (s.next c).txd = s.txd := by
  simp only [Offload.next, h, Bool.false_eq_true, if_false, List.append_nil]

/-- Outside `S_DATA` nothing comes to the write port. -/
theorem wren_next (h : s.fsm.state ≠ .data) : (s.next c).fsm.dataFifoWren = false :=
  txdTakes_of_ne h

/-- Outside `S_CTRL` the control words stay. -/
theorem loaded_keep (h : s.fsm.state ≠ .ctrl) (hl : Loaded q k s.fsm) :
    Loaded q k (s.next c).fsm := by
  have hno : txcTakes s.fsm (s.input c).toCycle = false := txcTakes_of_ne h
  refine ⟨fun hk => ?_, fun hk => ?_, fun hk => ?_, fun hk => ?_⟩
  all_goals simp only [Offload.next, next, hno, Bool.false_and, Bool.false_eq_true, if_false]
  · exact hl.txCsCntrl hk
  · exact hl.txCsBegin hk
  · exact hl.txCsInsert hk
  · exact hl.txCsInit hk

/-- A control word is taken over. -/
theorem loaded_next (hk : k < 6) (htcnt : s.fsm.tcnt = BitVec.ofNat 3 k)
    (htakes : txcTakes s.fsm c = true) (hw : c.txc.tdata = q.words ⟨k, hk⟩)
    (hl : Loaded q k s.fsm) : Loaded q (k + 1) (s.next c).fsm := by
  have hyes : txcTakes s.fsm (s.input c).toCycle = true := htakes
  have hdata : (s.input c).txc.tdata = q.words ⟨k, hk⟩ := hw
  rcases hl with ⟨hcntrl, hbegin, hinsert, hinit⟩
  refine ⟨fun hle => ?_, fun hle => ?_, fun hle => ?_, fun hle => ?_⟩
  all_goals
    simp only [Offload.next, next, hyes, hdata, htcnt, Bool.true_and]
    interval_cases k
  all_goals first
    | exact absurd hle (by decide)
    | rfl
    | exact hcntrl (by decide)
    | exact hbegin (by decide)
    | exact hinsert (by decide)
    | exact hinit (by decide)

/-- After the last beat, or while nothing happens, the pipeline is quiet. -/
theorem quiet_next (hstate : s.fsm.state ≠ .data) (h : mark s 1 = true ∨ Quiet s) :
    Quiet (s.next c) := by
  refine ⟨wren_next hstate, ?_⟩
  rcases h with hend | ⟨hw, hsof⟩
  · have hlast : (s.fsm.dataFifoWren && s.fsm.dataFifoWdata.last) = true := hend
    simp only [Offload.next, Csum.next, Offload.csumInput, hlast, if_true]
  · exact (Csum.sof_idle (i := s.csumInput) hw).trans hsof

end Registers

section Stages

variable {ps done : List Packet} {s : Offload} {c : Cycle}

theorem age_pos (h : Stage ps s done) : 1 ≤ s.age := by
  cases h <;> omega

/-- A packet ends only some time after the one before it. -/
theorem age_of_data (h : Stage ps s done) (hstate : s.fsm.state = .data) : 9 ≤ s.age := by
  cases h with
  | data q rest hps state pre post hbeats hpost txc txd loaded age through port csum => exact age
  | idle rest hps state => exact absurd (hstate.symm.trans state) (by decide)
  | ctrl q rest hps state => exact absurd (hstate.symm.trans state) (by decide)
  | wait q rest hps state => exact absurd (hstate.symm.trans state) (by decide)

/-- In the cycle after the last beat the state machine is idle. -/
theorem idle_of_age (h : Stage ps s done) (hage : s.age = 1) : s.fsm.state = .idle := by
  cases h <;> first | assumption | omega

/-- From `S_IDLE` on. -/
theorem stage_idle (hps : ∃ rest, ps = done ++ rest) (hstate : s.fsm.state = .idle)
    (htxc : s.txc = ctrlOf done) (htxd : s.txd = beatsOf done) (hage : 1 ≤ s.age)
    (hquiet : mark s 1 = true ∨ Quiet s) (hoff : Offered ps s c) : Stage ps (s.next c) done := by
  rcases hps with ⟨rest, hps⟩
  have hdata : s.fsm.state ≠ .data := by rw [hstate]; decide
  have hctrl : s.fsm.state ≠ .ctrl := by rw [hstate]; decide
  have hage' := age_pass (ending_of_ne (c := c) hdata)
  have htxc' := (txc_keep (c := c) hctrl).trans htxc
  have htxd' := (txd_keep (txdTakes_of_ne (c := c) hdata)).trans htxd
  have hquiet' := quiet_next (c := c) hdata hquiet
  have hns : (s.next c).fsm.state =
      if c.txcTvalid && !s.fsm.ctrlFifoAfullReg then .ctrl else .idle := by
    simp only [Offload.next, next, stateNs, hstate]
    rfl
  cases hgo : c.txcTvalid && !s.fsm.ctrlFifoAfullReg with
  | false =>
      rw [hgo, if_neg Bool.false_ne_true] at hns
      exact .idle rest hps hns htxc' htxd' (by omega) fun _ => hquiet'
  | true =>
      rw [hgo, if_pos rfl] at hns
      -- A control word that moves is one of a packet not yet taken, the first of the rest.
      have hword := hoff.txc (Bool.and_eq_true_iff.mp hgo).1
      rw [htxc, hps] at hword
      rcases rest_of_txc hword with ⟨q, rest', rfl⟩
      refine .ctrl q rest' hps hns 0 (by decide) ?_ htxd' ?_ ?_ (by omega) hquiet'
      · rw [htxc', List.take_zero, List.append_nil]
      · simp only [Offload.next, next, hstate, if_true]
        rfl
      · refine ⟨?_, ?_, ?_, ?_⟩ <;> exact fun h => absurd h (by decide)

/-- From `S_CTRL` on. -/
theorem stage_ctrl {q : Packet} {rest : List Packet} {k : Nat} (hps : ps = done ++ q :: rest)
    (hstate : s.fsm.state = .ctrl) (hk : k < 6) (htxc : s.txc = ctrlOf done ++ q.ctrl.take k)
    (htxd : s.txd = beatsOf done) (htcnt : s.fsm.tcnt = BitVec.ofNat 3 k)
    (hl : Loaded q k s.fsm) (hage : 2 + k ≤ s.age) (hquiet : Quiet s) (hoff : Offered ps s c) :
    Stage ps (s.next c) done := by
  have hdata : s.fsm.state ≠ .data := by rw [hstate]; decide
  have hidle : s.fsm.state ≠ .idle := by rw [hstate]; decide
  have hage' := age_pass (ending_of_ne (c := c) hdata)
  have htxd' := (txd_keep (txdTakes_of_ne (c := c) hdata)).trans htxd
  have hquiet' := quiet_next (c := c) hdata (Or.inr hquiet)
  have hready : txcTakes s.fsm c = c.txcTvalid := by
    rw [txcTakes, txcTready, hstate]
    exact Bool.true_and _
  have hns : (s.next c).fsm.state = if c.txcTvalid && c.txc.tlast then .wait else .ctrl := by
    simp only [Offload.next, next, stateNs, hstate]
    rfl
  cases hv : c.txcTvalid with
  | false =>
      -- A gap in the control stream.
      rw [hv, Bool.false_and, if_neg Bool.false_ne_true] at hns
      rw [hv] at hready
      have hready' : txcTakes s.fsm (s.input c).toCycle = false := hready
      refine .ctrl q rest hps hns k hk ?_ htxd' ?_ ?_ (by omega) hquiet'
      · simp only [Offload.next, hready, Bool.false_eq_true, if_false, List.append_nil, htxc]
      · simp only [Offload.next, next, hready', hidle, Bool.false_eq_true, if_false, htcnt]
      · rcases hl with ⟨hcntrl, hbegin, hinsert, hinit⟩
        constructor <;> simp only [Offload.next, next, hready', Bool.false_and,
          Bool.false_eq_true, if_false] <;> assumption
  | true =>
      rw [hv] at hready
      have hword := hoff.txc hv
      rw [htxc, hps] at hword
      rcases txc_next hk hword with ⟨htake, hw⟩
      have hl' := loaded_next hk htcnt hready (congrArg CtrlWord.tdata hw) hl
      have htxc' : (s.next c).txc = ctrlOf done ++ q.ctrl.take (k + 1) := by
        simp only [Offload.next, hready, if_true, htxc, List.append_assoc, htake]
      rw [hv, Bool.true_and, hw] at hns
      by_cases hlast : k = 5
      · -- The sixth word: the mask of the checksum is prepared.
        subst hlast
        have hsof := (Csum.sof_idle (i := s.csumInput) hquiet.1).trans hquiet.2
        refine .wait q rest hps hns ?_ htxd' hl' (by omega) hquiet'.1
          (Or.inl ⟨rfl, hsof, Csum.maskBcnt_next (hl.txCsBegin (by decide)), hquiet.1⟩)
        rw [htxc', List.take_of_length_le (Nat.le_of_eq (ctrl_length q))]
      · simp only [decide_eq_false hlast, Bool.false_eq_true, if_false] at hns
        have hready' : txcTakes s.fsm (s.input c).toCycle = true := hready
        refine .ctrl q rest hps hns (k + 1) (by omega) htxc' htxd' ?_ hl' (by omega) hquiet'
        simp only [Offload.next, next, hready', hidle, if_true, if_false, htcnt]
        exact (BitVec.ofNat_add k 1).symm

/-- From `S_WAIT` on. -/
theorem stage_wait {q : Packet} {rest : List Packet} (hps : ps = done ++ q :: rest)
    (hstate : s.fsm.state = .wait) (htxc : s.txc = ctrlOf done ++ q.ctrl)
    (htxd : s.txd = beatsOf done) (hl : Loaded q 6 s.fsm) (hage : 8 ≤ s.age)
    (hstill : s.fsm.dataFifoWren = false) (hcsum : Csum.Passing q.csBegin q.csInit [] s.csum) :
    Stage ps (s.next c) done := by
  have hdata : s.fsm.state ≠ .data := by rw [hstate]; decide
  have hctrl : s.fsm.state ≠ .ctrl := by rw [hstate]; decide
  have hage' := age_pass (ending_of_ne (c := c) hdata)
  have htxc' := (txc_keep (c := c) hctrl).trans htxc
  have htxd' := (txd_keep (txdTakes_of_ne (c := c) hdata)).trans htxd
  have hl' := loaded_keep (c := c) hctrl hl
  have hstill' := wren_next (c := c) hdata
  have hcsum' := Csum.passing_idle (i := s.csumInput) hcsum hstill (hl.txCsBegin (by decide))
  have hns : (s.next c).fsm.state =
      if c.txdTvalid && !s.fsm.dataFifoAfullReg then .data else .wait := by
    simp only [Offload.next, next, stateNs, hstate]
    rfl
  split_ifs at hns
  · refine .data q rest hps hns [] q.beats rfl q.ends.ne_nil htxc' ?_ hl' (by omega) [] ?_ hcsum'
    · rw [htxd', List.append_nil]
    · rw [dataWriting, hstill', if_neg Bool.false_ne_true, List.append_nil]
  · exact .wait q rest hps hns htxc' htxd' hl' (by omega) hstill' hcsum'

/-- The beat on the write port goes through the pipeline. It is not the last one
    while more are to come. -/
theorem csum_data {q : Packet} {pre post through : List Beat} (hbeats : q.beats = pre ++ post)
    (hpost : post ≠ []) (hl : Loaded q 6 s.fsm) (hport : pre = through ++ dataWriting s.fsm)
    (hcsum : Csum.Passing q.csBegin q.csInit through s.csum) :
    Csum.Passing q.csBegin q.csInit pre (s.next c).csum := by
  have hbegin := hl.txCsBegin (by decide)
  have hinit := hl.txCsInit (by decide)
  cases hw : s.fsm.dataFifoWren with
  | false =>
      rw [hport, dataWriting, hw, if_neg Bool.false_ne_true, List.append_nil]
      exact Csum.passing_idle hcsum hw hbegin
  | true =>
      rw [dataWriting, hw, if_pos rfl] at hport
      have hlast : s.fsm.dataFifoWdata.last = false := by
        rw [hport, List.append_assoc, List.singleton_append] at hbeats
        rw [q.ends.split _ _ _ hbeats]
        exact decide_eq_false hpost
      rcases Csum.passing_beat (i := s.csumInput) hcsum hw hbegin hinit with
        ⟨s1, s2, htrack, hreg, hsof, hend⟩
      rw [hport]
      exact Or.inr ⟨s1, s2, htrack, hsof.trans hlast, hreg, hend.trans hlast⟩

/-- From `S_DATA` on, inside a packet. -/
theorem stage_data {q : Packet} {rest : List Packet} {pre post through : List Beat}
    (hps : ps = done ++ q :: rest) (hstate : s.fsm.state = .data) (hbeats : q.beats = pre ++ post)
    (hpost : post ≠ []) (htxc : s.txc = ctrlOf done ++ q.ctrl) (htxd : s.txd = beatsOf done ++ pre)
    (hl : Loaded q 6 s.fsm) (hage : 9 ≤ s.age) (hport : pre = through ++ dataWriting s.fsm)
    (hcsum : Csum.Passing q.csBegin q.csInit through s.csum) (hoff : Offered ps s c)
    (hgo : s.ending c = false) : Stage ps (s.next c) done := by
  have hctrl : s.fsm.state ≠ .ctrl := by rw [hstate]; decide
  have hage' := age_pass hgo
  have htxc' := (txc_keep (c := c) hctrl).trans htxc
  have hl' := loaded_keep (c := c) hctrl hl
  have hcsum' := csum_data (c := c) hbeats hpost hl hport hcsum
  have hready : txdTakes s.fsm c = c.txdTvalid := by
    rw [txdTakes, txdTready, hstate]
    exact Bool.true_and _
  rw [Offload.ending, hready] at hgo
  have hns : (s.next c).fsm.state = .data := by
    have hgo' : ((s.input c).txdTvalid && (s.input c).txd.last) = false := hgo
    simp only [Offload.next, next, stateNs, hstate, hgo', Bool.false_eq_true, if_false]
  have hwriting : dataWriting (s.next c).fsm = if c.txdTvalid then [c.txd] else [] := by
    rw [← hready]
    rfl
  cases hv : c.txdTvalid with
  | false =>
      rw [hv] at hready
      refine .data q rest hps hns pre post hbeats hpost htxc' ((txd_keep hready).trans htxd) hl'
        (by omega) pre ?_ hcsum'
      rw [hwriting, hv, if_neg Bool.false_ne_true, List.append_nil]
  | true =>
      -- The beat is the next of the packet, and it is not the last since none ends here.
      have hbeat := hoff.txd hv
      rw [htxd, hps] at hbeat
      rcases txd_next hbeats hpost hbeat with ⟨post', hbeats', hlast⟩
      rw [hv, Bool.true_and] at hgo
      refine .data q rest hps hns (pre ++ [c.txd]) post' hbeats'
        (of_decide_eq_false (hlast.symm.trans hgo)) htxc' ?_ hl' (by omega) pre ?_ hcsum'
      · simp only [Offload.next, hready, hv, if_true, htxd, List.append_assoc]
      · rw [hwriting, hv, if_pos rfl]

/-- A cycle in which no packet ends. -/
theorem stage_pass (h : Stage ps s done) (hmark : mark s 1 = decide (s.age = 1))
    (hoff : Offered ps s c) (hgo : s.ending c = false) : Stage ps (s.next c) done := by
  cases h with
  | idle rest hps state txc txd age quiet =>
      refine stage_idle ⟨rest, hps⟩ state txc txd age ?_ hoff
      by_cases hone : s.age = 1
      · exact Or.inl (hmark.trans (decide_eq_true hone))
      · exact Or.inr (quiet (by omega))
  | ctrl q rest hps state k hk txc txd tcnt loaded age quiet =>
      exact stage_ctrl hps state hk txc txd tcnt loaded age quiet hoff
  | wait q rest hps state txc txd loaded age still csum =>
      exact stage_wait hps state txc txd loaded age still csum
  | data q rest hps state pre post hbeats hpost txc txd loaded age through port csum =>
      exact stage_data hps state hbeats hpost txc txd loaded age port csum hoff hgo

/-- The cycle in which the last beat of a packet is taken. -/
theorem stage_end (h : Stage ps s done) (hoff : Offered ps s c) (hgo : s.ending c = true) :
    ∃ q, Stage ps (s.next c) (done ++ [q]) ∧ Ended q (s.next c) 1 := by
  rcases takes_of_ending hgo with ⟨hstate, hv, hlast⟩
  have hctrl : s.fsm.state ≠ .ctrl := by rw [hstate]; decide
  cases h with
  | idle rest hps state => exact absurd (hstate.symm.trans state) (by decide)
  | ctrl q rest hps state => exact absurd (hstate.symm.trans state) (by decide)
  | wait q rest hps state => exact absurd (hstate.symm.trans state) (by decide)
  | data q rest hps state pre post hbeats hpost txc txd loaded age through port csum =>
      have hready : txdTakes s.fsm c = true := by
        rw [txdTakes, txdTready, hstate, hv]
        rfl
      have hready' : txdTakes s.fsm (s.input c).toCycle = true := hready
      have hl' := loaded_keep (c := c) hctrl loaded
      -- The beat with TLAST is the last of the packet, so nothing of it is left.
      have hbeat := hoff.txd hv
      rw [txd, hps] at hbeat
      rcases txd_next hbeats hpost hbeat with ⟨post', hbeats', hdec⟩
      have hnil : post' = [] := of_decide_eq_true (hdec.symm.trans hlast)
      rw [hnil, List.append_nil] at hbeats'
      refine ⟨q, .idle rest ?_ ?_ ?_ ?_ ?_ ?_, ⟨?_, ?_⟩, hready, hl'.txCsBegin (by decide),
        hl'.txCsInit (by decide), pre, hbeats', csum_data hbeats hpost loaded port csum⟩
      · rw [hps, List.append_assoc, List.singleton_append]
      · have hgo' : ((s.input c).txdTvalid && (s.input c).txd.last) = true := by
          exact Bool.and_eq_true_iff.mpr ⟨hv, hlast⟩
        simp only [Offload.next, next, stateNs, hstate, hgo', if_true]
      · rw [txc_keep hctrl, txc, ctrlOf, ctrlOf, List.flatMap_append, List.flatMap_singleton]
      · simp only [Offload.next, hready, if_true, txd, beatsOf_append, beatsOf_singleton, hbeats',
          List.append_assoc]
      · rw [age_end hgo]
      · intro hage
        rw [age_end hgo] at hage
        exact absurd hage (by decide)
      · simp only [Offload.next, next, hready', if_true]
        exact loaded.txCsInsert (by decide)
      · simp only [Offload.next, next, hready', if_true]
        exact loaded.txCsCntrl (by decide)

/-- The sum of a packet that has ended moves along, up to the entry. -/
theorem ended_next {q : Packet} {k : Nat} (hlo : 1 ≤ k) (hhi : k ≤ 5) (h : Ended q s k)
    (hstate : s.fsm.state ≠ .data) (hidle : k = 1 → s.fsm.state = .idle)
    (hwren : 2 ≤ k → s.fsm.dataFifoWren = false) (hvalid : k = 5 → s.csum.sumValid = true) :
    Ended q (s.next c) (k + 1) := by
  have hno : txdTakes s.fsm (s.input c).toCycle = false := txdTakes_of_ne hstate
  rcases h with ⟨hfields, hpipe⟩
  refine ⟨?_, ?_⟩
  · simp only [Offload.next, next, hno, Bool.false_eq_true, if_false]
    exact hfields
  -- The last beat enters the adder, the sum goes through three registers, and the
  -- entry of the control FIFO takes it in the cycle in which it is valid.
  · match k with
    | 1 =>
        rcases hpipe with ⟨hw, hbegin, hinit, through, hbeats, hpass⟩
        have hlast : s.fsm.dataFifoWdata.last = true := q.ends.split through _ [] hbeats
        have hctrl : s.fsm.state ≠ .ctrl := by rw [hidle rfl]; decide
        have hkeep : (s.next c).fsm.txCsBegin = s.fsm.txCsBegin := by
          have hnoc : txcTakes s.fsm (s.input c).toCycle = false := txcTakes_of_ne hctrl
          simp only [Offload.next, next, hnoc, Bool.false_and, Bool.false_eq_true, if_false]
        refine ⟨hkeep.trans hbegin, ?_⟩
        rcases Csum.passing_beat (i := s.csumInput) hpass hw hbegin hinit with
          ⟨s1, s2, htrack, hreg, _, hend⟩
        rw [hbeats]
        exact ⟨s1, s2, htrack, hreg, hend.trans hlast⟩
    | 2 =>
        exact Csum.closing_next (by decide) hpipe.2 (hwren (by decide)) fun _ => hpipe.1
    | 3 =>
        exact Csum.closing_next (by decide) hpipe (hwren (by decide)) fun h =>
          absurd h (by decide)
    | 4 =>
        exact Csum.closing_next (by decide) hpipe (hwren (by decide)) fun h =>
          absurd h (by decide)
    | 5 =>
        have hyes : (s.input c).txSumValid = true := hvalid rfl
        change (next s.fsm (s.input c)).ctrlFifoWdata.txCsSum = _
        simp only [next, hyes, if_true]
        exact hpipe.2

end Stages

end OfmIn

end Eth

end Ml605
