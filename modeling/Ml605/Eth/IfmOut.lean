import Ml605.Lib.Run
import Ml605.Lib.Turns
import Ml605.Eth.CsumJob

/-!
# The Receive Output Side

`ifm_out_fsm` takes received frames from the data FIFO and copies them to the
FIFO for good frames, where `eth_csum` watches them pass. When the last beat is
through it writes six status words to the control FIFO. The words are made from
a counter, and the checksum is taken in the one cycle in which the counter is
four, which is the cycle the checksum becomes valid.

`ifm_fifo` holds the FIFOs and two flags that let either the status stream or
the data stream out, changing over on the last flag of each.

All FIFOs show their first word while they are not empty, and are taken not to
overflow. The status of a frame that is marked bad is never written; the frame
is read and dropped.

## Main definitions

* `OutFsm`, `Ports`, `next`: The state machine.
* `Rx`, `Cycle`, `rxNext`: The state machine, the checksum pipeline and the
  FIFOs with their output flags, and the record of what went in and came out.
* `RxFrame`: A frame with its info entry, marked good.
* `statusWords`: The status that belongs to a frame.
* `Packet`, `Packet.status`: The same for beats with any keeps.
-/

namespace Ml605

namespace Eth

namespace Ifm

open Lib

/-- The states `S_IDLE`, `S_WAIT`, `S_DROP`, `S_EOF` and `S_DONE`. -/
inductive State
  | idle
  | wait
  | drop
  | eof
  | done
deriving DecidableEq, Repr

/-- A word of the control FIFO, the bits `[36]`, `[35:32]` and `[31:0]`. -/
structure CtrlWord where
  last : Bool
  keep : BitVec 4
  data : BitVec 32
deriving DecidableEq, Repr

/-- The registers. -/
structure OutFsm where
  state : State
  infoFifoReg : BitVec 8
  goodFifoWren : Bool
  goodFifoWdata : Beat
  infoFifoRden : Bool
  ctrlFifoWren : Bool
  ctrlFifoWdata : CtrlWord
  wcnt : BitVec 4
  goodFifoByte : BitVec 4
  bytecnt : BitVec 16
deriving DecidableEq, Repr

/-- The inputs. `ctrl_fifo_afull` and `RxSum_valid` are not looked at. -/
structure Ports where
  dataFifoRdata : Beat
  infoFifoRdata : BitVec 8
  infoFifoEmpty : Bool
  goodFifoAfull : Bool
  rxSum : BitVec 16
deriving DecidableEq, Repr

/-- The status word for a value of `wcnt`. -/
def ctrlWord (wcnt : BitVec 4) (info : BitVec 8) (rxSum bytecnt : BitVec 16) : CtrlWord :=
  -- flags
  if wcnt = 0 then ⟨false, 0xF, 0x50000000⟩
  -- mcast addrU, mcast addrL
  else if wcnt = 1 then ⟨false, 0xF, 0⟩
  else if wcnt = 2 then ⟨false, 0xF, 0⟩
  -- ... flags
  else if wcnt = 3 then
    ⟨false, 0xF, 0#24 ++ BitVec.ofBool (!info.getLsbD 0) ++ BitVec.ofBool (info.getLsbD 0) ++ 0#6⟩
  -- T_L_TPID, RxCsRaw
  else if wcnt = 4 then ⟨false, 0xF, 0#16 ++ rxSum⟩
  -- vlantag, RxByteCnt
  else if wcnt = 5 then ⟨true, 0xF, 0#16 ++ bytecnt⟩
  else ⟨false, 0, 0⟩

/-- The next state. -/
def stateNs (s : OutFsm) (i : Ports) : State :=
  match s.state with
  | .idle =>
      if !i.infoFifoEmpty && !i.goodFifoAfull then
        (if i.infoFifoRdata.getLsbD 7 then .drop else .wait)
      else .idle
  | .drop => if i.dataFifoRdata.last then .done else .drop
  | .wait => if i.dataFifoRdata.last then .eof else .wait
  | .eof => if s.wcnt = 5 then .done else .eof
  | .done => .idle

/-- Output `data_fifo_rden`. -/
def dataFifoRden (s : OutFsm) : Bool := s.state == .wait || s.state == .drop

/-- One clock cycle. -/
def next (s : OutFsm) (i : Ports) : OutFsm :=
  { state := stateNs s i
    infoFifoReg := if s.state = .idle then i.infoFifoRdata else s.infoFifoReg
    goodFifoWren := s.state == .wait
    goodFifoWdata := i.dataFifoRdata
    infoFifoRden :=
      (s.state == .drop && i.dataFifoRdata.last) || (s.state == .wait && i.dataFifoRdata.last)
    ctrlFifoWren := s.state == .eof
    ctrlFifoWdata := ctrlWord s.wcnt s.infoFifoReg i.rxSum s.bytecnt
    wcnt := if s.state = .idle then 0 else if s.state = .eof then s.wcnt + 1 else s.wcnt
    goodFifoByte := keepToCnt i.dataFifoRdata.keep
    bytecnt :=
      if s.state = .idle then 0
      else if s.goodFifoWren then s.bytecnt + s.goodFifoByte.setWidth 16
      else s.bytecnt }

/-- What the surroundings do in a cycle. -/
structure Cycle where
  goodFifoAfull : Bool
  rxsTready : Bool
  rxdTready : Bool
  newData : List Beat
  newInfo : List (BitVec 8)
  idleData : Beat
  idleInfo : BitVec 8
deriving DecidableEq, Repr

/-- The receive output side. The last five fields only record: what was put
    into the FIFOs, and what came out. -/
structure Rx where
  fsm : OutFsm
  csum : Csum.Regs
  readyForData : Bool
  readyForSts : Bool
  dataFifo : List Beat
  infoFifo : List (BitVec 8)
  goodFifo : List Beat
  ctrlFifo : List CtrlWord
  fedData : List Beat
  fedInfo : List (BitVec 8)
  goodFed : List Beat
  ctrlFed : List CtrlWord
  out : List (CtrlWord ⊕ Beat)
deriving DecidableEq, Repr

/-- The inputs of the state machine as the FIFOs present them. -/
def ports (t : Rx) (c : Cycle) : Ports :=
  { dataFifoRdata := t.dataFifo.headD c.idleData
    infoFifoRdata := t.infoFifo.headD c.idleInfo
    infoFifoEmpty := t.infoFifo.isEmpty
    goodFifoAfull := c.goodFifoAfull
    rxSum := Csum.rxSum t.csum }

/-- The inputs of the checksum pipeline: it starts behind the Ethernet header. -/
def csumInput (s : OutFsm) : Csum.Input :=
  { dataFifoWren := s.goodFifoWren
    dataFifoWdata := s.goodFifoWdata
    csBegin := 0xE
    csInit := 0x0 }

/-- The word the good FIFO takes in this cycle. -/
def goodWriting (s : OutFsm) : List Beat := if s.goodFifoWren then [s.goodFifoWdata] else []

/-- The word the control FIFO takes in this cycle. -/
def ctrlWriting (s : OutFsm) : List CtrlWord := if s.ctrlFifoWren then [s.ctrlFifoWdata] else []

/-- The status word that leaves in this cycle: `rxs_tvalid` and `rxs_tready`. -/
def rxsTransfer (t : Rx) (c : Cycle) : Option CtrlWord :=
  if t.readyForSts && c.rxsTready then t.ctrlFifo.head? else none

/-- The beat that leaves in this cycle: `rxd_tvalid` and `rxd_tready`. -/
def rxdTransfer (t : Rx) (c : Cycle) : Option Beat :=
  if t.readyForData && c.rxdTready then t.goodFifo.head? else none

/-- The flags `ready_for_data` and `ready_for_sts` after this cycle. -/
def readyNext (t : Rx) (c : Cycle) : Bool × Bool :=
  -- The end of a frame comes first in the source, should both happen at once.
  if ((rxdTransfer t c).map Beat.last).getD false then (false, true)
  else if ((rxsTransfer t c).map CtrlWord.last).getD false then (true, false)
  else (t.readyForData, t.readyForSts)

/-- One clock cycle of the receive output side. -/
def rxNext (t : Rx) (c : Cycle) : Rx :=
  { fsm := next t.fsm (ports t c)
    csum := Csum.next t.csum (csumInput t.fsm)
    readyForData := (readyNext t c).1
    readyForSts := (readyNext t c).2
    -- The state machine reads without looking at the empty flag; `ifm_fifo` gates it.
    dataFifo := (if dataFifoRden t.fsm then t.dataFifo.tail else t.dataFifo) ++ c.newData
    infoFifo := (if t.fsm.infoFifoRden then t.infoFifo.tail else t.infoFifo) ++ c.newInfo
    goodFifo := (if (rxdTransfer t c).isSome then t.goodFifo.tail else t.goodFifo) ++
      goodWriting t.fsm
    ctrlFifo := (if (rxsTransfer t c).isSome then t.ctrlFifo.tail else t.ctrlFifo) ++
      ctrlWriting t.fsm
    fedData := t.fedData ++ c.newData
    fedInfo := t.fedInfo ++ c.newInfo
    goodFed := t.goodFed ++ goodWriting t.fsm
    ctrlFed := t.ctrlFed ++ ctrlWriting t.fsm
    out := t.out ++ ((rxsTransfer t c).map Sum.inl).toList ++
      ((rxdTransfer t c).map Sum.inr).toList }

/-- A clock cycle as a step; the clock never stops. -/
def step (t : Rx) (c : Cycle) : Option Rx := some (rxNext t c)

/-- After reset. The registers without a reset hold anything. -/
structure AfterReset (t : Rx) : Prop where
  state : t.fsm.state = .idle
  goodFifoWren : t.fsm.goodFifoWren = false
  infoFifoRden : t.fsm.infoFifoRden = false
  ctrlFifoWren : t.fsm.ctrlFifoWren = false
  sof : t.csum.sof = true
  readyForData : t.readyForData = false
  readyForSts : t.readyForSts = true
  dataFifo : t.dataFifo = []
  infoFifo : t.infoFifo = []
  goodFifo : t.goodFifo = []
  ctrlFifo : t.ctrlFifo = []
  fedData : t.fedData = []
  fedInfo : t.fedInfo = []
  goodFed : t.goodFed = []
  ctrlFed : t.ctrlFed = []
  out : t.out = []

/-- A received frame with its info entry, which marks it as good. -/
structure RxFrame where
  frame : Frame
  info : BitVec 8
  good : info.getLsbD 7 = false
  long : 16 ≤ frame.length
  short : frame.length < 65536

/-- The checksum from offset 14 on. -/
def RxFrame.job (r : RxFrame) : Csum.Job :=
  { frame := r.frame
    csBegin := 0xE
    csInit := 0x0
    short := r.short
    even := rfl
    full := r.long }

/-- The status that belongs to a frame. -/
def statusWords (r : RxFrame) : List CtrlWord :=
  (List.range 6).map fun k => ctrlWord (BitVec.ofNat 4 k) r.info (Csum.rxSumOf r.job.value)
    (BitVec.ofNat 16 r.frame.length)

/-- The frames as the data FIFO receives them. -/
def stream (rs : List RxFrame) : List Beat := rs.flatMap fun r => r.frame.beats

/-- The frames as the info FIFO receives them. -/
def infos (rs : List RxFrame) : List (BitVec 8) := rs.map RxFrame.info

/-- Any beats of which the last one alone has the flag, with an info entry that
    does not mark them bad. The keeps may be anything. -/
structure Packet where
  beats : List Beat
  info : BitVec 8
  ends : EndsOnly Beat.last beats
  good : info.getLsbD 7 = false

/-- The status that belongs to a packet. -/
def Packet.status (p : Packet) : List CtrlWord :=
  (List.range 6).map fun k => ctrlWord (BitVec.ofNat 4 k) p.info
    (Csum.rxSumOf (Csum.packetSum 0xE 0x0 p.beats)) (BitVec.ofNat 16 (byteCount p.beats))

/-- Packets as the data FIFO receives them. -/
def beatsOf (ps : List Packet) : List Beat := ps.flatMap Packet.beats

/-- Packets as the info FIFO receives them. -/
def entriesOf (ps : List Packet) : List (BitVec 8) := ps.map Packet.info

/-- The FIFOs receive the packets in order, at any pace, and the data FIFO does
    not run empty inside a packet. Behind the packets the data FIFO may receive
    beats that have no entry yet. -/
structure Supplied (ps : List Packet) (t : Rx) (c : Cycle) : Prop where
  data : ∃ more, t.fedData ++ c.newData <+: beatsOf ps ++ more
  info : t.fedInfo ++ c.newInfo <+: entriesOf ps
  ready : t.fsm.state = .wait → t.dataFifo ≠ []

/-- The FIFOs receive the frames in order, at any pace, and the data FIFO does
    not run empty inside a frame. -/
structure Fed (rs : List RxFrame) (t : Rx) (c : Cycle) : Prop where
  data : t.fedData ++ c.newData <+: stream rs
  info : t.fedInfo ++ c.newInfo <+: infos rs
  ready : t.fsm.state = .wait → t.dataFifo ≠ []

/-- Everything has arrived, and both streams are taken whenever they offer. The
    flag of the good FIFO is not high without a word in the FIFO. -/
structure Flush (t : Rx) (c : Cycle) : Prop where
  room : c.goodFifoAfull = true → t.goodFifo ≠ []
  rxs : c.rxsTready = true
  rxd : c.rxdTready = true
  data : c.newData = []
  info : c.newInfo = []

end Ifm

end Eth

end Ml605
