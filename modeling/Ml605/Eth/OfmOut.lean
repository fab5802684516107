import Ml605.Lib.Run
import Ml605.Eth.Frame

/-!
# The Transmit Output State Machine

`ofm_out_fsm` takes a frame from the data FIFO and the control entry that
belongs to it from the control FIFO, and writes the frame to the transmit FIFO
with the checksum put in. A word read in one cycle is in `fifo_rdata` in the
next and in `tx_fifo_wdata` in the one after. While it is in `fifo_rdata` the
byte counter includes it, and the insert position is compared with the counter
there.

The FIFOs show their first word while they are not empty. What their data
outputs show while empty is an input of the cycle. Words arrive at the end of a
cycle, any number of them, since the writing side runs on another clock.

`scan` is the same computation without the clock: one pass over the beats of a
frame with the byte counter and the hit flag as its state.

## Main definitions

* `OutFsm`, `Ports`, `next`: The registers, the inputs and a clock cycle.
* `Tx`, `Cycle`, `txNext`: The state machine between its FIFOs, with the record
  of what was fed in and written out.
* `Packet`: A frame and its control entry, within the limits of the hardware.
* `Fed`: The two FIFOs receive the packets in order.
* `scan`: What is written for a frame.
-/

namespace Ml605

namespace Eth

namespace Ofm

/-- The states `S_IDLE`, `S_SOF`, `S_DATA` and `S_EOF`. -/
inductive State
  | idle
  | sof
  | data
  | eof
deriving DecidableEq, Repr

/-- A word of the control FIFO, the bits `[15:0]`, `[31:16]` and `[33:32]`. -/
structure TxCs where
  txCsSum : BitVec 16
  txCsInsert : BitVec 16
  txCsCntrl : BitVec 2
deriving DecidableEq, Repr

/-- The registers. -/
structure OutFsm where
  state : State
  bcnt : BitVec 16
  insertHitReg : Bool
  fifoRdata : Beat
  fifoRden : Bool
  txFifoWdata : Beat
  txFifoWren : Bool
deriving DecidableEq, Repr

/-- The inputs. -/
structure Ports where
  ctrlFifoRdata : TxCs
  ctrlFifoEmpty : Bool
  dataFifoRdata : Beat
  dataFifoEmpty : Bool
  txFifoAfull : Bool
deriving DecidableEq, Repr

/-- Wire `insert_hit`. -/
def insertHit (c : TxCs) (bcnt : BitVec 16) (insertHitReg : Bool) : Bool :=
  decide (c.txCsInsert < bcnt) && !insertHitReg && c.txCsCntrl == 0b01

/-- Register `insert_mask`, from the low four bits of the distance. -/
def insertMask (c : TxCs) (bcnt : BitVec 16) : BitVec 4 :=
  -- The counter includes the beat in hand, so eight is the first lane of a full one.
  let insertMaskBcnt := (bcnt - c.txCsInsert).setWidth 4
  if insertMaskBcnt = 8 then 0b0001
  else if insertMaskBcnt = 6 then 0b0010
  else if insertMaskBcnt = 4 then 0b0100
  else if insertMaskBcnt = 2 then 0b1000
  else 0b0000

/-- Sixteen bits of the word that is written next. -/
def wdataLane (hit : Bool) (mask : BitVec 4) (sum : BitVec 16) (w : BitVec 64) (k : Nat) :
    BitVec 16 :=
  if hit && mask.getLsbD k then sum else w.extractLsb' (16 * k) 16

/-- The word that is written next, its four lanes side by side. -/
def wdata (hit : Bool) (mask : BitVec 4) (sum : BitVec 16) (x : Beat) : Beat :=
  { x with data := wdataLane hit mask sum x.data 3 ++ wdataLane hit mask sum x.data 2 ++
      wdataLane hit mask sum x.data 1 ++ wdataLane hit mask sum x.data 0 }

/-- Output `data_fifo_rden`. -/
def dataFifoRden (s : OutFsm) (i : Ports) : Bool :=
  (s.state == .sof && !i.txFifoAfull && !i.dataFifoEmpty) ||
    (s.state == .data && !i.dataFifoEmpty)

/-- Output `ctrl_fifo_rden`. -/
def ctrlFifoRden (s : OutFsm) : Bool := s.state == .eof

/-- The next state. -/
def stateNs (s : OutFsm) (i : Ports) : State :=
  match s.state with
  | .idle => if !i.ctrlFifoEmpty then .sof else .idle
  | .sof => if !i.txFifoAfull && !i.dataFifoEmpty then .data else .sof
  | .data => if i.dataFifoRdata.last && !i.dataFifoEmpty then .eof else .data
  | .eof => .idle

/-- One clock cycle. -/
def next (s : OutFsm) (i : Ports) : OutFsm :=
  let hit := insertHit i.ctrlFifoRdata s.bcnt s.insertHitReg
  let cnt := (keepToCnt i.dataFifoRdata.keep).setWidth 16
  { state := stateNs s i
    bcnt :=
      match s.state with
      -- The first beat loads the counter.
      | .sof => cnt
      | .data => s.bcnt + cnt
      | _ => s.bcnt
    insertHitReg :=
      if s.state = .sof then false
      else if !s.insertHitReg then hit
      else s.insertHitReg
    fifoRdata := i.dataFifoRdata
    fifoRden := dataFifoRden s i
    -- The beat in hand is written a cycle after it was read.
    txFifoWdata := wdata hit (insertMask i.ctrlFifoRdata s.bcnt) i.ctrlFifoRdata.txCsSum s.fifoRdata
    txFifoWren := s.fifoRden }

/-- What the surroundings do in a cycle. -/
structure Cycle where
  txFifoAfull : Bool
  newData : List Beat
  newCtrl : List TxCs
  idleData : Beat
  idleCtrl : TxCs
deriving DecidableEq, Repr

/-- The state machine between its FIFOs. The last three fields only record. -/
structure Tx where
  fsm : OutFsm
  dataFifo : List Beat
  ctrlFifo : List TxCs
  fedData : List Beat
  fedCtrl : List TxCs
  written : List Beat
deriving DecidableEq, Repr

/-- The inputs as the FIFOs present them. -/
def ports (t : Tx) (c : Cycle) : Ports :=
  { ctrlFifoRdata := t.ctrlFifo.headD c.idleCtrl
    ctrlFifoEmpty := t.ctrlFifo.isEmpty
    dataFifoRdata := t.dataFifo.headD c.idleData
    dataFifoEmpty := t.dataFifo.isEmpty
    txFifoAfull := c.txFifoAfull }

/-- The word the transmit FIFO takes in this cycle. -/
def writing (s : OutFsm) : List Beat := if s.txFifoWren then [s.txFifoWdata] else []

/-- One clock cycle of the state machine and its FIFOs. `ofm_fifo` gates both
    reads with the empty flag, and the rest of an empty FIFO is empty. -/
def txNext (t : Tx) (c : Cycle) : Tx :=
  { fsm := next t.fsm (ports t c)
    dataFifo :=
      (if dataFifoRden t.fsm (ports t c) then t.dataFifo.tail else t.dataFifo) ++ c.newData
    ctrlFifo := (if ctrlFifoRden t.fsm then t.ctrlFifo.tail else t.ctrlFifo) ++ c.newCtrl
    fedData := t.fedData ++ c.newData
    fedCtrl := t.fedCtrl ++ c.newCtrl
    written := t.written ++ writing t.fsm }

/-- A clock cycle as a step; the clock never stops. -/
def step (t : Tx) (c : Cycle) : Option Tx := some (txNext t c)

/-- After reset. The registers without a reset hold anything. -/
structure AfterReset (t : Tx) : Prop where
  state : t.fsm.state = .idle
  fifoRden : t.fsm.fifoRden = false
  txFifoWren : t.fsm.txFifoWren = false
  dataFifo : t.dataFifo = []
  ctrlFifo : t.ctrlFifo = []
  fedData : t.fedData = []
  fedCtrl : t.fedCtrl = []
  written : t.written = []

/-- A frame and its control entry. The limits are those `ofm_in_fsm` states for
    the checksum fields. -/
structure Packet where
  frame : Frame
  cs : TxCs
  long : 14 ≤ frame.length
  even : cs.txCsInsert.toNat % 2 = 0
  past : 8 < cs.txCsInsert.toNat
  fits : cs.txCsInsert.toNat + 2 ≤ frame.length

/-- The packets as the data FIFO receives them. -/
def stream (ps : List Packet) : List Beat := ps.flatMap fun p => p.frame.beats

/-- The packets as the control FIFO receives them. -/
def entries (ps : List Packet) : List TxCs := ps.map Packet.cs

/-- The FIFOs receive the packets in order, at any pace, and the data FIFO does
    not run empty inside a frame. -/
structure Fed (ps : List Packet) (t : Tx) (c : Cycle) : Prop where
  data : t.fedData ++ c.newData <+: stream ps
  ctrl : t.fedCtrl ++ c.newCtrl <+: entries ps
  ready : t.fsm.state = .data → t.dataFifo ≠ []

/-- Everything has arrived and the transmit FIFO has room. -/
structure Flush (_t : Tx) (c : Cycle) : Prop where
  room : c.txFifoAfull = false
  data : c.newData = []
  ctrl : c.newCtrl = []

/-- The pass over a frame: the byte counter, whether the position was met, and
    what was written. -/
structure Scan where
  bcnt : BitVec 16
  hit : Bool
  out : List Beat
deriving DecidableEq, Repr

/-- The pass takes one more beat. -/
def Scan.take (c : TxCs) (s : Scan) (x : Beat) : Scan :=
  let bcnt := s.bcnt + (keepToCnt x.keep).setWidth 16
  let hit := insertHit c bcnt s.hit
  { bcnt := bcnt
    hit := s.hit || hit
    out := s.out ++ [wdata hit (insertMask c bcnt) c.txCsSum x] }

/-- The pass over a list of beats. -/
def scan (c : TxCs) (bs : List Beat) : Scan := bs.foldl (Scan.take c) ⟨0, false, []⟩

theorem scan_snoc (c : TxCs) (bs : List Beat) (x : Beat) :
    scan c (bs ++ [x]) = (scan c bs).take c x := by
  simp only [scan, List.foldl_append, List.foldl_cons, List.foldl_nil]

/-- What is written for some packets. -/
def emitted (ps : List Packet) : List Beat := ps.flatMap fun p => (scan p.cs p.frame.beats).out

end Ofm

end Eth

end Ml605
