import Ml605.Driver.BdRing
import Ml605.Lib.Cells

/-!
# The Descriptor Ring over Addresses

The ring of `xaxidma_bdring.c` as it is written: descriptors are addresses,
their fields are words of memory, and stepping around the ring is arithmetic of
32-bit addresses. `BdRing` names a descriptor by its index instead; that the two
agree is shown in `BdRefine`.

The functions take and return a `Channel`: the ring structure and the memory of
the host. A function that writes a register of the channel says so in its result.
Both drivers have one ring for each direction, so `RingIndex` is zero.

## Main definitions

* `Field`: The words of a descriptor.
* `Ring`, `Channel`: The ring structure and what it works on.
* `ringSeekahead`, `ringSeekback`, `mBdRingNext`: Stepping around the ring.
* `bdRingCreate`, `bdRingClone`, `bdRingAlloc`, `bdRingUnAlloc`, `bdRingToHw`,
  `bdRingFromHw`, `bdRingFree`, `bdRingCheck`: The functions of the source.
-/

namespace Ml605

namespace Driver

def xstDeviceIsStarted : Int := 5
def xstDmaError : Int := 9
def xstIsStarted : Int := 23
def xstDmaSgNoList : Int := 523

namespace XAxiDma

/-- The memory of the host, word by word. -/
abbrev Mem := BitVec 32 → BitVec 32

/-- The words of a descriptor that are read or written one by one. -/
inductive Field where
  | ndesc
  | bufa
  | ctrlLen
  | sts
  | id
  | hasStscntrl
  | hasDre
deriving DecidableEq, Repr

/-- Where a word is in its descriptor: `XAXIDMA_BD_NDESC_OFFSET` and so on. -/
def Field.offset : Field → BitVec 32
  | .ndesc => 0x00
  | .bufa => 0x08
  | .ctrlLen => 0x18
  | .sts => 0x1C
  | .id => 0x34
  | .hasStscntrl => 0x38
  | .hasDre => 0x3C

def bdCtrlTxsofMask : BitVec 32 := 0x08000000
def bdCtrlTxeofMask : BitVec 32 := 0x04000000
def bdCtrlAllMask : BitVec 32 := 0x0C000000
def bdStsCompleteMask : BitVec 32 := 0x80000000
def bdStsRxeofMask : BitVec 32 := 0x04000000
def bdStsAllMask : BitVec 32 := 0xFC000000
def bdHasDreMask : BitVec 32 := 0xF00
def bdWordlenMask : BitVec 32 := 0xFF

/-- `XAxiDma_BdRead`. -/
def bdRead (m : Mem) (bdPtr : BitVec 32) (f : Field) : BitVec 32 := m (bdPtr + f.offset)

/-- `XAxiDma_BdWrite`. -/
def bdWrite (m : Mem) (bdPtr : BitVec 32) (f : Field) (data : BitVec 32) : Mem :=
  Function.update m (bdPtr + f.offset) data

/-- `XAxiDma_BdGetCtrl`. -/
def bdGetCtrl (m : Mem) (bdPtr : BitVec 32) : BitVec 32 :=
  bdRead m bdPtr .ctrlLen &&& bdCtrlAllMask

/-- `XAxiDma_BdGetSts`. -/
def bdGetSts (m : Mem) (bdPtr : BitVec 32) : BitVec 32 := bdRead m bdPtr .sts &&& bdStsAllMask

/-- `XAxiDma_BdGetLength`. -/
def bdGetLength (m : Mem) (bdPtr lengthMask : BitVec 32) : BitVec 32 :=
  bdRead m bdPtr .ctrlLen &&& lengthMask

/-- `XAxiDma_BdHwCompleted`. -/
def bdHwCompleted (m : Mem) (bdPtr : BitVec 32) : Bool :=
  bdRead m bdPtr .sts &&& bdStsCompleteMask ≠ 0

/-- `XAxiDma_BdSetLength`. -/
def bdSetLength (m : Mem) (bdPtr lenBytes lengthMask : BitVec 32) : Mem × Int :=
  if lenBytes ≤ 0 ∨ lenBytes > lengthMask then (m, xstInvalidParam)
  else (bdWrite m bdPtr .ctrlLen ((bdRead m bdPtr .ctrlLen &&& ~~~lengthMask) ||| lenBytes),
    xstSuccess)

/-- `XAxiDma_BdSetBufAddr`. -/
def bdSetBufAddr (m : Mem) (bdPtr addr : BitVec 32) : Mem × Int :=
  let hasDRE := bdRead m bdPtr .hasDre
  let wordLen := hasDRE &&& bdWordlenMask
  if addr &&& (wordLen - 1) ≠ 0 ∧ hasDRE &&& bdHasDreMask = 0 then (m, xstInvalidParam)
  else (bdWrite m bdPtr .bufa addr, xstSuccess)

/-- `XAxiDma_BdSetCtrl`. -/
def bdSetCtrl (m : Mem) (bdPtr data : BitVec 32) : Mem :=
  bdWrite m bdPtr .ctrlLen
    ((bdRead m bdPtr .ctrlLen &&& ~~~bdCtrlAllMask) ||| (data &&& bdCtrlAllMask))

/-- `XAxiDma_BdSetId`. -/
def bdSetId (m : Mem) (bdPtr id : BitVec 32) : Mem := bdWrite m bdPtr .id id

def channelNotHalted : Int := 1
def channelHalted : Int := 2

/-- `XAxiDma_BdRing`. -/
structure Ring where
  isRxChannel : Bool
  runState : Int
  hasStsCntrlStrm : BitVec 32
  hasDRE : BitVec 32
  dataWidth : BitVec 32
  maxTransferLen : BitVec 32
  firstBdPhysAddr : BitVec 32
  firstBdAddr : BitVec 32
  lastBdAddr : BitVec 32
  length : BitVec 32
  separation : BitVec 32
  freeHead : BitVec 32
  preHead : BitVec 32
  hwHead : BitVec 32
  hwTail : BitVec 32
  postHead : BitVec 32
  bdaRestart : BitVec 32
  freeCnt : Int
  preCnt : Int
  hwCnt : Int
  postCnt : Int
  allCnt : Int

/-- A ring with the memory that it works on. -/
structure Channel where
  ring : Ring
  mem : Mem

namespace Ring

/-- `XAXIDMA_VIRT_TO_PHYS`. -/
def virtToPhys (r : Ring) (bdPtr : BitVec 32) : BitVec 32 :=
  bdPtr + (r.firstBdPhysAddr - r.firstBdAddr)

/-- `XAXIDMA_PHYS_TO_VIRT`. -/
def physToVirt (r : Ring) (bdPtr : BitVec 32) : BitVec 32 :=
  bdPtr + r.firstBdAddr - r.firstBdPhysAddr

/-- `XAXIDMA_RING_SEEKAHEAD`. -/
def ringSeekahead (r : Ring) (bdPtr : BitVec 32) (numBd : Int) : BitVec 32 :=
  let addr := bdPtr + r.separation * BitVec.ofInt 32 numBd
  if addr > r.lastBdAddr ∨ bdPtr > addr then addr - r.length else addr

/-- `XAXIDMA_RING_SEEKBACK`. -/
def ringSeekback (r : Ring) (bdPtr : BitVec 32) (numBd : Int) : BitVec 32 :=
  let addr := bdPtr - r.separation * BitVec.ofInt 32 numBd
  if addr < r.firstBdAddr ∨ bdPtr < addr then addr + r.length else addr

/-- `XAxiDma_mBdRingNext`. -/
def mBdRingNext (r : Ring) (bdPtr : BitVec 32) : BitVec 32 :=
  if bdPtr ≥ r.lastBdAddr then r.firstBdAddr else bdPtr + r.separation

/-- What a descriptor says about the hardware. -/
def hwInfo (r : Ring) : BitVec 32 := (r.hasDRE <<< 8) ||| r.dataWidth

end Ring

/-- `sizeof(XAxiDma_Bd)`: sixteen words. -/
def bdSize : BitVec 32 := 64

/-- `memset` of a block of words to zero. -/
def memset (m : Mem) (addr len : BitVec 32) : Mem := fun a => if a - addr < len then 0 else m a

/-- The words that `XAxiDma_BdRingCreate` writes into a descriptor. -/
def linkBd (r : Ring) (m : Mem) (bdVirtAddr ndesc : BitVec 32) : Mem :=
  let m := bdWrite m bdVirtAddr .ndesc ndesc
  let m := bdWrite m bdVirtAddr .hasStscntrl r.hasStsCntrlStrm
  bdWrite m bdVirtAddr .hasDre r.hwInfo

/-- The loop of `XAxiDma_BdRingCreate` over all descriptors but the last one.
    The result has the address of the last one. -/
def linkLoop (r : Ring) : Nat → Mem → BitVec 32 → BitVec 32 → Mem × BitVec 32
  | 0, m, bdVirtAddr, _ => (m, bdVirtAddr)
  | n + 1, m, bdVirtAddr, bdPhysAddr =>
    linkLoop r n (linkBd r m bdVirtAddr bdPhysAddr) (bdVirtAddr + r.separation)
      (bdPhysAddr + r.separation)

/-- `XAxiDma_BdRingCreate`. -/
def bdRingCreate (c : Channel) (physAddr virtAddr alignment : BitVec 32) (bdCount : Int) :
    Channel × Int :=
  if bdCount ≤ 0 then (c, xstInvalidParam)
  else
    -- A ring that cannot be made is left without descriptors.
    let r := { c.ring with allCnt := 0, freeCnt := 0, hwCnt := 0, preCnt := 0, postCnt := 0 }
    if alignment < 0x40 then ({ c with ring := r }, xstInvalidParam)
    else if (alignment - 1) &&& alignment ≠ 0 then ({ c with ring := r }, xstInvalidParam)
    else if physAddr % alignment ≠ 0 ∨ virtAddr % alignment ≠ 0 then
      ({ c with ring := r }, xstInvalidParam)
    else
      let r := { r with separation := (bdSize + (alignment - 1)) &&& ~~~(alignment - 1) }
      let len := r.separation * BitVec.ofInt 32 bdCount
      if virtAddr > virtAddr + len - 1 then ({ c with ring := r }, xstDmaSgListError)
      else
        let res := linkLoop r (bdCount - 1).toNat (memset c.mem virtAddr len) virtAddr
          (physAddr + r.separation)
        -- The last descriptor is linked to the first.
        let mem := linkBd r res.1 res.2 physAddr
        ({ c with
            mem := mem
            ring := { r with
              runState := channelHalted
              firstBdAddr := virtAddr
              firstBdPhysAddr := physAddr
              lastBdAddr := res.2
              length := res.2 - virtAddr + r.separation
              allCnt := bdCount
              freeCnt := bdCount
              freeHead := virtAddr
              preHead := virtAddr
              hwHead := virtAddr
              hwTail := virtAddr
              postHead := virtAddr
              bdaRestart := physAddr } }, xstSuccess)

/-- The copy of a template, word by word, over a descriptor. The link before it and
    the words about the hardware behind it stay. -/
def cloneBd (m : Mem) (curBd : BitVec 32) (tmpBd : BitVec 32 → BitVec 32) : Mem := fun a =>
  if 8 ≤ a - curBd ∧ a - curBd < 8 + 48 then tmpBd (a - curBd) else m a

/-- The loop of `XAxiDma_BdRingClone`. -/
def cloneLoop (r : Ring) (tmpBd : BitVec 32 → BitVec 32) : Nat → Mem → BitVec 32 → Mem
  | 0, m, _ => m
  | n + 1, m, curBd => cloneLoop r tmpBd n (cloneBd m curBd tmpBd) (curBd + r.separation)

/-- `XAxiDma_BdRingClone` of a descriptor given by the words at its offsets. -/
def bdRingClone (c : Channel) (srcBd : BitVec 32 → BitVec 32) : Channel × Int :=
  if c.ring.allCnt = 0 then (c, xstDmaSgNoList)
  else if c.ring.runState = channelNotHalted then (c, xstDeviceIsStarted)
  else if c.ring.freeCnt ≠ c.ring.allCnt then (c, xstDmaSgListError)
  else
    let tmpBd := Function.update srcBd Field.sts.offset
      (srcBd Field.sts.offset &&& ~~~bdStsCompleteMask)
    ({ c with mem := cloneLoop c.ring tmpBd c.ring.allCnt.toNat c.mem c.ring.firstBdAddr },
      xstSuccess)

/-- `XAxiDma_BdRingAlloc`. On success there is an address in `BdSetPtr`. -/
def bdRingAlloc (c : Channel) (numBd : Int) : Channel × Int × Option (BitVec 32) :=
  if numBd ≤ 0 then (c, xstInvalidParam, none)
  else if c.ring.freeCnt < numBd then (c, xstFailure, none)
  else
    ({ c with ring := { c.ring with
        freeHead := c.ring.ringSeekahead c.ring.freeHead numBd
        freeCnt := c.ring.freeCnt - numBd
        preCnt := c.ring.preCnt + numBd } }, xstSuccess, some c.ring.freeHead)

/-- `XAxiDma_BdRingUnAlloc`. -/
def bdRingUnAlloc (c : Channel) (numBd : Int) (bdSetPtr : BitVec 32) : Channel × Int :=
  if numBd ≤ 0 then (c, xstInvalidParam)
  else if c.ring.preCnt < numBd then (c, xstFailure)
  -- The set must end where the free group begins.
  else if c.ring.ringSeekahead bdSetPtr numBd ≠ c.ring.freeHead then (c, xstFailure)
  else
    ({ c with ring := { c.ring with
        freeHead := c.ring.ringSeekback c.ring.freeHead numBd
        freeCnt := c.ring.freeCnt + numBd
        preCnt := c.ring.preCnt - numBd } }, xstSuccess)

/-- The variables of the loop of `XAxiDma_BdRingToHw`, with the memory. -/
structure Cursor where
  mem : Mem
  curBdPtr : BitVec 32
  bdCr : BitVec 32
  bdSts : BitVec 32

/-- The loop of `XAxiDma_BdRingToHw`, and whether it got through. The status word
    is written from the variable, which for the first descriptor has the status
    bits only. -/
def clearLoop (r : Ring) : Nat → Cursor → Cursor × Bool
  | 0, s => (s, true)
  | n + 1, s =>
    if bdGetLength s.mem s.curBdPtr r.maxTransferLen = 0 then (s, false)
    else
      let mem := bdWrite s.mem s.curBdPtr .sts (s.bdSts &&& ~~~bdStsCompleteMask)
      let cur := r.mBdRingNext s.curBdPtr
      clearLoop r n ⟨mem, cur, bdRead mem cur .ctrlLen, bdRead mem cur .sts⟩

/-- `XAxiDma_BdRingToHw`. At last the tail descriptor register is written, unless the
    channel is not running: then it is told when it is started. -/
def bdRingToHw (c : Channel) (numBd : Int) (bdSetPtr : BitVec 32) :
    Channel × Int × Option (BitVec 32) :=
  if numBd < 0 then (c, xstInvalidParam, none)
  else if numBd = 0 then (c, xstSuccess, none)
  else if c.ring.preCnt < numBd ∨ c.ring.preHead ≠ bdSetPtr then (c, xstDmaSgListError, none)
  else
    let bdCr := bdGetCtrl c.mem bdSetPtr
    if c.ring.isRxChannel = false ∧ bdCr &&& bdCtrlTxsofMask = 0 then (c, xstFailure, none)
    else
      match clearLoop c.ring (numBd - 1).toNat ⟨c.mem, bdSetPtr, bdCr, bdGetSts c.mem bdSetPtr⟩
      with
      | (s, false) => ({ c with mem := s.mem }, xstFailure, none)
      | (s, true) =>
        if c.ring.isRxChannel = false ∧ s.bdCr &&& bdCtrlTxeofMask = 0 then
          ({ c with mem := s.mem }, xstFailure, none)
        else if bdGetLength s.mem s.curBdPtr c.ring.maxTransferLen = 0 then
          ({ c with mem := s.mem }, xstFailure, none)
        else
          ({ ring := { c.ring with
              preHead := c.ring.ringSeekahead c.ring.preHead numBd
              preCnt := c.ring.preCnt - numBd
              hwTail := s.curBdPtr
              hwCnt := c.ring.hwCnt + numBd }
             mem := bdWrite s.mem s.curBdPtr .sts (s.bdSts &&& ~~~bdStsCompleteMask) },
            xstSuccess,
            if c.ring.runState = channelNotHalted then some (c.ring.virtToPhys s.curBdPtr)
            else none)

/-- The loop of `XAxiDma_BdRingFromHw`. -/
def fromHwLoop (c : Channel) : Nat → BitVec 32 → Nat → Nat → Nat × Nat
  | 0, _, bdCount, part => (bdCount, part)
  | n + 1, cur, bdCount, part =>
    let bdSts := bdRead c.mem cur .sts
    let bdCr := bdRead c.mem cur .ctrlLen
    if bdSts &&& bdStsCompleteMask = 0 then (bdCount, part)
    else
      let part := if (c.ring.isRxChannel = false ∧ bdCr &&& bdCtrlTxeofMask ≠ 0) ∨
          (c.ring.isRxChannel = true ∧ bdSts &&& bdStsRxeofMask ≠ 0) then 0 else part + 1
      if cur = c.ring.hwTail then (bdCount + 1, part)
      else fromHwLoop c n (c.ring.mBdRingNext cur) (bdCount + 1) part

/-- `XAxiDma_BdRingFromHw`. -/
def bdRingFromHw (c : Channel) (bdLimit : Int) : Channel × Int × Option (BitVec 32) :=
  if c.ring.hwCnt = 0 then (c, 0, none)
  else
    let bdLimit := if bdLimit > c.ring.hwCnt then c.ring.hwCnt else bdLimit
    let res := fromHwLoop c bdLimit.toNat c.ring.hwHead 0 0
    let bdCount : Int := res.1 - res.2
    if bdCount ≠ 0 then
      ({ c with ring := { c.ring with
          hwCnt := c.ring.hwCnt - bdCount
          postCnt := c.ring.postCnt + bdCount
          hwHead := c.ring.ringSeekahead c.ring.hwHead bdCount } }, bdCount, some c.ring.hwHead)
    else (c, 0, none)

/-- `XAxiDma_BdRingFree`. -/
def bdRingFree (c : Channel) (numBd : Int) (bdSetPtr : BitVec 32) : Channel × Int :=
  if numBd < 0 then (c, xstInvalidParam)
  else if numBd = 0 then (c, xstSuccess)
  else if c.ring.postCnt < numBd ∨ c.ring.postHead ≠ bdSetPtr then (c, xstDmaSgListError)
  else
    ({ c with ring := { c.ring with
        freeCnt := c.ring.freeCnt + numBd
        postCnt := c.ring.postCnt - numBd
        postHead := c.ring.ringSeekahead c.ring.postHead numBd } }, xstSuccess)

/-- A pointer is outside the block of the ring. -/
def Ring.outside (r : Ring) (addrV : BitVec 32) : Bool :=
  addrV < r.firstBdAddr ∨ addrV > r.lastBdAddr

/-- The loop of `XAxiDma_BdRingCheck` over the links, and the address of the last
    descriptor. -/
def checkLoop (r : Ring) (m : Mem) : Nat → BitVec 32 → BitVec 32 → BitVec 32 × Bool
  | 0, addrV, _ => (addrV, true)
  | n + 1, addrV, addrP =>
    if bdRead m addrV .ndesc ≠ addrP then (addrV, false)
    else checkLoop r m n (addrV + r.separation) (addrP + r.separation)

/-- `XAxiDma_BdRingCheck`. -/
def bdRingCheck (c : Channel) : Int :=
  let r := c.ring
  if r.allCnt = 0 then xstDmaSgNoList
  else if r.runState = channelNotHalted then xstIsStarted
  else if r.runState ≠ channelHalted then xstDmaSgListError
  else if r.outside r.freeHead then xstDmaSgListError
  else if r.outside r.preHead then xstDmaSgListError
  else if r.outside r.hwHead then xstDmaSgListError
  else if r.outside r.hwTail then xstDmaSgListError
  else if r.outside r.postHead then xstDmaSgListError
  else if r.hwCnt + r.preCnt + r.freeCnt + r.postCnt ≠ r.allCnt then xstDmaSgListError
  else
    match checkLoop r c.mem (r.allCnt - 1).toNat r.firstBdAddr
      (r.firstBdPhysAddr + r.separation) with
    | (_, false) => xstDmaSgListError
    | (addrV, true) =>
      if bdRead c.mem addrV .ndesc ≠ r.firstBdPhysAddr then xstDmaSgListError else xstSuccess

end XAxiDma

end Driver

end Ml605
