import Ml605.Driver.BdRing

/-!
# The AES Driver

The descriptor life cycle of `aesdma.c`. A request takes a software descriptor
from the free list, is queued on `hw_head` under `hw_lock`, and is posted first
on the RX ring under `rx_lock` and then on the TX ring under `tx_lock`. Each
buffer descriptor it posts holds a reference, and so does the submission until
both rings are filled. The last reference to go runs `aes_free_desc`, which
puts the descriptor back on the free list under `hw_lock` and unmaps the
buffers and calls the requester back after that.

Software descriptors are named by numbers, the addresses of the source. What
happens under one lock is one definition here, so that a concurrent system can
take it as one step; `aesDescToHw` and `aesSubmit` are their composition in one
thread.

`jiffies` is the 32-bit counter of the platform. `HZ`, `round_jiffies_up` and
the number of descriptors are parameters.

## Main definitions

* `AesDesc`, `AesDev`: A software descriptor and the device.
* `aesAllocDesc`, `aesFreeDesc`: Taking and releasing a software descriptor.
* `postBuf`: `_aes_desc_to_hw`, one buffer onto one ring.
* `hwSection`, `rxSection`, `txSection`: The three locked parts of
  `aes_desc_to_hw`.
* `aesDescToHw`, `aesSubmit`: The functions of the source.
* `reclaim`: One round of the loop in a bottom half.
-/

namespace Ml605

namespace Driver

/-- `struct aes_desc`. A request that asks for no callback leaves `cb` unset. -/
structure AesDesc where
  kref : Int
  srcBuf : DmaBuf
  dstBuf : DmaBuf
  cb : Bool
  priv : Nat
  deadline : BitVec 32

structure Timer where
  pending : Bool
  expires : BitVec 32

/-- `struct aes_dev`. `fresh` is the next address `kmem_cache_alloc` gives out.
    `unmapped` and `called` record what `aes_free_desc` did for which request. -/
structure AesDev where
  rxRing : BdRing
  txRing : BdRing
  descHead : List Nat
  fresh : Nat
  hwHead : List Nat
  timer : Timer
  desc : Nat → AesDesc
  unmapped : List (DmaBuf × DmaBuf)
  called : List Nat

/-- The kernel the driver runs on. -/
structure Env where
  hz : BitVec 32
  roundJiffiesUp : BitVec 32 → BitVec 32

/-- `AES_TIMEOUT`. -/
def aesTimeout (env : Env) : BitVec 32 := 10 * env.hz

/-- `time_before`: the difference, taken as a signed number, is negative. -/
def timeBefore (a b : BitVec 32) : Bool := (a - b).msb

/-- `-ENODEV`. -/
def enodev : Int := -19

/-- A software descriptor after `memset` and `kref_init`. -/
def clearedDesc : AesDesc :=
  { kref := 1, srcBuf := .sg [] 0, dstBuf := .sg [] 0, cb := false, priv := 0, deadline := 0 }

/-- `aes_desc_init`, for rings and a free list of `num` descriptors. -/
def aesDescInit (num : Nat) : AesDev where
  rxRing := bdRingCreate true num
  txRing := bdRingCreate false num
  descHead := List.range' 0 num
  fresh := num
  hwHead := []
  timer := ⟨false, 0⟩
  desc := fun _ => clearedDesc
  unmapped := []
  called := []

/-- `TX_BD_NUM` and `RX_BD_NUM`. -/
def bdNum : Nat := 65536

theorem bdNum_pos : 0 < bdNum := by decide

namespace AesDev

/-- The RX ring for `true`, the TX ring for `false`. -/
def ring (d : AesDev) : Bool → BdRing
  | true => d.rxRing
  | false => d.txRing

def setRing (d : AesDev) : Bool → BdRing → AesDev
  | true, r => { d with rxRing := r }
  | false, r => { d with txRing := r }

@[simp]
theorem ring_setRing (d : AesDev) (rx : Bool) (r : BdRing) : (d.setRing rx r).ring rx = r := by
  cases rx <;> rfl

@[simp]
theorem ring_setRing_not (d : AesDev) (rx : Bool) (r : BdRing) :
    (d.setRing rx r).ring (!rx) = d.ring (!rx) := by
  cases rx <;> rfl

def modifyDesc (d : AesDev) (sw : Nat) (f : AesDesc → AesDesc) : AesDev :=
  { d with desc := Function.update d.desc sw (f (d.desc sw)) }

theorem modifyDesc_desc_self (d : AesDev) (sw : Nat) (f : AesDesc → AesDesc) :
    (d.modifyDesc sw f).desc sw = f (d.desc sw) := Function.update_self ..

theorem modifyDesc_desc_of_ne (d : AesDev) (f : AesDesc → AesDesc) {sw sw' : Nat}
    (h : sw' ≠ sw) : (d.modifyDesc sw f).desc sw' = d.desc sw' := Function.update_of_ne h ..

end AesDev

/-- `aes_alloc_desc`. -/
def aesAllocDesc (d : AesDev) : AesDev × Nat :=
  match d.descHead with
  | sw :: rest => ({ d with descHead := rest }.modifyDesc sw fun _ => clearedDesc, sw)
  | [] => ({ d with fresh := d.fresh + 1 }.modifyDesc d.fresh fun _ => clearedDesc, d.fresh)

/-- The `hw_lock` section of `aes_free_desc`. -/
def aesFreeDescLocked (d : AesDev) (sw : Nat) : AesDev :=
  let hwHead := d.hwHead.erase sw
  -- The timer moves on to the request that is now at the head.
  let timer := match hwHead with
    | next :: _ =>
      if timeBefore d.timer.expires (d.desc next).deadline then ⟨true, (d.desc next).deadline⟩
      else d.timer
    | [] => { d.timer with pending := false }
  { d with hwHead := hwHead, timer := timer, descHead := d.descHead ++ [sw] }

/-- What `aes_free_desc` does after it has dropped the lock: the unmap of the
    buffers and the callback, all of them read from the descriptor only now. -/
def aesFreeDescRest (d : AesDev) (sw : Nat) : AesDev :=
  let desc := d.desc sw
  let d := { d with
    unmapped := d.unmapped ++ [(desc.srcBuf, desc.dstBuf)]
    called := if desc.cb then d.called ++ [desc.priv] else d.called }
  d.modifyDesc sw fun desc => { desc with cb := false }

/-- `aes_free_desc`. -/
def aesFreeDesc (d : AesDev) (sw : Nat) : AesDev :=
  aesFreeDescRest (aesFreeDescLocked d sw) sw

/-- `kref_put` up to the release function: whether this was the last reference. -/
def krefPut (d : AesDev) (sw : Nat) : AesDev × Bool :=
  (d.modifyDesc sw fun desc => { desc with kref := desc.kref - 1 }, (d.desc sw).kref - 1 == 0)

/-- A `kref_put` with the locked part of the release it may run. The descriptor
    is returned when there is a release to finish. -/
def putAndFree (d : AesDev) (sw : Nat) : AesDev × List Nat :=
  let put := krefPut d sw
  if put.2 then (aesFreeDescLocked put.1 sw, [sw]) else (put.1, [])

/-- One pass of the descriptor loop of `_aes_desc_to_hw`. -/
def writeBd (r : BdRing) (bd sw : Nat) (seg : Nat × Nat) : BdRing :=
  r.modify bd fun b =>
    bdSetId (some sw) (bdSetCtrl false false
      (bdSetLength seg.1 r.maxTransferLen (bdSetBufAddr r.hasDRE r.dataWidth seg.2 b)))

/-- The descriptor loop of `_aes_desc_to_hw` over the segments it visits. -/
def fillBds (sw : Nat) : List (Nat × Nat) → BdRing → Nat → BdRing
  | [], r, _ => r
  | seg :: segs, r, bd => fillBds sw segs (writeBd r bd sw seg) (r.next bd)

/-- The marks on the first and the last descriptor of a packet. -/
def markPacket (r : BdRing) (first last : Nat) : BdRing :=
  if first = last then r.modify first (bdSetCtrl true true)
  else (r.modify last (bdSetCtrl false true)).modify first (bdSetCtrl true false)

/-- `_aes_desc_to_hw`: the ring, the status, and how many references it took. -/
def postBuf (r : BdRing) (buf : DmaBuf) (sw : Nat) : BdRing × Int × Nat :=
  let alloc := bdRingAlloc r (dmaBufCnt buf)
  if alloc.2 ≠ xstSuccess then (alloc.1, alloc.2, 0)
  else
    let first := r.freeHead
    -- The loop counts what it visits, which may be less than was allocated.
    let tcnt := (bufSegs buf).length
    let filled := fillBds sw (bufSegs buf) alloc.1 first
    let marked := markPacket filled first (r.nth first (tcnt - 1))
    let toHw := bdRingToHw marked tcnt first
    (toHw.1, toHw.2, tcnt)

/-- The `hw_lock` section of `aes_desc_to_hw`, with the deadline before it. -/
def hwSection (env : Env) (jiffies : BitVec 32) (d : AesDev) (sw : Nat) : AesDev :=
  let deadline := jiffies + aesTimeout env
  -- Only a timer that is idle or later than the deadline is set anew.
  let timer := if !d.timer.pending || timeBefore deadline d.timer.expires then
    ⟨true, env.roundJiffiesUp deadline⟩ else d.timer
  { d with timer := timer, hwHead := d.hwHead ++ [sw] }.modifyDesc sw
    fun desc => { desc with deadline := deadline }

/-- `kref_get` for each descriptor a posting wrote. -/
def krefGet (d : AesDev) (sw n : Nat) : AesDev :=
  d.modifyDesc sw fun desc => { desc with kref := desc.kref + n }

/-- `_aes_desc_to_hw` with the references it takes. -/
def postOn (rx : Bool) (d : AesDev) (buf : DmaBuf) (sw : Nat) : AesDev × Int :=
  let post := postBuf (d.ring rx) buf sw
  (krefGet (d.setRing rx post.1) sw post.2.2, post.2.1)

/-- The `rx_lock` section of `aes_desc_to_hw`. -/
def rxSection (d : AesDev) (sw : Nat) : AesDev × Int := postOn true d (d.desc sw).dstBuf sw

/-- The `tx_lock` section of `aes_desc_to_hw`. -/
def txSection (d : AesDev) (sw : Nat) : AesDev × Int := postOn false d (d.desc sw).srcBuf sw

/-- `aes_desc_to_hw`. -/
def aesDescToHw (env : Env) (jiffies : BitVec 32) (d : AesDev) (sw : Nat) : AesDev × Int :=
  let rx := rxSection (hwSection env jiffies d sw) sw
  -- Neither error path takes anything back.
  if rx.2 ≠ 0 then rx
  else
    let tx := txSection rx.1 sw
    if tx.2 ≠ 0 then tx
    else
      -- The reference of the call itself is dropped last.
      let put := krefPut tx.1 sw
      (if put.2 then aesFreeDesc put.1 sw else put.1, 0)

/-- The arguments of `aes_submit`, with the outcome of what it asks of the
    kernel: the two mappings and the two table allocations. -/
structure Request where
  srcSg : List SgEntry
  srcSz : Int
  dstSg : List SgEntry
  dstSz : Int
  cb : Bool
  priv : Nat
  srcMapped : Bool
  dstMapped : Bool
  srcTable : Bool
  dstTable : Bool

/-- The part of `aes_submit` between the mappings and `aes_desc_to_hw`. The
    statuses of the two table allocations are dropped, as in the source. -/
def prepareDesc (d : AesDev) (rq : Request) : AesDev × Nat :=
  let alloc := aesAllocDesc d
  (alloc.1.modifyDesc alloc.2 fun desc =>
    { desc with
      cb := rq.cb
      priv := rq.priv
      srcBuf := (dmaBufSgInit rq.srcTable rq.srcSg rq.srcSz).1
      dstBuf := (dmaBufSgInit rq.dstTable rq.dstSg rq.dstSz).1 }, alloc.2)

/-- `aes_submit`. No device is `none`. -/
def aesSubmit (env : Env) (jiffies : BitVec 32) (dma : Option AesDev) (rq : Request) :
    Option AesDev × Int :=
  match dma with
  | none => (none, enodev)
  | some d =>
    if rq.srcMapped = false then (some d, enomem)
    else if rq.dstMapped = false then (some d, enomem)
    else
      let prep := prepareDesc d rq
      let post := aesDescToHw env jiffies prep.1 prep.2
      (some post.1, post.2)

/-- `_aes_rx_clean_bh` and `_aes_tx_clean_bh`: the reference of one descriptor
    taken back. -/
def cleanBh (rx : Bool) (d : AesDev) (bd : Nat) : AesDev × List Nat :=
  match ((d.ring rx).bd bd).id with
  | some sw => putAndFree d sw
  | none => (d, [])

/-- The clean-up loop of a bottom half over the descriptors taken back: each
    drops its reference and loses its ID. The software descriptors whose last
    reference went are collected, with the locked part of their release done. -/
def cleanLoop (rx : Bool) : Nat → AesDev → Nat → AesDev × List Nat
  | 0, d, _ => (d, [])
  | n + 1, d, bd =>
    let put := cleanBh rx d bd
    -- The ID is cleared after the reference is gone.
    let cleared := put.1.setRing rx ((put.1.ring rx).modify bd (bdSetId none))
    let rest := cleanLoop rx n cleared ((d.ring rx).next bd)
    (rest.1, put.2 ++ rest.2)

/-- One round of the loop in `rx_handle_bh` or `tx_handle_bh`: take completed
    descriptors back, clean them and free them. -/
def reclaim (rx : Bool) (d : AesDev) : AesDev × List Nat :=
  let fromHw := bdRingFromHw (d.ring rx) bdNum
  let cleaned := cleanLoop rx fromHw.2 (d.setRing rx fromHw.1) (d.ring rx).hwHead
  let freed := bdRingFree (cleaned.1.ring rx) fromHw.2 (d.ring rx).hwHead
  (cleaned.1.setRing rx freed.1, cleaned.2)

end Driver

end Ml605
