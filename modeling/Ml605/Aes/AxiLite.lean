import Mathlib.Tactic
import Ml605.Lib.Trace

/-!
# The AXI-Lite Slave

`axi_lite_slave` with `axi_lite_write`, clock cycle by clock cycle. A read and a
write share one address register, so the slave accepts one transaction at a
time: an address is offered a ready for one cycle, `rd_pending` or `wr_pending`
is set by the handshake and cleared by the response, and while one is set no
address is taken.

The transactions a master sees are followed by a monitor that looks at the
handshakes only: which read is outstanding and since when, and how far a write
is. What the slave owes the master is said with it.

The slave keeps to that except in two places. `rvalid` is `rd_pending` one cycle
late, so it is still high in the cycle after the transfer and a master that
holds `RREADY` sees a second transfer. And `awready` looks at `rd_pending`,
which is set one cycle after the read address was taken, so a write address that
comes up in the very cycle of the read handshake is taken as well.

## Main definitions

* `Input`, `Regs`, `next`: The pins, the registers and a clock cycle.
* `Monitor`, `Watched`: The transactions as the master sees them.
* `slaveAt`: The slave under inputs over all time.
* `Obeys`: The master holds what it offers until it is taken.
* `Served`, `Once`: What the slave owes the master, and the same without the
  clause on `rvalid` after a transfer.
* `Stage`: Where the slave is, as long as no write address comes up late.

## Theorems

* `stage_next`: Every cycle leads from stage to stage.
* `served_iff`: The masters that are served as they should be.
* `second_transfer`: A single read is answered twice.
* `late_address_taken`: A write is accepted while a read is outstanding.
-/

namespace Ml605

namespace AxiLite

open Lib

/-- The inputs of a cycle, with the sources of the registers that are read. -/
structure Input where
  awvalid : Bool
  awaddr : BitVec 10
  wvalid : Bool
  wdata : BitVec 32
  bready : Bool
  arvalid : Bool
  araddr : BitVec 10
  rready : Bool
  mm2sIntr : Bool
  s2mmIntr : Bool
  aesStsDbg : BitVec 32
deriving DecidableEq, Repr

/-- The flags that control the transactions. -/
structure Ctl where
  awready : Bool
  arready : Bool
  wrPending : Bool
  rdPending : Bool
  rvalid : Bool
  wready : Bool
  bvalid : Bool
deriving DecidableEq, Repr

/-- The registers of the two modules. -/
structure Regs extends Ctl where
  addr : BitVec 10
  rdata : BitVec 32
  rresp : BitVec 2
  axiIntr : Bool
  regData : BitVec 32
  regDataWrite : Bool
deriving DecidableEq, Repr

/-- `rdata_i`: the register selected by an address. -/
def rdataI (i : Input) (addr : BitVec 10) : BitVec 32 :=
  match (addr.extractLsb' 2 5).toNat with
  | 0x0 => (BitVec.ofBool i.mm2sIntr).setWidth 32
  | 0x1 => (BitVec.ofBool i.s2mmIntr).setWidth 32
  | 0x2 => 0x2
  | 0x3 => 0x3
  | 0x4 => 0x4
  | 0x5 => 0x5
  | 0x6 => 0x6
  | 0x7 => 0x7
  | 0x8 => 0x8
  | 0x9 => 0x9
  | 0xa => 0xa
  | 0xb => 0xb
  | 0xc => 0xc
  | 0xd => 0xd
  | 0xe => i.aesStsDbg
  | 0xf => 0xdeadbeef
  | _ => 0

section Handshakes

variable (c : Ctl) (i : Input)

def arHandshake : Bool := i.arvalid && c.arready

def rHandshake : Bool := c.rvalid && i.rready

def awHandshake : Bool := i.awvalid && c.awready

def wHandshake : Bool := i.wvalid && c.wready

def bHandshake : Bool := c.bvalid && i.bready

/-- The flags after a cycle out of reset. -/
def ctlNext : Ctl where
  awready := i.awvalid && !c.rdPending && !c.wrPending && !c.awready
  arready := i.arvalid && !c.rdPending && !c.wrPending && !i.awvalid && !c.arready
  wrPending := (awHandshake c i || c.wrPending) && !bHandshake c i
  rdPending := (arHandshake c i || c.rdPending) && !rHandshake c i
  -- The valid follows the pending flag one cycle late.
  rvalid := c.rdPending
  wready := (awHandshake c i || c.wready) && !wHandshake c i
  bvalid := (wHandshake c i || c.bvalid) && !bHandshake c i

end Handshakes

/-- A clock cycle out of reset. -/
def next (r : Regs) (i : Input) : Regs where
  toCtl := ctlNext r.toCtl i
  addr := if awHandshake r.toCtl i then i.awaddr
    else if arHandshake r.toCtl i then i.araddr else r.addr
  rdata := rdataI i r.addr
  rresp := 0
  axiIntr := i.s2mmIntr || i.mm2sIntr
  regData := i.wdata
  regDataWrite := wHandshake r.toCtl i

/-- The flags when reset is released. `rvalid` has no reset, but `rd_pending`
    is low throughout. -/
def AfterReset (r : Regs) : Prop := r.toCtl = ⟨false, false, false, false, false, false, false⟩

/-- How far a write is: its address or its data has been taken. -/
inductive Writing
  | none
  | address
  | data
deriving DecidableEq, Repr

/-- The transactions as the master sees them: the address of an outstanding
    read with the number of cycles since the one after its handshake, the write
    that is outstanding, and the inputs of the cycle before. -/
structure Monitor where
  reading : Option (BitVec 10 × Nat)
  writing : Writing
  last : Input
deriving DecidableEq, Repr

/-- The monitor follows the handshakes. -/
def Monitor.next (m : Monitor) (c : Ctl) (i : Input) : Monitor where
  reading := if arHandshake c i then some (i.araddr, 0)
    else if rHandshake c i then none else m.reading.map fun rd => (rd.1, rd.2 + 1)
  writing := if awHandshake c i then .address
    else if bHandshake c i then .none else if wHandshake c i then .data else m.writing
  last := i

/-- The slave with the monitor beside it. -/
structure Watched where
  regs : Regs
  mon : Monitor

def Watched.next (s : Watched) (i : Input) : Watched :=
  ⟨AxiLite.next s.regs i, s.mon.next s.regs.toCtl i⟩

/-- The slave at each cycle, under inputs over all time. -/
abbrev slaveAt (s0 : Watched) (inp : Nat → Input) : Nat → Watched := trace Watched.next s0 inp

/-- What is offered and not taken is offered again. -/
structure Holds (c : Ctl) (i j : Input) : Prop where
  aw : i.awvalid = true → c.awready = false → j.awvalid = true ∧ j.awaddr = i.awaddr
  w : i.wvalid = true → c.wready = false → j.wvalid = true ∧ j.wdata = i.wdata
  ar : i.arvalid = true → c.arready = false → j.arvalid = true ∧ j.araddr = i.araddr

/-- The master keeps to the protocol. -/
def Obeys (s0 : Watched) (inp : Nat → Input) : Prop :=
  ∀ t, Holds (slaveAt s0 inp t).regs.toCtl (inp t) (inp (t + 1))

/-- In this cycle, every transfer belongs to a transaction, an address is taken
    only when nothing is outstanding, and a response is there, and stays with
    its data, until the master takes it. -/
structure Once (s : Watched) (i : Input) : Prop where
  rTransfer : rHandshake s.regs.toCtl i = true → s.mon.reading ≠ none
  rHeld : ∀ a n, s.mon.reading = some (a, n + 1) →
    s.regs.rvalid = true ∧ s.regs.rdata = rdataI s.mon.last a
  arAlone : arHandshake s.regs.toCtl i = true → s.mon.reading = none ∧ s.mon.writing = .none
  awAlone : awHandshake s.regs.toCtl i = true → s.mon.reading = none ∧ s.mon.writing = .none
  wOffered : s.mon.writing = .address → s.regs.wready = true
  wTransfer : wHandshake s.regs.toCtl i = true → s.mon.writing = .address
  bHeld : s.mon.writing = .data → s.regs.bvalid = true
  bTransfer : bHandshake s.regs.toCtl i = true → s.mon.writing = .data

/-- The same, and the read valid is low unless a read is outstanding. -/
structure Served (s : Watched) (i : Input) : Prop extends Once s i where
  rLow : s.regs.rvalid = true → s.mon.reading ≠ none

/-- The slave when reset is released, with nothing outstanding. -/
structure Start (s : Watched) : Prop where
  regs : AfterReset s.regs
  reading : s.mon.reading = none
  writing : s.mon.writing = .none

/-- Where the slave is. After a read the valid has a tail of one cycle. -/
inductive Stage (s : Watched) (i : Input) : Prop
  | idle (tail : Bool) (hc : s.regs.toCtl = ⟨false, false, false, false, tail, false, false⟩)
      (hr : s.mon.reading = none) (hw : s.mon.writing = .none)
  | arOffer (hc : s.regs.toCtl = ⟨false, true, false, false, false, false, false⟩)
      (hr : s.mon.reading = none) (hw : s.mon.writing = .none) (hv : i.arvalid = true)
  | awOffer (hc : s.regs.toCtl = ⟨true, false, false, false, false, false, false⟩)
      (hr : s.mon.reading = none) (hw : s.mon.writing = .none) (hv : i.awvalid = true)
  | readTaken (a : BitVec 10)
      (hc : s.regs.toCtl = ⟨false, false, false, true, false, false, false⟩)
      (hr : s.mon.reading = some (a, 0)) (hw : s.mon.writing = .none) (ha : s.regs.addr = a)
  | readValid (a : BitVec 10) (n : Nat)
      (hc : s.regs.toCtl = ⟨false, false, false, true, true, false, false⟩)
      (hr : s.mon.reading = some (a, n + 1)) (hw : s.mon.writing = .none) (ha : s.regs.addr = a)
      (hd : s.regs.rdata = rdataI s.mon.last a)
  | writeTaken (hc : s.regs.toCtl = ⟨false, false, true, false, false, true, false⟩)
      (hr : s.mon.reading = none) (hw : s.mon.writing = .address)
  | writeDone (hc : s.regs.toCtl = ⟨false, false, true, false, false, false, true⟩)
      (hr : s.mon.reading = none) (hw : s.mon.writing = .data)

section Steps

variable {s : Watched} {i j : Input}

theorem next_ctl (s : Watched) (i : Input) :
    (s.next i).regs.toCtl = ctlNext s.regs.toCtl i := rfl

/-- With nothing outstanding, an address that is offered is offered a ready, the
    write address first. -/
theorem stage_offer
    (hc : (s.next i).regs.toCtl = ⟨i.awvalid, i.arvalid && !i.awvalid, false, false, false,
      false, false⟩)
    (hr : (s.next i).mon.reading = none) (hw : (s.next i).mon.writing = .none)
    (haw : i.awvalid = true → j.awvalid = true) (har : i.arvalid = true → j.arvalid = true) :
    Stage (s.next i) j := by
  cases hv : i.awvalid with
  | true =>
      rw [hv, Bool.not_true, Bool.and_false] at hc
      exact Stage.awOffer hc hr hw (haw hv)
  | false =>
      rw [hv, Bool.not_false, Bool.and_true] at hc
      cases hva : i.arvalid with
      | true =>
          rw [hva] at hc
          exact Stage.arOffer hc hr hw (har hva)
      | false =>
          rw [hva] at hc
          exact Stage.idle false hc hr hw

theorem stage_idle {tail : Bool}
    (hc : s.regs.toCtl = ⟨false, false, false, false, tail, false, false⟩)
    (hr : s.mon.reading = none) (hw : s.mon.writing = .none) (hh : Holds s.regs.toCtl i j) :
    Stage (s.next i) j := by
  rw [hc] at hh
  refine stage_offer ?_ ?_ ?_ (fun hv => (hh.aw hv rfl).1) (fun hv => (hh.ar hv rfl).1)
  · rw [next_ctl, hc]
    simp only [ctlNext, awHandshake, arHandshake, rHandshake, wHandshake, bHandshake,
      Bool.and_false, Bool.false_and, Bool.or_false, Bool.not_false, Bool.and_true]
  · simp only [Watched.next, Monitor.next, hc, hr, arHandshake, Bool.and_false,
      Bool.false_eq_true, if_false, Option.map_none, ite_self]
  · simp only [Watched.next, Monitor.next, hc, hw, awHandshake, bHandshake, wHandshake,
      Bool.and_false, Bool.false_and, Bool.false_eq_true, if_false]

/-- A read address that is taken alone. -/
theorem stage_arOffer (hc : s.regs.toCtl = ⟨false, true, false, false, false, false, false⟩)
    (hw : s.mon.writing = .none) (hv : i.arvalid = true) (hlate : i.awvalid = false) :
    Stage (s.next i) j := by
  refine Stage.readTaken i.araddr ?_ ?_ ?_ ?_
  · rw [next_ctl, hc]
    simp only [ctlNext, awHandshake, arHandshake, rHandshake, wHandshake, bHandshake, hv, hlate,
      Bool.and_false, Bool.false_and, Bool.or_false, Bool.not_false, Bool.and_true, Bool.not_true,
      Bool.or_self]
  · simp only [Watched.next, Monitor.next, hc, hv, arHandshake, Bool.and_true, if_true]
  · simp only [Watched.next, Monitor.next, hc, hw, awHandshake, bHandshake, wHandshake,
      Bool.and_false, Bool.false_and, Bool.false_eq_true, if_false]
  · simp only [Watched.next, next, hc, hv, awHandshake, arHandshake, Bool.and_false,
      Bool.and_true, Bool.false_eq_true, if_false, if_true]

theorem stage_awOffer (hc : s.regs.toCtl = ⟨true, false, false, false, false, false, false⟩)
    (hr : s.mon.reading = none) (hv : i.awvalid = true) : Stage (s.next i) j := by
  refine Stage.writeTaken ?_ ?_ ?_
  · rw [next_ctl, hc]
    simp only [ctlNext, awHandshake, arHandshake, rHandshake, wHandshake, bHandshake, hv,
      Bool.and_false, Bool.false_and, Bool.or_false, Bool.not_false, Bool.and_true, Bool.not_true]
  · simp only [Watched.next, Monitor.next, hc, hr, arHandshake, rHandshake, Bool.and_false,
      Bool.false_and, Bool.false_eq_true, if_false, Option.map_none]
  · simp only [Watched.next, Monitor.next, hc, hv, awHandshake, Bool.and_true, if_true]

/-- While a read is outstanding its valid comes up and its data is sampled anew
    in every cycle, until the master takes it. -/
theorem stage_reading {a : BitVec 10} {n : Nat} {v : Bool}
    (hc : s.regs.toCtl = ⟨false, false, false, true, v, false, false⟩)
    (hr : s.mon.reading = some (a, n)) (hw : s.mon.writing = .none) (ha : s.regs.addr = a) :
    Stage (s.next i) j := by
  have hctl : (s.next i).regs.toCtl =
      ⟨false, false, false, !(v && i.rready), true, false, false⟩ := by
    rw [next_ctl, hc]
    simp only [ctlNext, awHandshake, arHandshake, rHandshake, wHandshake, bHandshake,
      Bool.and_false, Bool.false_and, Bool.or_true, Bool.or_false, Bool.true_and, Bool.not_true]
  have hwriting : (s.next i).mon.writing = .none := by
    simp only [Watched.next, Monitor.next, hc, hw, awHandshake, bHandshake, wHandshake,
      Bool.and_false, Bool.false_and, Bool.false_eq_true, if_false]
  cases htaken : v && i.rready with
  | true =>
      rw [htaken] at hctl
      refine Stage.idle true hctl ?_ hwriting
      simp only [Watched.next, Monitor.next, hc, arHandshake, rHandshake, htaken, Bool.and_false,
        Bool.false_eq_true, if_false, if_true]
  | false =>
      rw [htaken] at hctl
      refine Stage.readValid a n hctl ?_ hwriting ?_ ?_
      · simp only [Watched.next, Monitor.next, hc, hr, arHandshake, rHandshake, htaken,
          Bool.and_false, Bool.false_eq_true, if_false, Option.map_some]
      · simp only [Watched.next, next, hc, ha, awHandshake, arHandshake, Bool.and_false,
          Bool.false_eq_true, if_false]
      · simp only [Watched.next, next, Monitor.next, ha]

theorem stage_writeTaken (hc : s.regs.toCtl = ⟨false, false, true, false, false, true, false⟩)
    (hr : s.mon.reading = none) (hw : s.mon.writing = .address) : Stage (s.next i) j := by
  have hctl : (s.next i).regs.toCtl =
      ⟨false, false, true, false, false, !i.wvalid, i.wvalid⟩ := by
    rw [next_ctl, hc]
    simp only [ctlNext, awHandshake, arHandshake, rHandshake, wHandshake, bHandshake,
      Bool.and_false, Bool.false_and, Bool.or_true, Bool.or_false, Bool.true_and, Bool.not_true,
      Bool.not_false, Bool.and_true]
  have hreading : (s.next i).mon.reading = none := by
    simp only [Watched.next, Monitor.next, hc, hr, arHandshake, rHandshake, Bool.and_false,
      Bool.false_and, Bool.false_eq_true, if_false, Option.map_none]
  cases hv : i.wvalid with
  | true =>
      rw [hv] at hctl
      refine Stage.writeDone hctl hreading ?_
      simp only [Watched.next, Monitor.next, hc, hv, awHandshake, bHandshake, wHandshake,
        Bool.and_false, Bool.false_and, Bool.and_true, Bool.false_eq_true, if_false, if_true]
  | false =>
      rw [hv] at hctl
      refine Stage.writeTaken hctl hreading ?_
      simp only [Watched.next, Monitor.next, hc, hv, hw, awHandshake, bHandshake, wHandshake,
        Bool.and_false, Bool.false_and, Bool.false_eq_true, if_false]

theorem stage_writeDone (hc : s.regs.toCtl = ⟨false, false, true, false, false, false, true⟩)
    (hr : s.mon.reading = none) (hw : s.mon.writing = .data) : Stage (s.next i) j := by
  have hctl : (s.next i).regs.toCtl =
      ⟨false, false, !i.bready, false, false, false, !i.bready⟩ := by
    rw [next_ctl, hc]
    simp only [ctlNext, awHandshake, arHandshake, rHandshake, wHandshake, bHandshake,
      Bool.and_false, Bool.false_and, Bool.or_true, Bool.or_false, Bool.true_and, Bool.not_true,
      Bool.not_false]
  have hreading : (s.next i).mon.reading = none := by
    simp only [Watched.next, Monitor.next, hc, hr, arHandshake, rHandshake, Bool.and_false,
      Bool.false_and, Bool.false_eq_true, if_false, Option.map_none]
  cases hv : i.bready with
  | true =>
      rw [hv] at hctl
      refine Stage.idle false hctl hreading ?_
      simp only [Watched.next, Monitor.next, hc, hv, awHandshake, bHandshake, Bool.and_false,
        Bool.and_true, Bool.false_eq_true, if_false, if_true]
  | false =>
      rw [hv] at hctl
      refine Stage.writeDone hctl hreading ?_
      simp only [Watched.next, Monitor.next, hc, hv, hw, awHandshake, bHandshake, wHandshake,
        Bool.and_false, Bool.false_eq_true, if_false]

/-- Every cycle leads from stage to stage, as long as no write address comes up
    in the cycle a read address is taken. -/
theorem stage_next (h : Stage s i) (hh : Holds s.regs.toCtl i j)
    (hlate : arHandshake s.regs.toCtl i = true → i.awvalid = false) : Stage (s.next i) j := by
  cases h with
  | idle tail hc hr hw => exact stage_idle hc hr hw hh
  | arOffer hc hr hw hv =>
      refine stage_arOffer hc hw hv (hlate ?_)
      rw [hc]
      simp only [arHandshake, hv, Bool.and_self]
  | awOffer hc hr hw hv => exact stage_awOffer hc hr hv
  | readTaken a hc hr hw ha => exact stage_reading hc hr hw ha
  | readValid a n hc hr hw ha hd => exact stage_reading hc hr hw ha
  | writeTaken hc hr hw => exact stage_writeTaken hc hr hw
  | writeDone hc hr hw => exact stage_writeDone hc hr hw

/-- Read valid is high although no read is outstanding. -/
def Tail (s : Watched) : Prop := s.regs.rvalid = true ∧ s.mon.reading = none

theorem rHandshake_iff (c : Ctl) (i : Input) :
    rHandshake c i = true ↔ c.rvalid = true ∧ i.rready = true := Bool.and_eq_true_iff

/-- An address is offered a ready only when nothing is outstanding. -/
theorem offered_alone (h : Stage s i) (hready : s.regs.arready = true ∨ s.regs.awready = true) :
    s.mon.reading = none ∧ s.mon.writing = .none := by
  have hno : s.regs.arready = false → s.regs.awready = false → False := by
    intro har haw
    rw [har, haw] at hready
    exact hready.elim Bool.false_ne_true Bool.false_ne_true
  cases h with
  | idle tail hc hr hw => exact ⟨hr, hw⟩
  | arOffer hc hr hw hv => exact ⟨hr, hw⟩
  | awOffer hc hr hw hv => exact ⟨hr, hw⟩
  | readTaken a hc hr hw ha => exact (hno (congrArg Ctl.arready hc) (congrArg Ctl.awready hc)).elim
  | readValid a n hc hr hw ha hd =>
      exact (hno (congrArg Ctl.arready hc) (congrArg Ctl.awready hc)).elim
  | writeTaken hc hr hw => exact (hno (congrArg Ctl.arready hc) (congrArg Ctl.awready hc)).elim
  | writeDone hc hr hw => exact (hno (congrArg Ctl.arready hc) (congrArg Ctl.awready hc)).elim

/-- The flags of a stage follow what the monitor has seen. -/
theorem flags_iff (h : Stage s i) : (s.regs.rdPending = true ↔ s.mon.reading ≠ none) ∧
    (s.regs.wready = true ↔ s.mon.writing = .address) ∧
    (s.regs.bvalid = true ↔ s.mon.writing = .data) := by
  cases h with
  | idle tail hc hr hw =>
      simp only [hc, hr, hw, Bool.false_eq_true, ne_eq, not_true_eq_false, reduceCtorEq, and_self]
  | arOffer hc hr hw hv =>
      simp only [hc, hr, hw, Bool.false_eq_true, ne_eq, not_true_eq_false, reduceCtorEq, and_self]
  | awOffer hc hr hw hv =>
      simp only [hc, hr, hw, Bool.false_eq_true, ne_eq, not_true_eq_false, reduceCtorEq, and_self]
  | readTaken a hc hr hw ha =>
      simp only [hc, hr, hw, Bool.false_eq_true, ne_eq, not_false_eq_true, reduceCtorEq, and_self]
  | readValid a n hc hr hw ha hd =>
      simp only [hc, hr, hw, Bool.false_eq_true, ne_eq, not_false_eq_true, reduceCtorEq, and_self]
  | writeTaken hc hr hw =>
      simp only [hc, hr, hw, Bool.false_eq_true, ne_eq, not_true_eq_false, reduceCtorEq, and_self]
  | writeDone hc hr hw =>
      simp only [hc, hr, hw, Bool.false_eq_true, ne_eq, not_true_eq_false, reduceCtorEq, and_self]

/-- From the second cycle after its handshake on, a read has its data. -/
theorem read_held (h : Stage s i) {a : BitVec 10} {n : Nat}
    (hread : s.mon.reading = some (a, n + 1)) :
    s.regs.rvalid = true ∧ s.regs.rdata = rdataI s.mon.last a := by
  cases h with
  | idle tail hc hr hw => exact absurd (hr.symm.trans hread) (Option.some_ne_none _).symm
  | arOffer hc hr hw hv => exact absurd (hr.symm.trans hread) (Option.some_ne_none _).symm
  | awOffer hc hr hw hv => exact absurd (hr.symm.trans hread) (Option.some_ne_none _).symm
  | readTaken b hc hr hw ha =>
      have hn := congrArg Prod.snd (Option.some.inj (hr.symm.trans hread))
      exact absurd hn (Nat.succ_ne_zero n).symm
  | readValid b m hc hr hw ha hd =>
      have hb : b = a := congrArg Prod.fst (Option.some.inj (hr.symm.trans hread))
      exact ⟨congrArg Ctl.rvalid hc, hb ▸ hd⟩
  | writeTaken hc hr hw => exact absurd (hr.symm.trans hread) (Option.some_ne_none _).symm
  | writeDone hc hr hw => exact absurd (hr.symm.trans hread) (Option.some_ne_none _).symm

/-- In every stage the master is served, but for a tail that it takes for a
    second transfer. -/
theorem once_iff (h : Stage s i) : Once s i ↔ ¬ (Tail s ∧ i.rready = true) := by
  constructor
  · rintro honce ⟨⟨hvalid, hnone⟩, hready⟩
    exact honce.rTransfer ((rHandshake_iff _ _).mpr ⟨hvalid, hready⟩) hnone
  · intro htail
    rcases flags_iff h with ⟨-, hwready, hbvalid⟩
    exact {
      rTransfer := fun hrh hnone =>
        have hboth := (rHandshake_iff _ _).mp hrh
        htail ⟨⟨hboth.1, hnone⟩, hboth.2⟩
      rHeld := fun a n hread => read_held h hread
      arAlone := fun har => offered_alone h (Or.inl (Bool.and_eq_true_iff.mp har).2)
      awAlone := fun haw => offered_alone h (Or.inr (Bool.and_eq_true_iff.mp haw).2)
      wOffered := hwready.mpr
      wTransfer := fun hwh => hwready.mp (Bool.and_eq_true_iff.mp hwh).2
      bHeld := hbvalid.mpr
      bTransfer := fun hbh => hbvalid.mp (Bool.and_eq_true_iff.mp hbh).1 }

theorem served_iff_not_tail (h : Stage s i) : Served s i ↔ ¬ Tail s := by
  constructor
  · rintro hserved ⟨hvalid, hnone⟩
    exact hserved.rLow hvalid hnone
  · intro htail
    have honce := (once_iff h).mpr fun ht => htail ht.1
    exact ⟨honce, fun hvalid hnone => htail ⟨hvalid, hnone⟩⟩

/-- An outstanding read ends with its transfer, and with nothing else. -/
theorem reading_next_none_iff (h : Stage s i) (hread : s.mon.reading ≠ none) :
    (s.next i).mon.reading = none ↔ rHandshake s.regs.toCtl i = true := by
  have har : arHandshake s.regs.toCtl i = false := by
    cases hready : s.regs.arready with
    | true => exact absurd (offered_alone h (Or.inl hready)).1 hread
    | false => rw [arHandshake, hready, Bool.and_false]
  simp only [Watched.next, Monitor.next]
  rw [har, if_neg Bool.false_ne_true]
  cases rHandshake s.regs.toCtl i with
  | true => exact ⟨fun _ => rfl, fun _ => rfl⟩
  | false =>
      rw [if_neg Bool.false_ne_true, Option.map_eq_none_iff]
      exact ⟨fun hnone => absurd hnone hread, Bool.noConfusion⟩

/-- A tail comes from a transfer, and every transfer of a read has one. -/
theorem tail_next_iff (h : Stage s i) :
    Tail (s.next i) ↔ rHandshake s.regs.toCtl i = true ∧ ¬ Tail s := by
  have hpending := (flags_iff h).1
  constructor
  · rintro ⟨hvalid, hnone⟩
    have hread := hpending.mp hvalid
    exact ⟨(reading_next_none_iff h hread).mp hnone, fun htail => hread htail.2⟩
  · rintro ⟨hrh, hno⟩
    have hread : s.mon.reading ≠ none := fun hnone => hno ⟨((rHandshake_iff _ _).mp hrh).1, hnone⟩
    -- The valid that follows is the pending flag of this cycle.
    exact ⟨hpending.mpr hread, (reading_next_none_iff h hread).mpr hrh⟩

/-- A read address is offered a ready in one stage only. -/
theorem ctl_of_arready (h : Stage s i) (har : s.regs.arready = true) :
    s.regs.toCtl = ⟨false, true, false, false, false, false, false⟩ := by
  cases h with
  | arOffer hc hr hw hv => exact hc
  | idle tail hc hr hw => exact absurd har (by rw [hc]; exact Bool.false_ne_true)
  | awOffer hc hr hw hv => exact absurd har (by rw [hc]; exact Bool.false_ne_true)
  | readTaken a hc hr hw ha => exact absurd har (by rw [hc]; exact Bool.false_ne_true)
  | readValid a n hc hr hw ha hd => exact absurd har (by rw [hc]; exact Bool.false_ne_true)
  | writeTaken hc hr hw => exact absurd har (by rw [hc]; exact Bool.false_ne_true)
  | writeDone hc hr hw => exact absurd har (by rw [hc]; exact Bool.false_ne_true)

/-- A write address that comes up in the cycle a read address is taken is taken
    in the next one, with the read outstanding. -/
theorem late_not_once (h : Stage s i) (hh : Holds s.regs.toCtl i j)
    (har : arHandshake s.regs.toCtl i = true) (haw : i.awvalid = true) : ¬ Once (s.next i) j := by
  have hc := ctl_of_arready h (Bool.and_eq_true_iff.mp har).2
  have htaken : awHandshake (s.next i).regs.toCtl j = true := by
    rw [hc] at hh
    rw [next_ctl, hc]
    simp only [awHandshake, ctlNext, haw, (hh.aw haw rfl).1, Bool.not_false, Bool.and_self]
  have hread : (s.next i).mon.reading = some (i.araddr, 0) := if_pos har
  intro honce
  exact Option.some_ne_none _ (hread.symm.trans (honce.awAlone htaken).1)

end Steps

section Trace

variable {s0 : Watched} {inp : Nat → Input}

/-- No write address comes up in the cycle a read address is taken. -/
def NoLateAddress (s0 : Watched) (inp : Nat → Input) : Prop :=
  ∀ t, arHandshake (slaveAt s0 inp t).regs.toCtl (inp t) = true → (inp t).awvalid = false

/-- No read is ever taken back. -/
def NoTransfer (s0 : Watched) (inp : Nat → Input) : Prop :=
  ∀ t, rHandshake (slaveAt s0 inp t).regs.toCtl (inp t) = false

/-- The master drops its ready after a transfer. -/
def LowAfter (s0 : Watched) (inp : Nat → Input) : Prop :=
  ∀ t, rHandshake (slaveAt s0 inp t).regs.toCtl (inp t) = true → (inp (t + 1)).rready = false

variable (h0 : Start s0) (hobeys : Obeys s0 inp)

include h0 hobeys

theorem stage_of_noLate (hlate : NoLateAddress s0 inp) :
    ∀ t, Stage (slaveAt s0 inp t) (inp t) := by
  intro t
  induction t with
  | zero => exact Stage.idle false h0.regs h0.reading h0.writing
  | succ t ih => exact stage_next ih (hobeys t) (hlate t)

theorem noLate_of_once (honce : ∀ t, Once (slaveAt s0 inp t) (inp t)) : NoLateAddress s0 inp := by
  -- The stages up to a cycle and the absence of a late address go together.
  have hboth : ∀ t, Stage (slaveAt s0 inp t) (inp t) ∧
      (arHandshake (slaveAt s0 inp t).regs.toCtl (inp t) = true → (inp t).awvalid = false) := by
    have hlate : ∀ t, Stage (slaveAt s0 inp t) (inp t) →
        arHandshake (slaveAt s0 inp t).regs.toCtl (inp t) = true → (inp t).awvalid = false := by
      intro t hstage har
      by_contra haw
      exact late_not_once hstage (hobeys t) har (Bool.eq_true_of_not_eq_false haw)
        (honce (t + 1))
    intro t
    induction t with
    | zero =>
        have hstage := Stage.idle (i := inp 0) false h0.regs h0.reading h0.writing
        exact ⟨hstage, hlate 0 hstage⟩
    | succ t ih =>
        have hstage := stage_next ih.1 (hobeys t) ih.2
        exact ⟨hstage, hlate (t + 1) hstage⟩
  exact fun t => (hboth t).2

/-- There is a tail in a cycle only if there was a transfer in the one before. -/
theorem tail_transfer (hlate : NoLateAddress s0 inp) {t : Nat} (htail : Tail (slaveAt s0 inp t)) :
    ∃ u, t = u + 1 ∧ rHandshake (slaveAt s0 inp u).regs.toCtl (inp u) = true := by
  cases t with
  | zero =>
      have hlow : s0.regs.rvalid = false := congrArg Ctl.rvalid h0.regs
      exact absurd (htail.1.symm.trans hlow) Bool.true_eq_false_eq_False
  | succ u =>
      have hstage := stage_of_noLate h0 hobeys hlate u
      exact ⟨u, rfl, ((tail_next_iff hstage).mp htail).1⟩

/-- The masters that are served as they should be are those that never take a
    read back and never bring up a late write address. Without the clause on
    the valid after a transfer, they are those that drop their ready after a
    transfer and never bring up a late write address. -/
theorem served_iff :
    ((∀ t, Served (slaveAt s0 inp t) (inp t)) ↔ NoTransfer s0 inp ∧ NoLateAddress s0 inp) ∧
      ((∀ t, Once (slaveAt s0 inp t) (inp t)) ↔ LowAfter s0 inp ∧ NoLateAddress s0 inp) := by
  constructor
  · constructor
    · intro hserved
      have hlate := noLate_of_once h0 hobeys fun t => (hserved t).toOnce
      have hstage := stage_of_noLate h0 hobeys hlate
      refine ⟨?_, hlate⟩
      intro t
      by_contra hr
      have hno := (served_iff_not_tail (hstage t)).mp (hserved t)
      have htail := (tail_next_iff (hstage t)).mpr
        ⟨Bool.eq_true_of_not_eq_false hr, hno⟩
      exact (served_iff_not_tail (hstage (t + 1))).mp (hserved (t + 1)) htail
    · rintro ⟨hno, hlate⟩ t
      refine (served_iff_not_tail (stage_of_noLate h0 hobeys hlate t)).mpr fun htail => ?_
      rcases tail_transfer h0 hobeys hlate htail with ⟨u, -, hr⟩
      exact absurd (hr.symm.trans (hno u)) Bool.true_eq_false_eq_False
  · constructor
    · intro honce
      have hlate := noLate_of_once h0 hobeys honce
      have hstage := stage_of_noLate h0 hobeys hlate
      refine ⟨?_, hlate⟩
      intro t hr
      by_contra hready
      have hready' := Bool.eq_true_of_not_eq_false hready
      -- This transfer was not itself a tail, or the master would not be served now.
      have hno : ¬ Tail (slaveAt s0 inp t) := fun htail =>
        (once_iff (hstage t)).mp (honce t) ⟨htail, ((rHandshake_iff _ _).mp hr).2⟩
      have htail := (tail_next_iff (hstage t)).mpr ⟨hr, hno⟩
      exact (once_iff (hstage (t + 1))).mp (honce (t + 1)) ⟨htail, hready'⟩
    · rintro ⟨hlow, hlate⟩ t
      refine (once_iff (stage_of_noLate h0 hobeys hlate t)).mpr ?_
      rintro ⟨htail, hready⟩
      rcases tail_transfer h0 hobeys hlate htail with ⟨u, rfl, hr⟩
      exact absurd (hready.symm.trans (hlow u hr)) Bool.true_eq_false_eq_False

end Trace

section Masters

/-- A master that does nothing. -/
def quiet : Input where
  awvalid := false
  awaddr := 0
  wvalid := false
  wdata := 0
  bready := false
  arvalid := false
  araddr := 0x3C
  rready := false
  mm2sIntr := false
  s2mmIntr := false
  aesStsDbg := 0

/-- The slave after reset. -/
def start : Watched where
  regs := ⟨⟨false, false, false, false, false, false, false⟩, 0, 0, 0, false, 0, false⟩
  mon := ⟨none, .none, quiet⟩

theorem start_start : Start start := ⟨rfl, rfl, rfl⟩

/-- One read, by a master that is always ready for its data. -/
def oneRead (t : Nat) : Input := { quiet with arvalid := decide (t < 2), rready := true }

theorem oneRead_obeys : Obeys start oneRead := by
  intro t
  refine ⟨fun h => absurd h Bool.false_ne_true, fun h => absurd h Bool.false_ne_true, ?_⟩
  intro hv hready
  have ht : t < 2 := of_decide_eq_true hv
  -- In the second cycle the address is taken.
  have hne : t ≠ 1 := by
    intro h1
    rw [h1] at hready
    exact absurd hready (by decide)
  exact ⟨decide_eq_true (by omega), rfl⟩

/-- Both conditions for the master that makes one read. -/
theorem served_iff_oneRead :
    ((∀ t, Served (slaveAt start oneRead t) (oneRead t)) ↔
        NoTransfer start oneRead ∧ NoLateAddress start oneRead) ∧
      ((∀ t, Once (slaveAt start oneRead t) (oneRead t)) ↔
        LowAfter start oneRead ∧ NoLateAddress start oneRead) :=
  served_iff start_start oneRead_obeys

/-- The one read is answered twice: the address is taken in one cycle, and in
    the fourth and fifth cycle there is a transfer. -/
theorem second_transfer :
    Start start ∧ Obeys start oneRead ∧
      (∀ t, arHandshake (slaveAt start oneRead t).regs.toCtl (oneRead t) = true → t = 1) ∧
      rHandshake (slaveAt start oneRead 3).regs.toCtl (oneRead 3) = true ∧
      rHandshake (slaveAt start oneRead 4).regs.toCtl (oneRead 4) = true ∧
      (slaveAt start oneRead 4).mon.reading = none ∧
      ¬ ∀ t, Served (slaveAt start oneRead t) (oneRead t) := by
  refine ⟨start_start, oneRead_obeys, ?_, by decide, by decide, by decide, ?_⟩
  · intro t har
    have ht : t < 2 := of_decide_eq_true (Bool.and_eq_true_iff.mp har).1
    have hne : t ≠ 0 := by
      intro h0
      rw [h0] at har
      exact absurd har (by decide)
    omega
  · intro hserved
    exact (hserved 4).rLow (by decide) (by decide)

/-- A read, and a write whose address comes up while the read address is taken. -/
def readThenWrite (t : Nat) : Input :=
  { quiet with arvalid := decide (t < 2), awvalid := decide (1 ≤ t) }

theorem readThenWrite_obeys : Obeys start readThenWrite := by
  intro t
  have hup : (readThenWrite (t + 1)).awvalid = true := by
    simp only [readThenWrite]
    exact decide_eq_true (by omega)
  refine ⟨fun _ _ => ⟨hup, rfl⟩, fun h => absurd h Bool.false_ne_true, ?_⟩
  intro hv hready
  have ht : t < 2 := of_decide_eq_true hv
  have hne : t ≠ 1 := by
    intro h1
    rw [h1] at hready
    exact absurd hready (by decide)
  exact ⟨decide_eq_true (by omega), rfl⟩

/-- The write is accepted while the read is outstanding, and the data offered
    for the read changes to that of the register the write selects. -/
theorem late_address_taken :
    Obeys start readThenWrite ∧
      awHandshake (slaveAt start readThenWrite 2).regs.toCtl (readThenWrite 2) = true ∧
      (slaveAt start readThenWrite 2).mon.reading = some (0x3C, 0) ∧
      (slaveAt start readThenWrite 3).regs.rdata = 0xdeadbeef ∧
      (slaveAt start readThenWrite 4).regs.rdata = 0 ∧
      (slaveAt start readThenWrite 4).regs.rvalid = true ∧
      ¬ ∀ t, Once (slaveAt start readThenWrite t) (readThenWrite t) := by
  refine ⟨readThenWrite_obeys, by decide, by decide, by decide, by decide, by decide, ?_⟩
  intro honce
  exact absurd ((honce 2).awAlone (by decide)).1 (by decide)

end Masters

end AxiLite

end Ml605
