import Ml605.Lib.OnesComplement
import Ml605.Eth.Frame

/-!
# The Checksum Pipeline

`eth_csum` watches the words written to a data FIFO and sums the bytes of each
frame from offset `CsBegin` on as big-endian words of sixteen bits. With the
cycle of a beat as zero:

    cycle 1   tdata_d1, tkeep_d1 and bcnt hold the beat
    cycle 2   cur_sum holds the sum of its four words
    cycle 3   sum includes it.

The beat that holds `CsBegin` is the first for which `bcnt` is past it, and it
is masked on the left; the beats after it are masked by their keep. Words of
beats before it never get enabled. `end_hit_d1` marks the cycle in which `sum`
is complete, and the folded sum is registered at its end.

## Main definitions

* `Regs`, `Input`, `next`: The registers, the inputs and a clock cycle.
* `checksum`: The one's complement sum of some bytes.
* `txSumOf`, `rxSumOf`: The two results, with their exceptions.
* `maskBytes`: A data word with some bytes blanked.

## Theorems

* `curSumInt_toNat`: The adder of a beat does not overflow.
* `sumInt_eq`: Folding the sum gives its one's complement value.
-/

namespace Ml605

namespace Eth

namespace Csum

open Lib

/-- The registers. `bcntd` is left out, nothing reads it. -/
structure Regs where
  sof : Bool
  sum : BitVec 32
  curSum : BitVec 19
  curSumEn : Bool
  sumValid : Bool
  txSumLe : BitVec 16
  rxSumLe : BitVec 16
  tdataD1 : BitVec 64
  tkeepD1 : BitVec 8
  tvalidD1 : Bool
  tlastD1 : Bool
  bcnt : BitVec 16
  beginHitReg : Bool
  endHitReg : Bool
  endHitD1 : Bool
  csumMaskBeginBcnt : BitVec 4
  csumMaskBeginReg : BitVec 8
deriving DecidableEq, Repr

/-- The inputs. -/
structure Input where
  dataFifoWren : Bool
  dataFifoWdata : Beat
  csBegin : BitVec 16
  csInit : BitVec 16
deriving DecidableEq, Repr

/-- Wire `begin_hit`. -/
def beginHit (s : Regs) (i : Input) : Bool :=
  decide (i.csBegin.extractLsb' 3 13 < s.bcnt.extractLsb' 3 13) && !s.beginHitReg

/-- Wire `csum_mask`. -/
def csumMask (s : Regs) (i : Input) : BitVec 8 :=
  if beginHit s i then s.csumMaskBeginReg else s.tkeepD1

/-- Wires `tdata_w0` to `tdata_w3`: the first byte of a word is its high one. -/
def tdataW (mask : BitVec 8) (w : BitVec 64) (j : Nat) : BitVec 16 :=
  (if mask.getLsbD (2 * j) then byteAt w (2 * j) else 0#8) ++
    (if mask.getLsbD (2 * j + 1) then byteAt w (2 * j + 1) else 0#8)

/-- Wire `cur_sum_int`. -/
def curSumInt (mask : BitVec 8) (w : BitVec 64) : BitVec 19 :=
  (tdataW mask w 0).setWidth 19 + (tdataW mask w 1).setWidth 19 +
    (tdataW mask w 2).setWidth 19 + (tdataW mask w 3).setWidth 19

/-- Wire `Sum_int_0`. -/
def sumInt0 (sum : BitVec 32) : BitVec 17 :=
  (sum.extractLsb' 16 16).setWidth 17 + (sum.extractLsb' 0 16).setWidth 17

/-- Wire `Sum_int`. -/
def sumInt (sum : BitVec 32) : BitVec 16 :=
  (sumInt0 sum).extractLsb' 0 16 + ((sumInt0 sum).extractLsb' 16 1).setWidth 16

/-- The bytes of a word of sixteen bits swapped. -/
def swapBytes (v : BitVec 16) : BitVec 16 := v.extractLsb' 0 8 ++ v.extractLsb' 8 8

/-- Output `TxSum`. -/
def txSum (s : Regs) : BitVec 16 := swapBytes s.txSumLe

/-- Output `RxSum`. -/
def rxSum (s : Regs) : BitVec 16 := swapBytes s.rxSumLe

/-- One clock cycle. -/
def next (s : Regs) (i : Input) : Regs :=
  let tvalid := i.dataFifoWren
  let tlast := i.dataFifoWdata.last
  let tkeep := i.dataFifoWdata.keep
  let tdataBcnt := (keepToCnt tkeep).setWidth 16
  { sof := if tvalid && tlast then true else if tvalid then false else s.sof
    sum :=
      if tvalid && s.sof then i.csInit.setWidth 32
      else if s.curSumEn then s.sum + s.curSum.setWidth 32
      else s.sum
    curSum := curSumInt (csumMask s i) s.tdataD1
    curSumEn :=
      if (tvalid && s.sof) || s.endHitReg then false
      else if beginHit s i then true
      else s.curSumEn
    sumValid := s.endHitD1
    -- The literals 16'hFFFFF of the source lose their upper bits.
    txSumLe :=
      if s.endHitD1 then (if sumInt s.sum = 0xFFFF then 0xFFFF else ~~~(sumInt s.sum))
      else s.txSumLe
    rxSumLe :=
      if s.endHitD1 then (if sumInt s.sum = 0x0000 then 0xFFFF else sumInt s.sum)
      else s.rxSumLe
    tdataD1 := i.dataFifoWdata.data
    tkeepD1 := if tvalid then tkeep else 0
    tvalidD1 := tvalid
    tlastD1 := tlast
    bcnt :=
      if tvalid && s.sof then tdataBcnt
      else if tvalid then s.bcnt + tdataBcnt
      else s.bcnt
    beginHitReg :=
      if tvalid && s.sof then false
      else if !s.beginHitReg then beginHit s i
      else s.beginHitReg
    endHitReg := s.tvalidD1 && s.tlastD1
    endHitD1 := s.endHitReg
    csumMaskBeginBcnt := 8#4 - (i.csBegin.extractLsb' 0 3).setWidth 4
    csumMaskBeginReg := leftToKeep s.csumMaskBeginBcnt }

/-- After reset and a few idle cycles, which clear the end markers. The other
    registers hold anything. -/
structure AfterReset (s : Regs) : Prop where
  sof : s.sof = true
  sumValid : s.sumValid = false
  tvalidD1 : s.tvalidD1 = false
  endHitReg : s.endHitReg = false
  endHitD1 : s.endHitD1 = false

/-- The one's complement sum of a start value and some bytes as big-endian
    words, padded with zero. -/
def checksum (init : BitVec 16) (bytes : List (BitVec 8)) : BitVec 16 :=
  BitVec.ofNat 16 (onesSum 65536 init.toNat (beWords bytes))

/-- The transmit result for a sum. -/
def txSumOf (v : BitVec 16) : BitVec 16 := if v = 0xFFFF then 0xFFFF else swapBytes (~~~v)

/-- The receive result for a sum. -/
def rxSumOf (v : BitVec 16) : BitVec 16 := if v = 0x0000 then 0xFFFF else swapBytes v

/-- No addition of the pipeline loses a carry: not the accumulator, and not the
    two steps of the folding. -/
structure NoOverflow (s : Regs) : Prop where
  accumulate : s.sum.toNat + s.curSum.toNat < 2 ^ 32
  fold : (sumInt0 s.sum).toNat = s.sum.toNat / 65536 + s.sum.toNat % 65536
  carry : (sumInt s.sum).toNat = (sumInt0 s.sum).toNat % 65536 + (sumInt0 s.sum).toNat / 65536

/-- A data word with the bytes outside the mask blanked. -/
def maskBytes (mask : BitVec 8) (w : BitVec 64) : List (BitVec 8) :=
  (List.range 8).map fun k => if mask.getLsbD k then byteAt w k else 0#8

section Adders

theorem tdataW_toNat (mask : BitVec 8) (w : BitVec 64) (j : Nat) :
    (tdataW mask w j).toNat =
      (if mask.getLsbD (2 * j) then byteAt w (2 * j) else 0#8).toNat * 256 +
        (if mask.getLsbD (2 * j + 1) then byteAt w (2 * j + 1) else 0#8).toNat := by
  rw [tdataW, BitVec.toNat_append, ← Nat.shiftLeft_add_eq_or_of_lt (BitVec.isLt _),
    Nat.shiftLeft_eq]

/-- The adder of a beat does not overflow: it is the sum of the words. -/
theorem curSumInt_toNat (mask : BitVec 8) (w : BitVec 64) :
    (curSumInt mask w).toNat = wordSum (maskBytes mask w) := by
  have h0 := (tdataW mask w 0).isLt
  have h1 := (tdataW mask w 1).isLt
  have h2 := (tdataW mask w 2).isLt
  have h3 := (tdataW mask w 3).isLt
  have hwords : wordSum (maskBytes mask w) = (tdataW mask w 0).toNat + ((tdataW mask w 1).toNat +
      ((tdataW mask w 2).toNat + ((tdataW mask w 3).toNat + 0))) := by
    rw [tdataW_toNat, tdataW_toNat, tdataW_toNat, tdataW_toNat]
    rfl
  rw [hwords]
  simp only [curSumInt, BitVec.toNat_add, BitVec.toNat_setWidth]
  omega

theorem sumInt0_toNat (sum : BitVec 32) :
    (sumInt0 sum).toNat = sum.toNat / 65536 + sum.toNat % 65536 := by
  have hlt := sum.isLt
  have hhigh : sum.toNat / 65536 < 65536 := by omega
  have hlow : sum.toNat % 65536 < 65536 := by omega
  simp only [sumInt0, BitVec.toNat_add, BitVec.toNat_setWidth, BitVec.extractLsb'_toNat,
    Nat.shiftRight_eq_div_pow, Nat.pow_zero, Nat.div_one, Nat.reducePow]
  simp (disch := omega) only [Nat.mod_eq_of_lt]

theorem sumInt_toNat (sum : BitVec 32) :
    (sumInt sum).toNat = (sumInt0 sum).toNat % 65536 + (sumInt0 sum).toNat / 65536 := by
  have hfold := sumInt0_toNat sum
  have hlt := sum.isLt
  have hhigh : sum.toNat / 65536 < 65536 := by omega
  -- Two digits give at most `131070`, so the carry does not carry again.
  have hsmall : (sumInt0 sum).toNat ≤ 131070 := by omega
  simp only [sumInt, BitVec.toNat_add, BitVec.toNat_setWidth, BitVec.extractLsb'_toNat,
    Nat.shiftRight_eq_div_pow, Nat.pow_zero, Nat.div_one, Nat.reducePow]
  simp (disch := omega) only [Nat.mod_eq_of_lt]

/-- Folding the sum gives its one's complement value. -/
theorem sumInt_eq (sum : BitVec 32) :
    sumInt sum = BitVec.ofNat 16 (residue 65536 sum.toNat) := by
  apply BitVec.eq_of_toNat_eq
  have hfold : endAround 65536 (sum.toNat / 65536) (sum.toNat % 65536) =
      residue 65536 sum.toNat := fold_eq_residue sum.isLt
  rw [BitVec.toNat_ofNat, Nat.mod_eq_of_lt (residue_lt (by omega) _), sumInt_toNat, sumInt0_toNat,
    ← hfold, endAround]

/-- A plain sum that fits the accumulator folds to the checksum. -/
theorem sumInt_eq_checksum {sum : BitVec 32} {init : BitVec 16} {bytes : List (BitVec 8)}
    (h : sum.toNat = init.toNat + wordSum bytes) : sumInt sum = checksum init bytes := by
  rw [sumInt_eq, h, checksum, onesSum_eq_residue (by omega) (beWords_lt bytes) init.isLt]
  rfl

end Adders

section Masks

theorem maskBytes_length (mask : BitVec 8) (w : BitVec 64) : (maskBytes mask w).length = 8 := by
  simp only [maskBytes, List.length_map, List.length_range]

theorem maskBytes_zero (w : BitVec 64) : maskBytes 0 w = List.replicate 8 0#8 := rfl

/-- A contiguous keep leaves the first bytes. -/
theorem maskBytes_keepOf (w : BitVec 64) {n : Nat} (hn : n ≤ 8) :
    maskBytes (keepOf n) w = (bytesOf w).take n ++ List.replicate (8 - n) 0#8 := by
  interval_cases n <;> rfl

/-- The mask on the left leaves the last bytes. -/
theorem maskBytes_leftToKeep (w : BitVec 64) {o : Nat} (ho : o < 8) :
    maskBytes (leftToKeep (BitVec.ofNat 4 (8 - o))) w =
      List.replicate o 0#8 ++ (bytesOf w).drop o := by
  interval_cases o <;> rfl

end Masks

end Csum

end Eth

end Ml605
