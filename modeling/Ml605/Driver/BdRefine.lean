import Ml605.Driver.BdWords

/-!
# Addresses and Indices Agree

The ring over addresses does what the ring over indices does. `Agrees` relates
the two: the heads are the addresses of the descriptors that the indices name,
the counters are equal, and every descriptor reads as its record says. Each
function of the source keeps the relation and answers the same, so a sequence of
calls can be followed on either level.

The relation rests on a `Layout`: the block of the descriptors is smaller than
the address space and does not wrap around.

## Main definitions

* `Layout`: Where the descriptors are.
* `describe`: What the words of a descriptor mean.
* `Agrees`: The relation.

## Theorems

* `bdRingAlloc_agrees`, `bdRingUnAlloc_agrees`, `bdRingToHw_agrees`,
  `bdRingFromHw_agrees`, `bdRingFree_agrees`: The functions that move descriptors
  from one group to another.
* `bdSetLength_agrees`, `bdSetCtrl_agrees`, `bdSetBufAddr_agrees`,
  `bdSetId_agrees`, `writeSts_agrees`: The writes to a descriptor.
-/

namespace Ml605

namespace Driver

theorem xstFailure_ne : xstFailure ≠ xstSuccess := by decide

theorem xstDmaSgListError_ne : xstDmaSgListError ≠ xstSuccess := by decide

/-- `XAXIDMA_RING_SEEKBACK`. -/
def Groups.seekback (g : Groups) (bd num : Nat) : Nat :=
  if bd < num then bd + g.allCnt - num else bd - num

/-- A move ahead is taken back, in part or as a whole. -/
theorem Groups.seekback_seekahead (g : Groups) {bd m n : Nat} (hbd : bd < g.allCnt)
    (h : m + n ≤ g.allCnt) : g.seekback (g.seekahead bd (m + n)) n = g.seekahead bd m := by
  unfold seekback seekahead
  split <;> split <;> split <;> omega

/-- `XAxiDma_BdRingUnAlloc`. -/
def bdRingUnAlloc (r : BdRing) (numBd bdSetPtr : Nat) : BdRing × Int :=
  if numBd = 0 then (r, xstInvalidParam)
  else if r.preCnt < numBd then (r, xstFailure)
  else if r.seekahead bdSetPtr numBd ≠ r.freeHead then (r, xstFailure)
  else
    ({ r with
        freeHead := r.seekback r.freeHead numBd
        freeCnt := r.freeCnt + numBd
        preCnt := r.preCnt - numBd }, xstSuccess)

theorem bdRingUnAlloc_wf {r : BdRing} (n bd : Nat) (h : r.Wf) :
    (bdRingUnAlloc r n bd).1.Wf := by
  simp only [bdRingUnAlloc]
  split
  · exact h
  split
  · exact h
  split
  · exact h
  rename_i hfew _
  have hc := h.counts
  refine ⟨?_, h.post, h.hw, h.pre, ?_⟩
  · change r.freeCnt + n + (r.preCnt - n) + r.hwCnt + r.postCnt = r.allCnt
    omega
  · -- The free group gets the last descriptors of the group before it.
    have hsplit : r.preCnt = r.preCnt - n + n := by omega
    change r.seekback r.freeHead n = r.seekahead r.preHead (r.preCnt - n)
    rw [h.free, hsplit, r.seekback_seekahead h.preHead_lt (by omega), ← hsplit]

namespace XAxiDma

open Lib

/-- Where the descriptors of a ring are, for the host and for the hardware. -/
structure Layout extends Cells 32 where
  phys : BitVec 32
  roomy : 64 ≤ sep

/-- The address that the hardware has for a descriptor. -/
def Layout.physCell (L : Layout) (i : Nat) : BitVec 32 := L.phys + BitVec.ofNat 32 (L.sep * i)

/-- A pointer is the address of a descriptor exactly when it has its name. -/
theorem Layout.cell_ne_iff (L : Layout) {i : Nat} {a : BitVec 32} (hi : i < L.count) :
    L.cell i ≠ a ↔ i ≠ L.name a := by
  rw [not_iff_not, eq_comm (a := i), L.name_eq_iff hi, eq_comm]

section Words

theorem Field.offset_lt (f : Field) : f.offset.toNat < 64 := by cases f <;> decide

theorem Field.offset_inj {f g : Field} : f.offset = g.offset ↔ f = g := by
  cases f <;> cases g <;> decide

/-- A write changes one word of its descriptor. -/
theorem bdRead_bdWrite_self (m : Mem) (a : BitVec 32) (f : Field) (v : BitVec 32) :
    bdRead (bdWrite m a f v) a = Function.update (bdRead m a) f v := by
  ext g : 1
  simp only [bdRead, bdWrite, Function.update_apply, BitVec.add_right_inj, Field.offset_inj]

variable {L : Layout} {i j : Nat}

/-- A write changes no other descriptor. -/
theorem bdRead_bdWrite_of_ne (m : Mem) (f : Field) (v : BitVec 32) (hi : i < L.count)
    (hj : j < L.count) (hne : j ≠ i) :
    bdRead (bdWrite m (L.cell i) f v) (L.cell j) = bdRead m (L.cell j) := by
  ext g : 1
  have hroomy := L.roomy
  have hother : L.cell j + g.offset ≠ L.cell i + f.offset := by
    intro h
    have hboth := (L.word_inj hj hi (lt_of_lt_of_le g.offset_lt hroomy)
      (lt_of_lt_of_le f.offset_lt hroomy)).mp h
    exact hne hboth.1
  rw [bdRead, bdWrite, Function.update_of_ne hother]
  rfl

/-- A test against a mask of one bit looks at that bit. -/
theorem and_mask_eq_zero {x mask : BitVec 32} (k : Nat) (hk : k < 32)
    (hmask : mask = BitVec.twoPow 32 k) : x &&& mask = 0 ↔ x.getLsbD k = false := by
  rw [hmask, BitVec.and_twoPow]
  by_cases h : x.getLsbD k = true
  · have hne : BitVec.twoPow 32 k ≠ 0#32 := by
      intro hzero
      have hbit := congrArg (fun y => BitVec.getLsbD y k) hzero
      simp [hk] at hbit
    simp [h, hne]
  · rw [Bool.not_eq_true] at h
    simp [h]

theorem txsof_iff (x : BitVec 32) : x &&& bdCtrlTxsofMask = 0 ↔ x.getLsbD 27 = false :=
  and_mask_eq_zero 27 (by decide) (by decide)

theorem txeof_iff (x : BitVec 32) : x &&& bdCtrlTxeofMask = 0 ↔ x.getLsbD 26 = false :=
  and_mask_eq_zero 26 (by decide) (by decide)

theorem complete_iff (x : BitVec 32) : x &&& bdStsCompleteMask = 0 ↔ x.getLsbD 31 = false :=
  and_mask_eq_zero 31 (by decide) (by decide)

theorem rxeof_iff (x : BitVec 32) : x &&& bdStsRxeofMask = 0 ↔ x.getLsbD 26 = false :=
  and_mask_eq_zero 26 (by decide) (by decide)

/-- Bits that are outside a mask stay when the mask is taken off. -/
theorem getLsbD_and_not {x mask : BitVec 32} {k : Nat} (hk : k < 32)
    (hmask : mask.getLsbD k = false) : (x &&& ~~~mask).getLsbD k = x.getLsbD k := by
  rw [BitVec.getLsbD_and, BitVec.getLsbD_not, hmask, decide_eq_true hk, Bool.not_false,
    Bool.and_true, Bool.and_true]

end Words

/-- What the words of a descriptor mean. -/
def describeWords (mask : BitVec 32) (rd : Field → BitVec 32) : Bd where
  bufAddr := (rd .bufa).toNat
  len := (rd .ctrlLen &&& mask).toNat
  sof := (rd .ctrlLen).getLsbD 27
  eof := (rd .ctrlLen).getLsbD 26
  complete := (rd .sts).getLsbD 31
  rxEof := (rd .sts).getLsbD 26
  id := if rd .id = 0 then none else some (rd .id).toNat

/-- The descriptor at an address. -/
def describe (mask : BitVec 32) (m : Mem) (a : BitVec 32) : Bd := describeWords mask (bdRead m a)

/-- The descriptors in memory are those of a ring over indices, each linked to the
    next one. -/
structure Holds (L : Layout) (mask info : BitVec 32) (m : Mem) (bd : Nat → Bd) : Prop where
  bds : ∀ i, i < L.count → describe mask m (L.cell i) = bd i
  links : ∀ i, i < L.count →
    bdRead m (L.cell i) .ndesc = L.physCell (if i + 1 ≥ L.count then 0 else i + 1)
  info : ∀ i, i < L.count → bdRead m (L.cell i) .hasDre = info

/-- A write to a descriptor that leaves its link and what it says about the
    hardware. -/
theorem Holds.write {L : Layout} {mask info : BitVec 32} {m : Mem} {bd : Nat → Bd}
    (h : Holds L mask info m bd) {i : Nat} (hi : i < L.count) {f : Field} (hlink : f ≠ .ndesc)
    (hdre : f ≠ .hasDre) (v : BitVec 32) {b : Bd}
    (hb : describeWords mask (Function.update (bdRead m (L.cell i)) f v) = b) :
    Holds L mask info (bdWrite m (L.cell i) f v) (Function.update bd i b) := by
  refine ⟨?_, ?_, ?_⟩ <;> intro j hj <;> by_cases hji : j = i
  · subst hji
    rw [Function.update_self, describe, bdRead_bdWrite_self, hb]
  · rw [Function.update_of_ne hji, describe, bdRead_bdWrite_of_ne m f v hi hj hji]
    exact h.bds j hj
  · subst hji
    rw [bdRead_bdWrite_self, Function.update_of_ne hlink.symm]
    exact h.links j hj
  · rw [bdRead_bdWrite_of_ne m f v hi hj hji]
    exact h.links j hj
  · subst hji
    rw [bdRead_bdWrite_self, Function.update_of_ne hdre.symm]
    exact h.info j hj
  · rw [bdRead_bdWrite_of_ne m f v hi hj hji]
    exact h.info j hj

/-- The ring structure has the addresses of the descriptors that a ring over
    indices names, and its counters. -/
structure RingAgrees (L : Layout) (x : Ring) (r : BdRing) : Prop where
  first : x.firstBdAddr = L.base
  last : x.lastBdAddr = L.last
  length : x.length = L.size
  separation : x.separation = BitVec.ofNat 32 L.sep
  phys : x.firstBdPhysAddr = L.phys
  wf : r.Wf
  count : r.allCnt = L.count
  tail : r.hwTail < L.count
  freeHead : x.freeHead = L.cell r.freeHead
  preHead : x.preHead = L.cell r.preHead
  hwHead : x.hwHead = L.cell r.hwHead
  hwTail : x.hwTail = L.cell r.hwTail
  postHead : x.postHead = L.cell r.postHead
  freeCnt : x.freeCnt = r.freeCnt
  preCnt : x.preCnt = r.preCnt
  hwCnt : x.hwCnt = r.hwCnt
  postCnt : x.postCnt = r.postCnt
  allCnt : x.allCnt = r.allCnt
  isRx : r.isRxChannel = x.isRxChannel
  mask : ∃ k, k ≤ 26 ∧ x.maxTransferLen = BitVec.ofNat 32 (2 ^ k - 1)
  maxLen : r.maxTransferLen = x.maxTransferLen.toNat
  dre : x.hwInfo &&& bdHasDreMask = 0 ↔ r.hasDRE = false
  width : (x.hwInfo &&& bdWordlenMask).toNat = r.dataWidth
  width_pos : 0 < r.dataWidth

/-- The two levels agree. -/
structure Agrees (L : Layout) (c : Channel) (r : BdRing) : Prop extends
    RingAgrees L c.ring r where
  holds : Holds L c.ring.maxTransferLen c.ring.hwInfo c.mem r.bd

namespace RingAgrees

variable {L : Layout} {x : Ring} {r : BdRing} (h : RingAgrees L x r) {i : Nat}

include h

/-- The walks over addresses are the walks over indices. -/
theorem seekahead (hi : i < L.count) {n : Nat} (hn : n ≤ L.count) :
    x.ringSeekahead (L.cell i) n = L.cell (r.seekahead i n) := by
  have hwalk := L.ahead_cell hi hn
  rw [Cells.ahead] at hwalk
  rw [Ring.ringSeekahead, Groups.seekahead, h.count, h.last, h.length, h.separation,
    BitVec.ofInt_natCast, ← BitVec.ofNat_mul]
  exact hwalk

theorem seekback (hi : i < L.count) {n : Nat} (hn : n ≤ L.count) :
    x.ringSeekback (L.cell i) n = L.cell (if i < n then i + r.allCnt - n else i - n) := by
  have hwalk := L.back_cell hi hn
  rw [Cells.back] at hwalk
  rw [Ring.ringSeekback, h.count, h.first, h.length, h.separation,
    BitVec.ofInt_natCast, ← BitVec.ofNat_mul]
  exact hwalk

theorem next (hi : i < L.count) : x.mBdRingNext (L.cell i) = L.cell (r.next i) := by
  have hwalk := L.next_cell hi
  rw [Cells.next] at hwalk
  rw [Ring.mBdRingNext, Groups.next, h.count, h.first, h.last, h.separation]
  exact hwalk

theorem next_lt (hi : i < L.count) : r.next i < L.count := by
  rw [← h.count] at hi ⊢
  exact r.next_lt hi

/-- The two addresses of a descriptor. -/
theorem virtToPhys (i : Nat) : x.virtToPhys (L.cell i) = L.physCell i := by
  rw [Ring.virtToPhys, h.phys, h.first, Cells.cell, Layout.physCell, BitVec.add_comm,
    ← BitVec.add_assoc, BitVec.sub_add_cancel]

theorem physToVirt (i : Nat) : x.physToVirt (L.physCell i) = L.cell i := by
  rw [Ring.physToVirt, h.phys, h.first, Cells.cell, Layout.physCell, BitVec.add_assoc,
    BitVec.add_comm L.phys, BitVec.add_sub_cancel, BitVec.add_comm]

theorem freeHead_lt : r.freeHead < L.count := h.count ▸ h.wf.freeHead_lt

theorem preHead_lt : r.preHead < L.count := h.count ▸ h.wf.preHead_lt

theorem hwHead_lt : r.hwHead < L.count := h.count ▸ h.wf.hwHead_lt

theorem postHead_lt : r.postHead < L.count := h.count ▸ h.wf.post

theorem counts : r.freeCnt + r.preCnt + r.hwCnt + r.postCnt = L.count := h.count ▸ h.wf.counts

end RingAgrees

section Functions

variable {L : Layout} {c : Channel} {r : BdRing}

/-- A write to one descriptor. -/
theorem Agrees.write (h : Agrees L c r) {i : Nat} (hi : i < L.count) {f : Field}
    (hlink : f ≠ .ndesc) (hdre : f ≠ .hasDre) (v : BitVec 32) {g : Bd → Bd}
    (hg : describeWords c.ring.maxTransferLen (Function.update (bdRead c.mem (L.cell i)) f v) =
      g (r.bd i)) :
    Agrees L { c with mem := bdWrite c.mem (L.cell i) f v } (r.modify i g) :=
  { h.toRingAgrees with holds := h.holds.write hi hlink hdre v hg }

theorem Agrees.describe_eq (h : Agrees L c r) {i : Nat} (hi : i < L.count) :
    describeWords c.ring.maxTransferLen (bdRead c.mem (L.cell i)) = r.bd i := h.holds.bds i hi

theorem Agrees.len_eq_zero_iff (h : Agrees L c r) {i : Nat} (hi : i < L.count) :
    bdGetLength c.mem (L.cell i) c.ring.maxTransferLen = 0 ↔ (r.bd i).len = 0 := by
  rw [← h.describe_eq hi, bdGetLength, ← BitVec.toNat_inj]
  rfl

/-- Taking descriptors from the free group. -/
theorem bdRingAlloc_agrees (h : Agrees L c r) {n : Nat} (hn : 0 < n) :
    Agrees L (bdRingAlloc c n).1 (Driver.bdRingAlloc r n).1 ∧
      (bdRingAlloc c n).2.1 = (Driver.bdRingAlloc r n).2 ∧
      (bdRingAlloc c n).2.2 = if (Driver.bdRingAlloc r n).2 = xstSuccess then
        some (L.cell r.freeHead) else none := by
  have hwf := bdRingAlloc_wf n h.wf
  have hpos : ¬ (n : Int) ≤ 0 := by omega
  have hfull : c.ring.freeCnt < n ↔ r.freeCnt < n := by rw [h.freeCnt, Int.ofNat_lt]
  simp only [bdRingAlloc, Driver.bdRingAlloc, hpos, Nat.ne_of_gt hn, if_false, hfull] at hwf ⊢
  by_cases hroom : r.freeCnt < n
  · rw [if_pos hroom, if_pos hroom]
    exact ⟨h, rfl, (if_neg xstFailure_ne).symm⟩
  · rw [if_neg hroom] at hwf
    rw [if_neg hroom, if_neg hroom]
    have hcounts := h.counts
    refine ⟨{ h with
      wf := hwf
      freeHead := ?_
      freeCnt := ?_
      preCnt := ?_ }, rfl, congrArg some h.freeHead⟩
    · rw [h.freeHead, h.seekahead h.freeHead_lt (by omega)]
    · rw [h.freeCnt, Int.ofNat_sub (by omega)]
    · rw [h.preCnt, Int.natCast_add]

/-- Giving descriptors back that have not been handed over. -/
theorem bdRingUnAlloc_agrees (h : Agrees L c r) {n i : Nat} (hn : 0 < n) (hi : i < L.count) :
    Agrees L (bdRingUnAlloc c n (L.cell i)).1 (Driver.bdRingUnAlloc r n i).1 ∧
      (bdRingUnAlloc c n (L.cell i)).2 = (Driver.bdRingUnAlloc r n i).2 := by
  have hwf := bdRingUnAlloc_wf n i h.wf
  have hpos : ¬ (n : Int) ≤ 0 := by omega
  have hfew : c.ring.preCnt < n ↔ r.preCnt < n := by rw [h.preCnt, Int.ofNat_lt]
  simp only [bdRingUnAlloc, Driver.bdRingUnAlloc, hpos, Nat.ne_of_gt hn, if_false, hfew] at hwf ⊢
  have hcounts := h.counts
  by_cases hroom : r.preCnt < n
  · rw [if_pos hroom, if_pos hroom]
    exact ⟨h, rfl⟩
  -- The set must end at the free head; cells are compared where the list has names.
  have hend : c.ring.ringSeekahead (L.cell i) n ≠ c.ring.freeHead ↔
      r.seekahead i n ≠ r.freeHead := by
    have hlt : r.seekahead i n < L.count := by
      rw [← h.count] at hi ⊢
      exact r.seekahead_lt hi (by have := h.count; omega)
    rw [h.seekahead hi (by omega), h.freeHead, not_iff_not, L.cell_inj hlt h.freeHead_lt]
  rw [if_neg hroom] at hwf
  rw [if_neg hroom, if_neg hroom]
  by_cases hset : r.seekahead i n ≠ r.freeHead
  · rw [if_pos hset, if_pos (hend.mpr hset)]
    exact ⟨h, rfl⟩
  · rw [if_neg hset] at hwf
    rw [if_neg hset, if_neg (fun hc => hset (hend.mp hc))]
    refine ⟨{ h with
      wf := hwf
      freeHead := ?_
      freeCnt := ?_
      preCnt := ?_ }, rfl⟩
    · rw [h.freeHead, h.seekback h.freeHead_lt (by omega)]
      rfl
    · rw [h.freeCnt, Int.natCast_add]
    · rw [h.preCnt, Int.ofNat_sub (by omega)]

/-- Giving descriptors back to the free group. -/
theorem bdRingFree_agrees (h : Agrees L c r) (n : Nat) (a : BitVec 32) :
    Agrees L (bdRingFree c n a).1 (Driver.bdRingFree r n (L.name a)).1 ∧
      (bdRingFree c n a).2 = (Driver.bdRingFree r n (L.name a)).2 := by
  have hwf := bdRingFree_wf n (L.name a) h.wf
  have hpos : ¬ (n : Int) < 0 := by omega
  have hsync : (c.ring.postCnt < n ∨ c.ring.postHead ≠ a) ↔
      (r.postCnt < n ∨ r.postHead ≠ L.name a) := by
    rw [h.postCnt, Int.ofNat_lt, h.postHead, L.cell_ne_iff h.postHead_lt]
  simp only [bdRingFree, Driver.bdRingFree, hpos, if_false, hsync, Int.natCast_eq_zero] at hwf ⊢
  by_cases hz : n = 0
  · rw [if_pos hz, if_pos hz]
    exact ⟨h, rfl⟩
  rw [if_neg hz] at hwf
  rw [if_neg hz, if_neg hz]
  by_cases hbad : r.postCnt < n ∨ r.postHead ≠ L.name a
  · rw [if_pos hbad, if_pos hbad]
    exact ⟨h, rfl⟩
  · rw [if_neg hbad] at hwf
    rw [if_neg hbad, if_neg hbad]
    have hcounts := h.counts
    have hfew : ¬ r.postCnt < n := fun hc => hbad (Or.inl hc)
    refine ⟨{ h with
      wf := hwf
      postHead := ?_
      freeCnt := ?_
      postCnt := ?_ }, rfl⟩
    · rw [h.postHead, h.seekahead h.postHead_lt (by omega)]
    · rw [h.freeCnt, Int.natCast_add]
    · rw [h.postCnt, Int.ofNat_sub (by omega)]

/-- The search for completed descriptors. -/
theorem fromHwLoop_agrees (h : Agrees L c r) : ∀ (n cur count part : Nat), cur < L.count →
    fromHwLoop c n (L.cell cur) count part = Driver.fromHwLoop r n cur count part := by
  intro n
  induction n with
  | zero => intro cur count part _; rfl
  | succ n ih =>
      intro cur count part hcur
      have hbd := h.describe_eq hcur
      have hcomplete : bdRead c.mem (L.cell cur) .sts &&& bdStsCompleteMask = 0 ↔
          (r.bd cur).complete = false := by rw [complete_iff, ← hbd]; rfl
      have heof : ((c.ring.isRxChannel = false ∧
            bdRead c.mem (L.cell cur) .ctrlLen &&& bdCtrlTxeofMask ≠ 0) ∨
          (c.ring.isRxChannel = true ∧
            bdRead c.mem (L.cell cur) .sts &&& bdStsRxeofMask ≠ 0)) ↔
          (if r.isRxChannel then (r.bd cur).rxEof else (r.bd cur).eof) = true := by
        rw [Ne, txeof_iff, Ne, rxeof_iff, ← hbd, h.isRx]
        -- The bit that counts is in the control word or in the status word.
        cases c.ring.isRxChannel <;> simp [describeWords]
      simp only [fromHwLoop, Driver.fromHwLoop, hcomplete, heof, h.hwTail, L.cell_inj hcur h.tail,
        h.next hcur]
      by_cases hdone : (r.bd cur).complete = false
      · rw [if_pos hdone, if_pos hdone]
      · rw [if_neg hdone, if_neg hdone]
        by_cases hend : cur = r.hwTail
        · rw [if_pos hend, if_pos hend]
        · rw [if_neg hend, if_neg hend, ih _ _ _ (h.next_lt hcur)]

theorem fromHwLoop_part_le (r : BdRing) : ∀ (n cur count part : Nat), part ≤ count →
    (Driver.fromHwLoop r n cur count part).2 ≤ (Driver.fromHwLoop r n cur count part).1 := by
  intro n
  induction n with
  | zero => intro cur count part h; exact h
  | succ n ih =>
      intro cur count part h
      have hpart : ∀ b : Bool, (if b = true then 0 else part + 1) ≤ count + 1 := by
        intro b
        split <;> omega
      simp only [Driver.fromHwLoop]
      split
      · exact h
      split
      · exact hpart _
      · exact ih _ _ _ (hpart _)

/-- Taking completed descriptors back. -/
theorem bdRingFromHw_agrees (h : Agrees L c r) (limit : Int) :
    Agrees L (bdRingFromHw c limit).1 (Driver.bdRingFromHw r limit.toNat).1 ∧
      (bdRingFromHw c limit).2.1 = (Driver.bdRingFromHw r limit.toNat).2 ∧
      (bdRingFromHw c limit).2.2 = if (Driver.bdRingFromHw r limit.toNat).2 = 0 then none
        else some (L.cell r.hwHead) := by
  have hwf := bdRingFromHw_wf limit.toNat h.wf
  have hspec := (bdRingFromHw_spec r limit.toNat).1
  have hempty : c.ring.hwCnt = 0 ↔ r.hwCnt = 0 := by rw [h.hwCnt, Int.natCast_eq_zero]
  have hlimit : (if limit > c.ring.hwCnt then c.ring.hwCnt else limit).toNat =
      min limit.toNat r.hwCnt := by
    rw [h.hwCnt]
    split <;> omega
  have hpart := fromHwLoop_part_le r (min limit.toNat r.hwCnt) r.hwHead 0 0 (Nat.le_refl 0)
  simp only [bdRingFromHw, Driver.bdRingFromHw, hempty, hlimit] at hwf hspec ⊢
  rw [h.hwHead, fromHwLoop_agrees h _ _ _ _ h.hwHead_lt]
  by_cases hz : r.hwCnt = 0
  · rw [if_pos hz, if_pos hz]
    exact ⟨h, rfl, rfl⟩
  rw [if_neg hz] at hwf hspec
  rw [if_neg hz, if_neg hz]
  generalize Driver.fromHwLoop r (min limit.toNat r.hwCnt) r.hwHead 0 0 = res at hwf hspec hpart ⊢
  -- The source subtracts integers, and the difference is never negative.
  have hsub : (res.1 : Int) - res.2 = ((res.1 - res.2 : Nat) : Int) := (Int.ofNat_sub hpart).symm
  rw [hsub]
  by_cases hnone : res.1 - res.2 = 0
  · rw [if_pos hnone, if_neg (by rw [hnone]; exact fun hc => hc rfl)]
    exact ⟨h, rfl, rfl⟩
  · rw [if_neg hnone] at hwf hspec
    rw [if_neg hnone, if_pos (by omega)]
    have hcounts := h.counts
    refine ⟨{ h with
      wf := hwf
      hwHead := ?_
      hwCnt := ?_
      postCnt := ?_ }, rfl, (if_neg hnone).symm⟩
    · rw [h.seekahead h.hwHead_lt (by simp only at hspec; omega)]
    · rw [h.hwCnt, Int.ofNat_sub hspec]
    · rw [h.postCnt, Int.natCast_add]

/-- The variables of the loop that hands descriptors over are those of the
    descriptor that it stands on, as far as they are used. -/
structure Follows (L : Layout) (c : Channel) (s : Cursor) (r : BdRing) (cur : Nat) : Prop where
  agrees : Agrees L { c with mem := s.mem } r
  cur_lt : cur < L.count
  ptr : s.curBdPtr = L.cell cur
  eof : s.bdCr.getLsbD 26 = (r.bd cur).eof
  rxEof : s.bdSts.getLsbD 26 = (r.bd cur).rxEof

section Loop

variable {s : Cursor} {cur : Nat}

/-- The status word is written back without the completed bit. -/
theorem Follows.clear (h : Follows L c s r cur) :
    Agrees L { c with
        mem := bdWrite s.mem s.curBdPtr .sts (s.bdSts &&& ~~~bdStsCompleteMask) }
      (r.modify cur bdClearComplete) := by
  rw [h.ptr]
  refine h.agrees.write h.cur_lt (by decide) (by decide) _ ?_
  have hrx : (s.bdSts &&& ~~~bdStsCompleteMask).getLsbD 26 = (r.bd cur).rxEof := by
    rw [getLsbD_and_not (by decide) (by decide), h.rxEof]
  have hdone : (s.bdSts &&& ~~~bdStsCompleteMask).getLsbD 31 = false := by
    rw [BitVec.getLsbD_and, BitVec.getLsbD_not]
    exact Bool.and_false _
  have hbd := h.agrees.describe_eq h.cur_lt
  rw [← hbd] at hrx ⊢
  simp only [describeWords, bdClearComplete, Function.update_self, Function.update_of_ne,
    ne_eq, reduceCtorEq, not_false_eq_true, hdone, hrx]

/-- The loop goes on to the next descriptor. -/
theorem Follows.step (h : Follows L c s r cur) {m : Mem}
    (hm : m = bdWrite s.mem s.curBdPtr .sts (s.bdSts &&& ~~~bdStsCompleteMask)) :
    Follows L c ⟨m, c.ring.mBdRingNext s.curBdPtr,
        bdRead m (c.ring.mBdRingNext s.curBdPtr) .ctrlLen,
        bdRead m (c.ring.mBdRingNext s.curBdPtr) .sts⟩
      (r.modify cur bdClearComplete) (r.next cur) := by
  have hclear := h.clear
  have hnext : c.ring.mBdRingNext s.curBdPtr = L.cell (r.next cur) := by
    rw [h.ptr]
    exact h.agrees.next h.cur_lt
  have hlt := h.agrees.next_lt h.cur_lt
  have hbd := hclear.describe_eq hlt
  rw [← hm] at hclear hbd
  rw [hnext]
  exact ⟨hclear, hlt, rfl, by rw [← hbd]; rfl, by rw [← hbd]; rfl⟩

/-- The loops of the two levels do the same. -/
theorem clearLoop_agrees : ∀ (n : Nat) {s : Cursor} {r : BdRing} {cur : Nat},
    Follows L c s r cur →
      (clearLoop c.ring n s).2 = (Driver.clearLoop n r cur).2.2 ∧
      Follows L c (clearLoop c.ring n s).1 (Driver.clearLoop n r cur).1
        (Driver.clearLoop n r cur).2.1 := by
  intro n
  induction n with
  | zero => intro s r cur h; exact ⟨rfl, h⟩
  | succ n ih =>
      intro s r cur h
      have hlen : bdGetLength s.mem s.curBdPtr c.ring.maxTransferLen = 0 ↔ (r.bd cur).len = 0 := by
        rw [h.ptr]
        exact h.agrees.len_eq_zero_iff h.cur_lt
      simp only [clearLoop, Driver.clearLoop, hlen]
      by_cases hz : (r.bd cur).len = 0
      · rw [if_pos hz, if_pos hz]
        exact ⟨rfl, h⟩
      · rw [if_neg hz, if_neg hz]
        exact ih (h.step rfl)

end Loop

/-- The loop begins at the head of the pre-processing group. -/
theorem Agrees.follows (h : Agrees L c r) :
    Follows L c ⟨c.mem, L.cell r.preHead, bdGetCtrl c.mem (L.cell r.preHead),
      bdGetSts c.mem (L.cell r.preHead)⟩ r r.preHead := by
  have hbd := h.describe_eq h.preHead_lt
  refine ⟨h, h.preHead_lt, rfl, ?_, ?_⟩
  · rw [bdGetCtrl, BitVec.getLsbD_and, ← hbd]
    exact Bool.and_true _
  · rw [bdGetSts, BitVec.getLsbD_and, ← hbd]
    exact Bool.and_true _

/-- Handing descriptors over. A channel that is running is told the last one. -/
theorem bdRingToHw_agrees (h : Agrees L c r) (n : Nat) (a : BitVec 32) :
    Agrees L (bdRingToHw c n a).1 (Driver.bdRingToHw r n (L.name a)).1 ∧
      (bdRingToHw c n a).2.1 = (Driver.bdRingToHw r n (L.name a)).2 ∧
      (bdRingToHw c n a).2.2 =
        if (Driver.bdRingToHw r n (L.name a)).2 = xstSuccess ∧ 0 < n ∧
          c.ring.runState = channelNotHalted then
          some (L.physCell (Driver.bdRingToHw r n (L.name a)).1.hwTail) else none := by
  have hpos : ¬ (n : Int) < 0 := by omega
  have hsync : (c.ring.preCnt < n ∨ c.ring.preHead ≠ a) ↔
      (r.preCnt < n ∨ r.preHead ≠ L.name a) := by
    rw [h.preCnt, Int.ofNat_lt, h.preHead, L.cell_ne_iff h.preHead_lt]
  by_cases hz : n = 0
  · rw [bdRingToHw, Driver.bdRingToHw, if_neg hpos, if_pos (by omega), if_pos hz]
    exact ⟨h, rfl, (if_neg fun hc => absurd hc.2.1 (by omega)).symm⟩
  have hwf := bdRingToHw_wf (Nat.pos_of_ne_zero hz) (L.name a) h.wf
  by_cases hbad : r.preCnt < n ∨ r.preHead ≠ L.name a
  · rw [bdRingToHw, Driver.bdRingToHw, if_neg hpos, if_neg (by omega), if_pos (hsync.mpr hbad),
      if_neg hz, if_pos hbad]
    exact ⟨h, rfl, (if_neg fun hc => xstDmaSgListError_ne hc.1).symm⟩
  have hname : L.name a = r.preHead := by
    by_contra hc
    exact hbad (Or.inr (Ne.symm hc))
  have ha : a = L.cell r.preHead := (L.name_eq_iff h.preHead_lt).mp hname
  have hsof : bdGetCtrl c.mem a &&& bdCtrlTxsofMask = 0 ↔ (r.bd (L.name a)).sof = false := by
    rw [txsof_iff, bdGetCtrl, BitVec.getLsbD_and, hname, ha, ← h.describe_eq h.preHead_lt]
    exact Eq.congr_left (Bool.and_true _)
  have hfew : ((n : Int) - 1).toNat = n - 1 := by omega
  have hloop := clearLoop_agrees (n - 1) h.follows
  have hsame := (clearLoop_spec (n - 1) r r.preHead).1.groups
  simp only [bdRingToHw, Driver.bdRingToHw, hpos, hz, if_false, Int.natCast_eq_zero, hsync, hbad,
    hsof, ← h.isRx, hfew] at hwf ⊢
  rw [hname] at hwf ⊢
  rw [ha]
  by_cases hfirst : r.isRxChannel = false ∧ (r.bd r.preHead).sof = false
  · rw [if_pos hfirst, if_pos hfirst]
    exact ⟨h, rfl, (if_neg fun hc => xstFailure_ne hc.1).symm⟩
  rw [if_neg hfirst] at hwf
  rw [if_neg hfirst, if_neg hfirst]
  generalize clearLoop c.ring (n - 1) _ = res at hloop ⊢
  generalize Driver.clearLoop (n - 1) r r.preHead = res' at hloop hsame hwf ⊢
  rcases res with ⟨s, ok⟩
  rcases res' with ⟨r', cur, ok'⟩
  rcases hloop with ⟨rfl, hf⟩
  cases ok with
  | false => exact ⟨hf.agrees, rfl, (if_neg fun hc => xstFailure_ne hc.1).symm⟩
  | true =>
      have hlen : bdGetLength s.mem s.curBdPtr c.ring.maxTransferLen = 0 ↔
          (r'.bd cur).len = 0 := by
        rw [hf.ptr]
        exact hf.agrees.len_eq_zero_iff hf.cur_lt
      have hrx : r'.isRxChannel = r.isRxChannel := by rw [h.isRx, hf.agrees.isRx]
      have heof := hf.eof
      simp only at hf heof hsame hlen hrx
      simp only [txeof_iff, heof, hlen, hrx] at hwf ⊢
      by_cases hlast : r.isRxChannel = false ∧ (r'.bd cur).eof = false
      · rw [if_pos hlast, if_pos hlast]
        exact ⟨hf.agrees, rfl, (if_neg fun hc => xstFailure_ne hc.1).symm⟩
      rw [if_neg hlast] at hwf
      rw [if_neg hlast, if_neg hlast]
      by_cases hempty : (r'.bd cur).len = 0
      · rw [if_pos hempty, if_pos hempty]
        exact ⟨hf.agrees, rfl, (if_neg fun hc => xstFailure_ne hc.1).symm⟩
      rw [if_neg hempty] at hwf
      rw [if_neg hempty, if_neg hempty]
      -- The set goes over: the word of its last descriptor is written and the heads move.
      have hcounts := hf.agrees.counts
      have hcnt : n ≤ r'.preCnt := by
        rw [congrArg Groups.preCnt hsame]
        exact Nat.not_lt.mp fun hc => hbad (Or.inl hc)
      refine ⟨{ hf.clear with
        wf := hwf
        tail := hf.cur_lt
        preHead := ?_
        preCnt := ?_
        hwTail := hf.ptr
        hwCnt := ?_
        isRx := hrx }, rfl, ?_⟩
      · change c.ring.ringSeekahead c.ring.preHead n = L.cell (r'.seekahead r'.preHead n)
        have hhead : c.ring.preHead = L.cell r'.preHead := hf.agrees.preHead
        rw [hhead]
        exact hf.agrees.seekahead hf.agrees.preHead_lt (by omega)
      · change c.ring.preCnt - n = ((r'.preCnt - n : Nat) : Int)
        have hpre : c.ring.preCnt = r'.preCnt := hf.agrees.preCnt
        rw [hpre, Int.ofNat_sub hcnt]
      · change c.ring.hwCnt + n = ((r'.hwCnt + n : Nat) : Int)
        have hhw : c.ring.hwCnt = r'.hwCnt := hf.agrees.hwCnt
        rw [hhw, Int.natCast_add]
      · change (if c.ring.runState = channelNotHalted then some (c.ring.virtToPhys s.curBdPtr)
          else none) = if xstSuccess = xstSuccess ∧ 0 < n ∧ c.ring.runState = channelNotHalted then
          some (L.physCell cur) else none
        have hphys : c.ring.virtToPhys s.curBdPtr = L.physCell cur := by
          rw [hf.ptr]
          exact hf.agrees.virtToPhys cur
        simp only [hphys, true_and, Nat.pos_of_ne_zero hz]

end Functions

section Setters

variable {L : Layout} {c : Channel} {r : BdRing} {i : Nat}

/-- A change that is refused. -/
theorem Agrees.keep (h : Agrees L c r) {g : Bd → Bd} (hg : g (r.bd i) = r.bd i) :
    Agrees L c (r.modify i g) :=
  { h.toRingAgrees with
    holds := by
      rw [BdRing.modify, hg, Function.update_eq_self]
      exact h.holds }

/-- The bits of a length mask. -/
theorem RingAgrees.mask_bits {x : Ring} (h : RingAgrees L x r) : ∃ k, k ≤ 26 ∧
    (∀ j, j < 32 → x.maxTransferLen.getLsbD j = decide (j < k)) ∧
    ∀ len : BitVec 32, len ≤ x.maxTransferLen → ∀ j, k ≤ j → len.getLsbD j = false := by
  rcases h.mask with ⟨k, hk, hmask⟩
  have hpow : 2 ^ k - 1 < 2 ^ 32 :=
    lt_of_le_of_lt (Nat.sub_le _ _) (Nat.pow_lt_pow_right (by decide) (by omega))
  refine ⟨k, hk, ?_, ?_⟩
  · intro j hj
    rw [hmask, BitVec.getLsbD_ofNat, Nat.testBit_two_pow_sub_one, decide_eq_true hj,
      Bool.true_and]
  · intro len hlen j hj
    rw [BitVec.le_def, hmask, BitVec.toNat_ofNat, Nat.mod_eq_of_lt hpow] at hlen
    have hsmall : len.toNat < 2 ^ j :=
      calc len.toNat < 2 ^ k := by have := Nat.two_pow_pos k; omega
        _ ≤ 2 ^ j := Nat.pow_le_pow_right (by decide) hj
    exact Nat.testBit_lt_two_pow hsmall

/-- The lengths that are refused. -/
theorem Agrees.length_refused_iff (h : Agrees L c r) (len : BitVec 32) :
    (len ≤ 0 ∨ len > c.ring.maxTransferLen) ↔
      (len.toNat = 0 ∨ len.toNat > r.maxTransferLen) := by
  rw [h.maxLen, BitVec.le_def, gt_iff_lt, BitVec.lt_def]
  exact or_congr_left Nat.le_zero

theorem bdSetLength_status (h : Agrees L c r) (a len : BitVec 32) :
    (bdSetLength c.mem a len c.ring.maxTransferLen).2 =
      if len.toNat = 0 ∨ len.toNat > r.maxTransferLen then xstInvalidParam else xstSuccess := by
  rw [bdSetLength]
  by_cases hbad : len.toNat = 0 ∨ len.toNat > r.maxTransferLen
  · rw [if_pos ((h.length_refused_iff len).mpr hbad), if_pos hbad]
  · rw [if_neg (fun hc => hbad ((h.length_refused_iff len).mp hc)), if_neg hbad]

/-- `XAxiDma_BdSetLength` on both levels. -/
theorem bdSetLength_agrees (h : Agrees L c r) (hi : i < L.count) (len : BitVec 32) :
    Agrees L { c with mem := (bdSetLength c.mem (L.cell i) len c.ring.maxTransferLen).1 }
      (r.modify i (Driver.bdSetLength len.toNat r.maxTransferLen)) := by
  rw [bdSetLength]
  by_cases hbad : len.toNat = 0 ∨ len.toNat > r.maxTransferLen
  · rw [if_pos ((h.length_refused_iff len).mpr hbad)]
    exact h.keep (by rw [Driver.bdSetLength, if_pos hbad])
  rw [if_neg (fun hc => hbad ((h.length_refused_iff len).mp hc))]
  refine h.write hi (by decide) (by decide) _ ?_
  rcases h.mask_bits with ⟨k, hk, hmask, hlen⟩
  have hlen := hlen len (by
    rw [BitVec.le_def, ← h.maxLen]
    exact Nat.not_lt.mp fun hc => hbad (Or.inr hc))
  -- The mask takes exactly the old length out, and the new one lies within it.
  have hnew : ∀ x : BitVec 32,
      ((x &&& ~~~c.ring.maxTransferLen) ||| len) &&& c.ring.maxTransferLen = len := by
    intro x
    apply BitVec.eq_of_getLsbD_eq
    intro j hj
    rw [BitVec.getLsbD_and, BitVec.getLsbD_or, BitVec.getLsbD_and, BitVec.getLsbD_not, hmask j hj]
    by_cases hjk : j < k
    · simp [hjk]
    · simp [hjk, hlen j (by omega)]
  have hhigh : ∀ (x : BitVec 32) (j : Nat), j < 32 → 26 ≤ j →
      ((x &&& ~~~c.ring.maxTransferLen) ||| len).getLsbD j = x.getLsbD j := by
    intro x j hj hj'
    rw [BitVec.getLsbD_or, hlen j (by omega), Bool.or_false]
    exact getLsbD_and_not hj (by rw [hmask j hj]; exact decide_eq_false (by omega))
  rw [Driver.bdSetLength, if_neg hbad, ← h.describe_eq hi]
  simp only [describeWords, Function.update_self, Function.update_of_ne, ne_eq, reduceCtorEq,
    not_false_eq_true, hnew, hhigh _ 27 (by decide) (by decide),
    hhigh _ 26 (by decide) (by decide)]

/-- `XAxiDma_BdSetCtrl` on both levels. -/
theorem bdSetCtrl_agrees (h : Agrees L c r) (hi : i < L.count) (data : BitVec 32) :
    Agrees L { c with mem := bdSetCtrl c.mem (L.cell i) data }
      (r.modify i (Driver.bdSetCtrl (data.getLsbD 27) (data.getLsbD 26))) := by
  refine h.write hi (by decide) (by decide) _ ?_
  rcases h.mask_bits with ⟨k, hk, hmask, -⟩
  have hlow : ∀ j, j < 26 → bdCtrlAllMask.getLsbD j = false := by decide
  have hlen : ∀ x : BitVec 32, ((x &&& ~~~bdCtrlAllMask) ||| (data &&& bdCtrlAllMask)) &&&
      c.ring.maxTransferLen = x &&& c.ring.maxTransferLen := by
    intro x
    apply BitVec.eq_of_getLsbD_eq
    intro j hj
    simp only [BitVec.getLsbD_and, BitVec.getLsbD_or, BitVec.getLsbD_not, hmask j hj]
    by_cases hjk : j < k
    · rw [hlow j (by omega), decide_eq_true hj, Bool.not_false, Bool.and_false, Bool.and_true,
        Bool.and_true, Bool.or_false]
    · rw [decide_eq_false hjk, Bool.and_false, Bool.and_false]
  have hmark : ∀ (x : BitVec 32) (j : Nat), bdCtrlAllMask.getLsbD j = true →
      ((x &&& ~~~bdCtrlAllMask) ||| (data &&& bdCtrlAllMask)).getLsbD j = data.getLsbD j := by
    intro x j hj
    simp only [BitVec.getLsbD_and, BitVec.getLsbD_or, BitVec.getLsbD_not, hj, Bool.not_true,
      Bool.and_false, Bool.and_true, Bool.false_or]
  rw [Driver.bdSetCtrl, ← h.describe_eq hi]
  simp only [describeWords, Function.update_self, Function.update_of_ne, ne_eq, reduceCtorEq,
    not_false_eq_true, hlen, hmark _ 27 (by decide), hmark _ 26 (by decide)]

/-- The addresses that are refused. -/
theorem Agrees.address_refused_iff (h : Agrees L c r) (addr : BitVec 32) :
    (addr &&& ((c.ring.hwInfo &&& bdWordlenMask) - 1) ≠ 0 ∧
        c.ring.hwInfo &&& bdHasDreMask = 0) ↔
      (addr.toNat &&& (r.dataWidth - 1) ≠ 0 ∧ r.hasDRE = false) := by
  have hword : ((c.ring.hwInfo &&& bdWordlenMask) - 1).toNat = r.dataWidth - 1 := by
    have hle : (1 : BitVec 32) ≤ c.ring.hwInfo &&& bdWordlenMask := by
      rw [BitVec.le_def, h.width]
      exact h.width_pos
    rw [BitVec.toNat_sub_of_le hle, h.width]
    rfl
  rw [h.dre, ← hword, ← BitVec.toNat_and, Ne, ← BitVec.toNat_inj]
  rfl

theorem bdSetBufAddr_status (h : Agrees L c r) (hi : i < L.count) (addr : BitVec 32) :
    (bdSetBufAddr c.mem (L.cell i) addr).2 =
      if addr.toNat &&& (r.dataWidth - 1) ≠ 0 ∧ r.hasDRE = false then xstInvalidParam
      else xstSuccess := by
  simp only [bdSetBufAddr, h.holds.info i hi]
  by_cases hbad : addr.toNat &&& (r.dataWidth - 1) ≠ 0 ∧ r.hasDRE = false
  · rw [if_pos ((h.address_refused_iff addr).mpr hbad), if_pos hbad]
  · rw [if_neg (fun hc => hbad ((h.address_refused_iff addr).mp hc)), if_neg hbad]

/-- `XAxiDma_BdSetBufAddr` on both levels. -/
theorem bdSetBufAddr_agrees (h : Agrees L c r) (hi : i < L.count) (addr : BitVec 32) :
    Agrees L { c with mem := (bdSetBufAddr c.mem (L.cell i) addr).1 }
      (r.modify i (Driver.bdSetBufAddr r.hasDRE r.dataWidth addr.toNat)) := by
  simp only [bdSetBufAddr, h.holds.info i hi]
  by_cases hbad : addr.toNat &&& (r.dataWidth - 1) ≠ 0 ∧ r.hasDRE = false
  · rw [if_pos ((h.address_refused_iff addr).mpr hbad)]
    refine h.keep ?_
    simp only [Driver.bdSetBufAddr, Nat.mod_eq_of_lt addr.isLt]
    exact if_pos hbad
  · rw [if_neg (fun hc => hbad ((h.address_refused_iff addr).mp hc))]
    refine h.write hi (by decide) (by decide) _ ?_
    simp only [Driver.bdSetBufAddr, Nat.mod_eq_of_lt addr.isLt]
    rw [if_neg hbad, ← h.describe_eq hi]
    rfl

/-- `XAxiDma_BdSetId` on both levels. -/
theorem bdSetId_agrees (h : Agrees L c r) (hi : i < L.count) (id : BitVec 32) :
    Agrees L { c with mem := bdSetId c.mem (L.cell i) id }
      (r.modify i (Driver.bdSetId (if id = 0 then none else some id.toNat))) := by
  refine h.write hi (by decide) (by decide) _ ?_
  rw [← h.describe_eq hi]
  rfl

/-- The hardware writes the status word of a descriptor. -/
theorem writeSts_agrees (h : Agrees L c r) (hi : i < L.count) (sts : BitVec 32) :
    Agrees L { c with mem := bdWrite c.mem (L.cell i) .sts sts }
      (r.modify i fun b => { b with complete := sts.getLsbD 31, rxEof := sts.getLsbD 26 }) := by
  refine h.write hi (by decide) (by decide) _ ?_
  rw [← h.describe_eq hi]
  rfl

end Setters

end XAxiDma

end Driver

end Ml605
