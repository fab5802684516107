import Ml605.Driver.BdStart
import Ml605.Lib.Dialogue

/-!
# Every Sequence of Calls on a Ring

A ring that `XAxiDma_BdRingCreate` has made, and anything that a driver then does
with it: the functions that move descriptors between the groups, with whatever
numbers and pointers, the functions that write a field of a descriptor of the
ring, and starting and resetting the channel. The hardware takes part by writing
status words, and by whether it starts when it is told to.

`XAxiDma_BdRingCreate` refuses a block that wraps around, by comparing the address
of its first byte with that of its last one. The size of the block is a product
of 32 bits, so the test is exact as long as that does not overflow.

## Main definitions

* `CreateOk`: What a ring needs to be made.
* `freshRing`: The ring over indices that is made.
* `RingCall`, `Channel.ringCall`, `BdRing.ringCall`: The calls that work on the
  descriptors, on both levels.
* `LiveRing`: A ring over indices with the state of its channel.
* `Call`, `Channel.call`, `LiveRing.call`: All calls, on both levels.

## Theorems

* `bdRingCreate_success_iff`: Which rings are made.
* `bdRingCreate_agrees`, `bdRingClone_agrees`: The levels agree on a new ring.
* `ringCall_agrees`, `call_live`: One call keeps the levels together.
* `ring_refines`: From then on they give the same answers.
-/

namespace Ml605

namespace Driver

namespace XAxiDma

open Lib

section Create

variable {c : Channel} {phys virt alignment : BitVec 32} {n : Nat}

/-- What `XAxiDma_BdRingCreate` asks for. -/
structure CreateOk (phys virt alignment : BitVec 32) (n : Nat) : Prop where
  pos : 0 < n
  min : ¬ alignment < 0x40
  pow : (alignment - 1) &&& alignment = 0
  physAligned : phys % alignment = 0
  virtAligned : virt % alignment = 0
  fits : virt.toNat + alignment.toNat * n ≤ 2 ^ 32

/-- Descriptors are as far apart as their alignment says. -/
theorem separation_of_alignment (hmin : ¬ alignment < 0x40)
    (hpow : (alignment - 1) &&& alignment = 0) :
    (bdSize + (alignment - 1)) &&& ~~~(alignment - 1) = alignment := by
  have h64 : 64 ≤ alignment.toNat := by
    rw [BitVec.lt_def] at hmin
    exact Nat.not_lt.mp hmin
  have hone : (alignment - 1).toNat = alignment.toNat - 1 := by
    rw [BitVec.toNat_sub_of_le (by rw [BitVec.le_def]; exact le_trans (by decide) h64)]
    rfl
  obtain ⟨k, hk⟩ := exists_two_pow (a := alignment.toNat) (by omega)
    (by rw [← hone, ← BitVec.toNat_and, hpow]; rfl)
  have hlt : k < 32 := (Nat.pow_lt_pow_iff_right (a := 2) (by decide)).mp (hk ▸ alignment.isLt)
  have hge : 6 ≤ k := (Nat.pow_le_pow_iff_right (a := 2) (by decide)).mp (hk ▸ h64)
  have ha : alignment = BitVec.ofNat 32 (2 ^ k) := by
    apply BitVec.eq_of_toNat_eq
    rw [BitVec.toNat_ofNat, ← hk, Nat.mod_eq_of_lt alignment.isLt]
  subst ha
  clear hmin hpow h64 hone hk
  interval_cases k <;> decide

theorem size_eq (alignment : BitVec 32) (n : Nat) :
    alignment * BitVec.ofInt 32 n = BitVec.ofNat 32 (alignment.toNat * n) := by
  rw [BitVec.ofInt_natCast, BitVec.ofNat_mul, BitVec.ofNat_toNat, BitVec.setWidth_eq]

section Size

variable (hsmall : alignment.toNat * n < 2 ^ 32)

include hsmall

/-- The test for a block that wraps around. -/
theorem crosses_iff (virt : BitVec 32) (hpos : 0 < alignment.toNat * n) :
    virt > virt + alignment * BitVec.ofInt 32 n - 1 ↔
      ¬ virt.toNat + alignment.toNat * n ≤ 2 ^ 32 := by
  have hlt := virt.isLt
  rw [size_eq, gt_iff_lt, BitVec.lt_def, BitVec.toNat_sub, BitVec.toNat_add,
    BitVec.toNat_ofNat, Nat.mod_eq_of_lt hsmall]
  change (2 ^ 32 - 1 + (virt.toNat + alignment.toNat * n) % 2 ^ 32) % 2 ^ 32 < virt.toNat ↔ _
  omega

/-- The rings that can be made. -/
theorem bdRingCreate_success_iff :
    (bdRingCreate c phys virt alignment n).2 = xstSuccess ↔ CreateOk phys virt alignment n := by
  have hparam : xstInvalidParam ≠ xstSuccess := by decide
  have hlist : xstDmaSgListError ≠ xstSuccess := by decide
  simp only [bdRingCreate]
  -- The checks in the order of the code; each one that refuses contradicts one field.
  by_cases hn : (n : Int) ≤ 0
  · rw [if_pos hn]
    exact ⟨fun h => absurd h hparam, fun h => absurd h.pos (by omega)⟩
  rw [if_neg hn]
  by_cases hmin : alignment < 0x40
  · rw [if_pos hmin]
    exact ⟨fun h => absurd h hparam, fun h => absurd hmin h.min⟩
  rw [if_neg hmin]
  by_cases hpow : (alignment - 1) &&& alignment ≠ 0
  · rw [if_pos hpow]
    exact ⟨fun h => absurd h hparam, fun h => absurd h.pow hpow⟩
  rw [if_neg hpow]
  rw [Ne, not_not] at hpow
  by_cases haligned : phys % alignment ≠ 0 ∨ virt % alignment ≠ 0
  · rw [if_pos haligned]
    refine ⟨fun h => absurd h hparam, fun h => ?_⟩
    rcases haligned with hp | hv
    · exact absurd h.physAligned hp
    · exact absurd h.virtAligned hv
  rw [if_neg haligned, separation_of_alignment hmin hpow]
  rw [not_or, Ne, not_not, Ne, not_not] at haligned
  have h64 : 64 ≤ alignment.toNat := by
    rw [BitVec.lt_def] at hmin
    exact Nat.not_lt.mp hmin
  -- The last check compares addresses modulo 2^32; `hsmall` makes it the check that is meant.
  have hcross := crosses_iff hsmall virt (Nat.mul_pos (by omega) (by omega))
  by_cases hfits : virt.toNat + alignment.toNat * n ≤ 2 ^ 32
  · rw [if_neg (fun hc => hcross.mp hc hfits)]
    exact ⟨fun _ => ⟨by omega, hmin, hpow, haligned.1, haligned.2, hfits⟩, fun _ => rfl⟩
  · rw [if_pos (hcross.mpr hfits)]
    exact ⟨fun h => absurd h hlist, fun h => absurd h.fits hfits⟩

end Size

theorem CreateOk.alignment_ge (h : CreateOk phys virt alignment n) : 64 ≤ alignment.toNat := by
  have hmin := h.min
  rw [BitVec.lt_def] at hmin
  exact Nat.not_lt.mp hmin

/-- The tests of the source, as they are written. -/
theorem CreateOk.tests (h : CreateOk phys virt alignment n)
    (hsmall : alignment.toNat * n < 2 ^ 32) :
    ¬ (n : Int) ≤ 0 ∧ ¬ (phys % alignment ≠ 0 ∨ virt % alignment ≠ 0) ∧
      ¬ virt > virt + BitVec.ofNat 32 (alignment.toNat * n) - 1 := by
  have hpos := h.pos
  have hge := h.alignment_ge
  refine ⟨by omega, ?_, ?_⟩
  · rw [not_or, Ne, not_not, Ne, not_not]
    exact ⟨h.physAligned, h.virtAligned⟩
  · rw [← size_eq, crosses_iff hsmall virt (Nat.mul_pos (by omega) hpos), not_not]
    exact h.fits

/-- A ring that is made does not run yet, and would begin with its first
    descriptor. -/
theorem bdRingCreate_halted (h : CreateOk phys virt alignment n)
    (hsmall : alignment.toNat * n < 2 ^ 32) :
    (bdRingCreate c phys virt alignment n).1.ring.runState = channelHalted ∧
      (bdRingCreate c phys virt alignment n).1.ring.bdaRestart = phys := by
  rcases h.tests hsmall with ⟨hpos, haligned, hcross⟩
  simp only [bdRingCreate, hpos, h.min, h.pow, haligned, hcross, if_false, ne_eq,
    not_true_eq_false, separation_of_alignment h.min h.pow, size_eq, and_self]

/-- The block of a ring that can be made. -/
def CreateOk.layout (h : CreateOk phys virt alignment n) (hsmall : alignment.toNat * n < 2 ^ 32) :
    Layout where
  base := virt
  sep := alignment.toNat
  count := n
  phys := phys
  sep_pos := lt_of_lt_of_le (by decide) h.alignment_ge
  count_pos := h.pos
  proper := hsmall
  fits := h.fits
  roomy := h.alignment_ge

end Create

/-- The ring over indices that is made. -/
def freshRing (x : Ring) (n : Nat) : BdRing :=
  { Driver.bdRingCreate x.isRxChannel n with
    maxTransferLen := x.maxTransferLen.toNat
    hasDRE := decide (x.hwInfo &&& bdHasDreMask ≠ 0)
    dataWidth := (x.hwInfo &&& bdWordlenMask).toNat }

section Links

variable {L : Layout} {x : Ring} {m : Mem} {i j : Nat}

/-- The descriptors before `i` are linked, and none has been used. -/
structure Linked (L : Layout) (x : Ring) (i : Nat) (m : Mem) : Prop where
  links : ∀ j, j < i →
    bdRead m (L.cell j) .ndesc = L.physCell (if j + 1 ≥ L.count then 0 else j + 1)
  info : ∀ j, j < i → bdRead m (L.cell j) .hasDre = x.hwInfo
  unused : ∀ j, j < L.count → ∀ f ∈ [Field.bufa, .ctrlLen, .sts, .id], bdRead m (L.cell j) f = 0

theorem memset_linked (L : Layout) (x : Ring) (m : Mem) :
    Linked L x 0 (memset m L.base (BitVec.ofNat 32 (L.sep * L.count))) := by
  refine ⟨fun j hj => absurd hj (Nat.not_lt_zero j), fun j hj => absurd hj (Nat.not_lt_zero j), ?_⟩
  intro j hj f _
  have hroomy := lt_of_lt_of_le f.offset_lt L.roomy
  have hword := L.toNat_word hj hroomy
  have hcell := L.mul_lt hj
  have hproper := L.proper
  have hfits := L.fits
  have hin : L.cell j + f.offset - L.base < BitVec.ofNat 32 (L.sep * L.count) := by
    rw [BitVec.lt_def, BitVec.toNat_sub, hword, BitVec.toNat_ofNat, Nat.mod_eq_of_lt hproper]
    omega
  exact if_pos hin

/-- One more descriptor is linked. -/
theorem Linked.linkBd (h : Linked L x i m) (hi : i < L.count) :
    Linked L x (i + 1)
      (linkBd x m (L.cell i) (L.physCell (if i + 1 ≥ L.count then 0 else i + 1))) := by
  have hself : bdRead (XAxiDma.linkBd x m (L.cell i)
        (L.physCell (if i + 1 ≥ L.count then 0 else i + 1))) (L.cell i) =
      Function.update (Function.update (Function.update (bdRead m (L.cell i)) .ndesc
        (L.physCell (if i + 1 ≥ L.count then 0 else i + 1))) .hasStscntrl x.hasStsCntrlStrm)
        .hasDre x.hwInfo := by
    rw [XAxiDma.linkBd, bdRead_bdWrite_self, bdRead_bdWrite_self, bdRead_bdWrite_self]
  have hother : ∀ j, j < L.count → j ≠ i → bdRead (XAxiDma.linkBd x m (L.cell i)
      (L.physCell (if i + 1 ≥ L.count then 0 else i + 1))) (L.cell j) = bdRead m (L.cell j) := by
    intro j hj hne
    rw [XAxiDma.linkBd, bdRead_bdWrite_of_ne _ _ _ hi hj hne, bdRead_bdWrite_of_ne _ _ _ hi hj hne,
      bdRead_bdWrite_of_ne _ _ _ hi hj hne]
  refine ⟨?_, ?_, ?_⟩
  · intro j hj
    by_cases hji : j = i
    · subst hji
      rw [hself]
      rfl
    · rw [hother j (by omega) hji]
      exact h.links j (by omega)
  · intro j hj
    by_cases hji : j = i
    · subst hji
      rw [hself]
      rfl
    · rw [hother j (by omega) hji]
      exact h.info j (by omega)
  -- The words the loop does not write are those the later calls find blank.
  · intro j hj f hf
    by_cases hji : j = i
    · subst hji
      have hplain : f ≠ .ndesc ∧ f ≠ .hasStscntrl ∧ f ≠ .hasDre := by
        simp only [List.mem_cons, List.not_mem_nil, or_false] at hf
        rcases hf with rfl | rfl | rfl | rfl <;> decide
      rw [hself, Function.update_of_ne hplain.2.2, Function.update_of_ne hplain.2.1,
        Function.update_of_ne hplain.1]
      exact h.unused j hj f hf
    · rw [hother j hj hji]
      exact h.unused j hj f hf

/-- The loop links all descriptors but the last one, and ends on that. -/
theorem linkLoop_linked (hsep : x.separation = BitVec.ofNat 32 L.sep) :
    ∀ (k i : Nat) (m : Mem), i + k + 1 = L.count → Linked L x i m →
      (linkLoop x k m (L.cell i) (L.physCell (i + 1))).2 = L.last ∧
        Linked L x (L.count - 1) (linkLoop x k m (L.cell i) (L.physCell (i + 1))).1 := by
  intro k
  induction k with
  | zero =>
      intro i m hi h
      have hlast : i = L.count - 1 := by omega
      rw [hlast] at h ⊢
      exact ⟨rfl, h⟩
  | succ k ih =>
      intro i m hi h
      have hcell : L.cell i + x.separation = L.cell (i + 1) := by
        rw [hsep, L.cell_add, Nat.mul_one]
      have hphys : L.physCell (i + 1) + x.separation = L.physCell (i + 1 + 1) := by
        rw [hsep, Layout.physCell, Layout.physCell, BitVec.add_assoc, ← BitVec.ofNat_add,
          ← Nat.mul_succ]
      have hstep := h.linkBd (by omega)
      rw [if_neg (by omega)] at hstep
      have hrest := ih (i + 1) _ (by omega) hstep
      rw [linkLoop, hcell, hphys]
      exact hrest

end Links

section Made

variable {L : Layout} {c : Channel} {x : Ring} {m : Mem}

/-- The length of a ring, as it is computed from its two ends. -/
theorem Layout.length_eq (L : Layout) : L.last - L.base + BitVec.ofNat 32 L.sep = L.size := by
  have hsplit : L.sep * (L.count - 1) + L.sep = L.sep * L.count := by
    rw [← Nat.mul_succ, Nat.succ_eq_add_one, Nat.sub_add_cancel L.count_pos]
  rw [Cells.last, Cells.cell, BitVec.add_comm L.base, BitVec.add_sub_cancel, ← BitVec.ofNat_add,
    hsplit, Cells.size]

/-- Descriptors that have not been used are empty. -/
theorem Linked.holds (h : Linked L x L.count m) (mask : BitVec 32) :
    Holds L mask x.hwInfo m fun _ => {} := by
  refine ⟨?_, h.links, h.info⟩
  intro j hj
  have hzero : ∀ f ∈ [Field.bufa, .ctrlLen, .sts, .id], bdRead m (L.cell j) f = 0 :=
    h.unused j hj
  simp only [List.mem_cons, List.not_mem_nil, or_false, forall_eq_or_imp, forall_eq] at hzero
  simp [describe, describeWords, hzero]

/-- A ring that is made is the ring over indices that is made. -/
theorem bdRingCreate_agrees {phys virt alignment : BitVec 32} {n : Nat}
    (h : CreateOk phys virt alignment n) (hsmall : alignment.toNat * n < 2 ^ 32)
    (hmask : ∃ k, k ≤ 26 ∧ c.ring.maxTransferLen = BitVec.ofNat 32 (2 ^ k - 1))
    (hwidth : c.ring.hwInfo &&& bdWordlenMask ≠ 0) :
    Agrees (h.layout hsmall) (bdRingCreate c phys virt alignment n).1 (freshRing c.ring n) := by
  rcases h.tests hsmall with ⟨hpos, haligned, hcross⟩
  have hfew : ((n : Int) - 1).toNat = n - 1 := by omega
  -- The ring structure while the descriptors are linked.
  generalize hx : ({ c.ring with
      allCnt := 0, freeCnt := 0, hwCnt := 0, preCnt := 0, postCnt := 0,
      separation := alignment } : Ring) = x
  have hsep : x.separation = BitVec.ofNat 32 (h.layout hsmall).sep := by
    rw [← hx]
    exact (BitVec.ofNat_toNat 32 alignment).symm
  have hloop := linkLoop_linked hsep (n - 1) 0
    (memset c.mem virt (BitVec.ofNat 32 (alignment.toNat * n)))
    (by change 0 + (n - 1) + 1 = n; have := h.pos; omega)
    (memset_linked (h.layout hsmall) x c.mem)
  have hbase : (h.layout hsmall).cell 0 = virt := Cells.cell_zero _
  have hphys : (h.layout hsmall).physCell 1 = phys + x.separation := by
    rw [Layout.physCell, hsep, Nat.mul_one]
    rfl
  have hstep : x.separation = alignment := by rw [← hx]
  rw [hbase, hphys, hstep] at hloop
  simp only [bdRingCreate, hpos, h.min, h.pow, haligned, hcross, hfew, if_false, ne_eq,
    not_true_eq_false, separation_of_alignment h.min h.pow, size_eq]
  rw [hx]
  generalize linkLoop x (n - 1) _ virt (phys + alignment) = res at hloop ⊢
  rcases res with ⟨m, last⟩
  rcases hloop with ⟨rfl, hlinked⟩
  -- The last descriptor closes the ring.
  have hclosed := hlinked.linkBd (Nat.sub_lt h.pos Nat.one_pos)
  have hcount : (h.layout hsmall).count - 1 + 1 = (h.layout hsmall).count :=
    Nat.sub_add_cancel h.pos
  have hfirst : (h.layout hsmall).physCell 0 = phys := by
    rw [Layout.physCell, Nat.mul_zero]
    exact BitVec.add_zero phys
  rw [hcount, if_pos (Nat.le_refl _), hfirst] at hclosed
  have hholds := hclosed.holds c.ring.maxTransferLen
  have hinfo : x.hwInfo = c.ring.hwInfo := by rw [← hx]; rfl
  rw [hinfo] at hholds
  have hsep' : alignment = BitVec.ofNat 32 (h.layout hsmall).sep := hstep ▸ hsep
  have hwf : (freshRing c.ring n).Wf := bdRingCreate_wf c.ring.isRxChannel h.pos
  exact {
    first := rfl
    last := rfl
    length := by rw [← (h.layout hsmall).length_eq, ← hsep']; rfl
    separation := hsep'
    phys := rfl
    wf := hwf
    count := rfl
    tail := h.pos
    freeHead := hbase.symm
    preHead := hbase.symm
    hwHead := hbase.symm
    hwTail := hbase.symm
    postHead := hbase.symm
    freeCnt := rfl
    preCnt := rfl
    hwCnt := rfl
    postCnt := rfl
    allCnt := rfl
    isRx := rfl
    mask := hmask
    maxLen := rfl
    dre := by
      change c.ring.hwInfo &&& bdHasDreMask = 0 ↔
        decide (c.ring.hwInfo &&& bdHasDreMask ≠ 0) = false
      rw [decide_eq_false_iff_not, not_not]
    width := rfl
    width_pos := Nat.pos_of_ne_zero fun hc => hwidth (BitVec.eq_of_toNat_eq hc)
    holds := hholds }

end Made

section Clone

variable {L : Layout} {c : Channel} {r : BdRing} {i j : Nat}

/-- The words of a descriptor with those of a template copied over them. -/
def overlay (tmpBd : BitVec 32 → BitVec 32) (rd : Field → BitVec 32) (f : Field) : BitVec 32 :=
  if 8 ≤ f.offset ∧ f.offset < 8 + 48 then tmpBd f.offset else rd f

theorem bdRead_cloneBd_self (m : Mem) (a : BitVec 32) (tmpBd : BitVec 32 → BitVec 32) :
    bdRead (cloneBd m a tmpBd) a = overlay tmpBd (bdRead m a) := by
  ext f : 1
  have hoffset : a + f.offset - a = f.offset := by
    rw [BitVec.add_comm, BitVec.add_sub_cancel]
  rw [bdRead, cloneBd, hoffset, overlay]
  rfl

theorem bdRead_cloneBd_of_ne (m : Mem) (tmpBd : BitVec 32 → BitVec 32) (hi : i < L.count)
    (hj : j < L.count) (hne : j ≠ i) :
    bdRead (cloneBd m (L.cell i) tmpBd) (L.cell j) = bdRead m (L.cell j) := by
  ext f : 1
  have hroomy := L.roomy
  have hfar := L.sep_le_of_ne hi hj hne (lt_of_lt_of_le f.offset_lt hroomy)
  rw [bdRead, cloneBd, if_neg]
  · rfl
  · rintro ⟨-, hlt⟩
    rw [BitVec.lt_def] at hlt
    have hend : ((8 : BitVec 32) + 48).toNat = 56 := rfl
    omega

/-- The loop copies the template over every descriptor from `i` on. -/
theorem cloneLoop_read {x : Ring} (hsep : x.separation = BitVec.ofNat 32 L.sep)
    (tmpBd : BitVec 32 → BitVec 32) :
    ∀ (k i : Nat) (m : Mem), i + k = L.count → ∀ j, j < L.count →
      bdRead (cloneLoop x tmpBd k m (L.cell i)) (L.cell j) =
        if i ≤ j then overlay tmpBd (bdRead m (L.cell j)) else bdRead m (L.cell j) := by
  intro k
  induction k with
  | zero =>
      intro i m hi j hj
      rw [if_neg (by omega)]
      rfl
  | succ k ih =>
      intro i m hi j hj
      have hcell : L.cell i + x.separation = L.cell (i + 1) := by
        rw [hsep, L.cell_add, Nat.mul_one]
      rw [cloneLoop, hcell, ih (i + 1) _ (by omega) j hj]
      by_cases hji : j = i
      · subst hji
        rw [if_neg (by omega), if_pos (Nat.le_refl j), bdRead_cloneBd_self]
      · rw [bdRead_cloneBd_of_ne m tmpBd (by omega) hj hji]
        by_cases hle : i ≤ j
        · rw [if_pos (by omega), if_pos hle]
        · rw [if_neg (by omega), if_neg hle]

/-- A ring of which no descriptor is in use takes over a template, with the
    completed bit cleared. -/
theorem bdRingClone_agrees (h : Agrees L c r) (hhalted : c.ring.runState ≠ channelNotHalted)
    (hfree : r.freeCnt = r.allCnt) (srcBd : BitVec 32 → BitVec 32) :
    (bdRingClone c srcBd).2 = xstSuccess ∧
      Agrees L (bdRingClone c srcBd).1 { r with
        bd := fun _ => bdClearComplete
          (describeWords c.ring.maxTransferLen fun f => srcBd f.offset) } := by
  have hall : c.ring.allCnt ≠ 0 := by
    rw [h.allCnt, h.count]
    have := L.count_pos
    omega
  have hcnt : ¬ c.ring.freeCnt ≠ c.ring.allCnt := by
    rw [h.freeCnt, h.allCnt, hfree]
    exact fun hc => hc rfl
  simp only [bdRingClone, hall, hhalted, hcnt, if_false]
  have htoNat : c.ring.allCnt.toNat = L.count := by rw [h.allCnt, h.count, Int.toNat_natCast]
  -- The template is copied with its completion bit cleared, and links and info are kept.
  have hread := cloneLoop_read h.separation (Function.update srcBd Field.sts.offset
    (srcBd Field.sts.offset &&& ~~~bdStsCompleteMask)) L.count 0 c.mem (Nat.zero_add _)
  simp only [Nat.zero_le, if_true, Cells.cell_zero] at hread
  rw [htoNat, h.first]
  refine ⟨trivial, { h with wf := h.wf, holds := ⟨?_, ?_, ?_⟩ }⟩
  · intro j hj
    have hdone : (srcBd Field.sts.offset &&& ~~~bdStsCompleteMask).getLsbD 31 = false := by
      rw [BitVec.getLsbD_and, BitVec.getLsbD_not]
      exact Bool.and_false _
    have hrx : (srcBd Field.sts.offset &&& ~~~bdStsCompleteMask).getLsbD 26 =
        (srcBd Field.sts.offset).getLsbD 26 := getLsbD_and_not (by decide) (by decide)
    rw [describe, hread j hj]
    simp only [describeWords, bdClearComplete, overlay]
    rw [← hrx, ← hdone]
    rfl
  · intro j hj
    rw [hread j hj]
    exact h.holds.links j hj
  · intro j hj
    rw [hread j hj]
    exact h.holds.info j hj

end Clone

/-- What is done with the descriptors of a ring: by a driver, and at last by the
    hardware, which writes the status of a descriptor. -/
inductive RingCall where
  | alloc (numBd : Int)
  | unAlloc (numBd : Int) (bdSetPtr : BitVec 32)
  | toHw (numBd : Int) (bdSetPtr : BitVec 32)
  | fromHw (bdLimit : Int)
  | free (numBd : Int) (bdSetPtr : BitVec 32)
  | setBufAddr (bdPtr addr : BitVec 32)
  | setLength (bdPtr lenBytes : BitVec 32)
  | setCtrl (bdPtr data : BitVec 32)
  | setId (bdPtr id : BitVec 32)
  | writeSts (bdPtr sts : BitVec 32)

/-- What is done with a ring: to its descriptors, or to its channel. How the hardware
    reacts is part of the call: whether it is started before and after it has been
    told to run, and what its current descriptor register holds. -/
inductive Call where
  | ring (e : RingCall)
  | start (before after : Bool)
  | reset (cdesc : BitVec 32)

/-- The status and the pointer that a call answers with. A function that returns no
    status answers zero, and a call that does not come to an end has none. -/
abbrev Answer (P : Type) := Option Int × Option P

/-- A call on the descriptors of the ring over addresses. -/
def Channel.ringCall (c : Channel) : RingCall → Channel × Answer (BitVec 32)
  | .alloc numBd =>
    let res := bdRingAlloc c numBd
    (res.1, some res.2.1, res.2.2)
  | .unAlloc numBd bdSetPtr =>
    let res := bdRingUnAlloc c numBd bdSetPtr
    (res.1, some res.2, none)
  | .toHw numBd bdSetPtr =>
    let res := bdRingToHw c numBd bdSetPtr
    (res.1, some res.2.1, none)
  | .fromHw bdLimit =>
    let res := bdRingFromHw c bdLimit
    (res.1, some res.2.1, res.2.2)
  | .free numBd bdSetPtr =>
    let res := bdRingFree c numBd bdSetPtr
    (res.1, some res.2, none)
  | .setBufAddr bdPtr addr =>
    let res := bdSetBufAddr c.mem bdPtr addr
    ({ c with mem := res.1 }, some res.2, none)
  | .setLength bdPtr lenBytes =>
    let res := bdSetLength c.mem bdPtr lenBytes c.ring.maxTransferLen
    ({ c with mem := res.1 }, some res.2, none)
  | .setCtrl bdPtr data => ({ c with mem := bdSetCtrl c.mem bdPtr data }, some 0, none)
  | .setId bdPtr id => ({ c with mem := bdSetId c.mem bdPtr id }, some 0, none)
  | .writeSts bdPtr sts => ({ c with mem := bdWrite c.mem bdPtr .sts sts }, some 0, none)

/-- A call on the ring over addresses. -/
def Channel.call (c : Channel) : Call → Channel × Answer (BitVec 32)
  | .ring e => c.ringCall e
  | .start before after =>
    match bdRingStart c before after with
    | none => (c, none, none)
    | some s => (s.chan, some s.status, none)
  | .reset cdesc => (XAxiDma.reset c cdesc, some 0, none)

/-- The same call on the descriptors of the ring over indices, where `name` gives the
    index of a descriptor. -/
def BdRing.ringCall (name : BitVec 32 → Nat) (r : BdRing) : RingCall → BdRing × Answer Nat
  | .alloc numBd =>
    if numBd ≤ 0 then (r, some xstInvalidParam, none)
    else
      let res := Driver.bdRingAlloc r numBd.toNat
      (res.1, some res.2, if res.2 = xstSuccess then some r.freeHead else none)
  | .unAlloc numBd bdSetPtr =>
    if numBd ≤ 0 then (r, some xstInvalidParam, none)
    else
      let res := Driver.bdRingUnAlloc r numBd.toNat (name bdSetPtr)
      (res.1, some res.2, none)
  | .toHw numBd bdSetPtr =>
    if numBd < 0 then (r, some xstInvalidParam, none)
    else
      let res := Driver.bdRingToHw r numBd.toNat (name bdSetPtr)
      (res.1, some res.2, none)
  | .fromHw bdLimit =>
    let res := Driver.bdRingFromHw r bdLimit.toNat
    (res.1, some (res.2 : Int), if res.2 = 0 then none else some r.hwHead)
  | .free numBd bdSetPtr =>
    if numBd < 0 then (r, some xstInvalidParam, none)
    else
      let res := Driver.bdRingFree r numBd.toNat (name bdSetPtr)
      (res.1, some res.2, none)
  | .setBufAddr bdPtr addr =>
    (r.modify (name bdPtr) (Driver.bdSetBufAddr r.hasDRE r.dataWidth addr.toNat),
      some (if addr.toNat &&& (r.dataWidth - 1) ≠ 0 ∧ r.hasDRE = false then xstInvalidParam
        else xstSuccess), none)
  | .setLength bdPtr lenBytes =>
    (r.modify (name bdPtr) (Driver.bdSetLength lenBytes.toNat r.maxTransferLen),
      some (if lenBytes.toNat = 0 ∨ lenBytes.toNat > r.maxTransferLen then xstInvalidParam
        else xstSuccess), none)
  | .setCtrl bdPtr data =>
    (r.modify (name bdPtr) (Driver.bdSetCtrl (data.getLsbD 27) (data.getLsbD 26)), some 0, none)
  | .setId bdPtr id =>
    (r.modify (name bdPtr) (Driver.bdSetId (if id = 0 then none else some id.toNat)), some 0, none)
  | .writeSts bdPtr sts =>
    (r.modify (name bdPtr) fun b =>
      { b with complete := sts.getLsbD 31, rxEof := sts.getLsbD 26 }, some 0, none)

/-- A ring over indices with its channel: whether that runs, and the descriptor that
    it would begin with. -/
structure LiveRing extends BdRing where
  running : Bool
  restart : Nat

/-- Starting a channel. It cannot begin if every descriptor is completed, unless it
    runs already. -/
def LiveRing.start (r : LiveRing) (before after : Bool) : LiveRing × Int :=
  if (r.running = false ∧ before = false ∧ AllDone r.toBdRing) ∨ after = false then
    (r, xstDmaError)
  else ({ r with running := true }, xstSuccess)

/-- The index of the descriptor that the hardware knows by an address. -/
def Layout.physName (L : Layout) (a : BitVec 32) : Nat := L.name (L.base + (a - L.phys))

/-- The same call on the ring over indices. -/
def LiveRing.call (L : Layout) (r : LiveRing) : Call → LiveRing × Answer Nat
  | .ring e =>
    let res := BdRing.ringCall L.name r.toBdRing e
    ({ r with toBdRing := res.1 }, res.2)
  | .start before after =>
    let res := r.start before after
    (res.1, some res.2, none)
  | .reset cdesc => ({ r with running := false, restart := L.physName cdesc }, some 0, none)

/-- A call names descriptors of the ring where the source does not check it. -/
def RingCall.Valid (L : Layout) : RingCall → Prop
  | .unAlloc _ a | .setBufAddr a _ | .setLength a _ | .setCtrl a _ | .setId a _ | .writeSts a _ =>
    L.name a < L.count
  | .alloc _ | .toHw _ _ | .fromHw _ | .free _ _ => True

/-- The current descriptor register holds a descriptor of the ring, too, when it is
    saved. -/
def Call.Valid (L : Layout) : Call → Prop
  | .ring e => e.Valid L
  | .start _ _ => True
  | .reset cdesc => L.physName cdesc < L.count

instance RingCall.Valid.decidable (L : Layout) (e : RingCall) : Decidable (e.Valid L) := by
  cases e <;> (unfold RingCall.Valid; infer_instance)

instance Call.Valid.decidable (L : Layout) (e : Call) : Decidable (e.Valid L) := by
  cases e <;> (unfold Call.Valid; infer_instance)

/-- The answer over addresses for an answer over indices. -/
def Layout.answer (L : Layout) (a : Answer Nat) : Answer (BitVec 32) := (a.1, a.2.map L.cell)

section Calls

variable {L : Layout} {c : Channel} {r : BdRing}

/-- A pointer to a descriptor of the ring. -/
theorem Layout.cell_name (L : Layout) {a : BitVec 32} (h : L.name a < L.count) :
    a = L.cell (L.name a) := (L.name_eq_iff h).mp rfl

/-- One call keeps the levels together and answers the same on both. -/
theorem ringCall_agrees (h : Agrees L c r) (e : RingCall) (he : e.Valid L) :
    Agrees L (c.ringCall e).1 (BdRing.ringCall L.name r e).1 ∧
      (c.ringCall e).2 = L.answer (BdRing.ringCall L.name r e).2 := by
  cases e with
  -- A call takes an `int`: the driver refuses a negative one before it looks at the ring.
  | alloc numBd =>
      by_cases hn : numBd ≤ 0
      · simp only [Channel.ringCall, BdRing.ringCall, bdRingAlloc, hn, if_true]
        exact ⟨h, rfl⟩
      · obtain ⟨n, rfl⟩ := Int.eq_ofNat_of_zero_le (a := numBd) (by omega)
        rcases bdRingAlloc_agrees h (n := n) (by omega) with ⟨hagrees, hstatus, hptr⟩
        simp only [Channel.ringCall, BdRing.ringCall, hn, if_false, Int.toNat_natCast]
        refine ⟨hagrees, Prod.ext (congrArg some hstatus) ?_⟩
        rw [hptr, Layout.answer]
        split <;> rfl
  | unAlloc numBd a =>
      by_cases hn : numBd ≤ 0
      · simp only [Channel.ringCall, BdRing.ringCall, bdRingUnAlloc, hn, if_true]
        exact ⟨h, rfl⟩
      · obtain ⟨n, rfl⟩ := Int.eq_ofNat_of_zero_le (a := numBd) (by omega)
        have hu := bdRingUnAlloc_agrees h (n := n) (by omega) he
        rw [← L.cell_name he] at hu
        simp only [Channel.ringCall, BdRing.ringCall, hn, if_false, Int.toNat_natCast]
        exact ⟨hu.1, Prod.ext (congrArg some hu.2) rfl⟩
  | toHw numBd a =>
      by_cases hn : numBd < 0
      · simp only [Channel.ringCall, BdRing.ringCall, bdRingToHw, hn, if_true]
        exact ⟨h, rfl⟩
      · obtain ⟨n, rfl⟩ := Int.eq_ofNat_of_zero_le (a := numBd) (by omega)
        have ht := bdRingToHw_agrees h n a
        simp only [Channel.ringCall, BdRing.ringCall, hn, if_false, Int.toNat_natCast]
        exact ⟨ht.1, Prod.ext (congrArg some ht.2.1) rfl⟩
  | fromHw limit =>
      rcases bdRingFromHw_agrees h limit with ⟨hagrees, hcount, hptr⟩
      refine ⟨hagrees, Prod.ext (congrArg some hcount) ?_⟩
      simp only [Channel.ringCall, BdRing.ringCall, Layout.answer]
      rw [hptr]
      split <;> rfl
  | free numBd a =>
      by_cases hn : numBd < 0
      · simp only [Channel.ringCall, BdRing.ringCall, bdRingFree, hn, if_true]
        exact ⟨h, rfl⟩
      · obtain ⟨n, rfl⟩ := Int.eq_ofNat_of_zero_le (a := numBd) (by omega)
        have hf := bdRingFree_agrees h n a
        simp only [Channel.ringCall, BdRing.ringCall, hn, if_false, Int.toNat_natCast]
        exact ⟨hf.1, Prod.ext (congrArg some hf.2) rfl⟩
  | setBufAddr a addr =>
      have hs := bdSetBufAddr_agrees h he addr
      have hstatus := bdSetBufAddr_status h he addr
      rw [← L.cell_name he] at hs hstatus
      exact ⟨hs, Prod.ext (congrArg some hstatus) rfl⟩
  | setLength a len =>
      have hs := bdSetLength_agrees h he len
      rw [← L.cell_name he] at hs
      exact ⟨hs, Prod.ext (congrArg some (bdSetLength_status h a len)) rfl⟩
  | setCtrl a data =>
      have hs := bdSetCtrl_agrees h he data
      rw [← L.cell_name he] at hs
      exact ⟨hs, rfl⟩
  | setId a id =>
      have hs := bdSetId_agrees h he id
      rw [← L.cell_name he] at hs
      exact ⟨hs, rfl⟩
  | writeSts a sts =>
      have hs := writeSts_agrees h he sts
      rw [← L.cell_name he] at hs
      exact ⟨hs, rfl⟩

/-- No call on the descriptors starts or stops a channel, or changes where it would
    begin. -/
theorem ringCall_lifecycle (c : Channel) (e : RingCall) :
    (c.ringCall e).1.ring.runState = c.ring.runState ∧
      (c.ringCall e).1.ring.bdaRestart = c.ring.bdaRestart := by
  cases e with
  | setBufAddr | setLength | setCtrl | setId | writeSts => exact ⟨rfl, rfl⟩
  | _ =>
      -- Whichever way the function takes, it only moves heads and corrects counters.
      simp only [Channel.ringCall, bdRingAlloc, bdRingUnAlloc, bdRingToHw, bdRingFromHw,
        bdRingFree]
      repeat' split
      all_goals exact ⟨rfl, rfl⟩

end Calls

/-- Starting a channel changes nothing about its ring. -/
theorem start_agrees {L : Layout} {c : Channel} {r : BdRing} (h : Agrees L c r)
    (before after : Bool) : Agrees L (c.call (.start before after)).1 r := by
  simp only [Channel.call]
  split
  · exact h
  · rename_i s hs
    rcases bdRingStart_chan hs with hsame | hrun
    · exact hsame ▸ h
    · exact hrun ▸ running_agrees h

/-- The two levels agree, and so do their channels. -/
structure Live (L : Layout) (c : Channel) (r : LiveRing) : Prop extends
    Agrees L c r.toBdRing where
  runState : c.ring.runState = if r.running = true then channelNotHalted else channelHalted
  restart_lt : r.restart < L.count
  restart : c.ring.bdaRestart = L.physCell r.restart

section Lifecycle

variable {L : Layout} {c : Channel} {r : LiveRing}

/-- An address for the hardware of a descriptor of the ring. -/
theorem Layout.physCell_physName (L : Layout) {a : BitVec 32} (h : L.physName a < L.count) :
    a = L.physCell (L.physName a) := by
  have hcell := L.cell_name h
  rw [Cells.cell, BitVec.add_right_inj] at hcell
  rw [Layout.physCell, Layout.physName, ← hcell, BitVec.add_comm, BitVec.sub_add_cancel]

theorem Live.runs_iff (h : Live L c r) :
    c.ring.runState ≠ channelNotHalted ↔ r.running = false := by
  rw [h.runState]
  cases r.running with
  | true => exact ⟨fun hc => absurd rfl hc, Bool.noConfusion⟩
  | false => exact ⟨fun _ => rfl, fun _ => by decide⟩

/-- Starting a channel on both levels. -/
theorem start_live (h : Live L c r) (before after : Bool) :
    Live L (c.call (.start before after)).1 (r.start before after).1 ∧
      (c.call (.start before after)).2 = (some (r.start before after).2, none) := by
  obtain ⟨s, hstart, hspec⟩ := bdRingStart_spec h.toAgrees h.restart_lt h.restart before after
  simp only [Channel.call, hstart, LiveRing.start]
  simp only [h.runs_iff] at hspec
  by_cases hbad : (r.running = false ∧ before = false ∧ AllDone r.toBdRing) ∨ after = false
  · rw [if_pos hbad] at hspec
    rw [if_pos hbad, hspec.1, hspec.2]
    exact ⟨h, rfl⟩
  · rw [if_neg hbad] at hspec
    rw [if_neg hbad, hspec.1, hspec.2]
    exact ⟨⟨running_agrees h.toAgrees, rfl, h.restart_lt, h.restart⟩, rfl⟩

/-- One call keeps the levels together and answers the same on both. -/
theorem call_live (h : Live L c r) (e : Call) (he : e.Valid L) :
    Live L (c.call e).1 (LiveRing.call L r e).1 ∧
      (c.call e).2 = L.answer (LiveRing.call L r e).2 := by
  cases e with
  | ring e =>
      have hone := ringCall_agrees h.toAgrees e he
      have hlife := ringCall_lifecycle c e
      exact ⟨⟨hone.1, hlife.1.trans h.runState, h.restart_lt, hlife.2.trans h.restart⟩, hone.2⟩
  | start before after => exact start_live h before after
  | reset cdesc =>
      exact ⟨⟨reset_agrees h.toAgrees cdesc, rfl, he, L.physCell_physName he⟩, rfl⟩

theorem dialogue_live (h : Live L c r) (es : List Call) (hes : ∀ e ∈ es, e.Valid L) :
    Live L (dialogue Channel.call c es).1 (dialogue (LiveRing.call L) r es).1 ∧
      (dialogue Channel.call c es).2 = (dialogue (LiveRing.call L) r es).2.map L.answer :=
  dialogue_simulates (R := Live L) (P := Call.Valid L) L.answer
    (fun _ _ e hlive he => call_live hlive e he) es c r h hes

end Lifecycle

/-- A channel as `XAxiDma_CfgInitialize` leaves it: the mask of lengths has no bit
    in common with the control bits, and the data path has a width. -/
structure Configured (x : Ring) : Prop where
  mask : ∃ k, k ≤ 26 ∧ x.maxTransferLen = BitVec.ofNat 32 (2 ^ k - 1)
  width : x.hwInfo &&& bdWordlenMask ≠ 0

/-- A ring over indices that is made, with its channel halted. -/
def freshLive (x : Ring) (n : Nat) : LiveRing :=
  { freshRing x n with
    running := false
    restart := 0 }

theorem bdRingCreate_live {c : Channel} (hc : Configured c.ring)
    {phys virt alignment : BitVec 32} {n : Nat} (h : CreateOk phys virt alignment n)
    (hsmall : alignment.toNat * n < 2 ^ 32) :
    Live (h.layout hsmall) (bdRingCreate c phys virt alignment n).1 (freshLive c.ring n) := by
  have hhalted := bdRingCreate_halted (c := c) h hsmall
  refine ⟨bdRingCreate_agrees h hsmall hc.mask hc.width, hhalted.1, h.pos, ?_⟩
  rw [hhalted.2]
  exact (BitVec.add_zero phys).symm

/-- If a ring is made, and its size in bytes is a number of 32 bits, then whatever is
    done with it afterwards gets the answers of the ring over indices, with the
    addresses of the descriptors for their indices. -/
theorem ring_refines (c : Channel) (hc : Configured c.ring) (phys virt alignment : BitVec 32)
    (n : Nat) (hsmall : alignment.toNat * n < 2 ^ 32)
    (hok : (bdRingCreate c phys virt alignment n).2 = xstSuccess) :
    ∃ L : Layout, L.base = virt ∧ L.phys = phys ∧ L.sep = alignment.toNat ∧ L.count = n ∧
      ∀ es : List Call, (∀ e ∈ es, e.Valid L) →
        Live L (dialogue Channel.call (bdRingCreate c phys virt alignment n).1 es).1
          (dialogue (LiveRing.call L) (freshLive c.ring n) es).1 ∧
        (dialogue Channel.call (bdRingCreate c phys virt alignment n).1 es).2 =
          (dialogue (LiveRing.call L) (freshLive c.ring n) es).2.map L.answer := by
  have hcreate := (bdRingCreate_success_iff hsmall).mp hok
  exact ⟨hcreate.layout hsmall, rfl, rfl, rfl, rfl, fun es hes =>
    dialogue_live (bdRingCreate_live hc hcreate hsmall) es hes⟩

/-- A channel of the Ethernet driver before its ring is made. -/
def blankChannel : Channel where
  ring := ⟨false, channelHalted, 1, 1, 8, 0x7FFFFF, 0, 0, 0, 0, 0, 0, 0, 0, 0, 0, 0, 0, 0, 0, 0, 0⟩
  mem := fun _ => 0

theorem blankChannel_configured : Configured blankChannel.ring := ⟨⟨23, by decide, rfl⟩, by decide⟩

/-- A ring of four descriptors. -/
def fourRing : Channel := (bdRingCreate blankChannel 0x1000 0xC0001000 0x40 (4 : Nat)).1

def fourLayout : Layout where
  base := 0xC0001000
  sep := 64
  count := 4
  phys := 0x1000
  sep_pos := by decide
  count_pos := by decide
  proper := by decide
  fits := by decide
  roomy := by decide

theorem fourRing_made :
    (bdRingCreate blankChannel 0x1000 0xC0001000 0x40 (4 : Nat)).2 = xstSuccess :=
  (bdRingCreate_success_iff (by decide)).mpr
    ⟨by decide, by decide, by decide, by decide, by decide, by decide⟩

/-- The addresses of a ring make up its layout. -/
theorem Layout.eq_of_data {L M : Layout} (hbase : L.base = M.base) (hphys : L.phys = M.phys)
    (hsep : L.sep = M.sep) (hcount : L.count = M.count) : L = M := by
  rcases L with ⟨⟨_, _, _⟩, _, _⟩
  rcases M with ⟨⟨_, _, _⟩, _, _⟩
  cases hbase
  cases hphys
  cases hsep
  cases hcount
  rfl

/-- A packet of three descriptors is refused before it has its marks and lengths, and
    then handed over. The channel is reset while the hardware works on it, fails to
    start and starts again. When the packet has come back, one of two descriptors
    goes around the end of the ring. -/
def twoPackets : List Call :=
  [.ring (.alloc 3), .ring (.toHw 3 0xC0001000),
    .ring (.setCtrl 0xC0001000 bdCtrlTxsofMask), .ring (.setLength 0xC0001000 0),
    .ring (.setLength 0xC0001000 0x40), .ring (.setLength 0xC0001040 0x40),
    .ring (.setLength 0xC0001080 0x20), .ring (.setCtrl 0xC0001080 bdCtrlTxeofMask),
    .ring (.setBufAddr 0xC0001080 0x2001), .ring (.toHw 3 0xC0001000), .start false true,
    .ring (.writeSts 0xC0001000 0x80000040), .ring (.writeSts 0xC0001040 0x80000040),
    .ring (.fromHw 4), .reset 0x1080, .start false false, .start false true,
    .ring (.writeSts 0xC0001080 0x80000020), .ring (.fromHw 4), .ring (.free 3 0xC0001000),
    .ring (.alloc 2), .ring (.setCtrl 0xC00010C0 bdCtrlTxsofMask),
    .ring (.setLength 0xC00010C0 0x40), .ring (.setCtrl 0xC0001000 bdCtrlTxeofMask),
    .ring (.toHw 2 0xC00010C0)]

theorem twoPackets_valid : ∀ e ∈ twoPackets, e.Valid fourLayout := by decide +kernel

theorem ring_refines_twoPackets :
    Live fourLayout (dialogue Channel.call fourRing twoPackets).1
        (dialogue (LiveRing.call fourLayout) (freshLive blankChannel.ring 4) twoPackets).1 ∧
      (dialogue Channel.call fourRing twoPackets).2 =
        [(some 0, some 0xC0001000), (some xstFailure, none), (some 0, none),
          (some xstInvalidParam, none), (some 0, none), (some 0, none), (some 0, none),
          (some 0, none), (some 0, none), (some 0, none), (some 0, none), (some 0, none),
          (some 0, none), (some 0, none), (some 0, none), (some xstDmaError, none),
          (some 0, none), (some 0, none), (some 3, some 0xC0001000), (some 0, none),
          (some 0, some 0xC00010C0), (some 0, none), (some 0, none), (some 0, none),
          (some 0, none)] := by
  obtain ⟨L, hbase, hphys, hsep, hcount, h⟩ := ring_refines blankChannel blankChannel_configured
    0x1000 0xC0001000 0x40 4 (by decide) fourRing_made
  have hL : L = fourLayout := Layout.eq_of_data hbase hphys hsep hcount
  subst hL
  have hboth := h twoPackets twoPackets_valid
  refine ⟨hboth.1, hboth.2.trans ?_⟩
  decide +kernel

end XAxiDma

end Driver

end Ml605
