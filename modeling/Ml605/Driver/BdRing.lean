import Mathlib.Tactic
import Ml605.Driver.DmaBuf

/-!
# The Buffer Descriptor Ring

The ring of `xaxidma_bdring.c`, as far as the AES driver uses it. The
descriptors of a ring lie in one block of memory and each is in one of four
groups, which follow one another around the ring:

    free -> pre-processing -> hardware -> post-processing -> free

A group is a head and a count. `XAxiDma_BdRingAlloc`, `XAxiDma_BdRingToHw`,
`XAxiDma_BdRingFromHw` and `XAxiDma_BdRingFree` each move descriptors from one
group to the next, by moving a head forward and correcting two counts.

A descriptor is named by its index in the block, where the source uses its
address. The two macros that step around the ring, `XAxiDma_mBdRingNext` and
`XAXIDMA_RING_SEEKAHEAD`, wrap at the last descriptor by address comparison;
over indices that is a comparison with `allCnt`.

## Main definitions

* `Bd`: The fields of a descriptor that software or hardware reads.
* `Groups`, `BdRing`: The counters and heads, and the ring with its memory.
* `bdRingAlloc`, `bdRingToHw`, `bdRingFromHw`, `bdRingFree`: The functions of
  the source.
* `BdRing.nth`: The descriptor some steps around the ring.
* `Groups.Wf`: The groups follow one another and cover the ring.

## Theorems

* `nth_inj`: Descriptors less than one turn apart are different.
* `bdRingAlloc_wf`, `bdRingToHw_wf`, `bdRingFromHw_wf`, `bdRingFree_wf`: Each
  operation keeps the groups in order.
* `bdRingToHw_spec`: When a set of descriptors is accepted, and what then
  moves.
-/

namespace Ml605

namespace Driver

def xstSuccess : Int := 0
def xstFailure : Int := 1
def xstInvalidParam : Int := 15
def xstDmaSgListError : Int := 526

/-- A buffer descriptor. `len`, `sof` and `eof` are its control word,
    `complete` and `rxEof` the bits of its status word that are read, and `id`
    the software word, `none` for `NULL`. -/
structure Bd where
  bufAddr : Nat := 0
  len : Nat := 0
  sof : Bool := false
  eof : Bool := false
  complete : Bool := false
  rxEof : Bool := false
  id : Option Nat := none
deriving DecidableEq, Repr

/-- The counts and heads of the four groups. -/
structure Groups where
  allCnt : Nat
  freeCnt : Nat
  preCnt : Nat
  hwCnt : Nat
  postCnt : Nat
  freeHead : Nat
  preHead : Nat
  hwHead : Nat
  hwTail : Nat
  postHead : Nat
deriving DecidableEq, Repr

/-- A descriptor ring with the memory of its descriptors. -/
structure BdRing extends Groups where
  isRxChannel : Bool
  maxTransferLen : Nat
  hasDRE : Bool
  dataWidth : Nat
  bd : Nat → Bd

/-- `XAxiDma_BdRingCreate` followed by the clone of a cleared descriptor. -/
def bdRingCreate (isRxChannel : Bool) (bdCount : Nat) : BdRing where
  allCnt := bdCount
  freeCnt := bdCount
  preCnt := 0
  hwCnt := 0
  postCnt := 0
  freeHead := 0
  preHead := 0
  hwHead := 0
  hwTail := 0
  postHead := 0
  isRxChannel := isRxChannel
  maxTransferLen := 0x7FFFFF
  hasDRE := false
  dataWidth := 16
  bd := fun _ => {}

namespace Groups

/-- `XAxiDma_mBdRingNext`. -/
def next (g : Groups) (bd : Nat) : Nat :=
  if bd + 1 ≥ g.allCnt then 0 else bd + 1

/-- `XAXIDMA_RING_SEEKAHEAD`. -/
def seekahead (g : Groups) (bd num : Nat) : Nat :=
  if bd + num ≥ g.allCnt then bd + num - g.allCnt else bd + num

/-- The descriptor `i` steps behind `bd`. -/
def nth (g : Groups) (bd i : Nat) : Nat := g.next^[i] bd

end Groups

namespace BdRing

/-- Changing one descriptor in place. -/
def modify (r : BdRing) (i : Nat) (f : Bd → Bd) : BdRing :=
  { r with bd := Function.update r.bd i (f (r.bd i)) }

@[simp]
theorem modify_toGroups (r : BdRing) (i : Nat) (f : Bd → Bd) :
    (r.modify i f).toGroups = r.toGroups := rfl

theorem modify_bd_self (r : BdRing) (i : Nat) (f : Bd → Bd) :
    (r.modify i f).bd i = f (r.bd i) := Function.update_self ..

theorem modify_bd_of_ne (r : BdRing) (f : Bd → Bd) {i j : Nat} (h : j ≠ i) :
    (r.modify i f).bd j = r.bd j := Function.update_of_ne h ..

end BdRing

/-- `XAxiDma_BdSetBufAddr`: without the realignment engine a misaligned address
    is refused and the old one stays. The caller ignores the status. -/
def bdSetBufAddr (hasDRE : Bool) (wordLen addr : Nat) (b : Bd) : Bd :=
  let addr := addr % 2 ^ 32
  if addr &&& (wordLen - 1) ≠ 0 ∧ hasDRE = false then b else { b with bufAddr := addr }

/-- `XAxiDma_BdSetLength`: a length of zero or beyond the mask is refused and
    the old one stays. The caller ignores the status. -/
def bdSetLength (lenBytes lengthMask : Nat) (b : Bd) : Bd :=
  if lenBytes = 0 ∨ lenBytes > lengthMask then b else { b with len := lenBytes }

/-- `XAxiDma_BdSetCtrl`, which keeps the length. -/
def bdSetCtrl (sof eof : Bool) (b : Bd) : Bd := { b with sof := sof, eof := eof }

/-- `XAxiDma_BdSetId`. -/
def bdSetId (id : Option Nat) (b : Bd) : Bd := { b with id := id }

/-- The write of the status word with the completed bit cleared. -/
def bdClearComplete (b : Bd) : Bd := { b with complete := false }

/-- `XAxiDma_BdRingAlloc`. On success the set starts at the old free head. -/
def bdRingAlloc (r : BdRing) (numBd : Nat) : BdRing × Int :=
  if numBd = 0 then (r, xstInvalidParam)
  else if r.freeCnt < numBd then (r, xstFailure)
  else
    ({ r with
        freeHead := r.seekahead r.freeHead numBd
        freeCnt := r.freeCnt - numBd
        preCnt := r.preCnt + numBd }, xstSuccess)

/-- The loop of `XAxiDma_BdRingToHw` over all descriptors of a set but its last.
    The result says where it stopped and whether it got through. -/
def clearLoop : Nat → BdRing → Nat → BdRing × Nat × Bool
  | 0, r, cur => (r, cur, true)
  | n + 1, r, cur =>
    -- The descriptors before an empty one stay cleared.
    if (r.bd cur).len = 0 then (r, cur, false)
    else clearLoop n (r.modify cur bdClearComplete) (r.next cur)

/-- `XAxiDma_BdRingToHw`. -/
def bdRingToHw (r : BdRing) (numBd bdSetPtr : Nat) : BdRing × Int :=
  if numBd = 0 then (r, xstSuccess)
  -- The set must be at the head of the pre-processing group.
  else if r.preCnt < numBd ∨ r.preHead ≠ bdSetPtr then (r, xstDmaSgListError)
  -- The marks of a packet are asked for on the TX ring only.
  else if r.isRxChannel = false ∧ (r.bd bdSetPtr).sof = false then (r, xstFailure)
  else
    match clearLoop (numBd - 1) r bdSetPtr with
    | (r, _, false) => (r, xstFailure)
    | (r, cur, true) =>
      -- The last descriptor of the set, which the loop leaves out.
      if r.isRxChannel = false ∧ (r.bd cur).eof = false then (r, xstFailure)
      else if (r.bd cur).len = 0 then (r, xstFailure)
      else
        let r := r.modify cur bdClearComplete
        ({ r with
            preHead := r.seekahead r.preHead numBd
            preCnt := r.preCnt - numBd
            hwTail := cur
            hwCnt := r.hwCnt + numBd }, xstSuccess)

/-- The search of `XAxiDma_BdRingFromHw` from a descriptor on: how many are
    completed, and how many of these belong to an unfinished packet. -/
def fromHwLoop (r : BdRing) : Nat → Nat → Nat → Nat → Nat × Nat
  | 0, _, count, part => (count, part)
  | n + 1, cur, count, part =>
    let b := r.bd cur
    if b.complete = false then (count, part)
    else
      -- The last descriptor of a packet settles those counted before it.
      let part := if (if r.isRxChannel then b.rxEof else b.eof) then 0 else part + 1
      -- Nothing behind the tail has been handed to the hardware.
      if cur = r.hwTail then (count + 1, part)
      else fromHwLoop r n (r.next cur) (count + 1) part

/-- `XAxiDma_BdRingFromHw`: the ring and the number of descriptors taken back,
    which start at the old hardware head. -/
def bdRingFromHw (r : BdRing) (bdLimit : Nat) : BdRing × Nat :=
  if r.hwCnt = 0 then (r, 0)
  else
    let (count, part) := fromHwLoop r (min bdLimit r.hwCnt) r.hwHead 0 0
    -- An unfinished packet stays with the hardware.
    let bdCount := count - part
    if bdCount = 0 then (r, 0)
    else
      ({ r with
          hwCnt := r.hwCnt - bdCount
          postCnt := r.postCnt + bdCount
          hwHead := r.seekahead r.hwHead bdCount }, bdCount)

/-- `XAxiDma_BdRingFree`. -/
def bdRingFree (r : BdRing) (numBd bdSetPtr : Nat) : BdRing × Int :=
  if numBd = 0 then (r, xstSuccess)
  else if r.postCnt < numBd ∨ r.postHead ≠ bdSetPtr then (r, xstDmaSgListError)
  else
    ({ r with
        freeCnt := r.freeCnt + numBd
        postCnt := r.postCnt - numBd
        postHead := r.seekahead r.postHead numBd }, xstSuccess)

namespace Groups

/-- The groups follow one another around the ring and together cover it. -/
structure Wf (g : Groups) : Prop where
  counts : g.freeCnt + g.preCnt + g.hwCnt + g.postCnt = g.allCnt
  post : g.postHead < g.allCnt
  hw : g.hwHead = g.seekahead g.postHead g.postCnt
  pre : g.preHead = g.seekahead g.hwHead g.hwCnt
  free : g.freeHead = g.seekahead g.preHead g.preCnt

theorem seekahead_lt (g : Groups) {bd n : Nat} (hbd : bd < g.allCnt) (hn : n ≤ g.allCnt) :
    g.seekahead bd n < g.allCnt := by
  unfold seekahead
  split <;> omega

/-- Two moves around the ring are one, up to a full turn. -/
theorem seekahead_add (g : Groups) {bd m n : Nat} (hbd : bd < g.allCnt) (h : m + n ≤ g.allCnt) :
    g.seekahead (g.seekahead bd m) n = g.seekahead bd (m + n) := by
  unfold seekahead
  -- Each of the three moves passes the end of the ring or does not.
  split <;> split <;> split <;> omega

/-- Stepping and seeking agree up to a full turn. -/
theorem nth_eq_seekahead (g : Groups) {bd : Nat} (hbd : bd < g.allCnt) :
    ∀ i, i < g.allCnt → g.nth bd i = g.seekahead bd i := by
  intro i
  induction i with
  | zero =>
      intro _
      simp only [nth, Function.iterate_zero, id_eq, seekahead, Nat.add_zero, ge_iff_le]
      rw [if_neg (by omega)]
  | succ i ih =>
      intro hi
      have hprev := ih (by omega)
      simp only [nth, Function.iterate_succ', Function.comp_apply] at hprev ⊢
      rw [hprev]
      unfold next seekahead
      split <;> split <;> split <;> omega

/-- Descriptors less than one turn apart are different. -/
theorem nth_inj (g : Groups) {bd i j : Nat} (hbd : bd < g.allCnt) (hi : i < g.allCnt)
    (hj : j < g.allCnt) (h : g.nth bd i = g.nth bd j) : i = j := by
  rw [nth_eq_seekahead g hbd i hi, nth_eq_seekahead g hbd j hj] at h
  unfold seekahead at h
  split at h <;> split at h <;> omega

theorem nth_succ (g : Groups) (bd i : Nat) : g.nth bd (i + 1) = g.nth (g.next bd) i := rfl

theorem next_lt (g : Groups) {bd : Nat} (h : bd < g.allCnt) : g.next bd < g.allCnt := by
  unfold next
  split <;> omega

section WfHeads

variable {g : Groups} (h : g.Wf)

include h

theorem Wf.hwHead_lt : g.hwHead < g.allCnt := by
  rw [h.hw]
  exact seekahead_lt g h.post (by have := h.counts; omega)

theorem Wf.preHead_lt : g.preHead < g.allCnt := by
  rw [h.pre]
  exact seekahead_lt g h.hwHead_lt (by have := h.counts; omega)

theorem Wf.freeHead_lt : g.freeHead < g.allCnt := by
  rw [h.free]
  exact seekahead_lt g h.preHead_lt (by have := h.counts; omega)

end WfHeads

end Groups

theorem bdRingCreate_wf (isRx : Bool) {n : Nat} (hn : 0 < n) : (bdRingCreate isRx n).Wf := by
  have hstay : (bdRingCreate isRx n).seekahead 0 0 = 0 := by
    simp only [Groups.seekahead, bdRingCreate, Nat.add_zero, ge_iff_le]
    rw [if_neg (by omega)]
  exact ⟨by simp only [bdRingCreate, Nat.add_zero], hn, hstay.symm, hstay.symm, hstay.symm⟩

theorem bdRingAlloc_wf {r : BdRing} (n : Nat) (h : r.Wf) : (bdRingAlloc r n).1.Wf := by
  simp only [bdRingAlloc]
  split
  · exact h
  · split
    · exact h
    · rename_i hroom
      have hc := h.counts
      refine ⟨?_, h.post, h.hw, h.pre, ?_⟩
      -- The free group gives its first descriptors to the group before it.
      · change r.freeCnt - n + (r.preCnt + n) + r.hwCnt + r.postCnt = r.allCnt
        omega
      · change r.seekahead r.freeHead n = r.seekahead r.preHead (r.preCnt + n)
        rw [h.free]
        exact r.seekahead_add h.preHead_lt (by omega)

/-- The rings differ in completed bits only. -/
structure UpToComplete (r r' : BdRing) : Prop where
  groups : r'.toGroups = r.toGroups
  isRx : r'.isRxChannel = r.isRxChannel
  maxLen : r'.maxTransferLen = r.maxTransferLen
  bds : ∀ j, bdClearComplete (r'.bd j) = bdClearComplete (r.bd j)

namespace UpToComplete

theorem refl (r : BdRing) : UpToComplete r r := ⟨rfl, rfl, rfl, fun _ => rfl⟩

theorem trans {a b c : BdRing} (hab : UpToComplete a b) (hbc : UpToComplete b c) :
    UpToComplete a c :=
  ⟨hbc.groups.trans hab.groups, hbc.isRx.trans hab.isRx, hbc.maxLen.trans hab.maxLen,
    fun j => (hbc.bds j).trans (hab.bds j)⟩

theorem len {r r' : BdRing} (h : UpToComplete r r') (j : Nat) :
    (r'.bd j).len = (r.bd j).len :=
  show (bdClearComplete (r'.bd j)).len = (bdClearComplete (r.bd j)).len by rw [h.bds]

theorem eof {r r' : BdRing} (h : UpToComplete r r') (j : Nat) :
    (r'.bd j).eof = (r.bd j).eof :=
  show (bdClearComplete (r'.bd j)).eof = (bdClearComplete (r.bd j)).eof by rw [h.bds]

theorem modify (r : BdRing) (i : Nat) : UpToComplete r (r.modify i bdClearComplete) := by
  refine ⟨rfl, rfl, rfl, ?_⟩
  intro j
  by_cases hj : j = i
  · rw [hj, r.modify_bd_self]
    rfl
  · rw [r.modify_bd_of_ne _ hj]

end UpToComplete

/-- The loop gets through exactly when none of its descriptors is empty, and
    then stands on the descriptor behind them. -/
theorem clearLoop_spec : ∀ (n : Nat) (r : BdRing) (cur : Nat),
    UpToComplete r (clearLoop n r cur).1 ∧
      ((clearLoop n r cur).2.2 = true ↔ ∀ i, i < n → (r.bd (r.nth cur i)).len ≠ 0) ∧
      ((clearLoop n r cur).2.2 = true → (clearLoop n r cur).2.1 = r.nth cur n) := by
  intro n
  induction n with
  | zero =>
      intro r cur
      exact ⟨UpToComplete.refl r, ⟨fun _ i hi => absurd hi (Nat.not_lt_zero i), fun _ => rfl⟩,
        fun _ => rfl⟩
  | succ n ih =>
      intro r cur
      simp only [clearLoop]
      by_cases hz : (r.bd cur).len = 0
      · rw [if_pos hz]
        refine ⟨UpToComplete.refl r, ⟨fun h => absurd h (by simp only [Bool.false_eq_true,
          not_false_eq_true]), fun h => absurd hz (h 0 (by omega))⟩, fun h => absurd h
          (by simp only [Bool.false_eq_true, not_false_eq_true])⟩
      · -- The rest of the loop sees the same lengths, one descriptor further.
        rw [if_neg hz]
        have hone := UpToComplete.modify r cur
        rcases ih (r.modify cur bdClearComplete) (r.next cur) with ⟨hup, hok, hend⟩
        refine ⟨hone.trans hup, hok.trans ?_, hend⟩
        constructor
        · intro h i hi
          cases i with
          | zero => exact hz
          | succ i =>
              have hlen := h i (by omega)
              rw [hone.len] at hlen
              exact hlen
        · intro h i hi
          rw [hone.len]
          exact h (i + 1) (by omega)

/-- What handing over can make of a ring, whatever the answer: nothing at all,
    what the loop made of it, or that with the last descriptor cleared and the
    groups moved. -/
theorem bdRingToHw_cases (P : BdRing → Prop) (r : BdRing) (numBd bdSetPtr : Nat) (hkeep : P r)
    (hloop : P (clearLoop (numBd - 1) r bdSetPtr).1)
    (hdone : 0 < numBd → ∀ g, P { (clearLoop (numBd - 1) r bdSetPtr).1.modify
      (r.nth bdSetPtr (numBd - 1)) bdClearComplete with toGroups := g }) :
    P (bdRingToHw r numBd bdSetPtr).1 := by
  by_cases hn : numBd = 0
  · rw [bdRingToHw, if_pos hn]
    exact hkeep
  have hdone := hdone (Nat.pos_of_ne_zero hn)
  have hend := (clearLoop_spec (numBd - 1) r bdSetPtr).2.2
  simp only [bdRingToHw, hn, if_false]
  split
  · exact hkeep
  split
  · exact hkeep
  -- Either the loop stops early, or its cursor is at the last descriptor of the set.
  generalize clearLoop (numBd - 1) r bdSetPtr = res at hloop hdone hend
  rcases res with ⟨r', cur, ok⟩
  cases ok with
  | false => exact hloop
  | true =>
      have hcur : cur = r.nth bdSetPtr (numBd - 1) := hend rfl
      simp only at hloop hdone ⊢
      split
      · exact hloop
      split
      · exact hloop
      rw [← hcur] at hdone
      exact hdone _

/-- A mark is missing when the ring asks for one and it is not set. -/
theorem unmarked_iff (rx mark : Bool) :
    (rx = false ∧ mark = false) ↔ ¬ (rx = true ∨ mark = true) := by
  rw [not_or, Bool.not_eq_true, Bool.not_eq_true]

/-- What `XAxiDma_BdRingToHw` asks of a set of descriptors. -/
structure HwReady (r : BdRing) (numBd bdSetPtr : Nat) : Prop where
  count : numBd ≤ r.preCnt
  head : r.preHead = bdSetPtr
  sof : r.isRxChannel = true ∨ (r.bd bdSetPtr).sof = true
  eof : r.isRxChannel = true ∨ (r.bd (r.nth bdSetPtr (numBd - 1))).eof = true
  len : ∀ i, i < numBd → (r.bd (r.nth bdSetPtr i)).len ≠ 0

/-- The two outcomes of handing a set over: a set that is ready goes to the
    hardware group, and any other one stays where it is. -/
theorem bdRingToHw_spec (r : BdRing) {numBd : Nat} (hn : 0 < numBd) (bdSetPtr : Nat) :
    (HwReady r numBd bdSetPtr ∧ (bdRingToHw r numBd bdSetPtr).2 = xstSuccess ∧
      (bdRingToHw r numBd bdSetPtr).1.toGroups = { r.toGroups with
        preHead := r.seekahead r.preHead numBd
        preCnt := r.preCnt - numBd
        hwTail := r.nth bdSetPtr (numBd - 1)
        hwCnt := r.hwCnt + numBd }) ∨
    (¬ HwReady r numBd bdSetPtr ∧ (bdRingToHw r numBd bdSetPtr).2 ≠ xstSuccess ∧
      (bdRingToHw r numBd bdSetPtr).1.toGroups = r.toGroups) := by
  have hfail : xstFailure ≠ xstSuccess := by decide
  have hseq : xstDmaSgListError ≠ xstSuccess := by decide
  simp only [bdRingToHw]
  rw [if_neg (by omega)]
  by_cases hsync : r.preCnt < numBd ∨ r.preHead ≠ bdSetPtr
  · rw [if_pos hsync]
    refine Or.inr ⟨fun h => ?_, hseq, rfl⟩
    rcases hsync with hc | hc
    · exact absurd h.count (by omega)
    · exact hc h.head
  rw [if_neg hsync]
  have hcount : numBd ≤ r.preCnt := by
    by_contra hc
    exact hsync (Or.inl (by omega))
  have hhead : r.preHead = bdSetPtr := by
    by_contra hc
    exact hsync (Or.inr hc)
  by_cases hsof : r.isRxChannel = false ∧ (r.bd bdSetPtr).sof = false
  · rw [if_pos hsof]
    exact Or.inr ⟨fun h => (unmarked_iff _ _).mp hsof h.sof, hfail, rfl⟩
  rw [if_neg hsof]
  -- The loop covers every descriptor of the set but the last one.
  rcases clearLoop_spec (numBd - 1) r bdSetPtr with ⟨hup, hok, hend⟩
  generalize clearLoop (numBd - 1) r bdSetPtr = res at hup hok hend
  rcases res with ⟨r', cur, ok⟩
  cases ok with
  | false =>
      refine Or.inr ⟨fun h => ?_, hfail, hup.groups⟩
      exact Bool.false_ne_true (hok.mpr fun i hi => h.len i (by omega))
  | true =>
      have hcur : cur = r.nth bdSetPtr (numBd - 1) := hend rfl
      have hlens := hok.mp rfl
      simp only at hup ⊢
      rw [hup.isRx, hup.eof, hup.len, hcur]
      by_cases heof : r.isRxChannel = false ∧ (r.bd (r.nth bdSetPtr (numBd - 1))).eof = false
      · rw [if_pos heof]
        exact Or.inr ⟨fun h => (unmarked_iff _ _).mp heof h.eof, hfail, hup.groups⟩
      rw [if_neg heof]
      by_cases hlast : (r.bd (r.nth bdSetPtr (numBd - 1))).len = 0
      · rw [if_pos hlast]
        exact Or.inr ⟨fun h => h.len (numBd - 1) (by omega) hlast, hfail, hup.groups⟩
      rw [if_neg hlast]
      rw [unmarked_iff, not_not] at hsof heof
      refine Or.inl ⟨⟨hcount, hhead, hsof, heof, ?_⟩, rfl, ?_⟩
      · intro i hi
        by_cases hi' : i < numBd - 1
        · exact hlens i hi'
        · have : i = numBd - 1 := by omega
          rw [this]
          exact hlast
      · have hg := hup.groups
        simp only [BdRing.modify_toGroups, hg]

theorem bdRingToHw_wf {r : BdRing} {n : Nat} (hn : 0 < n) (bd : Nat) (h : r.Wf) :
    (bdRingToHw r n bd).1.Wf := by
  have hc := h.counts
  rcases bdRingToHw_spec r hn bd with ⟨hr, -, hg⟩ | ⟨-, -, hg⟩
  · -- The pre-processing group gives its first descriptors to the hardware.
    rw [hg]
    have hcnt := hr.count
    refine ⟨?_, h.post, h.hw, ?_, ?_⟩
    · change r.freeCnt + (r.preCnt - n) + (r.hwCnt + n) + r.postCnt = r.allCnt
      omega
    · change r.seekahead r.preHead n = r.seekahead r.hwHead (r.hwCnt + n)
      rw [h.pre]
      exact r.seekahead_add h.hwHead_lt (by omega)
    · change r.freeHead = r.seekahead (r.seekahead r.preHead n) (r.preCnt - n)
      rw [r.seekahead_add h.preHead_lt (by omega), h.free]
      congr 1
      omega
  · rw [hg]
    exact h

/-- The search does not count past its limit. -/
theorem fromHwLoop_le (r : BdRing) : ∀ (n cur count part : Nat),
    (fromHwLoop r n cur count part).1 ≤ count + n := by
  intro n
  induction n with
  | zero => intro cur count part; exact Nat.le_refl count
  | succ n ih =>
      intro cur count part
      simp only [fromHwLoop]
      split
      · exact Nat.le_add_right _ _
      · split
        · change count + 1 ≤ count + (n + 1)
          omega
        · have := ih (r.next cur) (count + 1)
            (if (if r.isRxChannel then (r.bd cur).rxEof else (r.bd cur).eof) then 0 else part + 1)
          omega

/-- Descriptors come back from the hardware group, no more than it has. -/
theorem bdRingFromHw_spec (r : BdRing) (limit : Nat) :
    (bdRingFromHw r limit).2 ≤ r.hwCnt ∧ (bdRingFromHw r limit).1 = { r with
      hwCnt := r.hwCnt - (bdRingFromHw r limit).2
      postCnt := r.postCnt + (bdRingFromHw r limit).2
      hwHead := if (bdRingFromHw r limit).2 = 0 then r.hwHead
        else r.seekahead r.hwHead (bdRingFromHw r limit).2 } := by
  simp only [bdRingFromHw]
  by_cases hz : r.hwCnt = 0
  · rw [if_pos hz]
    exact ⟨Nat.zero_le _, rfl⟩
  · rw [if_neg hz]
    have hle := fromHwLoop_le r (min limit r.hwCnt) r.hwHead 0 0
    generalize fromHwLoop r (min limit r.hwCnt) r.hwHead 0 0 = res at hle
    rcases res with ⟨count, part⟩
    simp only at hle ⊢
    by_cases hc : count - part = 0
    · rw [if_pos hc]
      exact ⟨Nat.zero_le _, rfl⟩
    · rw [if_neg hc]
      have hfew : count - part ≤ r.hwCnt := by omega
      exact ⟨hfew, by simp only [if_neg hc]⟩

theorem bdRingFromHw_wf {r : BdRing} (limit : Nat) (h : r.Wf) : (bdRingFromHw r limit).1.Wf := by
  rcases bdRingFromHw_spec r limit with ⟨hle, heq⟩
  rw [heq]
  generalize (bdRingFromHw r limit).2 = n at hle ⊢
  by_cases hz : n = 0
  · subst hz
    exact h
  have hc := h.counts
  -- The hardware group gives its first descriptors to the group before it.
  refine ⟨?_, h.post, ?_, ?_, h.free⟩
  · change r.freeCnt + r.preCnt + (r.hwCnt - n) + (r.postCnt + n) = r.allCnt
    omega
  · change (if n = 0 then r.hwHead else r.seekahead r.hwHead n) =
      r.seekahead r.postHead (r.postCnt + n)
    rw [if_neg hz, h.hw]
    exact r.seekahead_add h.post (by omega)
  · change r.preHead =
      r.seekahead (if n = 0 then r.hwHead else r.seekahead r.hwHead n) (r.hwCnt - n)
    rw [if_neg hz, r.seekahead_add h.hwHead_lt (by omega), h.pre]
    congr 1
    omega

theorem bdRingFree_wf {r : BdRing} (n bd : Nat) (h : r.Wf) : (bdRingFree r n bd).1.Wf := by
  simp only [bdRingFree]
  split
  · exact h
  · split
    · exact h
    · rename_i hne hsync
      have hc := h.counts
      have hn : n ≤ r.postCnt := by
        by_contra hlt
        exact hsync (Or.inl (by omega))
      -- The post-processing group moves on, and what it leaves is free.
      refine ⟨?_, r.seekahead_lt h.post (by omega), ?_, h.pre, h.free⟩
      · change r.freeCnt + n + r.preCnt + r.hwCnt + (r.postCnt - n) = r.allCnt
        omega
      · change r.hwHead = r.seekahead (r.seekahead r.postHead n) (r.postCnt - n)
        rw [r.seekahead_add h.post (by omega), h.hw]
        congr 1
        omega

end Driver

end Ml605
