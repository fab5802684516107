import Ml605.Driver.BdCalls

/-!
# What the Hardware Sees of a Ring

The hardware has no counters and no heads. It finds the next descriptor in the
first word of the one that it works on, and stops at the one whose address is in
the tail register. The words that link the descriptors are written once, when the
ring is made. Every walk of the hardware along them is a walk of the driver with
`XAxiDma_mBdRingNext`, and from the head of the hardware group it comes to the
tail exactly when it has met every descriptor of the group.

`XAxiDma_BdRingCheck` compares the heads, the counters and the links with what
they ought to be. It refuses to do so while the channel runs, and otherwise it
never has anything to report.

## Main definitions

* `Channel.follow`: One step along the links.
* `Groups.TailOk`: The tail is the last descriptor of the hardware group.

## Theorems

* `bdRingCheck_agrees`: A ring that agrees passes the check.
* `ring_check`: Every ring that was made passes it whenever its channel is halted,
  whatever was done with it.
* `hardware_walk`: The walk of the hardware through the hardware group.
-/

namespace Ml605

namespace Driver

/-- The tail is the last descriptor of the hardware group. -/
def Groups.TailOk (g : Groups) : Prop := 0 < g.hwCnt → g.hwTail = g.nth g.hwHead (g.hwCnt - 1)

namespace XAxiDma

open Lib

section Check

variable {L : Layout} {c : Channel} {r : BdRing}

theorem RingAgrees.inside {x : Ring} (h : RingAgrees L x r) {i : Nat} (hi : i < L.count) :
    x.outside (L.cell i) = false := by
  have hpos := L.count_pos
  have hle := L.mul_le (i := i) (j := L.count - 1) (by omega)
  rw [Ring.outside, decide_eq_false_iff_not, h.first, h.last, not_or, BitVec.not_lt, gt_iff_lt,
    BitVec.not_lt, BitVec.le_def, BitVec.le_def, Cells.last, L.toNat_cell hi,
    L.toNat_cell (Nat.sub_lt hpos Nat.one_pos)]
  omega

/-- The loop of the check goes through, and ends on the last descriptor. -/
theorem checkLoop_agrees (h : Agrees L c r) : ∀ k i : Nat, i + k + 1 = L.count →
    checkLoop c.ring c.mem k (L.cell i) (L.physCell (i + 1)) = (L.last, true) := by
  intro k
  induction k with
  | zero =>
      intro i hi
      have hlast : i = L.count - 1 := by omega
      rw [hlast]
      rfl
  | succ k ih =>
      intro i hi
      have hlink := h.holds.links i (by omega)
      rw [if_neg (by omega)] at hlink
      have hcell : L.cell i + c.ring.separation = L.cell (i + 1) := by
        rw [h.separation, L.cell_add, Nat.mul_one]
      have hphys : L.physCell (i + 1) + c.ring.separation = L.physCell (i + 1 + 1) := by
        rw [h.separation, Layout.physCell, Layout.physCell, BitVec.add_assoc, ← BitVec.ofNat_add,
          ← Nat.mul_succ]
      rw [checkLoop, if_neg (fun hc => hc hlink), hcell, hphys]
      exact ih (i + 1) (by omega)

/-- A ring that agrees passes the check, if the check is made at all. -/
theorem bdRingCheck_agrees (h : Agrees L c r) (hhalted : c.ring.runState = channelHalted) :
    bdRingCheck c = xstSuccess := by
  have hpos := L.count_pos
  have hall := h.allCnt_ne_zero
  have hstopped : channelHalted ≠ channelNotHalted := by decide
  have hcounts : c.ring.hwCnt + c.ring.preCnt + c.ring.freeCnt + c.ring.postCnt =
      c.ring.allCnt := by
    have := h.counts
    rw [h.hwCnt, h.preCnt, h.freeCnt, h.postCnt, h.allCnt, h.count]
    omega
  have hfree := h.inside h.freeHead_lt
  have hpre := h.inside h.preHead_lt
  have hhw := h.inside h.hwHead_lt
  have htail := h.inside h.tail
  have hpost := h.inside h.postHead_lt
  rw [← h.freeHead] at hfree
  rw [← h.preHead] at hpre
  rw [← h.hwHead] at hhw
  rw [← h.hwTail] at htail
  rw [← h.postHead] at hpost
  -- The loop follows all links but the last one, which closes the ring.
  have hfew : (c.ring.allCnt - 1).toNat = L.count - 1 := by rw [h.allCnt, h.count]; omega
  have hfirst : c.ring.firstBdAddr = L.cell 0 := by rw [h.first, Cells.cell_zero]
  have hnext : c.ring.firstBdPhysAddr + c.ring.separation = L.physCell (0 + 1) := by
    rw [h.phys, h.separation, Layout.physCell, Nat.zero_add, Nat.mul_one]
  have hlink := h.holds.links (L.count - 1) (Nat.sub_lt hpos Nat.one_pos)
  rw [if_pos (by omega), Layout.physCell, Nat.mul_zero, BitVec.add_zero, ← h.phys] at hlink
  simp only [bdRingCheck, hall, hhalted, hstopped, hfree, hpre, hhw, htail, hpost, hcounts,
    if_false, ne_eq, not_true_eq_false, Bool.false_eq_true, hfew]
  rw [hfirst, hnext, checkLoop_agrees h (L.count - 1) 0 (by omega)]
  exact if_neg (fun hc => hc hlink)

/-- The check is not made while the channel runs. -/
theorem bdRingCheck_running (h : Agrees L c r) (hrun : c.ring.runState = channelNotHalted) :
    bdRingCheck c = xstIsStarted := by
  simp only [bdRingCheck]
  rw [if_neg h.allCnt_ne_zero, if_pos hrun]

theorem bdRingCheck_live {l : LiveRing} (h : Live L c l) :
    bdRingCheck c = if c.ring.runState = channelNotHalted then xstIsStarted else xstSuccess := by
  by_cases hrun : c.ring.runState = channelNotHalted
  · rw [if_pos hrun]
    exact bdRingCheck_running h.toAgrees hrun
  · have hstate := h.runState
    rw [h.runs_iff.mp hrun, if_neg Bool.false_ne_true] at hstate
    rw [if_neg hrun]
    exact bdRingCheck_agrees h.toAgrees hstate

end Check

/-- Whatever is done with a ring that was made, the check of the source finds
    nothing wrong with it. While the channel runs it only says so, and the ring
    passes as soon as the channel is reset. -/
theorem ring_check (c : Channel) (hc : Configured c.ring) (phys virt alignment : BitVec 32)
    (n : Nat) (hsmall : alignment.toNat * n < 2 ^ 32)
    (hok : (bdRingCreate c phys virt alignment n).2 = xstSuccess) :
    ∃ L : Layout, L.base = virt ∧ L.phys = phys ∧ L.sep = alignment.toNat ∧ L.count = n ∧
      ∀ es : List Call, (∀ e ∈ es, e.Valid L) → ∀ c' : Channel,
        c' = (dialogue Channel.call (bdRingCreate c phys virt alignment n).1 es).1 →
        bdRingCheck c' =
            (if c'.ring.runState = channelNotHalted then xstIsStarted else xstSuccess) ∧
          ∀ a, bdRingCheck (reset c' a) = xstSuccess := by
  have hcreate := (bdRingCreate_success_iff hsmall).mp hok
  refine ⟨hcreate.layout hsmall, rfl, rfl, rfl, rfl, fun es hes c' hc' => ?_⟩
  have hlive := (dialogue_live (bdRingCreate_live hc hcreate hsmall) es hes).1
  rw [← hc'] at hlive
  exact ⟨bdRingCheck_live hlive, fun a => bdRingCheck_agrees (reset_agrees hlive.toAgrees a) rfl⟩

theorem ring_check_twoPackets :
    bdRingCheck (dialogue Channel.call fourRing (twoPackets.take 15)).1 = xstSuccess ∧
      bdRingCheck (dialogue Channel.call fourRing twoPackets).1 = xstIsStarted ∧
      bdRingCheck (reset (dialogue Channel.call fourRing twoPackets).1 0x10C0) = xstSuccess := by
  obtain ⟨L, hbase, hphys, hsep, hcount, h⟩ := ring_check blankChannel blankChannel_configured
    0x1000 0xC0001000 0x40 4 (by decide) fourRing_made
  have hL : L = fourLayout := Layout.eq_of_data hbase hphys hsep hcount
  subst hL
  have hhalted := (h (twoPackets.take 15)
    (fun e he => twoPackets_valid e (List.mem_of_mem_take he)) _ rfl).1
  have hruns := h twoPackets twoPackets_valid _ rfl
  exact ⟨hhalted.trans (if_neg (by decide +kernel)), hruns.1.trans (if_pos (by decide +kernel)),
    hruns.2 0x10C0⟩

section Tail

variable {r : BdRing}

theorem tailOk_toHw (hwf : r.Wf) (h : r.TailOk) (n bd : Nat) :
    (Driver.bdRingToHw r n bd).1.TailOk := by
  rcases Nat.eq_zero_or_pos n with rfl | hn
  · exact h
  rcases bdRingToHw_spec r hn bd with ⟨hready, -, hg⟩ | ⟨-, -, hg⟩
  · -- The new tail is the last descriptor of the set, which joins the group at its end.
    have hcounts := hwf.counts
    have hcnt := hready.count
    rw [Groups.TailOk, hg]
    intro _
    change r.nth bd (n - 1) = r.nth r.hwHead (r.hwCnt + n - 1)
    have hjoin : r.nth r.hwHead r.hwCnt = bd := by
      rw [r.nth_eq_seekahead hwf.hwHead_lt _ (by omega), ← hwf.pre, hready.head]
    have hsplit : r.hwCnt + n - 1 = r.hwCnt + (n - 1) := by omega
    rw [hsplit, Groups.nth_add, hjoin]
  · rw [hg]
    exact h

theorem tailOk_fromHw (hwf : r.Wf) (h : r.TailOk) (limit : Nat) :
    (Driver.bdRingFromHw r limit).1.TailOk := by
  rcases bdRingFromHw_spec r limit with ⟨hle, heq⟩
  rw [heq]
  generalize (Driver.bdRingFromHw r limit).2 = k at hle ⊢
  by_cases hk : k = 0
  · subst hk
    exact h
  intro hleft
  change 0 < r.hwCnt - k at hleft
  have hcounts := hwf.counts
  change r.hwTail = r.nth (if k = 0 then r.hwHead else r.seekahead r.hwHead k) (r.hwCnt - k - 1)
  have hsplit : r.hwCnt - 1 = k + (r.hwCnt - k - 1) := by omega
  rw [if_neg hk, ← r.nth_eq_seekahead hwf.hwHead_lt k (by omega), ← Groups.nth_add, ← hsplit]
  exact h (by omega)

/-- Whatever is done, the tail stays the last descriptor of the hardware group. -/
theorem ringCall_tailOk (name : BitVec 32 → Nat) (hwf : r.Wf) (h : r.TailOk) (e : RingCall) :
    (BdRing.ringCall name r e).1.TailOk := by
  cases e with
  | toHw numBd a =>
      simp only [BdRing.ringCall]
      split
      · exact h
      · exact tailOk_toHw hwf h _ _
  | fromHw limit => exact tailOk_fromHw hwf h limit.toNat
  | setBufAddr | setLength | setCtrl | setId | writeSts => exact h
  | _ =>
      simp only [BdRing.ringCall, Driver.bdRingAlloc, Driver.bdRingUnAlloc, Driver.bdRingFree]
      repeat' split
      all_goals exact h

theorem call_tailOk (L : Layout) {l : LiveRing} (hwf : l.Wf) (h : l.TailOk) (e : Call) :
    (LiveRing.call L l e).1.TailOk := by
  cases e with
  | ring e => exact ringCall_tailOk L.name hwf h e
  | start before after =>
      simp only [LiveRing.call, LiveRing.start]
      split <;> exact h
  | reset cdesc => exact h

/-- The tail stays where it belongs through a dialogue that is followed on both
    levels. -/
theorem dialogue_tailOk {L : Layout} {c : Channel} {l : LiveRing} (h : Live L c l)
    (htail : l.TailOk) (es : List Call) (hes : ∀ e ∈ es, e.Valid L) :
    Live L (dialogue Channel.call c es).1 (dialogue (LiveRing.call L) l es).1 ∧
      (dialogue (LiveRing.call L) l es).1.TailOk :=
  (dialogue_simulates (R := fun c l => Live L c l ∧ l.TailOk) (P := Call.Valid L) L.answer
    (fun _ _ e h he => ⟨⟨(call_live h.1 e he).1, call_tailOk L h.1.wf h.2 e⟩,
      (call_live h.1 e he).2⟩) es c l ⟨h, htail⟩ hes).1

end Tail

/-- One step of the hardware: the first word of a descriptor. -/
def Channel.follow (c : Channel) (p : BitVec 32) : BitVec 32 :=
  bdRead c.mem (c.ring.physToVirt p) .ndesc

section Walk

variable {L : Layout} {c : Channel} {r : BdRing}

theorem Agrees.follow (h : Agrees L c r) {i : Nat} (hi : i < L.count) :
    c.follow (L.physCell i) = L.physCell (r.next i) := by
  rw [Channel.follow, h.physToVirt, h.holds.links i hi, Groups.next, h.count]

theorem Agrees.next_iterate (h : Agrees L c r) {i : Nat} (hi : i < L.count) : ∀ k : Nat,
    c.ring.mBdRingNext^[k] (L.cell i) = L.cell (r.nth i k) := by
  intro k
  induction k with
  | zero => rfl
  | succ k ih =>
      rw [Function.iterate_succ_apply', ih, h.next (h.nth_lt hi k), Groups.nth, Groups.nth,
        Function.iterate_succ_apply']

theorem Agrees.follow_iterate (h : Agrees L c r) {i : Nat} (hi : i < L.count) : ∀ k : Nat,
    c.follow^[k] (L.physCell i) = L.physCell (r.nth i k) := by
  intro k
  induction k with
  | zero => rfl
  | succ k ih =>
      rw [Function.iterate_succ_apply', ih, h.follow (h.nth_lt hi k), Groups.nth, Groups.nth,
        Function.iterate_succ_apply']

/-- The hardware walks as the driver does, and reaches the tail with the last
    descriptor of the group. -/
theorem Agrees.walk (h : Agrees L c r) (htail : r.TailOk) {k : Nat}
    (hk : (k : Int) < c.ring.hwCnt) :
    c.follow^[k] (c.ring.virtToPhys c.ring.hwHead) =
        c.ring.virtToPhys (c.ring.mBdRingNext^[k] c.ring.hwHead) ∧
      (c.follow^[k] (c.ring.virtToPhys c.ring.hwHead) = c.ring.virtToPhys c.ring.hwTail ↔
        (k : Int) = c.ring.hwCnt - 1) := by
  have hcounts := h.counts
  rw [h.hwCnt] at hk ⊢
  have hlast := htail (by omega)
  rw [h.hwHead, h.hwTail, h.next_iterate h.hwHead_lt, h.virtToPhys, h.virtToPhys, h.virtToPhys,
    h.follow_iterate h.hwHead_lt]
  refine ⟨rfl, ?_⟩
  rw [L.physCell_inj (h.nth_lt h.hwHead_lt k) h.tail, hlast]
  constructor
  · intro heq
    have := r.nth_inj h.wf.hwHead_lt (by rw [h.count]; omega) (by rw [h.count]; omega) heq
    omega
  · intro heq
    have hsame : k = r.hwCnt - 1 := by omega
    rw [hsame]

end Walk

/-- Whatever was done with a ring that was made, the hardware that follows the links
    from the head of the hardware group meets the descriptors in the order in which
    the driver steps through them, and comes to the tail with the last one. -/
theorem hardware_walk (c : Channel) (hc : Configured c.ring) (phys virt alignment : BitVec 32)
    (n : Nat) (hsmall : alignment.toNat * n < 2 ^ 32)
    (hok : (bdRingCreate c phys virt alignment n).2 = xstSuccess) :
    ∃ L : Layout, L.base = virt ∧ L.phys = phys ∧ L.sep = alignment.toNat ∧ L.count = n ∧
      ∀ es : List Call, (∀ e ∈ es, e.Valid L) → ∀ c' : Channel,
        c' = (dialogue Channel.call (bdRingCreate c phys virt alignment n).1 es).1 →
        ∀ k : Nat, (k : Int) < c'.ring.hwCnt →
          c'.follow^[k] (c'.ring.virtToPhys c'.ring.hwHead) =
              c'.ring.virtToPhys (c'.ring.mBdRingNext^[k] c'.ring.hwHead) ∧
            (c'.follow^[k] (c'.ring.virtToPhys c'.ring.hwHead) =
              c'.ring.virtToPhys c'.ring.hwTail ↔ (k : Int) = c'.ring.hwCnt - 1) := by
  have hcreate := (bdRingCreate_success_iff hsmall).mp hok
  refine ⟨hcreate.layout hsmall, rfl, rfl, rfl, rfl, fun es hes c' hc' k hk => ?_⟩
  have hempty : (freshLive c.ring n).TailOk := fun hcnt => absurd hcnt (Nat.lt_irrefl 0)
  have hboth := dialogue_tailOk (bdRingCreate_live hc hcreate hsmall) hempty es hes
  rw [hc'] at hk ⊢
  exact hboth.1.toAgrees.walk hboth.2 hk

/-- Two descriptors are with the hardware, the last one of the block and the first. -/
def handedOver : Channel := (dialogue Channel.call fourRing twoPackets).1

theorem hardware_walk_twoPackets :
    handedOver.ring.virtToPhys handedOver.ring.hwHead = 0x10C0 ∧
      handedOver.ring.virtToPhys handedOver.ring.hwTail = 0x1000 ∧
      handedOver.follow 0x10C0 = handedOver.ring.virtToPhys handedOver.ring.hwTail := by
  obtain ⟨L, hbase, hphys, hsep, hcount, h⟩ := hardware_walk blankChannel blankChannel_configured
    0x1000 0xC0001000 0x40 4 (by decide) fourRing_made
  have hL : L = fourLayout := Layout.eq_of_data hbase hphys hsep hcount
  subst hL
  have hhead : handedOver.ring.virtToPhys handedOver.ring.hwHead = 0x10C0 := by decide +kernel
  have htail : handedOver.ring.virtToPhys handedOver.ring.hwTail = 0x1000 := by decide +kernel
  have hcnt : handedOver.ring.hwCnt = 2 := by decide +kernel
  have hwalk := h twoPackets twoPackets_valid handedOver rfl 1 (by rw [hcnt]; decide)
  rw [hhead, hcnt] at hwalk
  exact ⟨hhead, htail, hwalk.2.mpr rfl⟩

end XAxiDma

end Driver

end Ml605
