import Ml605.Lib.Run
import Ml605.Driver.BdChain
import Ml605.Driver.BdMarks
import Ml605.Driver.EthSend

/-!
# Starting a Ring Again

A reset leaves the channel halted, with descriptors in the hardware group that
the hardware may or may not have dealt with. `XAxiDma_BdRingStart` has to find out
where to go on.

Its walk passes through descriptors of all groups, and the completed bit of one
outside the hardware group says nothing about its present use. That the walk ends
at the right descriptor is due to the order of the bits: between two calls the
descriptors without the bit are one interval that begins with the oldest one the
hardware has not dealt with.

## Main definitions

* `Channel.oldest`: The first descriptor of the hardware group that is not completed.
* `Call.Paced`: The hardware completes descriptors one after another.

## Theorems

* `ringCall_marks`, `paced_orderly`: The order of the bits is kept by a call and by a
  run.
* `updateBdRingCDesc_finds`: Where the walk ends.
* `restart_resumes`: A ring goes on where it was.
-/

namespace Ml605

namespace Driver

namespace XAxiDma

open Lib

/-- The first of `n` descriptors that is not completed. -/
def oldestLoop (c : Channel) : Nat → BitVec 32 → Option (BitVec 32)
  | 0, _ => none
  | n + 1, cur =>
    if bdHwCompleted c.mem cur = false then some cur
    else oldestLoop c n (c.ring.mBdRingNext cur)

/-- The first descriptor of the hardware group that is not completed. -/
def Channel.oldest (c : Channel) : Option (BitVec 32) :=
  oldestLoop c c.ring.hwCnt.toNat c.ring.hwHead

/-- Where the hardware has to go on: at the oldest descriptor that it was given and
    has not dealt with, or where the next set will begin. -/
def Channel.resume (c : Channel) : BitVec 32 := c.oldest.getD c.ring.preHead

/-- The hardware completes the descriptors of its group one after another, and
    nobody else writes a status. -/
def RingCall.Paced (c : Channel) : RingCall → Prop
  | .writeSts a sts => c.oldest = some a ∧ sts &&& bdStsCompleteMask ≠ 0
  | _ => True

def Call.Paced (c : Channel) : Call → Prop
  | .ring e => e.Paced c
  | .start _ _ | .reset _ => True

/-- Calls of the driver and steps of the hardware, in any order. -/
abbrev Paced (L : Layout) : Channel → List Call → Channel → Prop :=
  Run (fun c e => some (c.call e).1) fun c e => e.Valid L ∧ e.Paced c

instance RingCall.Paced.decidable (c : Channel) : (e : RingCall) → Decidable (e.Paced c)
  | .writeSts a sts =>
    inferInstanceAs (Decidable (c.oldest = some a ∧ sts &&& bdStsCompleteMask ≠ 0))
  | .alloc .. | .unAlloc .. | .toHw .. | .fromHw .. | .free .. => isTrue trivial
  | .setBufAddr .. | .setLength .. | .setCtrl .. | .setId .. => isTrue trivial

instance Call.Paced.decidable (c : Channel) : (e : Call) → Decidable (e.Paced c)
  | .ring e => inferInstanceAs (Decidable (e.Paced c))
  | .start .. | .reset .. => isTrue trivial

section Bits

variable {L : Layout} {c : Channel} {r : BdRing} {d f : Nat}

/-- The search for the oldest descriptor stops at the first position without the bit. -/
theorem oldestLoop_eq (h : Agrees L c r) (hm : Marks r d f) : ∀ n j : Nat, j + n = r.hwCnt →
    j ≤ d → oldestLoop c n (L.cell (r.nth r.hwHead j)) =
      if d < r.hwCnt then some (L.cell (r.nth r.hwHead d)) else none := by
  have hhanded := hm.handed
  have hturn := hm.turn
  intro n
  induction n with
  | zero =>
      intro j hj hle
      rw [if_neg (by omega)]
      rfl
  | succ n ih =>
      intro j hj hle
      have hlt := h.nth_lt h.hwHead_lt j
      rw [oldestLoop, h.completed hlt]
      -- The marks leave one place where the walk can meet an open descriptor first: `d`.
      by_cases hdone : (r.bd (r.nth r.hwHead j)).complete = false
      · have hfirst := (hm.bits j (by omega)).mp hdone
        have hsame : j = d := by omega
        rw [if_pos hdone, hsame, if_pos (by omega)]
      · have hpast : j < d := by
          by_contra hc
          exact hdone ((hm.bits j (by omega)).mpr ⟨by omega, by omega⟩)
        rw [if_neg hdone, h.next hlt]
        have hstep : r.next (r.nth r.hwHead j) = r.nth r.hwHead (j + 1) := by
          rw [r.nth_add]
          rfl
        rw [hstep]
        exact ih (j + 1) (by omega) hpast

theorem Agrees.oldest_eq (h : Agrees L c r) (hm : Marks r d f) :
    c.oldest = if d < r.hwCnt then some (L.cell (r.nth r.hwHead d)) else none := by
  rw [Channel.oldest, h.hwCnt, h.hwHead]
  exact oldestLoop_eq h hm r.hwCnt 0 (Nat.zero_add _) (Nat.zero_le d)

/-- Both cases are the descriptor at the first position without the bit. -/
theorem Agrees.resume_eq (h : Agrees L c r) (hm : Marks r d f) :
    c.resume = L.cell (r.nth r.hwHead d) := by
  have hdone := hm.done
  have hcounts := h.wf.counts
  rw [Channel.resume, h.oldest_eq hm]
  by_cases hlt : d < r.hwCnt
  · rw [if_pos hlt]
    rfl
  · have hall : d = r.hwCnt := by omega
    rw [if_neg hlt, hall, ← r.seekahead_eq_nth h.wf.hwHead_lt (by omega), ← h.wf.pre]
    exact h.preHead

/-- No descriptor of a new ring has the bit. -/
theorem freshRing_marks (x : Ring) (n : Nat) : Marks (freshRing x n) 0 n := by
  refine ⟨Nat.le_refl 0, Nat.zero_le n, Nat.le_refl n, ?_⟩
  intro m hm
  exact ⟨fun _ => ⟨Nat.zero_le m, hm⟩, fun _ => rfl⟩

/-- One call keeps the descriptors without the bit together. -/
theorem ringCall_marks (h : Agrees L c r) (hm : Marks r d f) (e : RingCall) (he : e.Paced c) :
    ∃ d' f', Marks (BdRing.ringCall L.name r e).1 d' f' := by
  have hkeep : ∀ (i : Nat) (g : Bd → Bd), (∀ b, (g b).complete = b.complete) →
      ∃ d' f', Marks (r.modify i g) d' f' := fun i g hg =>
    ⟨d, f, hm.congr rfl rfl rfl (Eth.modify_complete r i hg)⟩
  cases e with
  | toHw numBd a =>
      simp only [BdRing.ringCall]
      split
      · exact ⟨d, f, hm⟩
      · exact ⟨d, hm.toHw h.wf _ _⟩
  | fromHw limit => exact ⟨_, _, hm.fromHw h.wf limit.toNat⟩
  | setBufAddr a addr =>
      refine hkeep _ _ fun b => ?_
      rw [Driver.bdSetBufAddr]
      split <;> rfl
  | setLength a len =>
      refine hkeep _ _ fun b => ?_
      rw [Driver.bdSetLength]
      split <;> rfl
  | setCtrl a data => exact hkeep _ _ fun b => rfl
  | setId a id => exact hkeep _ _ fun b => rfl
  | writeSts a sts =>
      -- The hardware writes to the descriptor at the first position.
      rcases he with ⟨hold, hsts⟩
      rw [h.oldest_eq hm] at hold
      by_cases hlt : d < r.hwCnt
      · rw [if_pos hlt, Option.some.injEq] at hold
        rw [Ne, complete_iff, Bool.not_eq_false] at hsts
        have hname : L.name a = r.nth r.hwHead d :=
          (L.name_eq_iff (h.nth_lt h.hwHead_lt d)).mpr hold.symm
        refine ⟨d + 1, f, ?_⟩
        simp only [BdRing.ringCall, hname]
        exact hm.process h.wf hlt fun b => hsts
      · rw [if_neg hlt] at hold
        exact absurd hold (by simp only [reduceCtorEq, not_false_eq_true])
  | _ =>
      refine ⟨d, f, ?_⟩
      simp only [BdRing.ringCall, Driver.bdRingAlloc, Driver.bdRingUnAlloc, Driver.bdRingFree]
      repeat' split
      all_goals exact hm.congr rfl rfl rfl fun _ => rfl

/-- A ring over indices goes with the channel, its tail is where it belongs, and
    its bits are in order. -/
def Orderly (L : Layout) (c : Channel) : Prop :=
  ∃ r, Agrees L c r ∧ r.TailOk ∧ ∃ d f, Marks r d f

theorem call_orderly (e : Call) (hvalid : e.Valid L) (hpaced : e.Paced c) (h : Orderly L c) :
    Orderly L (c.call e).1 := by
  rcases h with ⟨r, hagrees, htail, d, f, hm⟩
  cases e with
  | ring e =>
      exact ⟨_, (ringCall_agrees hagrees e hvalid).1, ringCall_tailOk L.name hagrees.wf htail e,
        ringCall_marks hagrees hm e hpaced⟩
  | start before after => exact ⟨r, start_agrees hagrees before after, htail, d, f, hm⟩
  | reset cdesc => exact ⟨r, reset_agrees hagrees cdesc, htail, d, f, hm⟩

theorem paced_orderly {c' : Channel} {es : List Call} (hrun : Paced L c es c')
    (h : Orderly L c) : Orderly L c' := by
  have hstep : ∀ (c : Channel) (e : Call) (c' : Channel), Orderly L c →
      e.Valid L ∧ e.Paced c → some (c.call e).1 = some c' → Orderly L c' := by
    intro c e c' horderly hcond heq
    rw [← Option.some.inj heq]
    exact call_orderly e hcond.1 hcond.2 horderly
  exact run_inv hstep hrun h

end Bits

section Start

variable {L : Layout} {c : Channel} {r : BdRing} {d f i : Nat}

/-- From a descriptor that is completed, or from the right one itself, the hardware
    is sent to the right one. There is none when all are completed. -/
theorem updateBdRingCDesc_finds (h : Agrees L c r) (hm : Marks r d f)
    (hhalted : c.ring.runState = channelHalted) (hi : i < L.count)
    (hrestart : c.ring.bdaRestart = L.physCell i)
    (hplace : (r.bd i).complete = true ∨ i = r.nth r.hwHead d) :
    updateBdRingCDesc c false =
      if d < f then some (xstSuccess, some (L.physCell (r.nth r.hwHead d)))
      else some (xstDmaError, none) := by
  have hall := h.allCnt_ne_zero
  have hstate : c.ring.runState ≠ channelNotHalted := by rw [hhalted]; decide
  have hfew : c.ring.allCnt.toNat = L.count := by rw [h.allCnt, h.count]; rfl
  have hturn := hm.turn
  simp only [updateBdRingCDesc]
  rw [if_neg hall, if_neg hstate, if_neg Bool.false_ne_true, hrestart, h.physToVirt,
    h.completed hi]
  obtain ⟨p, hp, hpos⟩ := r.exists_nth h.wf.hwHead_lt (h.count ▸ hi)
  subst hpos
  by_cases hopen : (r.bd (r.nth r.hwHead p)).complete = false
  · -- The saved descriptor is the right one.
    have hin := (hm.bits p hp).mp hopen
    have hfirst : r.nth r.hwHead p = r.nth r.hwHead d :=
      hplace.resolve_left (by rw [hopen]; exact Bool.noConfusion)
    rw [if_pos hopen, if_pos (by omega), hfirst]
  · rw [if_neg hopen, hfew]
    rw [Bool.not_eq_false] at hopen
    by_cases hdf : d < f
    · rcases hm.first h.wf hdf hp hopen with ⟨k, hpos, hk, hnth, hdone⟩
      have hright := (hm.bits d (by omega)).mpr ⟨Nat.le_refl d, hdf⟩
      rw [← hnth] at hright
      have hsearch := searchLoop_finds h hi hrestart (h.count ▸ hk) hdone hright L.count 0 hpos
        (by rw [← h.count]; omega)
      change searchLoop c L.count (L.cell (r.nth r.hwHead p)) = _ at hsearch
      rw [hsearch, if_pos hdf, hnth]
    · have hdone : AllDone r := by
        intro j hj
        obtain ⟨q, hq, rfl⟩ := r.exists_nth h.wf.hwHead_lt hj
        rw [← Bool.not_eq_false, hm.bits q hq]
        omega
      have hsearch := searchLoop_turn h hi hrestart hdone L.count 0 L.count_pos (by omega)
      change searchLoop c L.count (L.cell (r.nth r.hwHead p)) = _ at hsearch
      rw [hsearch, if_neg hdf]

/-- The tail is announced if something is left to do. -/
theorem startBdRingHw_tdesc (h : Agrees L c r) (htail : r.TailOk) (hm : Marks r d f) :
    startBdRingHw c true = (c.running, xstSuccess,
      if d < r.hwCnt then some (c.ring.virtToPhys c.ring.hwTail) else none) := by
  have hdone := hm.done
  have hhanded := hm.handed
  have hturn := hm.turn
  have hleft : (c.ring.hwCnt > 0 ∧ bdRead c.mem c.ring.hwTail .sts &&& bdStsCompleteMask = 0) ↔
      d < r.hwCnt := by
    have hbit : bdRead c.mem c.ring.hwTail .sts &&& bdStsCompleteMask = 0 ↔
        (r.bd r.hwTail).complete = false := by
      rw [h.hwTail, complete_iff, ← h.describe_eq h.tail]
      rfl
    rw [hbit, h.hwCnt]
    constructor
    · rintro ⟨hpos, hopen⟩
      rw [htail (by omega), hm.bits _ (by omega)] at hopen
      omega
    · intro hlt
      rw [htail (by omega), hm.bits _ (by omega)]
      omega
  simp only [startBdRingHw, hleft, if_true]

end Start

/-- Whatever was done with a ring that was made, while the hardware completes what it
    is given one after another: if the channel is reset and started again, with a
    register that points to a completed descriptor or to where the hardware has to go
    on, then it goes on there, and it is told the tail if something is left to do. It
    cannot be started when every descriptor of the ring is completed. -/
theorem restart_resumes (c : Channel) (hc : Configured c.ring) (phys virt alignment : BitVec 32)
    (n : Nat) (hsmall : alignment.toNat * n < 2 ^ 32)
    (hok : (bdRingCreate c phys virt alignment n).2 = xstSuccess) :
    ∃ L : Layout, L.base = virt ∧ L.phys = phys ∧ L.sep = alignment.toNat ∧ L.count = n ∧
      ∀ (es : List Call) (c' : Channel), Paced L (bdRingCreate c phys virt alignment n).1 es c' →
      ∀ a, L.name a < L.count → bdHwCompleted c'.mem a = true ∨ a = c'.resume →
        ((∃ i, i < L.count ∧ bdHwCompleted c'.mem (L.cell i) = false) →
          bdRingStart (reset c' (c'.ring.virtToPhys a)) false true =
            some ⟨(reset c' (c'.ring.virtToPhys a)).running, xstSuccess,
              some (c'.ring.virtToPhys c'.resume),
              c'.oldest.map fun _ => c'.ring.virtToPhys c'.ring.hwTail⟩) ∧
        ((∀ i, i < L.count → bdHwCompleted c'.mem (L.cell i) = true) →
          bdRingStart (reset c' (c'.ring.virtToPhys a)) false true =
            some ⟨reset c' (c'.ring.virtToPhys a), xstDmaError, none, none⟩) := by
  have hcreate := (bdRingCreate_success_iff hsmall).mp hok
  have hagrees := bdRingCreate_agrees hcreate hsmall hc.mask hc.width
  refine ⟨hcreate.layout hsmall, rfl, rfl, rfl, rfl, ?_⟩
  intro es c' hrun a ha hplace
  have hempty : (freshRing c.ring n).TailOk := fun hcnt => absurd hcnt (Nat.lt_irrefl 0)
  obtain ⟨r, h, htail, d, f, hm⟩ :=
    paced_orderly hrun ⟨_, hagrees, hempty, 0, n, freshRing_marks c.ring n⟩
  generalize hcreate.layout hsmall = L at h ha ⊢
  have hcell := L.cell_name ha
  rw [hcell] at hplace ⊢
  rw [h.completed ha, h.resume_eq hm, L.cell_inj ha (h.nth_lt h.hwHead_lt d)] at hplace
  have hreset := reset_agrees h (c'.ring.virtToPhys (L.cell (L.name a)))
  -- The marks say what the search for a descriptor to resume with finds.
  have hcdesc := updateBdRingCDesc_finds hreset hm rfl ha (h.virtToPhys _) hplace
  have hturn := hm.turn
  constructor
  -- One open descriptor is enough: the marks are contiguous, so the oldest exists.
  · rintro ⟨i, hi, hopen⟩
    rw [h.completed hi] at hopen
    obtain ⟨p, hp, rfl⟩ := r.exists_nth h.wf.hwHead_lt (h.count ▸ hi)
    have hin := (hm.bits p hp).mp hopen
    rw [if_pos (by omega)] at hcdesc
    have hstart := startBdRingHw_tdesc hreset htail hm
    rw [bdRingStart, hcdesc, h.resume_eq hm, h.oldest_eq hm, h.virtToPhys (r.nth r.hwHead d)]
    simp only [ne_eq, not_true_eq_false, if_false, hstart]
    by_cases hlt : d < r.hwCnt
    · rw [if_pos hlt, if_pos hlt]
      rfl
    · rw [if_neg hlt, if_neg hlt]
      rfl
  · intro hdone
    have hnone : ¬ d < f := by
      intro hdf
      have hopen := (hm.bits d (by omega)).mpr ⟨Nat.le_refl d, hdf⟩
      have hlt := h.nth_lt h.hwHead_lt d
      rw [← h.completed hlt, hdone _ hlt] at hopen
      exact Bool.noConfusion hopen
    rw [if_neg hnone] at hcdesc
    rw [bdRingStart, hcdesc]
    exact if_pos (by decide)

/-- The conditions of a run, one call after another. -/
def PacedAlong (L : Layout) : Channel → List Call → Prop
  | _, [] => True
  | c, e :: es => (e.Valid L ∧ e.Paced c) ∧ PacedAlong L (c.call e).1 es

instance PacedAlong.decidable (L : Layout) :
    (c : Channel) → (es : List Call) → Decidable (PacedAlong L c es)
  | _, [] => isTrue trivial
  | c, e :: es =>
    have := PacedAlong.decidable L (c.call e).1 es
    inferInstanceAs (Decidable ((e.Valid L ∧ e.Paced c) ∧ PacedAlong L (c.call e).1 es))

theorem PacedAlong.run {L : Layout} : ∀ {es : List Call} {c : Channel}, PacedAlong L c es →
    Paced L c es (dialogue Channel.call c es).1 := by
  intro es
  induction es with
  | nil => intro c _; exact Run.nil c
  | cons e es ih => intro c h; exact Run.cons c _ _ e es rfl h.1 (ih h.2)

theorem twoPackets_paced : PacedAlong fourLayout fourRing twoPackets := by decide +kernel

theorem restart_resumes_twoPackets :
    bdRingStart (reset handedOver 0x1080) false true =
      some ⟨(reset handedOver 0x1080).running, xstSuccess, some 0x10C0, some 0x1000⟩ := by
  obtain ⟨L, hbase, hphys, hsep, hcount, h⟩ := restart_resumes blankChannel
    blankChannel_configured 0x1000 0xC0001000 0x40 4 (by decide) fourRing_made
  have hL : L = fourLayout := Layout.eq_of_data hbase hphys hsep hcount
  subst hL
  -- The register points to a descriptor of the first packet, which is completed.
  have hsaved : handedOver.ring.virtToPhys 0xC0001080 = 0x1080 := by decide +kernel
  have hresume : handedOver.ring.virtToPhys handedOver.resume = 0x10C0 := by decide +kernel
  have htail : (handedOver.oldest.map fun _ =>
      handedOver.ring.virtToPhys handedOver.ring.hwTail) = some 0x1000 := by decide +kernel
  have hstart := (h twoPackets handedOver twoPackets_paced.run 0xC0001080 (by decide +kernel)
    (Or.inl (by decide +kernel))).1 ⟨3, by decide, by decide +kernel⟩
  rw [hsaved, hresume, htail] at hstart
  exact hstart

end XAxiDma

end Driver

end Ml605
