import Ml605.Driver.BdRefine
import Ml605.Driver.BdMarks

/-!
# Starting and Stopping a Channel

`XAxiDma_Reset` saves the address in the current descriptor register and leaves
the channel halted. `XAxiDma_BdRingStart` looks at the saved descriptor, and if
that one is completed it walks along the ring to the first one that is not.

The loop of that walk has no bound in the source. It stops where it began, and
so it comes to an end within one turn if it begins at a descriptor of the ring.
From any other address it would not find its way back.

## Main definitions

* `reset`: What `XAxiDma_Reset` does to a ring.
* `updateBdRingCDesc`, `startBdRingHw`, `bdRingStart`: The functions of the source.
* `AllDone`: Every descriptor of the ring is completed.

## Theorems

* `searchLoop_finds`, `searchLoop_turn`: The two ends of the walk.
* `updateBdRingCDesc_status`: The walk fails on a ring of completed descriptors only.
* `bdRingStart_spec`: What starting a ring comes to.
-/

namespace Ml605

namespace Driver

namespace XAxiDma

open Lib

/-- What `XAxiDma_Reset` does to a ring, given what it reads from the current
    descriptor register. -/
def reset (c : Channel) (cdesc : BitVec 32) : Channel :=
  { c with ring := { c.ring with bdaRestart := cdesc, runState := channelHalted } }

/-- The loop of `XAxiDma_UpdateBdRingCDesc` from a completed descriptor on. It ends
    with the address of one that is not completed, or with none when it is back
    where it began. No result means that it has not ended after so many rounds. -/
def searchLoop (c : Channel) : Nat → BitVec 32 → Option (Option (BitVec 32))
  | 0, _ => none
  | n + 1, bdPtr =>
    let bdPtr := c.ring.mBdRingNext bdPtr
    let bdPtrPhy := c.ring.virtToPhys bdPtr
    if bdPtrPhy = c.ring.bdaRestart then some none
    else if bdHwCompleted c.mem bdPtr = false then some (some bdPtrPhy)
    else searchLoop c n bdPtr

/-- `XAxiDma_UpdateBdRingCDesc`, given whether the hardware is started: the status and
    what is written to the current descriptor register. -/
def updateBdRingCDesc (c : Channel) (started : Bool) : Option (Int × Option (BitVec 32)) :=
  if c.ring.allCnt = 0 then some (xstDmaSgNoList, none)
  else if c.ring.runState = channelNotHalted then some (xstSuccess, none)
  else if started = true then some (xstSuccess, none)
  else
    let bdPtr := c.ring.physToVirt c.ring.bdaRestart
    if bdHwCompleted c.mem bdPtr = false then some (xstSuccess, some c.ring.bdaRestart)
    else
      match searchLoop c c.ring.allCnt.toNat bdPtr with
      | none => none
      | some none => some (xstDmaError, none)
      | some (some bdPtrPhy) => some (xstSuccess, some bdPtrPhy)

/-- What starting a ring comes to: the status, and what is written to the current
    and to the tail descriptor register. -/
structure Started where
  chan : Channel
  status : Int
  cdesc : Option (BitVec 32)
  tdesc : Option (BitVec 32)

/-- Noted as started. -/
def Channel.running (c : Channel) : Channel :=
  { c with ring := { c.ring with runState := channelNotHalted } }

/-- `XAxiDma_StartBdRingHw`, given whether the hardware is started once it has been
    told to run. -/
def startBdRingHw (c : Channel) (started : Bool) : Channel × Int × Option (BitVec 32) :=
  if started = true then
    (c.running, xstSuccess,
      if c.ring.hwCnt > 0 ∧ bdRead c.mem c.ring.hwTail .sts &&& bdStsCompleteMask = 0 then
        some (c.ring.virtToPhys c.ring.hwTail)
      else none)
  else (c, xstDmaError, none)

/-- `XAxiDma_BdRingStart`, given whether the hardware is started before and after it
    has been told to run. -/
def bdRingStart (c : Channel) (before after : Bool) : Option Started :=
  match updateBdRingCDesc c before with
  | none => none
  | some (status, cdesc) =>
    if status ≠ xstSuccess then some ⟨c, status, cdesc, none⟩
    else
      let res := startBdRingHw c after
      some ⟨res.1, res.2.1, cdesc, res.2.2⟩

/-- Starting a ring changes at most the state that is noted. -/
theorem bdRingStart_chan {c : Channel} {before after : Bool} {s : Started}
    (h : bdRingStart c before after = some s) : s.chan = c ∨ s.chan = c.running := by
  rw [bdRingStart] at h
  split at h
  · exact absurd h (Option.some_ne_none s).symm
  · split at h
    · exact Or.inl (Option.some.inj h ▸ rfl)
    · cases after with
      | true => exact Or.inr (Option.some.inj h ▸ rfl)
      | false => exact Or.inl (Option.some.inj h ▸ rfl)

/-- Every descriptor of the ring is completed. -/
def AllDone (r : BdRing) : Prop := ∀ j, j < r.allCnt → (r.bd j).complete = true

instance AllDone.decidable (r : BdRing) : Decidable (AllDone r) := by unfold AllDone; infer_instance

section Levels

variable {L : Layout} {c : Channel} {r : BdRing} {i : Nat}

theorem Agrees.nth_lt (h : Agrees L c r) (hi : i < L.count) (k : Nat) : r.nth i k < L.count := by
  rw [← h.count] at hi ⊢
  exact r.nth_lt hi k

/-- Descriptors have different addresses for the hardware too. -/
theorem Layout.physCell_inj (L : Layout) {i j : Nat} (hi : i < L.count) (hj : j < L.count) :
    L.physCell i = L.physCell j ↔ i = j := by
  rw [← L.cell_inj hi hj, Layout.physCell, Layout.physCell, Cells.cell, Cells.cell,
    BitVec.add_right_inj, BitVec.add_right_inj]

theorem Agrees.completed (h : Agrees L c r) (hi : i < L.count) :
    bdHwCompleted c.mem (L.cell i) = (r.bd i).complete := by
  rw [← h.describe_eq hi, bdHwCompleted]
  change decide _ = (bdRead c.mem (L.cell i) .sts).getLsbD 31
  by_cases hbit : (bdRead c.mem (L.cell i) .sts).getLsbD 31 = false
  · rw [hbit, decide_eq_false_iff_not, Ne, not_not, complete_iff, hbit]
  · rw [Bool.not_eq_false] at hbit
    rw [hbit, decide_eq_true_iff, Ne, complete_iff, hbit]
    exact Bool.noConfusion

theorem Agrees.allCnt_ne_zero (h : Agrees L c r) : c.ring.allCnt ≠ 0 := by
  have := L.count_pos
  rw [h.allCnt, h.count]
  omega

theorem reset_agrees (h : Agrees L c r) (a : BitVec 32) : Agrees L (reset c a) r :=
  { h.toRingAgrees with holds := h.holds }

theorem running_agrees (h : Agrees L c r) : Agrees L c.running r :=
  { h.toRingAgrees with holds := h.holds }

end Levels

section Search

variable {L : Layout} {c : Channel} {r : BdRing} {i : Nat}

/-- One round of the loop. -/
theorem searchLoop_succ (h : Agrees L c r) (hi : i < L.count)
    (hrestart : c.ring.bdaRestart = L.physCell i) (n j : Nat) :
    searchLoop c (n + 1) (L.cell (r.nth i j)) =
      if r.nth i (j + 1) = i then some none
      else if (r.bd (r.nth i (j + 1))).complete = false then
        some (some (L.physCell (r.nth i (j + 1))))
      else searchLoop c n (L.cell (r.nth i (j + 1))) := by
  have hlt := h.nth_lt hi (j + 1)
  have hstep : c.ring.mBdRingNext (L.cell (r.nth i j)) = L.cell (r.nth i (j + 1)) := by
    rw [h.next (h.nth_lt hi j), r.nth_add i j 1]
    rfl
  simp only [searchLoop, hstep, h.virtToPhys, hrestart, L.physCell_inj hlt hi, h.completed hlt]

/-- The walk ends at the first descriptor that is not completed. -/
theorem searchLoop_finds (h : Agrees L c r) (hi : i < L.count)
    (hrestart : c.ring.bdaRestart = L.physCell i) {k : Nat} (hk : k < L.count)
    (hdone : ∀ j, j < k → (r.bd (r.nth i j)).complete = true)
    (hopen : (r.bd (r.nth i k)).complete = false) : ∀ n j : Nat, j < k → k ≤ j + n →
    searchLoop c n (L.cell (r.nth i j)) = some (some (L.physCell (r.nth i k))) := by
  intro n
  induction n with
  | zero => intro j hj hle; omega
  | succ n ih =>
      intro j hj hle
      have hne : r.nth i (j + 1) ≠ i := by
        intro hback
        have := r.nth_inj (i := j + 1) (j := 0) (h.count ▸ hi) (by rw [h.count]; omega)
          (by rw [h.count]; omega) hback
        omega
      rw [searchLoop_succ h hi hrestart, if_neg hne]
      by_cases hlast : j + 1 = k
      · rw [hlast, if_pos hopen]
      · rw [hdone (j + 1) (by omega), if_neg Bool.noConfusion]
        exact ih (j + 1) (by omega) (by omega)

/-- If all are completed, the walk ends where it began. -/
theorem searchLoop_turn (h : Agrees L c r) (hi : i < L.count)
    (hrestart : c.ring.bdaRestart = L.physCell i) (hdone : AllDone r) : ∀ n j : Nat,
    j < L.count → L.count ≤ j + n → searchLoop c n (L.cell (r.nth i j)) = some none := by
  intro n
  induction n with
  | zero => intro j hj hle; omega
  | succ n ih =>
      intro j hj hle
      rw [searchLoop_succ h hi hrestart]
      by_cases hback : r.nth i (j + 1) = i
      · rw [if_pos hback]
      · have hlt := h.nth_lt hi (j + 1)
        rw [if_neg hback, hdone _ (h.count ▸ hlt), if_neg Bool.noConfusion]
        refine ih (j + 1) ?_ (by omega)
        by_contra hc
        have hfull : j + 1 = r.allCnt + 0 := by rw [h.count]; omega
        rw [hfull, r.nth_turn (h.count ▸ hi)] at hback
        exact hback rfl

/-- Counted from a completed descriptor there is a first one that is not, unless all
    of them are. -/
theorem exists_first_open (hi : i < r.allCnt) (hdone : (r.bd i).complete = true)
    (hsome : ¬ AllDone r) : ∃ k, 0 < k ∧ k < r.allCnt ∧
      (∀ j, j < k → (r.bd (r.nth i j)).complete = true) ∧
      (r.bd (r.nth i k)).complete = false := by
  simp only [AllDone, not_forall, Bool.not_eq_true] at hsome
  obtain ⟨j, hj, hopen⟩ := hsome
  obtain ⟨p, hp, rfl⟩ := r.exists_nth hi hj
  have hex : ∃ k, (r.bd (r.nth i k)).complete = false := ⟨p, hopen⟩
  refine ⟨Nat.find hex, ?_, lt_of_le_of_lt (Nat.find_min' hex hopen) hp, ?_, Nat.find_spec hex⟩
  · rw [Nat.find_pos]
    change ¬ (r.bd i).complete = false
    rw [hdone]
    exact Bool.noConfusion
  · intro j hj
    exact Bool.eq_true_of_not_eq_false (Nat.find_min hex hj)

end Search

section Start

variable {L : Layout} {c : Channel} {r : BdRing} {i : Nat} (h : Agrees L c r) (hi : i < L.count)
  (hrestart : c.ring.bdaRestart = L.physCell i)

include h hi hrestart

/-- The search for a descriptor to begin with comes to an end. It fails on a ring of
    completed descriptors, and it is not made if the channel runs. -/
theorem updateBdRingCDesc_status (started : Bool) :
    ∃ cdesc, updateBdRingCDesc c started =
      some (if c.ring.runState ≠ channelNotHalted ∧ started = false ∧ AllDone r then xstDmaError
        else xstSuccess, cdesc) := by
  have hfew : c.ring.allCnt.toNat = L.count := by rw [h.allCnt, h.count]; rfl
  simp only [updateBdRingCDesc]
  rw [if_neg h.allCnt_ne_zero]
  by_cases hrun : c.ring.runState = channelNotHalted
  · rw [if_pos hrun, if_neg (fun hc => hc.1 hrun)]
    exact ⟨none, rfl⟩
  rw [if_neg hrun]
  cases started with
  | true =>
      rw [if_pos rfl, if_neg (fun hc => Bool.noConfusion hc.2.1)]
      exact ⟨none, rfl⟩
  | false =>
      rw [if_neg Bool.false_ne_true, hrestart, h.physToVirt, h.completed hi, hfew]
      by_cases hopen : (r.bd i).complete = false
      · -- The saved descriptor itself is one to begin with.
        have hsome : ¬ AllDone r := by
          intro hdone
          rw [hdone i (h.count ▸ hi)] at hopen
          exact Bool.noConfusion hopen
        rw [if_pos hopen, if_neg (fun hc => hsome hc.2.2)]
        exact ⟨_, rfl⟩
      · rw [if_neg hopen]
        by_cases hdone : AllDone r
        · have hsearch := searchLoop_turn h hi hrestart hdone L.count 0 L.count_pos (by omega)
          change searchLoop c L.count (L.cell i) = _ at hsearch
          rw [hsearch, if_pos ⟨hrun, rfl, hdone⟩]
          exact ⟨none, rfl⟩
        · obtain ⟨k, hpos, hk, hbefore, hfirst⟩ :=
            exists_first_open (h.count ▸ hi) (Bool.eq_true_of_not_eq_false hopen) hdone
          rw [h.count] at hk
          have hsearch := searchLoop_finds h hi hrestart hk hbefore hfirst L.count 0 hpos (by omega)
          change searchLoop c L.count (L.cell i) = _ at hsearch
          rw [hsearch, if_neg (fun hc => hdone hc.2.2)]
          exact ⟨_, rfl⟩

/-- Starting a ring comes to an end. It fails if there is no descriptor to begin with
    or the hardware does not start, and otherwise the channel is noted as started. -/
theorem bdRingStart_spec (before after : Bool) :
    ∃ s, bdRingStart c before after = some s ∧
      if (c.ring.runState ≠ channelNotHalted ∧ before = false ∧ AllDone r) ∨ after = false then
        s.chan = c ∧ s.status = xstDmaError
      else s.chan = c.running ∧ s.status = xstSuccess := by
  obtain ⟨cdesc, hupdate⟩ := updateBdRingCDesc_status h hi hrestart before
  rw [bdRingStart, hupdate]
  by_cases hstuck : c.ring.runState ≠ channelNotHalted ∧ before = false ∧ AllDone r
  · rw [if_pos hstuck]
    refine ⟨_, if_pos (by decide), ?_⟩
    rw [if_pos (Or.inl hstuck)]
    exact ⟨rfl, rfl⟩
  · rw [if_neg hstuck]
    refine ⟨_, if_neg (fun hc => hc rfl), ?_⟩
    cases after with
    | true =>
        rw [if_neg (fun hc => hc.elim hstuck Bool.noConfusion)]
        exact ⟨rfl, rfl⟩
    | false =>
        rw [if_pos (Or.inr rfl)]
        exact ⟨rfl, rfl⟩

end Start

end XAxiDma

end Driver

end Ml605
