import Ml605.Driver.AesLedger

/-!
# What a Bottom Half Would See

The number of descriptors that `XAxiDma_BdRingFromHw` would return on the TX
ring if it were called now: those of the packets the hardware has finished.
Only a call takes something from that number. The hardware adds to it, and a
posting, whether it succeeds or is left half done, writes to descriptors that
are not with the hardware.

The search stops at the first descriptor that is not finished and at `HwTail`.
A posting that succeeds moves the tail behind what it posted, so the search
gets as far as before.

## Main definitions

* `visible`: The descriptors a bottom half would take back.
* `Ahead`: A ring on which the hardware is at least as far.
* `TxChannel`: The ring is that of the TX channel.

## Theorems

* `fromHwLoop_mono`: The search finds more where more is finished.
* `visible_le_of_ahead`: So does a call.
* `completeBd_ahead`, `postBuf_ahead`: Neither the hardware nor a posting takes
  a finished packet back.
* `step_ahead`: Nor does any step but that of the bottom half.
-/

namespace Ml605

namespace Driver

open Lib

/-- The descriptors of finished packets, which a bottom half would take back. -/
def visible (r : BdRing) : Nat := (bdRingFromHw r bdNum).2

/-- The descriptor is finished if it was, and has the same mark. -/
structure Later (b b' : Bd) : Prop where
  complete : b.complete = true → b'.complete = true
  eof : b'.eof = b.eof

section Search

/-- The search keeps what it has counted. -/
theorem fromHwLoop_gained (r : BdRing) : ∀ (n cur count part : Nat), part ≤ count →
    count - part ≤ (fromHwLoop r n cur count part).1 - (fromHwLoop r n cur count part).2 := by
  intro n
  induction n with
  | zero => exact fun _ _ _ _ => Nat.le_refl _
  | succ n ih =>
      intro cur count part hle
      simp only [fromHwLoop]
      have hpart : ∀ mark : Bool, (if mark then 0 else part + 1) ≤ part + 1 := by
        intro mark
        cases mark with
        | true => exact Nat.zero_le _
        | false => exact Nat.le_refl _
      have hone := hpart (if r.isRxChannel then (r.bd cur).rxEof else (r.bd cur).eof)
      split
      · exact Nat.le_refl _
      · split
        · change count - part ≤ count + 1 - _
          omega
        · refine Nat.le_trans ?_ (ih (r.next cur) (count + 1) _ (by omega))
          omega

/-- The search finds more where more is finished. It may be longer, and it may
    only stop at a tail where the other one stops as well. -/
theorem fromHwLoop_mono {r r' : BdRing} (hall : r'.allCnt = r.allCnt)
    (hrx : r.isRxChannel = false) (hrx' : r'.isRxChannel = false) :
    ∀ (n n' cur count part : Nat), n ≤ n' → part ≤ count →
      (∀ j, j < n → Later (r.bd (r.nth cur j)) (r'.bd (r.nth cur j))) →
      (∀ j, j + 1 < n → r.nth cur j = r'.hwTail → r.nth cur j = r.hwTail) →
      (fromHwLoop r n cur count part).1 - (fromHwLoop r n cur count part).2 ≤
        (fromHwLoop r' n' cur count part).1 - (fromHwLoop r' n' cur count part).2 := by
  intro n
  induction n with
  | zero => exact fun n' cur count part _ hle _ _ => fromHwLoop_gained r' n' cur count part hle
  | succ n ih =>
      intro n' cur count part hn hle hlater htail
      rcases Nat.exists_eq_add_of_lt (Nat.lt_of_lt_of_le (Nat.succ_pos n) hn) with ⟨m, hm⟩
      have hm' : n' = m + 1 := by omega
      subst hm'
      have hhere : Later (r.bd cur) (r'.bd cur) := hlater 0 (Nat.succ_pos n)
      have hnext : r'.next cur = r.next cur := by
        unfold Groups.next
        rw [hall]
      cases hdone : (r.bd cur).complete with
      | false =>
          have hstop : fromHwLoop r (n + 1) cur count part = (count, part) := by
            simp only [fromHwLoop, hdone, if_true]
          rw [hstop]
          exact fromHwLoop_gained r' _ cur count part hle
      | true =>
          have hdone' := hhere.complete hdone
          -- Both searches count this descriptor in the same way.
          generalize hpart : (if (r.bd cur).eof then 0 else part + 1) = part'
          have hpart' : part' ≤ count + 1 := by
            rw [← hpart]
            split <;> omega
          have hstep : fromHwLoop r (n + 1) cur count part = if cur = r.hwTail then
              (count + 1, part') else fromHwLoop r n (r.next cur) (count + 1) part' := by
            simp only [fromHwLoop, hdone, hrx, hpart, Bool.true_eq_false, Bool.false_eq_true,
              if_false]
          have hstep' : fromHwLoop r' (m + 1) cur count part = if cur = r'.hwTail then
              (count + 1, part') else fromHwLoop r' m (r.next cur) (count + 1) part' := by
            simp only [fromHwLoop, hdone', hrx', hhere.eof, hpart, hnext, Bool.true_eq_false,
              Bool.false_eq_true, if_false]
          rw [hstep, hstep']
          by_cases hend : cur = r.hwTail
          · rw [if_pos hend]
            split
            · exact Nat.le_refl _
            · exact fromHwLoop_gained r' m _ _ _ hpart'
          · rw [if_neg hend]
            by_cases hend' : cur = r'.hwTail
            · -- The other search has no further descriptor to look at.
              rw [if_pos hend']
              have hlast : n = 0 := by
                by_contra hpos
                exact hend (htail 0 (by omega) hend')
              rw [hlast]
              exact Nat.le_refl _
            · rw [if_neg hend']
              refine ih m (r.next cur) (count + 1) part' (by omega) hpart' ?_ ?_
              · exact fun j hj => hlater (j + 1) (by omega)
              · exact fun j hj => htail (j + 1) (by omega)

theorem visible_eq (r : BdRing) : visible r =
    (fromHwLoop r (min bdNum r.hwCnt) r.hwHead 0 0).1 -
      (fromHwLoop r (min bdNum r.hwCnt) r.hwHead 0 0).2 := by
  unfold visible bdRingFromHw
  by_cases hnone : r.hwCnt = 0
  · rw [if_pos hnone, hnone]
    rfl
  · rw [if_neg hnone]
    generalize fromHwLoop r (min bdNum r.hwCnt) r.hwHead 0 0 = found
    by_cases hzero : found.1 - found.2 = 0
    · simp only [hzero, if_true]
    · simp only [hzero, if_false]

end Search

/-- What was with the hardware is still there, at least as far, and the search
    gets past it. -/
structure Ahead (r r' : BdRing) : Prop where
  all : r'.allCnt = r.allCnt
  head : r'.hwHead = r.hwHead
  count : r.hwCnt ≤ r'.hwCnt
  isRx : r'.isRxChannel = r.isRxChannel
  later : ∀ j, j < r.hwCnt → Later (r.bd (r.nth r.hwHead j)) (r'.bd (r.nth r.hwHead j))
  tail : ∀ j, j < r.hwCnt → r.nth r.hwHead j = r'.hwTail → r.nth r.hwHead j = r.hwTail

theorem visible_le_of_ahead {r r' : BdRing} (hrx : r.isRxChannel = false) (h : Ahead r r') :
    visible r ≤ visible r' := by
  have hcount := h.count
  rw [visible_eq, visible_eq, h.head]
  refine fromHwLoop_mono h.all hrx (h.isRx.trans hrx) _ _ _ 0 0 (by omega) (Nat.le_refl 0) ?_ ?_
  · exact fun j hj => h.later j (by omega)
  · exact fun j hj => h.tail j (by omega)

theorem Ahead.refl (r : BdRing) : Ahead r r :=
  ⟨rfl, rfl, Nat.le_refl _, rfl, fun _ _ => ⟨fun h => h, rfl⟩, fun _ _ h => h⟩

/-- The hardware takes nothing back. -/
theorem completeBd_ahead (r : BdRing) (i : Nat) (eof : Bool) : Ahead r (completeBd r i eof) := by
  refine ⟨rfl, rfl, Nat.le_refl _, rfl, ?_, fun _ _ h => h⟩
  intro j _
  unfold completeBd
  by_cases hj : r.nth r.hwHead j = r.nth r.hwHead i
  · rw [hj, r.modify_bd_self]
    exact ⟨fun _ => rfl, rfl⟩
  · rw [r.modify_bd_of_ne _ hj]
    exact ⟨fun h => h, rfl⟩

section Posting

theorem clearLoop_bd_outside : ∀ (n : Nat) (r : BdRing) (cur j : Nat),
    (∀ i, i < n → j ≠ r.nth cur i) → (clearLoop n r cur).1.bd j = r.bd j := by
  intro n
  induction n with
  | zero => exact fun _ _ _ _ => rfl
  | succ n ih =>
      intro r cur j hout
      simp only [clearLoop]
      split
      · rfl
      · rw [ih (r.modify cur bdClearComplete) (r.next cur) j fun i hi => hout (i + 1) (by omega)]
        exact r.modify_bd_of_ne _ (hout 0 (Nat.succ_pos n))

/-- Handing a set over writes to its descriptors only. -/
theorem bdRingToHw_bd_outside (r : BdRing) (n bd j : Nat) (hout : ∀ i, i < n → j ≠ r.nth bd i) :
    (bdRingToHw r n bd).1.bd j = r.bd j := by
  have hloop := clearLoop_bd_outside (n - 1) r bd j fun i hi => hout i (by omega)
  refine bdRingToHw_cases (fun u => u.bd j = r.bd j) r n bd rfl hloop fun hn _ => ?_
  change ((clearLoop (n - 1) r bd).1.modify _ bdClearComplete).bd j = r.bd j
  rw [BdRing.modify_bd_of_ne _ _ (hout (n - 1) (by omega))]
  exact hloop

theorem bdRingToHw_isRx (r : BdRing) (n bd : Nat) :
    (bdRingToHw r n bd).1.isRxChannel = r.isRxChannel := by
  have hloop := (clearLoop_spec (n - 1) r bd).1.isRx
  exact bdRingToHw_cases (fun u => u.isRxChannel = r.isRxChannel) r n bd rfl hloop fun _ _ => hloop

theorem fillBds_isRx (sw : Nat) (segs : List (Nat × Nat)) : ∀ (r : BdRing) (bd : Nat),
    (fillBds sw segs r bd).isRxChannel = r.isRxChannel := by
  induction segs with
  | nil => exact fun _ _ => rfl
  | cons seg segs ih => exact fun r bd => ih (writeBd r bd sw seg) (r.next bd)

theorem markPacket_isRx (r : BdRing) (first last : Nat) :
    (markPacket r first last).isRxChannel = r.isRxChannel := by
  unfold markPacket
  split <;> rfl

variable {r : BdRing} {buf : DmaBuf} (sw : Nat)

theorem packetRing_isRx (hcnt : 0 < dmaBufCnt buf) (hroom : dmaBufCnt buf ≤ r.freeCnt) :
    (packetRing r buf sw).isRxChannel = r.isRxChannel := by
  unfold packetRing
  rw [markPacket_isRx, fillBds_isRx, alloc_eq_allocated hcnt hroom]
  rfl

/-- A posting takes nothing back, whatever its outcome. -/
theorem postBuf_ahead (hwf : r.Wf) : Ahead r (postBuf r buf sw).1 := by
  have hpos : 0 < (bufSegs buf).length := List.length_pos_of_ne_nil (bufSegs_ne_nil buf)
  rcases bdRingAlloc_spec r (dmaBufCnt buf) with ⟨hcnt, hroom, hok, -⟩ | ⟨-, hbad, heq⟩
  · rw [postBuf_eq_of_alloc sw hok]
    have hfill := packetRing_filled sw hcnt hroom
    have hle := bufSegs_length_le buf hcnt
    have hnth : ∀ bd i, (packetRing r buf sw).nth bd i = r.nth bd i := by
      intro bd i
      exact Groups.nth_congr (by rw [hfill.groups]; rfl) bd i
    -- A descriptor with the hardware is none of those written to.
    have hlater : ∀ j, j < r.hwCnt → Later (r.bd (r.nth r.hwHead j))
        ((bdRingToHw (packetRing r buf sw) (bufSegs buf).length r.freeHead).1.bd
          (r.nth r.hwHead j)) := by
      intro j hj
      rw [bdRingToHw_bd_outside, hfill.outside]
      · exact ⟨fun h => h, rfl⟩
      · exact fun i hi => hw_ne_free hwf hj (by omega)
      · intro i hi
        rw [hnth]
        exact hw_ne_free hwf hj (by omega)
    have hrx := (bdRingToHw_isRx (packetRing r buf sw) (bufSegs buf).length r.freeHead).trans
      (packetRing_isRx sw hcnt hroom)
    rcases bdRingToHw_spec (packetRing r buf sw) hpos r.freeHead with
      ⟨-, -, hg⟩ | ⟨-, -, hg⟩
    · -- The new tail is the last descriptor of the set.
      refine ⟨by rw [hg, hfill.groups]; rfl, by rw [hg, hfill.groups]; rfl, ?_, hrx, hlater, ?_⟩
      · rw [hg, hfill.groups]
        exact Nat.le_add_right _ _
      · intro j hj htail
        rw [hg] at htail
        exact absurd htail (by rw [hnth]; exact hw_ne_free hwf hj (by omega))
    · refine ⟨by rw [hg, hfill.groups]; rfl, by rw [hg, hfill.groups]; rfl, ?_, hrx, hlater, ?_⟩
      · rw [hg, hfill.groups]
        exact Nat.le_refl _
      · intro j hj htail
        rw [hg, hfill.groups] at htail
        exact htail
  · rw [postBuf_eq_of_refused sw hbad, heq]
    exact Ahead.refl r

end Posting

section Steps

/-- The ring is that of the TX channel. -/
def TxChannel (s : System) : Prop := (s.dev.ring false).isRxChannel = false

theorem clearIds_isRx : ∀ (n : Nat) (r : BdRing) (bd : Nat),
    (clearIds n r bd).isRxChannel = r.isRxChannel := by
  intro n
  induction n with
  | zero => exact fun _ _ => rfl
  | succ n ih => exact fun r bd => ih (r.modify bd (bdSetId none)) (r.next bd)

theorem bdRingFree_isRx (r : BdRing) (n bd : Nat) :
    (bdRingFree r n bd).1.isRxChannel = r.isRxChannel := by
  unfold bdRingFree
  split
  · rfl
  · split <;> rfl

theorem roundRing_isRx (r : BdRing) (limit : Nat) :
    (roundRing r limit).1.isRxChannel = r.isRxChannel := by
  unfold roundRing
  rw [bdRingFree_isRx, clearIds_isRx, (bdRingFromHw_spec r limit).2]

variable {env : Env} {s t : System} {e : Event}

/-- No step but that of the TX bottom half takes a finished packet back. -/
theorem step_ahead (hs : step env s e = some t) (hne : e ≠ .reclaim false) (hwf : RingsWf s.dev) :
    Ahead (s.dev.ring false) (t.dev.ring false) := by
  have hkeep : ∀ d : AesDev, d.ring false = s.dev.ring false →
      Ahead (s.dev.ring false) (d.ring false) := by
    intro d hd
    rw [hd]
    exact Ahead.refl _
  -- Only the TX section posts on this ring.
  have hpost : ∀ rx buf sw, Ahead (s.dev.ring false) ((postOn rx s.dev buf sw).1.ring false) := by
    intro rx buf sw
    cases rx with
    | true => exact hkeep _ (s.dev.ring_setRing_not true (postBuf (s.dev.ring true) buf sw).1)
    | false =>
        change Ahead _ ((s.dev.setRing false _).ring false)
        rw [AesDev.ring_setRing]
        exact postBuf_ahead sw (hwf false)
  cases step_stepped hs with
  | refused c rq => exact Ahead.refl _
  | submitted c rq hp => exact hkeep _ (prepareDesc_ring s.dev rq false)
  | queued c jiffies sw n hp => exact hkeep _ (hwSection_ring s.dev env jiffies sw false)
  | rxDone c sw n hp hok => exact hpost true _ sw
  | rxFailed c sw n hp hbad => exact hpost true _ sw
  | txDone c sw n hp hok => exact hpost false _ sw
  | txFailed c sw n hp hbad => exact hpost false _ sw
  | put c sw n hp => exact hkeep _ (putAndFree_ring s.dev sw false)
  | completed rx i eof hn =>
      cases rx with
      | true => exact hkeep _ (s.dev.ring_setRing_not true _)
      | false => exact completeBd_ahead _ i eof
  | reclaimed rx =>
      cases rx with
      | true => exact hkeep _ (reclaim_ring true s.dev).2
      | false => exact absurd rfl hne
  | released sw hm => exact hkeep _ (aesFreeDescRest_ring s.dev sw false)

theorem step_txChannel (hs : step env s e = some t) (hwf : RingsWf s.dev) (htx : TxChannel s) :
    TxChannel t := by
  by_cases hne : e = .reclaim false
  · subst hne
    cases step_stepped hs with
    | reclaimed rx =>
        unfold TxChannel
        rw [(reclaim_ring false s.dev).1, roundRing_isRx]
        exact htx
  · exact (step_ahead hs hne hwf).isRx.trans htx

end Steps

end Driver

end Ml605
