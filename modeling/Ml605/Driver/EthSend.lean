import Ml605.Lib.Run
import Ml605.Lib.RefPool
import Ml605.Driver.BdQueue

/-!
# The Transmit Path of the Ethernet Driver

`ethdma.c` hands an `sk_buff` to the TX ring in `axi_DmaSend_internal`: the
first descriptor carries the address of the buffer as its ID, the descriptors
of the fragments carry none. A buffer that finds no room goes into the single
`deferred_skb` slot and the queue is stopped. `DmaSendHandlerBH` frees what the
hardware has finished, tries the deferred buffer again and wakes the queue.

`axi_send` and the bottom half both hold `XTE_tx_spinlock`, so a send is one
step and none happens inside a bottom half. The hardware does not take the
lock: a round of the loop in the bottom half is a step of its own, and
descriptors may complete between two rounds.

`bd_processed_save` is a local variable that only the loop sets. A bottom half
whose loop body does not run reads whatever is on the stack, so the value it
starts with is an argument of the event.

The offload words of a descriptor and the counters of the device are left out,
no path reads them back. `XAxiDma_Reset` is a mark.

## Main definitions

* `SkBuff`, `NetLocal`: A buffer and the device.
* `axiDmaSendInternal`: The function of the source.
* `Event`, `step`: Sends, completions and the parts of the bottom half.
* `Placed`: Every buffer is in exactly one place.
* `Assumed`: What the environment is assumed to keep to.
* `SlotSeen`: The bottom half does not pass over an occupied slot.

## Theorems

* `step_kept`: Every step of a bottom half that sees the slot keeps the places.
* `run_placed`: So every buffer is in one place in all of their states.
* `unseen_slot_loses_skb`: A bottom half that finds nothing completed and reads
  zero wakes the queue with the slot occupied, and the next send overwrites it.
-/

namespace Ml605

namespace Driver

namespace Eth

open Lib

/-- `TX_BD_NUM` of `ethdma.c`. -/
def txBdNum : Nat := 8192

/-- An `sk_buff` with the lengths and the mapped addresses of its header and of
    its fragments. `addr` names the buffer: memory that is used for another
    buffer later counts as another address. -/
structure SkBuff where
  addr : Nat
  headLen : Nat
  headAddr : Nat
  frags : List (Nat × Nat)
deriving DecidableEq, Repr

/-- `struct net_local` as far as the transmit path uses it. `bh` is the
    `bd_processed_save` of a bottom half that is running. `accepted` and `freed`
    record the buffers handed to `axi_send` and to `dev_kfree_skb`. -/
structure NetLocal where
  ring : BdRing
  deferred : Option SkBuff
  stopped : Bool
  bh : Option Nat
  wasReset : Bool
  accepted : List Nat
  freed : List Nat

/-- The device after `axi_open`, with the TX channel as it is configured. -/
def NetLocal.init : NetLocal where
  ring := { bdRingCreate false txBdNum with hasDRE := true, dataWidth := 8 }
  deferred := none
  stopped := false
  bh := none
  wasReset := false
  accepted := []
  freed := []

/-- `total_frags`. -/
def totalFrags (skb : SkBuff) : Nat := skb.frags.length + 1

/-- The buffer address and the length of a descriptor. -/
def setBuffer (r : BdRing) (len addr : Nat) (b : Bd) : Bd :=
  bdSetLength len r.maxTransferLen (bdSetBufAddr r.hasDRE r.dataWidth addr b)

/-- The descriptor of the header, which carries the address of the buffer. -/
def writeHead (r : BdRing) (bd : Nat) (skb : SkBuff) : BdRing :=
  r.modify bd fun b => bdSetId (some skb.addr) (setBuffer r skb.headLen skb.headAddr b)

/-- The loop over the fragments. It returns the last descriptor written. -/
def writeFrags : List (Nat × Nat) → BdRing → Nat → BdRing × Nat
  | [], r, bd => (r, bd)
  | frag :: frags, r, bd =>
    writeFrags frags (r.modify (r.next bd) fun b =>
      bdSetCtrl false false (bdSetId none (setBuffer r frag.1 frag.2 b))) (r.next bd)

/-- The marks of the packet, the first one before the last one. -/
def markFrame (r : BdRing) (first last : Nat) : BdRing :=
  if first = last then r.modify last (bdSetCtrl true true)
  else (r.modify first (bdSetCtrl true false)).modify last (bdSetCtrl false true)

/-- The set of descriptors `axi_DmaSend_internal` builds. -/
def buildFrame (r : BdRing) (first : Nat) (skb : SkBuff) : BdRing :=
  let written := writeFrags skb.frags (writeHead r first skb) first
  markFrame written.1 first written.2

/-- `axi_DmaSend_internal`. -/
def axiDmaSendInternal (lp : NetLocal) (skb : SkBuff) : NetLocal × Int :=
  if totalFrags skb < txBdNum then
    let alloc := bdRingAlloc lp.ring (totalFrags skb)
    if alloc.2 ≠ xstSuccess then
      ({ lp with stopped := true, deferred := some skb }, alloc.2)
    else
      let first := lp.ring.freeHead
      let toHw := bdRingToHw (buildFrame alloc.1 first skb) (totalFrags skb) first
      if toHw.2 ≠ xstSuccess then
        ({ lp with
            ring := toHw.1.modify first (bdSetId none)
            stopped := true
            freed := lp.freed ++ [skb.addr]
            wasReset := true }, xstFailure)
      else ({ lp with ring := toHw.1 }, xstSuccess)
  else ({ lp with freed := lp.freed ++ [skb.addr] }, xstFailure)

/-- The inner loop of the bottom half: each descriptor gives up its buffer. -/
def freeLoop : Nat → BdRing → Nat → BdRing × List Nat
  | 0, r, _ => (r, [])
  | n + 1, r, bd =>
    let rest := freeLoop n (r.modify bd (bdSetId none)) (r.next bd)
    (rest.1, (r.bd bd).id.toList ++ rest.2)

/-- One round of the loop of `DmaSendHandlerBH_netdev`, for `n` descriptors
    taken back. -/
def bhRound (lp : NetLocal) : NetLocal :=
  let fromHw := bdRingFromHw lp.ring txBdNum
  let freed := freeLoop fromHw.2 fromHw.1 lp.ring.hwHead
  let free := bdRingFree freed.1 fromHw.2 lp.ring.hwHead
  if free.2 ≠ xstSuccess then
    { lp with ring := free.1, freed := lp.freed ++ freed.2, wasReset := true, bh := none }
  else { lp with ring := free.1, freed := lp.freed ++ freed.2, bh := some fromHw.2 }

/-- What `DmaSendHandlerBH_netdev` does after its loop. -/
def bhFinish (lp : NetLocal) (save : Nat) : NetLocal :=
  let sent : NetLocal × Int :=
    match lp.deferred with
    | some skb =>
      if save ≠ 0 then axiDmaSendInternal { lp with deferred := none } skb else (lp, xstSuccess)
    | none => (lp, xstSuccess)
  if sent.2 = xstSuccess then { sent.1 with stopped := false, bh := none }
  else { sent.1 with bh := none }

/-- A step of the stack above, of the hardware or of the bottom half. -/
inductive Event
  | send (skb : SkBuff)
  | complete (i : Nat)
  | bhStart (garbage : Nat)
  | bhRound
  | bhFinish

/-- One step, `none` when the event cannot happen now. The loop of the bottom
    half goes on as long as descriptors come back. -/
def step (s : NetLocal) : Event → Option NetLocal
  | .send skb =>
    if s.stopped = false ∧ s.bh = none then
      some { (axiDmaSendInternal s skb).1 with accepted := s.accepted ++ [skb.addr] }
    else none
  | .complete i =>
    if NextToComplete s.ring i then some { s with ring := completeBd s.ring i false } else none
  | .bhStart garbage => if s.bh = none then some { s with bh := some garbage } else none
  | .bhRound =>
    if s.bh ≠ none ∧ (bdRingFromHw s.ring txBdNum).2 ≠ 0 then some (bhRound s) else none
  | .bhFinish =>
    match s.bh with
    | some save => if (bdRingFromHw s.ring txBdNum).2 = 0 then some (bhFinish s save) else none
    | none => none

/-- Whether the slot holds the buffer. -/
def slotCount (deferred : Option SkBuff) (k : Nat) : Nat :=
  if deferred.map SkBuff.addr = some k then 1 else 0

/-- Each accepted buffer is in exactly one place: a descriptor, the slot, or
    freed. -/
def Placed (s : NetLocal) : Prop :=
  ∀ k, k ∈ s.accepted → holders s.ring k + slotCount s.deferred k + s.freed.count k = 1

/-- If there is room for a buffer, what is built for it is accepted. -/
def Commits (r : BdRing) (skb : SkBuff) : Prop :=
  (bdRingAlloc r (totalFrags skb)).2 = xstSuccess →
    (bdRingToHw (buildFrame (bdRingAlloc r (totalFrags skb)).1 r.freeHead skb) (totalFrags skb)
      r.freeHead).2 = xstSuccess

/-- The stack hands over buffers it owns, and the ring accepts what is built. -/
def Assumed (s : NetLocal) : Event → Prop
  | .send skb => skb.addr ∉ s.accepted ∧ Commits s.ring skb
  | .bhFinish => ∀ skb, s.deferred = some skb → Commits s.ring skb
  | _ => True

/-- A bottom half that ends with a buffer in the slot has a count of processed
    descriptors that is not zero. -/
def SlotSeen (s : NetLocal) : Event → Prop
  | .bhFinish => s.deferred ≠ none → s.bh ≠ some 0
  | _ => True

section Build

theorem writeFrags_toGroups (frags : List (Nat × Nat)) : ∀ (r : BdRing) (bd : Nat),
    (writeFrags frags r bd).1.toGroups = r.toGroups := by
  induction frags with
  | nil => intro r bd; rfl
  | cons frag frags ih => intro r bd; exact ih _ _

theorem writeFrags_last (frags : List (Nat × Nat)) : ∀ (r : BdRing) (bd : Nat),
    (writeFrags frags r bd).2 = r.nth bd frags.length := by
  induction frags with
  | nil => intro r bd; rfl
  | cons frag frags ih => intro r bd; exact ih _ _

/-- The loop writes the descriptors behind the one it starts at. -/
theorem writeFrags_bd_outside (frags : List (Nat × Nat)) : ∀ (r : BdRing) (bd j : Nat),
    (∀ i, i < frags.length → j ≠ r.nth bd (i + 1)) →
      (writeFrags frags r bd).1.bd j = r.bd j := by
  induction frags with
  | nil => intro r bd j _; rfl
  | cons frag frags ih =>
      intro r bd j hout
      simp only [writeFrags]
      rw [ih _ (r.next bd) j]
      · exact r.modify_bd_of_ne _ (hout 0 (Nat.zero_lt_succ _))
      · intro i hi
        exact hout (i + 1) (Nat.succ_lt_succ hi)

/-- The loop takes IDs away and never gives one. -/
theorem writeFrags_id_or (frags : List (Nat × Nat)) : ∀ (r : BdRing) (bd j : Nat),
    ((writeFrags frags r bd).1.bd j).id = (r.bd j).id ∨
      ((writeFrags frags r bd).1.bd j).id = none := by
  induction frags with
  | nil => intro r bd j; exact Or.inl rfl
  | cons frag frags ih =>
      intro r bd j
      simp only [writeFrags]
      by_cases hj : j = r.next bd
      · refine Or.inr ?_
        subst hj
        rcases ih (r.modify (r.next bd) _) (r.next bd) (r.next bd) with h | h
        · rw [h, r.modify_bd_self]
          rfl
        · exact h
      · have hone := r.modify_bd_of_ne (fun b =>
          bdSetCtrl false false (bdSetId none (setBuffer r frag.1 frag.2 b))) hj
        have h := ih (r.modify (r.next bd) fun b =>
          bdSetCtrl false false (bdSetId none (setBuffer r frag.1 frag.2 b))) (r.next bd) j
        rw [hone] at h
        exact h

/-- The descriptors of the fragments carry no ID. -/
theorem writeFrags_id (frags : List (Nat × Nat)) : ∀ (r : BdRing) (bd i : Nat),
    i < frags.length → ((writeFrags frags r bd).1.bd (r.nth bd (i + 1))).id = none := by
  induction frags with
  | nil => intro r bd i hi; exact absurd hi (Nat.not_lt_zero i)
  | cons frag frags ih =>
      intro r bd i hi
      cases i with
      | zero =>
          -- A later pass over the same descriptor would not give it one either.
          rcases writeFrags_id_or frags (r.modify (r.next bd) fun b =>
            bdSetCtrl false false (bdSetId none (setBuffer r frag.1 frag.2 b)))
            (r.next bd) (r.next bd) with h | h
          · refine h.trans ?_
            rw [r.modify_bd_self]
            rfl
          · exact h
      | succ i => exact ih _ (r.next bd) i (Nat.lt_of_succ_lt_succ hi)

theorem markFrame_toGroups (r : BdRing) (first last : Nat) :
    (markFrame r first last).toGroups = r.toGroups := by
  unfold markFrame
  split <;> rfl

theorem markFrame_id (r : BdRing) (first last j : Nat) :
    ((markFrame r first last).bd j).id = (r.bd j).id := by
  have hctrl : ∀ (sof eof : Bool) (b : Bd), (bdSetCtrl sof eof b).id = b.id := fun _ _ _ => rfl
  unfold markFrame
  split
  · exact modify_id _ _ (hctrl _ _) j
  · rw [modify_id _ _ (hctrl _ _), modify_id _ _ (hctrl _ _)]

theorem markFrame_bd_of_ne (r : BdRing) {first last j : Nat} (hfirst : j ≠ first)
    (hlast : j ≠ last) : (markFrame r first last).bd j = r.bd j := by
  unfold markFrame
  split
  · exact r.modify_bd_of_ne _ hlast
  · rw [BdRing.modify_bd_of_ne _ _ hlast, BdRing.modify_bd_of_ne _ _ hfirst]

theorem buildFrame_toGroups (r : BdRing) (first : Nat) (skb : SkBuff) :
    (buildFrame r first skb).toGroups = r.toGroups := by
  unfold buildFrame
  rw [markFrame_toGroups, writeFrags_toGroups]
  rfl

/-- Building a frame writes the descriptors of its set only. -/
theorem buildFrame_bd_outside (r : BdRing) (first : Nat) (skb : SkBuff) {j : Nat}
    (hout : ∀ i, i < totalFrags skb → j ≠ r.nth first i) :
    (buildFrame r first skb).bd j = r.bd j := by
  have hhead : j ≠ first := hout 0 (Nat.succ_pos _)
  unfold buildFrame
  rw [markFrame_bd_of_ne _ hhead, writeFrags_bd_outside]
  · exact r.modify_bd_of_ne _ hhead
  · intro i hi
    exact hout (i + 1) (Nat.succ_lt_succ hi)
  · rw [writeFrags_last]
    exact hout skb.frags.length (Nat.lt_succ_self _)

/-- The first descriptor of a frame carries the buffer and the others nothing. -/
theorem buildFrame_ids (r : BdRing) {first : Nat} (skb : SkBuff) (hfirst : first < r.allCnt)
    (hfew : totalFrags skb ≤ r.allCnt) :
    idsFrom (buildFrame r first skb) first (totalFrags skb) =
      some skb.addr :: List.replicate skb.frags.length none := by
  have hnth : ∀ i, (buildFrame r first skb).nth first i = r.nth first i :=
    Groups.nth_congr (by rw [buildFrame_toGroups]) first
  unfold totalFrags at hfew
  unfold idsFrom totalFrags
  rw [List.range_succ_eq_map, List.map_cons, List.map_map, hnth]
  congr 1
  · -- Within one turn no fragment comes back to the first descriptor.
    unfold buildFrame
    rw [markFrame_id, writeFrags_bd_outside]
    · change ((writeHead r first skb).bd first).id = _
      unfold writeHead
      rw [r.modify_bd_self]
      rfl
    · intro i hi heq
      have hturn : 0 = i + 1 := r.nth_inj hfirst (by omega) (by omega) heq
      omega
  · refine List.eq_replicate_iff.mpr ⟨by rw [List.length_map, List.length_range], ?_⟩
    intro o ho
    rcases List.mem_map.mp ho with ⟨i, hi, rfl⟩
    rw [Function.comp_apply, hnth]
    unfold buildFrame
    rw [markFrame_id]
    exact writeFrags_id skb.frags (writeHead r first skb) first i (List.mem_range.mp hi)

theorem buildFrame_filled {r : BdRing} (skb : SkBuff) (hroom : totalFrags skb ≤ r.freeCnt) :
    Filled r (totalFrags skb) (buildFrame (allocated r (totalFrags skb)) r.freeHead skb) :=
  ⟨Nat.succ_pos _, hroom, buildFrame_toGroups _ _ _, fun _ hout =>
    buildFrame_bd_outside (allocated r (totalFrags skb)) r.freeHead skb hout⟩

end Build

/-- The ring between two steps: no set is left half way, and only descriptors
    with the hardware carry a buffer. -/
structure Tidy (r : BdRing) : Prop where
  wf : r.Wf
  pre : r.preCnt = 0
  post : r.postCnt = 0
  outside : ∀ b, b < r.allCnt → ¬ InHw r b → (r.bd b).id = none

section Send

variable {r : BdRing} {skb : SkBuff} (h : Tidy r) (hroom : totalFrags skb ≤ r.freeCnt)
  (hok : (bdRingToHw (buildFrame (allocated r (totalFrags skb)) r.freeHead skb) (totalFrags skb)
    r.freeHead).2 = xstSuccess)

include h hroom hok

/-- A frame that is handed over is at the end of the queue. -/
theorem hwIds_sent :
    hwIds (bdRingToHw (buildFrame (allocated r (totalFrags skb)) r.freeHead skb) (totalFrags skb)
      r.freeHead).1 = hwIds r ++ some skb.addr :: List.replicate skb.frags.length none := by
  have hc := h.wf.counts
  have hpos : 0 < totalFrags skb := Nat.succ_pos _
  rw [hwIds_toHw h.wf (buildFrame_filled skb hroom) hpos (Nat.le_refl _) hok]
  congr 1
  have hfirst : r.freeHead < (allocated r (totalFrags skb)).allCnt := h.wf.freeHead_lt
  have hfew : totalFrags skb ≤ (allocated r (totalFrags skb)).allCnt := by
    change totalFrags skb ≤ r.allCnt
    omega
  exact buildFrame_ids (allocated r (totalFrags skb)) skb hfirst hfew

theorem tidy_sent :
    Tidy (bdRingToHw (buildFrame (allocated r (totalFrags skb)) r.freeHead skb) (totalFrags skb)
      r.freeHead).1 := by
  have hfill := buildFrame_filled skb hroom
  have hpos : 0 < totalFrags skb := Nat.succ_pos _
  have hg := Filled.toHw_groups h.wf hfill hpos hok
  have hbuilt : (buildFrame (allocated r (totalFrags skb)) r.freeHead skb).Wf := by
    have hwf := bdRingAlloc_wf (totalFrags skb) h.wf
    rw [alloc_eq_allocated hpos hroom] at hwf
    rw [buildFrame_toGroups]
    exact hwf
  refine ⟨bdRingToHw_wf hpos _ hbuilt, ?_, ?_, ?_⟩
  · rw [hg]
    exact Nat.sub_self _
  · rw [hg]
    exact h.post
  · intro b hb hno
    have hall : (bdRingToHw (buildFrame (allocated r (totalFrags skb)) r.freeHead skb)
        (totalFrags skb) r.freeHead).1.allCnt = r.allCnt := by
      rw [hg]
      rfl
    have hfree : r.freeHead = r.nth r.hwHead r.hwCnt := by
      have hnth := h.wf.freeHead_eq_nth (by omega)
      rw [h.pre] at hnth
      exact hnth
    rw [hall] at hb
    -- The descriptors with the hardware are the old ones and then the set.
    have hin : ∀ j, j < r.hwCnt + totalFrags skb → b ≠ r.nth r.hwHead j := by
      intro j hj heq
      refine hno ⟨j, ?_, ?_⟩
      · rw [hg]
        exact hj
      · rw [Groups.nth_congr hall, hg]
        exact heq
    rw [bdRingToHw_id, hfill.outside]
    · exact h.outside b hb fun ⟨j, hj, heq⟩ => hin j (by omega) heq
    · intro i hi
      rw [hfree, ← r.nth_add]
      exact hin _ (by omega)

end Send

/-- Where a buffer is: with the hardware, in the slot, or freed. -/
def places (s : NetLocal) (k : Nat) : Nat :=
  (hwIds s.ring).count (some k) + slotCount s.deferred k + s.freed.count k

/-- What sending a buffer does to a device with an empty slot: the buffer gets
    one place, and if that is the slot, the queue is stopped. -/
structure Sent (lp : NetLocal) (skb : SkBuff) (lp' : NetLocal) (res : Int) : Prop where
  tidy : Tidy lp'.ring
  placed : ∀ k, places lp' k = places lp k + if skb.addr = k then 1 else 0
  slot : lp'.deferred ≠ none → lp'.stopped = true ∧ res ≠ xstSuccess
  accepted : lp'.accepted = lp.accepted
  wasReset : lp'.wasReset = lp.wasReset

theorem count_sent (ids : List (Option Nat)) (a n k : Nat) :
    (ids ++ some a :: List.replicate n none).count (some k) =
      ids.count (some k) + if a = k then 1 else 0 := by
  have hnone : (List.replicate n (none : Option Nat)).count (some k) = 0 :=
    List.count_eq_zero.mpr fun hmem => absurd (List.eq_of_mem_replicate hmem)
      (by simp only [reduceCtorEq, not_false_eq_true])
  rw [List.count_append, List.count_cons, hnone, Nat.zero_add]
  by_cases hk : a = k
  · simp only [hk, BEq.rfl, if_true]
  · have hne : (some a == some k) = false := by
      rw [beq_eq_false_iff_ne]
      exact fun heq => hk (Option.some.inj heq)
    rw [hne, if_neg hk, if_neg Bool.false_ne_true]

/-- Sending with an empty slot gives the buffer one place. -/
theorem axiDmaSendInternal_sent {lp : NetLocal} {skb : SkBuff} (h : Tidy lp.ring)
    (hslot : lp.deferred = none) (hcommit : Commits lp.ring skb) :
    Sent lp skb (axiDmaSendInternal lp skb).1 (axiDmaSendInternal lp skb).2 := by
  have hfail : xstFailure ≠ xstSuccess := by decide
  unfold axiDmaSendInternal
  by_cases hfew : totalFrags skb < txBdNum
  · rw [if_pos hfew]
    rcases bdRingAlloc_spec lp.ring (totalFrags skb) with
      ⟨hpos, hroom, hok, heq⟩ | ⟨-, hbad, -⟩
    · have hhw := hcommit hok
      rw [heq] at hhw
      simp only [hok, heq, hhw, ne_eq, not_true_eq_false, if_false]
      refine ⟨tidy_sent h hroom hhw, ?_, ?_, rfl, rfl⟩
      · intro k
        simp only [places, hwIds_sent h hroom hhw, count_sent]
        omega
      · intro hne
        exact absurd hslot hne
    · -- No room: the buffer goes into the slot.
      simp only [hbad, ne_eq, not_false_eq_true, if_true]
      refine ⟨h, ?_, fun _ => ⟨rfl, hbad⟩, rfl, rfl⟩
      intro k
      simp only [places, slotCount, hslot, Option.map_some, Option.map_none, Option.some.injEq,
        reduceCtorEq, if_false]
      omega
  · -- Too many fragments: the buffer is dropped.
    rw [if_neg hfew]
    refine ⟨h, ?_, fun hne => absurd hslot hne, rfl, rfl⟩
    intro k
    simp only [places, count_append_singleton]
    omega

section Free

/-- What the inner loop does to the ring. -/
theorem freeLoop_ring : ∀ (n : Nat) (r : BdRing) (bd : Nat),
    (freeLoop n r bd).1 = clearIds n r bd := by
  intro n
  induction n with
  | zero => intro r bd; rfl
  | succ n ih => intro r bd; exact ih _ _

/-- The buffers freed are those the descriptors carry, each as often. -/
theorem freeLoop_count (k : Nat) : ∀ (n : Nat) (r : BdRing) (bd : Nat),
    bd < r.allCnt → n ≤ r.allCnt →
      (freeLoop n r bd).2.count k = (idsFrom r bd n).count (some k) := by
  intro n
  induction n with
  | zero => intro r bd _ _; rfl
  | succ n ih =>
      intro r bd hbd hn
      have hfew : n ≤ r.allCnt := by omega
      -- The passes that follow do not come back to this descriptor.
      have hrest := ih (r.modify bd (bdSetId none)) (r.next bd) (r.next_lt hbd) hfew
      rw [idsFrom_next_cleared r hbd hn] at hrest
      simp only [freeLoop]
      rw [idsFrom_succ, List.count_append, List.count_cons, hrest]
      cases (r.bd bd).id with
      | none => simp only [Option.toList_none, List.count_nil, reduceCtorEq, beq_iff_eq,
          if_false, Nat.zero_add, Nat.add_zero]
      | some a => simp only [Option.toList_some, List.count_singleton, beq_iff_eq,
          Option.some.injEq, Nat.add_comm]

/-- A round of the bottom half, which never fails to free what came back. -/
theorem bhRound_eq {s : NetLocal} (h : Tidy s.ring) :
    bhRound s = { s with
      ring := (roundRing s.ring txBdNum).1
      freed := s.freed ++ (freeLoop (bdRingFromHw s.ring txBdNum).2
        (bdRingFromHw s.ring txBdNum).1 s.ring.hwHead).2
      bh := some (bdRingFromHw s.ring txBdNum).2 } := by
  have hok := (roundRing_spec h.wf h.post txBdNum).1
  unfold roundRing at hok ⊢
  unfold bhRound
  simp only [freeLoop_ring, hok, ne_eq, not_true_eq_false, if_false]

theorem tidy_round {r : BdRing} (h : Tidy r) : Tidy (roundRing r txBdNum).1 := by
  rcases roundRing_spec h.wf h.post txBdNum with ⟨-, -, hg⟩
  have hall : (roundRing r txBdNum).1.allCnt = r.allCnt := by
    rw [hg]
    exact bdRingFromHw_allCnt r txBdNum
  refine ⟨roundRing_wf h.wf txBdNum, ?_, ?_, ?_⟩
  · rw [hg, (bdRingFromHw_spec r txBdNum).2]
    exact h.pre
  · rw [hg]
  · rw [hall]
    exact roundRing_outside h.wf h.post txBdNum h.outside

/-- A round moves buffers from the ring to the freed ones. -/
theorem round_count {r : BdRing} (h : Tidy r) (k : Nat) :
    (hwIds (roundRing r txBdNum).1).count (some k) +
      (freeLoop (bdRingFromHw r txBdNum).2 (bdRingFromHw r txBdNum).1 r.hwHead).2.count k =
        (hwIds r).count (some k) := by
  have hc := h.wf.counts
  have hle := (bdRingFromHw_spec r txBdNum).1
  have hall := bdRingFromHw_allCnt r txBdNum
  have hhead : r.hwHead < (bdRingFromHw r txBdNum).1.allCnt := by
    rw [hall]
    exact h.wf.hwHead_lt
  have htaken : idsFrom (bdRingFromHw r txBdNum).1 r.hwHead (bdRingFromHw r txBdNum).2 =
      (hwIds r).take (bdRingFromHw r txBdNum).2 := by
    rw [hwIds_take r hle]
    refine idsFrom_congr hall fun i _ => ?_
    rw [bdRingFromHw_bd]
  rw [freeLoop_count k _ _ _ hhead (by omega), htaken, hwIds_round h.wf h.post, Nat.add_comm,
    ← List.count_append, List.take_append_drop]

end Free

/-- What every step keeps while the slot is seen: the ring is tidy, a buffer in
    the slot means a stopped queue, and each accepted buffer has one place. -/
structure Kept (s : NetLocal) : Prop where
  tidy : Tidy s.ring
  slot : s.deferred ≠ none → s.stopped = true
  placed : ∀ k, places s k = s.accepted.count k
  fresh : s.accepted.Nodup
  running : s.wasReset = false

theorem init_kept : Kept NetLocal.init := by
  have hwf : NetLocal.init.ring.Wf := bdRingCreate_wf false (by decide : 0 < txBdNum)
  exact ⟨⟨hwf, rfl, rfl, fun _ _ _ => rfl⟩, fun h => absurd rfl h, fun _ => rfl,
    List.nodup_nil, rfl⟩

theorem kept_send {s : NetLocal} {skb : SkBuff} (h : Kept s) (hopen : s.stopped = false)
    (hnew : skb.addr ∉ s.accepted) (hcommit : Commits s.ring skb) :
    Kept { (axiDmaSendInternal s skb).1 with accepted := s.accepted ++ [skb.addr] } := by
  have hslot : s.deferred = none := by
    by_contra hne
    exact absurd (h.slot hne) (by rw [hopen]; exact Bool.false_ne_true)
  have hsent := axiDmaSendInternal_sent h.tidy hslot hcommit
  refine ⟨hsent.tidy, fun hne => (hsent.slot hne).1, ?_, ?_, hsent.wasReset.trans h.running⟩
  · intro k
    rw [count_append_singleton, ← h.placed k]
    exact hsent.placed k
  · rw [List.nodup_append]
    refine ⟨h.fresh, List.nodup_singleton _, ?_⟩
    intro a ha b hb heq
    rw [List.mem_singleton] at hb
    rw [heq, hb] at ha
    exact hnew ha

theorem kept_complete {s : NetLocal} (h : Kept s) (i : Nat) :
    Kept { s with ring := completeBd s.ring i false } := by
  refine ⟨⟨h.tidy.wf, h.tidy.pre, h.tidy.post, ?_⟩, h.slot, ?_, h.fresh, h.running⟩
  · intro b hb hno
    rw [completeBd_id]
    exact h.tidy.outside b hb hno
  · intro k
    rw [← h.placed k]
    unfold places
    rw [hwIds_completeBd]

theorem kept_bhRound {s : NetLocal} (h : Kept s) : Kept (bhRound s) := by
  rw [bhRound_eq h.tidy]
  refine ⟨tidy_round h.tidy, h.slot, ?_, h.fresh, h.running⟩
  intro k
  have hcount := round_count h.tidy k
  have hplaced := h.placed k
  simp only [places, List.count_append] at hplaced ⊢
  omega

/-- A bottom half that sees the slot sends what is in it, and wakes the queue
    only if the slot is empty then. -/
theorem kept_bhFinish {s : NetLocal} {save : Nat} (h : Kept s)
    (hseen : s.deferred ≠ none → save ≠ 0)
    (hcommit : ∀ skb, s.deferred = some skb → Commits s.ring skb) : Kept (bhFinish s save) := by
  unfold bhFinish
  cases hd : s.deferred with
  | none =>
      simp only [if_true]
      exact ⟨h.tidy, fun hne => absurd hd hne, h.placed, h.fresh, h.running⟩
  | some skb =>
      have hsave : save ≠ 0 := hseen (by rw [hd]; simp only [ne_eq, reduceCtorEq,
        not_false_eq_true])
      have hempty : Tidy { s with deferred := none }.ring := h.tidy
      have hsent := axiDmaSendInternal_sent hempty rfl (hcommit skb hd)
      simp only [if_pos hsave]
      generalize axiDmaSendInternal { s with deferred := none } skb = sent at hsent
      -- The buffer has left the slot and has its place again.
      have hkept : ∀ stopped, (sent.1.deferred ≠ none → stopped = true) →
          Kept { sent.1 with stopped := stopped, bh := none } := by
        intro stopped hstop
        refine ⟨hsent.tidy, hstop, ?_, ?_, hsent.wasReset.trans h.running⟩
        · intro k
          change places sent.1 k = sent.1.accepted.count k
          rw [hsent.placed k, hsent.accepted]
          change _ = s.accepted.count k
          rw [← h.placed k]
          simp only [places, slotCount, hd, Option.map_some, Option.map_none, Option.some.injEq,
            reduceCtorEq, if_false]
          omega
        · change sent.1.accepted.Nodup
          rw [hsent.accepted]
          exact h.fresh
      split
      · rename_i hok
        exact hkept false fun hne => absurd hok (hsent.slot hne).2
      · exact hkept sent.1.stopped fun hne => (hsent.slot hne).1

/-- Every step keeps the places, as long as the bottom half sees the slot. -/
theorem step_kept {s t : NetLocal} {e : Event} (h : Kept s) (hc : Assumed s e ∧ SlotSeen s e)
    (hs : step s e = some t) : Kept t := by
  rcases hc with ⟨hassumed, hseen⟩
  cases e with
  | send skb =>
      simp only [step, Option.ite_none_right_eq_some, Option.some.injEq] at hs
      rcases hs with ⟨⟨hopen, -⟩, rfl⟩
      exact kept_send h hopen hassumed.1 hassumed.2
  | complete i =>
      simp only [step, Option.ite_none_right_eq_some, Option.some.injEq] at hs
      rcases hs with ⟨-, rfl⟩
      exact kept_complete h i
  -- Only the count of the bottom half is new.
  | bhStart garbage =>
      simp only [step, Option.ite_none_right_eq_some, Option.some.injEq] at hs
      rcases hs with ⟨-, rfl⟩
      exact ⟨h.tidy, h.slot, h.placed, h.fresh, h.running⟩
  | bhRound =>
      simp only [step, Option.ite_none_right_eq_some, Option.some.injEq] at hs
      rcases hs with ⟨-, rfl⟩
      exact kept_bhRound h
  | bhFinish =>
      simp only [step] at hs
      split at hs
      · rename_i save hbh
        simp only [Option.ite_none_right_eq_some, Option.some.injEq] at hs
        rcases hs with ⟨-, rfl⟩
        -- An occupied slot with a count of zero is what `SlotSeen` excludes.
        refine kept_bhFinish h ?_ hassumed
        intro hne hz
        exact hseen hne (by rw [hbh, hz])
      · exact absurd hs (by simp only [reduceCtorEq, not_false_eq_true])

theorem placed_of_kept {s : NetLocal} (h : Kept s) : Placed s := by
  intro k hk
  have hone := List.count_eq_one_of_mem h.fresh hk
  rw [← h.placed k] at hone
  rw [holders_eq_count h.tidy.wf h.tidy.outside]
  exact hone

/-- As long as no bottom half passes over an occupied slot, every buffer is in
    exactly one place in every state. -/
theorem run_placed {es : List Event} {s : NetLocal}
    (h : Run step (fun s e => Assumed s e ∧ SlotSeen s e) NetLocal.init es s) : Placed s :=
  placed_of_kept (run_inv (fun _ _ _ => step_kept) h init_kept)

section Lost

/-- A buffer of one descriptor. -/
def smallSkb (k : Nat) : SkBuff := ⟨k, 60, 0x1000, []⟩

/-- The device after `m` small buffers were sent and none has completed. -/
structure Filling (m : Nat) (s : NetLocal) : Prop where
  kept : Kept s
  accepted : s.accepted = List.range m
  room : s.ring.freeCnt + m = txBdNum
  slot : s.deferred = none
  running : s.stopped = false ∧ s.bh = none
  maxLen : s.ring.maxTransferLen = 0x7FFFFF
  idle : ∀ j, (s.ring.bd j).complete = false

theorem smallSkb_built (r : BdRing) (first k : Nat) :
    buildFrame r first (smallSkb k) =
      (writeHead r first (smallSkb k)).modify first (bdSetCtrl true true) := by
  unfold buildFrame markFrame
  exact if_pos rfl

/-- The one descriptor of a small buffer is ready for the hardware. -/
theorem smallSkb_hwReady {r : BdRing} (h : Tidy r) (hroom : 0 < r.freeCnt)
    (hmax : r.maxTransferLen = 0x7FFFFF) (k : Nat) :
    HwReady (buildFrame (allocated r 1) r.freeHead (smallSkb k)) 1 r.freeHead := by
  have hself := BdRing.modify_bd_self (writeHead (allocated r 1) r.freeHead (smallSkb k))
    r.freeHead (bdSetCtrl true true)
  rw [smallSkb_built]
  refine ⟨?_, (preHead_eq_freeHead_iff h.wf hroom).mpr h.pre, Or.inr ?_, Or.inr ?_, ?_⟩
  · exact Nat.le_add_left 1 r.preCnt
  · rw [hself]
    rfl
  · change ((BdRing.modify _ _ _).bd r.freeHead).eof = true
    rw [hself]
    rfl
  · intro i hi
    have hz : i = 0 := by omega
    subst hz
    change ((BdRing.modify _ _ _).bd r.freeHead).len ≠ 0
    rw [hself]
    unfold writeHead
    rw [BdRing.modify_bd_self]
    change (bdSetLength 60 r.maxTransferLen _).len ≠ 0
    rw [hmax]
    simp only [bdSetLength]
    rw [if_neg (by omega)]
    simp only [ne_eq, OfNat.ofNat_ne_zero, not_false_eq_true]

theorem smallSkb_commits {r : BdRing} (h : Tidy r) (hmax : r.maxTransferLen = 0x7FFFFF)
    (k : Nat) : Commits r (smallSkb k) := by
  intro hok
  rcases bdRingAlloc_spec r (totalFrags (smallSkb k)) with ⟨hpos, hroom, -, heq⟩ | ⟨-, hbad, -⟩
  · rw [heq]
    rcases bdRingToHw_spec (buildFrame (allocated r 1) r.freeHead (smallSkb k)) Nat.one_pos
      r.freeHead with ⟨-, hres, -⟩ | ⟨hno, -, -⟩
    · exact hres
    · exact absurd (smallSkb_hwReady h (by omega) hmax k) hno
  · exact absurd hok hbad

/-- A change that leaves completed bits alone. -/
theorem modify_complete (r : BdRing) (i : Nat) {f : Bd → Bd}
    (hf : ∀ b, (f b).complete = b.complete) (j : Nat) :
    ((r.modify i f).bd j).complete = (r.bd j).complete := by
  by_cases hj : j = i
  · rw [hj, r.modify_bd_self, hf]
  · rw [r.modify_bd_of_ne _ hj]

theorem setBuffer_complete (r : BdRing) (len addr : Nat) (b : Bd) :
    (setBuffer r len addr b).complete = b.complete := by
  unfold setBuffer bdSetLength bdSetBufAddr
  split
  · simp only
    split <;> rfl
  · simp only
    split <;> rfl

theorem smallSkb_complete (r : BdRing) (first k j : Nat) :
    ((buildFrame r first (smallSkb k)).bd j).complete = (r.bd j).complete := by
  have hctrl : ∀ b, (bdSetCtrl true true b).complete = b.complete := fun _ => rfl
  have hhead : ∀ b, (bdSetId (some k) (setBuffer r 60 0x1000 b)).complete = b.complete :=
    setBuffer_complete r 60 0x1000
  rw [smallSkb_built, modify_complete _ _ hctrl]
  exact modify_complete r first hhead j

/-- One more small buffer while there is room. -/
theorem filling_send {m : Nat} {s : NetLocal} (h : Filling m s) (hm : m < txBdNum) :
    ∃ t, step s (.send (smallSkb m)) = some t ∧ Assumed s (.send (smallSkb m)) ∧
      Filling (m + 1) t := by
  have hcommit := smallSkb_commits h.kept.tidy h.maxLen m
  have hnew : (smallSkb m).addr ∉ s.accepted := by
    rw [h.accepted, List.mem_range]
    exact Nat.lt_irrefl m
  have hroom : 1 ≤ s.ring.freeCnt := by
    have := h.room
    omega
  -- The ring has room, so neither the allocation nor the handover can be refused, and the
  -- packet is counted by what is left of the free group.
  have halloc : (bdRingAlloc s.ring 1).2 = xstSuccess ∧
      (bdRingAlloc s.ring 1).1 = allocated s.ring 1 := by
    rcases bdRingAlloc_spec s.ring 1 with ⟨-, -, hok, heq⟩ | ⟨hno, -, -⟩
    · exact ⟨hok, heq⟩
    · exact absurd ⟨Nat.one_pos, hroom⟩ hno
  have hhw := hcommit halloc.1
  have hkept := kept_send h.kept h.running.1 hnew hcommit
  change (bdRingToHw (buildFrame (bdRingAlloc s.ring 1).1 s.ring.freeHead (smallSkb m)) 1
    s.ring.freeHead).2 = xstSuccess at hhw
  rw [halloc.2] at hhw
  have hsent : (axiDmaSendInternal s (smallSkb m)).1 = { s with
      ring := (bdRingToHw (buildFrame (allocated s.ring 1) s.ring.freeHead (smallSkb m)) 1
        s.ring.freeHead).1 } := by
    unfold axiDmaSendInternal
    have hfrags : totalFrags (smallSkb m) = 1 := rfl
    have hfew : 1 < txBdNum := by decide
    simp only [hfrags, if_pos hfew, halloc, hhw, ne_eq, not_true_eq_false, if_false]
  have hfill : Filled s.ring 1 (buildFrame (allocated s.ring 1) s.ring.freeHead (smallSkb m)) :=
    buildFrame_filled (smallSkb m) hroom
  have hg := Filled.toHw_groups h.kept.tidy.wf hfill Nat.one_pos hhw
  refine ⟨_, by simp only [step]; exact if_pos h.running, ⟨hnew, hcommit⟩, ?_⟩
  rw [hsent] at hkept ⊢
  refine ⟨hkept, ?_, ?_, h.slot, h.running, ?_, ?_⟩
  · change s.accepted ++ [m] = List.range (m + 1)
    rw [h.accepted, List.range_succ]
  · change (BdRing.toGroups (bdRingToHw _ _ _).1).freeCnt + (m + 1) = txBdNum
    rw [hg]
    have := h.room
    change s.ring.freeCnt - 1 + (m + 1) = txBdNum
    omega
  · refine (bdRingToHw_maxTransferLen _ _ _).trans ?_
    rw [smallSkb_built]
    exact h.maxLen
  -- The handover clears the completion bit of some descriptors and sets none.
  · intro j
    rcases bdRingToHw_bd (buildFrame (allocated s.ring 1) s.ring.freeHead (smallSkb m)) 1
      s.ring.freeHead j with heq | heq
    · change (BdRing.bd (bdRingToHw _ _ _).1 j).complete = false
      rw [heq, smallSkb_complete]
      exact h.idle j
    · change (BdRing.bd (bdRingToHw _ _ _).1 j).complete = false
      rw [heq]
      rfl

theorem init_filling : Filling 0 NetLocal.init :=
  ⟨init_kept, rfl, rfl, rfl, ⟨rfl, rfl⟩, rfl, fun _ => rfl⟩

/-- The ring can be filled with small buffers. -/
theorem filling_run : ∀ m, m ≤ txBdNum →
    ∃ es s, Run step Assumed NetLocal.init es s ∧ Filling m s := by
  intro m
  induction m with
  | zero => intro _; exact ⟨[], _, Run.nil _, init_filling⟩
  | succ m ih =>
      intro hm
      rcases ih (by omega) with ⟨es, s, hrun, hfill⟩
      rcases filling_send hfill (by omega) with ⟨t, hstep, hc, hfill'⟩
      exact ⟨_, t, run_append hrun (Run.cons _ _ _ _ _ hstep hc (Run.nil _)), hfill'⟩

/-- A small buffer that finds no room takes the slot, whatever is in it. -/
theorem axiDmaSendInternal_full (s : NetLocal) (hfull : s.ring.freeCnt = 0) (k : Nat) :
    (axiDmaSendInternal s (smallSkb k)).1 =
      { s with stopped := true, deferred := some (smallSkb k) } := by
  have hbad : (bdRingAlloc s.ring 1).2 ≠ xstSuccess := by
    rcases bdRingAlloc_spec s.ring 1 with ⟨-, hroom, -, -⟩ | ⟨-, hbad, -⟩
    · omega
    · exact hbad
  have hfrags : totalFrags (smallSkb k) = 1 := rfl
  have hfew : 1 < txBdNum := by decide
  unfold axiDmaSendInternal
  simp only [hfrags, if_pos hfew, hbad, ne_eq, not_false_eq_true, if_true]

/-- A buffer that is sent, completes and is freed by a bottom half. -/
theorem run_placed_small :
    ∃ s, Run step (fun s e => Assumed s e ∧ SlotSeen s e) NetLocal.init
      [.send (smallSkb 0), .bhStart 0, .complete 0, .bhRound, .bhFinish] s ∧
      s.freed = [0] ∧ Placed s := by
  have hcommit := smallSkb_commits init_kept.tidy rfl 0
  have hempty : ∀ s : NetLocal, s.deferred = none →
      Assumed s .bhFinish ∧ SlotSeen s .bhFinish := by
    intro s hs
    refine ⟨fun skb h => ?_, fun h => absurd hs h⟩
    rw [hs] at h
    exact absurd h (by simp only [reduceCtorEq, not_false_eq_true])
  have hrun : ∃ s, Run step (fun s e => Assumed s e ∧ SlotSeen s e) NetLocal.init
      [.send (smallSkb 0), .bhStart 0, .complete 0, .bhRound, .bhFinish] s ∧ s.freed = [0] :=
    ⟨_, Run.cons _ _ _ _ _ rfl ⟨⟨List.not_mem_nil, hcommit⟩, trivial⟩
      (Run.cons _ _ _ _ _ rfl ⟨trivial, trivial⟩ (Run.cons _ _ _ _ _ rfl ⟨trivial, trivial⟩
      (Run.cons _ _ _ _ _ rfl ⟨trivial, trivial⟩ (Run.cons _ _ _ _ _ rfl (hempty _ rfl)
      (Run.nil _))))), rfl⟩
  rcases hrun with ⟨s, hrun, hfreed⟩
  exact ⟨s, hrun, hfreed, run_placed hrun⟩

/-- With the ring full, a buffer goes into the slot, a bottom half that finds
    nothing completed and reads zero wakes the queue, and the next buffer takes
    the slot. -/
theorem slot_taken_twice {s : NetLocal} (h : Filling txBdNum s) :
    Run step Assumed s
      [.send (smallSkb txBdNum), .bhStart 0, .bhFinish, .send (smallSkb (txBdNum + 1))]
      { s with
        stopped := true
        deferred := some (smallSkb (txBdNum + 1))
        bh := none
        accepted := s.accepted ++ [txBdNum] ++ [txBdNum + 1] } := by
  have hfull : s.ring.freeCnt = 0 := by
    have := h.room
    omega
  have hidle := bdRingFromHw_of_idle txBdNum (h.idle s.ring.hwHead)
  have hcommit := smallSkb_commits h.kept.tidy h.maxLen
  refine Run.cons s { s with
    stopped := true, deferred := some (smallSkb txBdNum)
    accepted := s.accepted ++ [txBdNum] } _ _ _ ?_ ⟨?_, hcommit _⟩ ?_
  · simp only [step, if_pos h.running, axiDmaSendInternal_full s hfull]
    rfl
  · rw [h.accepted, List.mem_range]
    exact Nat.lt_irrefl txBdNum
  refine Run.cons _ { s with
    stopped := true, deferred := some (smallSkb txBdNum), bh := some 0
    accepted := s.accepted ++ [txBdNum] } _ _ _ ?_ trivial ?_
  · simp only [step]
    exact if_pos h.running.2
  let woken : NetLocal := { s with
    stopped := false, deferred := some (smallSkb txBdNum), bh := none
    accepted := s.accepted ++ [txBdNum] }
  refine Run.cons _ woken _ _ _ ?_ ?_ ?_
  · -- The count is zero, so the slot is passed over.
    simp only [step, hidle, if_true, bhFinish, ne_eq, not_true_eq_false, if_false]
    rfl
  · intro skb hskb
    rw [← Option.some.inj hskb]
    exact hcommit _
  refine Run.cons _ _ _ _ _ ?_ ⟨?_, hcommit _⟩ (Run.nil _)
  · have hsend := axiDmaSendInternal_full woken hfull (txBdNum + 1)
    simp only [step, hsend]
    rfl
  · change txBdNum + 1 ∉ s.accepted ++ [txBdNum]
    rw [h.accepted, ← List.range_succ, List.mem_range]
    exact Nat.lt_irrefl _

/-- The buffer that was in the slot is nowhere any more. -/
theorem unseen_slot_loses_skb :
    ∃ es s, Run step Assumed NetLocal.init es s ∧ txBdNum ∈ s.accepted ∧
      holders s.ring txBdNum + slotCount s.deferred txBdNum + s.freed.count txBdNum = 0 ∧
      ¬ Placed s := by
  rcases filling_run txBdNum (Nat.le_refl _) with ⟨es, s, hrun, h⟩
  -- It was never anywhere but in the slot.
  have hzero : holders s.ring txBdNum + s.freed.count txBdNum = 0 := by
    have hplaces := h.kept.placed txBdNum
    have hnot : txBdNum ∉ List.range txBdNum := by
      rw [List.mem_range]
      exact Nat.lt_irrefl _
    rw [h.accepted, List.count_eq_zero.mpr hnot] at hplaces
    rw [holders_eq_count h.kept.tidy.wf h.kept.tidy.outside]
    unfold places at hplaces
    omega
  have hslot : slotCount (some (smallSkb (txBdNum + 1))) txBdNum = 0 := by
    unfold slotCount
    exact if_neg fun heq => absurd (Option.some.inj heq) (Nat.succ_ne_self txBdNum)
  have hmem : txBdNum ∈ s.accepted ++ [txBdNum] ++ [txBdNum + 1] :=
    List.mem_append_left _ (List.mem_append_right _ (List.mem_singleton_self _))
  have hnowhere : holders s.ring txBdNum + slotCount (some (smallSkb (txBdNum + 1))) txBdNum +
      s.freed.count txBdNum = 0 := by omega
  refine ⟨_, _, run_append hrun (slot_taken_twice h), hmem, hnowhere, ?_⟩
  intro hplaced
  have hone := hplaced txBdNum hmem
  exact absurd (hnowhere.symm.trans hone) (by decide)

end Lost

end Eth

end Driver

end Ml605
