import Ml605.Driver.AesDma

/-!
# Posting a Buffer

When `_aes_desc_to_hw` succeeds. It allocates as many descriptors as the buffer
has entries, writes one for each segment its loop visits and hands them to the
hardware. The setters it uses refuse a length of zero or beyond the limit of
the engine and leave the old length in place, and nothing in the driver looks
at their status. What decides is `XAxiDma_BdRingToHw`, which rejects a set with
an empty descriptor, and a set that does not start where the pre-processing
group does.

A rejected set stays in the pre-processing group: the driver never calls
`XAxiDma_BdRingUnAlloc`. From then on every later set starts behind it and is
rejected as well.

## Main definitions

* `Accepts`: What a posting asks of the ring and of the buffer.

## Theorems

* `fillBds_bd_nth`: What the loop leaves in the descriptors it visits.
* `postBuf_ok_iff`: A posting succeeds exactly when the ring accepts the buffer.
* `postBuf_wf`: A posting keeps the groups of the ring in order.
-/

namespace Ml605

namespace Driver

/-- What a posting asks of the ring and of the buffer: the buffer has entries,
    there is room for them, no earlier set was left in the pre-processing group,
    and every descriptor written ends up with a length, be it an old one. -/
structure Accepts (r : BdRing) (buf : DmaBuf) : Prop where
  entries : 0 < dmaBufCnt buf
  room : dmaBufCnt buf ≤ r.freeCnt
  noneLeft : r.preCnt = 0
  lens : ∀ (i : Nat) (seg : Nat × Nat), (bufSegs buf)[i]? = some seg →
    (0 < seg.1 ∧ seg.1 ≤ r.maxTransferLen) ∨ (r.bd (r.nth r.freeHead i)).len ≠ 0

section Write

@[simp]
theorem writeBd_toGroups (r : BdRing) (bd sw : Nat) (seg : Nat × Nat) :
    (writeBd r bd sw seg).toGroups = r.toGroups := rfl

theorem writeBd_bd_of_ne (r : BdRing) (sw : Nat) (seg : Nat × Nat) {bd j : Nat} (h : j ≠ bd) :
    (writeBd r bd sw seg).bd j = r.bd j := r.modify_bd_of_ne _ h

/-- What is written depends on the old descriptor and on the engine only. -/
theorem writeBd_bd_congr (r r' : BdRing) (sw : Nat) (seg : Nat × Nat) {p : Nat}
    (hmax : r.maxTransferLen = r'.maxTransferLen) (hdre : r.hasDRE = r'.hasDRE)
    (hwidth : r.dataWidth = r'.dataWidth) (hbd : r.bd p = r'.bd p) :
    (writeBd r p sw seg).bd p = (writeBd r' p sw seg).bd p := by
  unfold writeBd
  rw [r.modify_bd_self, r'.modify_bd_self, hmax, hdre, hwidth, hbd]

/-- The written descriptor is empty only if the segment was refused and the old
    descriptor was empty. -/
theorem writeBd_len_ne_zero (r : BdRing) (bd sw : Nat) (seg : Nat × Nat) :
    ((writeBd r bd sw seg).bd bd).len ≠ 0 ↔
      (0 < seg.1 ∧ seg.1 ≤ r.maxTransferLen) ∨ (r.bd bd).len ≠ 0 := by
  have haddr : ∀ b : Bd, (bdSetBufAddr r.hasDRE r.dataWidth seg.2 b).len = b.len := by
    intro b
    simp only [bdSetBufAddr]
    split <;> rfl
  unfold writeBd
  rw [r.modify_bd_self]
  change (bdSetLength seg.1 r.maxTransferLen _).len ≠ 0 ↔ _
  unfold bdSetLength
  by_cases hbad : seg.1 = 0 ∨ seg.1 > r.maxTransferLen
  · rw [if_pos hbad, haddr]
    constructor
    · exact Or.inr
    · rintro (hgood | hold)
      · omega
      · exact hold
  · rw [if_neg hbad]
    have hlen : seg.1 ≠ 0 := fun hz => hbad (Or.inl hz)
    exact ⟨fun _ => Or.inl ⟨by omega, by omega⟩, fun _ => hlen⟩

end Write

section Fill

variable (sw : Nat)

@[simp]
theorem fillBds_toGroups (segs : List (Nat × Nat)) : ∀ (r : BdRing) (bd : Nat),
    (fillBds sw segs r bd).toGroups = r.toGroups := by
  induction segs with
  | nil => intro r bd; rfl
  | cons seg segs ih => intro r bd; exact ih _ _

/-- The loop writes nothing outside the descriptors it visits. -/
theorem fillBds_bd_outside (segs : List (Nat × Nat)) : ∀ (r : BdRing) (bd j : Nat),
    (∀ i, i < segs.length → j ≠ r.nth bd i) → (fillBds sw segs r bd).bd j = r.bd j := by
  induction segs with
  | nil => intro r bd j _; rfl
  | cons seg segs ih =>
      intro r bd j hout
      simp only [fillBds]
      rw [ih (writeBd r bd sw seg) (r.next bd) j]
      · exact writeBd_bd_of_ne r sw seg (hout 0 (Nat.zero_lt_succ _))
      · intro i hi
        exact hout (i + 1) (Nat.succ_lt_succ hi)

/-- Each descriptor the loop visits holds its own segment, written over what
    it held before: within one turn no later pass comes back to it. -/
theorem fillBds_bd_nth (segs : List (Nat × Nat)) : ∀ (r : BdRing) (bd : Nat),
    bd < r.allCnt → segs.length ≤ r.allCnt → ∀ (i : Nat) (seg : Nat × Nat),
      segs[i]? = some seg →
      (fillBds sw segs r bd).bd (r.nth bd i) =
        (writeBd r (r.nth bd i) sw seg).bd (r.nth bd i) := by
  induction segs with
  | nil =>
      intro r bd _ _ i seg hseg
      exact absurd hseg (by simp only [List.getElem?_nil, reduceCtorEq, not_false_eq_true])
  | cons seg0 segs ih =>
      intro r bd hbd hlen i seg hseg
      simp only [fillBds]
      rw [List.length_cons] at hlen
      cases i with
      | zero =>
          rw [List.getElem?_cons_zero, Option.some.injEq] at hseg
          subst hseg
          -- The passes that follow start one further and end before a full turn.
          refine fillBds_bd_outside sw segs (writeBd r bd sw seg0) (r.next bd) bd ?_
          intro k hk heq
          have hturn : 0 = k + 1 := r.nth_inj hbd (by omega) (by omega) heq
          omega
      | succ i =>
          rw [List.getElem?_cons_succ] at hseg
          have hi : i < segs.length := (List.getElem?_eq_some_iff.mp hseg).1
          have hne : r.nth (r.next bd) i ≠ bd := by
            intro heq
            have hturn : i + 1 = 0 := r.nth_inj hbd (by omega) (by omega) heq
            omega
          have hfew : segs.length ≤ r.allCnt := by omega
          -- The first pass wrote another descriptor, so the rest start as before.
          have hstep := ih (writeBd r bd sw seg0) (r.next bd) (r.next_lt hbd) hfew i seg hseg
          rw [Groups.nth_succ]
          refine hstep.trans ?_
          exact writeBd_bd_congr _ r sw seg rfl rfl rfl (writeBd_bd_of_ne r sw seg0 hne)

end Fill

section Mark

@[simp]
theorem markPacket_toGroups (r : BdRing) (first last : Nat) :
    (markPacket r first last).toGroups = r.toGroups := by
  unfold markPacket
  split <;> rfl

theorem bdSetCtrl_len (r : BdRing) (i j : Nat) (sof eof : Bool) :
    ((r.modify i (bdSetCtrl sof eof)).bd j).len = (r.bd j).len := by
  by_cases hj : j = i
  · rw [hj, r.modify_bd_self]
    rfl
  · rw [r.modify_bd_of_ne _ hj]

/-- The marks leave the lengths alone. -/
theorem markPacket_len (r : BdRing) (first last j : Nat) :
    ((markPacket r first last).bd j).len = (r.bd j).len := by
  unfold markPacket
  split
  · exact bdSetCtrl_len ..
  · rw [bdSetCtrl_len, bdSetCtrl_len]

theorem markPacket_sof (r : BdRing) (first last : Nat) :
    ((markPacket r first last).bd first).sof = true := by
  unfold markPacket
  split
  · rw [r.modify_bd_self]
    rfl
  · rw [BdRing.modify_bd_self]
    rfl

theorem markPacket_eof (r : BdRing) (first last : Nat) :
    ((markPacket r first last).bd last).eof = true := by
  unfold markPacket
  by_cases h : first = last
  · rw [if_pos h, h, r.modify_bd_self]
    rfl
  · rw [if_neg h, BdRing.modify_bd_of_ne _ _ (Ne.symm h), r.modify_bd_self]
    rfl

end Mark

/-- The ring after an allocation that found room. -/
def allocated (r : BdRing) (n : Nat) : BdRing :=
  { r with
    freeHead := r.seekahead r.freeHead n
    freeCnt := r.freeCnt - n
    preCnt := r.preCnt + n }

/-- The two outcomes of an allocation. -/
theorem bdRingAlloc_spec (r : BdRing) (n : Nat) :
    (0 < n ∧ n ≤ r.freeCnt ∧ (bdRingAlloc r n).2 = xstSuccess ∧
      (bdRingAlloc r n).1 = allocated r n) ∨
    (¬ (0 < n ∧ n ≤ r.freeCnt) ∧ (bdRingAlloc r n).2 ≠ xstSuccess ∧ (bdRingAlloc r n).1 = r) := by
  have hinv : xstInvalidParam ≠ xstSuccess := by decide
  have hfail : xstFailure ≠ xstSuccess := by decide
  unfold bdRingAlloc
  by_cases hz : n = 0
  · rw [if_pos hz]
    exact Or.inr ⟨by omega, hinv, rfl⟩
  · rw [if_neg hz]
    by_cases hroom : r.freeCnt < n
    · rw [if_pos hroom]
      exact Or.inr ⟨by omega, hfail, rfl⟩
    · rw [if_neg hroom]
      exact Or.inl ⟨by omega, by omega, rfl, rfl⟩

theorem alloc_eq_allocated {r : BdRing} {n : Nat} (hpos : 0 < n) (hroom : n ≤ r.freeCnt) :
    (bdRingAlloc r n).1 = allocated r n := by
  rcases bdRingAlloc_spec r n with ⟨-, -, -, heq⟩ | ⟨hno, -, -⟩
  · exact heq
  · exact absurd ⟨hpos, hroom⟩ hno

/-- The head of the free group is the head of the pre-processing group only if
    nothing lies between them. -/
theorem preHead_eq_freeHead_iff {g : Groups} (hwf : g.Wf) (hroom : 0 < g.freeCnt) :
    g.preHead = g.freeHead ↔ g.preCnt = 0 := by
  have hc := hwf.counts
  have hlt := hwf.preHead_lt
  rw [hwf.free]
  unfold Groups.seekahead
  split <;> omega

/-- The set that `_aes_desc_to_hw` hands over, after the loop and the marks. -/
def packetRing (r : BdRing) (buf : DmaBuf) (sw : Nat) : BdRing :=
  markPacket (fillBds sw (bufSegs buf) (bdRingAlloc r (dmaBufCnt buf)).1 r.freeHead) r.freeHead
    (r.nth r.freeHead ((bufSegs buf).length - 1))

theorem packetRing_toGroups (r : BdRing) (buf : DmaBuf) (sw : Nat) :
    (packetRing r buf sw).toGroups = (bdRingAlloc r (dmaBufCnt buf)).1.toGroups := by
  unfold packetRing
  rw [markPacket_toGroups, fillBds_toGroups]

theorem packetRing_wf {r : BdRing} (buf : DmaBuf) (sw : Nat) (h : r.Wf) :
    (packetRing r buf sw).Wf := by
  rw [packetRing_toGroups]
  exact bdRingAlloc_wf _ h

section Ready

variable {r : BdRing} {buf : DmaBuf} (hwf : r.Wf) (hcnt : 0 < dmaBufCnt buf)
  (hroom : dmaBufCnt buf ≤ r.freeCnt)

include hcnt hroom

include hwf

/-- A descriptor of the set is empty only if its segment was refused and it was
    empty before. -/
theorem packetRing_len_ne_zero (sw i : Nat) (seg : Nat × Nat)
    (hseg : (bufSegs buf)[i]? = some seg) :
    ((packetRing r buf sw).bd (r.nth r.freeHead i)).len ≠ 0 ↔
      (0 < seg.1 ∧ seg.1 ≤ r.maxTransferLen) ∨ (r.bd (r.nth r.freeHead i)).len ≠ 0 := by
  have hc := hwf.counts
  have hle := bufSegs_length_le buf hcnt
  have hfew : (bufSegs buf).length ≤ r.allCnt := by omega
  -- The ring after the allocation has the memory and the size it had before.
  have hfill : (fillBds sw (bufSegs buf) (allocated r (dmaBufCnt buf)) r.freeHead).bd
      (r.nth r.freeHead i) =
        (writeBd (allocated r (dmaBufCnt buf)) (r.nth r.freeHead i) sw seg).bd
          (r.nth r.freeHead i) :=
    fillBds_bd_nth sw (bufSegs buf) (allocated r (dmaBufCnt buf)) r.freeHead hwf.freeHead_lt
      hfew i seg hseg
  unfold packetRing
  rw [markPacket_len, alloc_eq_allocated hcnt hroom, hfill]
  exact writeBd_len_ne_zero _ _ sw seg

/-- The set is ready for the hardware exactly when the ring accepts the buffer. -/
theorem packetRing_hwReady_iff (sw : Nat) :
    HwReady (packetRing r buf sw) (bufSegs buf).length r.freeHead ↔ Accepts r buf := by
  have hg := packetRing_toGroups r buf sw
  rw [alloc_eq_allocated hcnt hroom] at hg
  have hnth : ∀ i, (packetRing r buf sw).nth r.freeHead i = r.nth r.freeHead i := by
    intro i
    rw [hg]
    rfl
  have hpos : 0 < (bufSegs buf).length := List.length_pos_of_ne_nil (bufSegs_ne_nil buf)
  constructor
  · intro h
    refine ⟨hcnt, hroom, ?_, ?_⟩
    · have hhead := h.head
      rw [hg] at hhead
      exact (preHead_eq_freeHead_iff hwf (by omega)).mp hhead
    · intro i seg hseg
      have hi : i < (bufSegs buf).length := (List.getElem?_eq_some_iff.mp hseg).1
      have hlen := h.len i hi
      rw [hnth] at hlen
      exact (packetRing_len_ne_zero hwf hcnt hroom sw i seg hseg).mp hlen
  · intro h
    -- The marks are always there; the count and the head are those of the ring.
    refine ⟨?_, ?_, Or.inr (markPacket_sof ..), ?_, ?_⟩
    · rw [hg]
      have := bufSegs_length_le buf hcnt
      change _ ≤ r.preCnt + dmaBufCnt buf
      omega
    · rw [hg]
      exact (preHead_eq_freeHead_iff hwf (by omega)).mpr h.noneLeft
    · rw [hnth]
      exact Or.inr (markPacket_eof ..)
    · intro i hi
      rw [hnth]
      have hseg := List.getElem?_eq_getElem hi
      exact (packetRing_len_ne_zero hwf hcnt hroom sw i _ hseg).mpr (h.lens i _ hseg)

end Ready

theorem postBuf_eq_of_alloc {r : BdRing} {buf : DmaBuf} (sw : Nat)
    (h : (bdRingAlloc r (dmaBufCnt buf)).2 = xstSuccess) :
    postBuf r buf sw =
      ((bdRingToHw (packetRing r buf sw) (bufSegs buf).length r.freeHead).1,
        (bdRingToHw (packetRing r buf sw) (bufSegs buf).length r.freeHead).2,
        (bufSegs buf).length) := by
  unfold postBuf packetRing
  simp only [h, ne_eq, not_true_eq_false, if_false]

theorem postBuf_eq_of_refused {r : BdRing} {buf : DmaBuf} (sw : Nat)
    (h : (bdRingAlloc r (dmaBufCnt buf)).2 ≠ xstSuccess) :
    postBuf r buf sw =
      ((bdRingAlloc r (dmaBufCnt buf)).1, (bdRingAlloc r (dmaBufCnt buf)).2, 0) := by
  unfold postBuf
  simp only [h, ne_eq, not_false_eq_true, if_true]

/-- A posting succeeds exactly when the ring accepts the buffer. -/
theorem postBuf_ok_iff {r : BdRing} (h : r.Wf) (buf : DmaBuf) (sw : Nat) :
    (postBuf r buf sw).2.1 = xstSuccess ↔ Accepts r buf := by
  have hpos : 0 < (bufSegs buf).length := List.length_pos_of_ne_nil (bufSegs_ne_nil buf)
  rcases bdRingAlloc_spec r (dmaBufCnt buf) with ⟨hcnt, hroom, hok, -⟩ | ⟨hno, hbad, -⟩
  · rw [postBuf_eq_of_alloc sw hok, ← packetRing_hwReady_iff h hcnt hroom sw]
    rcases bdRingToHw_spec (packetRing r buf sw) hpos r.freeHead with
      ⟨hready, hres, -⟩ | ⟨hready, hres, -⟩
    · exact ⟨fun _ => hready, fun _ => hres⟩
    · exact ⟨fun hc => absurd hc hres, fun hc => absurd hc hready⟩
  · rw [postBuf_eq_of_refused sw hbad]
    exact ⟨fun hc => absurd hc hbad, fun hc => absurd ⟨hc.entries, hc.room⟩ hno⟩

/-- A posting keeps the groups of the ring in order, whatever its outcome. -/
theorem postBuf_wf {r : BdRing} (h : r.Wf) (buf : DmaBuf) (sw : Nat) :
    (postBuf r buf sw).1.Wf := by
  have hpos : 0 < (bufSegs buf).length := List.length_pos_of_ne_nil (bufSegs_ne_nil buf)
  by_cases hok : (bdRingAlloc r (dmaBufCnt buf)).2 = xstSuccess
  · rw [postBuf_eq_of_alloc sw hok]
    exact bdRingToHw_wf hpos _ (packetRing_wf buf sw h)
  · rw [postBuf_eq_of_refused sw hok]
    exact bdRingAlloc_wf _ h

end Driver

end Ml605
