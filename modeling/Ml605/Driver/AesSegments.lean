import Ml605.Driver.AesLedger

/-!
# From Scatter List to Descriptors

Whether the hardware is given what the request asked for. Two questions are
behind it. `dma_buf_sg_init` counts the entries of a scatter list that a
transfer needs, and the descriptors are allocated by that count; the loop of
`_aes_desc_to_hw` then asks the buffer for segment after segment until it says
that there is nothing more. Both have to come to the same number, or a
descriptor is left in the pre-processing group for good. They do, for every
list whose entries are not empty, cover the transfer and are short enough for
the `int` of the source.

The other question is what the descriptors hold. `XAxiDma_BdSetBufAddr` and
`XAxiDma_BdSetLength` refuse some values and write nothing then, and the loop
does not look at their status. A descriptor is used again and again, so it
keeps the address or the length of the request before, and
`XAxiDma_BdRingToHw` finds nothing wrong with it.

## Main definitions

* `entrySegs`, `segments`: What a buffer consists of, entry by entry.
* `Short`: No length of a buffer is beyond an `int`.
* `Nexts`, `Yields`: Repeated `dma_buf_next`, and a whole walk.
* `ExactWalk`: The walk hands out the transfer and nothing else.
* `Posted`: The hardware was given the segments of a buffer.
* `Fits`: A segment that ends up in its descriptor.

## Theorems

* `nexts_entrySegs`: Short entries are walked in ordinary arithmetic.
* `bufSegs_eq_segments`: Without an empty segment the descriptor loop visits
  all of them.
* `sgInit_exactWalk`: The walk over a scatter list is exact.
* `postBuf_bd`: What a posting leaves in a descriptor.
* `postBuf_posted_iff`: When the hardware is given what was asked for.
-/

namespace Ml605

namespace Driver

/-- The entries of a scatter list with the part of the transfer that falls on
    each, as length and address. -/
def entrySegs : List SgEntry → Int → List (Int × Nat)
  | [], _ => []
  | e :: es, left =>
    (min (e.dmaLen : Int) left, e.dmaAddress) :: entrySegs es (left - min (e.dmaLen : Int) left)

/-- The segments a buffer consists of. -/
def segments : DmaBuf → List (Nat × Nat)
  | .addr dma len => [(len.toNat, dma)]
  | .sg table sz => (entrySegs table sz).map fun seg => (seg.1.toNat, seg.2)

/-- No entry of a buffer, nor the transfer, is too long for an `int`. -/
def Short : DmaBuf → Prop
  | .addr _ len => len < 2 ^ 31
  | .sg table sz => (∀ e, e ∈ table → e.dmaLen < 2 ^ 31) ∧ sz < 2 ^ 31

instance : DecidablePred Short := fun buf => by
  unfold Short
  cases buf <;> infer_instance

/-- What `dma_buf_next` hands out from a position on, until it returns zero. -/
inductive Nexts : BufPos → Nat → List (Int × Nat) → Prop
  | done (pos : BufPos) (addr : Nat) (h : (dmaBufNext pos addr).1 = 0) : Nexts pos addr []
  | more (pos : BufPos) (addr : Nat) (segs : List (Int × Nat)) (h : (dmaBufNext pos addr).1 ≠ 0)
      (hrest : Nexts (dmaBufNext pos addr).2.2 (dmaBufNext pos addr).2.1 segs) :
      Nexts pos addr (((dmaBufNext pos addr).1, (dmaBufNext pos addr).2.1) :: segs)

/-- A whole walk: `dma_buf_first`, and then `dma_buf_next` for as long as there
    is something. -/
def Yields (buf : DmaBuf) (segs : List (Int × Nat)) : Prop :=
  ∃ rest, segs = ((dmaBufFirst buf).1, (dmaBufFirst buf).2.1) :: rest ∧
    Nexts (dmaBufFirst buf).2.2 (dmaBufFirst buf).2.1 rest

/-- The walk hands out the transfer and nothing else: as many segments as were
    counted, none of them empty, each but the last all of its entry, and
    together the bytes of the transfer. -/
structure ExactWalk (sgList : List SgEntry) (sz : Int) (cnt : Nat) (segs : List (Int × Nat)) :
    Prop where
  count : segs.length = cnt
  filled : ∀ seg, seg ∈ segs → 0 < seg.1
  addresses : segs.map Prod.snd = (sgList.take cnt).map SgEntry.dmaAddress
  total : (segs.map Prod.fst).sum = sz
  whole : ∀ i, i + 1 < cnt →
    (segs.map Prod.fst)[i]? = (sgList.map fun e => (e.dmaLen : Int))[i]?

section Walk

theorem segLen_eq_min {e : SgEntry} (h : e.dmaLen < 2 ^ 31) (left : Int) :
    segLen e left = min (e.dmaLen : Int) left := by
  rw [segLen, toInt_eq_self (by omega) (by omega)]

/-- What is left behind a short entry. -/
theorem toInt_sub_segLen {e : SgEntry} (h : e.dmaLen < 2 ^ 31) {left : Int} (hneg : 0 ≤ left)
    (hleft : left < 2 ^ 31) :
    toInt (left - segLen e left) = left - min (e.dmaLen : Int) left := by
  rw [segLen_eq_min h, toInt_eq_self (by omega) (by omega)]

/-- Short entries are walked in ordinary arithmetic: from any position on,
    `dma_buf_next` hands out what falls on each of them. -/
theorem nexts_entrySegs (es : List SgEntry) : ∀ (left : Int) (addr : Nat), 0 ≤ left →
    left < 2 ^ 31 → (∀ e, e ∈ es → e.dmaLen < 2 ^ 31) →
    (∀ seg, seg ∈ entrySegs es left → 0 < seg.1) →
    Nexts ⟨es, left⟩ addr (entrySegs es left) := by
  induction es with
  | nil => intro left addr _ _ _ _; exact Nexts.done _ _ rfl
  | cons e es ih =>
      intro left addr hneg hleft hshort hne
      have he : e.dmaLen < 2 ^ 31 := hshort e List.mem_cons_self
      have hhead : 0 < min (e.dmaLen : Int) left := hne _ List.mem_cons_self
      have hnext : dmaBufNext ⟨e :: es, left⟩ addr = (min (e.dmaLen : Int) left, e.dmaAddress,
          ⟨es, left - min (e.dmaLen : Int) left⟩) := by
        rw [← toInt_sub_segLen he hneg hleft, ← segLen_eq_min he]
        rfl
      have hrest := ih (left - min (e.dmaLen : Int) left) e.dmaAddress (by omega) (by omega)
        (fun e' he' => hshort e' (List.mem_cons_of_mem _ he'))
        (fun seg hseg => hne seg (List.mem_cons_of_mem _ hseg))
      have hmore := Nexts.more ⟨e :: es, left⟩ addr
        (entrySegs es (left - min (e.dmaLen : Int) left))
      rw [hnext] at hmore
      exact hmore (Int.ne_of_gt hhead) hrest

theorem entrySegs_length (es : List SgEntry) : ∀ left, (entrySegs es left).length = es.length := by
  induction es with
  | nil => intro left; rfl
  | cons e es ih =>
      intro left
      rw [entrySegs, List.length_cons, List.length_cons, ih]

/-- A buffer has as many segments as are counted for it. -/
theorem segments_length (buf : DmaBuf) : (segments buf).length = dmaBufCnt buf := by
  cases buf with
  | addr dma len => rfl
  | sg table sz =>
      rw [segments, List.length_map]
      exact entrySegs_length table sz

/-- The loop stops at an empty segment only. -/
theorem segsFrom_eq_entrySegs (es : List SgEntry) : ∀ left : Int, 0 ≤ left → left < 2 ^ 31 →
    (∀ e, e ∈ es → e.dmaLen < 2 ^ 31) → (∀ seg, seg ∈ entrySegs es left → 0 < seg.1) →
    segsFrom es left = (entrySegs es left).map fun seg => (seg.1.toNat, seg.2) := by
  induction es with
  | nil => intro left _ _ _ _; rfl
  | cons e es ih =>
      intro left hneg hleft hshort hne
      have he : e.dmaLen < 2 ^ 31 := hshort e List.mem_cons_self
      have hhead : 0 < min (e.dmaLen : Int) left := hne _ List.mem_cons_self
      simp only [segsFrom, entrySegs, List.map_cons]
      rw [toInt_sub_segLen he hneg hleft, segLen_eq_min he, if_pos hhead,
        toU32_eq_toNat (by omega) (by omega), ih _ (by omega) (by omega)]
      · exact fun e' he' => hshort e' (List.mem_cons_of_mem _ he')
      · exact fun seg hseg => hne seg (List.mem_cons_of_mem _ hseg)

/-- Without an empty segment the loop visits all of them. -/
theorem bufSegs_eq_segments {buf : DmaBuf} (hcnt : 0 < dmaBufCnt buf) (hshort : Short buf)
    (hne : ∀ seg, seg ∈ segments buf → 0 < seg.1) : bufSegs buf = segments buf := by
  cases buf with
  | addr dma len =>
      have hlen : 0 < len.toNat := hne (len.toNat, dma) List.mem_cons_self
      change len < 2 ^ 31 at hshort
      change [(toU32 len, dma)] = [(len.toNat, dma)]
      rw [toU32_eq_toNat (by omega) hshort]
  | sg table sz =>
      cases table with
      | nil => exact absurd hcnt (Nat.lt_irrefl 0)
      | cons e es =>
          have he : e.dmaLen < 2 ^ 31 := hshort.1 e List.mem_cons_self
          have hsz := hshort.2
          have hhead : 0 < (min (e.dmaLen : Int) sz).toNat := hne _ List.mem_cons_self
          change (toU32 (segLen e sz), e.dmaAddress) :: segsFrom es (toInt (sz - segLen e sz)) = _
          rw [toInt_sub_segLen he (by omega) hsz, segLen_eq_min he,
            toU32_eq_toNat (by omega) (by omega)]
          refine congrArg (_ :: ·) (segsFrom_eq_entrySegs es _ (by omega) (by omega)
            (fun e' he' => hshort.1 e' (List.mem_cons_of_mem _ he')) fun seg hseg => ?_)
          have hpos := hne (seg.1.toNat, seg.2)
            (List.mem_cons_of_mem _ (List.mem_map_of_mem hseg))
          change 0 < seg.1.toNat at hpos
          omega

/-- As many references are taken as segments are visited. -/
theorem postBuf_tcnt {r : BdRing} {buf : DmaBuf} (sw : Nat)
    (h : (bdRingAlloc r (dmaBufCnt buf)).2 = xstSuccess) :
    (postBuf r buf sw).2.2 = (bufSegs buf).length := by
  rw [postBuf_eq_of_alloc sw h]

end Walk

section Count

/-- The entries that `sg_cnt_update` counts are exactly those on which some of
    the transfer falls. The induction follows the list and the bytes that are
    still to be covered; the last entry is where nothing is left. -/
theorem entrySegs_exact (es : List SgEntry) : ∀ sz : Int, 0 < sz → sz < 2 ^ 31 →
    (∀ e, e ∈ es → 0 < e.dmaLen) → (∀ e, e ∈ es → e.dmaLen < 2 ^ 31) →
    sz ≤ ((es.map SgEntry.dmaLen).sum : Nat) →
    ExactWalk es sz (sgCntUpdate es sz) (entrySegs (es.take (sgCntUpdate es sz)) sz) := by
  induction es with
  | nil =>
      intro sz hsz _ _ _ hsum
      exact absurd hsz (Int.not_lt.mpr hsum)
  | cons e es ih =>
      intro sz hsz hint hpos hshort hsum
      have he : 0 < e.dmaLen := hpos e List.mem_cons_self
      rw [List.map_cons, List.sum_cons] at hsum
      simp only [sgCntUpdate]
      rw [toInt_sub_segLen (hshort e List.mem_cons_self) (by omega) hint]
      by_cases hlast : sz - min (e.dmaLen : Int) sz = 0
      · -- The entry takes all that is left.
        rw [if_pos hlast]
        have hmin : min (e.dmaLen : Int) sz = sz := by omega
        refine ⟨rfl, ?_, rfl, ?_, fun i hi => absurd hi (by omega)⟩
        · intro seg hseg
          rw [List.mem_singleton.mp hseg]
          exact hmin.symm ▸ hsz
        · exact (Int.add_zero _).trans hmin
      · rw [if_neg hlast]
        have hmin : min (e.dmaLen : Int) sz = e.dmaLen := by omega
        rw [hmin] at hlast ⊢
        -- The rest of the list covers what the entry does not.
        have hrest := ih (sz - e.dmaLen) (by omega) (by omega)
          (fun e' he' => hpos e' (List.mem_cons_of_mem _ he'))
          (fun e' he' => hshort e' (List.mem_cons_of_mem _ he')) (by omega)
        rw [List.take_succ_cons, entrySegs, hmin]
        refine ⟨?_, ?_, ?_, ?_, ?_⟩
        · rw [List.length_cons, hrest.count]
        · intro seg hseg
          rcases List.mem_cons.mp hseg with rfl | hseg
          · exact Int.natCast_pos.mpr he
          · exact hrest.filled seg hseg
        · rw [List.map_cons, List.take_succ_cons, List.map_cons, hrest.addresses]
        · rw [List.map_cons, List.sum_cons, hrest.total]
          change (e.dmaLen : Int) + (sz - e.dmaLen) = sz
          omega
        · intro i hi
          cases i with
          | zero => rfl
          | succ i =>
              rw [List.map_cons, List.map_cons, List.getElem?_cons_succ, List.getElem?_cons_succ]
              exact hrest.whole i (by omega)

theorem sgCntUpdate_le (es : List SgEntry) : ∀ sz, sgCntUpdate es sz ≤ es.length := by
  induction es with
  | nil => intro sz; exact Nat.le_refl 0
  | cons e es ih =>
      intro sz
      simp only [sgCntUpdate, List.length_cons]
      split
      · exact Nat.succ_le_succ (Nat.zero_le _)
      · exact Nat.succ_le_succ (ih _)

/-- The count of an initialised buffer is what `sg_cnt_update` said. -/
theorem dmaBufCnt_sgInit (sgList : List SgEntry) (sz : Int) :
    dmaBufCnt (dmaBufSgInit true sgList sz).1 = sgCntUpdate sgList sz := by
  simp only [dmaBufSgInit, if_true, dmaBufCnt, List.length_take]
  exact Nat.min_eq_left (sgCntUpdate_le sgList sz)

/-- A list whose entries are not empty and cover the transfer is cut down to
    one that is walked from its first entry to its last. -/
theorem yields_of_exact {es : List SgEntry} {sz : Int} {cnt : Nat} (hsz : 0 < sz)
    (hint : sz < 2 ^ 31) (hshort : ∀ e, e ∈ es → e.dmaLen < 2 ^ 31)
    (h : ExactWalk es sz cnt (entrySegs (es.take cnt) sz)) :
    Yields (.sg (es.take cnt) sz) (entrySegs (es.take cnt) sz) := by
  cases htake : es.take cnt with
  | nil =>
      have htotal := h.total
      rw [htake] at htotal
      exact absurd htotal (Int.ne_of_lt hsz)
  | cons e rest =>
      have hmem : ∀ e', e' ∈ e :: rest → e' ∈ es := fun e' he' =>
        List.mem_of_mem_take (htake ▸ he')
      have he := hshort e (hmem e List.mem_cons_self)
      have hfilled := h.filled
      rw [htake] at hfilled
      refine ⟨entrySegs rest (sz - min (e.dmaLen : Int) sz), ?_, ?_⟩
      · rw [entrySegs, ← segLen_eq_min he]
        rfl
      · change Nexts ⟨rest, toInt (sz - segLen e sz)⟩ e.dmaAddress _
        rw [toInt_sub_segLen he (by omega) hint]
        exact nexts_entrySegs rest _ _ (by omega) (by omega)
          (fun e' he' => hshort e' (hmem e' (List.mem_cons_of_mem _ he')))
          fun seg hseg => hfilled seg (List.mem_cons_of_mem _ hseg)

/-- **The walk over a scatter list.** For every list of short entries that are
    not empty and cover the transfer, the walk over the initialised buffer hands
    out the transfer in as many segments as were counted, and the loop of
    `_aes_desc_to_hw` uses up exactly the descriptors it allocated. -/
theorem sgInit_exactWalk (sgList : List SgEntry) (sz : Int)
    (hpos : ∀ e, e ∈ sgList → 0 < e.dmaLen) (hshort : ∀ e, e ∈ sgList → e.dmaLen < 2 ^ 31)
    (hsz : 0 < sz) (hint : sz < 2 ^ 31) (hsum : sz ≤ ((sgList.map SgEntry.dmaLen).sum : Nat)) :
    ∃ segs, Yields (dmaBufSgInit true sgList sz).1 segs ∧
      ExactWalk sgList sz (dmaBufCnt (dmaBufSgInit true sgList sz).1) segs ∧
      ∀ (r : BdRing) (sw : Nat),
        (bdRingAlloc r (dmaBufCnt (dmaBufSgInit true sgList sz).1)).2 = xstSuccess →
        (postBuf r (dmaBufSgInit true sgList sz).1 sw).2.2 =
          dmaBufCnt (dmaBufSgInit true sgList sz).1 := by
  have hexact := entrySegs_exact sgList sz hsz hint hpos hshort hsum
  have hyields := yields_of_exact hsz hint hshort hexact
  rw [dmaBufCnt_sgInit]
  refine ⟨_, hyields, hexact, ?_⟩
  -- No segment is empty, so the loop does not stop before the last one.
  have hcnt : dmaBufCnt (.sg (sgList.take (sgCntUpdate sgList sz)) sz) = sgCntUpdate sgList sz :=
    dmaBufCnt_sgInit sgList sz
  have hall : bufSegs (.sg (sgList.take (sgCntUpdate sgList sz)) sz) =
      segments (.sg (sgList.take (sgCntUpdate sgList sz)) sz) := by
    refine bufSegs_eq_segments ?_ ?_ ?_
    · obtain ⟨rest, hrest, -⟩ := hyields
      rw [hcnt, ← hexact.count, hrest]
      exact Nat.succ_pos _
    · exact ⟨fun e he => hshort e (List.mem_of_mem_take he), hint⟩
    · intro seg hseg
      rcases List.mem_map.mp hseg with ⟨seg', hseg', rfl⟩
      have := hexact.filled seg' hseg'
      change 0 < seg'.1.toNat
      omega
  intro r sw halloc
  change (postBuf r (.sg (sgList.take (sgCntUpdate sgList sz)) sz) sw).2.2 = _
  rw [postBuf_tcnt sw (by rw [hcnt]; exact halloc), hall, segments_length, hcnt]

/-- Three entries for 24 bytes: the second segment is cut and the third entry is
    left out. -/
theorem sgInit_exactWalk_cut :
    ∃ segs, Yields (dmaBufSgInit true [⟨0x1000, 16⟩, ⟨0x2000, 4096⟩, ⟨0x3000, 16⟩] 24).1 segs ∧
      ExactWalk [⟨0x1000, 16⟩, ⟨0x2000, 4096⟩, ⟨0x3000, 16⟩] 24
        (dmaBufCnt (dmaBufSgInit true [⟨0x1000, 16⟩, ⟨0x2000, 4096⟩, ⟨0x3000, 16⟩] 24).1) segs ∧
      ∀ (r : BdRing) (sw : Nat),
        (bdRingAlloc r (dmaBufCnt
          (dmaBufSgInit true [⟨0x1000, 16⟩, ⟨0x2000, 4096⟩, ⟨0x3000, 16⟩] 24).1)).2 =
            xstSuccess →
        (postBuf r (dmaBufSgInit true [⟨0x1000, 16⟩, ⟨0x2000, 4096⟩, ⟨0x3000, 16⟩] 24).1 sw).2.2 =
          dmaBufCnt (dmaBufSgInit true [⟨0x1000, 16⟩, ⟨0x2000, 4096⟩, ⟨0x3000, 16⟩] 24).1 :=
  sgInit_exactWalk [⟨0x1000, 16⟩, ⟨0x2000, 4096⟩, ⟨0x3000, 16⟩] 24 (by decide) (by decide)
    (by decide) (by decide) (by decide)

/-- One entry of 16 bytes less than 2^32 for a transfer of 16 bytes. To
    `min_t(int, ..)` its length is -16: the walk begins with a segment of that
    length, and all of 32 bytes are then left of the transfer. -/
theorem long_entry_not_exact :
    (∀ e, e ∈ [(⟨0x1000, 2 ^ 32 - 16⟩ : SgEntry)] → 0 < e.dmaLen ∧ e.dmaLen < 2 ^ 32) ∧
      (16 : Int) ≤ (([(⟨0x1000, 2 ^ 32 - 16⟩ : SgEntry)].map SgEntry.dmaLen).sum : Nat) ∧
      dmaBufFirst (dmaBufSgInit true [⟨0x1000, 2 ^ 32 - 16⟩] 16).1 = (-16, 0x1000, ⟨[], 32⟩) ∧
      ¬ ∃ segs, Yields (dmaBufSgInit true [⟨0x1000, 2 ^ 32 - 16⟩] 16).1 segs ∧
        ExactWalk [⟨0x1000, 2 ^ 32 - 16⟩] 16
          (dmaBufCnt (dmaBufSgInit true [⟨0x1000, 2 ^ 32 - 16⟩] 16).1) segs := by
  have hfirst : dmaBufFirst (dmaBufSgInit true [⟨0x1000, 2 ^ 32 - 16⟩] 16).1 =
      (-16, 0x1000, ⟨[], 32⟩) := by decide
  refine ⟨by decide, by decide, hfirst, ?_⟩
  rintro ⟨segs, ⟨rest, hsegs, -⟩, hexact⟩
  have hpos := hexact.filled (-16, 0x1000) (by rw [hsegs, hfirst]; exact List.mem_cons_self)
  exact absurd hpos (by decide)

end Count

/-- The descriptor `i` places behind those the hardware had before. -/
def newBd (r r' : BdRing) (i : Nat) : Bd := r'.bd (r'.nth r'.hwHead (r.hwCnt + i))

/-- The hardware was given the segments of a buffer: one descriptor for each
    that was allocated, in order behind those it already had, with the address
    and the length of its segment and the ID of the request, the first and the
    last of them marked and no other. -/
structure Posted (r : BdRing) (buf : DmaBuf) (sw : Nat) (r' : BdRing) : Prop where
  count : r'.hwCnt = r.hwCnt + dmaBufCnt buf
  addr : ∀ (i : Nat) (seg : Nat × Nat), (segments buf)[i]? = some seg →
    (newBd r r' i).bufAddr = seg.2
  len : ∀ (i : Nat) (seg : Nat × Nat), (segments buf)[i]? = some seg → (newBd r r' i).len = seg.1
  id : ∀ i, i < dmaBufCnt buf → (newBd r r' i).id = some sw
  sof : ∀ i, i < dmaBufCnt buf → (newBd r r' i).sof = decide (i = 0)
  eof : ∀ i, i < dmaBufCnt buf → (newBd r r' i).eof = decide (i + 1 = dmaBufCnt buf)

/-- A segment that ends up in its descriptor: the setters take its address and
    its length, or the descriptor happens to hold them already. -/
structure Fits (maxTransferLen : Nat) (old : Bd) (seg : Nat × Nat) : Prop where
  addr : if seg.2 % 16 = 0 then seg.2 < 2 ^ 32 else old.bufAddr = seg.2
  len : if seg.1 ≤ maxTransferLen then True else old.len = seg.1

section Setters

/-- The address a descriptor ends up with, on an engine that moves 128 bits and
    does not realign. -/
theorem bdSetBufAddr_eq_iff (a : Nat) (b : Bd) :
    (bdSetBufAddr false 16 a b).bufAddr = a ↔
      if a % 16 = 0 then a < 2 ^ 32 else b.bufAddr = a := by
  have hlow : a % 2 ^ 32 &&& (16 - 1) = a % 16 := by
    rw [Nat.and_two_pow_sub_one_eq_mod (a % 2 ^ 32) 4]
    omega
  simp only [bdSetBufAddr, hlow, and_true]
  by_cases h : a % 16 = 0
  · rw [if_neg (not_not.mpr h), if_pos h]
    change a % 2 ^ 32 = a ↔ _
    omega
  · rw [if_pos h, if_neg h]

theorem bdSetLength_eq_iff {n : Nat} (hn : 0 < n) (max : Nat) (b : Bd) :
    (bdSetLength n max b).len = n ↔ if n ≤ max then True else b.len = n := by
  unfold bdSetLength
  by_cases h : n ≤ max
  · rw [if_pos h, if_neg (by omega)]
    exact ⟨fun _ => trivial, fun _ => rfl⟩
  · rw [if_neg h, if_pos (by omega)]

/-- Each setter leaves the field of the other alone. -/
theorem bdSetLength_bufAddr (n max : Nat) (b : Bd) :
    (bdSetLength n max b).bufAddr = b.bufAddr := by
  unfold bdSetLength
  split <;> rfl

theorem bdSetBufAddr_len (dre : Bool) (width a : Nat) (b : Bd) :
    (bdSetBufAddr dre width a b).len = b.len := by
  simp only [bdSetBufAddr]
  split <;> rfl

theorem bdSetCtrl_unmarked {b : Bd} (hsof : b.sof = false) (heof : b.eof = false) :
    bdSetCtrl false false b = b := by
  cases b with
  | mk bufAddr len sof eof complete rxEof id =>
      change sof = false at hsof
      change eof = false at heof
      rw [hsof, heof]
      rfl

end Setters

/-- A descriptor that the loop left unmarked is marked by its place. -/
theorem markPacket_bd (r : BdRing) (first last j : Nat) (hsof : (r.bd j).sof = false)
    (heof : (r.bd j).eof = false) :
    (markPacket r first last).bd j =
      bdSetCtrl (decide (j = first)) (decide (j = last)) (r.bd j) := by
  unfold markPacket
  by_cases hone : first = last
  · subst hone
    rw [if_pos rfl]
    by_cases hj : j = first
    · rw [hj, r.modify_bd_self, decide_eq_true rfl]
    · rw [r.modify_bd_of_ne _ hj, decide_eq_false hj, bdSetCtrl_unmarked hsof heof]
  · rw [if_neg hone]
    by_cases hj : j = first
    · rw [hj, BdRing.modify_bd_self, BdRing.modify_bd_of_ne _ _ hone, decide_eq_true rfl,
        decide_eq_false hone]
    · rw [BdRing.modify_bd_of_ne _ _ hj, decide_eq_false hj]
      by_cases hl : j = last
      · rw [hl, r.modify_bd_self, decide_eq_true rfl]
      · rw [r.modify_bd_of_ne _ hl, decide_eq_false hl, bdSetCtrl_unmarked hsof heof]

section Posting

variable {r : BdRing} {buf : DmaBuf} (sw : Nat) (hwf : r.Wf)
  (hok : (postBuf r buf sw).2.1 = xstSuccess)

include hwf hok

theorem postBuf_ok_eq : postBuf r buf sw =
    ((bdRingToHw (packetRing r buf sw) (bufSegs buf).length r.freeHead).1,
      (bdRingToHw (packetRing r buf sw) (bufSegs buf).length r.freeHead).2,
      (bufSegs buf).length) := by
  have haccept := (postBuf_ok_iff hwf buf sw).mp hok
  rcases bdRingAlloc_spec r (dmaBufCnt buf) with ⟨-, -, halloc, -⟩ | ⟨hno, -, -⟩
  · exact postBuf_eq_of_alloc sw halloc
  · exact absurd ⟨haccept.entries, haccept.room⟩ hno

/-- Where the new descriptors are: behind those the hardware had, and that is
    where the free ones began. -/
theorem postBuf_groups : (postBuf r buf sw).1.hwCnt = r.hwCnt + (bufSegs buf).length ∧
    ∀ i, (postBuf r buf sw).1.nth (postBuf r buf sw).1.hwHead (r.hwCnt + i) =
      r.nth r.freeHead i := by
  have haccept := (postBuf_ok_iff hwf buf sw).mp hok
  have heq := postBuf_ok_eq sw hwf hok
  rw [heq] at hok ⊢
  have hpos : 0 < (bufSegs buf).length := List.length_pos_of_ne_nil (bufSegs_ne_nil buf)
  have hg := Filled.toHw_groups hwf (packetRing_filled sw haccept.entries haccept.room) hpos hok
  have hfree := hwf.freeHead_eq_nth (Nat.lt_of_lt_of_le haccept.entries haccept.room)
  rw [haccept.noneLeft, Nat.add_zero] at hfree
  refine ⟨by rw [hg], fun i => ?_⟩
  rw [hg]
  refine Eq.trans (b := r.nth r.hwHead (r.hwCnt + i)) (Groups.nth_congr rfl _ _) ?_
  rw [r.nth_add, ← hfree]

/-- What a posting leaves in the descriptor of a segment, up to the completed
    bit that handing over clears. -/
theorem postBuf_bd {i : Nat} {seg : Nat × Nat} (hseg : (bufSegs buf)[i]? = some seg) :
    bdClearComplete (newBd r (postBuf r buf sw).1 i) =
      bdClearComplete (bdSetCtrl (decide (i = 0)) (decide (i + 1 = (bufSegs buf).length))
        ((writeBd r (r.nth r.freeHead i) sw seg).bd (r.nth r.freeHead i))) := by
  have haccept := (postBuf_ok_iff hwf buf sw).mp hok
  have hc := hwf.counts
  have hroom := haccept.room
  have hle := bufSegs_length_le buf haccept.entries
  have hi : i < (bufSegs buf).length := (List.getElem?_eq_some_iff.mp hseg).1
  have hfew : (bufSegs buf).length ≤ r.allCnt := by omega
  have hclear : ∀ b, bdClearComplete (bdClearComplete b) = bdClearComplete b := fun _ => rfl
  unfold newBd
  rw [(postBuf_groups sw hwf hok).2, postBuf_ok_eq sw hwf hok]
  -- Handing over touches completed bits only.
  refine Eq.trans (b := bdClearComplete ((packetRing r buf sw).bd (r.nth r.freeHead i))) ?_ ?_
  · rcases bdRingToHw_bd (packetRing r buf sw) (bufSegs buf).length r.freeHead
      (r.nth r.freeHead i) with h | h
    · rw [h]
    · rw [h, hclear]
  refine congrArg bdClearComplete ?_
  -- The loop wrote the segment into it, and no mark.
  have hfill : (fillBds sw (bufSegs buf) (allocated r (dmaBufCnt buf)) r.freeHead).bd
      (r.nth r.freeHead i) = (writeBd r (r.nth r.freeHead i) sw seg).bd (r.nth r.freeHead i) :=
    (fillBds_bd_nth sw (bufSegs buf) (allocated r (dmaBufCnt buf)) r.freeHead hwf.freeHead_lt
      hfew i seg hseg).trans (writeBd_bd_congr _ r sw seg rfl rfl rfl rfl)
  have hplain : ((writeBd r (r.nth r.freeHead i) sw seg).bd (r.nth r.freeHead i)).sof = false ∧
      ((writeBd r (r.nth r.freeHead i) sw seg).bd (r.nth r.freeHead i)).eof = false := by
    unfold writeBd
    rw [r.modify_bd_self]
    exact ⟨rfl, rfl⟩
  unfold packetRing
  rw [alloc_eq_allocated haccept.entries hroom, markPacket_bd _ _ _ _ (hfill ▸ hplain.1)
    (hfill ▸ hplain.2), hfill]
  -- Within one turn the place tells the descriptors apart.
  have hfirst : r.nth r.freeHead i = r.freeHead ↔ i = 0 :=
    ⟨fun h => r.nth_inj hwf.freeHead_lt (by omega) (by omega) h, fun h => by rw [h]; rfl⟩
  have hlast : r.nth r.freeHead i = r.nth r.freeHead ((bufSegs buf).length - 1) ↔
      i + 1 = (bufSegs buf).length := by
    constructor
    · intro h
      have := r.nth_inj hwf.freeHead_lt (by omega) (by omega) h
      omega
    · intro h
      rw [← h, Nat.add_sub_cancel]
  rw [decide_eq_decide.mpr hfirst, decide_eq_decide.mpr hlast]

variable (hshort : Short buf) (hne : ∀ seg, seg ∈ segments buf → 0 < seg.1)

include hshort hne

/-- The loop gets through the whole buffer. -/
theorem bufSegs_of_posted : bufSegs buf = segments buf :=
  bufSegs_eq_segments ((postBuf_ok_iff hwf buf sw).mp hok).entries hshort hne

/-- The same over the segments of the buffer, on an engine that moves 128 bits
    and does not realign. -/
theorem newBd_postBuf (hdre : r.hasDRE = false) (hwidth : r.dataWidth = 16) {i : Nat}
    {seg : Nat × Nat} (hseg : (segments buf)[i]? = some seg) :
    bdClearComplete (newBd r (postBuf r buf sw).1 i) =
      bdClearComplete (bdSetCtrl (decide (i = 0)) (decide (i + 1 = dmaBufCnt buf))
        (bdSetId (some sw) (bdSetCtrl false false (bdSetLength seg.1 r.maxTransferLen
          (bdSetBufAddr false 16 seg.2 (r.bd (r.nth r.freeHead i))))))) := by
  have hall := bufSegs_of_posted sw hwf hok hshort hne
  rw [postBuf_bd sw hwf hok (by rw [hall]; exact hseg), hall, segments_length]
  unfold writeBd
  rw [r.modify_bd_self, hdre, hwidth]

end Posting

/-- **What the hardware is given.** Where no segment of the buffer is empty and
    none of its lengths is beyond an `int`, a posting that succeeds gives the
    hardware the segments of the buffer exactly when each of them fits its
    descriptor: its address is a multiple of 16 that 32 bits hold, and its
    length is one the engine can move. Otherwise the old
    address or the old length stays, whatever it is. -/
theorem postBuf_posted_iff (r : BdRing) (hwf : r.Wf) (hdre : r.hasDRE = false)
    (hwidth : r.dataWidth = 16) (buf : DmaBuf) (hshort : Short buf)
    (hne : ∀ seg, seg ∈ segments buf → 0 < seg.1) (sw : Nat)
    (hok : (postBuf r buf sw).2.1 = xstSuccess) :
    Posted r buf sw (postBuf r buf sw).1 ↔
      ∀ (i : Nat) (seg : Nat × Nat), (segments buf)[i]? = some seg →
        Fits r.maxTransferLen (r.bd (r.nth r.freeHead i)) seg := by
  have hbd : ∀ (i : Nat) (seg : Nat × Nat), (segments buf)[i]? = some seg → _ :=
    fun i seg hseg => newBd_postBuf sw hwf hok hshort hne hdre hwidth hseg
  have haddr : ∀ (i : Nat) (seg : Nat × Nat), (segments buf)[i]? = some seg →
      ((newBd r (postBuf r buf sw).1 i).bufAddr = seg.2 ↔
        if seg.2 % 16 = 0 then seg.2 < 2 ^ 32
        else (r.bd (r.nth r.freeHead i)).bufAddr = seg.2) := by
    intro i seg hseg
    have heq := (congrArg Bd.bufAddr (hbd i seg hseg)).trans (bdSetLength_bufAddr ..)
    rw [← bdSetBufAddr_eq_iff]
    exact ⟨fun h => heq.symm.trans h, fun h => Eq.trans heq h⟩
  have hlen : ∀ (i : Nat) (seg : Nat × Nat), (segments buf)[i]? = some seg →
      ((newBd r (postBuf r buf sw).1 i).len = seg.1 ↔
        if seg.1 ≤ r.maxTransferLen then True
        else (r.bd (r.nth r.freeHead i)).len = seg.1) := by
    intro i seg hseg
    have heq := congrArg Bd.len (hbd i seg hseg)
    rw [← bdSetBufAddr_len false 16 seg.2 (r.bd (r.nth r.freeHead i)),
      ← bdSetLength_eq_iff (hne seg (List.mem_of_getElem? hseg))]
    exact ⟨fun h => heq.symm.trans h, fun h => Eq.trans heq h⟩
  constructor
  · intro h i seg hseg
    exact ⟨(haddr i seg hseg).mp (h.addr i seg hseg), (hlen i seg hseg).mp (h.len i seg hseg)⟩
  · intro h
    -- The ID and the marks do not depend on whether the setters agreed.
    have hget : ∀ i, i < dmaBufCnt buf → ∃ seg, (segments buf)[i]? = some seg := fun i hi =>
      ⟨_, List.getElem?_eq_getElem (by rw [segments_length]; exact hi)⟩
    refine ⟨?_, ?_, ?_, ?_, ?_, ?_⟩
    · rw [(postBuf_groups sw hwf hok).1, bufSegs_of_posted sw hwf hok hshort hne, segments_length]
    · exact fun i seg hseg => (haddr i seg hseg).mpr (h i seg hseg).addr
    · exact fun i seg hseg => (hlen i seg hseg).mpr (h i seg hseg).len
    · intro i hi
      rcases hget i hi with ⟨seg, hseg⟩
      exact (congrArg Bd.id (hbd i seg hseg)).trans rfl
    · intro i hi
      rcases hget i hi with ⟨seg, hseg⟩
      exact (congrArg Bd.sof (hbd i seg hseg)).trans rfl
    · intro i hi
      rcases hget i hi with ⟨seg, hseg⟩
      exact (congrArg Bd.eof (hbd i seg hseg)).trans rfl

/-- The ring of the driver, as it is set up. -/
theorem probe_wf : (bdRingCreate false bdNum).Wf := bdRingCreate_wf false bdNum_pos

/-- Two aligned segments on a fresh ring. -/
theorem postBuf_posted_two :
    Posted (bdRingCreate false bdNum) (.sg [⟨0x1000, 16⟩, ⟨0x2000, 32⟩] 48) 7
      (postBuf (bdRingCreate false bdNum) (.sg [⟨0x1000, 16⟩, ⟨0x2000, 32⟩] 48) 7).1 := by
  refine (postBuf_posted_iff _ probe_wf rfl rfl _ (by decide) (by decide) 7 (by decide)).mpr ?_
  intro i seg hseg
  have hi : i < 2 := (List.getElem?_eq_some_iff.mp hseg).1
  have hcases : i = 0 ∨ i = 1 := by omega
  rcases hcases with rfl | rfl
  · rw [← Option.some.inj hseg]
    exact ⟨by decide, by decide⟩
  · rw [← Option.some.inj hseg]
    exact ⟨by decide, by decide⟩

/-- A segment in the middle of a 16-byte word is posted with success and with
    the address the descriptor held before, which on a fresh ring is zero. -/
theorem misaligned_not_posted :
    (postBuf (bdRingCreate false bdNum) (.sg [⟨0x1008, 16⟩] 16) 7).2.1 = xstSuccess ∧
      (newBd (bdRingCreate false bdNum)
        (postBuf (bdRingCreate false bdNum) (.sg [⟨0x1008, 16⟩] 16) 7).1 0).bufAddr = 0 ∧
      ¬ ∀ (r : BdRing) (buf : DmaBuf) (sw : Nat), r.Wf → r.hasDRE = false → r.dataWidth = 16 →
        Short buf → (∀ seg, seg ∈ segments buf → 0 < seg.1) → (postBuf r buf sw).2.1 = xstSuccess →
        Posted r buf sw (postBuf r buf sw).1 := by
  refine ⟨by decide, by decide, ?_⟩
  intro hall
  have h := (hall _ (.sg [⟨0x1008, 16⟩] 16) 7 probe_wf rfl rfl (by decide) (by decide)
    (by decide)).addr 0
    (16, 0x1008) rfl
  exact absurd h (by decide)

end Driver

end Ml605
