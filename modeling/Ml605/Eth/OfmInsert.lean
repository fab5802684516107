import Ml605.Eth.OfmOut

/-!
# Where the Transmit Checksum Goes

The pass over a frame finds the place of the checksum from the distance between
the byte counter and `TxCsInsert`. The counter includes the beat in hand, so in
a full beat the distance tells the lane counted from the end of the beat: eight
is lane 0, two is lane 3.

In a last beat of fewer than eight bytes the distance is counted from the end of
the frame, and the lane is not the right one. The counter has sixteen bits, so
in the very last beat it can reach it is zero and the position is never met.
Everywhere else the two bytes at `TxCsInsert` are replaced and nothing else.

## Main definitions

* `Inserted`: What the frame that is written should be.
* `Aligned`: The beat that holds `TxCsInsert` is full and within the counter.

## Theorems

* `scan_getElem?`: A beat that is written, from the beat that was read.
* `scan_inserted`: An aligned packet is written as it should be.
* `scan_inserted_iff`: And only an aligned one, unless the checksum is there
  already.
-/

namespace Ml605

namespace Eth

namespace Ofm

/-- The frame `out` is the frame `bs` with the checksum in place: the same
    keeps and last flags, and of the bytes only the two at `TxCsInsert`
    replaced, if the control field asks for it. -/
structure Inserted (c : TxCs) (bs out : List Beat) : Prop where
  keep : out.map Beat.keep = bs.map Beat.keep
  last : out.map Beat.last = bs.map Beat.last
  byte : ∀ k, (lanes out)[k]? =
    if c.txCsCntrl = 0b01 ∧ k = c.txCsInsert.toNat then some (c.txCsSum.extractLsb' 0 8)
    else if c.txCsCntrl = 0b01 ∧ k = c.txCsInsert.toNat + 1 then some (c.txCsSum.extractLsb' 8 8)
    else (lanes bs)[k]?

/-- If a checksum is asked for, the beat that holds `TxCsInsert` is full and
    the byte counter does not overflow in it. -/
def Aligned (p : Packet) : Prop :=
  p.cs.txCsCntrl = 0b01 →
    8 * (p.cs.txCsInsert.toNat / 8) + 8 ≤ p.frame.length ∧
      8 * (p.cs.txCsInsert.toNat / 8) + 8 < 65536

/-- The bytes of the frame at `TxCsInsert` are those of the checksum already. -/
def InPlace (p : Packet) : Prop :=
  (lanes p.frame.beats)[p.cs.txCsInsert.toNat]? = some (p.cs.txCsSum.extractLsb' 0 8) ∧
    (lanes p.frame.beats)[p.cs.txCsInsert.toNat + 1]? = some (p.cs.txCsSum.extractLsb' 8 8)

section Lanes

variable {hit : Bool} {mask : BitVec 4} {sum : BitVec 16} {x : Beat} {k : Nat}

/-- A byte of the word written comes from the lane it is in. -/
theorem byteAt_wdata (hk : k < 8) :
    byteAt (wdata hit mask sum x).data k =
      (wdataLane hit mask sum x.data (k / 2)).extractLsb' (8 * (k % 2)) 8 := by
  apply BitVec.eq_of_getLsbD_eq
  intro i hi
  simp only [byteAt, wdata, BitVec.getLsbD_extractLsb', hi, decide_true, Bool.true_and,
    BitVec.getLsbD_append]
  -- Which of the four lanes bit `8 k + i` is in depends on `k` alone.
  interval_cases k <;> simp (disch := omega) only [if_pos, if_neg] <;>
    exact congrArg _ (by omega)

/-- A byte of the word read, from the lane it is in. -/
theorem byteAt_lane (w : BitVec 64) (k : Nat) :
    (w.extractLsb' (16 * (k / 2)) 16).extractLsb' (8 * (k % 2)) 8 = byteAt w k := by
  apply BitVec.eq_of_getLsbD_eq
  intro i hi
  simp only [byteAt, BitVec.getLsbD_extractLsb', hi, decide_true, Bool.true_and]
  rw [decide_eq_true (show 8 * (k % 2) + i < 16 by omega), Bool.true_and]
  exact congrArg _ (by omega)

/-- A byte in a lane that is not selected is kept. -/
theorem byteAt_wdata_kept (hk : k < 8) (h : (hit && mask.getLsbD (k / 2)) = false) :
    byteAt (wdata hit mask sum x).data k = byteAt x.data k := by
  rw [byteAt_wdata hk, wdataLane, h, if_neg Bool.false_ne_true]
  exact byteAt_lane x.data k

/-- A byte in a selected lane is one of the checksum. -/
theorem byteAt_wdata_replaced (hk : k < 8) (h : (hit && mask.getLsbD (k / 2)) = true) :
    byteAt (wdata hit mask sum x).data k = sum.extractLsb' (8 * (k % 2)) 8 := by
  rw [byteAt_wdata hk, wdataLane, h, if_pos rfl]

/-- The mask selects the lane whose distance from the end of a full beat is the
    distance between the counter and `TxCsInsert`. -/
theorem insertMask_getLsbD (c : TxCs) (bcnt : BitVec 16) {j : Nat} (hj : j < 4) :
    (insertMask c bcnt).getLsbD j =
      decide ((bcnt.toNat + 65536 - c.txCsInsert.toNat) % 16 = 8 - 2 * j) := by
  have htable : ∀ d : BitVec 4, (if d = 8 then 0b0001 else if d = 6 then 0b0010
      else if d = 4 then 0b0100 else if d = 2 then 0b1000 else 0b0000 : BitVec 4).getLsbD j =
        decide (d.toNat = 8 - 2 * j) := by
    interval_cases j <;> decide
  have hdist : ((bcnt - c.txCsInsert).setWidth 4 : BitVec 4).toNat =
      (bcnt.toNat + 65536 - c.txCsInsert.toNat) % 16 := by
    have hlt := c.txCsInsert.isLt
    rw [BitVec.toNat_setWidth, BitVec.toNat_sub]
    omega
  unfold insertMask
  rw [htable, hdist]

end Lanes

section Scan

variable (c : TxCs)

theorem scan_bcnt (bs : List Beat) : (scan c bs).bcnt = BitVec.ofNat 16 (byteCount bs) := by
  induction bs using List.reverseRecOn with
  | nil => rfl
  | append_singleton bs x ih =>
      rw [scan_snoc, byteCount_snoc, BitVec.ofNat_add, ← ih]
      simp only [Scan.take, BitVec.ofNat_toNat]

theorem scan_out_length (bs : List Beat) : (scan c bs).out.length = bs.length := by
  induction bs using List.reverseRecOn with
  | nil => rfl
  | append_singleton bs x ih =>
      rw [scan_snoc, Scan.take]
      simp only [List.length_append, List.length_singleton, ih]

/-- A beat that is written is the beat that was read, changed by the counter
    after it and the hits before it. -/
theorem scan_getElem? (bs : List Beat) (i : Nat) :
    (scan c bs).out[i]? = bs[i]?.map
      (wdata (insertHit c (scan c (bs.take (i + 1))).bcnt (scan c (bs.take i)).hit)
        (insertMask c (scan c (bs.take (i + 1))).bcnt) c.txCsSum) := by
  -- The pass appends at the end, so the induction is on the last beat.
  induction bs using List.reverseRecOn with
  | nil => rfl
  | append_singleton bs x ih =>
      rw [scan_snoc]
      simp only [Scan.take]
      rcases Nat.lt_trichotomy i bs.length with hi | rfl | hi
      · rw [List.getElem?_append_left (by rw [scan_out_length]; exact hi),
          List.getElem?_append_left hi, List.take_append_of_le_length (by omega),
          List.take_append_of_le_length (by omega)]
        exact ih
      · have hall : (bs ++ [x]).take (bs.length + 1) = bs ++ [x] :=
          List.take_of_length_le (by simp only [List.length_append, List.length_singleton, le_refl])
        rw [← scan_out_length c bs, List.getElem?_concat_length, scan_out_length,
          List.getElem?_concat_length, hall, List.take_left, scan_snoc]
        rfl
      · rw [List.getElem?_eq_none (by
            rw [List.length_append, scan_out_length, List.length_singleton]; omega),
          List.getElem?_eq_none (by rw [List.length_append, List.length_singleton]; omega)]
        rfl

/-- Keeps and last flags pass through. -/
theorem scan_flags (bs : List Beat) :
    (scan c bs).out.map Beat.keep = bs.map Beat.keep ∧
      (scan c bs).out.map Beat.last = bs.map Beat.last := by
  induction bs using List.reverseRecOn with
  | nil => exact ⟨rfl, rfl⟩
  | append_singleton bs x ih =>
      rw [scan_snoc, Scan.take]
      simp only [List.map_append, ih.1, ih.2]
      exact ⟨rfl, rfl⟩

/-- A byte that is written, from the beat that was read. -/
theorem scan_lanes (bs : List Beat) (k : Nat) :
    (lanes (scan c bs).out)[k]? = bs[k / 8]?.map fun x => byteAt
      (wdata (insertHit c (scan c (bs.take (k / 8 + 1))).bcnt (scan c (bs.take (k / 8))).hit)
        (insertMask c (scan c (bs.take (k / 8 + 1))).bcnt) c.txCsSum x).data (k % 8) := by
  rw [lanes_getElem?, scan_getElem?, Option.map_map]
  rfl

/-- A hit is remembered. -/
theorem scan_hit_succ (bs : List Beat) {i : Nat} (hi : i < bs.length) :
    (scan c (bs.take (i + 1))).hit = ((scan c (bs.take i)).hit ||
      insertHit c (scan c (bs.take (i + 1))).bcnt (scan c (bs.take i)).hit) := by
  rw [List.take_succ_eq_append_getElem hi, scan_snoc]
  rfl

end Scan

section Packets

variable (p : Packet)

/-- The byte counter with a beat in hand. -/
theorem bcnt_toNat {i : Nat} (hi : i ≤ p.frame.body.length) :
    (scan p.cs (p.frame.beats.take (i + 1))).bcnt.toNat =
      min (8 * (i + 1)) p.frame.length % 65536 := by
  rw [scan_bcnt, p.frame.byteCount_take (Nat.succ_le_succ hi), BitVec.toNat_ofNat]

/-- The place of the checksum is in one beat of the frame. -/
theorem insert_beat : p.cs.txCsInsert.toNat / 8 ≤ p.frame.body.length := by
  have hfits := p.fits
  have hle := p.frame.tailLe
  rw [Frame.length] at hfits
  omega

/-- Without the control bit nothing is hit. -/
theorem insertHit_off {c : TxCs} (hc : c.txCsCntrl ≠ 0b01) (n : BitVec 16) (h : Bool) :
    insertHit c n h = false := by
  rw [insertHit, beq_false_of_ne hc, Bool.and_false]

/-- With it, the first beat past the position is hit. -/
theorem insertHit_on {c : TxCs} (hc : c.txCsCntrl = 0b01) (n : BitVec 16) (h : Bool) :
    insertHit c n h = (decide (c.txCsInsert.toNat < n.toNat) && !h) := by
  simp only [insertHit, hc, beq_self_eq_true, Bool.and_true, BitVec.lt_def]

/-- In an aligned packet the position is met in the beat that holds it. -/
theorem scan_hit {p : Packet} (ha : Aligned p) (hc : p.cs.txCsCntrl = 0b01) {i : Nat}
    (hi : i ≤ p.frame.body.length + 1) :
    (scan p.cs (p.frame.beats.take i)).hit = decide (p.cs.txCsInsert.toNat / 8 < i) := by
  have hfull := ha hc
  induction i with
  | zero => rfl
  | succ i ih =>
      rw [scan_hit_succ _ _ (by rw [Frame.beats_length]; omega), ih (by omega), insertHit_on hc,
        bcnt_toNat p (by omega)]
      -- Before the beat the counter has not passed the position, in it it has.
      rcases Nat.lt_trichotomy i (p.cs.txCsInsert.toNat / 8) with hlt | heq | hgt
      · rw [decide_eq_false (by omega), decide_eq_false (by omega), decide_eq_false (by omega)]
        rfl
      · rw [decide_eq_false (by omega), decide_eq_true (by omega), decide_eq_true (by omega)]
        rfl
      · rw [decide_eq_true hgt, Bool.true_or, decide_eq_true (by omega)]

/-- In an aligned packet the beat that holds the position is the one that is hit. -/
theorem insertHit_aligned {p : Packet} (ha : Aligned p) (hc : p.cs.txCsCntrl = 0b01) {i : Nat}
    (hi : i ≤ p.frame.body.length) :
    insertHit p.cs (scan p.cs (p.frame.beats.take (i + 1))).bcnt
      (scan p.cs (p.frame.beats.take i)).hit = decide (i = p.cs.txCsInsert.toNat / 8) := by
  have hfull := ha hc
  rw [insertHit_on hc, bcnt_toNat p hi, scan_hit ha hc (by omega)]
  rcases Nat.lt_trichotomy i (p.cs.txCsInsert.toNat / 8) with hlt | heq | hgt
  · rw [decide_eq_false (by omega), Bool.false_and, decide_eq_false (by omega)]
  · rw [decide_eq_true (by omega), decide_eq_false (by omega), decide_eq_true heq]
    rfl
  · rw [decide_eq_true (show _ / 8 < i from hgt), decide_eq_false (show ¬ i = _ by omega),
      Bool.not_true, Bool.and_false]

/-- The byte at an offset of an aligned packet that is written. -/
theorem scan_byte_aligned {p : Packet} (ha : Aligned p) (hc : p.cs.txCsCntrl = 0b01) {k : Nat}
    (hk : k / 8 ≤ p.frame.body.length) (x : Beat) :
    byteAt (wdata (insertHit p.cs (scan p.cs (p.frame.beats.take (k / 8 + 1))).bcnt
        (scan p.cs (p.frame.beats.take (k / 8))).hit)
      (insertMask p.cs (scan p.cs (p.frame.beats.take (k / 8 + 1))).bcnt) p.cs.txCsSum x).data
        (k % 8) =
      if k = p.cs.txCsInsert.toNat then p.cs.txCsSum.extractLsb' 0 8
      else if k = p.cs.txCsInsert.toNat + 1 then p.cs.txCsSum.extractLsb' 8 8
      else byteAt x.data (k % 8) := by
  have hfull := ha hc
  have heven := p.even
  rw [insertHit_aligned ha hc hk]
  by_cases hlane : k / 2 = p.cs.txCsInsert.toNat / 2
  · -- The lane of the checksum: the beat is hit and its distance selects the lane.
    rw [byteAt_wdata_replaced (by omega)]
    · by_cases h0 : k = p.cs.txCsInsert.toNat
      · rw [if_pos h0, show k % 8 % 2 = 0 by omega]
      · rw [if_neg h0, if_pos (by omega), show k % 8 % 2 = 1 by omega]
    · rw [insertMask_getLsbD _ _ (by omega), bcnt_toNat p hk, decide_eq_true (by omega),
        decide_eq_true (by omega)]
      rfl
  · rw [if_neg (by omega), if_neg (by omega)]
    apply byteAt_wdata_kept (by omega)
    -- Either another beat, which is not hit, or another lane of this one.
    by_cases hbeat : k / 8 = p.cs.txCsInsert.toNat / 8
    · rw [insertMask_getLsbD _ _ (by omega), bcnt_toNat p hk,
        decide_eq_false (show ¬ (_ : Nat) % 16 = _ by omega), Bool.and_false]
    · rw [decide_eq_false hbeat, Bool.false_and]

/-- An aligned packet is written as it should be. -/
theorem scan_inserted {p : Packet} (ha : Aligned p) :
    Inserted p.cs p.frame.beats (scan p.cs p.frame.beats).out := by
  refine ⟨(scan_flags p.cs _).1, (scan_flags p.cs _).2, fun k => ?_⟩
  rw [scan_lanes, lanes_getElem?]
  by_cases hc : p.cs.txCsCntrl = 0b01
  · simp only [hc, true_and]
    by_cases hk : k / 8 ≤ p.frame.body.length
    · have hx := List.getElem?_eq_getElem (show k / 8 < p.frame.beats.length by
        rw [Frame.beats_length]; omega)
      rw [hx, Option.map_some, Option.map_some, scan_byte_aligned ha hc hk]
      split_ifs <;> rfl
    · -- Past the end there is no byte, and the checksum is not there either.
      have hbeat := insert_beat p
      have heven := p.even
      rw [if_neg (by omega), if_neg (by omega),
        List.getElem?_eq_none (by rw [Frame.beats_length]; omega)]
      rfl
  · simp only [hc, false_and, if_false]
    congr 1
    funext x
    rw [insertHit_off hc]
    exact byteAt_wdata_kept (by omega) (Bool.false_and _)

/-- In a packet that is not aligned the lane of the checksum is kept. -/
theorem scan_lane_kept {p : Packet} (hn : ¬ Aligned p) {k : Nat}
    (hk : k / 2 = p.cs.txCsInsert.toNat / 2) :
    (lanes (scan p.cs p.frame.beats).out)[k]? = (lanes p.frame.beats)[k]? := by
  have heven := p.even
  have hfits := p.fits
  have hbeat := insert_beat p
  have hlt := p.cs.txCsInsert.isLt
  have htail := p.frame.tailLe
  unfold Aligned at hn
  push Not at hn
  rcases hn with ⟨hc, hover⟩
  rw [scan_lanes, lanes_getElem?]
  congr 1
  funext x
  apply byteAt_wdata_kept (by omega)
  rw [insertHit_on hc, insertMask_getLsbD _ _ (by omega), bcnt_toNat p (by omega)]
  by_cases hfull : 8 * (p.cs.txCsInsert.toNat / 8) + 8 ≤ p.frame.length
  · -- The counter has just overflowed to zero.
    have hzero := hover hfull
    rw [decide_eq_false (by omega), Bool.false_and, Bool.false_and]
  · -- The distance is counted from a beat that is not full.
    rw [decide_eq_false (show ¬ (_ : Nat) % 16 = _ by omega), Bool.and_false]

/-- An aligned packet is written as it should be, and no other is, unless the
    checksum is there already. -/
theorem scan_inserted_iff {p : Packet} (hp : ¬ InPlace p) :
    Inserted p.cs p.frame.beats (scan p.cs p.frame.beats).out ↔ Aligned p := by
  refine ⟨fun h => ?_, scan_inserted⟩
  by_contra hn
  have heven := p.even
  have hc : p.cs.txCsCntrl = 0b01 := by
    by_contra hc
    exact hn fun hon => absurd hon hc
  -- Both bytes would have to be the checksum's without having been written.
  refine hp ⟨?_, ?_⟩
  · rw [← scan_lane_kept hn rfl, h.byte, if_pos ⟨hc, rfl⟩]
  · rw [← scan_lane_kept hn (by omega), h.byte, if_neg (by omega), if_pos ⟨hc, rfl⟩]

end Packets

end Ofm

end Eth

end Ml605
