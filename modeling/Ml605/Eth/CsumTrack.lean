import Ml605.Eth.Csum

/-!
# The Checksum Pipeline inside a Packet

What `eth_csum` sums is a function of the beats of a packet alone, whatever the
cycles they come in and whatever their keeps are: a byte count, whether the beat
that holds `CsBegin` has been found, and the sum. `Acc` is that function, one
beat at a time.

While a packet passes, the registers follow it at three distances: of all beats
that have passed, of those up to a cycle ago and of those up to two cycles ago.
`bcnt` belongs to the first, `begin_hit_reg` and `cur_sum_en` to the second and
`sum` to the third. Pauses between beats only let the three catch up with each
other.

`CsBegin` itself is only looked at until the beat that holds it has been found.

## Main definitions

* `Acc`, `acc`: What the beats of a packet leave behind.
* `packetSum`: The folded sum of a packet.
* `Track`: The registers against the beats that have passed.
* `Passing`, `Closing`: The pipeline inside a packet, and after its last beat.

## Theorems

* `track_start`: The first beat of a packet starts afresh.
* `track_step`: A clock cycle inside a packet.
* `track_last`: The sum is complete three cycles after the last beat.
* `passing_beat`, `passing_idle`, `closing_next`: The pipeline moves along.
-/

namespace Ml605

namespace Eth

namespace Csum

/-- What some beats of a packet leave behind. -/
structure Acc where
  bcnt : BitVec 16
  hit : Bool
  sum : BitVec 32
deriving DecidableEq, Repr

/-- The byte count is past the beat that holds `CsBegin`. -/
def past (csBegin bcnt : BitVec 16) : Bool :=
  decide (csBegin.extractLsb' 3 13 < bcnt.extractLsb' 3 13)

/-- The number of bytes from `CsBegin` to the end of its beat. -/
def beginBcnt (csBegin : BitVec 16) : BitVec 4 := 8#4 - (csBegin.extractLsb' 0 3).setWidth 4

/-- One more beat. -/
def Acc.add (csBegin : BitVec 16) (a : Acc) (x : Beat) : Acc :=
  let bcnt := a.bcnt + (keepToCnt x.keep).setWidth 16
  let now := past csBegin bcnt && !a.hit
  let mask := if now then leftToKeep (beginBcnt csBegin) else x.keep
  { bcnt := bcnt
    hit := past csBegin bcnt || a.hit
    sum :=
      if past csBegin bcnt || a.hit then a.sum + (curSumInt mask x.data).setWidth 32 else a.sum }

/-- The beats of a packet from its first on. -/
def acc (csBegin csInit : BitVec 16) (bs : List Beat) : Acc :=
  bs.foldl (Acc.add csBegin) ⟨0, false, csInit.setWidth 32⟩

/-- The folded sum of a packet. -/
def packetSum (csBegin csInit : BitVec 16) (bs : List Beat) : BitVec 16 :=
  sumInt (acc csBegin csInit bs).sum

/-- The registers against the beats that have passed: `s0` by now, `s1` by a
    cycle ago, `s2` by two cycles ago. -/
structure Track (b n : BitVec 16) (s0 s1 s2 : List Beat) (c : Regs) : Prop where
  recent : s0 = s1 ∧ c.tkeepD1 = 0 ∨
    ∃ x, s0 = s1 ++ [x] ∧ c.tdataD1 = x.data ∧ c.tkeepD1 = x.keep
  bcnt : c.bcnt = (acc b n s0).bcnt
  hit : c.beginHitReg = (acc b n s1).hit
  en : c.curSumEn = (acc b n s1).hit
  maskReg : (acc b n s1).hit = false → c.csumMaskBeginReg = leftToKeep (beginBcnt b)
  maskBcnt : (acc b n s1).hit = false → c.csumMaskBeginBcnt = beginBcnt b
  cur : (acc b n s1).hit = true → (acc b n s2).sum + c.curSum.setWidth 32 = (acc b n s1).sum
  before : (acc b n s1).hit = false → (acc b n s2).sum = (acc b n s1).sum
  sum : c.sum = (acc b n s2).sum

/-- The pipeline with the beats `pre` of a packet through it. -/
def Passing (b n : BitVec 16) (pre : List Beat) (c : Regs) : Prop :=
  (pre = [] ∧ c.sof = true ∧ c.csumMaskBeginBcnt = beginBcnt b ∧ c.tvalidD1 = false) ∨
  ∃ s1 s2, Track b n pre s1 s2 c ∧ c.sof = false ∧ c.endHitReg = false ∧
    (c.tvalidD1 && c.tlastD1) = false

/-- The pipeline `k` cycles after the last of the beats `bs`. -/
def Closing (b n : BitVec 16) (bs : List Beat) (k : Nat) (c : Regs) : Prop :=
  match k with
  | 1 => ∃ s1 s2, Track b n bs s1 s2 c ∧ c.endHitReg = false ∧ (c.tvalidD1 && c.tlastD1) = true
  | 2 => ∃ s2, Track b n bs bs s2 c ∧ c.endHitReg = true
  | 3 => sumInt c.sum = packetSum b n bs ∧ c.endHitD1 = true
  | 4 => rxSum c = rxSumOf (packetSum b n bs) ∧ txSum c = txSumOf (packetSum b n bs)
  | _ => True

/-- The beat a cycle brings, if any. -/
def arriving (i : Input) : List Beat := if i.dataFifoWren then [i.dataFifoWdata] else []

section Accumulator

variable (b n : BitVec 16)

theorem acc_nil : acc b n [] = ⟨0, false, n.setWidth 32⟩ := rfl

theorem acc_snoc (bs : List Beat) (x : Beat) :
    acc b n (bs ++ [x]) = (acc b n bs).add b x := List.foldl_concat ..

theorem acc_snoc_bcnt (bs : List Beat) (x : Beat) :
    (acc b n (bs ++ [x])).bcnt = (acc b n bs).bcnt + (keepToCnt x.keep).setWidth 16 := by
  rw [acc_snoc, Acc.add]

theorem acc_snoc_hit (bs : List Beat) (x : Beat) :
    (acc b n (bs ++ [x])).hit = (past b (acc b n (bs ++ [x])).bcnt || (acc b n bs).hit) := by
  rw [acc_snoc, Acc.add]

/-- The mask of a beat, `hit` telling whether `CsBegin` was found before it. -/
theorem acc_snoc_sum {bs : List Beat} {x : Beat} (h : (acc b n (bs ++ [x])).hit = true) :
    (acc b n (bs ++ [x])).sum = (acc b n bs).sum +
      (curSumInt (if (acc b n bs).hit then x.keep else leftToKeep (beginBcnt b))
        x.data).setWidth 32 := by
  rw [acc_snoc_hit] at h
  rw [acc_snoc] at h ⊢
  have hsum : ((acc b n bs).add b x).sum = if past b ((acc b n bs).add b x).bcnt ||
      (acc b n bs).hit then (acc b n bs).sum + (curSumInt (if past b ((acc b n bs).add b x).bcnt &&
        !(acc b n bs).hit then leftToKeep (beginBcnt b) else x.keep) x.data).setWidth 32
      else (acc b n bs).sum := rfl
  rw [hsum, if_pos h]
  cases hfound : (acc b n bs).hit with
  | true => rw [Bool.not_true, Bool.and_false, if_neg Bool.false_ne_true, if_pos rfl]
  | false =>
      rw [hfound, Bool.or_false] at h
      rw [h, Bool.not_false, Bool.and_true, if_pos rfl, if_neg Bool.false_ne_true]

theorem acc_snoc_before {bs : List Beat} {x : Beat} (h : (acc b n (bs ++ [x])).hit = false) :
    (acc b n (bs ++ [x])).sum = (acc b n bs).sum := by
  rw [acc_snoc] at h ⊢
  exact if_neg (by rw [show (_ || _) = false from h]; exact Bool.false_ne_true)

/-- A count past `CsBegin` has been noticed. -/
theorem hit_of_past {bs : List Beat} (h : past b (acc b n bs).bcnt = true) :
    (acc b n bs).hit = true := by
  rcases List.eq_nil_or_concat bs with rfl | ⟨bs, x, rfl⟩
  · -- Zero bytes are not past anything.
    have hlt := BitVec.lt_def.mp (of_decide_eq_true h)
    have hzero : ((acc b n []).bcnt.extractLsb' 3 13).toNat = 0 := by
      simp only [acc_nil]
      decide
    omega
  · rw [List.concat_eq_append] at h ⊢
    rw [acc_snoc_hit, h, Bool.true_or]

/-- A blanked word adds nothing. -/
theorem curSumInt_zero (w : BitVec 64) : curSumInt 0 w = 0#19 := by
  apply BitVec.eq_of_toNat_eq
  rw [curSumInt_toNat, maskBytes_zero, Lib.wordSum_zeros]
  rfl

end Accumulator

section Steps

variable {b n : BitVec 16} {s0 s1 s2 : List Beat} {c : Regs} {i : Input}

theorem beginHit_eq (h : Track b n s0 s1 s2 c) :
    beginHit c i = (past i.csBegin (acc b n s0).bcnt && !(acc b n s1).hit) := by
  rw [beginHit, h.hit, h.bcnt, past]

/-- The beat that holds `CsBegin` is found in the cycle after it. `CsBegin` does
    not matter any more once it has been. -/
theorem hit_next (h : Track b n s0 s1 s2 c) (hb : i.csBegin = b ∨ (acc b n s1).hit = true) :
    (acc b n s0).hit = (beginHit c i || (acc b n s1).hit) := by
  rw [beginHit_eq h]
  cases hfound : (acc b n s1).hit with
  | true =>
      rw [Bool.or_true]
      rcases h.recent with ⟨rfl, _⟩ | ⟨x, rfl, _, _⟩
      · exact hfound
      · rw [acc_snoc_hit, hfound, Bool.or_true]
  | false =>
      have hb : i.csBegin = b := hb.resolve_right (by rw [hfound]; exact Bool.false_ne_true)
      rw [hb, Bool.not_false, Bool.and_true, Bool.or_false]
      rcases h.recent with ⟨rfl, _⟩ | ⟨x, rfl, _, _⟩
      · -- No beat in the cycle before: what is past has been noticed.
        cases hpast : past b (acc b n s0).bcnt with
        | true => exact hit_of_past b n hpast
        | false => exact hfound
      · rw [acc_snoc_hit, hfound, Bool.or_false]

/-- What the adder registers is what the last beat adds. -/
theorem cur_next (h : Track b n s0 s1 s2 c) (hb : i.csBegin = b ∨ (acc b n s1).hit = true)
    (hseen : (acc b n s0).hit = true) :
    (acc b n s1).sum + (next c i).curSum.setWidth 32 = (acc b n s0).sum := by
  have hcur : (next c i).curSum = curSumInt (csumMask c i) c.tdataD1 := rfl
  have hfound := hit_next h hb
  rw [hseen] at hfound
  rw [hcur, csumMask]
  rcases h.recent with ⟨rfl, hkeep⟩ | ⟨x, rfl, hdata, hkeep⟩
  · -- No beat in the cycle before: the keep is zero and nothing is found.
    rw [beginHit_eq h, hseen, Bool.not_true, Bool.and_false, if_neg Bool.false_ne_true, hkeep,
      curSumInt_zero, BitVec.setWidth_zero]
    exact BitVec.add_zero _
  · rw [acc_snoc_sum b n hseen, hdata]
    cases hbefore : (acc b n s1).hit with
    | true =>
        -- Past the beat that holds `CsBegin` the keep is the mask.
        rw [beginHit_eq h, hbefore, Bool.not_true, Bool.and_false, if_neg Bool.false_ne_true,
          if_pos rfl, hkeep]
    | false =>
        rw [hbefore, Bool.or_false] at hfound
        rw [← hfound, if_pos rfl, if_neg Bool.false_ne_true, h.maskReg hbefore]

/-- Until `CsBegin` has been found nothing is summed. -/
theorem before_next (h : Track b n s0 s1 s2 c) (hseen : (acc b n s0).hit = false) :
    (acc b n s1).sum = (acc b n s0).sum := by
  rcases h.recent with ⟨rfl, _⟩ | ⟨x, rfl, _, _⟩
  · rfl
  · exact (acc_snoc_before b n hseen).symm

/-- What has been found stays found. -/
theorem hit_stays (h : Track b n s0 s1 s2 c) (hseen : (acc b n s0).hit = false) :
    (acc b n s1).hit = false := by
  rcases h.recent with ⟨rfl, _⟩ | ⟨x, rfl, _, _⟩
  · exact hseen
  · rw [acc_snoc_hit] at hseen
    exact (Bool.or_eq_false_iff.mp hseen).2

/-- The accumulator takes in the beat of two cycles ago. -/
theorem sum_next (h : Track b n s0 s1 s2 c) (hmid : (i.dataFifoWren && c.sof) = false) :
    (next c i).sum = (acc b n s1).sum := by
  simp only [next, hmid, Bool.false_eq_true, if_false, h.en, h.sum]
  cases hseen : (acc b n s1).hit with
  | true => rw [if_pos rfl, h.cur hseen]
  | false => rw [if_neg Bool.false_ne_true, h.before hseen]

/-- The mask is prepared from `CsBegin` in the cycle before. -/
theorem maskBcnt_next (hb : i.csBegin = b) : (next c i).csumMaskBeginBcnt = beginBcnt b := by
  rw [← hb]
  rfl

/-- A clock cycle inside a packet, with or without a beat. -/
theorem track_step (h : Track b n s0 s1 s2 c) (hmid : (i.dataFifoWren && c.sof) = false)
    (hend : c.endHitReg = false) (hb : i.csBegin = b ∨ (acc b n s1).hit = true) :
    Track b n (s0 ++ arriving i) s0 s1 (next c i) := by
  have hfound := hit_next h hb
  -- As long as `CsBegin` has not been reached it is what it should be.
  have hstable (hseen : (acc b n s0).hit = false) : i.csBegin = b := by
    rcases hb with hb | hb
    · exact hb
    · exact absurd ((hit_stays h hseen).symm.trans hb) Bool.false_ne_true
  refine ⟨?_, ?_, ?_, ?_, ?_, ?_, cur_next h hb, before_next h, sum_next h hmid⟩
  · -- A pause clears the keep, so what the adder then sees adds nothing.
    cases hw : i.dataFifoWren with
    | false =>
        refine Or.inl ⟨?_, ?_⟩
        · simp only [arriving, hw, Bool.false_eq_true, if_false, List.append_nil]
        · simp only [next, hw, Bool.false_eq_true, if_false]
    | true =>
        refine Or.inr ⟨i.dataFifoWdata, ?_, rfl, ?_⟩
        · simp only [arriving, hw, if_true]
        · simp only [next, hw, if_true]
  · cases hw : i.dataFifoWren with
    | false =>
        simp only [next, arriving, hw, Bool.false_and, Bool.false_eq_true, if_false,
          List.append_nil, h.bcnt]
    | true =>
        rw [hw] at hmid
        simp only [next, arriving, hw, hmid, Bool.false_eq_true, if_false, if_true, acc_snoc_bcnt,
          h.bcnt]
  · rw [hfound]
    simp only [next, hmid, Bool.false_eq_true, if_false, h.hit]
    cases (acc b n s1).hit with
    | false => rw [Bool.not_false, if_pos rfl, Bool.or_false]
    | true => rw [Bool.not_true, if_neg Bool.false_ne_true, Bool.or_true]
  · rw [hfound]
    simp only [next, hmid, hend, Bool.or_false, Bool.false_eq_true, if_false, h.en]
    cases beginHit c i with
    | false => rfl
    | true => rfl
  · intro hseen
    simp only [next]
    rw [h.maskBcnt (hit_stays h hseen)]
  · intro hseen
    exact maskBcnt_next (hstable hseen)

/-- The first beat of a packet starts afresh, whatever the registers hold, except
    that the mask must have been prepared. -/
theorem track_start (hsof : c.sof = true) (hw : i.dataFifoWren = true) (hb : i.csBegin = b)
    (hinit : i.csInit = n) (hmask : c.csumMaskBeginBcnt = beginBcnt b) :
    Track b n [i.dataFifoWdata] [] [] (next c i) := by
  have hfirst : (i.dataFifoWren && c.sof) = true := by
    rw [hw, hsof]
    rfl
  have hfound : (acc b n []).hit = false := rfl
  refine ⟨Or.inr ⟨i.dataFifoWdata, rfl, rfl, ?_⟩, ?_, ?_, ?_, ?_, ?_, ?_, fun _ => rfl, ?_⟩
  · simp only [next, hw, if_true]
  · simp only [next, hfirst, if_true]
    exact (BitVec.zero_add _).symm
  · simp only [next, hfirst, if_true, hfound]
  · simp only [next, hfirst, Bool.true_or, if_true, hfound]
  · intro _
    simp only [next]
    rw [hmask]
  · intro _
    exact maskBcnt_next hb
  · intro h
    exact absurd (hfound.symm.trans h) Bool.false_ne_true
  · simp only [next, hfirst, if_true, hinit, acc_nil]

/-- When all beats have passed a cycle ago, the next cycle completes the sum. -/
theorem track_last (h : Track b n s0 s1 s2 c) (hmid : (i.dataFifoWren && c.sof) = false) :
    sumInt (next c i).sum = packetSum b n s1 := by
  rw [sum_next h hmid, packetSum]

theorem sof_idle (hw : i.dataFifoWren = false) : (next c i).sof = c.sof := by
  simp only [next, hw, Bool.false_and, Bool.false_eq_true, if_false]

end Steps

section Packets

variable {b n : BitVec 16} {pre bs : List Beat} {c : Regs} {i : Input}

theorem arriving_of_wren (h : i.dataFifoWren = true) : arriving i = [i.dataFifoWdata] := by
  rw [arriving, if_pos h]

theorem arriving_of_idle (h : i.dataFifoWren = false) : arriving i = [] := by
  rw [arriving, h, if_neg Bool.false_ne_true]

/-- A beat passes. -/
theorem passing_beat (h : Passing b n pre c) (hw : i.dataFifoWren = true)
    (hb : i.csBegin = b) (hinit : i.csInit = n) :
    ∃ s1 s2, Track b n (pre ++ [i.dataFifoWdata]) s1 s2 (next c i) ∧
      (next c i).endHitReg = false ∧ (next c i).sof = i.dataFifoWdata.last ∧
        ((next c i).tvalidD1 && (next c i).tlastD1) = i.dataFifoWdata.last := by
  have hsof : (next c i).sof = i.dataFifoWdata.last := by
    simp only [next, hw, Bool.true_and, if_true]
    cases i.dataFifoWdata.last with
    | false => rfl
    | true => rfl
  have hend : ((next c i).tvalidD1 && (next c i).tlastD1) = i.dataFifoWdata.last := by
    simp only [next, hw, Bool.true_and]
  rcases h with ⟨rfl, hs, hmask, hv⟩ | ⟨s1, s2, htrack, hs, hreg, hd1⟩
  · -- The first beat starts the sum.
    refine ⟨[], [], track_start hs hw hb hinit hmask, ?_, hsof, hend⟩
    simp only [next, hv, Bool.false_and]
  · have hmid : (i.dataFifoWren && c.sof) = false := by rw [hs, Bool.and_false]
    have hnext := track_step htrack hmid hreg (Or.inl hb)
    rw [arriving_of_wren hw] at hnext
    exact ⟨pre, s1, hnext, hd1, hsof, hend⟩

/-- A pause inside a packet or before it. -/
theorem passing_idle (h : Passing b n pre c) (hw : i.dataFifoWren = false)
    (hb : i.csBegin = b) : Passing b n pre (next c i) := by
  have hsof : (next c i).sof = c.sof := sof_idle hw
  rcases h with ⟨rfl, hs, _, _⟩ | ⟨s1, s2, htrack, hs, hreg, hd1⟩
  · exact Or.inl ⟨rfl, hsof.trans hs, maskBcnt_next hb, hw⟩
  · have hmid : (i.dataFifoWren && c.sof) = false := by rw [hw, Bool.false_and]
    have hnext := track_step htrack hmid hreg (Or.inl hb)
    rw [arriving_of_idle hw, List.append_nil] at hnext
    refine Or.inr ⟨pre, s1, hnext, hsof.trans hs, hd1, ?_⟩
    simp only [next, hw, Bool.false_and]

/-- After the last beat the pipeline empties, one register at a time. -/
theorem closing_next {k : Nat} (hk : 1 ≤ k) (h : Closing b n bs k c)
    (hw : i.dataFifoWren = false) (hb : k = 1 → i.csBegin = b) :
    Closing b n bs (k + 1) (next c i) := by
  have hmid : (i.dataFifoWren && c.sof) = false := by rw [hw, Bool.false_and]
  match k with
  | 1 =>
      rcases h with ⟨s1, s2, htrack, hreg, hd1⟩
      have hnext := track_step htrack hmid hreg (Or.inl (hb rfl))
      rw [arriving_of_idle hw, List.append_nil] at hnext
      exact ⟨s1, hnext, hd1⟩
  | 2 =>
      rcases h with ⟨s2, htrack, hreg⟩
      exact ⟨track_last htrack hmid, hreg⟩
  | 3 =>
      -- The folded sum is registered.
      refine ⟨?_, ?_⟩
      · simp only [rxSum, next, h.2, if_true, h.1, rxSumOf]
        split_ifs <;> rfl
      · simp only [txSum, next, h.2, if_true, h.1, txSumOf]
        split_ifs <;> rfl
  | k + 4 => exact trivial

end Packets

end Csum

end Eth

end Ml605
