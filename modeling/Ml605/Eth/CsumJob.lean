import Ml605.Eth.CsumTrack

/-!
# The Checksum of a Frame

What the checksum pipeline leaves behind for a proper frame, whose beats are
full up to the last: the byte count is that of the beats, `CsBegin` has been
found once the beat that holds it has passed, and the sum is the plain sum of
the words from there on, which folds to the checksum of the bytes.

## Main definitions

* `Job`: A frame with the place and the start value of its checksum.
* `partialSum`: The plain sum of the words of some beats from `CsBegin` on.

## Theorems

* `acc_job`: The accumulator over the first beats of a frame.
* `partialSum_beats`: The sum over a frame is that over its bytes.
* `packetSum_job`: The folded sum of a frame is its checksum.
-/

namespace Ml605

namespace Eth

namespace Csum

open Lib

/-- A frame with the place and the start value of its checksum. The beat that
    holds `CsBegin` is full. -/
structure Job where
  frame : Frame
  csBegin : BitVec 16
  csInit : BitVec 16
  short : frame.length < 65536
  even : csBegin.toNat % 2 = 0
  full : 8 * (csBegin.toNat / 8) + 8 ≤ frame.length

namespace Job

/-- The beat that holds `CsBegin`. -/
def start (j : Job) : Nat := j.csBegin.toNat / 8

/-- The place of `CsBegin` in that beat. -/
def offset (j : Job) : Nat := j.csBegin.toNat % 8

/-- The checksum of the frame. -/
def value (j : Job) : BitVec 16 := checksum j.csInit (j.frame.bytes.drop j.csBegin.toNat)

theorem start_le (j : Job) : j.start ≤ j.frame.body.length := by
  have hfull := j.full
  have hle := j.frame.tailLe
  rw [Frame.length] at hfull
  unfold start
  omega

end Job

/-- The bytes of some beats, those that are not kept blanked. -/
def padded (bs : List Beat) : List (BitVec 8) := bs.flatMap fun x => maskBytes x.keep x.data

/-- The plain sum of the words of some beats from `CsBegin` on. -/
def partialSum (j : Job) (bs : List Beat) : Nat := wordSum ((padded bs).drop j.csBegin.toNat)

section Sums

variable (j : Job)

theorem padded_snoc (bs : List Beat) (x : Beat) :
    padded (bs ++ [x]) = padded bs ++ maskBytes x.keep x.data := by
  simp only [padded, List.flatMap_append, List.flatMap_cons, List.flatMap_nil, List.append_nil]

theorem padded_length (bs : List Beat) : (padded bs).length = 8 * bs.length := by
  induction bs using List.reverseRecOn with
  | nil => rfl
  | append_singleton bs x ih =>
      rw [padded_snoc, List.length_append, ih, maskBytes_length, List.length_append,
        List.length_singleton]
      omega

/-- Beats before the one that holds `CsBegin` do not count. -/
theorem partialSum_before {bs : List Beat} (h : bs.length ≤ j.start) : partialSum j bs = 0 := by
  have hall : (padded bs).length ≤ j.csBegin.toNat := by
    rw [padded_length]
    unfold Job.start at h
    omega
  rw [partialSum, List.drop_eq_nil_of_le hall]
  rfl

/-- Of the beat that holds `CsBegin` the bytes from there on count. -/
theorem partialSum_at {bs : List Beat} (x : Beat) (h : bs.length = j.start) :
    partialSum j (bs ++ [x]) = wordSum ((maskBytes x.keep x.data).drop j.offset) := by
  have hlen := padded_length bs
  have hplace : j.csBegin.toNat = (padded bs).length + j.offset := by
    rw [hlen, h, Job.start, Job.offset]
    omega
  rw [partialSum, padded_snoc, hplace, List.drop_length_add_append]

/-- Of the beats after it all bytes count. -/
theorem partialSum_after {bs : List Beat} (x : Beat) (h : j.start < bs.length) :
    partialSum j (bs ++ [x]) = partialSum j bs + wordSum (maskBytes x.keep x.data) := by
  have hlen := padded_length bs
  have heven := j.even
  unfold Job.start at h
  rw [partialSum, padded_snoc, List.drop_append_of_le_length (by omega), wordSum_append]
  · rfl
  · -- Words do not cross beats, since `CsBegin` is even.
    rw [List.length_drop]
    omega

theorem partialSum_le {bs : List Beat} (h : bs.length ≤ j.frame.body.length + 1) :
    partialSum j bs < 2 ^ 31 := by
  -- At most 65536 bytes, and a word of two bytes is below 65536.
  have hle := wordSum_le ((padded bs).drop j.csBegin.toNat)
  have hlen := padded_length bs
  have hshort := j.short
  have hpos := j.frame.tailPos
  rw [List.length_drop] at hle
  rw [Frame.length] at hshort
  unfold partialSum
  omega

theorem padded_full (ws : List (BitVec 64)) :
    padded (ws.map fullBeat) = lanes (ws.map fullBeat) := by
  induction ws with
  | nil => rfl
  | cons w ws ih =>
      have hcons : padded ((w :: ws).map fullBeat) =
          maskBytes (keepOf 8) w ++ padded (ws.map fullBeat) := rfl
      rw [hcons, ih, maskBytes_keepOf w (by omega)]
      rfl

/-- A frame is its bytes and the blanked end of its last beat. -/
theorem padded_beats (f : Frame) :
    padded f.beats = f.bytes ++ List.replicate (8 - f.tailCnt) 0#8 := by
  have hle := f.tailLe
  have hsplit : lanes f.beats = lanes (f.body.map fullBeat) ++ bytesOf f.tail := by
    simp only [lanes, Frame.beats, List.flatMap_append, List.flatMap_cons, List.flatMap_nil,
      List.append_nil, Frame.tailBeat]
  have hbody : (lanes (f.body.map fullBeat)).length = 8 * f.body.length := by
    rw [lanes_length, List.length_map]
  have hbytes : f.bytes = lanes (f.body.map fullBeat) ++ (bytesOf f.tail).take f.tailCnt := by
    rw [Frame.bytes, hsplit, Frame.length, ← hbody, List.take_length_add_append]
  rw [Frame.beats, padded_snoc, padded_full, hbytes, List.append_assoc, Frame.tailBeat,
    maskBytes_keepOf _ hle]

/-- The sum over a frame is that over its bytes from `CsBegin` on. -/
theorem partialSum_beats :
    partialSum j j.frame.beats = wordSum (j.frame.bytes.drop j.csBegin.toNat) := by
  have hfull := j.full
  have hin : j.csBegin.toNat ≤ j.frame.bytes.length := by
    rw [Frame.bytes_length]
    omega
  rw [partialSum, padded_beats, List.drop_append_of_le_length hin, wordSum_append_zeros]

/-- The mask on the left sums the bytes from the offset on. -/
theorem wordSum_leftToKeep (w : BitVec 64) :
    wordSum (maskBytes (leftToKeep (BitVec.ofNat 4 (8 - j.offset))) w) =
      wordSum ((bytesOf w).drop j.offset) := by
  have heven := j.even
  have hlt : j.offset < 8 := Nat.mod_lt _ (by omega)
  have hoff : j.offset % 2 = 0 := by
    unfold Job.offset
    omega
  rw [maskBytes_leftToKeep w hlt, wordSum_append, wordSum_zeros, Nat.zero_add]
  rw [List.length_replicate]
  exact hoff

end Sums

section Accumulated

variable {j : Job} {bs : List Beat} {x : Beat}

theorem length_le_of_seen (h : bs <+: j.frame.beats) : bs.length ≤ j.frame.body.length + 1 := by
  rw [← Frame.beats_length]
  exact h.length_le

theorem byteCount_of_seen (h : bs <+: j.frame.beats) :
    byteCount bs = min (8 * bs.length) j.frame.length := by
  have htake := List.prefix_iff_eq_take.mp h
  have hcount := j.frame.byteCount_take (length_le_of_seen h)
  rw [← htake] at hcount
  exact hcount

theorem beginBcnt_eq (j : Job) : beginBcnt j.csBegin = BitVec.ofNat 4 (8 - j.offset) := by
  apply BitVec.eq_of_toNat_eq
  simp only [beginBcnt, BitVec.toNat_sub, BitVec.toNat_setWidth, BitVec.extractLsb'_toNat,
    BitVec.toNat_ofNat, Job.offset, Nat.shiftRight_zero]
  omega

/-- The counter is past `CsBegin` once the beat that holds it has passed. -/
theorem past_eq {bcnt : BitVec 16} (hseen : bs <+: j.frame.beats)
    (hcnt : bcnt.toNat = byteCount bs) :
    past j.csBegin bcnt = decide (j.start < bs.length) := by
  have hfull := j.full
  have hshort := j.short
  have hlt := j.csBegin.isLt
  refine decide_eq_decide.mpr ?_
  rw [BitVec.lt_def]
  -- Both sides are numbers of beats, the lower three bits being cut off.
  simp only [BitVec.extractLsb'_toNat, Nat.shiftRight_eq_div_pow, hcnt, byteCount_of_seen hseen,
    Job.start, Nat.reducePow]
  omega

/-- The beat that holds `CsBegin` is full. -/
theorem keep_of_start (hseen : bs ++ [x] <+: j.frame.beats) (hlen : bs.length = j.start) :
    x.keep = keepOf 8 := by
  rcases hseen with ⟨post, hpost⟩
  rw [List.append_assoc, List.singleton_append] at hpost
  rcases j.frame.beats_split hpost.symm with ⟨_, rfl, hbody⟩ | ⟨_, hk, _⟩
  · have hroom := j.full
    have hle := j.frame.tailLe
    have hcnt : j.frame.tailCnt = 8 := by
      rw [hbody, List.length_map, Job.start] at hlen
      rw [Frame.length] at hroom
      omega
    rw [Frame.tailBeat, hcnt]
  · exact hk

/-- What the beat that holds `CsBegin` adds. -/
theorem curSumInt_start (hseen : bs ++ [x] <+: j.frame.beats) (hlen : bs.length = j.start) :
    (curSumInt (leftToKeep (beginBcnt j.csBegin)) x.data).toNat = partialSum j (bs ++ [x]) := by
  rw [curSumInt_toNat, beginBcnt_eq, wordSum_leftToKeep, partialSum_at j x hlen,
    keep_of_start hseen hlen, maskBytes_keepOf x.data (by omega), Nat.sub_self,
    List.replicate_zero, List.append_nil, List.take_of_length_le (by rw [bytesOf_length])]

/-- The accumulator over the first beats of a frame: how many bytes they have,
    whether `CsBegin` is among them, and the plain sum. -/
theorem acc_job (hseen : bs <+: j.frame.beats) :
    (acc j.csBegin j.csInit bs).bcnt.toNat = byteCount bs ∧
      (acc j.csBegin j.csInit bs).hit = decide (j.start < bs.length) ∧
        (acc j.csBegin j.csInit bs).sum.toNat = j.csInit.toNat + partialSum j bs := by
  have hinit := j.csInit.isLt
  induction bs using List.reverseRecOn with
  | nil =>
      refine ⟨rfl, rfl, ?_⟩
      rw [partialSum_before j (Nat.zero_le _), acc_nil, BitVec.toNat_setWidth]
      omega
  | append_singleton bs x ih =>
      rcases ih ((List.prefix_append bs [x]).trans hseen) with ⟨hbcnt, hhit, hsum⟩
      -- The count stays below the range of the counter.
      have hcnt : (acc j.csBegin j.csInit (bs ++ [x])).bcnt.toNat = byteCount (bs ++ [x]) := by
        have hcount := byteCount_of_seen hseen
        have hshort := j.short
        have hbyte := (keepToCnt x.keep).isLt
        rw [byteCount_snoc] at hcount ⊢
        rw [acc_snoc_bcnt, BitVec.toNat_add, BitVec.toNat_setWidth, hbcnt]
        omega
      have hfound : (acc j.csBegin j.csInit (bs ++ [x])).hit =
          decide (j.start < (bs ++ [x]).length) := by
        rw [acc_snoc_hit, past_eq hseen hcnt, hhit, ← Bool.decide_or, List.length_append]
        refine decide_eq_decide.mpr ?_
        omega
      refine ⟨hcnt, hfound, ?_⟩
      have hbound := partialSum_le j (length_le_of_seen hseen)
      by_cases hstart : j.start < (bs ++ [x]).length
      · rw [decide_eq_true hstart] at hfound
        rw [acc_snoc_sum _ _ hfound, hhit, BitVec.toNat_add, BitVec.toNat_setWidth, hsum]
        by_cases hbefore : j.start < bs.length
        · have hcur := curSumInt_toNat x.keep x.data
          have hafter := partialSum_after j x hbefore
          rw [decide_eq_true hbefore, if_pos rfl]
          omega
        · have hlen : bs.length = j.start := by
            rw [List.length_append, List.length_singleton] at hstart
            omega
          have hcur := curSumInt_start hseen hlen
          rw [decide_eq_false hbefore, if_neg Bool.false_ne_true,
            partialSum_before j (by omega)]
          omega
      · rw [decide_eq_false hstart] at hfound
        have hlen : (bs ++ [x]).length = bs.length + [x].length := List.length_append
        rw [acc_snoc_before _ _ hfound, hsum, partialSum_before j (by omega : bs.length ≤ j.start),
          partialSum_before j (by omega : (bs ++ [x]).length ≤ j.start)]

theorem acc_sum_lt (hseen : bs <+: j.frame.beats) :
    (acc j.csBegin j.csInit bs).sum.toNat < 2 ^ 31 + 2 ^ 16 := by
  have hbound := partialSum_le j (length_le_of_seen hseen)
  have hinit := j.csInit.isLt
  rw [(acc_job hseen).2.2]
  omega

/-- The folded sum of a frame is its checksum. -/
theorem packetSum_job (j : Job) : packetSum j.csBegin j.csInit j.frame.beats = j.value := by
  apply sumInt_eq_checksum
  rw [(acc_job List.prefix_rfl).2.2, partialSum_beats]

/-- A sum within the range of a frame leaves room for the sum of a beat. -/
theorem noOverflow_of_lt {c : Regs} (h : c.sum.toNat < 2 ^ 31 + 2 ^ 16) : NoOverflow c := by
  have hlt := c.curSum.isLt
  exact ⟨by omega, sumInt0_toNat c.sum, sumInt_toNat c.sum⟩

end Accumulated

end Csum

end Eth

end Ml605
