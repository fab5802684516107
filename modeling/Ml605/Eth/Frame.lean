import Mathlib.Tactic

/-!
# Frames on the 64-Bit Stream

The Ethernet core moves frames as words of 73 bits: 64 data bits, eight keep
bits and the last flag. Byte `k` of a beat is the bits `8 k` to `8 k + 7` of
its data.

A `Frame` is what the blocks of the core expect of each other: full beats, then
one last beat with a contiguous, non-empty keep. The bound on the last beat is
a field, so a frame with an empty or an oversized last beat cannot be written
down. The bytes of the last beat that are not kept are part of the frame all
the same, because the hardware carries them along.

## Main definitions

* `Beat`, `Frame`: One stream word, and a frame of them.
* `keepToCnt`, `leftToKeep`: The two tables between keeps and counts.
* `lanes`: Every byte of a list of beats, kept or not.
* `byteCount`: The number of bytes that are kept.
* `Frame.bytes`: The bytes of a frame.

## Theorems

* `keepToCnt_keepOf`: The count of a contiguous keep.
* `lanes_getElem?`: A byte of a list of beats by its offset.
* `Frame.beats_split`: What is read before the last beat is full beats.
* `Frame.byteCount_take`: How many bytes the first beats have.
-/

namespace Ml605

namespace Eth

/-- One word of the stream, the bits `[63:0]`, `[71:64]` and `[72]`. -/
structure Beat where
  data : BitVec 64
  keep : BitVec 8
  last : Bool
deriving DecidableEq, Repr

/-- Module `keep_to_cnt`: the number of bytes of a contiguous keep, and zero
    for any other pattern. -/
def keepToCnt (keep : BitVec 8) : BitVec 4 :=
  if keep = 0b0000_0001#8 then 1
  else if keep = 0b0000_0011#8 then 2
  else if keep = 0b0000_0111#8 then 3
  else if keep = 0b0000_1111#8 then 4
  else if keep = 0b0001_1111#8 then 5
  else if keep = 0b0011_1111#8 then 6
  else if keep = 0b0111_1111#8 then 7
  else if keep = 0b1111_1111#8 then 8
  else 0

/-- Module `left_to_keep`: the keep of the last `cnt` bytes of a beat. -/
def leftToKeep (cnt : BitVec 4) : BitVec 8 :=
  if cnt = 1 then 0b1000_0000
  else if cnt = 2 then 0b1100_0000
  else if cnt = 3 then 0b1110_0000
  else if cnt = 4 then 0b1111_0000
  else if cnt = 5 then 0b1111_1000
  else if cnt = 6 then 0b1111_1100
  else if cnt = 7 then 0b1111_1110
  else if cnt = 8 then 0b1111_1111
  else 0

/-- The keep of the first `n` bytes of a beat. -/
def keepOf (n : Nat) : BitVec 8 := BitVec.ofNat 8 (2 ^ n - 1)

theorem keepToCnt_keepOf {n : Nat} (h1 : 1 ≤ n) (h8 : n ≤ 8) :
    keepToCnt (keepOf n) = BitVec.ofNat 4 n := by
  -- Both are tables of eight rows.
  interval_cases n <;> rfl

/-- Byte `k` of a data word. -/
def byteAt (w : BitVec 64) (k : Nat) : BitVec 8 := w.extractLsb' (8 * k) 8

/-- The bytes of a data word in the order of the wire. -/
def bytesOf (w : BitVec 64) : List (BitVec 8) := (List.range 8).map (byteAt w)

theorem bytesOf_length (w : BitVec 64) : (bytesOf w).length = 8 := by
  simp only [bytesOf, List.length_map, List.length_range]

/-- Every byte of a list of beats, kept or not. -/
def lanes (bs : List Beat) : List (BitVec 8) := bs.flatMap fun x => bytesOf x.data

theorem lanes_length (bs : List Beat) : (lanes bs).length = 8 * bs.length := by
  induction bs with
  | nil => rfl
  | cons x xs ih =>
      have hcons : lanes (x :: xs) = bytesOf x.data ++ lanes xs := rfl
      rw [hcons, List.length_append, bytesOf_length, ih, List.length_cons]
      omega

/-- A byte of a list of beats by its offset: the beat is the quotient by eight,
    the place in it the remainder. -/
theorem lanes_getElem? (bs : List Beat) (k : Nat) :
    (lanes bs)[k]? = bs[k / 8]?.map fun x => byteAt x.data (k % 8) := by
  induction bs generalizing k with
  | nil => rfl
  | cons x xs ih =>
      have hcons : lanes (x :: xs) = bytesOf x.data ++ lanes xs := rfl
      rw [hcons]
      by_cases hk : k < 8
      · rw [List.getElem?_append_left (by rw [bytesOf_length]; exact hk),
          Nat.div_eq_of_lt hk, Nat.mod_eq_of_lt hk]
        simp only [bytesOf, List.getElem?_map, List.getElem?_range hk, Option.map_some,
          List.getElem?_cons_zero]
      · -- Past the first beat the offset is counted from the second.
        rw [List.getElem?_append_right (by rw [bytesOf_length]; omega), bytesOf_length, ih (k - 8),
          show k / 8 = (k - 8) / 8 + 1 by omega, show k % 8 = (k - 8) % 8 by omega,
          List.getElem?_cons_succ]

/-- The number of bytes the keeps of some beats count. -/
def byteCount (bs : List Beat) : Nat := (bs.map fun x => (keepToCnt x.keep).toNat).sum

theorem byteCount_snoc (bs : List Beat) (x : Beat) :
    byteCount (bs ++ [x]) = byteCount bs + (keepToCnt x.keep).toNat := by
  simp only [byteCount, List.map_append, List.sum_append, List.map_cons, List.map_nil,
    List.sum_cons, List.sum_nil, Nat.add_zero]

/-- A full beat that is not the last of its frame. -/
def fullBeat (w : BitVec 64) : Beat := ⟨w, keepOf 8, false⟩

theorem byteCount_full (ws : List (BitVec 64)) :
    byteCount (ws.map fullBeat) = 8 * ws.length := by
  induction ws with
  | nil => rfl
  | cons w ws ih =>
      have hcons : byteCount ((w :: ws).map fullBeat) = 8 + byteCount (ws.map fullBeat) := rfl
      rw [hcons, ih, List.length_cons]
      omega

/-- Full beats, then a last one of one to eight bytes. -/
structure Frame where
  body : List (BitVec 64)
  tail : BitVec 64
  tailCnt : Nat
  tailPos : 1 ≤ tailCnt
  tailLe : tailCnt ≤ 8
deriving DecidableEq

namespace Frame

/-- A frame whose last beat is full. -/
def whole (body : List (BitVec 64)) (tail : BitVec 64) : Frame :=
  ⟨body, tail, 8, by omega, by omega⟩

/-- The last beat. -/
def tailBeat (f : Frame) : Beat := ⟨f.tail, keepOf f.tailCnt, true⟩

/-- A frame as it crosses the stream. -/
def beats (f : Frame) : List Beat := f.body.map fullBeat ++ [f.tailBeat]

/-- The number of bytes. -/
def length (f : Frame) : Nat := 8 * f.body.length + f.tailCnt

/-- The bytes in the order of the wire. -/
def bytes (f : Frame) : List (BitVec 8) := (lanes f.beats).take f.length

theorem beats_length (f : Frame) : f.beats.length = f.body.length + 1 := by
  simp only [beats, List.length_append, List.length_map, List.length_singleton]

theorem bytes_length (f : Frame) : f.bytes.length = f.length := by
  have hle := f.tailLe
  rw [bytes, List.length_take, lanes_length, beats_length, length]
  omega

/-- Whatever is read before the last beat is full beats. -/
theorem beats_split (f : Frame) {pre post : List Beat} {x : Beat}
    (h : f.beats = pre ++ x :: post) :
    (post = [] ∧ x = f.tailBeat ∧ pre = f.body.map fullBeat) ∨
      (post ≠ [] ∧ x.keep = keepOf 8 ∧ x.last = false) := by
  rcases List.eq_nil_or_concat post with rfl | ⟨ps, y, rfl⟩
  · refine Or.inl ⟨rfl, ?_⟩
    have hsnoc := List.append_inj' (h : f.body.map fullBeat ++ [f.tailBeat] = pre ++ [x]) rfl
    exact ⟨(List.singleton_injective hsnoc.2).symm, hsnoc.1.symm⟩
  · -- With a beat after it, `x` is one of the body.
    rw [List.concat_eq_append] at h ⊢
    refine Or.inr ⟨List.append_ne_nil_of_right_ne_nil ps (List.cons_ne_nil y []), ?_⟩
    have hassoc : f.body.map fullBeat ++ [f.tailBeat] = (pre ++ x :: ps) ++ [y] := by
      rw [← beats, h, List.append_assoc, List.cons_append]
    have hbody := (List.append_inj' hassoc rfl).1
    have hmem : x ∈ f.body.map fullBeat := by
      rw [hbody]
      exact List.mem_append_right pre List.mem_cons_self
    rcases List.mem_map.mp hmem with ⟨w, _, rfl⟩
    exact ⟨rfl, rfl⟩

/-- A frame of more than eight bytes has at least two beats. -/
theorem beats_two (f : Frame) (h : 8 < f.length) : ∃ x post, f.beats = x :: post ∧ post ≠ [] := by
  have hle := f.tailLe
  rw [length] at h
  rcases hb : f.body with _ | ⟨w, ws⟩
  · rw [hb, List.length_nil] at h
    omega
  · refine ⟨fullBeat w, ws.map fullBeat ++ [f.tailBeat], ?_, ?_⟩
    · rw [beats, hb, List.map_cons, List.cons_append]
    · exact List.append_ne_nil_of_right_ne_nil _ (List.cons_ne_nil _ _)

/-- The bytes of the first `n` beats: eight each, cut at the end of the frame. -/
theorem byteCount_take (f : Frame) {n : Nat} (hn : n ≤ f.body.length + 1) :
    byteCount (f.beats.take n) = min (8 * n) f.length := by
  have hpos := f.tailPos
  have hle := f.tailLe
  by_cases hlt : n ≤ f.body.length
  · rw [beats, List.take_append_of_le_length (by rw [List.length_map]; exact hlt),
      ← List.map_take, byteCount_full, List.length_take, length]
    omega
  · -- With the last beat the count is that of the whole frame.
    have hcnt : (keepToCnt f.tailBeat.keep).toNat = f.tailCnt := by
      rw [tailBeat, keepToCnt_keepOf hpos hle, BitVec.toNat_ofNat]
      omega
    rw [List.take_of_length_le (by rw [beats_length]; omega), beats, byteCount_snoc,
      byteCount_full, hcnt, length]
    omega

theorem byteCount_beats (f : Frame) : byteCount f.beats = f.length := by
  have hle := f.tailLe
  have htake := f.byteCount_take (Nat.le_refl _)
  rw [List.take_of_length_le (by rw [beats_length]), length] at htake
  rw [htake, length]
  omega

end Frame

end Eth

end Ml605
