import Ml605.Lib.Rijndael

/-!
# Tables and Rounds of the AES Cores

`table.v` and `round.v`: the two lookup tables, and the rounds that are made from
them. A full round takes two cycles. The first looks up, for each of the sixteen
bytes, the four bytes that it contributes to a column of the next state; the
second combines sixteen such words and the round key. The substitution, the
moves of the rows and the mixing of the columns happen nowhere by themselves:
the table holds the products, and the wires do the rest.

The registers of a module are a structure. Its clock cycle is a function of the
inputs, and of the registers if it reads them.

## Main definitions

* `sBox`, `xsBox`: The tables.
* `T`, `TableLookup`: The words that the four bytes of a word contribute.
* `s4`: Four substitutions side by side.
* `OneRound`, `FinalRound`: The rounds.

## Theorems

* `sBox_eq`, `xsBox_eq`: The tables hold the substitution box and its double.
* `subByte_injective`: The substitution box takes no two bytes to one.
* `oneRound_state`: Two cycles are a round of the standard.
* `finalRound_state`: Two cycles are the last round of the standard.
-/

namespace Ml605

namespace Aes

namespace Core

open Lib Lib.Rijndael

/-- The table of `S`. -/
def sTable : List (BitVec 8) :=
  [0x63, 0x7c, 0x77, 0x7b, 0xf2, 0x6b, 0x6f, 0xc5, 0x30, 0x01, 0x67, 0x2b, 0xfe, 0xd7, 0xab, 0x76,
   0xca, 0x82, 0xc9, 0x7d, 0xfa, 0x59, 0x47, 0xf0, 0xad, 0xd4, 0xa2, 0xaf, 0x9c, 0xa4, 0x72, 0xc0,
   0xb7, 0xfd, 0x93, 0x26, 0x36, 0x3f, 0xf7, 0xcc, 0x34, 0xa5, 0xe5, 0xf1, 0x71, 0xd8, 0x31, 0x15,
   0x04, 0xc7, 0x23, 0xc3, 0x18, 0x96, 0x05, 0x9a, 0x07, 0x12, 0x80, 0xe2, 0xeb, 0x27, 0xb2, 0x75,
   0x09, 0x83, 0x2c, 0x1a, 0x1b, 0x6e, 0x5a, 0xa0, 0x52, 0x3b, 0xd6, 0xb3, 0x29, 0xe3, 0x2f, 0x84,
   0x53, 0xd1, 0x00, 0xed, 0x20, 0xfc, 0xb1, 0x5b, 0x6a, 0xcb, 0xbe, 0x39, 0x4a, 0x4c, 0x58, 0xcf,
   0xd0, 0xef, 0xaa, 0xfb, 0x43, 0x4d, 0x33, 0x85, 0x45, 0xf9, 0x02, 0x7f, 0x50, 0x3c, 0x9f, 0xa8,
   0x51, 0xa3, 0x40, 0x8f, 0x92, 0x9d, 0x38, 0xf5, 0xbc, 0xb6, 0xda, 0x21, 0x10, 0xff, 0xf3, 0xd2,
   0xcd, 0x0c, 0x13, 0xec, 0x5f, 0x97, 0x44, 0x17, 0xc4, 0xa7, 0x7e, 0x3d, 0x64, 0x5d, 0x19, 0x73,
   0x60, 0x81, 0x4f, 0xdc, 0x22, 0x2a, 0x90, 0x88, 0x46, 0xee, 0xb8, 0x14, 0xde, 0x5e, 0x0b, 0xdb,
   0xe0, 0x32, 0x3a, 0x0a, 0x49, 0x06, 0x24, 0x5c, 0xc2, 0xd3, 0xac, 0x62, 0x91, 0x95, 0xe4, 0x79,
   0xe7, 0xc8, 0x37, 0x6d, 0x8d, 0xd5, 0x4e, 0xa9, 0x6c, 0x56, 0xf4, 0xea, 0x65, 0x7a, 0xae, 0x08,
   0xba, 0x78, 0x25, 0x2e, 0x1c, 0xa6, 0xb4, 0xc6, 0xe8, 0xdd, 0x74, 0x1f, 0x4b, 0xbd, 0x8b, 0x8a,
   0x70, 0x3e, 0xb5, 0x66, 0x48, 0x03, 0xf6, 0x0e, 0x61, 0x35, 0x57, 0xb9, 0x86, 0xc1, 0x1d, 0x9e,
   0xe1, 0xf8, 0x98, 0x11, 0x69, 0xd9, 0x8e, 0x94, 0x9b, 0x1e, 0x87, 0xe9, 0xce, 0x55, 0x28, 0xdf,
   0x8c, 0xa1, 0x89, 0x0d, 0xbf, 0xe6, 0x42, 0x68, 0x41, 0x99, 0x2d, 0x0f, 0xb0, 0x54, 0xbb, 0x16]

/-- The table of `xS`. -/
def xsTable : List (BitVec 8) :=
  [0xc6, 0xf8, 0xee, 0xf6, 0xff, 0xd6, 0xde, 0x91, 0x60, 0x02, 0xce, 0x56, 0xe7, 0xb5, 0x4d, 0xec,
   0x8f, 0x1f, 0x89, 0xfa, 0xef, 0xb2, 0x8e, 0xfb, 0x41, 0xb3, 0x5f, 0x45, 0x23, 0x53, 0xe4, 0x9b,
   0x75, 0xe1, 0x3d, 0x4c, 0x6c, 0x7e, 0xf5, 0x83, 0x68, 0x51, 0xd1, 0xf9, 0xe2, 0xab, 0x62, 0x2a,
   0x08, 0x95, 0x46, 0x9d, 0x30, 0x37, 0x0a, 0x2f, 0x0e, 0x24, 0x1b, 0xdf, 0xcd, 0x4e, 0x7f, 0xea,
   0x12, 0x1d, 0x58, 0x34, 0x36, 0xdc, 0xb4, 0x5b, 0xa4, 0x76, 0xb7, 0x7d, 0x52, 0xdd, 0x5e, 0x13,
   0xa6, 0xb9, 0x00, 0xc1, 0x40, 0xe3, 0x79, 0xb6, 0xd4, 0x8d, 0x67, 0x72, 0x94, 0x98, 0xb0, 0x85,
   0xbb, 0xc5, 0x4f, 0xed, 0x86, 0x9a, 0x66, 0x11, 0x8a, 0xe9, 0x04, 0xfe, 0xa0, 0x78, 0x25, 0x4b,
   0xa2, 0x5d, 0x80, 0x05, 0x3f, 0x21, 0x70, 0xf1, 0x63, 0x77, 0xaf, 0x42, 0x20, 0xe5, 0xfd, 0xbf,
   0x81, 0x18, 0x26, 0xc3, 0xbe, 0x35, 0x88, 0x2e, 0x93, 0x55, 0xfc, 0x7a, 0xc8, 0xba, 0x32, 0xe6,
   0xc0, 0x19, 0x9e, 0xa3, 0x44, 0x54, 0x3b, 0x0b, 0x8c, 0xc7, 0x6b, 0x28, 0xa7, 0xbc, 0x16, 0xad,
   0xdb, 0x64, 0x74, 0x14, 0x92, 0x0c, 0x48, 0xb8, 0x9f, 0xbd, 0x43, 0xc4, 0x39, 0x31, 0xd3, 0xf2,
   0xd5, 0x8b, 0x6e, 0xda, 0x01, 0xb1, 0x9c, 0x49, 0xd8, 0xac, 0xf3, 0xcf, 0xca, 0xf4, 0x47, 0x10,
   0x6f, 0xf0, 0x4a, 0x5c, 0x38, 0x57, 0x73, 0x97, 0xcb, 0xa1, 0xe8, 0x3e, 0x96, 0x61, 0x0d, 0x0f,
   0xe0, 0x7c, 0x71, 0xcc, 0x90, 0x06, 0xf7, 0x1c, 0xc2, 0x6a, 0xae, 0x69, 0x17, 0x99, 0x3a, 0x27,
   0xd9, 0xeb, 0x2b, 0x22, 0xd2, 0xa9, 0x07, 0x33, 0x2d, 0x3c, 0x15, 0xc9, 0x87, 0xaa, 0x50, 0xa5,
   0x03, 0x59, 0x09, 0x1a, 0x65, 0xd7, 0x84, 0xd0, 0x82, 0x29, 0x5a, 0x1e, 0x7b, 0xa8, 0x6d, 0x2c]

def sBox (b : BitVec 8) : BitVec 8 := sTable.getD b.toNat 0

def xsBox (b : BitVec 8) : BitVec 8 := xsTable.getD b.toNat 0

theorem sTable_eq : sTable = (List.range 256).map fun n => subByte (BitVec.ofNat 8 n) := by
  decide +kernel

theorem xsTable_eq : xsTable = sTable.map xtime := by decide +kernel

theorem sTable_getElem? (b : BitVec 8) : sTable[b.toNat]? = some (subByte b) := by
  rw [sTable_eq, List.getElem?_map, List.getElem?_range b.isLt, Option.map_some,
    BitVec.ofNat_toNat, BitVec.setWidth_eq]

theorem sBox_eq (b : BitVec 8) : sBox b = subByte b := by
  rw [sBox, List.getD_eq_getElem?_getD, sTable_getElem?, Option.getD_some]

theorem xsBox_eq (b : BitVec 8) : xsBox b = xtime (subByte b) := by
  rw [xsBox, List.getD_eq_getElem?_getD, xsTable_eq, List.getElem?_map, sTable_getElem?,
    Option.map_some, Option.getD_some]

/-- A number whose bits are set by a list of bytes tells which bytes are in it. -/
theorem mem_of_testBit {i : Nat} (l : List (BitVec 8)) : ∀ m : Nat, m.testBit i = false →
    (l.foldl (fun m b => m ||| 1 <<< b.toNat) m).testBit i = true → ∃ b, b ∈ l ∧ b.toNat = i := by
  induction l with
  | nil =>
      intro m hm h
      rw [List.foldl_nil, hm] at h
      exact absurd h Bool.false_ne_true
  | cons b l ih =>
      intro m hm h
      by_cases hb : b.toNat = i
      · exact ⟨b, List.mem_cons_self, hb⟩
      · have hm' : (m ||| 1 <<< b.toNat).testBit i = false := by
          rw [Nat.testBit_or, hm, Bool.false_or, Nat.one_shiftLeft, Nat.testBit_two_pow]
          exact decide_eq_false hb
        obtain ⟨c, hc, hci⟩ := ih _ hm' h
        exact ⟨c, List.mem_cons_of_mem b hc, hci⟩

/-- The table holds every value, and so it holds none twice. -/
theorem subByte_injective : Function.Injective subByte := by
  have hfin : Finite Byte := Finite.of_injective BitVec.toFin fun _ _ => BitVec.eq_of_toFin_eq
  rw [Finite.injective_iff_surjective]
  intro b
  have hfull : sTable.foldl (fun m b => m ||| 1 <<< b.toNat) 0 = 2 ^ 256 - 1 := by decide +kernel
  obtain ⟨c, hc, hcb⟩ := mem_of_testBit (i := b.toNat) sTable 0 (Nat.zero_testBit _)
    (by rw [hfull, Nat.testBit_two_pow_sub_one]; exact decide_eq_true b.isLt)
  rw [sTable_eq] at hc
  obtain ⟨n, -, rfl⟩ := List.mem_map.mp hc
  exact ⟨BitVec.ofNat 8 n, BitVec.eq_of_toNat_eq hcb⟩

/-- `T`: the registers of its two tables. -/
structure T where
  s0 : BitVec 8
  s4 : BitVec 8
deriving Inhabited

def T.next (b : BitVec 8) : T := ⟨sBox b, xsBox b⟩

def T.out (t : T) : BitVec 32 := bus 32 [t.s0, t.s0, t.s0 ^^^ t.s4, t.s4]

/-- `table_lookup`. -/
structure TableLookup where
  t0 : T
  t1 : T
  t2 : T
  t3 : T
deriving Inhabited

def TableLookup.next (state : BitVec 32) : TableLookup :=
  ⟨T.next (lane 8 state 0), T.next (lane 8 state 1), T.next (lane 8 state 2),
    T.next (lane 8 state 3)⟩

section Outputs

variable (t : TableLookup)

-- The outputs of the first three tables are wired up rotated.

/-- The word whose bits 23..0 and 31..24 are the output of `t0`. -/
def TableLookup.p0 : BitVec 32 := t.t0.out.extractLsb' 0 8 ++ t.t0.out.extractLsb' 8 24

/-- The word whose bits 15..0 and 31..16 are the output of `t1`. -/
def TableLookup.p1 : BitVec 32 := t.t1.out.extractLsb' 0 16 ++ t.t1.out.extractLsb' 16 16

/-- The word whose bits 7..0 and 31..8 are the output of `t2`. -/
def TableLookup.p2 : BitVec 32 := t.t2.out.extractLsb' 0 24 ++ t.t2.out.extractLsb' 24 8

def TableLookup.p3 : BitVec 32 := t.t3.out

end Outputs

/-- `S4`: what its register holds next. -/
def s4 (x : BitVec 32) : BitVec 32 :=
  bus 32 [sBox (lane 8 x 0), sBox (lane 8 x 1), sBox (lane 8 x 2), sBox (lane 8 x 3)]

/-- `one_round`. -/
structure OneRound where
  t0 : TableLookup
  t1 : TableLookup
  t2 : TableLookup
  t3 : TableLookup
  stateOut : BitVec 128
deriving Inhabited

section Combine

variable (r : OneRound) (key : BitVec 128)

def OneRound.z0 : BitVec 32 := r.t0.p0 ^^^ r.t1.p1 ^^^ r.t2.p2 ^^^ r.t3.p3 ^^^ lane 32 key 0

def OneRound.z1 : BitVec 32 := r.t0.p3 ^^^ r.t1.p0 ^^^ r.t2.p1 ^^^ r.t3.p2 ^^^ lane 32 key 1

def OneRound.z2 : BitVec 32 := r.t0.p2 ^^^ r.t1.p3 ^^^ r.t2.p0 ^^^ r.t3.p1 ^^^ lane 32 key 2

def OneRound.z3 : BitVec 32 := r.t0.p1 ^^^ r.t1.p2 ^^^ r.t2.p3 ^^^ r.t3.p0 ^^^ lane 32 key 3

end Combine

def OneRound.next (r : OneRound) (stateIn key : BitVec 128) : OneRound where
  t0 := TableLookup.next (lane 32 stateIn 0)
  t1 := TableLookup.next (lane 32 stateIn 1)
  t2 := TableLookup.next (lane 32 stateIn 2)
  t3 := TableLookup.next (lane 32 stateIn 3)
  stateOut := bus 128 [r.z0 key, r.z1 key, r.z2 key, r.z3 key]

/-- `final_round`: the outputs of its four `S4` are `p00`..`p03` to `p30`..`p33`. -/
structure FinalRound where
  p0 : BitVec 32
  p1 : BitVec 32
  p2 : BitVec 32
  p3 : BitVec 32
  stateOut : BitVec 128
deriving Inhabited

section Combine

variable (r : FinalRound) (key : BitVec 128)

def FinalRound.z0 : BitVec 32 :=
  bus 32 [lane 8 r.p0 0, lane 8 r.p1 1, lane 8 r.p2 2, lane 8 r.p3 3] ^^^ lane 32 key 0

def FinalRound.z1 : BitVec 32 :=
  bus 32 [lane 8 r.p1 0, lane 8 r.p2 1, lane 8 r.p3 2, lane 8 r.p0 3] ^^^ lane 32 key 1

def FinalRound.z2 : BitVec 32 :=
  bus 32 [lane 8 r.p2 0, lane 8 r.p3 1, lane 8 r.p0 2, lane 8 r.p1 3] ^^^ lane 32 key 2

def FinalRound.z3 : BitVec 32 :=
  bus 32 [lane 8 r.p3 0, lane 8 r.p0 1, lane 8 r.p1 2, lane 8 r.p2 3] ^^^ lane 32 key 3

end Combine

def FinalRound.next (r : FinalRound) (stateIn keyIn : BitVec 128) : FinalRound where
  p0 := s4 (lane 32 stateIn 0)
  p1 := s4 (lane 32 stateIn 1)
  p2 := s4 (lane 32 stateIn 2)
  p3 := s4 (lane 32 stateIn 3)
  stateOut := bus 128 [r.z0 keyIn, r.z1 keyIn, r.z2 keyIn, r.z3 keyIn]

section Words

/-- What a byte adds to the bytes of a column, as the table lists it. -/
def product (i : Fin 4) (b : BitVec 8) : BitVec 8 := ![b, b, mul 3 b, mul 2 b] i

theorem lane_out (b : BitVec 8) (i : Fin 4) :
    lane 8 (T.next b).out i = product i (subByte b) := by
  rw [product, mul_two, mul_three, ← xsBox_eq, ← sBox_eq]
  exact lane_four ![_, _, _, _] rfl i

variable (x : BitVec 32) (r : Fin 4)

theorem lane_p0 : lane 8 (TableLookup.next x).p0 r = product (r + 3) (subByte (lane 8 x 0)) := by
  rw [← lane_out]
  exact lane_rotate _ (k := 1) (l := 3) rfl rfl rfl r.isLt

theorem lane_p1 : lane 8 (TableLookup.next x).p1 r = product (r + 2) (subByte (lane 8 x 1)) := by
  rw [← lane_out]
  exact lane_rotate _ (k := 2) (l := 2) rfl rfl rfl r.isLt

theorem lane_p2 : lane 8 (TableLookup.next x).p2 r = product (r + 1) (subByte (lane 8 x 2)) := by
  rw [← lane_out]
  exact lane_rotate _ (k := 3) (l := 1) rfl rfl rfl r.isLt

theorem lane_p3 : lane 8 (TableLookup.next x).p3 r = product r (subByte (lane 8 x 3)) :=
  lane_out _ r

theorem lane_s4 : lane 8 (s4 x) r = subByte (lane 8 x r) := by
  rw [← sBox_eq]
  exact lane_four (fun r : Fin 4 => sBox (lane 8 x r)) rfl r

end Words

/-- A byte of a mixed column, as the sum of what the four bytes add to it. -/
theorem product_sum (d : Fin 4 → BitVec 8) (r : Fin 4) :
    mul 2 (d r) ^^^ mul 3 (d (r + 1)) ^^^ d (r + 2) ^^^ d (r + 3) =
      product (r + 3) (d 0) ^^^ product (r + 2) (d 1) ^^^ product (r + 1) (d 2) ^^^
        product r (d 3) := by
  rcases fin_four r with rfl | rfl | rfl | rfl
  · rfl
  · change mul 2 (d 1) ^^^ mul 3 (d 2) ^^^ d 3 ^^^ d 0 = d 0 ^^^ mul 2 (d 1) ^^^ mul 3 (d 2) ^^^ d 3
    ac_rfl
  · change mul 2 (d 2) ^^^ mul 3 (d 3) ^^^ d 0 ^^^ d 1 = d 0 ^^^ d 1 ^^^ mul 2 (d 2) ^^^ mul 3 (d 3)
    ac_rfl
  · change mul 2 (d 3) ^^^ mul 3 (d 0) ^^^ d 1 ^^^ d 2 = mul 3 (d 0) ^^^ d 1 ^^^ d 2 ^^^ mul 2 (d 3)
    ac_rfl

/-- A sum of four words and a key, with its last word put in front. -/
theorem xor_turn (a b c d k : BitVec 8) :
    d ^^^ a ^^^ b ^^^ c ^^^ k = a ^^^ b ^^^ c ^^^ d ^^^ k := by
  ac_rfl

section Rounds

variable (s k k' : BitVec 128)

/-- The words that are combined for a column come from a diagonal. -/
theorem oneRound_words (r : OneRound) (i c : Fin 4) :
    lane 8 (![(r.next s k).z0 k', (r.next s k).z1 k', (r.next s k).z2 k', (r.next s k).z3 k'] c) i =
      product (i + 3) (subByte (blockState s 0 c)) ^^^
        product (i + 2) (subByte (blockState s 1 (c + 1))) ^^^
        product (i + 1) (subByte (blockState s 2 (c + 2))) ^^^
        product i (subByte (blockState s 3 (c + 3))) ^^^ blockState k' i c := by
  rcases fin_four c with rfl | rfl | rfl | rfl
  · change lane 8 (OneRound.z0 _ k') i = _
    simp only [OneRound.z0, OneRound.next, lane_xor, lane_p0, lane_p1, lane_p2, lane_p3]
    rfl
  -- The other three sums start at another place of their diagonal.
  · change lane 8 (OneRound.z1 _ k') i = _
    simp only [OneRound.z1, OneRound.next, lane_xor, lane_p0, lane_p1, lane_p2, lane_p3]
    exact xor_turn _ _ _ _ _
  · change lane 8 (OneRound.z2 _ k') i = _
    simp only [OneRound.z2, OneRound.next, lane_xor, lane_p0, lane_p1, lane_p2, lane_p3]
    exact (xor_turn _ _ _ _ _).trans (xor_turn _ _ _ _ _)
  · change lane 8 (OneRound.z3 _ k') i = _
    simp only [OneRound.z3, OneRound.next, lane_xor, lane_p0, lane_p1, lane_p2, lane_p3]
    exact (xor_turn _ _ _ _ _).trans ((xor_turn _ _ _ _ _).trans (xor_turn _ _ _ _ _))

/-- Two cycles of `one_round` are a round of the standard. The key is taken in the
    second. -/
theorem oneRound_state (r : OneRound) (s' : BitVec 128) :
    blockState ((r.next s k).next s' k').stateOut =
      addRoundKey (mixColumns (shiftRows (subBytes (blockState s)))) (blockState k') := by
  funext i c
  have hmix : mixColumns (shiftRows (subBytes (blockState s))) i c = _ :=
    product_sum (fun j => subByte (blockState s j (c + j))) i
  rw [addRoundKey, hmix]
  rw [add_zero, ← oneRound_words s k k' r]
  exact congrArg (lane 8 · i) (lane_four ![_, _, _, _] rfl c)

/-- The bytes that the last round puts in a column come from a diagonal. -/
theorem finalRound_words (r : FinalRound) (i c : Fin 4) :
    lane 8 (![(r.next s k).z0 k', (r.next s k).z1 k', (r.next s k).z2 k', (r.next s k).z3 k'] c) i =
      subByte (blockState s i (c + i)) ^^^ blockState k' i c := by
  let f : Fin 4 → BitVec 8 := fun j => lane 8 (s4 (lane 32 s (c + j : Fin 4))) j
  have hcol : lane 8 (bus 32 [f 0, f 1, f 2, f 3] ^^^ lane 32 k' c) i =
      subByte (blockState s i (c + i)) ^^^ blockState k' i c := by
    rw [lane_xor, lane_four f rfl]
    exact congrArg (· ^^^ blockState k' i c) (lane_s4 _ i)
  rcases fin_four c with rfl | rfl | rfl | rfl
  all_goals exact hcol

/-- Two cycles of `final_round` are the last round of the standard. -/
theorem finalRound_state (r : FinalRound) (s' : BitVec 128) :
    blockState ((r.next s k).next s' k').stateOut =
      addRoundKey (shiftRows (subBytes (blockState s))) (blockState k') := by
  funext i c
  refine Eq.trans ?_ (finalRound_words s k k' r i c)
  exact congrArg (lane 8 · i) (lane_four ![_, _, _, _] rfl c)

end Rounds

end Core

end Aes

end Ml605
