import Mathlib.Tactic
import Ml605.Lib.Lanes

/-!
# The Advanced Encryption Standard

The block cipher in the terms of the standard: bytes as elements of
the field with 256 elements, a state of four rows and four columns, words of four
bytes, and a key schedule that is a sequence of words. The key has `nk` words and
the cipher has `nk + 6` rounds.

`encrypt` is the cipher on blocks and keys as they stand on a bus, the first byte
of the standard's byte sequences in the most significant place.

## Main definitions

* `mul`, `inv`: The product and the inverse of bytes.
* `subByte`: The substitution box.
* `subBytes`, `shiftRows`, `mixColumns`, `addRoundKey`: The parts of a round.
* `keyWord`: The words of the key schedule.
* `rounds`, `cipher`: The cipher.
* `encrypt`: The cipher on buses.

## Theorems

* `keyWord_of_lt`, `keyWord_add`: The two cases of the key schedule.
* `mul_two`, `mul_three`: The products that `mixColumns` takes.
* `blockState_injective`: A block is known by its bytes.
* `mixColumns_injective`: No two states are mixed alike.
* `encrypt_injective`: No two blocks are enciphered alike.
-/

namespace Ml605

namespace Lib

namespace Rijndael

abbrev Byte := BitVec 8

/-- A word, byte 0 first. -/
abbrev Word := Fin 4 → Byte

/-- A state, by row and column. -/
abbrev State := Fin 4 → Fin 4 → Byte

/-- The product with `x`, modulo `x^8 + x^4 + x^3 + x + 1`. -/
def xtime (b : Byte) : Byte := b <<< 1 ^^^ (bif b.getLsbD 7 then 0x1b#8 else 0#8)

/-- The sum of `a * x^i` over the lowest `n` bits `i` that are set in `b`. -/
def mulBits : Nat → Byte → Byte → Byte
  | 0, _, _ => 0
  | n + 1, a, b => (bif b.getLsbD 0 then a else 0#8) ^^^ mulBits n (xtime a) (b >>> 1)

/-- The product of two bytes. -/
def mul (a b : Byte) : Byte := mulBits 8 a b

/-- The product of the powers 2, 4, ..., `2^n` of a byte. -/
def squares : Nat → Byte → Byte
  | 0, _ => 1
  | n + 1, a => mul (mul a a) (squares n (mul a a))

/-- The inverse, which is the power 254. -/
def inv (a : Byte) : Byte := squares 7 a

/-- The substitution box: the inverse, and an affine map of its bits. -/
def subByte (b : Byte) : Byte :=
  inv b ^^^ (inv b).rotateLeft 1 ^^^ (inv b).rotateLeft 2 ^^^ (inv b).rotateLeft 3 ^^^
    (inv b).rotateLeft 4 ^^^ 0x63

def subBytes (s : State) : State := fun r c => subByte (s r c)

/-- Row `r` moves to the left by `r` places. -/
def shiftRows (s : State) : State := fun r c => s r (c + r)

/-- Every column is multiplied by `3 x^3 + x^2 + x + 2`. -/
def mixColumns (s : State) : State := fun r c =>
  mul 2 (s r c) ^^^ mul 3 (s (r + 1) c) ^^^ s (r + 2) c ^^^ s (r + 3) c

def addRoundKey (s k : State) : State := fun r c => s r c ^^^ k r c

def subWord (t : Word) : Word := fun r => subByte (t r)

def rotWord (t : Word) : Word := fun r => t (r + 1)

def xorWord (t u : Word) : Word := fun r => t r ^^^ u r

/-- A word with `c` in the first byte. -/
def constant (c : Byte) : Word := ![c, 0, 0, 0]

/-- The round constant, which is `x^(j - 1)`. -/
def rcon (j : Nat) : Word := constant (xtime^[j - 1] 1)

/-- What is combined with the word `nk` places back, made from the last word. -/
def temp (nk i : Nat) (t : Word) : Word :=
  if i % nk = 0 then xorWord (subWord (rotWord t)) (rcon (i / nk))
  else if 6 < nk ∧ i % nk = 4 then subWord t
  else t

/-- The words of the key schedule. -/
def keyWord (nk : Nat) (key : Nat → Word) (i : Nat) : Word :=
  if _h : 0 < nk ∧ nk ≤ i then
    xorWord (keyWord nk key (i - nk)) (temp nk i (keyWord nk key (i - 1)))
  else key i
termination_by i

/-- The key of round `i`: four words of the schedule, one for each column. -/
def roundKey (w : Nat → Word) (i : Nat) : State := fun r c => w (4 * i + c) r

/-- The state after the first `i` rounds, all of them full ones. -/
def rounds (w : Nat → Word) (s : State) : Nat → State
  | 0 => addRoundKey s (roundKey w 0)
  | i + 1 => addRoundKey (mixColumns (shiftRows (subBytes (rounds w s i)))) (roundKey w (i + 1))

/-- `nr` rounds, the last of which does not mix the columns. -/
def cipher (nr : Nat) (w : Nat → Word) (s : State) : State :=
  addRoundKey (shiftRows (subBytes (rounds w s (nr - 1)))) (roundKey w nr)

/-- A row or a column is one of four. -/
theorem fin_four (r : Fin 4) : r = 0 ∨ r = 1 ∨ r = 2 ∨ r = 3 := by
  revert r
  decide

theorem xorWord_comm (t u : Word) : xorWord t u = xorWord u t :=
  funext fun r => BitVec.xor_comm (t r) (u r)

theorem xorWord_assoc (t u v : Word) : xorWord (xorWord t u) v = xorWord t (xorWord u v) :=
  funext fun r => BitVec.xor_assoc (t r) (u r) (v r)

theorem xorWord_constant_zero (t : Word) : xorWord t (constant 0) = t := by
  funext r
  rcases fin_four r with rfl | rfl | rfl | rfl
  all_goals exact BitVec.xor_zero

instance : Std.Commutative xorWord := ⟨xorWord_comm⟩

instance : Std.Associative xorWord := ⟨xorWord_assoc⟩

section Schedule

variable (nk : Nat) (key : Nat → Word)

/-- The first of `nk` words takes the last one turned round and substituted. -/
theorem temp_first (t : Word) (j : Nat) (h : 0 < nk) :
    temp nk (nk * j + nk) t = xorWord (subWord (rotWord t)) (constant (xtime^[j] 1)) := by
  have hdiv : (nk * j + nk) / nk = j + 1 := by
    rw [Nat.add_div_right _ h, Nat.mul_div_cancel_left j h]
  rw [temp, if_pos (by rw [Nat.add_mod_right, Nat.mul_mod_right]), hdiv]
  rfl

/-- Of more than six words the fifth takes the last one substituted. -/
theorem temp_middle {i : Nat} (t : Word) (hnk : 6 < nk) (h : i % nk = 4) :
    temp nk i t = subWord t := by
  rw [temp, if_neg (by omega), if_pos ⟨hnk, h⟩]

/-- Most words are the sum of two others. -/
theorem temp_plain {i : Nat} (t : Word) (h0 : i % nk ≠ 0) (h4 : nk ≤ 6 ∨ i % nk ≠ 4) :
    temp nk i t = t := by
  rw [temp, if_neg h0, if_neg (by omega)]

theorem keyWord_of_lt {i : Nat} (h : i < nk) : keyWord nk key i = key i := by
  rw [keyWord, dif_neg (by omega)]

theorem keyWord_add (h : 0 < nk) (i : Nat) :
    keyWord nk key (i + nk) =
      xorWord (keyWord nk key i) (temp nk (i + nk) (keyWord nk key (i + nk - 1))) := by
  rw [keyWord, dif_pos ⟨h, Nat.le_add_left nk i⟩, Nat.add_sub_cancel]

end Schedule

theorem mul_two : ∀ b : Byte, mul 2 b = xtime b := by decide +kernel

theorem mul_three : ∀ b : Byte, mul 3 b = b ^^^ xtime b := by decide +kernel

section Buses

/-- The bytes of a word on a bus. -/
def wordOf (x : BitVec 32) : Word := fun r => lane 8 x r

/-- The word at a place of a bus. -/
def busWord {m : Nat} (x : BitVec m) (i : Nat) : Word := wordOf (lane 32 x i)

/-- A block as a state: its words are the columns. -/
def blockState (x : BitVec 128) : State := fun r c => busWord x c r

/-- A state as a block. -/
def stateBlock (s : State) : BitVec 128 :=
  let column (c : Fin 4) : BitVec 32 := bus 32 [s 0 c, s 1 c, s 2 c, s 3 c]
  bus 128 [column 0, column 1, column 2, column 3]

/-- The cipher on buses, with a key of `nk` words. -/
def encrypt (nk : Nat) {m : Nat} (key : BitVec m) (x : BitVec 128) : BitVec 128 :=
  stateBlock (cipher (nk + 6) (keyWord nk (busWord key)) (blockState x))

theorem lane_four {w m : Nat} (f : Fin 4 → BitVec w) (hm : w * 4 = m) (j : Fin 4) :
    lane w (bus m [f 0, f 1, f 2, f 3]) j = f j := by
  rcases fin_four j with rfl | rfl | rfl | rfl
  all_goals exact lane_bus_eq rfl hm

theorem wordOf_xor (x y : BitVec 32) : wordOf (x ^^^ y) = xorWord (wordOf x) (wordOf y) := by
  funext r
  exact lane_xor x y r

theorem blockState_stateBlock (s : State) : blockState (stateBlock s) = s := by
  funext r c
  unfold blockState busWord wordOf stateBlock
  rw [lane_four (fun c => bus 32 [s 0 c, s 1 c, s 2 c, s 3 c]) rfl, lane_four (s · c) rfl]

/-- A block is known by its bytes. -/
theorem blockState_injective {x y : BitVec 128} (h : blockState x = blockState y) : x = y := by
  refine eq_of_lane (w := 32) (n := 4) rfl fun c hc => ?_
  refine eq_of_lane (w := 8) (n := 4) rfl fun r hr => ?_
  exact congrFun (congrFun h ⟨r, hr⟩) ⟨c, hc⟩

-- The first column behind the first round, in the case that the standard works through.
example : (fun r => rounds (keyWord 4 (busWord (0x2b7e151628aed2a6abf7158809cf4f3c : BitVec 128)))
    (blockState 0x3243f6a8885a308d313198a2e0370734) 1 r 0) = ![0xa4, 0x9c, 0x7f, 0xf2] := by
  decide +kernel

end Buses

section Injective

theorem xtime_xor (a b : Byte) : xtime (a ^^^ b) = xtime a ^^^ xtime b := by
  have hbit : ∀ p q : Bool, (bif p ^^ q then 0x1b#8 else 0#8) =
      (bif p then 0x1b#8 else 0#8) ^^^ (bif q then 0x1b#8 else 0#8) := by decide
  unfold xtime
  rw [BitVec.shiftLeft_xor_distrib, BitVec.getLsbD_xor, hbit]
  ac_rfl

/-- Two sums of three that have two terms in common. -/
theorem xor_common (a b c d : Byte) : b ^^^ c ^^^ d ^^^ (d ^^^ a ^^^ b) = a ^^^ c := by
  have h : b ^^^ c ^^^ d ^^^ (d ^^^ a ^^^ b) = a ^^^ c ^^^ (b ^^^ b) ^^^ (d ^^^ d) := by ac_rfl
  rw [h, BitVec.xor_self, BitVec.xor_self, BitVec.xor_zero, BitVec.xor_zero]

/-- Zeros are the only column that is mixed to zeros. -/
theorem mix_kernel {a b c d : Byte} (h0 : xtime (a ^^^ b) = b ^^^ c ^^^ d)
    (h1 : xtime (b ^^^ c) = c ^^^ d ^^^ a) (h2 : xtime (c ^^^ d) = d ^^^ a ^^^ b)
    (h3 : xtime (d ^^^ a) = a ^^^ b ^^^ c) : a = 0#8 ∧ b = 0#8 ∧ c = 0#8 ∧ d = 0#8 := by
  -- The sum of opposite bytes is the double of the sum of all four, so that is zero.
  have hac : xtime (a ^^^ b ^^^ (c ^^^ d)) = a ^^^ c := by
    rw [xtime_xor, h0, h2, xor_common]
  have hbd : xtime (b ^^^ c ^^^ (d ^^^ a)) = b ^^^ d := by
    rw [xtime_xor, h1, h3, xor_common]
  have hturn : b ^^^ c ^^^ (d ^^^ a) = a ^^^ b ^^^ (c ^^^ d) := by ac_rfl
  have hall : a ^^^ b ^^^ (c ^^^ d) = 0#8 := by
    have hsum : a ^^^ b ^^^ (c ^^^ d) = a ^^^ c ^^^ (b ^^^ d) := by ac_rfl
    rw [hsum, ← hac, ← hbd, hturn, BitVec.xor_self]
  rw [hall] at hac
  rw [hturn, hall] at hbd
  obtain rfl : a = c := BitVec.xor_eq_zero_iff.mp hac.symm
  obtain rfl : b = d := BitVec.xor_eq_zero_iff.mp hbd.symm
  -- Opposite bytes are equal, and so each byte is the double of the same sum.
  have ha : xtime (a ^^^ b) = a := by
    rw [h0, BitVec.xor_comm b a, BitVec.xor_assoc, BitVec.xor_self, BitVec.xor_zero]
  have hb : xtime (a ^^^ b) = b := by
    rw [BitVec.xor_comm a b, h1, BitVec.xor_comm a b, BitVec.xor_assoc, BitVec.xor_self,
      BitVec.xor_zero]
  obtain rfl : a = b := ha.symm.trans hb
  rw [BitVec.xor_self] at ha
  exact ⟨ha.symm, ha.symm, ha.symm, ha.symm⟩

/-- A byte of a mixed column. -/
theorem mixColumns_apply (s : State) (r c : Fin 4) : mixColumns s r c =
    xtime (s r c ^^^ s (r + 1) c) ^^^ (s (r + 1) c ^^^ s (r + 2) c ^^^ s (r + 3) c) := by
  rw [mixColumns, mul_two, mul_three, xtime_xor]
  ac_rfl

theorem mixColumns_injective : Function.Injective mixColumns := by
  intro s s' h
  -- The difference of the two columns is mixed to zeros.
  have hdiff : ∀ c r : Fin 4, xtime ((s r c ^^^ s' r c) ^^^ (s (r + 1) c ^^^ s' (r + 1) c)) =
      (s (r + 1) c ^^^ s' (r + 1) c) ^^^ (s (r + 2) c ^^^ s' (r + 2) c) ^^^
        (s (r + 3) c ^^^ s' (r + 3) c) := by
    intro c r
    have hrc := congrFun (congrFun h r) c
    rw [mixColumns_apply, mixColumns_apply] at hrc
    have hsplit : s r c ^^^ s' r c ^^^ (s (r + 1) c ^^^ s' (r + 1) c) =
        s r c ^^^ s (r + 1) c ^^^ (s' r c ^^^ s' (r + 1) c) := by ac_rfl
    rw [hsplit, xtime_xor]
    apply BitVec.xor_eq_zero_iff.mp
    refine Eq.trans ?_ (BitVec.xor_eq_zero_iff.mpr hrc)
    ac_rfl
  funext r c
  have hzero := mix_kernel (hdiff c 0) (hdiff c 1) (hdiff c 2) (hdiff c 3)
  rcases hzero with ⟨h0, h1, h2, h3⟩
  apply BitVec.xor_eq_zero_iff.mp
  rcases fin_four r with rfl | rfl | rfl | rfl
  · exact h0
  · exact h1
  · exact h2
  · exact h3

theorem shiftRows_injective : Function.Injective shiftRows := by
  intro s s' h
  funext r c
  have hrc := congrFun (congrFun h r) (c - r)
  unfold shiftRows at hrc
  rwa [sub_add_cancel] at hrc

theorem addRoundKey_injective (k : State) : Function.Injective fun s => addRoundKey s k := by
  intro s s' h
  funext r c
  exact (BitVec.xor_left_inj (k r c)).mp (congrFun (congrFun h r) c)

variable (hsub : Function.Injective subByte) (w : Nat → Word)

include hsub

theorem subBytes_injective : Function.Injective subBytes := fun _ _ h =>
  funext fun r => funext fun c => hsub (congrFun (congrFun h r) c)

theorem rounds_injective (i : Nat) : Function.Injective fun s => rounds w s i := by
  induction i with
  | zero => exact addRoundKey_injective _
  | succ i ih =>
      exact (addRoundKey_injective _).comp (mixColumns_injective.comp
        (shiftRows_injective.comp ((subBytes_injective hsub).comp ih)))

theorem cipher_injective (nr : Nat) : Function.Injective (cipher nr w) :=
  (addRoundKey_injective _).comp (shiftRows_injective.comp
    ((subBytes_injective hsub).comp (rounds_injective hsub w (nr - 1))))

/-- Different blocks are enciphered differently, given that the substitution box
    takes no value twice. -/
theorem encrypt_injective (nk : Nat) {m : Nat} (key : BitVec m) :
    Function.Injective (encrypt nk key) := by
  intro x y h
  apply blockState_injective
  apply cipher_injective hsub
  have hstate := congrArg blockState h
  rwa [encrypt, encrypt, blockState_stateBlock, blockState_stateBlock] at hstate

end Injective

end Rijndael

end Lib

end Ml605
