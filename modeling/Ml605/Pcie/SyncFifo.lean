import Mathlib.Tactic

/-!
# The Synchronous FIFO

`sync_fifo` as it is used for the words to the PCI Express core: sixteen words
in a shift register, with the first word falling through into a register of its
own. A write shifts all words up by one place, so that the newest is in place
zero and the oldest in the place below the count. The output register is filled
from there when it is empty or being read.

So the FIFO holds seventeen words, of which `data_count` tells sixteen at most:
the word in the output register is not counted. A write into the full shift
register is dropped, even if a word leaves it in the same cycle.

The registers are shown to be a queue. The flags `full` and `empty_int` and the
count less one are registers of the source, kept by comparisons of the old
count; `Wf` says what they are.

## Main definitions

* `FifoRegs`, `FifoRegs.next`: The registers and the clock cycle.
* `FifoRegs.Wf`: The flags go with the count.
* `SyncFifo`: A FIFO whose flags do.
* `SyncFifo.contents`, `SyncFifo.words`: The words in the shift register and
  all words, oldest first.

## Theorems

* `wordsFrom_shift`, `wordsFrom_tail`: What a write and a read do to them.
* `next_wf`: The flags stay right.
* `contents_next`: The shift register is a queue.
* `head_contents`: The word that falls through is the oldest of it.
* `next_held`: A word waits in the output register until it is read.
* `words_next`: Together with the output register it is a queue again.
-/

namespace Ml605

namespace Pcie

variable {α : Type}

/-- The registers of the FIFO, for a depth of 16. -/
structure FifoRegs (α : Type) where
  regBank : Nat → α
  dataCountInt : BitVec 5
  dataCountM1 : BitVec 5
  full : Bool
  emptyInt : Bool
  outputStage : α
  outputStageEmpty : Bool

namespace FifoRegs

/-- `internal_fifo_newdata_take`. -/
def take (f : FifoRegs α) (rdEn : Bool) : Bool := !f.emptyInt && (f.outputStageEmpty || rdEn)

/-- `rd_en_int`. -/
def rdEnInt (f : FifoRegs α) (rdEn : Bool) : Bool := (rdEn || f.take rdEn) && !f.emptyInt

/-- `wr_en_int`. -/
def wrEnInt (f : FifoRegs α) (wrEn : Bool) : Bool := wrEn && !f.full

/-- `dout_int`, addressed by the four low bits of the count less one. -/
def doutInt (f : FifoRegs α) : α := f.regBank (f.dataCountM1.setWidth 4).toNat

/-- The shift register after a write. -/
def shiftIn (din : α) (regBank : Nat → α) : Nat → α
  | 0 => din
  | i + 1 => regBank i

/-- One clock cycle. -/
def next (f : FifoRegs α) (wrEn rdEn : Bool) (din : α) : FifoRegs α where
  regBank := if f.wrEnInt wrEn then shiftIn din f.regBank else f.regBank
  dataCountInt :=
    if f.rdEnInt rdEn && !f.wrEnInt wrEn then f.dataCountInt - 1
    else if !f.rdEnInt rdEn && f.wrEnInt wrEn then f.dataCountInt + 1
    else f.dataCountInt
  dataCountM1 :=
    if f.rdEnInt rdEn && !f.wrEnInt wrEn then f.dataCountM1 - 1
    else if !f.rdEnInt rdEn && f.wrEnInt wrEn then f.dataCountM1 + 1
    else f.dataCountM1
  -- The flags look at the count the cycle starts with.
  full :=
    if f.rdEnInt rdEn && !f.wrEnInt wrEn then false
    else if !f.rdEnInt rdEn && f.wrEnInt wrEn then (f.dataCountInt == 15) || f.full
    else f.full
  emptyInt :=
    if f.rdEnInt rdEn && !f.wrEnInt wrEn then (f.dataCountInt == 1) || f.emptyInt
    else if !f.rdEnInt rdEn && f.wrEnInt wrEn then false
    else f.emptyInt
  outputStage := if f.take rdEn then f.doutInt else f.outputStage
  outputStageEmpty :=
    if f.take rdEn then false else if rdEn then true else f.outputStageEmpty

/-- The registers after a reset. -/
def reset (zero : α) : FifoRegs α := ⟨fun _ => zero, 0, -1, false, true, zero, true⟩

/-- The flags go with the count, which does not pass the depth. -/
structure Wf (f : FifoRegs α) : Prop where
  depth : f.dataCountInt.toNat ≤ 16
  m1 : f.dataCountM1 = f.dataCountInt - 1
  full : f.full = decide (f.dataCountInt.toNat = 16)
  empty : f.emptyInt = decide (f.dataCountInt.toNat = 0)

theorem reset_wf (zero : α) : (reset zero).Wf := ⟨Nat.zero_le 16, rfl, rfl, rfl⟩

/-- The shift register is read exactly when the output register takes a word. -/
theorem rdEnInt_eq_take (f : FifoRegs α) (rdEn : Bool) : f.rdEnInt rdEn = f.take rdEn := by
  unfold rdEnInt take
  cases f.emptyInt <;> cases rdEn <;> cases f.outputStageEmpty <;> rfl

/-- A comparison of the count with a constant. -/
theorem count_beq (f : FifoRegs α) {n : Nat} (hn : n < 32) :
    (f.dataCountInt == BitVec.ofNat 5 n) = decide (f.dataCountInt.toNat = n) := by
  rw [Bool.eq_iff_iff, beq_iff_eq, decide_eq_true_eq]
  constructor
  · intro heq
    rw [heq, BitVec.toNat_ofNat, Nat.mod_eq_of_lt hn]
  · intro heq
    rw [← heq, BitVec.ofNat_toNat, BitVec.setWidth_eq]

section Count

variable {f : FifoRegs α} (h : f.Wf)

include h

/-- Something is taken from a shift register that is not empty. -/
theorem Wf.pos_of_take {rdEn : Bool} (ht : f.take rdEn = true) : 0 < f.dataCountInt.toNat := by
  have hne : f.emptyInt = false := by
    unfold take at ht
    cases he : f.emptyInt with
    | false => rfl
    | true =>
        rw [he] at ht
        exact absurd ht Bool.false_ne_true
  rw [h.empty, decide_eq_false_iff_not] at hne
  omega

/-- Something is written into a shift register that is not full. -/
theorem Wf.lt_of_write {wrEn : Bool} (hw : f.wrEnInt wrEn = true) : f.dataCountInt.toNat < 16 := by
  have hnf : f.full = false := by
    unfold wrEnInt at hw
    cases hf : f.full with
    | false => rfl
    | true =>
        rw [hf, Bool.not_true, Bool.and_false] at hw
        exact absurd hw Bool.false_ne_true
  rw [h.full, decide_eq_false_iff_not] at hnf
  have := h.depth
  omega

/-- The count goes down by a read and up by a write. -/
theorem count_next (wrEn rdEn : Bool) (din : α) :
    (f.next wrEn rdEn din).dataCountInt.toNat + (if f.take rdEn then 1 else 0) =
      f.dataCountInt.toNat + (if f.wrEnInt wrEn then 1 else 0) := by
  have hdepth := h.depth
  simp only [next, rdEnInt_eq_take]
  cases ht : f.take rdEn with
  | false =>
      cases hw : f.wrEnInt wrEn with
      | false => rfl
      | true =>
          have := h.lt_of_write hw
          simp only [Bool.not_true, Bool.false_eq_true, if_false, Bool.not_false, Bool.and_self,
            if_true]
          bv_omega
  | true =>
      have := h.pos_of_take ht
      cases hw : f.wrEnInt wrEn with
      | false =>
          simp only [Bool.not_false, Bool.and_self, if_true, Bool.false_eq_true, if_false]
          bv_omega
      | true => rfl

/-- The flags stay right. -/
theorem next_wf (wrEn rdEn : Bool) (din : α) : (f.next wrEn rdEn din).Wf := by
  have hdepth := h.depth
  simp only [next, rdEnInt_eq_take]
  -- A read without a write, a write without a read, both or neither.
  cases ht : f.take rdEn with
  | false =>
      cases hw : f.wrEnInt wrEn with
      | false => exact ⟨h.depth, h.m1, h.full, h.empty⟩
      | true =>
          have hlt := h.lt_of_write hw
          have hcount : (f.dataCountInt + 1).toNat = f.dataCountInt.toNat + 1 := by bv_omega
          refine ⟨?_, ?_, ?_, ?_⟩
          · exact hcount ▸ hlt
          · change f.dataCountM1 + 1 = f.dataCountInt + 1 - 1
            rw [h.m1]
            bv_omega
          · change ((f.dataCountInt == 15) || f.full) = decide ((f.dataCountInt + 1).toNat = 16)
            have h15 : (f.dataCountInt == 15) = decide (f.dataCountInt.toNat = 15) :=
              f.count_beq (by decide)
            rw [h15, h.full, hcount, Bool.eq_iff_iff, Bool.or_eq_true]
            simp only [decide_eq_true_eq]
            omega
          · change false = decide ((f.dataCountInt + 1).toNat = 0)
            rw [hcount, decide_eq_false (Nat.succ_ne_zero _)]
  | true =>
      have hpos := h.pos_of_take ht
      cases hw : f.wrEnInt wrEn with
      | false =>
          have hcount : (f.dataCountInt - 1).toNat = f.dataCountInt.toNat - 1 := by bv_omega
          refine ⟨?_, ?_, ?_, ?_⟩
          · exact hcount ▸ Nat.le_trans (Nat.sub_le _ _) hdepth
          · change f.dataCountM1 - 1 = f.dataCountInt - 1 - 1
            rw [h.m1]
          · change false = decide ((f.dataCountInt - 1).toNat = 16)
            rw [hcount, decide_eq_false (by omega)]
          · change ((f.dataCountInt == 1) || f.emptyInt) = decide ((f.dataCountInt - 1).toNat = 0)
            have h1 : (f.dataCountInt == 1) = decide (f.dataCountInt.toNat = 1) :=
              f.count_beq (by decide)
            rw [h1, h.empty, hcount, Bool.eq_iff_iff, Bool.or_eq_true]
            simp only [decide_eq_true_eq]
            omega
      | true => exact ⟨h.depth, h.m1, h.full, h.empty⟩

end Count

end FifoRegs

/-- The words of a shift register from a place on, oldest first. -/
def wordsFrom (regBank : Nat → α) : Nat → List α
  | 0 => []
  | n + 1 => regBank n :: wordsFrom regBank n

/-- A write moves every word up by one place. -/
theorem wordsFrom_shift (din : α) (regBank : Nat → α) : ∀ n : Nat,
    wordsFrom (FifoRegs.shiftIn din regBank) (n + 1) = wordsFrom regBank n ++ [din] := by
  intro n
  induction n with
  | zero => rfl
  | succ n ih => exact congrArg (regBank n :: ·) ih

/-- A read forgets the oldest word. -/
theorem wordsFrom_tail (regBank : Nat → α) (n : Nat) :
    (wordsFrom regBank n).tail = wordsFrom regBank (n - 1) := by
  cases n <;> rfl

theorem wordsFrom_length (regBank : Nat → α) : ∀ n, (wordsFrom regBank n).length = n := by
  intro n
  induction n with
  | zero => rfl
  | succ n ih => exact congrArg (· + 1) ih

/-- Whether a word is there, as a number of words. -/
theorem length_word (there : Bool) (w : α) : (if there then [w] else []).length = there.toNat := by
  cases there <;> rfl

/-- A FIFO whose flags go with its count. -/
def SyncFifo (α : Type) : Type := { f : FifoRegs α // f.Wf }

namespace SyncFifo

/-- The FIFO after a reset. -/
def reset (zero : α) : SyncFifo α := ⟨FifoRegs.reset zero, FifoRegs.reset_wf zero⟩

/-- One clock cycle. -/
def next (f : SyncFifo α) (wrEn rdEn : Bool) (din : α) : SyncFifo α :=
  ⟨f.val.next wrEn rdEn din, FifoRegs.next_wf f.property wrEn rdEn din⟩

/-- `empty`. -/
def empty (f : SyncFifo α) : Bool := f.val.outputStageEmpty

/-- `dout`, which shows the last word read when the FIFO is empty. -/
def dout (f : SyncFifo α) : α := f.val.outputStage

/-- `data_count`. -/
def dataCount (f : SyncFifo α) : BitVec 5 := f.val.dataCountInt

/-- The words in the shift register, oldest first. -/
def contents (f : SyncFifo α) : List α := wordsFrom f.val.regBank f.val.dataCountInt.toNat

/-- The word in the output register, if there is one. -/
def front (f : SyncFifo α) : List α := if f.empty then [] else [f.dout]

theorem contents_length (f : SyncFifo α) : f.contents.length = f.dataCount.toNat :=
  wordsFrom_length _ _

/-- A word is taken to the output register when it is free and there is one. -/
theorem take_eq (f : SyncFifo α) (rdEn : Bool) :
    f.val.take rdEn = (!f.contents.isEmpty && (f.empty || rdEn)) := by
  have hempty : f.val.emptyInt = f.contents.isEmpty := by
    rw [f.property.empty, Bool.eq_iff_iff, decide_eq_true_eq, List.isEmpty_iff_length_eq_zero,
      contents_length]
    rfl
  unfold FifoRegs.take
  rw [hempty]
  rfl

/-- Only a full shift register drops what is written. -/
theorem wrEnInt_eq (f : SyncFifo α) (wrEn : Bool) :
    f.val.wrEnInt wrEn = (wrEn && !decide (f.contents.length = 16)) := by
  unfold FifoRegs.wrEnInt
  rw [f.property.full, contents_length]
  rfl

/-- The shift register is a queue. -/
theorem contents_next (f : SyncFifo α) (wrEn rdEn : Bool) (din : α) :
    (f.next wrEn rdEn din).contents =
      (if f.val.take rdEn then f.contents.tail else f.contents) ++
        (if f.val.wrEnInt wrEn then [din] else []) := by
  have hcount := FifoRegs.count_next f.property wrEn rdEn din
  change wordsFrom (if f.val.wrEnInt wrEn then FifoRegs.shiftIn din f.val.regBank
    else f.val.regBank) _ = _
  unfold contents
  change (f.next wrEn rdEn din).val.dataCountInt.toNat + _ = _ at hcount
  cases ht : f.val.take rdEn with
  | false =>
      cases hw : f.val.wrEnInt wrEn with
      | false =>
          rw [ht, hw] at hcount
          simp only [Bool.false_eq_true, if_false, Nat.add_zero] at hcount ⊢
          rw [hcount, List.append_nil]
      | true =>
          rw [ht, hw] at hcount
          simp only [Bool.false_eq_true, if_false, Nat.add_zero, if_true] at hcount ⊢
          rw [hcount, wordsFrom_shift]
  | true =>
      have hpos := f.property.pos_of_take ht
      cases hw : f.val.wrEnInt wrEn with
      | false =>
          rw [ht, hw] at hcount
          simp only [Bool.false_eq_true, if_false, Nat.add_zero, if_true] at hcount ⊢
          rw [wordsFrom_tail, List.append_nil, ← hcount, Nat.add_sub_cancel]
      | true =>
          rw [ht, hw] at hcount
          simp only [if_true] at hcount ⊢
          -- The place of the oldest word is left to the one behind it.
          rw [wordsFrom_tail, ← wordsFrom_shift]
          congr 1
          omega

/-- A cycle adds at most the word written in it. -/
theorem contents_length_next_le (f : SyncFifo α) (wrEn rdEn : Bool) (din : α) :
    (f.next wrEn rdEn din).contents.length ≤ f.contents.length + wrEn.toNat := by
  have hrest : (if f.val.take rdEn then f.contents.tail else f.contents).length ≤
      f.contents.length := by
    split
    · exact (List.tail_sublist _).length_le
    · exact Nat.le_refl _
  have hnew : (f.val.wrEnInt wrEn).toNat ≤ wrEn.toNat := by
    unfold FifoRegs.wrEnInt
    cases wrEn <;> cases f.val.full <;> decide
  rw [contents_next, List.length_append, length_word]
  omega

/-- The word that falls through is the oldest of the shift register. -/
theorem head_contents (f : SyncFifo α) (hne : f.contents ≠ []) :
    f.contents = f.val.doutInt :: f.contents.tail := by
  have hle := f.property.depth
  have hpos : 0 < f.val.dataCountInt.toNat := by
    have hlen := List.length_pos_of_ne_nil hne
    rw [contents_length] at hlen
    exact hlen
  rcases Nat.exists_eq_add_of_lt hpos with ⟨n, hn⟩
  have hn' : f.val.dataCountInt.toNat = n + 1 := by omega
  have hplace : (f.val.dataCountM1.setWidth 4).toNat = n := by
    rw [f.property.m1]
    bv_omega
  unfold contents FifoRegs.doutInt
  rw [hplace, hn']
  rfl

/-- The output register in the next cycle. -/
theorem front_next (f : SyncFifo α) (wrEn rdEn : Bool) (din : α) :
    (f.next wrEn rdEn din).front =
      if f.val.take rdEn then [f.val.doutInt] else if rdEn then [] else f.front := by
  have hfront : (f.next wrEn rdEn din).front =
      if (if f.val.take rdEn then false else if rdEn then true else f.val.outputStageEmpty) then []
      else [if f.val.take rdEn then f.val.doutInt else f.val.outputStage] := rfl
  rw [hfront]
  cases f.val.take rdEn <;> cases rdEn <;> rfl

/-- A word that is not read stays in the output register. -/
theorem next_held (f : SyncFifo α) (wrEn : Bool) (din : α) (h : f.empty = false) :
    (f.next wrEn false din).empty = false ∧ (f.next wrEn false din).dout = f.dout := by
  have htake : f.val.take false = false := by
    rw [take_eq, h, Bool.or_false, Bool.and_false]
  have hempty : (f.next wrEn false din).empty =
      if f.val.take false then false else f.empty := rfl
  have hdout : (f.next wrEn false din).dout =
      if f.val.take false then f.val.doutInt else f.dout := rfl
  rw [hempty, hdout, htake]
  exact ⟨h, rfl⟩

/-- All words in the FIFO, oldest first. -/
def words (f : SyncFifo α) : List α := f.front ++ f.contents

/-- **A first-word-fall-through FIFO.** In a cycle that reads only a word that
    is there, the FIFO gives up its oldest word if it is read, and takes the new
    one unless the shift register is full. -/
theorem words_next (f : SyncFifo α) (wrEn rdEn : Bool) (din : α)
    (hrd : rdEn = true → f.empty = false) :
    (f.next wrEn rdEn din).words = (if rdEn then f.words.tail else f.words) ++
      (if wrEn && !decide (f.contents.length = 16) then [din] else []) := by
  have htake := f.take_eq rdEn
  unfold words
  rw [contents_next, front_next, wrEnInt_eq, ← List.append_assoc]
  congr 1
  cases ht : f.val.take rdEn with
  | true =>
      have hne : f.contents ≠ [] := by
        intro hnil
        rw [ht, hnil] at htake
        exact Bool.false_ne_true htake.symm
      rw [if_pos rfl, if_pos rfl, List.singleton_append, ← f.head_contents hne]
      cases hr : rdEn with
      | true =>
          -- The register is read and filled again in one cycle.
          have hfull : f.front = [f.dout] := by rw [front, hrd hr]; rfl
          rw [hfull, if_pos rfl, List.singleton_append, List.tail_cons]
      | false =>
          have hempty : f.empty = true := by
            rw [ht, hr, Bool.or_false] at htake
            exact (Bool.and_eq_true_iff.mp htake.symm).2
          have hnone : f.front = [] := by rw [front, hempty]; rfl
          rw [hnone, if_neg Bool.false_ne_true, List.nil_append]
  | false =>
      rw [if_neg Bool.false_ne_true, if_neg Bool.false_ne_true]
      cases hr : rdEn with
      | true =>
          -- The last word leaves.
          have hnil : f.contents = [] := by
            rw [ht, hr, Bool.or_true, Bool.and_true] at htake
            have hisEmpty : f.contents.isEmpty = true := by
              cases he : f.contents.isEmpty with
              | true => rfl
              | false => rw [he] at htake; exact absurd htake Bool.false_ne_true
            exact List.isEmpty_iff.mp hisEmpty
          have hfull : f.front = [f.dout] := by rw [front, hrd hr]; rfl
          rw [hnil, hfull]
          rfl
      | false => rfl

end SyncFifo

end Pcie

end Ml605
