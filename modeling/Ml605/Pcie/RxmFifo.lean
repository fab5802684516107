import Mathlib.Tactic

/-!
# The Shift-Register FIFO

`altpciexpav128_fifo`: a row of registers and a counter. The word at the head is
register zero. A read moves every register one place down, and a write goes
into the first register that is free after the read of the same cycle, if there
is one.

The module guards against nothing: a read of the empty FIFO makes the counter
wrap, and a write into the full one is lost. What is proved is that a cycle
that does neither is a cycle of a queue.

## Main definitions

* `RxmFifo`: The registers and the counter.
* `RxmFifo.next`: One clock cycle, without the resets.
* `RxmFifo.contents`: The words in the FIFO, oldest first.
* `RxmFifo.Safe`: The cycle neither underflows nor overflows.

## Theorems

* `next_contents`: A safe cycle takes the head off and adds the new word at the
  end.
* `next_count`: The counter counts.
-/

namespace Ml605

namespace Pcie

/-- The registers and the word counter. -/
structure RxmFifo (α : Type) where
  reg : Nat → α
  count : BitVec 4

namespace RxmFifo

variable {α : Type}

/-- The state the reset leaves, for the word that is all zeros. -/
def reset (zero : α) : RxmFifo α := ⟨fun _ => zero, 0⟩

/-- The output `q`. -/
def q (f : RxmFifo α) : α := f.reg 0

/-- The write enable of one register. -/
def wrreqAt (f : RxmFifo α) (wrreq rdreq : Bool) (i : Nat) : Bool :=
  wrreq && (f.count.toNat == i || f.count.toNat == i + 1 && rdreq)

/-- One clock cycle of a FIFO with `depth` registers. The last register has
    nothing to shift in. -/
def next (depth : Nat) (f : RxmFifo α) (wrreq rdreq : Bool) (data : α) : RxmFifo α where
  reg := fun i =>
    if f.wrreqAt wrreq rdreq i then data
    else if rdreq ∧ i + 1 < depth then f.reg (i + 1)
    else f.reg i
  count :=
    if rdreq ∧ ¬ wrreq then f.count - 1
    else if ¬ rdreq ∧ wrreq then f.count + 1
    else f.count

/-- The words in the FIFO, oldest first. -/
def contents (f : RxmFifo α) : List α := (List.range f.count.toNat).map f.reg

theorem contents_length (f : RxmFifo α) : f.contents.length = f.count.toNat := by
  simp only [contents, List.length_map, List.length_range]

/-- The cycle does not read an empty FIFO and does not write a full one. -/
structure Safe (depth : Nat) (f : RxmFifo α) (wrreq rdreq : Bool) : Prop where
  small : depth < 16
  read : rdreq = true → 0 < f.count.toNat
  write : wrreq = true → f.count.toNat < depth
  count : f.count.toNat ≤ depth

/-- The words left by a read, if there is one. -/
def afterRead (rdreq : Bool) (l : List α) : List α := if rdreq then l.tail else l

theorem afterRead_length {rdreq : Bool} {l : List α} (h : rdreq = true → 0 < l.length) :
    (afterRead rdreq l).length + (if rdreq then 1 else 0) = l.length := by
  unfold afterRead
  cases rdreq with
  | false => rfl
  | true =>
      have := h rfl
      simp only [if_true, List.length_tail]
      omega

/-- The counter counts the words that are there after the cycle. -/
theorem next_count {depth : Nat} {f : RxmFifo α} {wrreq rdreq : Bool}
    (h : f.Safe depth wrreq rdreq) (data : α) :
    (f.next depth wrreq rdreq data).count.toNat + (if rdreq then 1 else 0) =
      f.count.toNat + (if wrreq then 1 else 0) := by
  have hsmall := h.small
  have hcount := h.count
  have hlt := f.count.isLt
  cases hr : rdreq with
  | false =>
      cases hw : wrreq with
      | false => rfl
      | true =>
          have := h.write hw
          simp only [next, Bool.false_eq_true, not_true_eq_false, if_false,
            not_false_eq_true, and_self, if_true]
          bv_omega
  | true =>
      have hpos := h.read hr
      cases hw : wrreq with
      | false =>
          simp only [next, Bool.false_eq_true, not_false_eq_true, and_self, if_true, if_false]
          bv_omega
      | true =>
          simp only [next, not_true_eq_false, and_false, if_false, false_and, if_true]

/-- The register a word moves down to in a safe cycle. -/
theorem next_reg_old {depth : Nat} {f : RxmFifo α} {wrreq rdreq : Bool}
    (h : f.Safe depth wrreq rdreq) (data : α) {i : Nat}
    (hi : i + (if rdreq then 1 else 0) < f.count.toNat) :
    (f.next depth wrreq rdreq data).reg i = f.reg (i + (if rdreq then 1 else 0)) := by
  have hcount := h.count
  have hno : f.wrreqAt wrreq rdreq i = false := by
    unfold wrreqAt
    rw [Bool.and_eq_false_iff, Bool.or_eq_false_iff, Bool.and_eq_false_iff, beq_eq_false_iff_ne,
      beq_eq_false_iff_ne]
    refine Or.inr ⟨by omega, ?_⟩
    cases rdreq with
    | false => exact Or.inr rfl
    | true =>
        refine Or.inl ?_
        simp only [if_true] at hi
        omega
  simp only [next, hno, Bool.false_eq_true, if_false]
  cases rdreq with
  | false => simp only [Bool.false_eq_true, false_and, if_false, Nat.add_zero]
  | true =>
      simp only [if_true] at hi ⊢
      rw [if_pos ⟨trivial, by omega⟩]

/-- The register a new word goes into in a safe cycle. -/
theorem next_reg_new {depth : Nat} {f : RxmFifo α} {rdreq : Bool} (h : f.Safe depth true rdreq)
    (data : α) {i : Nat} (hi : i + (if rdreq then 1 else 0) = f.count.toNat) :
    (f.next depth true rdreq data).reg i = data := by
  have hyes : f.wrreqAt true rdreq i = true := by
    unfold wrreqAt
    cases rdreq with
    | false =>
        simp only [Bool.false_eq_true, if_false, Nat.add_zero] at hi
        simp only [hi, beq_self_eq_true, Bool.true_or, Bool.and_self]
    | true =>
        simp only [if_true] at hi
        simp only [hi, beq_self_eq_true, Bool.and_true, Bool.or_true]
  simp only [next, hyes, if_true]

theorem contents_getElem (f : RxmFifo α) {i : Nat} (h : i < f.contents.length) :
    f.contents[i] = f.reg i := by
  simp only [contents, List.getElem_map, List.getElem_range]

theorem afterRead_getElem (rdreq : Bool) (l : List α) {i : Nat}
    (h : i < (afterRead rdreq l).length)
    (h' : i + (if rdreq then 1 else 0) < l.length) :
    (afterRead rdreq l)[i] = l[i + (if rdreq then 1 else 0)] := by
  cases rdreq with
  | false => rfl
  | true => simp only [afterRead, if_true, List.getElem_tail]

/-- A safe cycle is a cycle of a queue. -/
theorem next_contents {depth : Nat} {f : RxmFifo α} {wrreq rdreq : Bool}
    (h : f.Safe depth wrreq rdreq) (data : α) :
    (f.next depth wrreq rdreq data).contents =
      afterRead rdreq f.contents ++ (if wrreq then [data] else []) := by
  have hcount := next_count h data
  have hread : rdreq = true → 0 < f.contents.length := fun hr => by
    rw [contents_length]
    exact h.read hr
  have hlen := afterRead_length hread
  rw [contents_length] at hlen
  refine List.ext_getElem ?_ ?_
  · rw [contents_length, List.length_append]
    cases wrreq with
    | false =>
        simp only [Bool.false_eq_true, if_false, List.length_nil] at hcount ⊢
        omega
    | true =>
        simp only [if_true, List.length_singleton] at hcount ⊢
        omega
  · intro i h1 h2
    rw [contents_getElem]
    by_cases hi : i < (afterRead rdreq f.contents).length
    · -- A word that was there has moved down by the read.
      have hold : i + (if rdreq then 1 else 0) < f.count.toNat := by omega
      rw [next_reg_old h data hold, List.getElem_append_left hi,
        afterRead_getElem rdreq f.contents hi (by rw [contents_length]; exact hold),
        contents_getElem]
    · -- Only a written word can be behind those.
      rw [contents_length] at h1
      cases wrreq with
      | false =>
          simp only [Bool.false_eq_true, if_false, Nat.add_zero] at hcount
          omega
      | true =>
          simp only [if_true] at hcount ⊢
          have hnew : i + (if rdreq then 1 else 0) = f.count.toNat := by omega
          rw [next_reg_new h data hnew, List.getElem_append_right (Nat.le_of_not_lt hi),
            List.getElem_singleton]

end RxmFifo

end Pcie

end Ml605
