import Mathlib.Algebra.Ring.Int.Defs
import Mathlib.Algebra.Ring.Nat
import Mathlib.Data.List.Basic

/-!
# DMA Buffers of the AES Driver

The `dma_buf_t` of `aesdma.c`: a mapped scatter list, cut down to the entries
the transfer needs, or one contiguous address.

The driver walks a buffer with `dma_buf_first` and `dma_buf_next`, whose
position (`_sg`, `_i`, `_len`) lives in the buffer itself. Here the position
is a value of its own, the entries not visited yet and the bytes not handed
out yet. The loop of `_aes_desc_to_hw` is a do-while: it uses the first
segment whatever its length is, and goes on for as long as the next one is
not empty. `bufSegs` is the list of segments that loop visits.

Lengths are the source's `int`, which wraps around: the `unsigned int` length
of an entry is converted by `min_t(int, ..)`, so an entry of 2^31 bytes or more
counts as a negative length and adds to what is left of the transfer. Below
that bound the walk is ordinary arithmetic.

## Main definitions

* `toInt`, `toU32`: The conversions of the source between its two integers.
* `SgEntry`: One mapped entry of a scatter list.
* `DmaBuf`: The two kinds of buffer.
* `sgCntUpdate`, `dmaBufSgInit`, `dmaBufAddrInit`, `dmaBufCnt`,
  `dmaBufFirst`, `dmaBufNext`: The functions of the source.
* `bufSegs`: The segments the descriptor loop visits.

## Theorems

* `toInt_eq_self`, `toU32_eq_toNat`: Where the conversions change nothing.
* `segsFrom_eq_next`: The segments are what repeated `dma_buf_next` gives.
* `bufSegs_length_le`: There is room for them among the allocated
  descriptors.
-/

namespace Ml605

namespace Driver

/-- A value as an `int` of the source holds it. -/
def toInt (n : Int) : Int := n.bmod (2 ^ 32)

/-- An `int` as the `u32` argument it is passed for. -/
def toU32 (n : Int) : Nat := (n % 2 ^ 32).toNat

theorem toInt_eq_self {n : Int} (hneg : 0 ≤ n) (h : n < 2 ^ 31) : toInt n = n :=
  Int.bmod_eq_of_le (by omega) (by omega)

theorem toU32_eq_toNat {n : Int} (hneg : 0 ≤ n) (h : n < 2 ^ 31) : toU32 n = n.toNat := by
  rw [toU32, Int.emod_eq_of_lt hneg (by omega)]

/-- One entry of a mapped scatter list. -/
structure SgEntry where
  dmaAddress : Nat
  dmaLen : Nat
deriving DecidableEq, Repr

/-- `dma_buf_t`. The count of a scatter list is the length of its table. -/
inductive DmaBuf
  | sg (table : List SgEntry) (sz : Int)
  | addr (dma : Nat) (len : Int)
deriving DecidableEq, Repr

/-- Where a walk over a buffer stands: the entries behind the current one and
    the bytes still to be handed out. -/
structure BufPos where
  rest : List SgEntry
  left : Int
deriving DecidableEq, Repr

/-- `min_t(int, sg_dma_len(sg), left)`: what of the transfer falls on an entry. -/
def segLen (e : SgEntry) (left : Int) : Int := min (toInt e.dmaLen) left

/-- `sg_cnt_update`: how many entries it takes to cover `tsz` bytes, or all of
    them if they do not. -/
def sgCntUpdate : List SgEntry → Int → Nat
  | [], _ => 0
  | e :: es, tsz =>
    let left := toInt (tsz - segLen e tsz)
    if left = 0 then 1 else sgCntUpdate es left + 1

/-- `-ENOMEM`. -/
def enomem : Int := -12

/-- `dma_buf_sg_init`, with the outcome of `sg_alloc_table` as an argument. A
    failed allocation leaves the zeroed buffer behind, which reads as an empty
    scatter list. -/
def dmaBufSgInit (tableOk : Bool) (sgList : List SgEntry) (sz : Int) : DmaBuf × Int :=
  if tableOk then (DmaBuf.sg (sgList.take (sgCntUpdate sgList sz)) sz, 0)
  else (DmaBuf.sg [] 0, enomem)

def dmaBufAddrInit (dma : Nat) (len : Int) : DmaBuf := DmaBuf.addr dma len

/-- `dma_buf_cnt`. -/
def dmaBufCnt : DmaBuf → Nat
  | .addr _ _ => 1
  | .sg table _ => table.length

/-- `dma_buf_first`: the length and address of the first segment, and where the
    walk then stands. The source does not reach it for an empty table. -/
def dmaBufFirst : DmaBuf → Int × Nat × BufPos
  | .addr dma len => (len, dma, ⟨[], 0⟩)
  | .sg [] sz => (0, 0, ⟨[], sz⟩)
  | .sg (e :: es) sz => (segLen e sz, e.dmaAddress, ⟨es, toInt (sz - segLen e sz)⟩)

/-- `dma_buf_next`: a length of zero means there is nothing more. The address
    is only written when there is another entry. -/
def dmaBufNext (pos : BufPos) (addr : Nat) : Int × Nat × BufPos :=
  match pos.rest with
  | [] => (0, addr, pos)
  | e :: es =>
    (segLen e pos.left, e.dmaAddress, ⟨es, toInt (pos.left - segLen e pos.left)⟩)

/-- The segments behind the current one, as far as the loop goes: a length that
    is not positive ends it. -/
def segsFrom : List SgEntry → Int → List (Nat × Nat)
  | [], _ => []
  | e :: es, left =>
    let len := segLen e left
    if 0 < len then (toU32 len, e.dmaAddress) :: segsFrom es (toInt (left - len)) else []

/-- The segments that the descriptor loop visits, as the length that
    `XAxiDma_BdSetLength` is called with and the address. The first is visited
    whatever its length is. -/
def bufSegs (buf : DmaBuf) : List (Nat × Nat) :=
  let (len, addr, pos) := dmaBufFirst buf
  (toU32 len, addr) :: segsFrom pos.rest pos.left

/-- The segments behind the current one are what `dma_buf_next` hands out, until
    it says that there is nothing more. -/
theorem segsFrom_eq_next (pos : BufPos) (addr : Nat) :
    segsFrom pos.rest pos.left =
      if 0 < (dmaBufNext pos addr).1 then
        (toU32 (dmaBufNext pos addr).1, (dmaBufNext pos addr).2.1) ::
          segsFrom (dmaBufNext pos addr).2.2.rest (dmaBufNext pos addr).2.2.left
      else [] := by
  unfold dmaBufNext
  cases pos.rest with
  | nil => rfl
  | cons e es => rfl

theorem segsFrom_length_le (es : List SgEntry) : ∀ left, (segsFrom es left).length ≤ es.length := by
  induction es with
  | nil => intro left; exact Nat.le_refl 0
  | cons e es ih =>
      intro left
      simp only [segsFrom]
      by_cases hlen : 0 < segLen e left
      · rw [if_pos hlen]
        simp only [List.length_cons]
        exact Nat.succ_le_succ (ih _)
      · rw [if_neg hlen]
        exact Nat.zero_le _

/-- The loop never visits more segments than were counted, so the descriptors
    it fills are among those that were allocated. -/
theorem bufSegs_length_le (buf : DmaBuf) (h : 0 < dmaBufCnt buf) :
    (bufSegs buf).length ≤ dmaBufCnt buf := by
  cases buf with
  | addr dma len => exact Nat.le_refl 1
  | sg table sz =>
      cases table with
      | nil => exact absurd h (Nat.lt_irrefl 0)
      | cons e es => exact Nat.succ_le_succ (segsFrom_length_le es _)

theorem bufSegs_ne_nil (buf : DmaBuf) : bufSegs buf ≠ [] := by
  simp only [bufSegs, ne_eq, reduceCtorEq, not_false_eq_true]

end Driver

end Ml605
