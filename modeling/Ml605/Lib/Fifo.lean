import Mathlib.Data.List.Basic

/-!
# The Account of a FIFO

A FIFO is a list of words, the oldest first. The account of it is `fed`, all
words that ever went in, and `taken`, those that came out: the FIFO holds the
rest, in order.

A clock cycle takes the first word or none and then adds what arrives. Both keep
the account, and where `fed` is known to be a beginning of some stream, the
account says which word of that stream is at the front.

## Theorems

* `fifo_kept`, `fifo_taken`: A clock cycle keeps the account.
* `fifo_continues`: The words in the FIFO continue the stream.
* `fifo_ne_nil`: A FIFO that received the whole stream holds the rest of it.
* `fifo_moves`: What is read goes from the FIFO to its reader.
* `fifo_reads_le`: The count of the words read only grows.
* `seen_begins`, `seen_all`: What the reader on another clock gets to see.
-/

namespace Ml605

namespace Lib

variable {α : Type} {fed taken fifo new back : List α} {rd : Bool} {x : α}

/-- A cycle that reads nothing. -/
theorem fifo_kept (h : fed = taken ++ fifo) (hrd : rd = false) :
    fed ++ new = taken ++ ((if rd then fifo.tail else fifo) ++ new) := by
  rw [h, hrd, if_neg Bool.false_ne_true, List.append_assoc]

/-- A cycle that reads the first word. -/
theorem fifo_taken (h : fed = taken ++ fifo) (hrd : rd = true) (hx : fifo.head? = some x) :
    fed ++ new = taken ++ [x] ++ ((if rd then fifo.tail else fifo) ++ new) := by
  rw [h, hrd, if_pos rfl, List.append_assoc taken, List.append_assoc taken, ← List.append_assoc [x],
    List.singleton_append, ← List.eq_cons_of_mem_head? hx]

/-- Words that arrive do not change the first one. -/
theorem fifo_head (hrd : rd = false) (hx : fifo.head? = some x) :
    ((if rd then fifo.tail else fifo) ++ new).head? = some x := by
  rw [hrd, if_neg Bool.false_ne_true, List.head?_append, hx, Option.some_or]

/-- The words in the FIFO continue the stream where it was left off. -/
theorem fifo_continues (h : fed = taken ++ fifo) (hstream : fed <+: taken ++ back) :
    fifo <+: back := by
  rw [h] at hstream
  exact (List.prefix_append_right_inj taken).mp hstream

/-- The first word is the next of the stream. -/
theorem fifo_next {y : α} (h : fed = taken ++ fifo) (hstream : fed <+: taken ++ y :: back)
    (hx : fifo.head? = some x) : x = y := by
  have hpre := fifo_continues h hstream
  rw [List.eq_cons_of_mem_head? hx] at hpre
  exact (List.cons_prefix_cons.mp hpre).1

/-- A FIFO that received the whole stream is not empty before its end. -/
theorem fifo_ne_nil (h : fed = taken ++ fifo) (hall : fed = taken ++ back) (hback : back ≠ []) :
    fifo ≠ [] := by
  rw [hall] at h
  rw [← List.append_cancel_left h]
  exact hback

/-- A reader that takes the first word, if there is one, or none. -/
theorem fifo_moves (out fifo new : List α) (rd : Bool) :
    (out ++ if rd then fifo.head?.toList else []) ++ ((if rd then fifo.tail else fifo) ++ new) =
      out ++ fifo ++ new := by
  cases rd with
  | false => rw [if_neg Bool.false_ne_true, if_neg Bool.false_ne_true, List.append_nil,
      List.append_assoc]
  | true =>
      cases fifo with
      | nil => rw [if_pos rfl, if_pos rfl, List.head?_nil, Option.toList_none, List.append_nil,
          List.tail_nil, List.nil_append]
      | cons x back => rw [if_pos rfl, if_pos rfl, List.head?_cons, Option.toList_some,
          List.tail_cons, List.append_assoc, List.append_assoc, List.singleton_append,
          List.cons_append]

/-- A read takes a word off. -/
theorem fifo_rest_le (fifo : List α) (rd : Bool) :
    (if rd then fifo.tail else fifo).length ≤ fifo.length := by
  cases rd with
  | false => exact Nat.le_refl _
  | true =>
      rw [if_pos rfl, List.length_tail]
      exact Nat.sub_le _ _

/-- The count of the words read only grows. -/
theorem fifo_reads_le (fed fifo new : List α) (rd : Bool) :
    fed.length - fifo.length ≤
      (fed ++ new).length - ((if rd then fifo.tail else fifo) ++ new).length := by
  have hrest := fifo_rest_le fifo rd
  rw [List.length_append, List.length_append, Nat.add_sub_add_right]
  exact Nat.sub_le_sub_left hrest _

/-- What the reader of a FIFO between two clocks gets to see is a beginning of
    what was written. -/
theorem seen_begins {written : List α} (h : fed <+: written) (n : Nat) :
    fed ++ (written.drop fed.length).take n <+: written := by
  rcases h with ⟨rest, rfl⟩
  rw [List.drop_left, List.prefix_append_right_inj]
  exact List.take_prefix n rest

/-- All that was written is seen. -/
theorem seen_all {written : List α} (h : fed <+: written) {n : Nat} (hn : written.length ≤ n) :
    fed ++ (written.drop fed.length).take n = written := by
  rcases h with ⟨rest, rfl⟩
  rw [List.length_append] at hn
  rw [List.drop_left, List.take_of_length_le (Nat.le_of_add_left_le hn)]

end Lib

end Ml605
