import Mathlib.Data.List.Basic
import Mathlib.Data.List.Nodup
import Mathlib.Logic.Function.Basic

/-!
# A Pool of Counted Objects

Objects that carry a reference count. A user takes an object from the free
list, or a new one if the list is empty, and starts with one reference. More
references may be taken while at least one is held, and the one that is dropped
last puts the object at the end of the free list.

Users are numbered in the order they come. `Held` says that the counts in the
pool are what the users hold, from which everything else follows: two users
never hold the same object, and each user gives its object back once, when its
last reference goes.

## Main definitions

* `Pool`: The counts, the free list and the next new object.
* `Pool.alloc`, `Pool.get`, `Pool.put`: Taking an object, more references, and
  dropping one.
* `Held`: What the users hold.

## Theorems

* `held_alloc`, `held_get`, `held_put`: The three operations keep it.
-/

namespace Ml605

namespace Lib

/-- Objects are named by numbers, those from `fresh` on do not exist yet. -/
structure Pool where
  refs : Nat → Int
  free : List Nat
  fresh : Nat

namespace Pool

def alloc (p : Pool) : Pool × Nat :=
  match p.free with
  | x :: rest => ({ p with refs := Function.update p.refs x 1, free := rest }, x)
  | [] => ({ p with refs := Function.update p.refs p.fresh 1, fresh := p.fresh + 1 }, p.fresh)

def get (p : Pool) (x k : Nat) : Pool :=
  { p with refs := Function.update p.refs x (p.refs x + k) }

/-- Dropping a reference, and whether it was the last one. -/
def put (p : Pool) (x : Nat) : Pool × Bool :=
  let refs := Function.update p.refs x (p.refs x - 1)
  if p.refs x - 1 = 0 then ({ p with refs := refs, free := p.free ++ [x] }, true)
  else ({ p with refs := refs }, false)

end Pool

/-- What the users hold: `obj` is the object of a user and `held` the number of
    its references. `users` have come so far, and `gone` are those who have
    given their object back. -/
structure Held (p : Pool) (obj held : Nat → Nat) (users : Nat) (gone : List Nat) : Prop where
  refs : ∀ n, 0 < held n → p.refs (obj n) = held n
  distinct : ∀ n m, 0 < held n → 0 < held m → obj n = obj m → n = m
  taken : ∀ n, 0 < held n → obj n ∉ p.free ∧ obj n < p.fresh
  known : ∀ n, 0 < held n → n < users
  nodup : p.free.Nodup
  below : ∀ x, x ∈ p.free → x < p.fresh
  gone : ∀ n, gone.count n = if n < users ∧ held n = 0 then 1 else 0

/-- Adding one element to a list adds one to its count. -/
theorem count_append_singleton (l : List Nat) (a k : Nat) :
    (l ++ [a]).count k = l.count k + if a = k then 1 else 0 := by
  rw [List.count_append, List.count_singleton]
  by_cases hk : a = k
  · rw [if_pos hk, if_pos (beq_iff_eq.mpr hk)]
  · rw [if_neg hk, if_neg fun heq => hk (beq_iff_eq.mp heq)]

variable {p : Pool} {obj held : Nat → Nat} {users : Nat} {gone : List Nat}

section Alloc

/-- The object taken is nobody's, and neither free nor new any more. -/
theorem alloc_fresh (h : Held p obj held users gone) :
    (∀ n, 0 < held n → obj n ≠ p.alloc.2) ∧ p.alloc.2 ∉ p.alloc.1.free ∧
      p.alloc.2 < p.alloc.1.fresh := by
  unfold Pool.alloc
  cases hfree : p.free with
  | nil =>
      refine ⟨fun n hn heq => ?_, ?_, Nat.lt_succ_self _⟩
      · exact absurd (h.taken n hn).2 (by rw [heq]; exact Nat.lt_irrefl _)
      · exact List.not_mem_nil
  | cons x rest =>
      have hnodup := h.nodup
      rw [hfree] at hnodup
      have hmem : x ∈ p.free := by
        rw [hfree]
        exact List.mem_cons_self
      refine ⟨fun n hn heq => ?_, (List.nodup_cons.mp hnodup).1, h.below x hmem⟩
      exact (h.taken n hn).1 (by rw [heq]; exact hmem)

theorem alloc_refs (p : Pool) : p.alloc.1.refs = Function.update p.refs p.alloc.2 1 := by
  unfold Pool.alloc
  cases p.free with
  | nil => rfl
  | cons x rest => rfl

/-- The free list only loses its head, and no object disappears. -/
theorem alloc_free (p : Pool) : p.alloc.1.free = p.free.tail ∧ p.fresh ≤ p.alloc.1.fresh := by
  unfold Pool.alloc
  cases p.free with
  | nil => exact ⟨rfl, Nat.le_succ _⟩
  | cons x rest => exact ⟨rfl, Nat.le_refl _⟩

theorem held_alloc (h : Held p obj held users gone) :
    Held p.alloc.1 (Function.update obj users p.alloc.2) (Function.update held users 1)
      (users + 1) gone := by
  rcases alloc_fresh h with ⟨hnobody, hnotfree, hexists⟩
  rcases alloc_free p with ⟨hfree, hfresh⟩
  -- An old user is not the new one, which is the only one with that number.
  have hold : ∀ n, n ≠ users → 0 < Function.update held users 1 n → 0 < held n := by
    intro n hne hn
    rw [Function.update_of_ne hne] at hn
    exact hn
  have hobj : ∀ n, n ≠ users → Function.update obj users p.alloc.2 n = obj n :=
    fun n hne => Function.update_of_ne hne ..
  refine ⟨?_, ?_, ?_, ?_, ?_, ?_, ?_⟩
  · intro n hn
    by_cases hne : n = users
    · rw [hne, Function.update_self, Function.update_self, alloc_refs, Function.update_self]
      rfl
    · have hn' := hold n hne hn
      rw [hobj n hne, Function.update_of_ne hne, alloc_refs,
        Function.update_of_ne (hnobody n hn')]
      exact h.refs n hn'
  · intro n m hn hm heq
    by_cases hne : n = users
    · by_cases hme : m = users
      · rw [hne, hme]
      · rw [hne, Function.update_self, hobj m hme] at heq
        exact absurd heq.symm (hnobody m (hold m hme hm))
    · by_cases hme : m = users
      · rw [hme, Function.update_self, hobj n hne] at heq
        exact absurd heq (hnobody n (hold n hne hn))
      · rw [hobj n hne, hobj m hme] at heq
        exact h.distinct n m (hold n hne hn) (hold m hme hm) heq
  · intro n hn
    by_cases hne : n = users
    · rw [hne, Function.update_self]
      exact ⟨hnotfree, hexists⟩
    · rw [hobj n hne, hfree]
      have htaken := h.taken n (hold n hne hn)
      exact ⟨fun hmem => htaken.1 (List.mem_of_mem_tail hmem), Nat.lt_of_lt_of_le htaken.2 hfresh⟩
  · intro n hn
    by_cases hne : n = users
    · omega
    · exact Nat.lt_succ_of_lt (h.known n (hold n hne hn))
  · rw [hfree]
    exact h.nodup.sublist (List.tail_sublist _)
  · intro x hx
    rw [hfree] at hx
    exact Nat.lt_of_lt_of_le (h.below x (List.mem_of_mem_tail hx)) hfresh
  · intro n
    rw [h.gone n]
    by_cases hne : n = users
    · rw [hne, Function.update_self, if_neg (by omega), if_neg (by omega)]
    · rw [Function.update_of_ne hne]
      have hiff : (n < users ∧ held n = 0) ↔ (n < users + 1 ∧ held n = 0) := by omega
      rw [if_congr hiff rfl rfl]

end Alloc

section References

variable (h : Held p obj held users gone) {n : Nat} (hn : 0 < held n)

include h hn

/-- A user that keeps at least one reference holds what the pool counts, and
    the others are not concerned. -/
theorem held_counted {k : Nat} {refs : Int} (hk : 0 < k) (hrefs : refs = k) :
    Held { p with refs := Function.update p.refs (obj n) refs } obj (Function.update held n k)
      users gone := by
  have hpos : ∀ m, 0 < Function.update held n k m → 0 < held m := by
    intro m hm
    by_cases hmn : m = n
    · rw [hmn]
      exact hn
    · rw [Function.update_of_ne hmn] at hm
      exact hm
  refine ⟨?_, ?_, fun m hm => h.taken m (hpos m hm), fun m hm => h.known m (hpos m hm), h.nodup,
    h.below, ?_⟩
  · intro m hm
    by_cases hmn : m = n
    · rw [hmn, Function.update_self]
      exact (Function.update_self ..).trans hrefs
    · rw [Function.update_of_ne hmn]
      have hne : obj m ≠ obj n := fun heq => hmn (h.distinct m n (hpos m hm) hn heq)
      exact (Function.update_of_ne hne ..).trans (h.refs m (hpos m hm))
  · exact fun a b ha hb => h.distinct a b (hpos a ha) (hpos b hb)
  · intro m
    rw [h.gone m]
    by_cases hmn : m = n
    · rw [hmn, Function.update_self, if_neg (by omega), if_neg (by omega)]
    · rw [Function.update_of_ne hmn]

theorem held_get (k : Nat) :
    Held (p.get (obj n) k) obj (Function.update held n (held n + k)) users gone := by
  refine held_counted h hn (by omega) ?_
  have hrefs := h.refs n hn
  omega

theorem held_put :
    Held (p.put (obj n)).1 obj (Function.update held n (held n - 1)) users
      (gone ++ if (p.put (obj n)).2 then [n] else []) := by
  have hrefs := h.refs n hn
  by_cases hone : held n = 1
  · -- The last reference: the object is free and the user is gone.
    have hput : p.put (obj n) = ({ p with
        refs := Function.update p.refs (obj n) (p.refs (obj n) - 1)
        free := p.free ++ [obj n] }, true) := by
      unfold Pool.put
      exact if_pos (by omega)
    have hpos : ∀ m, 0 < Function.update held n (held n - 1) m → m ≠ n ∧ 0 < held m := by
      intro m hm
      by_cases hmn : m = n
      · rw [hmn, Function.update_self] at hm
        omega
      · rw [Function.update_of_ne hmn] at hm
        exact ⟨hmn, hm⟩
    have hne : ∀ m, 0 < Function.update held n (held n - 1) m → obj m ≠ obj n :=
      fun m hm heq => (hpos m hm).1 (h.distinct m n (hpos m hm).2 hn heq)
    rw [hput]
    refine ⟨?_, ?_, ?_, fun m hm => h.known m (hpos m hm).2, ?_, ?_, ?_⟩
    · intro m hm
      rw [Function.update_of_ne (hpos m hm).1]
      exact (Function.update_of_ne (hne m hm) ..).trans (h.refs m (hpos m hm).2)
    · exact fun a b ha hb => h.distinct a b (hpos a ha).2 (hpos b hb).2
    · intro m hm
      refine ⟨?_, (h.taken m (hpos m hm).2).2⟩
      rw [List.mem_append, List.mem_singleton, not_or]
      exact ⟨(h.taken m (hpos m hm).2).1, hne m hm⟩
    · rw [List.nodup_append]
      refine ⟨h.nodup, List.nodup_singleton _, ?_⟩
      intro a ha b hb heq
      rw [List.mem_singleton] at hb
      rw [heq, hb] at ha
      exact (h.taken n hn).1 ha
    · intro x hx
      rcases List.mem_append.mp hx with hold | hnew
      · exact h.below x hold
      · rw [List.mem_singleton] at hnew
        rw [hnew]
        exact (h.taken n hn).2
    · intro m
      rw [if_pos rfl, count_append_singleton, h.gone m]
      have hknown := h.known n hn
      by_cases hmn : m = n
      · subst hmn
        rw [Function.update_self, if_neg (by omega), if_pos rfl, if_pos (by omega)]
      · have hnm : n ≠ m := fun heq => hmn heq.symm
        rw [Function.update_of_ne hmn, if_neg hnm, Nat.add_zero]
  · have hput : p.put (obj n) = ({ p with
        refs := Function.update p.refs (obj n) (p.refs (obj n) - 1) }, false) := by
      unfold Pool.put
      exact if_neg (by omega)
    rw [hput, if_neg Bool.false_ne_true, List.append_nil]
    exact held_counted h hn (by omega) (by omega)

end References

end Lib

end Ml605
