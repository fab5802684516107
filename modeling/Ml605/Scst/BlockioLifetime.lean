import Mathlib.Algebra.BigOperators.Group.List.Basic
import Mathlib.Tactic
import Ml605.Scst.Blockio

/-!
# Lifetime of the Work Objects of a Block I/O Command

When the `scst_blockio_work` and the `scst_aes_work` of a command are freed,
and whether anything looks at them afterwards.

The in-flight counter is a reference count that nobody drew up as one. Every
pending activity owns a number of references, its `weight`: the end of a bio
owns one, a submission loop owns one for each bio it still has to hand out and
one for its final check, and the activities that lead up to a loop own what
the loop will own. `Balanced` says that the counter is the sum of the weights.
A weight is never zero, so the counter reaches zero exactly when the activity
that is running is the last one, and the objects go away with nobody left to
look.

The read path with AES breaks the bookkeeping: `blockio_aes_submit` hands the
work to a callback that will free it, and `blockio_check_finish` frees it all
the same. `aesRead_reaches_finish` walks such a command to that point for any
number of bios, and two more steps are enough for the use after free.

## Main definitions

* `weight`: The references an activity owns.
* `Balanced`: The counter is the sum of the weights, nothing freed is in use.
* `FreedOnce`: Both objects are released exactly once and not used later.

## Theorems

* `checkFinish_balanced`: A check drops one reference and frees on the last.
* `step_balanced`: Every activity keeps the books.
* `run_balanced`: So does every schedule.
* `schedule_length_le`: Every schedule ends.
* `aesRead_reaches_finish`: A decrypted read frees its work under its callback.
* `blockio_freedOnce_iff`: Exactly the reads with AES go wrong.
-/

namespace Ml605

namespace Scst

open Lib

/-- The references on the in-flight counter that an activity owns, `k` being
    the length of the chain kept in the AES work. -/
def weight (k : Nat) : Task → Nat
  | .execSubmit hbio => hbio.length + 1
  | .workSubmit hbio => hbio.length + 1
  | .bioEndio _ => 1
  | .writeAesCb => k + 1
  | .aesWrite => k + 1
  | .readAesCb => 0
  | .freeWork => 0

/-- The references all pending activities own together. -/
def owned (s : State) : Nat := (s.pending.map (weight s.hbio.length)).sum

/-- No pending activity belongs to the read path of an encrypted device. -/
def NoReadback (s : State) : Prop :=
  ∀ t ∈ s.pending, t ≠ Task.readAesCb ∧ t ≠ Task.freeWork

/-- Both objects are there and `k` references belong to the activity that is
    running. -/
structure Held (k : Nat) (s : State) : Prop where
  counter : s.biosInflight = k + owned s
  work : s.workFreed = 0
  aes : s.aesFreed = 0
  fresh : s.stale = false
  clean : NoReadback s

/-- Between two activities: the counter is the sum of the weights, and the
    objects are gone exactly when nothing is pending. -/
structure Balanced (c : Command) (s : State) : Prop where
  counter : s.biosInflight = owned s
  work : s.workFreed = if s.pending = [] then 1 else 0
  aes : s.aesFreed = if s.pending = [] ∧ c.aes = true then 1 else 0
  fresh : s.stale = false
  clean : NoReadback s

/-- The work is released exactly once, the AES work exactly once if there is
    one, and neither is used after that. A schedule is over when nothing is
    pending. -/
structure FreedOnce (c : Command) (s : State) : Prop where
  fresh : s.stale = false
  workOnce : s.workFreed ≤ 1
  aesOnce : s.aesFreed ≤ 1
  finished : s.pending = [] → s.workFreed = 1 ∧ s.aesFreed = if c.aes then 1 else 0

theorem weight_pos (k : Nat) (t : Task) (h : t ≠ Task.readAesCb ∧ t ≠ Task.freeWork) :
    0 < weight k t := by
  cases t with
  | readAesCb => exact absurd rfl h.1
  | freeWork => exact absurd rfl h.2
  | _ => simp only [weight, Nat.succ_pos]

/-- Pending activities own at least one reference between them. -/
theorem owned_pos (s : State) (hc : NoReadback s) (hne : s.pending ≠ []) : 0 < owned s := by
  cases hp : s.pending with
  | nil => exact absurd hp hne
  | cons t ts =>
      have hw := weight_pos s.hbio.length t (hc t (by rw [hp]; exact List.mem_cons_self))
      simp only [owned, hp, List.map_cons, List.sum_cons]
      omega

theorem noReadback_spawn (t : Task) (s : State) (hs : NoReadback s)
    (ht : t ≠ Task.readAesCb ∧ t ≠ Task.freeWork) : NoReadback (spawn t s) := by
  intro u hu
  simp only [spawn, List.mem_append, List.mem_singleton] at hu
  rcases hu with hu | hu
  · exact hs u hu
  · rw [hu]
    exact ht

theorem owned_spawn (t : Task) (s : State) :
    owned (spawn t s) = owned s + weight s.hbio.length t := by
  simp only [owned, spawn, List.map_append, List.map_cons, List.map_nil, List.sum_append,
    List.sum_cons, List.sum_nil, Nat.add_zero]

/-- Handing references to a new activity. -/
theorem held_spawn (k : Nat) (t : Task) (s : State) (h : Held (k + weight s.hbio.length t) s)
    (ht : t ≠ Task.readAesCb ∧ t ≠ Task.freeWork) : Held k (spawn t s) := by
  refine ⟨?_, h.work, h.aes, h.fresh, noReadback_spawn t s h.clean ht⟩
  rw [owned_spawn]
  have hc := h.counter
  simp only [spawn]
  push_cast at hc ⊢
  omega

theorem derefWork_held (k : Nat) (s : State) (h : Held k s) : derefWork s = s := by
  have hst : (s.stale || decide (0 < s.workFreed)) = s.stale := by
    simp only [h.work, Nat.lt_irrefl, decide_false, Bool.or_false]
  simp only [derefWork, hst]

theorem derefAes_held (k : Nat) (s : State) (h : Held k s) : derefAes s = s := by
  have hst : (s.stale || decide (0 < s.aesFreed)) = s.stale := by
    simp only [h.aes, Nat.lt_irrefl, decide_false, Bool.or_false]
  simp only [derefAes, hst]

/-- With an activity still pending, nothing has been freed and there is no
    reference left over. -/
theorem balanced_of_held (c : Command) (s : State) (h : Held 0 s) (hne : s.pending ≠ []) :
    Balanced c s := by
  refine ⟨by simpa only [Nat.cast_zero, Int.zero_add] using h.counter, ?_, ?_, h.fresh, h.clean⟩
  · rw [if_neg hne, h.work]
  · rw [if_neg (fun hc => hne hc.1), h.aes]

theorem pending_ne_nil_of_perm {s : State} {t : Task} {rest : List Task}
    (h : (t :: rest).Perm s.pending) : s.pending ≠ [] := by
  intro hnil
  rw [hnil] at h
  exact absurd h.symm.nil_eq (by simp only [reduceCtorEq, not_false_eq_true])

/-- Taking an activity off the list hands its references to whoever runs it. -/
theorem held_of_balanced (c : Command) (s : State) (t : Task) (rest : List Task)
    (hb : Balanced c s) (hp : (t :: rest).Perm s.pending) :
    Held (weight s.hbio.length t) { s with pending := rest } := by
  have hne := pending_ne_nil_of_perm hp
  have hsum : owned s = weight s.hbio.length t + owned { s with pending := rest } := by
    simp only [owned, ← (hp.map (weight s.hbio.length)).sum_eq, List.map_cons, List.sum_cons]
  refine ⟨?_, ?_, ?_, hb.fresh, fun u hu => hb.clean u (hp.subset (List.mem_cons_of_mem t hu))⟩
  · have hc := hb.counter
    rw [hsum] at hc
    simpa only [Nat.cast_add] using hc
  · rw [hb.work, if_neg hne]
  · rw [hb.aes, if_neg (fun hc => hne hc.1)]

/-- A check by the owner of one reference keeps the books, provided the
    command is not a read from an encrypted device. The last check is the one
    that finds nothing pending. -/
theorem checkFinish_balanced (c : Command) (s : State) (hc : c.aes = true → c.write = true)
    (h : Held 1 s) : Balanced c (blockioCheckFinish c s) := by
  have hcnt := h.counter
  by_cases hp : s.pending = []
  · -- The one reference left is the checker's own, so the objects go.
    have hzero : s.biosInflight - 1 = 0 := by
      simp only [owned, hp, List.map_nil, List.sum_nil] at hcnt
      omega
    cases haes : c.aes with
    | false =>
        refine ⟨?_, ?_, ?_, ?_, ?_⟩ <;>
          simp only [blockioCheckFinish, hzero, if_true, haes,
            Bool.false_eq_true, if_false, kmemCacheFree, scstCmdDone, derefWork, h.work, h.aes,
            h.fresh, hp, Nat.lt_irrefl, decide_false, Bool.or_false, and_false, owned,
            List.map_nil, List.sum_nil, Nat.cast_zero, Nat.zero_add]
        intro t ht
        exact absurd ht (by simp only [List.not_mem_nil, not_false_eq_true])
    | true =>
        refine ⟨?_, ?_, ?_, ?_, ?_⟩ <;>
          simp only [blockioCheckFinish, hzero, if_true, haes, hc haes,
            kmemCacheFree, scstCmdPut, aesCleanup, derefAes, derefWork, h.work, h.aes, h.fresh,
            hp, Nat.lt_irrefl, decide_false, Bool.or_false, and_self, owned, List.map_nil,
            List.sum_nil, Nat.cast_zero, Nat.zero_add]
        intro t ht
        exact absurd ht (by simp only [List.not_mem_nil, not_false_eq_true])
  · -- Somebody else owns a reference, so the counter stays above zero.
    have hpos := owned_pos s h.clean hp
    have hnz : ¬ (s.biosInflight - 1 = 0) := by omega
    have heq : blockioCheckFinish c s = { s with biosInflight := s.biosInflight - 1 } := by
      simp only [blockioCheckFinish, derefWork_held 1 s h, if_neg hnz]
    rw [heq]
    refine balanced_of_held c _ ⟨?_, h.work, h.aes, h.fresh, h.clean⟩ hp
    simp only [owned] at hcnt ⊢
    omega

theorem held_log (k : Nat) (s : State) (l : List LogEvent) (h : Held k s) :
    Held k { s with log := l } :=
  ⟨h.counter, h.work, h.aes, h.fresh, h.clean⟩

theorem spawn_pending_ne_nil (t : Task) (s : State) : (spawn t s).pending ≠ [] := by
  simp only [spawn, ne_eq, List.append_eq_nil_iff, reduceCtorEq, and_false, not_false_eq_true]

/-- The end of a bio is its log entries and a check. -/
theorem blockioEndio_balanced (c : Command) (b : Nat) (st : BioStatus) (s : State)
    (hc : c.aes = true → c.write = true) (h : Held 1 s) :
    Balanced c (blockioEndio c b st s) := by
  have h1 := held_log 1 s (s.log ++ [LogEvent.bioEnded b (endioError st)]) h
  by_cases he : endioError st = 0
  · simp only [blockioEndio, derefWork_held 1 s h, if_pos he]
    exact checkFinish_balanced c _ hc h1
  · simp only [blockioEndio, derefWork_held 1 s h, if_neg he, derefWork_held 1 _ h1]
    exact checkFinish_balanced c _ hc (held_log 1 _
      (s.log ++ [LogEvent.bioEnded b (endioError st)] ++ [LogEvent.senseSet (endioSense c)]) h)

/-- Every activity keeps the books, provided the command is not a read from an
    encrypted device. -/
theorem step_balanced (c : Command) (hc : c.aes = true → c.write = true) (s : State) (e : Event)
    (s' : State) (hb : Balanced c s) (hstep : step c s e = some s') : Balanced c s' := by
  rcases step_eq c s s' e hstep with ⟨t, rest, hp, rfl⟩
  have hh := held_of_balanced c s t rest hb hp
  have hclean := hb.clean t (hp.subset List.mem_cons_self)
  cases t with
  | readAesCb => exact absurd rfl hclean.1
  | freeWork => exact absurd rfl hclean.2
  | bioEndio b => exact blockioEndio_balanced c b e.2 _ hc hh
  | writeAesCb =>
      simp only [runTask, blockioWriteAesCb, derefWork_held _ _ hh, derefAes_held _ _ hh]
      refine balanced_of_held c _ (held_spawn 0 _ _ ?_ ?_) (spawn_pending_ne_nil _ _)
      · simpa only [weight, Nat.zero_add] using hh
      · simp only [ne_eq, reduceCtorEq, not_false_eq_true, and_self]
  | aesWrite =>
      simp only [runTask, aesWriteWorkFn, derefWork_held _ _ hh, derefAes_held _ _ hh]
      refine balanced_of_held c _ (held_spawn 0 _ _ ?_ ?_) (spawn_pending_ne_nil _ _)
      · simpa only [weight, Nat.zero_add] using hh
      · simp only [ne_eq, reduceCtorEq, not_false_eq_true, and_self]
  | execSubmit hbio =>
      cases hbio with
      | nil => exact checkFinish_balanced c _ hc hh
      | cons b bs =>
          refine balanced_of_held c _ (held_spawn 0 _ _ (held_spawn _ _ _ ?_ ?_) ?_)
            (spawn_pending_ne_nil _ _)
          -- One reference goes with the bio, the others stay with the loop.
          · simpa only [weight, List.length_cons, Nat.zero_add] using hh
          · simp only [ne_eq, reduceCtorEq, not_false_eq_true, and_self]
          · simp only [ne_eq, reduceCtorEq, not_false_eq_true, and_self]
  | workSubmit hbio =>
      cases hbio with
      | nil =>
          simp only [runTask, derefAes_held _ _ hh]
          exact checkFinish_balanced c _ hc hh
      | cons b bs =>
          refine balanced_of_held c _ (held_spawn 0 _ _ (held_spawn _ _ _ ?_ ?_) ?_)
            (spawn_pending_ne_nil _ _)
          · simpa only [weight, List.length_cons, Nat.zero_add] using hh
          · simp only [ne_eq, reduceCtorEq, not_false_eq_true, and_self]
          · simp only [ne_eq, reduceCtorEq, not_false_eq_true, and_self]

/-- The books are in order when `blockio_exec_rw` lets go of the command. -/
theorem blockioExecRw_balanced (c : Command) (hc : c.aes = true → c.write = true) :
    Balanced c (blockioExecRw c) := by
  cases haes : c.aes with
  | false =>
      refine balanced_of_held c _ ⟨?_, ?_, ?_, ?_, ?_⟩ ?_ <;>
        simp only [blockioExecRw, haes, Bool.false_and, Bool.false_eq_true, if_false, spawn, owned,
          List.nil_append, List.map_cons, List.map_nil, List.sum_cons, List.sum_nil, weight,
          List.length_range, Nat.add_zero, Nat.cast_add, Nat.cast_one, Nat.cast_zero, zero_add,
          ne_eq, reduceCtorEq, not_false_eq_true]
      intro t ht
      rw [List.mem_singleton.mp ht]
      simp only [ne_eq, reduceCtorEq, not_false_eq_true, and_self]
  | true =>
      have hw := hc haes
      refine balanced_of_held c _ ⟨?_, ?_, ?_, ?_, ?_⟩ ?_ <;>
        simp only [blockioExecRw, blockioAesSubmit, haes, hw, Bool.and_self, if_true, spawn,
          derefAes, derefWork, scstCmdDone, scstCmdGet, Nat.lt_irrefl, decide_false,
          Bool.or_false, owned, List.nil_append, List.map_cons, List.map_nil, List.sum_cons,
          List.sum_nil, weight, List.length_range, Nat.add_zero, Nat.cast_add, Nat.cast_one,
          Nat.cast_zero, zero_add, ne_eq, reduceCtorEq, not_false_eq_true]
      intro t ht
      rw [List.mem_singleton.mp ht]
      simp only [ne_eq, reduceCtorEq, not_false_eq_true, and_self]

/-- Every schedule keeps the books. -/
theorem run_balanced (c : Command) (hc : c.aes = true → c.write = true) (es : List Event)
    (s : State) (h : Run (step c) Free (blockioExecRw c) es s) : Balanced c s :=
  run_inv (fun s e s' hb _ hstep => step_balanced c hc s e s' hb hstep) h
    (blockioExecRw_balanced c hc)

theorem freedOnce_of_balanced (c : Command) (s : State) (h : Balanced c s) : FreedOnce c s := by
  refine ⟨h.fresh, ?_, ?_, ?_⟩
  · rw [h.work]
    split <;> omega
  · rw [h.aes]
    split <;> omega
  · intro hp
    rw [h.work, h.aes, if_pos hp]
    simp only [hp, true_and, and_self]

/-- How many steps an activity and everything it starts can still take. -/
def steps (k : Nat) : Task → Nat
  | .execSubmit hbio => 2 * hbio.length + 1
  | .workSubmit hbio => 2 * hbio.length + 1
  | .bioEndio _ => 1
  | .aesWrite => 2 * k + 2
  | .writeAesCb => 2 * k + 3
  | .readAesCb => 1
  | .freeWork => 1

/-- The steps all pending activities can still take together. -/
def stepsLeft (s : State) : Nat := (s.pending.map (steps s.hbio.length)).sum

theorem checkFinish_stepsLeft (c : Command) (s : State) (hc : c.aes = true → c.write = true) :
    stepsLeft (blockioCheckFinish c s) = stepsLeft s := by
  by_cases hz : s.biosInflight - 1 = 0
  · cases haes : c.aes with
    | false =>
        simp only [blockioCheckFinish, derefWork, hz, if_true, haes, Bool.false_eq_true, if_false,
          kmemCacheFree, scstCmdDone, stepsLeft]
    | true =>
        simp only [blockioCheckFinish, derefWork, hz, if_true, haes, hc haes, kmemCacheFree,
          scstCmdPut, aesCleanup, derefAes, stepsLeft]
  · simp only [blockioCheckFinish, derefWork, hz, if_false, stepsLeft]

theorem stepsLeft_spawn (t : Task) (s : State) :
    stepsLeft (spawn t s) = stepsLeft s + steps s.hbio.length t := by
  simp only [stepsLeft, spawn, List.map_append, List.map_cons, List.map_nil, List.sum_append,
    List.sum_cons, List.sum_nil, Nat.add_zero]

theorem step_stepsLeft (c : Command) (hc : c.aes = true → c.write = true) (s : State) (e : Event)
    (s' : State) (hstep : step c s e = some s') (hb : Balanced c s) :
    stepsLeft s' < stepsLeft s := by
  rcases step_eq c s s' e hstep with ⟨t, rest, hp, rfl⟩
  have hsum : stepsLeft s = steps s.hbio.length t + stepsLeft { s with pending := rest } := by
    simp only [stepsLeft, ← (hp.map (steps s.hbio.length)).sum_eq, List.map_cons, List.sum_cons]
  have hclean := hb.clean t (hp.subset List.mem_cons_self)
  rw [hsum]
  cases t with
  -- A balanced state has no readback pending.
  | readAesCb => exact absurd rfl hclean.1
  | freeWork => exact absurd rfl hclean.2
  | bioEndio b =>
      have hlog : stepsLeft (blockioEndio c b e.2 { s with pending := rest })
          = stepsLeft { s with pending := rest } := by
        simp only [blockioEndio, checkFinish_stepsLeft c _ hc]
        split <;> rfl
      simp only [runTask, hlog, steps]
      omega
  | writeAesCb =>
      simp only [runTask, blockioWriteAesCb, stepsLeft_spawn]
      simp only [stepsLeft, derefAes, derefWork, steps]
      omega
  | aesWrite =>
      simp only [runTask, aesWriteWorkFn, stepsLeft_spawn]
      simp only [stepsLeft, derefAes, derefWork, steps]
      omega
  -- A submission loop hands over one bio and leaves a shorter list, or ends.
  | execSubmit hbio =>
      cases hbio with
      | nil =>
          simp only [runTask, checkFinish_stepsLeft c _ hc, steps, List.length_nil]
          omega
      | cons b bs =>
          simp only [runTask, stepsLeft_spawn, steps, List.length_cons]
          omega
  | workSubmit hbio =>
      cases hbio with
      | nil =>
          simp only [runTask, checkFinish_stepsLeft c _ hc, steps, List.length_nil]
          simp only [stepsLeft, derefAes]
          omega
      | cons b bs =>
          simp only [runTask, stepsLeft_spawn, steps, List.length_cons]
          omega

/-- Every schedule ends: after at most two steps per bio and three more,
    nothing is pending. -/
theorem schedule_length_le (c : Command) (hc : c.aes = true → c.write = true) (es : List Event)
    (s : State) (h : Run (step c) Free (blockioExecRw c) es s) :
    es.length ≤ 2 * c.bios + 3 := by
  have hlen := run_length_le stepsLeft
    (fun s e s' hb _ hstep => step_balanced c hc s e s' hb hstep)
    (fun s e s' hb _ hstep => step_stepsLeft c hc s e s' hstep hb) h
    (blockioExecRw_balanced c hc)
  have hstart : stepsLeft (blockioExecRw c) ≤ 2 * c.bios + 3 := by
    cases haes : c.aes with
    | false =>
        simp only [blockioExecRw, haes, Bool.false_and, Bool.false_eq_true, if_false, stepsLeft,
          spawn, List.nil_append, List.map_cons, List.map_nil, List.sum_cons, List.sum_nil, steps,
          List.length_range]
        omega
    | true =>
        simp only [blockioExecRw, blockioAesSubmit, haes, hc haes, Bool.and_self, if_true,
          stepsLeft, spawn, derefAes, derefWork, scstCmdDone, scstCmdGet, List.nil_append,
          List.map_cons, List.map_nil, List.sum_cons, List.sum_nil, steps, List.length_range]
        omega
  omega

/-- Nothing is freed and `n` references are counted. -/
structure Alive (n : Int) (s : State) : Prop where
  counter : s.biosInflight = n
  work : s.workFreed = 0
  aes : s.aesFreed = 0

/-- The end of a bio that is not the last one leaves everything where it was. -/
theorem endio_alive (c : Command) (b : Nat) (n : Int) (s : State) (hn : n ≠ 0)
    (h : Alive (n + 1) s) :
    Alive n (blockioEndio c b ⟨true, 0⟩ s) ∧
      (blockioEndio c b ⟨true, 0⟩ s).pending = s.pending := by
  have hnz : ¬ (s.biosInflight - 1 = 0) := by
    rw [h.counter]
    omega
  simp only [blockioEndio, endioError, eio, Bool.true_eq_false, false_and, if_false, if_true,
    blockioCheckFinish, derefWork, hnz]
  refine ⟨⟨?_, h.work, h.aes⟩, trivial⟩
  have hcnt := h.counter
  simp only []
  omega

/-- A read from an encrypted device reaches the end of its last check with the
    decryption callback and the `kmem_cache_free` behind it both outstanding.
    The schedule submits a bio and ends it, over and over. -/
theorem aesRead_reaches_finish (c : Command) (haes : c.aes = true) (hw : c.write = false) :
    ∀ (l : List Nat) (s : State), s.pending = [Task.execSubmit l] → Alive (l.length + 1) s →
      ∃ es t, Run (step c) Free s es t ∧ t.pending = [Task.readAesCb, Task.freeWork] ∧
        Alive 0 t := by
  intro l
  induction l with
  | nil =>
      intro s hp ha
      have hz : s.biosInflight - 1 = 0 := by
        rw [ha.counter]
        simp only [List.length_nil, Nat.cast_zero, zero_add, sub_self]
      refine ⟨[(0, ⟨true, 0⟩)], blockioCheckFinish c { s with pending := [] },
        Run.cons s _ _ _ _ ?_ trivial (Run.nil _), ?_, ?_⟩
      · simp only [step, hp, List.getElem?_cons_zero, List.eraseIdx_cons_zero, runTask]
      · simp only [blockioCheckFinish, blockioAesSubmit, derefWork, derefAes, hz, if_true, haes, hw,
          Bool.false_eq_true, if_false, spawn, List.nil_append, List.cons_append]
      · refine ⟨?_, ?_, ?_⟩ <;>
          simp only [blockioCheckFinish, blockioAesSubmit, derefWork, derefAes, hz, if_true, haes,
            hw, Bool.false_eq_true, if_false, spawn, ha.work, ha.aes]
  | cons b bs ih =>
      intro s hp ha
      -- Submit the bio, then let it end at once.
      have hsub : step c s (0, ⟨true, 0⟩)
          = some { s with pending := [Task.bioEndio b, Task.execSubmit bs] } := by
        simp only [step, hp, List.getElem?_cons_zero, List.eraseIdx_cons_zero, runTask, spawn,
          List.nil_append, List.cons_append]
      have hend : step c { s with pending := [Task.bioEndio b, Task.execSubmit bs] } (0, ⟨true, 0⟩)
          = some (blockioEndio c b ⟨true, 0⟩ { s with pending := [Task.execSubmit bs] }) := by
        simp only [step, List.getElem?_cons_zero, List.eraseIdx_cons_zero, runTask]
      have hal : Alive ((bs.length : Int) + 1 + 1) { s with pending := [Task.execSubmit bs] } := by
        refine ⟨?_, ha.work, ha.aes⟩
        rw [ha.counter, List.length_cons]
        push_cast
        ring
      rcases endio_alive c b _ _ (by omega) hal with ⟨hal', hp'⟩
      rcases ih _ hp' hal' with ⟨es, t, hrun, hpt, hat⟩
      exact ⟨_, t, Run.cons s _ t _ _ hsub trivial (Run.cons _ _ t _ _ hend trivial hrun), hpt, hat⟩

/-- Freeing the work first and letting the callback run after it is a use of
    freed memory. -/
theorem aesRead_stale (c : Command) (s : State)
    (hp : s.pending = [Task.readAesCb, Task.freeWork]) (ha : Alive 0 s) :
    ∃ es t, Run (step c) Free s es t ∧ t.stale = true := by
  have hfree : step c s (1, ⟨true, 0⟩)
      = some (kmemCacheFree { s with pending := [Task.readAesCb] }) := by
    simp only [step, hp, List.getElem?_cons_succ, List.getElem?_cons_zero, List.eraseIdx_cons_succ,
      List.eraseIdx_cons_zero, runTask]
  have hcb : step c (kmemCacheFree { s with pending := [Task.readAesCb] }) (0, ⟨true, 0⟩)
      = some (blockioReadAesCb (kmemCacheFree { s with pending := [] })) := by
    simp only [step, kmemCacheFree, List.getElem?_cons_zero, List.eraseIdx_cons_zero, runTask]
  refine ⟨_, _, Run.cons s _ _ _ _ hfree trivial (Run.cons _ _ _ _ _ hcb trivial (Run.nil _)), ?_⟩
  simp only [blockioReadAesCb, kmemCacheFree, scstCmdDone, derefWork, aesCleanup, derefAes, ha.work,
    zero_add, Nat.lt_one_iff, decide_true, Bool.or_true, Bool.true_or]

/-- **Lifetime of a block I/O command.** Over all orders in which its
    activities can run, the work and the AES work of a command are released
    exactly once and not used later, and the schedule comes to an end, if and
    only if the command is not a read from an encrypted device. -/
theorem blockio_freedOnce_iff (c : Command) :
    (∀ es s, Run (step c) Free (blockioExecRw c) es s →
      FreedOnce c s ∧ es.length ≤ 2 * c.bios + 3) ↔ ¬ (c.aes = true ∧ c.write = false) := by
  constructor
  · rintro hall ⟨haes, hw⟩
    have hstart := blockioExecRw_submits c (by rw [hw, Bool.and_false])
    rcases aesRead_reaches_finish c haes hw (List.range c.bios) (blockioExecRw c)
      (by rw [hstart]; rfl)
      (by rw [hstart]; exact ⟨by rw [List.length_range]; rfl, rfl, rfl⟩) with ⟨es, t, hrun, hp, ha⟩
    rcases aesRead_stale c t hp ha with ⟨fs, u, hrun', hst⟩
    have hfresh := (hall _ u (run_append hrun hrun')).1.fresh
    rw [hst] at hfresh
    exact absurd hfresh (by simp only [Bool.true_eq_false, not_false_eq_true])
  · intro hc es s h
    have hc' : c.aes = true → c.write = true := by
      intro haes
      cases hw : c.write with
      | true => rfl
      | false => exact absurd ⟨haes, hw⟩ hc
    exact ⟨freedOnce_of_balanced c s (run_balanced c hc' es s h), schedule_length_le c hc' es s h⟩

/-- A one-bio read from an encrypted device: the bio is submitted and ends, the
    final check passes the page to the engine and frees the work, and the
    callback then reads it. -/
theorem aesRead_one_bio_not_freedOnce :
    ∃ s, Run (step ⟨false, true, 1⟩) Free (blockioExecRw ⟨false, true, 1⟩)
      [(0, ⟨true, 0⟩), (0, ⟨true, 0⟩), (0, ⟨true, 0⟩), (1, ⟨true, 0⟩), (0, ⟨true, 0⟩)] s ∧
      s.stale = true ∧ s.workFreed = 2 ∧ ¬ FreedOnce ⟨false, true, 1⟩ s := by
  refine ⟨_, Run.cons _ _ _ _ _ rfl trivial (Run.cons _ _ _ _ _ rfl trivial
    (Run.cons _ _ _ _ _ rfl trivial (Run.cons _ _ _ _ _ rfl trivial
      (Run.cons _ _ _ _ _ rfl trivial (Run.nil _))))), by decide, by decide, ?_⟩
  intro h
  exact absurd h.fresh (by decide)

end Scst

end Ml605
