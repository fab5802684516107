import Mathlib.Tactic
import Ml605.Scst.Blockio

/-!
# Refused AES Submissions

`aes_submit` returns an error when there is no device, when a mapping fails or
when a ring is full, and `blockio_aes_submit` does not look at what it returns.
So a refused submission goes on exactly like one that was taken, only that the
callback never comes: the descriptor of the request, if it got one, keeps the
reference `aes_desc_to_hw` would have dropped, and `aes_free_desc` is not
called.

Everything behind the submission depends on the callback. A write has been
reported done by then, and its bios are in the chain of the `scst_aes_work`
that the work item would submit. A read has its bios behind it and is reported
by the callback only.

## Main definitions

* `afterSubmit`: What `aes_submit` leaves, by what it returns.
* `submitStep`, `submitExecRw`: The command with such a submission.
* `Handled`: What is asked of a refused command.
* `Stranded`: What becomes of it.

## Theorems

* `submitStep_zero`: With a submission that is taken nothing has changed.
* `refused_stranded`: Every refused command is stranded.
* `handled_iff`: So it is never handled.
-/

namespace Ml605

namespace Scst

open Lib

/-- A callback that the AES engine owes. -/
def Task.isCallback : Task → Bool
  | .writeAesCb => true
  | .readAesCb => true
  | _ => false

/-- A submission owes its callback only if `aes_submit` returned zero. -/
def afterSubmit (rc : Int) (s : State) : State :=
  if rc = 0 then s else { s with pending := s.pending.filter fun t => !t.isCallback }

/-- Running one activity, the AES engine returning `rc`. -/
def submitStep (rc : Int) (c : Command) (s : State) (e : Event) : Option State :=
  (step c s e).map (afterSubmit rc)

/-- The end of `blockio_exec_rw`, the AES engine returning `rc`. -/
def submitExecRw (rc : Int) (c : Command) : State := afterSubmit rc (blockioExecRw c)

/-- The command was completed once, with an error that was set before, its bios
    have ended and its objects were released once. The bounce pages and the
    tables go with the `scst_aes_work`. -/
structure Handled (c : Command) (s : State) : Prop where
  done : s.log.count LogEvent.cmdDone = 1
  reported : ∃ sense, LogEvent.senseSet sense ∈ s.log.takeWhile (· != LogEvent.cmdDone)
  bios : ∀ b, b < c.bios → ∃ error, LogEvent.bioEnded b error ∈ s.log
  work : s.workFreed = 1
  aes : s.aesFreed = 1

/-- The `scst_aes_work` is not released. A write was reported without an error,
    its bios are not submitted, and the other object and the reference on the
    command stay as well. A read is not reported. -/
structure Stranded (c : Command) (s : State) : Prop where
  aes : s.aesFreed = 0
  write : c.write = true →
    s.log = [LogEvent.cmdDone] ∧ s.pending = [] ∧ s.workFreed = 0 ∧ s.cmdRefs = 1
  read : c.write = false → LogEvent.cmdDone ∉ s.log

section Submission

variable {c : Command} {rc : Int}

/-- With a submission that is taken nothing has changed. -/
theorem submitStep_zero (c : Command) (s : State) (e : Event) :
    submitStep 0 c s e = step c s e := by
  have hid : afterSubmit 0 = id := funext fun u => if_pos rfl
  rw [submitStep, hid, Option.map_id, id]

theorem afterSubmit_refused (hrc : rc ≠ 0) (s : State) :
    afterSubmit rc s = { s with pending := s.pending.filter fun t => !t.isCallback } := if_neg hrc

/-- Nothing is left to run behind a refused write. -/
theorem write_stranded (haes : c.aes = true) (hwrite : c.write = true) (hrc : rc ≠ 0) :
    Stranded c (submitExecRw rc c) := by
  have hstart : submitExecRw rc c = afterSubmit rc (blockioExecRw c) := rfl
  rw [hstart, afterSubmit_refused hrc]
  simp only [blockioExecRw, haes, hwrite, Bool.and_self, if_true, blockioAesSubmit]
  exact ⟨rfl, fun _ => ⟨rfl, rfl, rfl, rfl⟩,
    fun h => absurd (h.symm.trans hwrite) Bool.false_ne_true⟩

section Read

variable (haes : c.aes = true) (hread : c.write = false)

include haes hread

/-- The last check of a read releases nothing of the AES work and reports
    nothing. -/
theorem checkFinish_read (s : State) :
    (blockioCheckFinish c s).aesFreed = s.aesFreed ∧ (blockioCheckFinish c s).log = s.log := by
  simp only [blockioCheckFinish, haes, hread, if_true, Bool.false_eq_true, if_false]
  split
  · simp only [blockioAesSubmit, hread, Bool.false_eq_true, if_false]
    exact ⟨rfl, rfl⟩
  · exact ⟨rfl, rfl⟩

theorem endio_read (bio : Nat) (st : BioStatus) (s : State) (hlog : LogEvent.cmdDone ∉ s.log) :
    (blockioEndio c bio st s).aesFreed = s.aesFreed ∧
      LogEvent.cmdDone ∉ (blockioEndio c bio st s).log := by
  unfold blockioEndio
  by_cases herr : endioError st = 0
  · simp only [herr, if_true]
    rcases checkFinish_read haes hread
      { derefWork s with log := s.log ++ [LogEvent.bioEnded bio 0] } with ⟨hfreed, hsame⟩
    rw [hsame]
    refine ⟨hfreed, ?_⟩
    simp only [List.mem_append, List.mem_singleton, reduceCtorEq, or_false]
    exact hlog
  · simp only [herr, if_false]
    rcases checkFinish_read haes hread
      { derefWork { derefWork s with log := s.log ++ [LogEvent.bioEnded bio (endioError st)] } with
        log := s.log ++ [LogEvent.bioEnded bio (endioError st)] ++
          [LogEvent.senseSet (endioSense c)] } with ⟨hfreed, hsame⟩
    refine ⟨hfreed, ?_⟩
    rw [hsame]
    simp only [List.mem_append, List.mem_singleton, reduceCtorEq, or_false]
    exact hlog

/-- Only the callback of a read reports it and releases its AES work. -/
theorem runTask_read (st : BioStatus) {t : Task} (ht : t ≠ Task.readAesCb) (s : State)
    (hlog : LogEvent.cmdDone ∉ s.log) :
    (runTask c st t s).aesFreed = s.aesFreed ∧ LogEvent.cmdDone ∉ (runTask c st t s).log := by
  cases t with
  | execSubmit hbio =>
      cases hbio with
      | nil =>
          rcases checkFinish_read haes hread s with ⟨hfreed, hsame⟩
          exact ⟨hfreed, hsame ▸ hlog⟩
      | cons b bs => exact ⟨rfl, hlog⟩
  | workSubmit hbio =>
      cases hbio with
      | nil =>
          rcases checkFinish_read haes hread (derefAes s) with ⟨hfreed, hsame⟩
          exact ⟨hfreed, hsame ▸ hlog⟩
      | cons b bs => exact ⟨rfl, hlog⟩
  | bioEndio bio => exact endio_read haes hread bio st s hlog
  | writeAesCb => exact ⟨rfl, hlog⟩
  | readAesCb => exact absurd rfl ht
  | aesWrite => exact ⟨rfl, hlog⟩
  | freeWork => exact ⟨rfl, hlog⟩

/-- A refused read between two activities: nothing of it can report it. -/
structure Unreported (s : State) : Prop where
  aes : s.aesFreed = 0
  log : LogEvent.cmdDone ∉ s.log
  owed : Task.readAesCb ∉ s.pending

omit haes hread in
theorem not_owed (hrc : rc ≠ 0) (s : State) : Task.readAesCb ∉ (afterSubmit rc s).pending := by
  rw [afterSubmit_refused hrc]
  intro hmem
  exact Bool.false_ne_true (List.mem_filter.mp hmem).2

theorem submitStep_unreported (hrc : rc ≠ 0) {s s' : State} {e : Event} (h : Unreported s)
    (hstep : submitStep rc c s e = some s') : Unreported s' := by
  rcases Option.map_eq_some_iff.mp hstep with ⟨u, hu, rfl⟩
  rcases step_eq c s u e hu with ⟨t, rest, hperm, rfl⟩
  have ht : t ≠ Task.readAesCb := by
    rintro rfl
    exact h.owed (hperm.subset List.mem_cons_self)
  rcases runTask_read haes hread e.2 ht { s with pending := rest } h.log with ⟨hfreed, hlog⟩
  have howed := not_owed hrc (runTask c e.2 t { s with pending := rest })
  rw [afterSubmit_refused hrc] at howed ⊢
  exact ⟨hfreed.trans h.aes, hlog, howed⟩

omit haes in
theorem submitExecRw_unreported (hrc : rc ≠ 0) : Unreported (submitExecRw rc c) := by
  have howed := not_owed hrc (blockioExecRw c)
  have hstart : submitExecRw rc c = afterSubmit rc (blockioExecRw c) := rfl
  rw [hstart]
  rw [blockioExecRw_submits c (by rw [hread, Bool.and_false])] at howed ⊢
  rw [afterSubmit_refused hrc] at howed ⊢
  exact ⟨rfl, List.not_mem_nil, howed⟩

end Read

/-- Every refused command is stranded, in every state it gets to. -/
theorem refused_stranded (haes : c.aes = true) (hrc : rc ≠ 0) {es : List Event} {s : State}
    (hrun : Run (submitStep rc c) Free (submitExecRw rc c) es s) : Stranded c s := by
  cases hwrite : c.write with
  | true =>
      have hstart := write_stranded haes hwrite hrc
      -- With nothing pending there is no step.
      have hnil : (submitExecRw rc c).pending = [] := (hstart.write hwrite).2.1
      cases hrun with
      | nil => exact hstart
      | cons e es s u t hstep _ _ =>
          rw [submitStep, step, hnil] at hstep
          cases hstep
  | false =>
      have hend := run_inv (fun _ _ _ hu _ hstep => submitStep_unreported haes hwrite hrc hu hstep)
        hrun (submitExecRw_unreported hwrite hrc)
      exact ⟨hend.aes, fun h => absurd (hwrite.symm.trans h) Bool.false_ne_true,
        fun _ => hend.log⟩

end Submission

/-- **A refused command is never handled.** For every command of an encrypted
    device, whatever `aes_submit` returns, and in every state of every schedule:
    a refusal is handled exactly if there was none. -/
theorem handled_iff (c : Command) (haes : c.aes = true) (rc : Int) (es : List Event) (s : State)
    (hrun : Run (submitStep rc c) Free (submitExecRw rc c) es s) :
    (rc ≠ 0 → Handled c s) ↔ rc = 0 := by
  constructor
  · intro hhandled
    by_contra hrc
    have hfreed := (hhandled hrc).aes
    rw [(refused_stranded haes hrc hrun).aes] at hfreed
    exact nomatch hfreed
  · intro hrc hne
    exact absurd hrc hne

/-- `-ENODEV`. -/
def enodev : Int := -19

/-- A write of two bios without a device. -/
theorem handled_iff_write : ¬ Handled ⟨true, true, 2⟩ (submitExecRw enodev ⟨true, true, 2⟩) := by
  intro h
  have hzero := (handled_iff ⟨true, true, 2⟩ rfl enodev [] _ (Run.nil _)).mp fun _ => h
  exact absurd hzero (by decide)

/-- A read of one bio that ends well: the loop hands it out, makes its check,
    and the bio ends. -/
def oneRead : List Event := [(0, ⟨true, 0⟩), (1, ⟨true, 0⟩), (0, ⟨true, 0⟩), (0, ⟨true, 0⟩)]

/-- Without a device a write is reported done and is never written, and a read
    is never reported; both end there. -/
theorem refused_not_handled :
    (∃ s, Run (submitStep enodev ⟨true, true, 1⟩) Free (submitExecRw enodev ⟨true, true, 1⟩) [] s ∧
      s.pending = [] ∧ s.log = [LogEvent.cmdDone] ∧ ¬ Handled ⟨true, true, 1⟩ s) ∧
    (∃ s, Run (submitStep enodev ⟨false, true, 1⟩) Free (submitExecRw enodev ⟨false, true, 1⟩)
        oneRead s ∧
      s.pending = [] ∧ s.log = [LogEvent.bioEnded 0 0] ∧ s.workFreed = 1 ∧
      ¬ Handled ⟨false, true, 1⟩ s) := by
  refine ⟨⟨_, Run.nil _, rfl, rfl, fun h => nomatch h.aes⟩,
    ⟨_, run_of_foldlM oneRead _ (fun _ _ _ => trivial) rfl, rfl, rfl, rfl, fun h => nomatch h.aes⟩⟩

end Scst

end Ml605
