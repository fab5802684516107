import Ml605.Driver.AesDma
import Ml605.Lib.Run
import Ml605.Lib.WrapClock

/-!
# The Watchdog of the AES Driver

One timer watches all requests that are with the hardware. A submission sets it
if it is idle or later than the new deadline, and a release moves it on to the
deadline of the request that is now at the head of `hw_head`. It should never
go off while every outstanding request is younger than `AES_TIMEOUT`.

The driver compares deadlines by the sign of a difference of 32 bits. The time
in this model is a natural number and `jiffies` its low word, so that a run may
go on for as many turns of the counter as it likes. With the times known, the
argument is short: the timer stands for a time that is not before the deadline
at the head. A release is the only place where a comparison decides about that,
and it is sound as long as the head has not been there for more than half a
turn of the counter, since no deadline on the queue is further from it.

The function of the timer takes no lock. The kernel takes the timer off its list
and calls `aes_timeout`, which dumps both rings and only then calls `del_timer`.
Submissions and releases go on meanwhile, and may set the timer.

Two things break it. The `del_timer` at the end of `aes_timeout` also deletes a
timer that was set since, and the requests it was set for are not watched. And a
request may be stuck for longer than half a turn. The timer is
then moved to a deadline half a turn in the past, where it is due at once, and
if that request is released before the timer goes off, the next comparison takes
the fresh deadline behind it for an earlier one and leaves the timer as it is.

## Main definitions

* `Watch`: The device, the time and what happened when.
* `WatchOp`, `WatchEvent`, `watchStep`: The locked section of a submission, the
  locked section of a release, the timer going off, and the end of its function.
* `RoundsUp`: What is assumed of `round_jiffies_up`.
* `OnTime`: What the watchdog is for.
* `HeadRecent`: No release finds a head that is older than half a turn.
* `Undisturbed`: The function of the timer does not delete a timer set since.
* `Guarded`: What holds between two steps.

## Theorems

* `submitAt_guarded`, `releaseAt_guarded`, `expireAt_guarded`, `timeoutAt_guarded`:
  Each step keeps it.
* `guarded_onTime`: It is enough.
* `run_onTime`: The watchdog is on time in every run that meets both conditions.
* `late_del_timer_unwatched`, `stuck_head_fires_early`: Runs where it is not,
  one for each condition.
-/

namespace Ml605

namespace Driver

open Lib

/-- The watchdog at work: the device, the time in ticks, whether `aes_timeout` is
    running, whether the timer has gone off since it was last set, and when each
    request was submitted. -/
structure Watch where
  dev : AesDev
  now : Nat
  running : Bool
  fired : Bool
  since : Nat → Nat

/-- What can happen to the timer. -/
inductive WatchOp
  | submit (sw : Nat)
  | release (sw : Nat)
  | expire
  | timeout
deriving DecidableEq, Repr

/-- A step and how many ticks after the one before it comes. -/
structure WatchEvent where
  elapsed : Nat
  op : WatchOp
deriving DecidableEq, Repr

/-- `jiffies` at a given time. -/
def jiffiesAt (now : Nat) : BitVec 32 := BitVec.ofNat 32 now

/-- `del_timer`, which is also what the kernel does to a timer before it calls its
    function. -/
def delTimer (d : AesDev) : AesDev := { d with timer := { d.timer with pending := false } }

/-- A submission up to the end of its locked section. -/
def submitAt (env : Env) (s : Watch) (sw now : Nat) : Watch where
  dev := hwSection env (jiffiesAt now) s.dev sw
  now := now
  running := s.running
  fired := s.fired && !(hwSection env (jiffiesAt now) s.dev sw).timer.pending
  since := Function.update s.since sw now

/-- The locked section of a release. -/
def releaseAt (s : Watch) (sw now : Nat) : Watch where
  dev := aesFreeDescLocked s.dev sw
  now := now
  running := s.running
  fired := s.fired && !(aesFreeDescLocked s.dev sw).timer.pending
  since := s.since

/-- The timer goes off, and `aes_timeout` begins. -/
def expireAt (s : Watch) (now : Nat) : Watch :=
  { s with dev := delTimer s.dev, now := now, running := true, fired := true }

/-- The end of `aes_timeout`. Its dumps before that change nothing. -/
def timeoutAt (s : Watch) (now : Nat) : Watch :=
  { s with dev := delTimer s.dev, now := now, running := false }

/-- One step. A request is submitted once and released once. The kernel runs a
    pending timer when `jiffies` has reached its expiry, and does not run its
    function twice at the same time. -/
def watchStep (env : Env) (s : Watch) (e : WatchEvent) : Option Watch :=
  match e.op with
  | .submit sw =>
    if sw ∈ s.dev.hwHead then none else some (submitAt env s sw (s.now + e.elapsed))
  | .release sw =>
    if sw ∈ s.dev.hwHead then some (releaseAt s sw (s.now + e.elapsed)) else none
  | .expire =>
    if s.running = false ∧ s.dev.timer.pending = true ∧
        timeBefore (jiffiesAt (s.now + e.elapsed)) s.dev.timer.expires = false then
      some (expireAt s (s.now + e.elapsed))
    else none
  | .timeout => if s.running = true then some (timeoutAt s (s.now + e.elapsed)) else none

/-- `jiffies` does not decrease from one step to the next, compared modulo its
    turn. -/
def InOrder (_ : Watch) (e : WatchEvent) : Prop := e.elapsed < 2 ^ 31

/-- `round_jiffies_up` gives a time that is not before the one it is asked
    about, and not so much later that a deadline would no longer be ahead. -/
def RoundsUp (env : Env) : Prop :=
  ∀ x, (env.roundJiffiesUp x - x).toNat + (aesTimeout env).toNat < 2 ^ 31

/-- When the time of a request is up. -/
def Watch.deadline (env : Env) (s : Watch) (sw : Nat) : Nat := s.since sw + (aesTimeout env).toNat

/-- What the watchdog is for. While something is outstanding the timer is set or
    has gone off; while it is set, the time it stands for is not before the
    deadline at the head; and it does not go off unless the time of some
    outstanding request is up. -/
structure OnTime (env : Env) (s : Watch) : Prop where
  watched : s.dev.hwHead ≠ [] → s.dev.timer.pending = true ∨ s.fired = true
  stored : ∀ sw, sw ∈ s.dev.hwHead → (s.dev.desc sw).deadline = jiffiesAt (s.deadline env sw)
  notBefore : s.dev.timer.pending = true → ∀ sw, s.dev.hwHead.head? = some sw →
    (s.deadline env sw : Int) ≤ seenAt (w := 31) s.now s.dev.timer.expires
  notEarly : ∀ (e : WatchEvent) (s' : Watch), e.op = .expire → watchStep env s e = some s' →
    ∃ sw, sw ∈ s.dev.hwHead ∧ s.deadline env sw ≤ s'.now

/-- A release does not find a request at the head that has been there for more
    than half a turn of `jiffies`. -/
def HeadRecent (s : Watch) (e : WatchEvent) : Prop :=
  ∀ sw h, e.op = .release sw → s.dev.hwHead.head? = some h → s.now + e.elapsed ≤ s.since h + 2 ^ 31

/-- The `del_timer` at the end of `aes_timeout` finds the timer as it was when it
    went off: nobody has set it since, or its requests are all released. -/
def Undisturbed (s : Watch) (e : WatchEvent) : Prop :=
  e.op = .timeout → s.dev.timer.pending = false

/-- Before anything is submitted. -/
def Watch.start (num now : Nat) : Watch := ⟨aesDescInit num, now, false, false, fun _ => 0⟩

/-- Between two steps: the deadlines are where they should be, and a timer that
    is set stands for some time that is not before the deadline at the head and
    less than half a turn ahead. -/
structure Guarded (env : Env) (s : Watch) : Prop where
  past : ∀ sw, sw ∈ s.dev.hwHead → s.since sw ≤ s.now
  stored : ∀ sw, sw ∈ s.dev.hwHead → (s.dev.desc sw).deadline = jiffiesAt (s.deadline env sw)
  idle : s.dev.hwHead = [] → s.dev.timer.pending = false
  watched : s.dev.hwHead ≠ [] → s.dev.timer.pending = true ∨ s.fired = true
  ahead : s.dev.timer.pending = true → ∀ h, h ∈ s.dev.hwHead.head? →
    ∃ e, s.dev.timer.expires = jiffiesAt e ∧ s.deadline env h ≤ e ∧ e < s.now + 2 ^ 31

theorem start_guarded (env : Env) (num now : Nat) : Guarded env (Watch.start num now) :=
  ⟨nofun, nofun, fun _ => rfl, fun h => absurd rfl h, nofun⟩

section Clock

/-- The deadline that a submission computes is that of the request. -/
theorem jiffiesAt_add_timeout (env : Env) (now : Nat) :
    jiffiesAt now + aesTimeout env = jiffiesAt (now + (aesTimeout env).toNat) := by
  unfold jiffiesAt
  rw [BitVec.ofNat_add, BitVec.ofNat_toNat, BitVec.setWidth_eq]

/-- And the expiry it computes is a time not before that. -/
theorem roundJiffiesUp_jiffiesAt {env : Env} (hround : RoundsUp env) (t : Nat) :
    ∃ e, env.roundJiffiesUp (jiffiesAt t) = jiffiesAt e ∧ t ≤ e ∧
      e + (aesTimeout env).toNat < t + 2 ^ 31 := by
  refine ⟨t + (env.roundJiffiesUp (jiffiesAt t) - jiffiesAt t).toNat, ?_, Nat.le_add_right _ _, ?_⟩
  · have hsum : jiffiesAt (t + (env.roundJiffiesUp (jiffiesAt t) - jiffiesAt t).toNat) =
        jiffiesAt t + (env.roundJiffiesUp (jiffiesAt t) - jiffiesAt t) := by
      unfold jiffiesAt
      rw [BitVec.ofNat_add, BitVec.ofNat_toNat, BitVec.setWidth_eq]
    rw [hsum, add_sub_cancel]
  · have := hround (jiffiesAt t)
    omega

/-- A comparison of two times within half a turn that does not find the second
    one later. -/
theorem le_of_not_timeBefore {a b : Nat} (hnear : b ≤ a + 2 ^ 31)
    (h : timeBefore (jiffiesAt a) (jiffiesAt b) = false) : b ≤ a :=
  le_of_not_isBefore (w := 31) hnear h

end Clock

section Steps

variable {env : Env} {s : Watch} (hround : RoundsUp env) (hg : Guarded env s)

/-- A submission leaves the timer set: where it is not set anew, it was. -/
theorem hwSection_pending (env : Env) (j : BitVec 32) (d : AesDev) (sw : Nat) :
    (hwSection env j d sw).timer.pending = true := by
  change (if !d.timer.pending || timeBefore (j + aesTimeout env) d.timer.expires then
    (⟨true, env.roundJiffiesUp (j + aesTimeout env)⟩ : Timer) else d.timer).pending = true
  cases hp : d.timer.pending with
  | false => rfl
  | true => split <;> [rfl; exact hp]

theorem hwSection_deadline_self (env : Env) (j : BitVec 32) (d : AesDev) (sw : Nat) :
    ((hwSection env j d sw).desc sw).deadline = j + aesTimeout env := by
  unfold hwSection
  rw [AesDev.modifyDesc_desc_self]

theorem hwSection_desc_of_ne (env : Env) (j : BitVec 32) (d : AesDev) {sw sw' : Nat}
    (h : sw' ≠ sw) : (hwSection env j d sw).desc sw' = d.desc sw' := by
  unfold hwSection
  rw [AesDev.modifyDesc_desc_of_ne _ _ h]

/-- A release that leaves nothing outstanding stops the timer. -/
theorem freeLocked_stops {d : AesDev} {sw : Nat} (h : d.hwHead.erase sw = []) :
    (aesFreeDescLocked d sw).timer.pending = false := by
  simp only [aesFreeDescLocked, h]

/-- Any other one moves it on to the deadline that is next, if it is before that. -/
theorem freeLocked_moves {d : AesDev} {sw next : Nat} {rest : List Nat}
    (h : d.hwHead.erase sw = next :: rest) : (aesFreeDescLocked d sw).timer =
      if timeBefore d.timer.expires (d.desc next).deadline then ⟨true, (d.desc next).deadline⟩
      else d.timer := by
  simp only [aesFreeDescLocked, h]

/-- Whether a submission sets the timer. -/
def sets (env : Env) (s : Watch) (now : Nat) : Bool :=
  !s.dev.timer.pending || timeBefore (jiffiesAt now + aesTimeout env) s.dev.timer.expires

include hround in
/-- A timer that is set anew is behind the new deadline, and no other is later. -/
theorem sets_ahead {sw now h : Nat} (hset : sets env s now = true)
    (hlate : (submitAt env s sw now).since h ≤ now) :
    ∃ e, (submitAt env s sw now).dev.timer.expires = jiffiesAt e ∧
      (submitAt env s sw now).deadline env h ≤ e ∧ e < now + 2 ^ 31 := by
  rcases roundJiffiesUp_jiffiesAt hround (now + (aesTimeout env).toNat) with ⟨e, he, hle, hlt⟩
  rw [← jiffiesAt_add_timeout] at he
  refine ⟨e, (congrArg Timer.expires (if_pos hset)).trans he, ?_, by omega⟩
  unfold Watch.deadline
  omega

include hg in
/-- A timer that stays was set, and the head it was set for stays too. -/
theorem stays_ahead {sw now h : Nat} (hnow : s.now ≤ now) (hnew : sw ∉ s.dev.hwHead)
    (hset : ¬ sets env s now = true) (hh : h ∈ (s.dev.hwHead ++ [sw]).head?) :
    ∃ e, (submitAt env s sw now).dev.timer.expires = jiffiesAt e ∧
      (submitAt env s sw now).deadline env h ≤ e ∧ e < now + 2 ^ 31 := by
  have hkeep : (submitAt env s sw now).dev.timer = s.dev.timer := if_neg hset
  have hpend : s.dev.timer.pending = true := by
    cases hp : s.dev.timer.pending with
    | true => rfl
    | false => exact absurd (by rw [sets, hp]; rfl) hset
  have hhead : h ∈ s.dev.hwHead.head? := by
    cases hq : s.dev.hwHead with
    | nil => exact absurd hpend (by rw [hg.idle hq]; exact Bool.false_ne_true)
    | cons x xs =>
        rw [hq] at hh
        exact hh
  have hne : h ≠ sw := fun heq => hnew (heq ▸ List.mem_of_mem_head? hhead)
  rcases hg.ahead hpend h hhead with ⟨e, he, hle, hlt⟩
  refine ⟨e, by rw [hkeep, he], ?_, by omega⟩
  unfold Watch.deadline
  rw [show (submitAt env s sw now).since h = s.since h from Function.update_of_ne hne ..]
  exact hle

include hround hg

/-- The locked section of a submission. -/
theorem submitAt_guarded {sw now : Nat} (hnow : s.now ≤ now) (hnew : sw ∉ s.dev.hwHead) :
    Guarded env (submitAt env s sw now) := by
  have hself : (submitAt env s sw now).since sw = now := Function.update_self ..
  have hne : ∀ {sw'}, sw' ∈ s.dev.hwHead → sw' ≠ sw := fun h heq => hnew (heq ▸ h)
  have hkept : ∀ {sw'}, sw' ∈ s.dev.hwHead → (submitAt env s sw now).since sw' = s.since sw' :=
    fun h => Function.update_of_ne (hne h) ..
  have hmem : ∀ {sw'}, sw' ∈ s.dev.hwHead ++ [sw] → sw' ∈ s.dev.hwHead ∨ sw' = sw :=
    fun h => (List.mem_append.mp h).imp_right List.mem_singleton.mp
  have hlate : ∀ {sw'}, sw' ∈ s.dev.hwHead ++ [sw] → (submitAt env s sw now).since sw' ≤ now := by
    intro sw' hsw'
    rcases hmem hsw' with hold | rfl
    · rw [hkept hold]
      exact Nat.le_trans (hg.past sw' hold) hnow
    · exact Nat.le_of_eq hself
  refine ⟨fun sw' => hlate, ?_, ?_, ?_, ?_⟩
  · intro sw' hsw'
    unfold Watch.deadline
    rcases hmem hsw' with hold | rfl
    · rw [hkept hold]
      exact (congrArg AesDesc.deadline (hwSection_desc_of_ne env _ s.dev (hne hold))).trans
        (hg.stored sw' hold)
    · rw [hself, ← jiffiesAt_add_timeout]
      exact hwSection_deadline_self ..
  · intro hnil
    exact absurd hnil (List.append_ne_nil_of_right_ne_nil _ (List.cons_ne_nil sw []))
  · exact fun _ => Or.inl (hwSection_pending ..)
  -- A timer that is set is set for the new deadline; one that stays was set for the old head.
  · intro _ h hh
    by_cases hset : sets env s now = true
    · exact sets_ahead hround hset (hlate (List.mem_of_mem_head? hh))
    · exact stays_ahead hg hnow hnew hset hh

/-- A release that leaves the timer where it is: the comparison is between times
    that are no further apart than half a turn, since the old head is no older
    than that and no request is younger than now. -/
theorem stays_notBefore {next now : Nat} (hnow : s.now ≤ now)
    (hrecent : ∀ h, h ∈ s.dev.hwHead.head? → now ≤ s.since h + 2 ^ 31)
    (hp : s.dev.timer.pending = true) (hnext : next ∈ s.dev.hwHead)
    (hstays : ¬ timeBefore s.dev.timer.expires (s.dev.desc next).deadline = true) :
    ∃ e, s.dev.timer.expires = jiffiesAt e ∧ s.deadline env next ≤ e ∧ e < now + 2 ^ 31 := by
  cases hold : s.dev.hwHead with
  | nil => exact absurd hold (List.ne_nil_of_mem hnext)
  | cons head tail =>
      have hhead : head ∈ s.dev.hwHead.head? := by rw [hold]; rfl
      rcases hg.ahead hp head hhead with ⟨e, he, hle, hlt⟩
      have hage := hrecent head hhead
      have hlate := hg.past next hnext
      have hsmall := hround 0
      rw [he, hg.stored next hnext] at hstays
      unfold Watch.deadline at hle hstays ⊢
      have hnear : s.since next + (aesTimeout env).toNat ≤ e + 2 ^ 31 := by omega
      exact ⟨e, he, le_of_not_timeBefore hnear (Bool.eq_false_iff.mpr hstays), by omega⟩

/-- The locked section of a release. -/
theorem releaseAt_guarded {sw now : Nat} (hnow : s.now ≤ now)
    (hrecent : ∀ h, h ∈ s.dev.hwHead.head? → now ≤ s.since h + 2 ^ 31) :
    Guarded env (releaseAt s sw now) := by
  have hsub : ∀ {sw'}, sw' ∈ s.dev.hwHead.erase sw → sw' ∈ s.dev.hwHead :=
    fun h => List.mem_of_mem_erase h
  have hrest : ∀ sw', sw' ∈ (releaseAt s sw now).dev.hwHead → s.since sw' ≤ now :=
    fun sw' h => Nat.le_trans (hg.past sw' (hsub h)) hnow
  have hstored : ∀ sw', sw' ∈ (releaseAt s sw now).dev.hwHead →
      (s.dev.desc sw').deadline = jiffiesAt (s.deadline env sw') :=
    fun sw' h => hg.stored sw' (hsub h)
  cases hq : s.dev.hwHead.erase sw with
  | nil =>
      -- The last request is gone, and the timer with it.
      have hempty : (releaseAt s sw now).dev.hwHead = [] := hq
      have htimer : (releaseAt s sw now).dev.timer.pending = false := freeLocked_stops hq
      refine ⟨hrest, hstored, fun _ => htimer, fun h => absurd hempty h, ?_⟩
      intro hp
      exact absurd hp (by rw [htimer]; exact Bool.false_ne_true)
  | cons next rest =>
      have hqueue : (releaseAt s sw now).dev.hwHead = next :: rest := hq
      have hbusy : (releaseAt s sw now).dev.hwHead ≠ [] :=
        fun h => List.cons_ne_nil _ _ (hqueue.symm.trans h)
      have hhd : ∀ h, h ∈ (releaseAt s sw now).dev.hwHead.head? → next = h := by
        intro h hh
        rw [hqueue] at hh
        exact Option.some.inj hh
      have hnext : next ∈ s.dev.hwHead := hsub (by rw [hq]; exact List.mem_cons_self)
      have hmove : (releaseAt s sw now).dev.timer =
        if timeBefore s.dev.timer.expires (s.dev.desc next).deadline then
          ⟨true, (s.dev.desc next).deadline⟩ else s.dev.timer := freeLocked_moves hq
      by_cases hearly : timeBefore s.dev.timer.expires (s.dev.desc next).deadline = true
      · -- The timer is moved to the deadline that is now at the head.
        rw [if_pos hearly] at hmove
        refine ⟨hrest, hstored, fun h => absurd h hbusy, fun _ => Or.inl (by rw [hmove]), ?_⟩
        intro _ h hh
        rw [← hhd h hh]
        refine ⟨s.deadline env next, by rw [hmove, hg.stored next hnext], Nat.le_refl _, ?_⟩
        have hlate := hg.past next hnext
        have hsmall := hround 0
        change s.since next + _ < now + 2 ^ 31
        omega
      · rw [if_neg hearly] at hmove
        refine ⟨hrest, hstored, fun h => absurd h hbusy, fun _ => ?_, ?_⟩
        · change (releaseAt s sw now).dev.timer.pending = true ∨
            (s.fired && !(releaseAt s sw now).dev.timer.pending) = true
          rw [hmove]
          cases hp : s.dev.timer.pending with
          | true => exact Or.inl rfl
          | false =>
              rcases hg.watched (List.ne_nil_of_mem hnext) with hw | hw
              · exact absurd (hw.symm.trans hp) (Bool.false_ne_true ·.symm)
              · exact Or.inr (by rw [hw]; rfl)
        · intro hp h hh
          rw [← hhd h hh]
          rw [hmove] at hp ⊢
          exact stays_notBefore hround hg hnow hrecent hp hnext hearly

omit hround in
/-- The timer goes off. -/
theorem expireAt_guarded {now : Nat} (hnow : s.now ≤ now) : Guarded env (expireAt s now) :=
  ⟨fun sw h => Nat.le_trans (hg.past sw h) hnow, hg.stored, fun _ => rfl,
    fun _ => Or.inr rfl, fun h => absurd h Bool.false_ne_true⟩

omit hround in
/-- The end of its function, which finds the timer still off. -/
theorem timeoutAt_guarded {now : Nat} (hnow : s.now ≤ now) (hoff : s.dev.timer.pending = false) :
    Guarded env (timeoutAt s now) := by
  refine ⟨fun sw h => Nat.le_trans (hg.past sw h) hnow, hg.stored, fun _ => rfl, fun hbusy => ?_,
    fun h => absurd h Bool.false_ne_true⟩
  -- With the timer off, what is outstanding is known to have had it go off.
  rcases hg.watched hbusy with hset | hfired
  · exact absurd (hset.symm.trans hoff) (Bool.false_ne_true ·.symm)
  · exact Or.inr hfired

/-- Every step that meets the two conditions keeps the watchdog in order. -/
theorem watchStep_guarded {e : WatchEvent} {s' : Watch} (hrecent : HeadRecent s e)
    (hquiet : Undisturbed s e) (hstep : watchStep env s e = some s') : Guarded env s' := by
  have hnow : s.now ≤ s.now + e.elapsed := Nat.le_add_right _ _
  cases hop : e.op with
  | submit sw =>
      simp only [watchStep, hop] at hstep
      split at hstep
      · exact nomatch hstep
      · rename_i hnew
        rw [← Option.some.inj hstep]
        exact submitAt_guarded hround hg hnow hnew
  | release sw =>
      simp only [watchStep, hop] at hstep
      split at hstep
      · rw [← Option.some.inj hstep]
        exact releaseAt_guarded hround hg hnow fun h hh => hrecent sw h hop hh
      · exact nomatch hstep
  | expire =>
      simp only [watchStep, hop] at hstep
      split at hstep
      · rw [← Option.some.inj hstep]
        exact expireAt_guarded hg hnow
      · exact nomatch hstep
  | timeout =>
      simp only [watchStep, hop] at hstep
      split at hstep
      · rw [← Option.some.inj hstep]
        exact timeoutAt_guarded hg hnow (hquiet hop)
      · exact nomatch hstep

omit hround in
/-- A watchdog in order is on time. -/
theorem guarded_onTime : OnTime env s := by
  refine ⟨hg.watched, hg.stored, ?_, ?_⟩
  · intro hp h hh
    rcases hg.ahead hp h hh with ⟨e, he, hle, hlt⟩
    have hseen := le_seenAt (w := 31) hlt
    have hexp : s.dev.timer.expires = BitVec.ofNat (31 + 1) e := he
    rw [hexp]
    omega
  · intro e s' hop hstep
    simp only [watchStep, hop] at hstep
    split at hstep
    · rename_i hdue
      replace hdue := hdue.2
      have hnonempty : s.dev.hwHead ≠ [] := by
        intro hnil
        exact absurd hdue.1 (by rw [hg.idle hnil]; exact Bool.false_ne_true)
      cases hq : s.dev.hwHead with
      | nil => exact absurd hq hnonempty
      | cons h rest =>
          rcases hg.ahead hdue.1 h (by rw [hq]; rfl) with ⟨t, ht, hle, hlt⟩
          rw [ht] at hdue
          rw [← Option.some.inj hstep]
          have hnear : t ≤ s.now + e.elapsed + 2 ^ 31 := by omega
          exact ⟨h, List.mem_cons_self, Nat.le_trans hle (le_of_not_timeBefore hnear hdue.2)⟩
    · exact nomatch hstep

end Steps

/-- **The watchdog is on time.** In every run of submissions, releases in any
    order, expiries of the timer and ends of its function, over any number of
    turns of `jiffies`, in which no release finds a head that is older than half
    a turn and no `aes_timeout` deletes a timer that was set while it ran. -/
theorem run_onTime (env : Env) (hround : RoundsUp env) (num now : Nat) (es : List WatchEvent)
    (s : Watch) (h : Run (watchStep env) (fun s e => HeadRecent s e ∧ Undisturbed s e)
      (Watch.start num now) es s) : OnTime env s :=
  guarded_onTime (run_inv (fun _ _ _ hg hc hstep => watchStep_guarded hround hg hc.1 hc.2 hstep) h
    (start_guarded env num now))

/-- A kernel with 100 ticks a second that rounds to the tick. -/
def tickEnv : Env := ⟨100, fun x => x⟩

theorem tickEnv_roundsUp : RoundsUp tickEnv := by
  intro x
  change (x - x).toNat + 1000 < 2 ^ 31
  rw [BitVec.sub_self]
  decide

/-- Two requests, the first of which is released. The timer was moved on to the
    deadline of the second and goes off at it, and a third request comes when its
    function is through. -/
theorem run_onTime_three :
    ∃ s, Run (watchStep tickEnv) (fun s e => HeadRecent s e ∧ Undisturbed s e) (Watch.start 3 0)
      [⟨5, .submit 0⟩, ⟨7, .submit 1⟩, ⟨8, .release 0⟩, ⟨992, .expire⟩, ⟨1, .timeout⟩,
        ⟨4, .submit 2⟩] s ∧ s.dev.hwHead = [1, 2] ∧ s.dev.timer.expires = 2017 ∧
      OnTime tickEnv s := by
  have hrun : ∃ s, Run (watchStep tickEnv) (fun s e => HeadRecent s e ∧ Undisturbed s e)
      (Watch.start 3 0) [⟨5, .submit 0⟩, ⟨7, .submit 1⟩, ⟨8, .release 0⟩, ⟨992, .expire⟩,
        ⟨1, .timeout⟩, ⟨4, .submit 2⟩] s ∧ s.dev.hwHead = [1, 2] ∧
      s.dev.timer.expires = 2017 := by
    refine ⟨_, Run.cons _ _ _ _ _ rfl ⟨nofun, nofun⟩ (Run.cons _ _ _ _ _ rfl ⟨nofun, nofun⟩
      (Run.cons _ _ _ _ _ rfl ⟨?_, nofun⟩ (Run.cons _ _ _ _ _ rfl ⟨nofun, nofun⟩
      (Run.cons _ _ _ _ _ rfl ⟨nofun, fun _ => rfl⟩ (Run.cons _ _ _ _ _ rfl ⟨nofun, nofun⟩
      (Run.nil _)))))), rfl, rfl⟩
    intro sw h _ hh
    rw [← Option.some.inj hh]
    decide
  rcases hrun with ⟨s, hrun, hqueue, hexpires⟩
  exact ⟨s, hrun, hqueue, hexpires, run_onTime tickEnv tickEnv_roundsUp 3 0 _ s hrun⟩

/-- Request 1 comes between the expiry of the timer for request 0 and the end of
    `aes_timeout`, and sets the timer. -/
def lateDelTimer : List WatchEvent :=
  [⟨0, .submit 0⟩, ⟨1000, .expire⟩, ⟨1, .submit 1⟩, ⟨1, .timeout⟩]

/-- Its timer is deleted: nothing watches it, and the timer has not gone off since
    it was set. No release is involved, and no turn of `jiffies`. -/
theorem late_del_timer_unwatched :
    ∃ s, Run (watchStep tickEnv) HeadRecent (Watch.start 2 0) lateDelTimer s ∧
      s.dev.hwHead = [0, 1] ∧ s.dev.timer.pending = false ∧ s.fired = false ∧
      ¬ OnTime tickEnv s := by
  have hrecent : ∀ e, e ∈ lateDelTimer → ∀ u, HeadRecent u e := by
    intro e he u sw h hop
    have hno : ∀ e, e ∈ lateDelTimer → e.op ≠ .release sw := by
      simp only [lateDelTimer, List.forall_mem_cons, List.not_mem_nil, ne_eq, reduceCtorEq,
        not_false_eq_true, IsEmpty.forall_iff, implies_true, and_self]
    exact absurd hop (hno e he)
  refine ⟨_, run_of_foldlM lateDelTimer _ hrecent rfl, rfl, rfl, rfl, ?_⟩
  intro h
  rcases h.watched (List.cons_ne_nil _ _) with hset | hfired
  · exact Bool.false_ne_true hset
  · exact Bool.false_ne_true hfired

/-- Requests 0 and 1 are stuck. Request 2 comes a quarter of a turn later and is
    served, and request 3 just behind the half turn. When 0 and 1 are released
    then, the first release moves the timer to the deadline of 1, which is half
    a turn ago, and the second one takes the deadline of 3 for an earlier one. -/
def stuckHead : List WatchEvent :=
  [⟨0, .submit 0⟩, ⟨0, .submit 1⟩, ⟨1000, .expire⟩, ⟨0, .timeout⟩,
    ⟨2 ^ 30 - 1000, .submit 2⟩, ⟨0, .release 2⟩, ⟨1000, .expire⟩, ⟨0, .timeout⟩,
    ⟨2 ^ 30 - 999, .submit 3⟩, ⟨0, .release 0⟩, ⟨0, .release 1⟩]

/-- The timer goes off on a request that was submitted in the same tick. -/
theorem stuck_head_fires_early :
    RoundsUp tickEnv ∧ ∃ s s', Run (watchStep tickEnv) InOrder (Watch.start 4 0) stuckHead s ∧
      s.dev.hwHead = [3] ∧ s.since 3 = s.now ∧
      watchStep tickEnv s ⟨0, .expire⟩ = some s' ∧ ¬ OnTime tickEnv s := by
  have hord : ∀ e, e ∈ stuckHead → ∀ u, InOrder u e :=
    fun e he _ => (by decide : ∀ e, e ∈ stuckHead → e.elapsed < 2 ^ 31) e he
  refine ⟨tickEnv_roundsUp, _, _, run_of_foldlM stuckHead _ hord rfl, rfl, rfl, rfl, ?_⟩
  intro h
  rcases h.notEarly ⟨0, .expire⟩ _ rfl rfl with ⟨sw, hsw, hup⟩
  rw [List.mem_singleton.mp hsw] at hup
  exact absurd hup (by decide)

end Driver

end Ml605
