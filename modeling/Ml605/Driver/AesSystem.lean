import Ml605.Lib.Run
import Ml605.Driver.AesPost

/-!
# Concurrent Submissions

The driver with any number of callers. A caller inside `aes_submit` goes
through the parts of the call one after another, and between two of them any
other caller, a bottom half or the hardware may run. A part under one lock is
one step, and so is what runs between two locked parts.

The bottom halves take one step for each round of their loop, which holds the
lock longer in the source, and the part of `aes_free_desc` behind the lock is a
step of its own. The schedules of the source are among the schedules here.

Each submission has a number, and the two logs record in which order
submissions were posted on the two rings. The hardware works through a ring in
order, so the logs are the order of the packets as well.

## Main definitions

* `Phase`: How far a caller is in its submission.
* `System`: The device, the callers and the two logs.
* `Event`, `step`: The steps of callers, bottom halves and hardware.
* `Stepped`: What a step can do, case by case.
* `Numbered`: Submissions are told apart by their numbers.
* `RingsWf`: The groups of both rings are in order.

## Theorems

* `step_stepped`: Every step is one of the cases.
* `step_numbered`, `step_ringsWf`: Every step keeps both.
* `run_ringsWf`: The groups are in order in every reachable state.
-/

namespace Ml605

namespace Driver

open Lib

/-- How far a caller is in its submission, with the software descriptor it
    holds and the number of the submission. -/
inductive Phase
  | idle
  | prepared (sw n : Nat)
  | queued (sw n : Nat)
  | rxPosted (sw n : Nat)
  | txPosted (sw n : Nat)

/-- The driver at work. `releasing` holds the descriptors whose release has
    left the lock and is not through yet. -/
structure System where
  dev : AesDev
  phase : Nat → Phase
  serial : Nat
  rxLog : List Nat
  txLog : List Nat
  releasing : List Nat

/-- A step of a caller, of the hardware or of a bottom half. -/
inductive Event
  | submit (caller : Nat) (rq : Request)
  | queue (caller : Nat) (jiffies : BitVec 32)
  | rx (caller : Nat)
  | tx (caller : Nat)
  | put (caller : Nat)
  | complete (rx : Bool) (i : Nat) (eof : Bool)
  | reclaim (rx : Bool)
  | release (sw : Nat)

/-- The state after `aes_probe`. -/
def System.init (num : Nat) : System where
  dev := aesDescInit num
  phase := fun _ => .idle
  serial := 0
  rxLog := []
  txLog := []
  releasing := []

def System.setPhase (s : System) (caller : Nat) (p : Phase) : System :=
  { s with phase := Function.update s.phase caller p }

/-- The hardware finishes the descriptor `i` behind the hardware head. -/
def completeBd (r : BdRing) (i : Nat) (eof : Bool) : BdRing :=
  r.modify (r.nth r.hwHead i) fun b => { b with complete := true, rxEof := eof }

/-- The descriptor is with the hardware and those before it are finished. -/
def NextToComplete (r : BdRing) (i : Nat) : Prop :=
  i < r.hwCnt ∧ ∀ j, j < i → (r.bd (r.nth r.hwHead j)).complete = true

instance (r : BdRing) (i : Nat) : Decidable (NextToComplete r i) :=
  inferInstanceAs (Decidable (_ ∧ _))

/-- One step of the system, `none` when the event cannot happen now. -/
def step (env : Env) (s : System) : Event → Option System
  | .submit caller rq =>
    match s.phase caller with
    | .idle =>
      -- A failed mapping returns from the call with nothing changed.
      if rq.srcMapped = false ∨ rq.dstMapped = false then some s
      else
        let prep := prepareDesc s.dev rq
        some ({ s with dev := prep.1, serial := s.serial + 1 }.setPhase caller
          (.prepared prep.2 s.serial))
    | _ => none
  | .queue caller jiffies =>
    match s.phase caller with
    | .prepared sw n =>
      some ({ s with dev := hwSection env jiffies s.dev sw }.setPhase caller (.queued sw n))
    | _ => none
  | .rx caller =>
    match s.phase caller with
    | .queued sw n =>
      let post := rxSection s.dev sw
      -- A section that fails ends the call, and nothing is taken back.
      if post.2 = xstSuccess then
        some ({ s with dev := post.1, rxLog := s.rxLog ++ [n] }.setPhase caller (.rxPosted sw n))
      else some ({ s with dev := post.1 }.setPhase caller .idle)
    | _ => none
  | .tx caller =>
    match s.phase caller with
    | .rxPosted sw n =>
      let post := txSection s.dev sw
      if post.2 = xstSuccess then
        some ({ s with dev := post.1, txLog := s.txLog ++ [n] }.setPhase caller (.txPosted sw n))
      else some ({ s with dev := post.1 }.setPhase caller .idle)
    | _ => none
  | .put caller =>
    match s.phase caller with
    | .txPosted sw _ =>
      -- The release, if this is the last reference, is finished by another event.
      let put := putAndFree s.dev sw
      some ({ s with dev := put.1, releasing := s.releasing ++ put.2 }.setPhase caller .idle)
    | _ => none
  | .complete rx i eof =>
    if NextToComplete (s.dev.ring rx) i then
      some { s with dev := s.dev.setRing rx (completeBd (s.dev.ring rx) i eof) }
    else none
  | .reclaim rx =>
    let done := reclaim rx s.dev
    some { s with dev := done.1, releasing := s.releasing ++ done.2 }
  | .release sw =>
    if sw ∈ s.releasing then
      some { s with dev := aesFreeDescRest s.dev sw, releasing := s.releasing.erase sw }
    else none

/-- What a step can do. -/
inductive Stepped (env : Env) (s : System) : Event → System → Prop
  | refused (caller : Nat) (rq : Request) : Stepped env s (.submit caller rq) s
  | submitted (caller : Nat) (rq : Request) (hp : s.phase caller = .idle) :
      Stepped env s (.submit caller rq)
        ({ s with dev := (prepareDesc s.dev rq).1, serial := s.serial + 1 }.setPhase caller
          (.prepared (prepareDesc s.dev rq).2 s.serial))
  | queued (caller : Nat) (jiffies : BitVec 32) (sw n : Nat)
      (hp : s.phase caller = .prepared sw n) :
      Stepped env s (.queue caller jiffies)
        ({ s with dev := hwSection env jiffies s.dev sw }.setPhase caller (.queued sw n))
  | rxDone (caller sw n : Nat) (hp : s.phase caller = .queued sw n)
      (hok : (rxSection s.dev sw).2 = xstSuccess) :
      Stepped env s (.rx caller)
        ({ s with dev := (rxSection s.dev sw).1, rxLog := s.rxLog ++ [n] }.setPhase caller
          (.rxPosted sw n))
  | rxFailed (caller sw n : Nat) (hp : s.phase caller = .queued sw n)
      (hbad : (rxSection s.dev sw).2 ≠ xstSuccess) :
      Stepped env s (.rx caller) ({ s with dev := (rxSection s.dev sw).1 }.setPhase caller .idle)
  | txDone (caller sw n : Nat) (hp : s.phase caller = .rxPosted sw n)
      (hok : (txSection s.dev sw).2 = xstSuccess) :
      Stepped env s (.tx caller)
        ({ s with dev := (txSection s.dev sw).1, txLog := s.txLog ++ [n] }.setPhase caller
          (.txPosted sw n))
  | txFailed (caller sw n : Nat) (hp : s.phase caller = .rxPosted sw n)
      (hbad : (txSection s.dev sw).2 ≠ xstSuccess) :
      Stepped env s (.tx caller) ({ s with dev := (txSection s.dev sw).1 }.setPhase caller .idle)
  | put (caller sw n : Nat) (hp : s.phase caller = .txPosted sw n) :
      Stepped env s (.put caller)
        ({ s with
            dev := (putAndFree s.dev sw).1
            releasing := s.releasing ++ (putAndFree s.dev sw).2 }.setPhase caller .idle)
  | completed (rx : Bool) (i : Nat) (eof : Bool) (hn : NextToComplete (s.dev.ring rx) i) :
      Stepped env s (.complete rx i eof)
        { s with dev := s.dev.setRing rx (completeBd (s.dev.ring rx) i eof) }
  | reclaimed (rx : Bool) :
      Stepped env s (.reclaim rx)
        { s with
          dev := (reclaim rx s.dev).1
          releasing := s.releasing ++ (reclaim rx s.dev).2 }
  | released (sw : Nat) (hm : sw ∈ s.releasing) :
      Stepped env s (.release sw)
        { s with dev := aesFreeDescRest s.dev sw, releasing := s.releasing.erase sw }

/-- Every step is one of the cases above. -/
theorem step_stepped {env : Env} {s t : System} {e : Event} (h : step env s e = some t) :
    Stepped env s e t := by
  cases e with
  | submit caller rq =>
      simp only [step] at h
      split at h
      · rename_i hp
        split at h
        · rw [Option.some.injEq] at h
          subst h
          exact Stepped.refused caller rq
        · rw [Option.some.injEq] at h
          subst h
          exact Stepped.submitted caller rq hp
      · exact absurd h (by simp only [reduceCtorEq, not_false_eq_true])
  | queue caller jiffies =>
      simp only [step] at h
      split at h
      · rename_i sw n hp
        rw [Option.some.injEq] at h
        subst h
        exact Stepped.queued caller jiffies sw n hp
      · exact absurd h (by simp only [reduceCtorEq, not_false_eq_true])
  | rx caller =>
      simp only [step] at h
      split at h
      · rename_i sw n hp
        split at h
        · rename_i hok
          rw [Option.some.injEq] at h
          subst h
          exact Stepped.rxDone caller sw n hp hok
        · rename_i hbad
          rw [Option.some.injEq] at h
          subst h
          exact Stepped.rxFailed caller sw n hp hbad
      · exact absurd h (by simp only [reduceCtorEq, not_false_eq_true])
  | tx caller =>
      simp only [step] at h
      split at h
      · rename_i sw n hp
        split at h
        · rename_i hok
          rw [Option.some.injEq] at h
          subst h
          exact Stepped.txDone caller sw n hp hok
        · rename_i hbad
          rw [Option.some.injEq] at h
          subst h
          exact Stepped.txFailed caller sw n hp hbad
      · exact absurd h (by simp only [reduceCtorEq, not_false_eq_true])
  | put caller =>
      simp only [step] at h
      split at h
      · rename_i sw n hp
        rw [Option.some.injEq] at h
        subst h
        exact Stepped.put caller sw n hp
      · exact absurd h (by simp only [reduceCtorEq, not_false_eq_true])
  | complete rx i eof =>
      simp only [step] at h
      split at h
      · rename_i hn
        rw [Option.some.injEq] at h
        subst h
        exact Stepped.completed rx i eof hn
      · exact absurd h (by simp only [reduceCtorEq, not_false_eq_true])
  | reclaim rx =>
      simp only [step, Option.some.injEq] at h
      subst h
      exact Stepped.reclaimed rx
  | release sw =>
      simp only [step] at h
      split at h
      · rename_i hm
        rw [Option.some.injEq] at h
        subst h
        exact Stepped.released sw hm
      · exact absurd h (by simp only [reduceCtorEq, not_false_eq_true])

/-- The number a caller carries through its submission. -/
def Phase.serial : Phase → Option Nat
  | .idle => none
  | .prepared _ n => some n
  | .queued _ n => some n
  | .rxPosted _ n => some n
  | .txPosted _ n => some n

/-- The number of a caller that has not posted on the RX ring yet. -/
def Phase.awaiting : Phase → Option Nat
  | .prepared _ n => some n
  | .queued _ n => some n
  | _ => none

theorem Phase.serial_of_awaiting {p : Phase} {n : Nat} (h : p.awaiting = some n) :
    p.serial = some n := by
  cases p with
  | prepared sw m => exact h
  | queued sw m => exact h
  | _ => exact absurd h (by simp only [awaiting, reduceCtorEq, not_false_eq_true])

/-- Submissions are told apart by their numbers. -/
structure Numbered (s : System) : Prop where
  inflight : ∀ c n, (s.phase c).serial = some n → n < s.serial
  distinct : ∀ c c' n, (s.phase c).serial = some n → (s.phase c').serial = some n → c = c'
  fresh : ∀ c n, (s.phase c).awaiting = some n → n ∉ s.rxLog
  logged : ∀ n, n ∈ s.rxLog → n < s.serial
  nodup : s.rxLog.Nodup

theorem setPhase_self (s : System) (c : Nat) (p : Phase) : (s.setPhase c p).phase c = p :=
  Function.update_self ..

theorem setPhase_of_ne (s : System) (p : Phase) {c c' : Nat} (h : c' ≠ c) :
    (s.setPhase c p).phase c' = s.phase c' := Function.update_of_ne h ..

/-- A caller that moves on keeps its number or gives it up. -/
theorem numbered_setPhase {s : System} (h : Numbered s) (c : Nat) (p : Phase)
    (hser : ∀ n, p.serial = some n → (s.phase c).serial = some n)
    (hawait : ∀ n, p.awaiting = some n → (s.phase c).awaiting = some n) :
    Numbered (s.setPhase c p) := by
  -- A number in flight afterwards was in flight before, with the same caller.
  have hold : ∀ c' n, ((s.setPhase c p).phase c').serial = some n →
      (s.phase c').serial = some n := by
    intro c' n hn
    by_cases hc : c' = c
    · rw [hc, setPhase_self] at hn
      rw [hc]
      exact hser n hn
    · rw [setPhase_of_ne s p hc] at hn
      exact hn
  refine ⟨?_, ?_, ?_, h.logged, h.nodup⟩
  · intro c' n hn
    exact h.inflight c' n (hold c' n hn)
  · intro c1 c2 n h1 h2
    exact h.distinct c1 c2 n (hold c1 n h1) (hold c2 n h2)
  · intro c' n hn
    by_cases hc : c' = c
    · rw [hc, setPhase_self] at hn
      exact h.fresh c n (hawait n hn)
    · rw [setPhase_of_ne s p hc] at hn
      exact h.fresh c' n hn

/-- A new submission takes the next number. -/
theorem numbered_submitted {s : System} (h : Numbered s) (d : AesDev) (c sw : Nat) :
    Numbered ({ s with dev := d, serial := s.serial + 1 }.setPhase c (.prepared sw s.serial)) := by
  -- A number in flight is the new one, with its caller, or an old one.
  have hcases : ∀ c' n, (({ s with dev := d, serial := s.serial + 1 }.setPhase c
      (.prepared sw s.serial)).phase c').serial = some n →
      (c' = c ∧ n = s.serial) ∨ (c' ≠ c ∧ (s.phase c').serial = some n) := by
    intro c' n hn
    by_cases hc : c' = c
    · rw [hc, setPhase_self] at hn
      simp only [Phase.serial, Option.some.injEq] at hn
      exact Or.inl ⟨hc, hn.symm⟩
    · rw [setPhase_of_ne _ _ hc] at hn
      exact Or.inr ⟨hc, hn⟩
  refine ⟨?_, ?_, ?_, ?_, h.nodup⟩
  · intro c' n hn
    change n < s.serial + 1
    rcases hcases c' n hn with ⟨-, heq⟩ | ⟨-, hold⟩
    · omega
    · exact Nat.lt_succ_of_lt (h.inflight c' n hold)
  · intro c1 c2 n h1 h2
    rcases hcases c1 n h1 with ⟨hc1, heq1⟩ | ⟨-, hold1⟩
    · rcases hcases c2 n h2 with ⟨hc2, -⟩ | ⟨-, hold2⟩
      · rw [hc1, hc2]
      · have := h.inflight c2 n hold2
        omega
    · rcases hcases c2 n h2 with ⟨-, heq2⟩ | ⟨-, hold2⟩
      · have := h.inflight c1 n hold1
        omega
      · exact h.distinct c1 c2 n hold1 hold2
  · intro c' n hn hmem
    have hlt := h.logged n hmem
    by_cases hc : c' = c
    · rw [hc, setPhase_self] at hn
      simp only [Phase.awaiting, Option.some.injEq] at hn
      omega
    · rw [setPhase_of_ne _ _ hc] at hn
      exact h.fresh c' n hn hmem
  · intro n hmem
    exact Nat.lt_succ_of_lt (h.logged n hmem)

/-- A submission that reaches the RX ring is logged under a number that is not
    there yet. -/
theorem numbered_rxDone {s : System} (h : Numbered s) (d : AesDev) {c sw n : Nat}
    (hp : s.phase c = .queued sw n) :
    Numbered ({ s with dev := d, rxLog := s.rxLog ++ [n] }.setPhase c (.rxPosted sw n)) := by
  have hawait : (s.phase c).awaiting = some n := by rw [hp]; rfl
  have hser : (s.phase c).serial = some n := Phase.serial_of_awaiting hawait
  have hnot := h.fresh c n hawait
  -- The log grows before the caller moves on: both parts are about the same log.
  have hmoved : Numbered (s.setPhase c (.rxPosted sw n)) := by
    refine numbered_setPhase h c _ ?_ ?_
    · intro m hm
      rw [hser]
      exact hm
    · intro m hm
      exact absurd hm (by simp only [Phase.awaiting, reduceCtorEq, not_false_eq_true])
  refine ⟨hmoved.inflight, hmoved.distinct, ?_, ?_, ?_⟩
  · intro c' m hm hmem
    rcases List.mem_append.mp hmem with hlog | hnew
    · exact hmoved.fresh c' m hm hlog
    · -- The number just logged belongs to a caller that no longer waits.
      rw [List.mem_singleton] at hnew
      have hown : ((s.setPhase c (.rxPosted sw n)).phase c).serial = some m := by
        rw [setPhase_self, hnew]
        rfl
      have hc := hmoved.distinct c' c m (Phase.serial_of_awaiting hm) hown
      rw [hc] at hm
      have hm' : (Phase.rxPosted sw n).awaiting = some m := by
        rw [← hm]
        exact congrArg Phase.awaiting (setPhase_self _ _ _).symm
      exact absurd hm' (by simp only [Phase.awaiting, reduceCtorEq, not_false_eq_true])
  · intro m hmem
    rcases List.mem_append.mp hmem with hlog | hnew
    · exact h.logged m hlog
    · rw [List.mem_singleton] at hnew
      rw [hnew]
      exact h.inflight c n hser
  · exact List.nodup_append.mpr ⟨h.nodup, List.nodup_singleton n, by
      intro a ha b hb
      rw [List.mem_singleton] at hb
      intro heq
      rw [heq, hb] at ha
      exact hnot ha⟩

theorem init_numbered (num : Nat) : Numbered (System.init num) := by
  refine ⟨?_, ?_, ?_, ?_, List.nodup_nil⟩
  · intro c n hn
    exact absurd hn (by simp only [System.init, Phase.serial, reduceCtorEq, not_false_eq_true])
  · intro c c' n hn
    exact absurd hn (by simp only [System.init, Phase.serial, reduceCtorEq, not_false_eq_true])
  · intro c n hn
    exact absurd hn (by simp only [System.init, Phase.awaiting, reduceCtorEq, not_false_eq_true])
  · intro n hn
    exact absurd hn List.not_mem_nil

theorem step_numbered {env : Env} {s t : System} {e : Event} (hs : step env s e = some t)
    (h : Numbered s) : Numbered t := by
  -- A device in any state goes with the numbering of the callers.
  have hdev : ∀ (d : AesDev) (rel : List Nat), Numbered { s with dev := d, releasing := rel } :=
    fun _ _ => ⟨h.inflight, h.distinct, h.fresh, h.logged, h.nodup⟩
  have hidle : ∀ (s' : System) (c : Nat), Numbered s' → Numbered (s'.setPhase c .idle) := by
    intro s' c h'
    refine numbered_setPhase h' c .idle ?_ ?_
    · intro n hn
      exact absurd hn (by simp only [Phase.serial, reduceCtorEq, not_false_eq_true])
    · intro n hn
      exact absurd hn (by simp only [Phase.awaiting, reduceCtorEq, not_false_eq_true])
  cases step_stepped hs with
  | refused c rq => exact h
  | submitted c rq hp => exact numbered_submitted h _ c _
  | queued c jiffies sw n hp =>
      refine numbered_setPhase (hdev _ _) c _ ?_ ?_
      · intro m hm
        change (s.phase c).serial = some m
        rw [hp]
        exact hm
      · intro m hm
        change (s.phase c).awaiting = some m
        rw [hp]
        exact hm
  | rxDone c sw n hp hok => exact numbered_rxDone h _ hp
  | rxFailed c sw n hp hbad => exact hidle _ c (hdev _ _)
  | txDone c sw n hp hok =>
      have hlog : Numbered { s with dev := (txSection s.dev sw).1, txLog := s.txLog ++ [n] } :=
        ⟨h.inflight, h.distinct, h.fresh, h.logged, h.nodup⟩
      refine numbered_setPhase hlog c _ ?_ ?_
      · intro m hm
        change (s.phase c).serial = some m
        rw [hp]
        exact hm
      · intro m hm
        exact absurd hm (by simp only [Phase.awaiting, reduceCtorEq, not_false_eq_true])
  | txFailed c sw n hp hbad => exact hidle _ c (hdev _ _)
  | put c sw n hp => exact hidle _ c (hdev _ _)
  | completed rx i eof hn => exact hdev _ _
  | reclaimed rx => exact hdev _ _
  | released sw hm => exact hdev _ _

/-- The groups of both rings are in order. -/
def RingsWf (d : AesDev) : Prop := ∀ rx, (d.ring rx).Wf

theorem ringsWf_setRing {d : AesDev} (h : RingsWf d) (rx : Bool) {r : BdRing} (hr : r.Wf) :
    RingsWf (d.setRing rx r) := by
  intro rx'
  by_cases hrx : rx' = rx
  · rw [hrx, d.ring_setRing]
    exact hr
  · have hnot : rx' = !rx := by
      rw [Bool.eq_not]
      exact hrx
    rw [hnot, d.ring_setRing_not]
    exact h _

section Rings

variable (d : AesDev)

@[simp]
theorem ring_modifyDesc (sw : Nat) (f : AesDesc → AesDesc) (rx : Bool) :
    (d.modifyDesc sw f).ring rx = d.ring rx := by
  cases rx <;> rfl

theorem prepareDesc_ring (rq : Request) (rx : Bool) :
    (prepareDesc d rq).1.ring rx = d.ring rx := by
  unfold prepareDesc aesAllocDesc
  cases d.descHead with
  | nil => cases rx <;> rfl
  | cons sw rest => cases rx <;> rfl

theorem hwSection_ring (env : Env) (jiffies : BitVec 32) (sw : Nat) (rx : Bool) :
    (hwSection env jiffies d sw).ring rx = d.ring rx := by
  cases rx <;> rfl

theorem aesFreeDescRest_ring (sw : Nat) (rx : Bool) :
    (aesFreeDescRest d sw).ring rx = d.ring rx := by
  cases rx <;> rfl

theorem putAndFree_ring (sw : Nat) (rx : Bool) : (putAndFree d sw).1.ring rx = d.ring rx := by
  unfold putAndFree
  simp only
  split
  · cases rx <;> rfl
  · cases rx <;> rfl

theorem cleanBh_ring (rx : Bool) (bd : Nat) (rx' : Bool) :
    (cleanBh rx d bd).1.ring rx' = d.ring rx' := by
  unfold cleanBh
  split
  · exact putAndFree_ring d _ rx'
  · rfl

end Rings

theorem postOn_ringsWf {d : AesDev} (h : RingsWf d) (rx : Bool) (buf : DmaBuf) (sw : Nat) :
    RingsWf (postOn rx d buf sw).1 := by
  intro rx'
  unfold postOn krefGet
  rw [ring_modifyDesc]
  exact ringsWf_setRing h rx (postBuf_wf (h rx) buf sw) rx'

/-- Cleaning up descriptors moves none between groups. -/
theorem cleanLoop_ringsWf (rx : Bool) : ∀ (n : Nat) (d : AesDev) (bd : Nat),
    RingsWf d → RingsWf (cleanLoop rx n d bd).1 := by
  intro n
  induction n with
  | zero => intro d bd h; exact h
  | succ n ih =>
      intro d bd h
      refine ih _ _ ?_
      -- The dropped reference leaves both rings alone, the ID is cleared in place.
      have hput : RingsWf (cleanBh rx d bd).1 := by
        intro rx'
        rw [cleanBh_ring]
        exact h rx'
      exact ringsWf_setRing hput rx (hput rx)

theorem reclaim_ringsWf (rx : Bool) {d : AesDev} (h : RingsWf d) : RingsWf (reclaim rx d).1 := by
  have htaken : RingsWf (d.setRing rx (bdRingFromHw (d.ring rx) bdNum).1) :=
    ringsWf_setRing h rx (bdRingFromHw_wf bdNum (h rx))
  have hclean := cleanLoop_ringsWf rx (bdRingFromHw (d.ring rx) bdNum).2 _
    (d.ring rx).hwHead htaken
  exact ringsWf_setRing hclean rx (bdRingFree_wf _ _ (hclean rx))

theorem init_ringsWf {num : Nat} (h : 0 < num) : RingsWf (System.init num).dev := by
  intro rx
  cases rx with
  | true => exact bdRingCreate_wf true h
  | false => exact bdRingCreate_wf false h

theorem step_ringsWf {env : Env} {s t : System} {e : Event} (hs : step env s e = some t)
    (h : RingsWf s.dev) : RingsWf t.dev := by
  -- Most steps leave both rings alone.
  have hkeep : ∀ d : AesDev, (∀ rx, d.ring rx = s.dev.ring rx) → RingsWf d := by
    intro d hd rx
    rw [hd]
    exact h rx
  cases step_stepped hs with
  | refused c rq => exact h
  | submitted c rq hp => exact hkeep _ (prepareDesc_ring s.dev rq)
  | queued c jiffies sw n hp => exact hkeep _ (hwSection_ring s.dev env jiffies sw)
  | rxDone c sw n hp hok => exact postOn_ringsWf h true _ sw
  | rxFailed c sw n hp hbad => exact postOn_ringsWf h true _ sw
  | txDone c sw n hp hok => exact postOn_ringsWf h false _ sw
  | txFailed c sw n hp hbad => exact postOn_ringsWf h false _ sw
  | put c sw n hp => exact hkeep _ (putAndFree_ring s.dev sw)
  | completed rx i eof hn => exact ringsWf_setRing h rx (h rx)
  | reclaimed rx => exact reclaim_ringsWf rx h
  | released sw hm => exact hkeep _ (aesFreeDescRest_ring s.dev sw)

/-- The groups are in order in every state the driver reaches. -/
theorem run_ringsWf {env : Env} {C : System → Event → Prop} {num : Nat} (hnum : 0 < num)
    {es : List Event} {s : System} (h : Run (step env) C (System.init num) es s) :
    RingsWf s.dev :=
  run_inv (fun _ _ _ hi _ hs => step_ringsWf hs hi) h (init_ringsWf hnum)

/-- A request of `n` segments of one AES block each. -/
def blockRequest (n priv : Nat) : Request where
  srcSg := List.replicate n ⟨0x1000, 16⟩
  srcSz := 16 * n
  dstSg := List.replicate n ⟨0x2000, 16⟩
  dstSz := 16 * n
  cb := true
  priv := priv
  srcMapped := true
  dstMapped := true
  srcTable := true
  dstTable := true

/-- A kernel that ticks a hundred times a second and rounds nothing. -/
def plainEnv : Env := ⟨100, id⟩

end Driver

end Ml605
