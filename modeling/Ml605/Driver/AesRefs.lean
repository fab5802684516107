import Ml605.Driver.AesLedger

/-!
# Reference Counts

At every moment the reference count of a software descriptor is the number of
its buffer descriptors that are posted and not taken back, plus one while its
submission is in progress, and `aes_free_desc` has run once for exactly those
submissions that hold nothing any more. This is so for every interleaving of
successful submissions with the reclaim rounds of the two bottom halves, which
may take descriptors back before the submission is through.

A submission whose posting fails keeps its own reference and those the failed
posting took, for good: the error paths drop nothing. The books have a column
for these, so that they balance in every run, and one submission that fails
does not disturb what is known of the others.

## Main definitions

* `Counted`: The counts are what the submissions hold.
* `Sent`: Who has posted on the TX ring, and that nobody has who lost something.
* `Balanced`: The books balance.
* `Logged`, `Unfailing`: A submission that is not in progress was posted on both
  rings, as long as no posting fails.

## Theorems

* `balanced_submitted`, `balanced_posted`, `balanced_failed`, `balanced_put`,
  `balanced_reclaimed`: The steps that move references.
* `step_balanced`: Every step keeps the books.
* `run_counted`: So the counts are right in every reachable state.
-/

namespace Ml605

namespace Driver

open Lib

/-- The reference counts are what the submissions hold, and `aes_free_desc` has
    run, once, for exactly those that hold nothing any more. -/
structure Counted (l : Ledger) : Prop where
  ids : ∀ rx, hwIds (l.sys.dev.ring rx) = (l.posted rx).map fun n => some (l.descOf n)
  inProgress : ∀ n, InProgress l.sys n →
    (l.sys.dev.desc (l.descOf n)).kref = outstanding l n + 1 ∧ l.freed.count n = 0
  waiting : ∀ n, ¬ InProgress l.sys n → 0 < outstanding l n →
    (l.sys.dev.desc (l.descOf n)).kref = outstanding l n ∧ l.freed.count n = 0
  done : ∀ n, n < l.sys.serial → ¬ InProgress l.sys n → outstanding l n = 0 →
    l.freed.count n = 1 ∧ n ∈ l.sys.rxLog ∧ n ∈ l.sys.txLog

section Logs

/-- The number of a caller that has not posted on the TX ring yet. -/
def Phase.unsent : Phase → Option Nat
  | .prepared _ n => some n
  | .queued _ n => some n
  | .rxPosted _ n => some n
  | _ => none

/-- A submission that no caller is about to post was posted. -/
structure Logged (s : System) : Prop where
  rx : ∀ n, n < s.serial → (∃ c, (s.phase c).awaiting = some n) ∨ n ∈ s.rxLog
  tx : ∀ n, n < s.serial → (∃ c, (s.phase c).unsent = some n) ∨ n ∈ s.txLog

/-- A caller that moves on may be the only one that gives up a number. -/
theorem exists_moved {f : Phase → Option Nat} {phase : Nat → Phase} {c n : Nat} {p : Phase}
    (hkeep : f (phase c) = some n → f p = some n) (h : ∃ c', f (phase c') = some n) :
    ∃ c', f (Function.update phase c p c') = some n := by
  rcases h with ⟨c', hc'⟩
  by_cases hc : c' = c
  · rw [hc] at hc'
    exact ⟨c, by rw [Function.update_self]; exact hkeep hc'⟩
  · exact ⟨c', by rw [Function.update_of_ne hc]; exact hc'⟩

/-- A caller that moves on without posting. -/
theorem logged_moved {s : System} (h : Logged s) (d : AesDev) (rel : List Nat) (c : Nat) (p : Phase)
    (hrx : ∀ n, (s.phase c).awaiting = some n → p.awaiting = some n)
    (htx : ∀ n, (s.phase c).unsent = some n → p.unsent = some n) :
    Logged ({ s with dev := d, releasing := rel }.setPhase c p) :=
  ⟨fun n hn => (h.rx n hn).imp_left (exists_moved (hrx n)),
    fun n hn => (h.tx n hn).imp_left (exists_moved (htx n))⟩

theorem step_logged {env : Env} {l : Ledger} {t : System} {e : Event}
    (hs : step env l.sys e = some t) (hok : Succeeds l e) (h : Logged l.sys) : Logged t := by
  cases step_stepped hs with
  | refused c rq => exact h
  | submitted c rq hp =>
      -- The new number is with its caller.
      have hcases : ∀ n, n < l.sys.serial + 1 → n = l.sys.serial ∨ n < l.sys.serial := by
        intro n hn
        omega
      have hidle : ∀ f : Phase → Option Nat, f .idle = none → ∀ n p,
          f (l.sys.phase c) = some n → f p = some n := by
        intro f hf n p hn
        rw [hp, hf] at hn
        exact absurd hn (by simp only [reduceCtorEq, not_false_eq_true])
      constructor
      · intro n hn
        rcases hcases n hn with rfl | hlt
        · exact Or.inl ⟨c, by rw [setPhase_self]; rfl⟩
        · exact (h.rx n hlt).imp_left (exists_moved (hidle Phase.awaiting rfl n _))
      · intro n hn
        rcases hcases n hn with rfl | hlt
        · exact Or.inl ⟨c, by rw [setPhase_self]; rfl⟩
        · exact (h.tx n hlt).imp_left (exists_moved (hidle Phase.unsent rfl n _))
  | queued c jiffies sw n hp =>
      refine logged_moved h _ _ c _ ?_ ?_
      · rw [hp]
        exact fun _ hm => hm
      · rw [hp]
        exact fun _ hm => hm
  | rxDone c sw n hp hpost =>
      refine ⟨?_, ?_⟩
      · intro m hm
        by_cases hmn : m = n
        · exact Or.inr (List.mem_append_right _ (List.mem_singleton.mpr hmn))
        · refine (h.rx m hm).imp (exists_moved ?_) (List.mem_append_left _)
          rw [hp]
          intro heq
          exact absurd (Option.some.inj heq).symm hmn
      · intro m hm
        refine (h.tx m hm).imp_left (exists_moved ?_)
        rw [hp]
        exact fun heq => heq
  | rxFailed c sw n hp hbad => exact absurd (hok sw n hp) hbad
  | txDone c sw n hp hpost =>
      refine ⟨?_, ?_⟩
      · intro m hm
        refine (h.rx m hm).imp_left (exists_moved ?_)
        rw [hp]
        exact fun heq => heq
      · intro m hm
        by_cases hmn : m = n
        · exact Or.inr (List.mem_append_right _ (List.mem_singleton.mpr hmn))
        · refine (h.tx m hm).imp (exists_moved ?_) (List.mem_append_left _)
          rw [hp]
          intro heq
          exact absurd (Option.some.inj heq).symm hmn
  | txFailed c sw n hp hbad => exact absurd (hok sw n hp) hbad
  | put c sw n hp =>
      refine logged_moved h _ _ c _ ?_ ?_
      · rw [hp]
        exact fun _ hm => absurd hm (by simp only [Phase.awaiting, reduceCtorEq,
          not_false_eq_true])
      · rw [hp]
        exact fun _ hm => absurd hm (by simp only [Phase.unsent, reduceCtorEq,
          not_false_eq_true])
  | completed rx i eof hn => exact ⟨h.rx, h.tx⟩
  | reclaimed rx => exact ⟨h.rx, h.tx⟩
  | released sw hm => exact ⟨h.rx, h.tx⟩

theorem Phase.serial_of_unsent {p : Phase} {n : Nat} (h : p.unsent = some n) :
    p.serial = some n := by
  cases p with
  | idle => exact absurd h (by simp only [unsent, reduceCtorEq, not_false_eq_true])
  | txPosted sw m => exact absurd h (by simp only [unsent, reduceCtorEq, not_false_eq_true])
  | _ => exact h

/-- A submission that is not in progress was posted on both rings. -/
theorem logged_of_done {s : System} (h : Logged s) {n : Nat} (hn : n < s.serial)
    (hdone : ¬ InProgress s n) : n ∈ s.rxLog ∧ n ∈ s.txLog := by
  constructor
  · refine (h.rx n hn).resolve_left ?_
    rintro ⟨c, hc⟩
    exact hdone ⟨c, Phase.serial_of_awaiting hc⟩
  · refine (h.tx n hn).resolve_left ?_
    rintro ⟨c, hc⟩
    exact hdone ⟨c, Phase.serial_of_unsent hc⟩

end Logs

/-- What a caller carries after it has moved on, it carried before. -/
theorem carried_moved {α : Type} {f : Phase → Option α} {phase : Nat → Phase} {c : Nat}
    {p : Phase} (hp : ∀ e, f p = some e → f (phase c) = some e) (c' : Nat) (e : α)
    (he : f (Function.update phase c p c') = some e) : f (phase c') = some e := by
  by_cases hc : c' = c
  · rw [hc, Function.update_self] at he
    rw [hc]
    exact hp e he
  · rw [Function.update_of_ne hc] at he
    exact he

/-- Who has posted on the TX ring: submissions that were started, and none whose
    caller is yet to come to it. A submission that lost a reference is over and
    is none of them. -/
structure Sent (s : System) (lost : Nat → Nat) : Prop where
  known : ∀ n, n ∈ s.txLog → n < s.serial
  unsent : ∀ c n, (s.phase c).unsent = some n → n ∉ s.txLog
  lost : ∀ n, 0 < lost n → n < s.serial ∧ ¬ InProgress s n ∧ n ∉ s.txLog

section Sending

variable {s t : System} {lost : Nat → Nat}

/-- A caller that moves on without posting on the TX ring. -/
theorem sent_moved (h : Sent s lost) {c : Nat} {p : Phase} (hlog : t.txLog = s.txLog)
    (hserial : t.serial = s.serial) (hphase : t.phase = Function.update s.phase c p)
    (hser : ∀ n, p.serial = some n → (s.phase c).serial = some n)
    (hun : ∀ n, p.unsent = some n → (s.phase c).unsent = some n) : Sent t lost := by
  refine ⟨?_, ?_, ?_⟩
  · rw [hlog, hserial]
    exact h.known
  · intro c' n hn
    rw [hphase] at hn
    rw [hlog]
    exact h.unsent c' n (carried_moved hun c' n hn)
  · intro n hn
    rcases h.lost n hn with ⟨hlt, hover, hnot⟩
    rw [hserial, hlog]
    refine ⟨hlt, ?_, hnot⟩
    rintro ⟨c', hc'⟩
    rw [hphase] at hc'
    exact hover ⟨c', carried_moved hser c' n hc'⟩

/-- A step that no caller takes part in. -/
theorem sent_same (h : Sent s lost) (hlog : t.txLog = s.txLog) (hserial : t.serial = s.serial)
    (hphase : t.phase = s.phase) : Sent t lost :=
  sent_moved (c := 0) h hlog hserial (hphase.trans (Function.update_eq_self 0 s.phase).symm)
    (fun _ hn => hn) (fun _ hn => hn)

/-- A caller whose posting fails gives up its number, which never gets into the
    log. -/
theorem sent_failed (hnum : Numbered s) (h : Sent s lost) {c n k : Nat}
    (hn : (s.phase c).unsent = some n) (hlog : t.txLog = s.txLog) (hserial : t.serial = s.serial)
    (hphase : t.phase = Function.update s.phase c .idle) :
    Sent t (Function.update lost n k) := by
  have hserial' := Phase.serial_of_unsent hn
  have hkeep := sent_moved (t := t) h hlog hserial hphase
    (fun _ hm => absurd hm (by simp only [Phase.serial, reduceCtorEq, not_false_eq_true]))
    (fun _ hm => absurd hm (by simp only [Phase.unsent, reduceCtorEq, not_false_eq_true]))
  refine ⟨hkeep.known, hkeep.unsent, ?_⟩
  intro m hm
  by_cases hmn : m = n
  · rw [hmn, hserial, hlog]
    refine ⟨hnum.inflight c n hserial', ?_, h.unsent c n hn⟩
    rintro ⟨c', hc'⟩
    rw [hphase] at hc'
    by_cases hc : c' = c
    · rw [hc, Function.update_self] at hc'
      exact absurd hc' (by simp only [Phase.serial, reduceCtorEq, not_false_eq_true])
    · rw [Function.update_of_ne hc] at hc'
      exact hc (hnum.distinct c' c n hc' hserial')
  · rw [Function.update_of_ne hmn] at hm
    exact hkeep.lost m hm

/-- A new submission has a number that is in no log. -/
theorem sent_submitted (h : Sent s lost) {c sw : Nat} (hlog : t.txLog = s.txLog)
    (hserial : t.serial = s.serial + 1)
    (hphase : t.phase = Function.update s.phase c (.prepared sw s.serial)) : Sent t lost := by
  -- Only the caller that submits has a new number, and that number is fresh.
  have hcases : ∀ {f : Phase → Option Nat} {c' n}, f (.prepared sw s.serial) = some s.serial →
      f (t.phase c') = some n → n = s.serial ∨ f (s.phase c') = some n := by
    intro f c' n hf hn
    rw [hphase] at hn
    by_cases hc : c' = c
    · rw [hc, Function.update_self, hf] at hn
      exact Or.inl (Option.some.inj hn).symm
    · rw [Function.update_of_ne hc] at hn
      exact Or.inr hn
  refine ⟨?_, ?_, ?_⟩
  · intro n hn
    rw [hlog] at hn
    rw [hserial]
    exact Nat.lt_succ_of_lt (h.known n hn)
  · intro c' n hn
    rw [hlog]
    rcases hcases (f := Phase.unsent) rfl hn with rfl | hold
    · exact fun hmem => absurd (h.known _ hmem) (Nat.lt_irrefl _)
    · exact h.unsent c' n hold
  · intro n hn
    rcases h.lost n hn with ⟨hlt, hover, hnot⟩
    rw [hserial, hlog]
    refine ⟨Nat.lt_succ_of_lt hlt, ?_, hnot⟩
    rintro ⟨c', hc'⟩
    rcases hcases (f := Phase.serial) rfl hc' with rfl | hold
    · exact absurd hlt (Nat.lt_irrefl _)
    · exact hover ⟨c', hold⟩

/-- A posting on the TX ring that succeeds. -/
theorem sent_posted (hnum : Numbered s) (h : Sent s lost) {c sw n : Nat}
    (hp : s.phase c = .rxPosted sw n) (hlog : t.txLog = s.txLog ++ [n])
    (hserial : t.serial = s.serial)
    (hphase : t.phase = Function.update s.phase c (.txPosted sw n)) : Sent t lost := by
  have hn : (s.phase c).serial = some n := by rw [hp]; rfl
  have hser : ∀ c' m, (t.phase c').serial = some m → (s.phase c').serial = some m := by
    intro c' m hm
    rw [hphase] at hm
    exact carried_moved (fun _ he => by rw [hp]; exact he) c' m hm
  refine ⟨?_, ?_, ?_⟩
  · intro m hm
    rw [hlog, List.mem_append, List.mem_singleton] at hm
    rw [hserial]
    rcases hm with hold | rfl
    · exact h.known m hold
    · exact hnum.inflight c m hn
  · intro c' m hm
    have hm' : (s.phase c').unsent = some m := by
      rw [hphase] at hm
      refine carried_moved (fun e he => absurd he ?_) c' m hm
      simp only [Phase.unsent, reduceCtorEq, not_false_eq_true]
    rw [hlog, List.mem_append, List.mem_singleton]
    rintro (hold | rfl)
    · exact h.unsent c' m hm' hold
    · -- The number is with this caller alone, who has just posted.
      have hc := hnum.distinct c' c m (Phase.serial_of_unsent hm') hn
      rw [hc, hphase, Function.update_self] at hm
      exact absurd hm (by simp only [Phase.unsent, reduceCtorEq, not_false_eq_true])
  · intro m hm
    rcases h.lost m hm with ⟨hlt, hover, hnot⟩
    rw [hserial, hlog, List.mem_append, List.mem_singleton]
    refine ⟨hlt, fun ⟨c', hc'⟩ => hover ⟨c', hser c' m hc'⟩, ?_⟩
    rintro (hold | rfl)
    · exact hnot hold
    · exact hover ⟨c, hn⟩

end Sending

theorem enterLost_ok {l : Ledger} {rx : Bool} {buf : DmaBuf} {sw : Nat} (n : Nat)
    (hok : (postOn rx l.sys.dev buf sw).2 = xstSuccess) : enterLost l rx n buf sw = l.lost :=
  if_pos hok

theorem enterLost_failed {l : Ledger} {rx : Bool} {buf : DmaBuf} {sw : Nat} (n : Nat)
    (hbad : (postOn rx l.sys.dev buf sw).2 ≠ xstSuccess) : enterLost l rx n buf sw =
      Function.update l.lost n (l.lost n + 1 + (postBuf (l.sys.dev.ring rx) buf sw).2.2) :=
  if_neg hbad

theorem step_sent {env : Env} {l : Ledger} {t : System} {e : Event}
    (hs : step env l.sys e = some t) (hnum : Numbered l.sys) (h : Sent l.sys l.lost) :
    Sent t (enter l t e).lost := by
  cases step_stepped hs with
  | refused c rq =>
      simp only [enter, if_true]
      exact h
  | submitted c rq hp =>
      have hne : l.sys.serial + 1 ≠ l.sys.serial := Nat.succ_ne_self _
      simp only [enter, System.setPhase, hne, if_false]
      exact sent_submitted h rfl rfl rfl
  | queued c jiffies sw n hp =>
      refine sent_moved (c := c) h rfl rfl rfl ?_ ?_
      · rw [hp]
        exact fun _ hm => hm
      · rw [hp]
        exact fun _ hm => hm
  | rxDone c sw n hp hpost =>
      simp only [enter, hp]
      rw [enterLost_ok n hpost]
      refine sent_moved (c := c) h rfl rfl rfl ?_ ?_
      · rw [hp]
        exact fun _ hm => hm
      · rw [hp]
        exact fun _ hm => hm
  | rxFailed c sw n hp hbad =>
      simp only [enter, hp]
      rw [enterLost_failed n hbad]
      exact sent_failed (c := c) hnum h (by rw [hp]; rfl) rfl rfl rfl
  | txDone c sw n hp hpost =>
      simp only [enter, hp]
      rw [enterLost_ok n hpost]
      exact sent_posted hnum h hp rfl rfl rfl
  | txFailed c sw n hp hbad =>
      simp only [enter, hp]
      rw [enterLost_failed n hbad]
      exact sent_failed (c := c) hnum h (by rw [hp]; rfl) rfl rfl rfl
  | put c sw n hp =>
      simp only [enter, hp]
      refine sent_moved (c := c) h rfl rfl rfl ?_ ?_
      · exact fun _ hm => absurd hm (by simp only [Phase.serial, reduceCtorEq, not_false_eq_true])
      · exact fun _ hm => absurd hm (by simp only [Phase.unsent, reduceCtorEq, not_false_eq_true])
  | completed rx i eof hn => exact sent_same h rfl rfl rfl
  | reclaimed rx => exact sent_same h rfl rfl rfl
  | released sw hm => exact sent_same h rfl rfl rfl

/-- The software descriptor and the number a caller carries. -/
def Phase.entry : Phase → Option (Nat × Nat)
  | .idle => none
  | .prepared sw n => some (sw, n)
  | .queued sw n => some (sw, n)
  | .rxPosted sw n => some (sw, n)
  | .txPosted sw n => some (sw, n)

theorem Phase.serial_of_entry {p : Phase} {sw n : Nat} (h : p.entry = some (sw, n)) :
    p.serial = some n := by
  cases p with
  | idle => exact absurd h (by simp only [entry, reduceCtorEq, not_false_eq_true])
  | _ =>
      simp only [entry, Option.some.injEq, Prod.mk.injEq] at h
      rw [← h.2]
      rfl

/-- The books balance: the IDs on the rings are the descriptors of the
    submissions they were posted for, a caller carries the descriptor it was
    given, and the pool counts what the submissions hold. -/
structure Balanced (l : Ledger) : Prop where
  rings : RingsWf l.sys.dev
  post : ∀ rx, (l.sys.dev.ring rx).postCnt = 0
  numbered : Numbered l.sys
  sent : Sent l.sys l.lost
  ids : ∀ rx, hwIds (l.sys.dev.ring rx) = (l.posted rx).map fun n => some (l.descOf n)
  entries : ∀ c sw n, (l.sys.phase c).entry = some (sw, n) → l.descOf n = sw
  held : Held l.sys.dev.pool l.descOf (weight l) l.sys.serial l.freed

section Entries

/-- What the rings hold together when one of them changes. -/
theorem outstanding_update (posted : Bool → List Nat) (rx : Bool) (ns : List Nat) (m : Nat) :
    (posted rx).count m + ((Function.update posted rx ns true).count m +
      (Function.update posted rx ns false).count m) =
    ns.count m + ((posted true).count m + (posted false).count m) := by
  cases rx with
  | true =>
      rw [Function.update_self, Function.update_of_ne (by decide)]
      omega
  | false =>
      rw [Function.update_self, Function.update_of_ne (by decide)]
      omega

theorem outstanding_append (posted : Bool → List Nat) (rx : Bool) (k n m : Nat) :
    (Function.update posted rx (posted rx ++ List.replicate k n) true).count m +
      (Function.update posted rx (posted rx ++ List.replicate k n) false).count m =
    (posted true).count m + (posted false).count m + if n = m then k else 0 := by
  have hboth := outstanding_update posted rx (posted rx ++ List.replicate k n) m
  have hone : (posted rx ++ List.replicate k n).count m =
      (posted rx).count m + if n = m then k else 0 := by
    rw [List.count_append, List.count_replicate]
    simp only [beq_iff_eq]
  omega

theorem outstanding_drop (posted : Bool → List Nat) (rx : Bool) (k m : Nat) :
    (posted true).count m + (posted false).count m = ((posted rx).take k).count m +
      ((Function.update posted rx ((posted rx).drop k) true).count m +
        (Function.update posted rx ((posted rx).drop k) false).count m) := by
  have hboth := outstanding_update posted rx ((posted rx).drop k) m
  have hone : (posted rx).count m = ((posted rx).take k).count m +
      ((posted rx).drop k).count m := by
    rw [← List.count_append, List.take_append_drop]
  omega

/-- A submission with a descriptor on a ring has a number. -/
theorem posted_known {l : Ledger} (h : Balanced l) {rx : Bool} {n : Nat} (hn : n ∈ l.posted rx) :
    n < l.sys.serial := by
  refine h.held.known n ?_
  have hpos : 0 < (l.posted rx).count n := List.count_pos_iff.mpr hn
  unfold weight outstanding
  cases rx with
  | true => omega
  | false => omega

/-- What holds of the ring at hand and of the other one holds of both. -/
theorem forall_ring {P : Bool → Prop} (rx : Bool) (hown : P rx) (hother : P (!rx)) :
    ∀ rx', P rx' := by
  intro rx'
  by_cases hrx : rx' = rx
  · rw [hrx]
    exact hown
  · rw [Bool.eq_not_of_ne hrx]
    exact hother

/-- A step that moves no descriptor and no reference. -/
theorem balanced_same {l : Ledger} (h : Balanced l) {t : System} (hnum : Numbered t)
    (hsent : Sent t l.lost) (hrings : RingsWf t.dev)
    (hring : ∀ rx, (t.dev.ring rx).postCnt = (l.sys.dev.ring rx).postCnt ∧
      hwIds (t.dev.ring rx) = hwIds (l.sys.dev.ring rx))
    (hentry : ∀ c e, (t.phase c).entry = some e → (l.sys.phase c).entry = some e)
    (hbusy : busy t.phase = busy l.sys.phase) (hpool : t.dev.pool = l.sys.dev.pool)
    (hserial : t.serial = l.sys.serial) (pending : List Nat) (finished : List Finished) :
    Balanced { l with sys := t, pending := pending, finished := finished } := by
  refine ⟨hrings, ?_, hnum, hsent, ?_, ?_, ?_⟩
  · intro rx
    exact (hring rx).1.trans (h.post rx)
  · intro rx
    exact (hring rx).2.trans (h.ids rx)
  · intro c sw n he
    exact h.entries c sw n (hentry c _ he)
  · change Held t.dev.pool l.descOf _ t.serial l.freed
    have hweight : weight { l with sys := t, pending := pending, finished := finished } =
        weight l := by
      funext n
      unfold weight
      rw [hbusy]
      rfl
    rw [hpool, hserial, hweight]
    exact h.held

/-- A new submission takes a descriptor and holds one reference. -/
theorem balanced_submitted {l : Ledger} (h : Balanced l) {c : Nat} {rq : Request} {t : System}
    (hnum : Numbered t) (hsent : Sent t l.lost) (hrings : RingsWf t.dev)
    (hp : l.sys.phase c = .idle)
    (ht : t = { l.sys with
        dev := (prepareDesc l.sys.dev rq).1
        serial := l.sys.serial + 1 }.setPhase c
          (.prepared (prepareDesc l.sys.dev rq).2 l.sys.serial)) :
    Balanced { l with
      sys := t
      descOf := Function.update l.descOf l.sys.serial (prepareDesc l.sys.dev rq).2
      request := Function.update l.request l.sys.serial rq } := by
  have hring : ∀ rx, t.dev.ring rx = l.sys.dev.ring rx := by
    intro rx
    rw [ht]
    exact prepareDesc_ring l.sys.dev rq rx
  have hphase : t.phase = Function.update l.sys.phase c
      (.prepared (prepareDesc l.sys.dev rq).2 l.sys.serial) := by rw [ht]; rfl
  have hserial : t.serial = l.sys.serial + 1 := by rw [ht]; rfl
  have hold : ∀ n, n < l.sys.serial →
      Function.update l.descOf l.sys.serial (prepareDesc l.sys.dev rq).2 n = l.descOf n :=
    fun n hn => Function.update_of_ne (Nat.ne_of_lt hn) ..
  refine ⟨hrings, ?_, hnum, hsent, ?_, ?_, ?_⟩
  · intro rx
    rw [hring]
    exact h.post rx
  · intro rx
    rw [hring, h.ids rx]
    refine List.map_congr_left fun n hn => ?_
    exact congrArg some (hold n (posted_known h hn)).symm
  · intro c' sw n he
    change (t.phase c').entry = some (sw, n) at he
    rw [hphase] at he
    by_cases hc : c' = c
    · rw [hc, Function.update_self] at he
      simp only [Phase.entry, Option.some.injEq, Prod.mk.injEq] at he
      rw [← he.1, ← he.2]
      exact Function.update_self ..
    · rw [Function.update_of_ne hc] at he
      have hlt := h.numbered.inflight c' n (Phase.serial_of_entry he)
      exact (hold n hlt).trans (h.entries c' sw n he)
  · -- The new submission has the next number, which held nothing so far.
    have hnone : outstanding l l.sys.serial + l.lost l.sys.serial = 0 := by
      by_contra hpos
      have hlt := h.held.known l.sys.serial (by unfold weight; omega)
      omega
    have hweight : weight { l with
        sys := t
        descOf := Function.update l.descOf l.sys.serial (prepareDesc l.sys.dev rq).2
        request := Function.update l.request l.sys.serial rq } =
          Function.update (weight l) l.sys.serial 1 := by
      funext n
      unfold weight
      simp only
      rw [hphase, busy_started (by rw [hp]; rfl) rfl]
      by_cases hn : n = l.sys.serial
      · rw [hn, Function.update_self, Function.update_self]
        change outstanding l l.sys.serial + 1 + l.lost l.sys.serial = 1
        omega
      · rw [Function.update_of_ne hn, Function.update_of_ne hn]
        rfl
    rcases prepareDesc_pool l.sys.dev rq with ⟨hpool, hdesc⟩
    have hdev : t.dev.pool = l.sys.dev.pool.alloc.1 := by
      rw [ht]
      exact hpool
    have halloc := held_alloc h.held
    rw [← hweight, ← hdesc, ← hdev, ← hserial] at halloc
    exact halloc

/-- When one caller moves on with the descriptor it carries, or without one, the
    callers still carry the descriptors they were given. -/
theorem entries_moved {l : Ledger} (h : Balanced l) {c : Nat} {p : Phase} {phase : Nat → Phase}
    (hphase : phase = Function.update l.sys.phase c p)
    (hp : ∀ e, p.entry = some e → (l.sys.phase c).entry = some e) :
    ∀ c' sw n, (phase c').entry = some (sw, n) → l.descOf n = sw := by
  intro c' sw n he
  rw [hphase] at he
  exact h.entries c' sw n (carried_moved hp c' _ he)

/-- A submission under way holds a reference. -/
theorem weight_pos_of_entry {l : Ledger} {c sw n : Nat}
    (he : (l.sys.phase c).entry = some (sw, n)) : 0 < weight l n := by
  rw [weight_of_inProgress (Phase.serial_of_entry he)]
  omega

/-- The references a posting takes, whether it then succeeds or not. -/
theorem held_posted {l : Ledger} (h : Balanced l) (rx : Bool) (buf : DmaBuf) {c sw n : Nat}
    (he : (l.sys.phase c).entry = some (sw, n)) :
    Held (postOn rx l.sys.dev buf sw).1.pool l.descOf
      (Function.update (weight l) n (weight l n + (postBuf (l.sys.dev.ring rx) buf sw).2.2))
      l.sys.serial l.freed := by
  rw [postOn_pool, ← h.entries c sw n he]
  exact held_get h.held (weight_pos_of_entry he) _

/-- A posting works on its own ring. -/
theorem postOn_ring (rx : Bool) (d : AesDev) (buf : DmaBuf) (sw : Nat) :
    (postOn rx d buf sw).1.ring rx = (postBuf (d.ring rx) buf sw).1 ∧
      (postOn rx d buf sw).1.ring (!rx) = d.ring (!rx) := by
  unfold postOn krefGet
  rw [ring_modifyDesc, ring_modifyDesc, AesDev.ring_setRing, AesDev.ring_setRing_not]
  exact ⟨rfl, rfl⟩

/-- A posting that succeeds: its descriptors are at the end of the queue, and
    each holds a reference. -/
theorem balanced_posted {l : Ledger} (h : Balanced l) (rx : Bool) {c sw n : Nat} {buf : DmaBuf}
    {p : Phase} {t : System} (hnum : Numbered t) (hsent : Sent t (enterLost l rx n buf sw))
    (hrings : RingsWf t.dev) (he : (l.sys.phase c).entry = some (sw, n))
    (hp : p.entry = some (sw, n)) (hok : (postOn rx l.sys.dev buf sw).2 = xstSuccess)
    (hdev : t.dev = (postOn rx l.sys.dev buf sw).1)
    (hphase : t.phase = Function.update l.sys.phase c p) (hserial : t.serial = l.sys.serial) :
    Balanced { l with
      sys := t
      posted := enterPost l rx n buf sw
      lost := enterLost l rx n buf sw } := by
  have hdesc : l.descOf n = sw := h.entries c sw n he
  have hnserial := Phase.serial_of_entry he
  rcases postOn_ring rx l.sys.dev buf sw with ⟨hown, hother⟩
  rw [← hdev] at hown hother
  rcases hwIds_postBuf sw (h.rings rx) hok with ⟨hids, hpost⟩
  have henter : enterPost l rx n buf sw = Function.update l.posted rx (l.posted rx ++
      List.replicate (postBuf (l.sys.dev.ring rx) buf sw).2.2 n) := if_pos hok
  have hne : (!rx) ≠ rx := by
    cases rx <;> decide
  rw [enterLost_ok n hok] at hsent ⊢
  rw [henter]
  refine ⟨hrings, ?_, hnum, hsent, ?_, ?_, ?_⟩
  · refine forall_ring rx ?_ ?_
    · rw [hown, hpost]
      exact h.post rx
    · rw [hother]
      exact h.post _
  · refine forall_ring rx ?_ ?_
    · dsimp only
      rw [hown, hids, h.ids rx, Function.update_self, List.map_append, List.map_replicate, hdesc]
    · dsimp only
      rw [hother, h.ids, Function.update_of_ne hne]
  · refine entries_moved h hphase fun e hpe => ?_
    rw [he, ← hp]
    exact hpe
  -- The pool gets one reference per descriptor of the buffer, and so do the entries of `n`.
  · have hweight : weight { l with
        sys := t
        posted := Function.update l.posted rx (l.posted rx ++
          List.replicate (postBuf (l.sys.dev.ring rx) buf sw).2.2 n)
        lost := l.lost } =
        Function.update (weight l) n
          (weight l n + (postBuf (l.sys.dev.ring rx) buf sw).2.2) := by
      funext m
      have hbusy : busy t.phase = busy l.sys.phase := by
        rw [hphase]
        exact busy_moved ((Phase.serial_of_entry hp).trans hnserial.symm)
      unfold weight outstanding
      simp only
      rw [hbusy, outstanding_append]
      by_cases hm : m = n
      · rw [hm, Function.update_self, if_pos rfl]
        omega
      · rw [Function.update_of_ne hm, if_neg fun heq => hm heq.symm, Nat.add_zero]
    have hheld := held_posted h rx buf he
    rw [← hweight, ← hdev, ← hserial] at hheld
    exact hheld

/-- A posting that fails: the queue is as it was, and the references of the call
    and of its loop are lost. -/
theorem balanced_failed {l : Ledger} (h : Balanced l) (rx : Bool) {c sw n : Nat} {buf : DmaBuf}
    {t : System} (hnum : Numbered t) (hsent : Sent t (enterLost l rx n buf sw))
    (hrings : RingsWf t.dev) (he : (l.sys.phase c).entry = some (sw, n))
    (hbad : (postOn rx l.sys.dev buf sw).2 ≠ xstSuccess)
    (hdev : t.dev = (postOn rx l.sys.dev buf sw).1)
    (hphase : t.phase = Function.update l.sys.phase c .idle) (hserial : t.serial = l.sys.serial) :
    Balanced { l with
      sys := t
      posted := enterPost l rx n buf sw
      lost := enterLost l rx n buf sw } := by
  have hnserial := Phase.serial_of_entry he
  rcases postOn_ring rx l.sys.dev buf sw with ⟨hown, hother⟩
  rw [← hdev] at hown hother
  rcases hwIds_postBuf_failed sw (h.rings rx) hbad with ⟨hids, hpost⟩
  have henter : enterPost l rx n buf sw = l.posted := if_neg hbad
  rw [enterLost_failed n hbad] at hsent ⊢
  rw [henter]
  refine ⟨hrings, ?_, hnum, hsent, ?_, ?_, ?_⟩
  · refine forall_ring rx ?_ ?_
    · rw [hown, hpost]
      exact h.post rx
    · rw [hother]
      exact h.post _
  · refine forall_ring rx ?_ ?_
    · dsimp only
      rw [hown, hids, h.ids rx]
    · dsimp only
      rw [hother, h.ids]
  · exact entries_moved h hphase fun e hpe =>
      absurd hpe (by simp only [Phase.entry, reduceCtorEq, not_false_eq_true])
  -- What was in progress is lost now; the sum only grows by what the loop took.
  · have hweight : weight { l with
        sys := t
        posted := l.posted
        lost := Function.update l.lost n
          (l.lost n + 1 + (postBuf (l.sys.dev.ring rx) buf sw).2.2) } =
        Function.update (weight l) n
          (weight l n + (postBuf (l.sys.dev.ring rx) buf sw).2.2) := by
      funext m
      have hended := busy_ended hnserial fun c' hc' => h.numbered.distinct c' c n hc' hnserial
      by_cases hm : m = n
      · rw [hm, Function.update_self, weight_of_inProgress hnserial]
        unfold weight
        simp only
        rw [hphase, hended, Function.update_self, Function.update_self]
        change outstanding l n + 0 + _ = _
        omega
      · rw [Function.update_of_ne hm]
        unfold weight
        simp only
        rw [hphase, hended, Function.update_of_ne hm, Function.update_of_ne hm]
        rfl
    have hheld := held_posted h rx buf he
    rw [← hweight, ← hdev, ← hserial] at hheld
    exact hheld

/-- The end of a submission, which drops its own reference. -/
theorem balanced_put {l : Ledger} (h : Balanced l) {c sw n : Nat} {t : System}
    (hnum : Numbered t) (hsent : Sent t l.lost) (hrings : RingsWf t.dev)
    (hp : l.sys.phase c = .txPosted sw n) (hdev : t.dev = (putAndFree l.sys.dev sw).1)
    (hphase : t.phase = Function.update l.sys.phase c .idle) (hserial : t.serial = l.sys.serial)
    (pending : List Nat) :
    Balanced { l with
      sys := t
      freed := l.freed ++ if (putAndFree l.sys.dev sw).2 = [] then [] else [n]
      pending := pending } := by
  have he : (l.sys.phase c).entry = some (sw, n) := by rw [hp]; rfl
  have hnserial := Phase.serial_of_entry he
  have hdesc : l.descOf n = sw := h.entries c sw n he
  have hring : ∀ rx, t.dev.ring rx = l.sys.dev.ring rx := by
    intro rx
    rw [hdev, putAndFree_ring]
  refine ⟨hrings, ?_, hnum, hsent, ?_, ?_, ?_⟩
  · intro rx
    rw [hring]
    exact h.post rx
  · intro rx
    rw [hring]
    exact h.ids rx
  · exact entries_moved h hphase fun e hpe =>
      absurd hpe (by simp only [Phase.entry, reduceCtorEq, not_false_eq_true])
  -- The caller's own reference goes: the weight of `n` drops by one and no other changes.
  · have hpool := (putAndFree_pool l.sys.dev sw).1
    have hgone : (if (putAndFree l.sys.dev sw).2 = [] then [] else [n]) =
        if (l.sys.dev.pool.put (l.descOf n)).2 then [n] else [] := by
      rw [hdesc, putAndFree_entered]
    have hweight : weight { l with
        sys := t
        freed := l.freed ++ if (putAndFree l.sys.dev sw).2 = [] then [] else [n]
        pending := pending } = Function.update (weight l) n (weight l n - 1) := by
      funext m
      have hended := busy_ended hnserial fun c' hc' => h.numbered.distinct c' c n hc' hnserial
      unfold weight
      simp only
      rw [hphase, hended]
      by_cases hm : m = n
      · rw [hm, Function.update_self, Function.update_self, busy_of_inProgress hnserial]
        change outstanding l n + 0 + l.lost n = outstanding l n + 1 + l.lost n - 1
        omega
      · rw [Function.update_of_ne hm, Function.update_of_ne hm]
        rfl
    have hput := held_put h.held (weight_pos_of_entry he)
    rw [← hweight, ← hgone, hdesc, ← hpool, ← hdev, ← hserial] at hput
    exact hput

/-- What a round takes back are the descriptors of the oldest entries. -/
theorem taken_back {l : Ledger} (h : Balanced l) (rx : Bool) {r : BdRing} {k : Nat}
    (hfrom : bdRingFromHw (l.sys.dev.ring rx) bdNum = (r, k)) :
    ((l.posted rx).take k).length = k ∧
      Tagged l.descOf ((l.sys.dev.setRing rx r).ring rx) (l.sys.dev.ring rx).hwHead
        ((l.posted rx).take k) := by
  have hc := (h.rings rx).counts
  have hle := (bdRingFromHw_spec (l.sys.dev.ring rx) bdNum).1
  have hall := bdRingFromHw_allCnt (l.sys.dev.ring rx) bdNum
  have hbd := bdRingFromHw_bd (l.sys.dev.ring rx) bdNum
  rw [hfrom] at hle hall hbd
  have hlen : (l.posted rx).length = (l.sys.dev.ring rx).hwCnt := by
    rw [← hwIds_length, h.ids, List.length_map]
  have htags : ((l.posted rx).take k).length = k := List.length_take_of_le (hlen.symm ▸ hle)
  rw [AesDev.ring_setRing]
  refine ⟨htags, ?_, ?_, ?_⟩
  · rw [hall]
    exact (h.rings rx).hwHead_lt
  · rw [htags, hall]
    omega
  · rw [htags, List.map_take, ← h.ids, hwIds_take _ hle]
    refine idsFrom_congr hall fun i _ => ?_
    rw [hbd]

/-- A round of a bottom half, which drops one reference for each descriptor it
    takes back. -/
theorem balanced_reclaimed {l : Ledger} (h : Balanced l) (rx : Bool) {t : System}
    (hnum : Numbered t) (hsent : Sent t l.lost) (hrings : RingsWf t.dev)
    (hdev : t.dev = (reclaim rx l.sys.dev).1) (hphase : t.phase = l.sys.phase)
    (hserial : t.serial = l.sys.serial) (pending : List Nat) {r : BdRing} {k : Nat}
    (hfrom : bdRingFromHw (l.sys.dev.ring rx) bdNum = (r, k)) :
    Balanced { l with
      sys := t
      posted := Function.update l.posted rx ((l.posted rx).drop k)
      freed := l.freed ++ lastPuts rx ((l.posted rx).take k) (l.sys.dev.setRing rx r)
        (l.sys.dev.ring rx).hwHead
      pending := pending } := by
  have hwf := h.rings rx
  have hpostCnt := h.post rx
  have hids := h.ids rx
  have hown : t.dev.ring rx = (roundRing (l.sys.dev.ring rx) bdNum).1 :=
    hdev ▸ (reclaim_ring rx l.sys.dev).1
  have hother : t.dev.ring (!rx) = l.sys.dev.ring (!rx) := hdev ▸ (reclaim_ring rx l.sys.dev).2
  have hne : (!rx) ≠ rx := by
    cases rx <;> decide
  refine ⟨hrings, ?_, hnum, hsent, ?_, ?_, ?_⟩
  · refine forall_ring rx ?_ ?_
    · rw [hown, (roundRing_spec hwf hpostCnt bdNum).2.2]
    · rw [hother]
      exact h.post _
  · refine forall_ring rx ?_ ?_
    · dsimp only
      rw [hown, hwIds_round hwf hpostCnt, hids, hfrom, Function.update_self, List.map_drop]
    · dsimp only
      rw [hother, h.ids, Function.update_of_ne hne]
  · intro c sw n he
    change (t.phase c).entry = _ at he
    rw [hphase] at he
    exact h.entries c sw n he
  -- What the round takes back is a front part of the entries, and the loop drops
  -- one reference for each of them.
  · rcases taken_back h rx hfrom with ⟨hlen, htags⟩
    have hweight : weight l = fun m => ((l.posted rx).take k).count m +
        weight { l with
          sys := t
          posted := Function.update l.posted rx ((l.posted rx).drop k)
          freed := l.freed ++ lastPuts rx ((l.posted rx).take k) (l.sys.dev.setRing rx r)
            (l.sys.dev.ring rx).hwHead
          pending := pending } m := by
      funext m
      unfold weight outstanding
      simp only [hphase]
      rw [outstanding_drop l.posted rx k m]
      omega
    have hheld := h.held
    rw [hweight, ← setRing_pool l.sys.dev rx r] at hheld
    have hloop := cleanLoop_held rx _ _ _ _ _ htags hheld
    have hpool : t.dev.pool =
        (cleanLoop rx k (l.sys.dev.setRing rx r) (l.sys.dev.ring rx).hwHead).1.pool := by
      rw [hdev, reclaim, hfrom]
      exact setRing_pool _ _ _
    rw [hlen, ← hpool, ← hserial] at hloop
    exact hloop

end Entries

/-- Every step keeps the books. -/
theorem step_balanced {env : Env} {l l' : Ledger} {e : Event} (h : Balanced l)
    (hs : ledgerStep env l e = some l') : Balanced l' := by
  unfold ledgerStep at hs
  rw [Option.map_eq_some_iff] at hs
  rcases hs with ⟨t, ht, rfl⟩
  have hrings := step_ringsWf ht h.rings
  have hnum := step_numbered ht h.numbered
  have hsent := step_sent ht h.numbered h.sent
  cases step_stepped ht with
  | refused c rq =>
      simp only [enter, if_true]
      exact h
  | submitted c rq hp =>
      have hne : l.sys.serial + 1 ≠ l.sys.serial := Nat.succ_ne_self _
      simp only [enter, System.setPhase, hne, if_false] at hsent ⊢
      exact balanced_submitted h hnum hsent hrings hp rfl
  -- Queueing moves the descriptor to the hardware list, which holds no reference.
  | queued c jiffies sw n hp =>
      refine balanced_same h hnum hsent hrings ?_ ?_ ?_ (hwSection_pool ..) rfl _ _
      · intro rx
        change ((hwSection env jiffies l.sys.dev sw).ring rx).postCnt = _ ∧
          hwIds ((hwSection env jiffies l.sys.dev sw).ring rx) = _
        rw [hwSection_ring]
        exact ⟨rfl, rfl⟩
      · refine carried_moved ?_
        rw [hp]
        exact fun _ he => he
      · refine busy_moved ?_
        rw [hp]
        rfl
  | rxDone c sw n hp hpost =>
      simp only [enter, hp] at hsent ⊢
      exact balanced_posted h true hnum hsent hrings (by rw [hp]; rfl) rfl hpost rfl rfl rfl
  | rxFailed c sw n hp hbad =>
      simp only [enter, hp] at hsent ⊢
      exact balanced_failed h true hnum hsent hrings (by rw [hp]; rfl) hbad rfl rfl rfl
  | txDone c sw n hp hpost =>
      simp only [enter, hp] at hsent ⊢
      exact balanced_posted h false hnum hsent hrings (by rw [hp]; rfl) rfl hpost rfl rfl rfl
  | txFailed c sw n hp hbad =>
      simp only [enter, hp] at hsent ⊢
      exact balanced_failed h false hnum hsent hrings (by rw [hp]; rfl) hbad rfl rfl rfl
  | put c sw n hp =>
      simp only [enter, hp] at hsent ⊢
      exact balanced_put h hnum hsent hrings hp rfl rfl rfl _
  -- The hardware writes status bits only: rings, entries and counts stay.
  | completed rx i eof hn =>
      refine balanced_same h hnum hsent hrings ?_ (fun _ _ he => he) rfl (setRing_pool ..) rfl _ _
      refine forall_ring rx ?_ ?_
      · rw [AesDev.ring_setRing, hwIds_completeBd]
        exact ⟨rfl, rfl⟩
      · rw [AesDev.ring_setRing_not]
        exact ⟨rfl, rfl⟩
  | reclaimed rx =>
      simp only [enter]
      exact balanced_reclaimed h rx hnum hsent hrings rfl rfl rfl _ rfl
  | released sw hm =>
      simp only [enter]
      refine balanced_same h hnum hsent hrings ?_ (fun _ _ he => he) rfl
        (aesFreeDescRest_pool ..) rfl _ _
      intro rx
      change ((aesFreeDescRest l.sys.dev sw).ring rx).postCnt = _ ∧
        hwIds ((aesFreeDescRest l.sys.dev sw).ring rx) = _
      rw [aesFreeDescRest_ring]
      exact ⟨rfl, rfl⟩

theorem init_balanced {num : Nat} (hnum : 0 < num) : Balanced (Ledger.init num) := by
  have hidle : ∀ n, busy (System.init num).phase n = 0 := by
    intro n
    refine if_neg ?_
    rintro ⟨c, hc⟩
    exact absurd hc (by simp only [System.init, Phase.serial, reduceCtorEq, not_false_eq_true])
  have hnone : ∀ n, weight (Ledger.init num) n = 0 := by
    intro n
    have hout : outstanding (Ledger.init num) n = 0 := rfl
    unfold weight
    rw [hout, Nat.zero_add]
    exact hidle n
  have hfree : ∀ n, ¬ 0 < weight (Ledger.init num) n := by
    intro n
    rw [hnone]
    exact Nat.lt_irrefl 0
  have hsent : Sent (Ledger.init num).sys (Ledger.init num).lost :=
    ⟨fun _ hn => absurd hn List.not_mem_nil, fun _ _ _ => List.not_mem_nil,
      fun n hn => absurd hn (Nat.lt_irrefl 0)⟩
  refine ⟨init_ringsWf hnum, ?_, init_numbered num, hsent, ?_, ?_, ?_⟩
  · intro rx
    cases rx <;> rfl
  · intro rx
    cases rx <;> rfl
  · intro c sw n he
    exact absurd he (by simp only [Ledger.init, System.init, Phase.entry, reduceCtorEq,
      not_false_eq_true])
  · refine ⟨fun n hn => absurd hn (hfree n), fun n _ hn => absurd hn (hfree n),
      fun n hn => absurd hn (hfree n), fun n hn => absurd hn (hfree n), List.nodup_range', ?_, ?_⟩
    · intro x hx
      have hlt := (List.mem_range'_1.mp hx).2
      rw [Nat.zero_add] at hlt
      exact hlt
    · intro n
      exact (if_neg fun hn => absurd hn.1 (Nat.not_lt_zero n)).symm

/-- The books of a run in which no posting fails: every submission that is
    through was posted on both rings, and nothing is lost. -/
structure Unfailing (l : Ledger) : Prop where
  balanced : Balanced l
  logged : Logged l.sys
  noLoss : l.lost = fun _ => 0

theorem step_unfailing {env : Env} {l l' : Ledger} {e : Event} (h : Unfailing l)
    (hok : Succeeds l e) (hs : ledgerStep env l e = some l') : Unfailing l' := by
  have hbal := step_balanced h.balanced hs
  unfold ledgerStep at hs
  rw [Option.map_eq_some_iff] at hs
  rcases hs with ⟨t, ht, rfl⟩
  refine ⟨hbal, ?_, ?_⟩
  · have hsys : (enter l t e).sys = t := by
      cases e with
      | submit c rq => simp only [enter]; split <;> rfl
      | rx c => simp only [enter]; split <;> rfl
      | tx c => simp only [enter]; split <;> rfl
      | put c => simp only [enter]; split <;> rfl
      | _ => rfl
    rw [hsys]
    exact step_logged ht hok h.logged
  -- Nothing is lost: the two failing postings are the ones `hok` excludes.
  · refine Eq.trans ?_ h.noLoss
    cases step_stepped ht with
    | refused c rq => simp only [enter, if_true]
    | submitted c rq hp =>
        simp only [enter]
        split <;> rfl
    | rxDone c sw n hp hpost =>
        simp only [enter, hp]
        exact enterLost_ok n hpost
    | rxFailed c sw n hp hbad => exact absurd (hok sw n hp) hbad
    | txDone c sw n hp hpost =>
        simp only [enter, hp]
        exact enterLost_ok n hpost
    | txFailed c sw n hp hbad => exact absurd (hok sw n hp) hbad
    | put c sw n hp => simp only [enter, hp]
    | _ => rfl

theorem init_unfailing {num : Nat} (hnum : 0 < num) : Unfailing (Ledger.init num) :=
  ⟨init_balanced hnum, ⟨fun n hn => absurd hn (Nat.not_lt_zero n),
    fun n hn => absurd hn (Nat.not_lt_zero n)⟩, rfl⟩

/-- Books that balance without a loss say what each submission holds. -/
theorem counted_of_unfailing {l : Ledger} (h : Unfailing l) : Counted l := by
  have hgone := h.balanced.held.gone
  have hlost : ∀ n, l.lost n = 0 := congrFun h.noLoss
  have hfreed : ∀ n, 0 < weight l n → l.freed.count n = 0 := by
    intro n hn
    rw [hgone n, if_neg (by omega)]
  have hidle : ∀ n, ¬ InProgress l.sys n → weight l n = outstanding l n := by
    intro n hn
    have hbusy : busy l.sys.phase n = 0 := if_neg hn
    have hnone := hlost n
    unfold weight
    omega
  -- In progress, with entries left, and over: the three cases of `Counted`.
  refine ⟨h.balanced.ids, ?_, ?_, ?_⟩
  · rintro n ⟨c, hc⟩
    have hweight : weight l n = outstanding l n + 1 := by
      rw [weight_of_inProgress hc, hlost, Nat.add_zero]
    have hpos : 0 < weight l n := by omega
    have hrefs := h.balanced.held.refs n hpos
    rw [hweight] at hrefs
    exact ⟨hrefs, hfreed n hpos⟩
  · intro n hn hout
    have hpos : 0 < weight l n := by
      rw [hidle n hn]
      exact hout
    have hrefs := h.balanced.held.refs n hpos
    rw [hidle n hn] at hrefs
    exact ⟨hrefs, hfreed n hpos⟩
  · intro n hlt hn hout
    refine ⟨?_, logged_of_done h.logged hlt hn⟩
    rw [hgone n, if_pos ⟨hlt, (hidle n hn).trans hout⟩]

/-- In every state that successful submissions and reclaim rounds lead to, the
    reference counts are what the submissions hold. -/
theorem run_counted (env : Env) {num : Nat} (hnum : 0 < num) {es : List Event} {l : Ledger}
    (h : Run (ledgerStep env) Succeeds (Ledger.init num) es l) : Counted l :=
  counted_of_unfailing (run_inv (fun _ _ _ hi hc hs => step_unfailing hi hc hs) h
    (init_unfailing hnum))

/-- A request whose RX descriptor comes back before the submission is through. -/
theorem run_counted_early_reclaim :
    ∃ l, Run (ledgerStep plainEnv) Succeeds (Ledger.init bdNum)
      [.submit 0 (blockRequest 1 0), .queue 0 0, .rx 0, .tx 0, .complete true 0 true,
        .reclaim true, .put 0, .complete false 0 false, .reclaim false] l ∧
      l.freed = [0] ∧ Counted l := by
  have hrun : ∃ l, Run (ledgerStep plainEnv) Succeeds (Ledger.init bdNum)
      [.submit 0 (blockRequest 1 0), .queue 0 0, .rx 0, .tx 0, .complete true 0 true,
        .reclaim true, .put 0, .complete false 0 false, .reclaim false] l ∧ l.freed = [0] := by
    refine ⟨_, Run.cons _ _ _ _ _ rfl trivial (Run.cons _ _ _ _ _ rfl trivial
      (Run.cons _ _ _ _ _ rfl ?_ (Run.cons _ _ _ _ _ rfl ?_
      (Run.cons _ _ _ _ _ rfl trivial (Run.cons _ _ _ _ _ rfl trivial
      (Run.cons _ _ _ _ _ rfl trivial (Run.cons _ _ _ _ _ rfl trivial
      (Run.cons _ _ _ _ _ rfl trivial (Run.nil _))))))))), rfl⟩
    · intro sw n hp
      cases hp
      rfl
    · intro sw n hp
      cases hp
      rfl
  rcases hrun with ⟨l, hrun, hfreed⟩
  exact ⟨l, hrun, hfreed, run_counted plainEnv bdNum_pos hrun⟩

end Driver

end Ml605
