import Ml605.Scst.BlockioLifetime

/-!
# Completion of a Write Command

When `scst_cmd_done` is called for a write, compared with the ends of its
bios and with the sense data they leave behind.

Without AES every path to `scst_cmd_done` leads through the last reference on
the in-flight counter, so the call comes after every bio has ended and after
every failed one has loaded the write-error sense. `Covered` is the part of
that argument the counter does not give: each bio is either in the log
already or still carried by some pending activity, and with nothing pending
only the first is left.

With AES the call is made by `blockio_aes_submit`, before the data has even
been encrypted. The bios end later, and an error among them has nobody left
to be reported to.

## Main definitions

* `carries`: The bios an activity still has to see through.
* `Covered`: Every bio has ended or is still carried.
* `ReportsAfterBios`: The completion law for one state of a write command.

## Theorems

* `checkFinish_log`: The last check, and only the last, reports the command.
* `blockioEndio_held`: What the end of a bio adds to the log.
* `step_covered`: Every activity of a plain write keeps the bios covered.
* `step_quiet`: An encrypted write without bios never logs anything more.
* `write_reportsAfterBios_iff`: The law holds exactly without AES, or without
  any bio.
-/

namespace Ml605

namespace Scst

open Lib

/-- The bios an activity still has to submit or to end. -/
def carries : Task → List Nat
  | .execSubmit hbio => hbio
  | .workSubmit hbio => hbio
  | .bioEndio b => [b]
  | _ => []

/-- The completion law of a write: `scst_cmd_done` is called at most once, and
    exactly once when the schedule is over; by then every bio has ended; and
    if a bio fails, at whatever time, the write-error sense was set first. -/
structure ReportsAfterBios (c : Command) (s : State) : Prop where
  atMostOnce : s.log.count LogEvent.cmdDone ≤ 1
  finished : s.pending = [] → s.log.count LogEvent.cmdDone = 1
  afterBios : ∀ before after, s.log = before ++ LogEvent.cmdDone :: after →
    ∀ i < c.bios, ∃ error, LogEvent.bioEnded i error ∈ before
  senseFirst : ∀ before after, s.log = before ++ LogEvent.cmdDone :: after →
    ∀ i error, LogEvent.bioEnded i error ∈ s.log → error ≠ 0 →
      LogEvent.senseSet Sense.writeError ∈ before

/-- The state of a plain write between two activities. -/
structure Covered (c : Command) (s : State) : Prop where
  plain : ∀ t ∈ s.pending, (∃ hbio, t = Task.execSubmit hbio) ∨ ∃ b, t = Task.bioEndio b
  covered : ∀ i < c.bios, (∃ error, LogEvent.bioEnded i error ∈ s.log) ∨
    ∃ t ∈ s.pending, i ∈ carries t
  sensed : ∀ i error, LogEvent.bioEnded i error ∈ s.log → error ≠ 0 →
    LogEvent.senseSet Sense.writeError ∈ s.log

/-- The report is the very last entry of the log, made when nothing is left. -/
structure ReportedLast (s : State) : Prop where
  opened : s.pending ≠ [] → LogEvent.cmdDone ∉ s.log
  closed : s.pending = [] → ∃ before, s.log = before ++ [LogEvent.cmdDone] ∧
    LogEvent.cmdDone ∉ before

/-- What the end of a bio adds to the log. -/
def endioLog (c : Command) (b : Nat) (st : BioStatus) : List LogEvent :=
  LogEvent.bioEnded b (endioError st) ::
    if endioError st = 0 then [] else [LogEvent.senseSet (endioSense c)]

theorem blockioEndio_held (c : Command) (b : Nat) (st : BioStatus) (k : Nat) (s : State)
    (h : Held k s) :
    blockioEndio c b st s = blockioCheckFinish c { s with log := s.log ++ endioLog c b st } := by
  have h1 := held_log k s (s.log ++ [LogEvent.bioEnded b (endioError st)]) h
  by_cases he : endioError st = 0
  · simp only [blockioEndio, endioLog, derefWork_held k s h, if_pos he]
  · simp only [blockioEndio, endioLog, derefWork_held k s h, if_neg he, derefWork_held k _ h1,
      List.append_assoc, List.cons_append, List.nil_append]

/-- Without AES the last check reports the command; any other check leaves the
    log alone. -/
theorem checkFinish_log (c : Command) (haes : c.aes = false) (s : State) (h : Held 1 s) :
    (blockioCheckFinish c s).pending = s.pending ∧
      (blockioCheckFinish c s).log =
        if s.pending = [] then s.log ++ [LogEvent.cmdDone] else s.log := by
  have hcnt := h.counter
  by_cases hp : s.pending = []
  · have hz : s.biosInflight - 1 = 0 := by
      simp only [owned, hp, List.map_nil, List.sum_nil] at hcnt
      omega
    simp only [blockioCheckFinish, derefWork, hz, if_true, haes, Bool.false_eq_true, if_false,
      kmemCacheFree, scstCmdDone, hp, and_self]
  · have hpos := owned_pos s h.clean hp
    have hnz : ¬ (s.biosInflight - 1 = 0) := by omega
    simp only [blockioCheckFinish, derefWork, hnz, if_false, hp, and_self]

/-- A check keeps the bios covered and reports at the right time. The running
    activity must not carry a bio of its own any more. -/
theorem checkFinish_covered (c : Command) (haes : c.aes = false) (s : State) (h : Held 1 s)
    (hc : Covered c s) (hnot : LogEvent.cmdDone ∉ s.log) :
    Covered c (blockioCheckFinish c s) ∧ ReportedLast (blockioCheckFinish c s) := by
  rcases checkFinish_log c haes s h with ⟨hpend, hlog⟩
  by_cases hp : s.pending = []
  -- The last reference: the report is appended, and every bio has ended by then.
  · rw [if_pos hp] at hlog
    refine ⟨⟨?_, ?_, ?_⟩, ⟨?_, ?_⟩⟩
    · rw [hpend]
      exact hc.plain
    · intro i hi
      rw [hpend, hlog]
      rcases hc.covered i hi with ⟨er, her⟩ | ht
      · exact Or.inl ⟨er, List.mem_append_left _ her⟩
      · exact Or.inr ht
    · intro i er hmem hne
      rw [hlog] at hmem ⊢
      simp only [List.mem_append, List.mem_singleton, reduceCtorEq, or_false] at hmem
      exact List.mem_append_left _ (hc.sensed i er hmem hne)
    · intro hne
      rw [hpend] at hne
      exact absurd hp hne
    · intro _
      exact ⟨s.log, hlog, hnot⟩
  -- Something is still pending: nothing is logged.
  · rw [if_neg hp] at hlog
    refine ⟨⟨?_, ?_, ?_⟩, ⟨?_, ?_⟩⟩
    · rw [hpend]
      exact hc.plain
    · rw [hpend, hlog]
      exact hc.covered
    · rw [hlog]
      exact hc.sensed
    · intro _
      rw [hlog]
      exact hnot
    · intro hne
      rw [hpend] at hne
      exact absurd hne hp

/-- The end of a bio loads the sense together with the error. -/
theorem endioLog_sensed (c : Command) (hw : c.write = true) (b : Nat) (st : BioStatus) (i : Nat)
    (er : Int) (hmem : LogEvent.bioEnded i er ∈ endioLog c b st) (hne : er ≠ 0) :
    LogEvent.senseSet Sense.writeError ∈ endioLog c b st := by
  by_cases he : endioError st = 0
  · simp only [endioLog, if_pos he, List.mem_singleton, LogEvent.bioEnded.injEq] at hmem
    rw [he] at hmem
    exact absurd hmem.2 hne
  · simp only [endioLog, if_neg he, endioSense, hw, if_true, List.mem_cons, reduceCtorEq,
      List.not_mem_nil, or_false, false_or]

theorem cmdDone_notMem_endioLog (c : Command) (b : Nat) (st : BioStatus) :
    LogEvent.cmdDone ∉ endioLog c b st := by
  simp only [endioLog]
  split <;> simp only [List.mem_cons, reduceCtorEq, List.not_mem_nil, or_self, not_false_eq_true]

/-- Every activity of a plain write keeps the bios covered. -/
theorem step_covered (c : Command) (haes : c.aes = false) (hw : c.write = true) (s : State)
    (e : Event) (s' : State) (hinv : Balanced c s ∧ Covered c s ∧ ReportedLast s)
    (hstep : step c s e = some s') : Balanced c s' ∧ Covered c s' ∧ ReportedLast s' := by
  rcases hinv with ⟨hb, hc, hr⟩
  have hgood : c.aes = true → c.write = true := fun _ => hw
  refine ⟨step_balanced c hgood s e s' hb hstep, ?_⟩
  rcases step_eq c s s' e hstep with ⟨t, rest, hp, rfl⟩
  have hh := held_of_balanced c s t rest hb hp
  have hnot := hr.opened (pending_ne_nil_of_perm hp)
  have hplain : ∀ u ∈ rest, (∃ hbio, u = Task.execSubmit hbio) ∨ ∃ b, u = Task.bioEndio b :=
    fun u hu => hc.plain u (hp.subset (List.mem_cons_of_mem t hu))
  -- A bio is in the log, with the activity that runs, or with the rest.
  have hcov : ∀ i < c.bios, (∃ er, LogEvent.bioEnded i er ∈ s.log) ∨ i ∈ carries t ∨
      ∃ u ∈ rest, i ∈ carries u := by
    intro i hi
    rcases hc.covered i hi with hl | ⟨u, hu, hiu⟩
    · exact Or.inl hl
    · rcases List.mem_cons.mp (hp.symm.subset hu) with rfl | hu'
      · exact Or.inr (Or.inl hiu)
      · exact Or.inr (Or.inr ⟨u, hu', hiu⟩)
  rcases hc.plain t (hp.subset List.mem_cons_self) with ⟨hbio, rfl⟩ | ⟨b, rfl⟩
  · cases hbio with
    | nil =>
        -- The end of the loop only drops its reference.
        refine checkFinish_covered c haes _ hh ⟨hplain, fun i hi => ?_, hc.sensed⟩ hnot
        rcases hcov i hi with hl | hm | hu
        · exact Or.inl hl
        · exact absurd hm List.not_mem_nil
        · exact Or.inr hu
    | cons b bs =>
        -- The bio moves from the loop to an activity of its own.
        simp only [runTask]
        refine ⟨⟨?_, ?_, hc.sensed⟩, ⟨fun _ => hnot, fun hnil => ?_⟩⟩
        · intro u hu
          simp only [spawn, List.mem_append, List.mem_singleton] at hu
          rcases hu with (hu | rfl) | rfl
          · exact hplain u hu
          · exact Or.inr ⟨b, rfl⟩
          · exact Or.inl ⟨bs, rfl⟩
        · intro i hi
          rcases hcov i hi with hl | hm | ⟨u, hu, hiu⟩
          · exact Or.inl hl
          · refine Or.inr ?_
            rcases List.mem_cons.mp hm with rfl | hm'
            · exact ⟨Task.bioEndio i, by simp only [spawn, List.mem_append, List.mem_singleton,
                or_true, true_or], List.mem_singleton.mpr rfl⟩
            · exact ⟨Task.execSubmit bs, by simp only [spawn, List.mem_append,
                List.mem_singleton, or_true], hm'⟩
          · exact Or.inr ⟨u, by simp only [spawn, List.mem_append]; exact Or.inl (Or.inl hu), hiu⟩
        · exact absurd hnil (spawn_pending_ne_nil _ _)
  · -- The bio moves into the log, together with the sense if it failed.
    simp only [runTask, blockioEndio_held c b e.2 _ _ hh]
    refine checkFinish_covered c haes _ (held_log _ _ _ hh) ⟨hplain, ?_, ?_⟩ ?_
    · intro i hi
      rcases hcov i hi with ⟨er, her⟩ | hm | hu
      · exact Or.inl ⟨er, List.mem_append_left _ her⟩
      · rw [List.mem_singleton.mp hm]
        exact Or.inl ⟨endioError e.2, List.mem_append_right _ List.mem_cons_self⟩
      · exact Or.inr hu
    · intro i er hmem her
      rcases List.mem_append.mp hmem with hmem | hmem
      · exact List.mem_append_left _ (hc.sensed i er hmem her)
      · exact List.mem_append_right _ (endioLog_sensed c hw b e.2 i er hmem her)
    · intro hmem
      rcases List.mem_append.mp hmem with hmem | hmem
      · exact hnot hmem
      · exact cmdDone_notMem_endioLog c b e.2 hmem

theorem blockioExecRw_covered (c : Command) (haes : c.aes = false) :
    Covered c (blockioExecRw c) ∧ ReportedLast (blockioExecRw c) := by
  rw [blockioExecRw_submits c (by rw [haes, Bool.false_and])]
  refine ⟨⟨?_, ?_, ?_⟩, ⟨?_, ?_⟩⟩
  · intro t ht
    exact Or.inl ⟨_, List.mem_singleton.mp ht⟩
  · intro i hi
    exact Or.inr ⟨_, List.mem_singleton.mpr rfl, List.mem_range.mpr hi⟩
  · intro i er hmem
    exact absurd hmem List.not_mem_nil
  · intro _
    exact List.not_mem_nil
  · intro hnil
    exact absurd hnil (spawn_pending_ne_nil _ _)

/-- A log whose only report is its last entry splits at a report in one way. -/
theorem split_at_last {before before' after : List LogEvent}
    (hnot : LogEvent.cmdDone ∉ before)
    (h : before ++ [LogEvent.cmdDone] = before' ++ LogEvent.cmdDone :: after) :
    before' = before := by
  rcases List.append_eq_append_iff.mp h with ⟨m, hb', hm⟩ | ⟨m, hb, hm⟩
  · cases m with
    | nil => rw [hb', List.append_nil]
    | cons x xs =>
        exfalso
        have hlen := congrArg List.length hm
        simp only [List.length_cons, List.length_nil, List.length_append] at hlen
        omega
  · cases m with
    | nil => rw [hb, List.append_nil]
    | cons x xs =>
        exfalso
        rw [List.cons_append, List.cons.injEq] at hm
        apply hnot
        rw [hb, ← hm.1]
        exact List.mem_append_right _ List.mem_cons_self

/-- A plain write obeys the completion law between any two activities. -/
theorem reports_of_covered (c : Command) (s : State) (hc : Covered c s) (hr : ReportedLast s) :
    ReportsAfterBios c s := by
  by_cases hp : s.pending = []
  · -- The report is the last entry, so all of the log comes before it.
    rcases hr.closed hp with ⟨a, hlog, hnot⟩
    have hcount : s.log.count LogEvent.cmdDone = 1 := by
      rw [hlog, List.count_append, List.count_eq_zero.mpr hnot]
      decide
    refine ⟨by omega, fun _ => hcount, ?_, ?_⟩
    · intro a' b hsplit i hi
      rw [hlog] at hsplit
      rw [split_at_last hnot hsplit]
      rcases hc.covered i hi with ⟨er, her⟩ | ⟨t, ht, _⟩
      · rw [hlog] at her
        simp only [List.mem_append, List.mem_singleton, reduceCtorEq, or_false] at her
        exact ⟨er, her⟩
      · rw [hp] at ht
        exact absurd ht List.not_mem_nil
    · intro a' b hsplit i er hmem hne
      have hs := hc.sensed i er hmem hne
      rw [hlog] at hsplit hs
      rw [split_at_last hnot hsplit]
      simpa only [List.mem_append, List.mem_singleton, reduceCtorEq, or_false] using hs
  · have hnot := hr.opened hp
    have habs : ∀ a b, s.log ≠ a ++ LogEvent.cmdDone :: b := by
      intro a b hsplit
      apply hnot
      rw [hsplit]
      exact List.mem_append_right _ List.mem_cons_self
    refine ⟨by rw [List.count_eq_zero.mpr hnot]; omega, fun hnil => absurd hnil hp, ?_, ?_⟩
    · intro a b hsplit
      exact absurd hsplit (habs a b)
    · intro a b hsplit
      exact absurd hsplit (habs a b)

/-- An encrypted write without any bio: the report is made at once and nothing
    that is still pending has anything to add. -/
structure Quiet (s : State) : Prop where
  log : s.log = [LogEvent.cmdDone]
  chain : s.hbio = []
  tasks : ∀ t ∈ s.pending, t = Task.writeAesCb ∨ t = Task.aesWrite ∨ t = Task.workSubmit []

theorem quiet_spawn (t : Task) (s : State) (h : Quiet s)
    (ht : t = Task.writeAesCb ∨ t = Task.aesWrite ∨ t = Task.workSubmit []) :
    Quiet (spawn t s) := by
  refine ⟨h.log, h.chain, fun u hu => ?_⟩
  simp only [spawn, List.mem_append, List.mem_singleton] at hu
  rcases hu with hu | rfl
  · exact h.tasks u hu
  · exact ht

theorem step_quiet (c : Command) (haes : c.aes = true) (hw : c.write = true) (s : State)
    (e : Event) (s' : State) (h : Quiet s) (hstep : step c s e = some s') : Quiet s' := by
  rcases step_eq c s s' e hstep with ⟨t, rest, hp, rfl⟩
  have hrest : Quiet { s with pending := rest } :=
    ⟨h.log, h.chain, fun u hu => h.tasks u (hp.subset (List.mem_cons_of_mem t hu))⟩
  rcases h.tasks t (hp.subset List.mem_cons_self) with rfl | rfl | rfl
  · exact quiet_spawn _ _ ⟨hrest.log, hrest.chain, hrest.tasks⟩ (Or.inr (Or.inl rfl))
  · refine quiet_spawn _ _ ⟨hrest.log, hrest.chain, hrest.tasks⟩ (Or.inr (Or.inr ?_))
    simp only [derefWork, derefAes, h.chain]
  · simp only [runTask, blockioCheckFinish, haes, hw, if_true]
    split
    · exact ⟨hrest.log, hrest.chain, hrest.tasks⟩
    · exact ⟨hrest.log, hrest.chain, hrest.tasks⟩

theorem reports_of_quiet (c : Command) (hb : c.bios = 0) (s : State) (h : Quiet s) :
    ReportsAfterBios c s := by
  have hcount : s.log.count LogEvent.cmdDone = 1 := by
    rw [h.log]
    decide
  refine ⟨by omega, fun _ => hcount, ?_, ?_⟩
  · intro a b _ i hi
    omega
  · intro a b _ i er hmem
    rw [h.log] at hmem
    exact absurd hmem (by simp only [List.mem_singleton, reduceCtorEq, not_false_eq_true])

/-- **Completion of a write.** Over all orders in which its bios end, its AES
    callback is made and its work item runs, a write calls `scst_cmd_done`
    exactly once, after all its bios and after the sense of any failed one, if
    and only if the device is not encrypted or the write has no bio at all.
    Every schedule ends, so the call is really made. -/
theorem write_reportsAfterBios_iff (aes : Bool) (bios : Nat) :
    (∀ es s, Run (step ⟨true, aes, bios⟩) Free (blockioExecRw ⟨true, aes, bios⟩) es s →
      ReportsAfterBios ⟨true, aes, bios⟩ s ∧ es.length ≤ 2 * bios + 3) ↔
      (aes = false ∨ bios = 0) := by
  constructor
  · intro hall
    cases haes : aes with
    | false => exact Or.inl rfl
    | true =>
        refine Or.inr ?_
        subst haes
        -- Before any step the report is made and no bio has ended.
        have hstart := (hall [] _ (Run.nil _)).1
        by_contra hne
        have hlog : (blockioExecRw ⟨true, true, bios⟩).log = [] ++ LogEvent.cmdDone :: [] := rfl
        rcases hstart.afterBios [] [] hlog 0 (Nat.pos_of_ne_zero hne) with ⟨er, her⟩
        exact absurd her List.not_mem_nil
  · intro hc es s h
    refine ⟨?_, schedule_length_le ⟨true, aes, bios⟩ (fun _ => rfl) es s h⟩
    cases haes : aes with
    | false =>
        subst haes
        have hinv := run_inv
          (fun s e s' hi _ hstep => step_covered ⟨true, false, bios⟩ rfl rfl s e s' hi hstep) h
          ⟨blockioExecRw_balanced _ (fun _ => rfl), blockioExecRw_covered ⟨true, false, bios⟩ rfl⟩
        exact reports_of_covered _ s hinv.2.1 hinv.2.2
    | true =>
        subst haes
        have hb : bios = 0 := by
          rcases hc with hc | hc
          · exact absurd hc (by simp only [Bool.true_eq_false, not_false_eq_true])
          · exact hc
        subst hb
        have hq : Quiet (blockioExecRw ⟨true, true, 0⟩) :=
          ⟨rfl, rfl, fun t ht => Or.inl (List.mem_singleton.mp ht)⟩
        exact reports_of_quiet _ rfl s
          (run_inv (fun s e s' hi _ hstep => step_quiet _ rfl rfl s e s' hi hstep) h hq)

/-- A one-bio write to an encrypted device whose bio fails: the command is
    reported done first and the write-error sense is set when it is too late. -/
theorem aesWrite_failed_bio_reported_done :
    ∃ s, Run (step ⟨true, true, 1⟩) Free (blockioExecRw ⟨true, true, 1⟩)
      [(0, ⟨true, 0⟩), (0, ⟨true, 0⟩), (0, ⟨true, 0⟩), (0, ⟨true, eio⟩), (0, ⟨true, 0⟩)] s ∧
      s.log = [LogEvent.cmdDone, LogEvent.bioEnded 0 eio, LogEvent.senseSet Sense.writeError] ∧
      ¬ ReportsAfterBios ⟨true, true, 1⟩ s := by
  refine ⟨_, Run.cons _ _ _ _ _ rfl trivial (Run.cons _ _ _ _ _ rfl trivial
    (Run.cons _ _ _ _ _ rfl trivial (Run.cons _ _ _ _ _ rfl trivial
      (Run.cons _ _ _ _ _ rfl trivial (Run.nil _))))), rfl, ?_⟩
  intro h
  rcases h.afterBios [] _ rfl 0 (by decide) with ⟨er, her⟩
  exact absurd her List.not_mem_nil

end Scst

end Ml605
