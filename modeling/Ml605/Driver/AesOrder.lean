import Ml605.Driver.AesSystem

/-!
# The Order of the Two Rings

The AES core hands back one packet for each packet it is given, in order, and
the RX engine writes them into the RX descriptors, in order. A request is
encrypted into its own buffers only if its place on the RX ring is its place on
the TX ring.

`aes_desc_to_hw` takes two locks one after the other, with a gap between them.
In the gap another caller may run both of its sections and so be second on the
RX ring and first on the TX ring. A submission can also fail on the TX ring
when it is already on the RX ring, and its packet is never sent.

The condition under which the rings agree is therefore about the TX section
alone: the caller that runs it is the one that has been in the gap longest, and
the TX ring accepts its buffer. The submissions in the gap then form a queue,
which the RX sections fill and the TX sections empty.

## Main definitions

* `SameOrder`: The two rings agree, packet by packet.
* `InTurn`: The condition on the TX section.
* `Gap`: The queue of submissions between their two sections.

## Theorems

* `step_gap`: A step in turn keeps the queue.
* `run_sameOrder`: The rings agree as long as every TX section is in turn.
* `overtaken_swaps`: Two callers whose sections interleave swap their packets.
-/

namespace Ml605

namespace Driver

open Lib

/-- The number of a caller between its RX section and its TX section. -/
def Phase.waiting : Phase → Option Nat
  | .rxPosted _ n => some n
  | _ => none

/-- The two rings agree: the requests on the TX ring are on the RX ring in the
    same order, and the packet with a given place on the one is the packet with
    that place on the other. -/
structure SameOrder (s : System) : Prop where
  order : (s.rxLog.filter fun n => n ∈ s.txLog) = s.txLog
  pairing : ∀ (k n : Nat), s.txLog[k]? = some n → s.rxLog[k]? = some n

/-- A TX section is in turn if no other caller has been in the gap longer, and
    if the TX ring accepts the source buffer. -/
def InTurn (s : System) : Event → Prop
  | .tx caller =>
    match s.phase caller with
    | .rxPosted sw n =>
      (∀ c' n', (s.phase c').waiting = some n' → s.rxLog.idxOf n ≤ s.rxLog.idxOf n') ∧
        Accepts s.dev.txRing (s.dev.desc sw).srcBuf
    | _ => True
  | _ => True

/-- The submissions in the gap are those on the RX ring and not on the TX ring,
    and they are the last ones there. -/
def Gap (s : System) : Prop :=
  ∃ waiting : List Nat, s.rxLog = s.txLog ++ waiting ∧
    ∀ n, n ∈ waiting ↔ ∃ c, (s.phase c).waiting = some n

/-- Whoever moves without entering or leaving the gap leaves it as it is. -/
theorem gap_setPhase {s : System} (h : Gap s) (d : AesDev) (ser : Nat) (rel : List Nat) (c : Nat)
    (p : Phase) (hp : p.waiting = (s.phase c).waiting) :
    Gap ({ s with dev := d, serial := ser, releasing := rel }.setPhase c p) := by
  rcases h with ⟨waiting, hlog, hmem⟩
  refine ⟨waiting, hlog, ?_⟩
  have hsame : ∀ c', ((({ s with dev := d, serial := ser, releasing := rel } : System).setPhase
      c p).phase c').waiting = (s.phase c').waiting := by
    intro c'
    by_cases hc : c' = c
    · rw [hc, setPhase_self, hp]
    · rw [setPhase_of_ne _ _ hc]
  intro n
  rw [hmem n]
  constructor
  · rintro ⟨c', hc'⟩
    exact ⟨c', by rw [hsame]; exact hc'⟩
  · rintro ⟨c', hc'⟩
    rw [hsame] at hc'
    exact ⟨c', hc'⟩

/-- A submission enters the gap at its end. -/
theorem gap_rxDone {s : System} (h : Gap s) (d : AesDev) {c sw n : Nat}
    (hp : s.phase c = .queued sw n) :
    Gap ({ s with dev := d, rxLog := s.rxLog ++ [n] }.setPhase c (.rxPosted sw n)) := by
  rcases h with ⟨waiting, hlog, hmem⟩
  -- It is the last on the RX ring and the last of those that wait.
  refine ⟨waiting ++ [n], ?_, ?_⟩
  · change s.rxLog ++ [n] = s.txLog ++ (waiting ++ [n])
    rw [hlog, List.append_assoc]
  intro m
  rw [List.mem_append, List.mem_singleton, hmem m]
  constructor
  · rintro (⟨c', hc'⟩ | heq)
    · refine ⟨c', ?_⟩
      have hne : c' ≠ c := by
        intro hcc
        rw [hcc, hp] at hc'
        exact absurd hc' (by simp only [Phase.waiting, reduceCtorEq, not_false_eq_true])
      rw [setPhase_of_ne _ _ hne]
      exact hc'
    · exact ⟨c, by rw [setPhase_self, heq]; rfl⟩
  · rintro ⟨c', hc'⟩
    by_cases hcc : c' = c
    · rw [hcc, setPhase_self] at hc'
      simp only [Phase.waiting, Option.some.injEq] at hc'
      exact Or.inr hc'.symm
    · rw [setPhase_of_ne _ _ hcc] at hc'
      exact Or.inl ⟨c', hc'⟩

/-- Among the elements behind a prefix, only the first has the least index. -/
theorem eq_head_of_idxOf_le {sent rest : List Nat} {a b : Nat}
    (hnodup : (sent ++ a :: rest).Nodup) (hb : b ∈ a :: rest)
    (hle : (sent ++ a :: rest).idxOf b ≤ (sent ++ a :: rest).idxOf a) : b = a := by
  have hdisj : ∀ m, m ∈ a :: rest → m ∉ sent := by
    intro m hm hsent
    exact (List.nodup_append.mp hnodup).2.2 m hsent m hm rfl
  rw [List.idxOf_append_of_notMem (hdisj b hb),
    List.idxOf_append_of_notMem (hdisj a List.mem_cons_self), List.idxOf_cons_self] at hle
  have hzero : (a :: rest).idxOf b = 0 := by omega
  by_contra hne
  rw [List.idxOf_cons_ne _ (Ne.symm hne)] at hzero
  exact absurd hzero (Nat.succ_ne_zero _)

/-- A submission leaves the gap at its front if it is in turn. -/
theorem gap_txDone {s : System} (h : Gap s) (hnum : Numbered s) (d : AesDev) {c sw n : Nat}
    (hp : s.phase c = .rxPosted sw n)
    (hturn : ∀ c' n', (s.phase c').waiting = some n' → s.rxLog.idxOf n ≤ s.rxLog.idxOf n') :
    Gap ({ s with dev := d, txLog := s.txLog ++ [n] }.setPhase c (.txPosted sw n)) := by
  rcases h with ⟨waiting, hlog, hmem⟩
  have hown : (s.phase c).waiting = some n := by rw [hp]; rfl
  have hin : n ∈ waiting := (hmem n).mpr ⟨c, hown⟩
  have hnodup := hnum.nodup
  rw [hlog] at hnodup
  cases waiting with
  | nil => exact absurd hin List.not_mem_nil
  | cons first rest =>
      -- The front of the queue waits too, so it cannot have waited longer.
      rcases (hmem first).mp List.mem_cons_self with ⟨c', hc'⟩
      have hle := hturn c' first hc'
      rw [hlog] at hle
      have heq : n = first := eq_head_of_idxOf_le hnodup hin hle
      subst heq
      refine ⟨rest, ?_, ?_⟩
      · change s.rxLog = s.txLog ++ [n] ++ rest
        rw [hlog, List.append_assoc]
        rfl
      intro m
      have hnotin : n ∉ rest :=
        (List.nodup_cons.mp (List.nodup_append.mp hnodup).2.1).1
      constructor
      · intro hm
        rcases (hmem m).mp (List.mem_cons_of_mem _ hm) with ⟨c'', hc''⟩
        have hne : c'' ≠ c := by
          intro hcc
          rw [hcc, hown, Option.some.injEq] at hc''
          rw [← hc''] at hm
          exact hnotin hm
        exact ⟨c'', by rw [setPhase_of_ne _ _ hne]; exact hc''⟩
      · rintro ⟨c'', hc''⟩
        by_cases hcc : c'' = c
        · rw [hcc, setPhase_self] at hc''
          exact absurd hc'' (by simp only [Phase.waiting, reduceCtorEq, not_false_eq_true])
        · rw [setPhase_of_ne _ _ hcc] at hc''
          rcases List.mem_cons.mp ((hmem m).mpr ⟨c'', hc''⟩) with heq | hm
          · -- Another caller with the same number is the same caller.
            have hser : ∀ p : Phase, p.waiting = some n → p.serial = some n := by
              intro p hw
              cases p with
              | rxPosted sw' n' => exact hw
              | _ => exact absurd hw (by simp only [Phase.waiting, reduceCtorEq,
                  not_false_eq_true])
            rw [heq] at hc''
            exact absurd (hnum.distinct c'' c n (hser _ hc'') (hser _ hown)) hcc
          · exact hm

theorem init_gap (num : Nat) : Gap (System.init num) := by
  refine ⟨[], rfl, ?_⟩
  intro n
  constructor
  · intro h
    exact absurd h List.not_mem_nil
  · rintro ⟨c, hc⟩
    exact absurd hc (by simp only [System.init, Phase.waiting, reduceCtorEq, not_false_eq_true])

/-- A step in turn keeps the queue. -/
theorem step_gap {env : Env} {s t : System} {e : Event} (hs : step env s e = some t)
    (hturn : InTurn s e) (hnum : Numbered s) (hwf : RingsWf s.dev) (h : Gap s) : Gap t := by
  -- A step that moves no caller leaves the logs and the queue as they are.
  have hdev : ∀ (d : AesDev) (rel : List Nat), Gap { s with dev := d, releasing := rel } :=
    fun _ _ => h
  cases step_stepped hs with
  | refused c rq => exact h
  | submitted c rq hp => exact gap_setPhase h _ _ _ c _ (by rw [hp]; rfl)
  | queued c jiffies sw n hp => exact gap_setPhase h _ _ _ c _ (by rw [hp]; rfl)
  | rxDone c sw n hp hok => exact gap_rxDone h _ hp
  | rxFailed c sw n hp hbad => exact gap_setPhase h _ _ _ c _ (by rw [hp]; rfl)
  | txDone c sw n hp hok =>
      simp only [InTurn, hp] at hturn
      exact gap_txDone h hnum _ hp hturn.1
  | txFailed c sw n hp hbad =>
      -- A TX ring that accepts the buffer does not fail.
      simp only [InTurn, hp] at hturn
      exact absurd ((postBuf_ok_iff (hwf false) _ sw).mpr hturn.2) hbad
  | put c sw n hp => exact gap_setPhase h _ _ _ c _ (by rw [hp]; rfl)
  | completed rx i eof hn => exact hdev _ _
  | reclaimed rx => exact hdev _ _
  | released sw hm => exact hdev _ _

/-- Submissions that form a queue are on both rings in the same order. -/
theorem sameOrder_of_gap {s : System} (hnum : Numbered s) (h : Gap s) : SameOrder s := by
  rcases h with ⟨waiting, hlog, -⟩
  have hnodup := hnum.nodup
  rw [hlog] at hnodup
  have hdisj := (List.nodup_append.mp hnodup).2.2
  constructor
  · -- Of those on the RX ring exactly the ones that wait are not on the TX ring.
    have hsent : (s.txLog.filter fun n => n ∈ s.txLog) = s.txLog := by
      rw [List.filter_eq_self]
      intro n hn
      exact decide_eq_true hn
    have hrest : (waiting.filter fun n => n ∈ s.txLog) = [] := by
      rw [List.filter_eq_nil_iff]
      intro n hn hmem
      exact hdisj n (of_decide_eq_true hmem) n hn rfl
    rw [hlog, List.filter_append, hsent, hrest, List.append_nil]
  · intro k n hk
    have hlt : k < s.txLog.length := (List.getElem?_eq_some_iff.mp hk).1
    rw [hlog, List.getElem?_append_left hlt]
    exact hk

/-- What a run in turn keeps. -/
structure Ordered (s : System) : Prop where
  numbered : Numbered s
  rings : RingsWf s.dev
  gap : Gap s

theorem step_ordered {env : Env} {s t : System} {e : Event} (h : Ordered s) (hturn : InTurn s e)
    (hs : step env s e = some t) : Ordered t :=
  ⟨step_numbered hs h.numbered, step_ringsWf hs h.rings,
    step_gap hs hturn h.numbered h.rings h.gap⟩

/-- As long as every TX section is in turn, the two rings agree, for any number
    of callers and in every state they reach. -/
theorem run_sameOrder (env : Env) {num : Nat} (hnum : 0 < num) {es : List Event} {s : System}
    (h : Run (step env) InTurn (System.init num) es s) : SameOrder s := by
  have hordered : Ordered s :=
    run_inv (fun _ _ _ => step_ordered) h ⟨init_numbered num, init_ringsWf hnum, init_gap num⟩
  exact sameOrder_of_gap hordered.numbered hordered.gap

/-- A caller that is overtaken by none while another one is being prepared. -/
theorem run_sameOrder_two_callers :
    ∃ s, Run (step plainEnv) InTurn (System.init bdNum)
      [.submit 0 (blockRequest 1 0), .queue 0 0, .rx 0, .submit 1 (blockRequest 1 1), .queue 1 0,
        .tx 0, .rx 1] s ∧ s.rxLog = [0, 1] ∧ s.txLog = [0] ∧ SameOrder s := by
  have hwf := bdRingCreate_wf false bdNum_pos
  have hrun : ∃ s, Run (step plainEnv) InTurn (System.init bdNum)
      [.submit 0 (blockRequest 1 0), .queue 0 0, .rx 0, .submit 1 (blockRequest 1 1), .queue 1 0,
        .tx 0, .rx 1] s ∧ s.rxLog = [0, 1] ∧ s.txLog = [0] :=
    ⟨_, Run.cons _ _ _ _ _ rfl trivial (Run.cons _ _ _ _ _ rfl trivial
      (Run.cons _ _ _ _ _ rfl trivial (Run.cons _ _ _ _ _ rfl trivial
      (Run.cons _ _ _ _ _ rfl trivial
      (Run.cons _ _ _ _ _ rfl ⟨fun _ _ _ => Nat.zero_le _, (postBuf_ok_iff hwf _ 0).mp rfl⟩
      (Run.cons _ _ _ _ _ rfl trivial (Run.nil _))))))), rfl, rfl⟩
  rcases hrun with ⟨s, hrun, hrx, htx⟩
  exact ⟨s, hrun, hrx, htx, run_sameOrder plainEnv (by decide) hrun⟩

theorem overtaken_swaps :
    ∃ s, Run (step plainEnv) Free (System.init bdNum)
      [.submit 0 (blockRequest 1 0), .submit 1 (blockRequest 1 1), .queue 0 0, .queue 1 0,
        .rx 0, .rx 1, .tx 1, .tx 0, .put 0, .put 1] s ∧
      s.rxLog = [0, 1] ∧ s.txLog = [1, 0] ∧ ¬ SameOrder s := by
  refine ⟨_, Run.cons _ _ _ _ _ rfl trivial (Run.cons _ _ _ _ _ rfl trivial
    (Run.cons _ _ _ _ _ rfl trivial (Run.cons _ _ _ _ _ rfl trivial
    (Run.cons _ _ _ _ _ rfl trivial (Run.cons _ _ _ _ _ rfl trivial
    (Run.cons _ _ _ _ _ rfl trivial (Run.cons _ _ _ _ _ rfl trivial
    (Run.cons _ _ _ _ _ rfl trivial (Run.cons _ _ _ _ _ rfl trivial
    (Run.nil _)))))))))), rfl, rfl, ?_⟩
  intro h
  exact absurd (h.pairing 0 1 rfl) (by decide)

end Driver

end Ml605
