import Ml605.Driver.AesRefs
import Ml605.Driver.AesRefusal

/-!
# Releasing a Descriptor

`aes_free_desc` puts the software descriptor back on the free list under
`hw_lock` and only then, with the lock dropped, unmaps the buffers and calls the
requester back, reading both from the descriptor. In between another caller may
take the descriptor off the list. It goes in at the tail and is taken from the
head, so this needs that everything in front of it has been taken.

As long as whoever takes a descriptor finds one at the head whose release is
through, every release finds the request it is for: the buffers of each request
are unmapped once, and its callback is called once with its own argument.

## Main definitions

* `AesDesc.job`, `Request.job`: What a release reads from a descriptor.
* `SameJobs`: A device that differs in nothing a release reads or records.
* `InUse`: A submission that still needs its descriptor.
* `OwnCompletion`: Every release works for the request it was started for.
* `HeadSettled`: The head of the free list is not being released.

## Theorems

* `step_settled`: Every step that takes a settled descriptor keeps releases to
  their requests.
* `run_ownCompletion`: So they do in every reachable state.
* `early_reuse_wrong_callback`: With every other descriptor taken, the next one
  handed out is one that is being released, and the release then works for the
  wrong request.
-/

namespace Ml605

namespace Driver

open Lib

/-- What a release reads: the buffers, whether to call back, and the argument. -/
def AesDesc.job (desc : AesDesc) : (DmaBuf × DmaBuf) × Bool × Nat :=
  ((desc.srcBuf, desc.dstBuf), desc.cb, desc.priv)

def Request.job (rq : Request) : (DmaBuf × DmaBuf) × Bool × Nat :=
  ((rq.srcBuf, rq.dstBuf), rq.cb, rq.priv)

/-- What a release does for a job. -/
def finishedJob (n : Nat) (job : (DmaBuf × DmaBuf) × Bool × Nat) : Finished :=
  ⟨n, job.1, if job.2.1 then some job.2.2 else none⟩

/-- The submission still needs its descriptor. -/
def InUse (l : Ledger) (n : Nat) : Prop := InProgress l.sys n ∨ 0 < outstanding l n

/-- No descriptor that is in use is being released, every release that is done
    was for its own request, each submission that was freed has one release,
    none is freed twice, those that were posted on both rings are freed once
    all they posted is taken back, and the device has unmapped and called
    exactly what was released. -/
structure OwnCompletion (l : Ledger) : Prop where
  notReleasing : ∀ n, InUse l n → l.descOf n ∉ l.sys.releasing
  own : ∀ f, f ∈ l.finished → f = finishedJob f.submission (l.request f.submission).job
  once : ∀ n, (l.finished.map Finished.submission).count n + l.pending.count n = l.freed.count n
  atMostOnce : ∀ n, l.freed.count n ≤ 1
  served : ∀ n, n ∈ l.sys.txLog → ¬ InUse l n → l.freed.count n = 1
  unmapped : l.sys.dev.unmapped = l.finished.map Finished.unmapped
  called : l.sys.dev.called = l.finished.filterMap Finished.called

/-- The descriptor at the head of the free list is not being released. -/
def HeadSettled (l : Ledger) : Event → Prop
  | .submit _ _ => ∀ sw, l.sys.dev.descHead.head? = some sw → sw ∉ l.sys.releasing
  | _ => True

/-- The devices agree in what releases read and in what they have done. -/
structure SameJobs (d d' : AesDev) : Prop where
  jobs : ∀ sw, (d'.desc sw).job = (d.desc sw).job
  unmapped : d'.unmapped = d.unmapped
  called : d'.called = d.called

namespace SameJobs

theorem refl (d : AesDev) : SameJobs d d := ⟨fun _ => rfl, rfl, rfl⟩

theorem trans {a b c : AesDev} (hab : SameJobs a b) (hbc : SameJobs b c) : SameJobs a c :=
  ⟨fun sw => (hbc.jobs sw).trans (hab.jobs sw), hbc.unmapped.trans hab.unmapped,
    hbc.called.trans hab.called⟩

theorem modifyDesc (d : AesDev) (sw : Nat) (f : AesDesc → AesDesc)
    (hf : ∀ desc, (f desc).job = desc.job) : SameJobs d (d.modifyDesc sw f) := by
  refine ⟨?_, rfl, rfl⟩
  intro sw'
  by_cases hsw : sw' = sw
  · rw [hsw, d.modifyDesc_desc_self, hf]
  · rw [d.modifyDesc_desc_of_ne f hsw]

theorem setRing (d : AesDev) (rx : Bool) (r : BdRing) : SameJobs d (d.setRing rx r) := by
  cases rx with
  | true => exact ⟨fun _ => rfl, rfl, rfl⟩
  | false => exact ⟨fun _ => rfl, rfl, rfl⟩

theorem hwSection (env : Env) (jiffies : BitVec 32) (d : AesDev) (sw : Nat) :
    SameJobs d (hwSection env jiffies d sw) := by
  unfold Driver.hwSection
  refine trans ?_ (modifyDesc _ sw _ fun _ => rfl)
  exact ⟨fun _ => rfl, rfl, rfl⟩

theorem krefGet (d : AesDev) (sw n : Nat) : SameJobs d (krefGet d sw n) := by
  unfold Driver.krefGet
  exact modifyDesc d sw _ fun _ => rfl

theorem postOn (rx : Bool) (d : AesDev) (buf : DmaBuf) (sw : Nat) :
    SameJobs d (postOn rx d buf sw).1 :=
  trans (setRing d rx _) (krefGet _ sw _)

theorem putAndFree (d : AesDev) (sw : Nat) : SameJobs d (putAndFree d sw).1 := by
  have hput : SameJobs d (krefPut d sw).1 := by
    simp only [krefPut]
    exact modifyDesc d sw _ fun _ => rfl
  unfold Driver.putAndFree
  simp only
  split
  · exact ⟨hput.jobs, hput.unmapped, hput.called⟩
  · exact hput

theorem cleanLoop (rx : Bool) : ∀ (n : Nat) (d : AesDev) (bd : Nat),
    SameJobs d (cleanLoop rx n d bd).1 := by
  intro n
  induction n with
  | zero => intro d bd; exact refl d
  | succ n ih =>
      intro d bd
      have hone : SameJobs d (cleanBh rx d bd).1 := by
        unfold cleanBh
        split
        · exact putAndFree d _
        · exact refl d
      exact trans (trans hone (setRing _ rx _)) (ih _ _)

theorem reclaim (rx : Bool) (d : AesDev) : SameJobs d (reclaim rx d).1 := by
  unfold Driver.reclaim
  exact trans (trans (setRing d rx _) (cleanLoop rx _ _ _)) (setRing _ rx _)

end SameJobs

section Published

/-- A dropped reference publishes the descriptors it releases. -/
theorem putAndFree_descHead (d : AesDev) (sw : Nat) :
    (putAndFree d sw).1.descHead = d.descHead ++ (putAndFree d sw).2 := by
  unfold putAndFree
  simp only
  split
  · rfl
  · rw [List.append_nil]
    rfl

theorem setRing_descHead (d : AesDev) (rx : Bool) (r : BdRing) :
    (d.setRing rx r).descHead = d.descHead := by
  cases rx <;> rfl

theorem cleanLoop_descHead (rx : Bool) : ∀ (n : Nat) (d : AesDev) (bd : Nat),
    (cleanLoop rx n d bd).1.descHead = d.descHead ++ (cleanLoop rx n d bd).2 := by
  intro n
  induction n with
  | zero => intro d bd; exact (List.append_nil _).symm
  | succ n ih =>
      intro d bd
      have hone : (cleanBh rx d bd).1.descHead = d.descHead ++ (cleanBh rx d bd).2 := by
        unfold cleanBh
        split
        · exact putAndFree_descHead d _
        · exact (List.append_nil _).symm
      simp only [cleanLoop]
      rw [ih, setRing_descHead, hone, List.append_assoc]

theorem reclaim_descHead (rx : Bool) (d : AesDev) :
    (reclaim rx d).1.descHead = d.descHead ++ (reclaim rx d).2 := by
  unfold reclaim
  simp only
  rw [setRing_descHead, cleanLoop_descHead, setRing_descHead]

/-- The descriptors released by a round are those of the submissions whose last
    reference it dropped. -/
theorem cleanLoop_released {descOf : Nat → Nat} (rx : Bool) (tags : List Nat) :
    ∀ (d : AesDev) (bd : Nat), Tagged descOf (d.ring rx) bd tags →
    (cleanLoop rx tags.length d bd).2 = (lastPuts rx tags d bd).map descOf := by
  induction tags with
  | nil => intro d bd _; rfl
  | cons n ns ih =>
      intro d bd htags
      have hone : (cleanBh rx d bd).2 =
          (if (cleanBh rx d bd).2 = [] then [] else [n]).map descOf := by
        rw [htags.cleanBh_eq]
        exact putAndFree_released rfl d
      simp only [List.length_cons, cleanLoop, lastPuts]
      rw [List.map_append, ← hone, ih _ _ htags.cleaned]

/-- The descriptors a round releases are those of the submissions entered. -/
theorem reclaim_released {l : Ledger} (h : Balanced l) (rx : Bool) :
    (reclaim rx l.sys.dev).2 = (lastPuts rx
      ((l.posted rx).take (bdRingFromHw (l.sys.dev.ring rx) bdNum).2)
      (l.sys.dev.setRing rx (bdRingFromHw (l.sys.dev.ring rx) bdNum).1)
      (l.sys.dev.ring rx).hwHead).map l.descOf := by
  rcases taken_back h rx rfl with ⟨hlen, htags⟩
  have hloop := cleanLoop_released rx _ _ _ htags
  rw [hlen] at hloop
  exact hloop

end Published

/-- The releases that are to come: they are those the system knows of, their
    descriptors are still on the free list, each on its own, and a descriptor
    that is in use or to be released still has the job of its request. -/
structure Settled (l : Ledger) : Prop where
  balanced : Balanced l
  releasing : l.sys.releasing = l.pending.map l.descOf
  onList : ∀ sw, sw ∈ l.sys.releasing → sw ∈ l.sys.dev.descHead
  nodup : l.sys.releasing.Nodup
  jobs : ∀ n, 0 < weight l n ∨ n ∈ l.pending →
    (l.sys.dev.desc (l.descOf n)).job = (l.request n).job
  own : ∀ f, f ∈ l.finished → f = finishedJob f.submission (l.request f.submission).job
  once : ∀ n, (l.finished.map Finished.submission).count n + l.pending.count n = l.freed.count n
  unmapped : l.sys.dev.unmapped = l.finished.map Finished.unmapped
  called : l.sys.dev.called = l.finished.filterMap Finished.called

section Known

variable {l : Ledger} (h : Settled l)

include h

theorem freed_known {n : Nat} (hn : 0 < l.freed.count n) : n < l.sys.serial ∧ weight l n = 0 := by
  -- The count of releases is one for a number that holds nothing, and zero otherwise.
  have hgone := h.balanced.held.gone n
  by_cases hc : n < l.sys.serial ∧ weight l n = 0
  · exact hc
  · rw [if_neg hc] at hgone
    omega

theorem pending_known {n : Nat} (hn : n ∈ l.pending) : n < l.sys.serial := by
  have hpos : 0 < l.pending.count n := List.count_pos_iff.mpr hn
  have honce := h.once n
  exact (freed_known h (by omega)).1

theorem finished_known {f : Finished} (hf : f ∈ l.finished) : f.submission < l.sys.serial := by
  have hpos : 0 < (l.finished.map Finished.submission).count f.submission :=
    List.count_pos_iff.mpr (List.mem_map_of_mem hf)
  have honce := h.once f.submission
  exact (freed_known h (by omega)).1

/-- A descriptor in use is not on the free list. -/
theorem inUse_not_free {n : Nat} (hn : 0 < weight l n) : l.descOf n ∉ l.sys.dev.descHead :=
  (h.balanced.held.taken n hn).1

end Known

/-- A step that releases nothing and starts nothing. -/
theorem settled_same {l l' : Ledger} (h : Settled l) (hbal : Balanced l')
    (hsame : SameJobs l.sys.dev l'.sys.dev) (hrel : l'.sys.releasing = l.sys.releasing)
    (hfree : l'.sys.dev.descHead = l.sys.dev.descHead)
    (hserial : l'.sys.serial = l.sys.serial) (hdesc : l'.descOf = l.descOf)
    (hreq : l'.request = l.request) (hfreed : l'.freed = l.freed)
    (hpending : l'.pending = l.pending) (hfinished : l'.finished = l.finished) : Settled l' := by
  refine ⟨hbal, ?_, ?_, ?_, ?_, ?_, ?_, ?_, ?_⟩
  · rw [hrel, hpending, hdesc]
    exact h.releasing
  · rw [hrel, hfree]
    exact h.onList
  · rw [hrel]
    exact h.nodup
  · intro n hn
    rw [hsame.jobs, hdesc, hreq]
    refine h.jobs n ?_
    rw [hpending] at hn
    refine hn.imp_left fun hpos => ?_
    -- A submission holds something exactly when it has a number and was not freed.
    by_contra hzero
    have hgone := h.balanced.held.gone n
    have hlt := hbal.held.known n hpos
    rw [hserial] at hlt
    have hgone' := hbal.held.gone n
    rw [hfreed, if_neg (by omega)] at hgone'
    rw [if_pos ⟨hlt, by omega⟩] at hgone
    omega
  · rw [hfinished, hreq]
    exact h.own
  · rw [hfinished, hpending, hfreed]
    exact h.once
  · rw [hsame.unmapped, hfinished]
    exact h.unmapped
  · rw [hsame.called, hfinished]
    exact h.called

/-- A step that drops last references: their descriptors go to the end of the
    free list and are to be released. -/
theorem settled_freed {l l' : Ledger} (h : Settled l) (hbal : Balanced l') {last : List Nat}
    (hsame : SameJobs l.sys.dev l'.sys.dev)
    (hrel : l'.sys.releasing = l.sys.releasing ++ last.map l.descOf)
    (hfree : l'.sys.dev.descHead = l.sys.dev.descHead ++ last.map l.descOf)
    (hserial : l'.sys.serial = l.sys.serial) (hdesc : l'.descOf = l.descOf)
    (hreq : l'.request = l.request) (hfreed : l'.freed = l.freed ++ last)
    (hpending : l'.pending = l.pending ++ last) (hfinished : l'.finished = l.finished) :
    Settled l' := by
  have hgone := h.balanced.held.gone
  have hgone' := hbal.held.gone
  have hcount : ∀ n, l'.freed.count n = l.freed.count n + last.count n := by
    intro n
    rw [hfreed, List.count_append]
  -- Who holds something now, or is freed now, held something before.
  have hheld : ∀ n, 0 < weight l' n ∨ n ∈ last → 0 < weight l n := by
    intro n hn
    have hg := hgone n
    have hg' := hgone' n
    rw [hcount, hserial] at hg'
    rcases hn with hpos | hmem
    · have hlt := hbal.held.known n hpos
      rw [if_neg (by omega)] at hg'
      by_contra hzero
      rw [if_pos ⟨by omega, by omega⟩] at hg
      omega
    · have hpos : 0 < last.count n := List.count_pos_iff.mpr hmem
      by_cases hc : n < l.sys.serial ∧ weight l' n = 0
      · rw [if_pos hc] at hg'
        by_contra hzero
        rw [if_pos ⟨hc.1, by omega⟩] at hg
        omega
      · rw [if_neg hc] at hg'
        omega
  -- The new free list has no descriptor twice, so the new ones differ from those on it.
  have hnodup := hbal.held.nodup
  change l'.sys.dev.descHead.Nodup at hnodup
  rw [hfree, List.nodup_append] at hnodup
  refine ⟨hbal, ?_, ?_, ?_, ?_, ?_, ?_, ?_, ?_⟩
  · rw [hrel, hpending, hdesc, List.map_append, ← h.releasing]
  · intro sw hsw
    rw [hrel, List.mem_append] at hsw
    rw [hfree, List.mem_append]
    exact hsw.imp_left (h.onList sw)
  · rw [hrel, List.nodup_append]
    refine ⟨h.nodup, hnodup.2.1, ?_⟩
    intro a ha b hb
    exact hnodup.2.2 a (h.onList a ha) b hb
  · intro n hn
    rw [hsame.jobs, hdesc, hreq]
    rw [hpending, List.mem_append] at hn
    -- None of them was prepared anew since, so the job is still that of the request.
    refine h.jobs n ?_
    rcases hn with hpos | hold | hnew
    · exact Or.inl (hheld n (Or.inl hpos))
    · exact Or.inr hold
    · exact Or.inl (hheld n (Or.inr hnew))
  · rw [hfinished, hreq]
    exact h.own
  · intro n
    have honce := h.once n
    rw [hfinished, hpending, hcount, List.count_append]
    omega
  · rw [hsame.unmapped, hfinished]
    exact h.unmapped
  · rw [hsame.called, hfinished]
    exact h.called

section Submit

/-- The descriptor that is prepared gets the job of its request, the others
    keep theirs. -/
theorem prepareDesc_job (d : AesDev) (rq : Request) (sw : Nat) :
    ((prepareDesc d rq).1.desc sw).job =
      if sw = (prepareDesc d rq).2 then rq.job else (d.desc sw).job := by
  have halloc : ∀ sw', sw' ≠ (aesAllocDesc d).2 → (aesAllocDesc d).1.desc sw' = d.desc sw' := by
    unfold aesAllocDesc
    cases d.descHead with
    | nil => exact fun sw' hne => Function.update_of_ne hne ..
    | cons x rest => exact fun sw' hne => Function.update_of_ne hne ..
  by_cases hsw : sw = (prepareDesc d rq).2
  · rw [if_pos hsw, hsw]
    simp only [prepareDesc]
    rw [AesDev.modifyDesc_desc_self]
    rfl
  · have hne : sw ≠ (aesAllocDesc d).2 := hsw
    rw [if_neg hsw]
    simp only [prepareDesc]
    rw [AesDev.modifyDesc_desc_of_ne _ _ hne, halloc sw hne]

theorem prepareDesc_logs (d : AesDev) (rq : Request) :
    (prepareDesc d rq).1.unmapped = d.unmapped ∧ (prepareDesc d rq).1.called = d.called := by
  simp only [prepareDesc, aesAllocDesc]
  cases d.descHead with
  | nil => exact ⟨rfl, rfl⟩
  | cons x rest => exact ⟨rfl, rfl⟩

theorem prepareDesc_descHead (d : AesDev) (rq : Request) :
    (prepareDesc d rq).1.descHead = d.descHead.tail ∧
      ∀ sw, d.descHead.head? = some sw → (prepareDesc d rq).2 = sw := by
  simp only [prepareDesc, aesAllocDesc]
  cases d.descHead with
  | nil => exact ⟨rfl, fun sw h => absurd h (by simp only [List.head?_nil, reduceCtorEq,
      not_false_eq_true])⟩
  | cons x rest => exact ⟨rfl, fun sw h => Option.some.inj h⟩

variable {l : Ledger} (rq : Request) (h : Settled l)
  (hhead : ∀ sw, l.sys.dev.descHead.head? = some sw → sw ∉ l.sys.releasing)

include h hhead

/-- A descriptor taken from a settled head, or a new one, is not being released. -/
theorem prepared_not_releasing : (prepareDesc l.sys.dev rq).2 ∉ l.sys.releasing := by
  intro hmem
  -- What is being released is on the free list, so a new descriptor is not among it.
  have hfree := h.onList _ hmem
  cases hlist : l.sys.dev.descHead with
  | nil =>
      rw [hlist] at hfree
      exact absurd hfree List.not_mem_nil
  | cons x rest =>
      have hx : l.sys.dev.descHead.head? = some x := by rw [hlist]; rfl
      have heq := (prepareDesc_descHead l.sys.dev rq).2 x hx
      rw [heq] at hmem
      exact hhead x hx hmem

theorem settled_submitted {l' : Ledger} (hbal : Balanced l')
    (hdev : l'.sys.dev = (prepareDesc l.sys.dev rq).1)
    (hrel : l'.sys.releasing = l.sys.releasing)
    (hdesc : l'.descOf = Function.update l.descOf l.sys.serial (prepareDesc l.sys.dev rq).2)
    (hreq : l'.request = Function.update l.request l.sys.serial rq)
    (hweight : ∀ n, n ≠ l.sys.serial → weight l' n = weight l n)
    (hfreed : l'.freed = l.freed) (hpending : l'.pending = l.pending)
    (hfinished : l'.finished = l.finished) : Settled l' := by
  have hnew := prepared_not_releasing rq h hhead
  have hold : ∀ n, n < l.sys.serial → l'.descOf n = l.descOf n ∧ l'.request n = l.request n := by
    intro n hn
    rw [hdesc, hreq]
    exact ⟨Function.update_of_ne (Nat.ne_of_lt hn) .., Function.update_of_ne (Nat.ne_of_lt hn) ..⟩
  refine ⟨hbal, ?_, ?_, ?_, ?_, ?_, ?_, ?_, ?_⟩
  · rw [hrel, hpending, h.releasing]
    refine List.map_congr_left fun n hn => ?_
    exact (hold n (pending_known h hn)).1.symm
  · intro sw hsw
    rw [hrel] at hsw
    rw [hdev, (prepareDesc_descHead l.sys.dev rq).1]
    have hmem := h.onList sw hsw
    -- It is not the head, so it is behind it.
    cases hlist : l.sys.dev.descHead with
    | nil =>
        rw [hlist] at hmem
        exact absurd hmem List.not_mem_nil
    | cons x rest =>
        rw [hlist] at hmem
        rcases List.mem_cons.mp hmem with heq | hrest
        · exact absurd (heq ▸ hsw) (hhead x (by rw [hlist]; rfl))
        · exact hrest
  · rw [hrel]
    exact h.nodup
  · intro n hn
    rw [hdev, prepareDesc_job]
    by_cases hns : n = l.sys.serial
    · rw [hns, hdesc, hreq, Function.update_self, Function.update_self, if_pos rfl]
    · rw [hpending, hweight n hns] at hn
      have hlt : n < l.sys.serial := by
        rcases hn with hpos | hmem
        · exact h.balanced.held.known n hpos
        · exact pending_known h hmem
      rw [(hold n hlt).1, (hold n hlt).2]
      -- The new descriptor was neither in use nor to be released.
      have hne : l.descOf n ≠ (prepareDesc l.sys.dev rq).2 := by
        rcases hn with hpos | hmem
        · rw [(prepareDesc_pool l.sys.dev rq).2]
          exact (alloc_fresh h.balanced.held).1 n hpos
        · intro heq
          rw [← heq, h.releasing] at hnew
          exact hnew (List.mem_map_of_mem hmem)
      rw [if_neg hne]
      exact h.jobs n hn
  · intro f hf
    rw [hfinished] at hf
    rw [(hold _ (finished_known h hf)).2]
    exact h.own f hf
  · rw [hfinished, hpending, hfreed]
    exact h.once
  · rw [hdev, (prepareDesc_logs l.sys.dev rq).1, hfinished]
    exact h.unmapped
  · rw [hdev, (prepareDesc_logs l.sys.dev rq).2, hfinished]
    exact h.called

end Submit

section Release

variable {l : Ledger} (h : Settled l) {sw : Nat} (hmem : sw ∈ l.sys.releasing)

include h hmem

/-- The release at hand is for a submission that waits for it and was given
    this descriptor. -/
theorem released_submission :
    l.descOf (l.pending.getD (l.sys.releasing.idxOf sw) 0) = sw ∧
      (l.pending.getD (l.sys.releasing.idxOf sw) 0 ::
        l.pending.eraseIdx (l.sys.releasing.idxOf sw)).Perm l.pending := by
  -- The two lists go together place by place.
  have hlt := List.idxOf_lt_length_iff.mpr hmem
  have hlen : l.sys.releasing.length = l.pending.length := by
    rw [h.releasing, List.length_map]
  have hi : l.sys.releasing.idxOf sw < l.pending.length := by omega
  have hat : (l.pending.map l.descOf)[l.sys.releasing.idxOf sw]? = some sw := by
    rw [← h.releasing, List.getElem?_eq_getElem hlt, List.getElem_idxOf hlt]
  have hget : l.pending.getD (l.sys.releasing.idxOf sw) 0 =
      l.pending.get ⟨l.sys.releasing.idxOf sw, hi⟩ := by
    rw [List.getD_eq_getElem?_getD, List.getElem?_eq_getElem hi, Option.getD_some]
    rfl
  rw [hget]
  refine ⟨?_, List.getElem_cons_eraseIdx_perm hi⟩
  rw [List.getElem?_map, List.getElem?_eq_getElem hi] at hat
  exact Option.some.inj hat

theorem settled_released {l' : Ledger} (hbal : Balanced l')
    (hdev : l'.sys.dev = aesFreeDescRest l.sys.dev sw)
    (hrel : l'.sys.releasing = l.sys.releasing.erase sw)
    (hdesc : l'.descOf = l.descOf) (hreq : l'.request = l.request)
    (hweight : weight l' = weight l) (hfreed : l'.freed = l.freed)
    (hpending : l'.pending = l.pending.eraseIdx (l.sys.releasing.idxOf sw))
    (hfinished : l'.finished = l.finished ++
      [finishedJob (l.pending.getD (l.sys.releasing.idxOf sw) 0) (l.sys.dev.desc sw).job]) :
    Settled l' := by
  rcases released_submission h hmem with ⟨hsw, hperm⟩
  generalize hn : l.pending.getD (l.sys.releasing.idxOf sw) 0 = n at hsw hperm hfinished
  have hin : n ∈ l.pending := hperm.subset List.mem_cons_self
  -- The descriptor has not been given away, so the job is the one to be finished.
  have hjob : (l.sys.dev.desc sw).job = (l.request n).job := by
    rw [← hsw]
    exact h.jobs n (Or.inr hin)
  have hreleasing : l'.sys.releasing = l'.pending.map l'.descOf := by
    rw [hrel, hpending, hdesc, ← List.eraseIdx_map, ← h.releasing, List.eraseIdx_idxOf_eq_erase]
  have hfree : l'.sys.dev.descHead = l.sys.dev.descHead := by rw [hdev]; rfl
  refine ⟨hbal, hreleasing, ?_, ?_, ?_, ?_, ?_, ?_, ?_⟩
  · intro x hx
    rw [hfree]
    rw [hrel] at hx
    exact h.onList x (List.mem_of_mem_erase hx)
  · rw [hrel]
    exact h.nodup.erase sw
  · intro m hm
    -- Another descriptor: in use ones are not on the free list, the others are distinct.
    have hne : l.descOf m ≠ sw := by
      rcases hm with hpos | hpend
      · intro heq
        rw [hweight] at hpos
        exact inUse_not_free h hpos (by rw [heq]; exact h.onList sw hmem)
      · intro heq
        have hx : sw ∈ l'.sys.releasing := by
          rw [hreleasing, ← heq, hdesc]
          exact List.mem_map_of_mem hpend
        rw [hrel, h.nodup.mem_erase_iff] at hx
        exact hx.1 rfl
    have hold : 0 < weight l m ∨ m ∈ l.pending := by
      rw [hweight, hpending] at hm
      exact hm.imp_right List.mem_of_mem_eraseIdx
    rw [hdev, hdesc, hreq, ← h.jobs m hold]
    unfold aesFreeDescRest
    rw [AesDev.modifyDesc_desc_of_ne _ _ hne]
  · intro f hf
    rw [hfinished] at hf
    rw [hreq]
    rcases List.mem_append.mp hf with hold | hnew
    · exact h.own f hold
    · rw [List.mem_singleton] at hnew
      rw [hnew, hjob]
      rfl
  · intro m
    have honce := h.once m
    have hcount := hperm.count_eq m
    rw [hfinished, hpending, hfreed, List.map_append, List.count_append]
    rw [List.count_cons] at hcount
    have hone : ([finishedJob n (l.sys.dev.desc sw).job].map Finished.submission).count m =
        if (n == m) = true then 1 else 0 := List.count_singleton
    rw [hone]
    omega
  · rw [hdev, hfinished, List.map_append, ← h.unmapped]
    rfl
  · rw [hdev, hfinished, List.filterMap_append, ← h.called]
    simp only [aesFreeDescRest, AesDev.modifyDesc, finishedJob, AesDesc.job]
    by_cases hcb : (l.sys.dev.desc sw).cb = true
    · simp only [hcb, if_true]
      rfl
    · simp only [hcb, if_false, Bool.false_eq_true]
      exact (List.append_nil _).symm

end Release

/-- Every step keeps releases to their requests, as long as whoever takes a
    descriptor finds a settled one. -/
theorem step_settled {env : Env} {l l' : Ledger} {e : Event} (h : Settled l)
    (hc : HeadSettled l e) (hs : ledgerStep env l e = some l') : Settled l' := by
  have hbal := step_balanced h.balanced hs
  unfold ledgerStep at hs
  rw [Option.map_eq_some_iff] at hs
  rcases hs with ⟨t, ht, rfl⟩
  cases step_stepped ht with
  | refused c rq =>
      simp only [enter, if_true] at hbal ⊢
      exact h
  | submitted c rq hp =>
      have hne : l.sys.serial + 1 ≠ l.sys.serial := Nat.succ_ne_self _
      simp only [enter, System.setPhase, hne, if_false] at hbal ⊢
      refine settled_submitted rq h hc hbal rfl rfl rfl rfl ?_ rfl rfl rfl
      intro n hn
      unfold weight
      rw [busy_started (by rw [hp]; rfl) rfl, Function.update_of_ne hn]
      rfl
  | queued c jiffies sw n hp =>
      exact settled_same h hbal (SameJobs.hwSection ..) rfl rfl rfl rfl rfl rfl rfl rfl
  | rxDone c sw n hp hpost =>
      simp only [enter, hp] at hbal ⊢
      exact settled_same h hbal (SameJobs.postOn ..) rfl rfl rfl rfl rfl rfl rfl rfl
  | rxFailed c sw n hp hbad =>
      simp only [enter, hp] at hbal ⊢
      exact settled_same h hbal (SameJobs.postOn ..) rfl rfl rfl rfl rfl rfl rfl rfl
  | txDone c sw n hp hpost =>
      simp only [enter, hp] at hbal ⊢
      exact settled_same h hbal (SameJobs.postOn ..) rfl rfl rfl rfl rfl rfl rfl rfl
  | txFailed c sw n hp hbad =>
      simp only [enter, hp] at hbal ⊢
      exact settled_same h hbal (SameJobs.postOn ..) rfl rfl rfl rfl rfl rfl rfl rfl
  | put c sw n hp =>
      -- The caller's own reference may be the last one.
      simp only [enter, hp] at hbal ⊢
      have hdesc : l.descOf n = sw := h.balanced.entries c sw n (by rw [hp]; rfl)
      have hlast : (putAndFree l.sys.dev sw).2 =
          (if (putAndFree l.sys.dev sw).2 = [] then [] else [n]).map l.descOf :=
        putAndFree_released hdesc l.sys.dev
      refine settled_freed h hbal (SameJobs.putAndFree ..) ?_ ?_ rfl rfl rfl rfl rfl rfl
      · exact congrArg (l.sys.releasing ++ ·) hlast
      · exact (putAndFree_descHead ..).trans (congrArg (l.sys.dev.descHead ++ ·) hlast)
  | completed rx i eof hn =>
      exact settled_same h hbal (SameJobs.setRing ..) rfl (setRing_descHead ..) rfl rfl rfl rfl rfl
        rfl
  | reclaimed rx =>
      -- A round may drop the last references of several submissions.
      simp only [enter] at hbal ⊢
      have hlast := reclaim_released h.balanced rx
      refine settled_freed h hbal (SameJobs.reclaim ..) ?_ ?_ rfl rfl rfl rfl rfl rfl
      · exact congrArg (l.sys.releasing ++ ·) hlast
      · exact (reclaim_descHead ..).trans (congrArg (l.sys.dev.descHead ++ ·) hlast)
  | released sw hm =>
      simp only [enter] at hbal ⊢
      exact settled_released h hm hbal rfl rfl rfl rfl rfl rfl rfl rfl

theorem init_settled {num : Nat} (hnum : 0 < num) : Settled (Ledger.init num) := by
  have hbal := init_balanced hnum
  refine ⟨hbal, rfl, fun sw hsw => absurd hsw List.not_mem_nil, List.nodup_nil, ?_,
    fun f hf => absurd hf List.not_mem_nil, fun n => rfl, rfl, rfl⟩
  rintro n (hpos | hmem)
  · exact absurd (hbal.held.known n hpos) (Nat.not_lt_zero n)
  · exact absurd hmem List.not_mem_nil

theorem weight_of_inUse {l : Ledger} {n : Nat} (h : InUse l n) : 0 < weight l n := by
  rcases h with ⟨c, hc⟩ | hout
  · rw [weight_of_inProgress hc]
    omega
  · unfold weight
    omega

theorem ownCompletion_of_settled {l : Ledger} (h : Settled l) : OwnCompletion l := by
  have hgone := h.balanced.held.gone
  refine ⟨?_, h.own, h.once, ?_, ?_, h.unmapped, h.called⟩
  · exact fun n hn hmem => inUse_not_free h (weight_of_inUse hn) (h.onList _ hmem)
  · intro n
    rw [hgone n]
    split <;> omega
  · intro n hn hover
    -- It has lost nothing, since it was posted on the TX ring.
    have hlost : l.lost n = 0 := by
      by_contra hpos
      exact (h.balanced.sent.lost n (by omega)).2.2 hn
    have hbusy : busy l.sys.phase n = 0 := if_neg fun hp => hover (Or.inl hp)
    have hout : outstanding l n = 0 := by
      by_contra hpos
      exact hover (Or.inr (by omega))
    have hnone : weight l n = 0 := by
      unfold weight
      omega
    rw [hgone n, if_pos ⟨h.balanced.sent.known n hn, hnone⟩]

/-- As long as nobody takes a descriptor that is being released, every request
    gets its own completion, in every state. -/
theorem run_ownCompletion (env : Env) {num : Nat} (hnum : 0 < num) {es : List Event} {l : Ledger}
    (h : Run (ledgerStep env) HeadSettled (Ledger.init num) es l) : OwnCompletion l :=
  ownCompletion_of_settled (run_inv (fun _ _ _ hi hc hs => step_settled hi hc hs) h
    (init_settled hnum))

/-- One request from its submission to its callback. -/
def wholeRequest (caller : Nat) (rq : Request) : List Event :=
  [.submit caller rq, .queue caller 0, .rx caller, .tx caller, .put caller,
    .complete true 0 true, .complete false 0 false, .reclaim false, .reclaim true]

/-- A request whose scatter lists are empty, which both rings refuse. -/
def emptyRequest (priv : Nat) : Request := blockRequest 0 priv

/-- A request that is refused, one that is through after it, and the next one,
    which takes a descriptor behind them. -/
theorem run_ownCompletion_after_refusal :
    ∃ l, Run (ledgerStep plainEnv) HeadSettled (Ledger.init bdNum)
      ([.submit 0 (emptyRequest 4), .queue 0 0, .rx 0] ++ wholeRequest 0 (blockRequest 1 5) ++
        [.release 1, .submit 1 (blockRequest 1 6)]) l ∧
      l.sys.dev.called = [5] ∧ l.freed = [1] ∧ OwnCompletion l := by
  have hrun : ∃ l, Run (ledgerStep plainEnv) HeadSettled (Ledger.init bdNum)
      ([.submit 0 (emptyRequest 4), .queue 0 0, .rx 0] ++ wholeRequest 0 (blockRequest 1 5) ++
        [.release 1, .submit 1 (blockRequest 1 6)]) l ∧
      l.sys.dev.called = [5] ∧ l.freed = [1] :=
    ⟨_, Run.cons _ _ _ _ _ rfl (fun _ _ => List.not_mem_nil) (Run.cons _ _ _ _ _ rfl trivial
      (Run.cons _ _ _ _ _ rfl trivial
      (Run.cons _ _ _ _ _ rfl (fun _ _ => List.not_mem_nil) (Run.cons _ _ _ _ _ rfl trivial
      (Run.cons _ _ _ _ _ rfl trivial (Run.cons _ _ _ _ _ rfl trivial
      (Run.cons _ _ _ _ _ rfl trivial (Run.cons _ _ _ _ _ rfl trivial
      (Run.cons _ _ _ _ _ rfl trivial (Run.cons _ _ _ _ _ rfl trivial
      (Run.cons _ _ _ _ _ rfl trivial (Run.cons _ _ _ _ _ rfl trivial
      (Run.cons _ _ _ _ _ rfl (fun _ _ => List.not_mem_nil) (Run.nil _)))))))))))))), rfl, rfl⟩
  rcases hrun with ⟨l, hrun, hcalled, hfreed⟩
  exact ⟨l, hrun, hcalled, hfreed, run_ownCompletion plainEnv bdNum_pos hrun⟩

section Early

/-- The first request is being released, its descriptor is the last one on the
    free list, and the callers from `c` on have not started. -/
structure Draining (c : Nat) (before : List Nat) (l : Ledger) : Prop where
  free : l.sys.dev.descHead = before ++ [0]
  releasing : l.sys.releasing = [0]
  pending : l.pending = [0]
  finished : l.finished = []
  called : l.sys.dev.called = []
  request : l.request 0 = blockRequest 1 0
  started : 0 < l.sys.serial
  callers : ∀ c', c ≤ c' → l.sys.phase c' = .idle

theorem draining_start :
    ∃ l, Run (ledgerStep plainEnv) Succeeds (Ledger.init bdNum) (wholeRequest 0 (blockRequest 1 0))
      l ∧ Draining 1 (List.range' 1 (bdNum - 1)) l := by
  refine ⟨_, Run.cons _ _ _ _ _ rfl trivial (Run.cons _ _ _ _ _ rfl trivial
    (Run.cons _ _ _ _ _ rfl ?_ (Run.cons _ _ _ _ _ rfl ?_
    (Run.cons _ _ _ _ _ rfl trivial (Run.cons _ _ _ _ _ rfl trivial
    (Run.cons _ _ _ _ _ rfl trivial (Run.cons _ _ _ _ _ rfl trivial
    (Run.cons _ _ _ _ _ rfl trivial (Run.nil _))))))))),
    ⟨rfl, rfl, rfl, rfl, rfl, rfl, Nat.one_pos, ?_⟩⟩
  · intro sw n hp
    cases hp
    rfl
  · intro sw n hp
    cases hp
    rfl
  · intro c hc
    have hne : c ≠ 0 := by omega
    exact (Function.update_of_ne hne ..).trans ((Function.update_of_ne hne ..).trans
      ((Function.update_of_ne hne ..).trans ((Function.update_of_ne hne ..).trans
        (Function.update_of_ne hne ..))))

/-- The next caller takes the descriptor at the head. -/
theorem draining_submit {c sw : Nat} {before : List Nat} {l : Ledger}
    (h : Draining c (sw :: before) l) (rq : Request) (hmapped : rq.srcMapped = true)
    (hmapped' : rq.dstMapped = true) :
    ∃ l', ledgerStep plainEnv l (.submit c rq) = some l' ∧ Draining (c + 1) before l' := by
  have hidle := h.callers c (Nat.le_refl c)
  have hstep : step plainEnv l.sys (.submit c rq) = some ({ l.sys with
      dev := (prepareDesc l.sys.dev rq).1, serial := l.sys.serial + 1 }.setPhase c
        (.prepared (prepareDesc l.sys.dev rq).2 l.sys.serial)) := by
    simp only [step, hidle, hmapped, hmapped', Bool.true_eq_false, or_self, if_false]
  have hne : l.sys.serial + 1 ≠ l.sys.serial := Nat.succ_ne_self _
  refine ⟨_, by unfold ledgerStep; rw [hstep]; rfl, ?_⟩
  simp only [enter, System.setPhase, hne, if_false]
  refine ⟨?_, h.releasing, h.pending, h.finished, (prepareDesc_logs l.sys.dev rq).2.trans h.called,
    ?_, Nat.succ_pos _, ?_⟩
  · rw [(prepareDesc_descHead l.sys.dev rq).1, h.free]
    rfl
  · exact (Function.update_of_ne (Nat.ne_of_lt h.started) ..).trans h.request
  · intro c' hc'
    exact (Function.update_of_ne (by omega) ..).trans (h.callers c' (by omega))

/-- Callers can take all descriptors in front of the one that is released. -/
theorem draining_run (rq : Request) (hmapped : rq.srcMapped = true)
    (hmapped' : rq.dstMapped = true) (before : List Nat) : ∀ (c : Nat) (l : Ledger),
    Draining c before l → ∃ es l' c', Run (ledgerStep plainEnv) Succeeds l es l' ∧
      Draining c' [] l' := by
  induction before with
  | nil => intro c l h; exact ⟨[], l, c, Run.nil _, h⟩
  | cons sw before ih =>
      intro c l h
      rcases draining_submit h rq hmapped hmapped' with ⟨l1, hstep, h1⟩
      rcases ih (c + 1) l1 h1 with ⟨es, l', c', hrun, h'⟩
      exact ⟨_, l', c', Run.cons _ _ _ _ _ hstep trivial hrun, h'⟩

/-- The state when the next request has been given the descriptor that is being
    released. -/
structure Reused (l : Ledger) : Prop where
  inUse : InUse l (l.sys.serial - 1)
  desc : l.descOf (l.sys.serial - 1) = 0
  job : (l.sys.dev.desc 0).job = (blockRequest 1 7).job
  releasing : l.sys.releasing = [0]
  pending : l.pending = [0]
  finished : l.finished = []
  called : l.sys.dev.called = []
  request : l.request 0 = blockRequest 1 0

theorem reused_submit {c : Nat} {l : Ledger} (h : Draining c [] l) :
    ∃ l', ledgerStep plainEnv l (.submit c (blockRequest 1 7)) = some l' ∧ Reused l' := by
  have hidle := h.callers c (Nat.le_refl c)
  have hdesc : (prepareDesc l.sys.dev (blockRequest 1 7)).2 = 0 :=
    (prepareDesc_descHead l.sys.dev _).2 0 (by rw [h.free]; rfl)
  have hstep : step plainEnv l.sys (.submit c (blockRequest 1 7)) = some ({ l.sys with
      dev := (prepareDesc l.sys.dev (blockRequest 1 7)).1, serial := l.sys.serial + 1 }.setPhase c
        (.prepared (prepareDesc l.sys.dev (blockRequest 1 7)).2 l.sys.serial)) := by
    simp only [step, hidle]
    rfl
  have hne : l.sys.serial + 1 ≠ l.sys.serial := Nat.succ_ne_self _
  refine ⟨_, by unfold ledgerStep; rw [hstep]; rfl, ?_⟩
  simp only [enter, System.setPhase, hne, if_false]
  refine ⟨Or.inl ⟨c, ?_⟩, ?_, ?_, h.releasing, h.pending, h.finished,
    (prepareDesc_logs l.sys.dev _).2.trans h.called, ?_⟩
  · change (Function.update l.sys.phase c _ c).serial = some l.sys.serial
    rw [Function.update_self]
    rfl
  · exact (Function.update_self ..).trans hdesc
  · rw [prepareDesc_job, if_pos hdesc.symm]
  · exact (Function.update_of_ne (Nat.ne_of_lt h.started) ..).trans h.request

/-- The release of the first request then works for the second one. -/
theorem reused_release {l : Ledger} (h : Reused l) :
    ∃ l', ledgerStep plainEnv l (.release 0) = some l' ∧ l'.sys.dev.called = [7] ∧
      l'.finished = [finishedJob 0 (blockRequest 1 7).job] ∧ l'.request 0 = blockRequest 1 0 := by
  have hmem : (0 : Nat) ∈ l.sys.releasing := by
    rw [h.releasing]
    exact List.mem_singleton_self 0
  have hstep : step plainEnv l.sys (.release 0) = some { l.sys with
      dev := aesFreeDescRest l.sys.dev 0, releasing := l.sys.releasing.erase 0 } := if_pos hmem
  have hjob := h.job
  simp only [AesDesc.job, Request.job, Prod.mk.injEq] at hjob
  have hcb : (l.sys.dev.desc 0).cb = true := hjob.2.1
  have hpriv : (l.sys.dev.desc 0).priv = 7 := hjob.2.2
  refine ⟨enter l { l.sys with
    dev := aesFreeDescRest l.sys.dev 0, releasing := l.sys.releasing.erase 0 } (.release 0),
    by unfold ledgerStep; rw [hstep]; rfl, ?_, ?_, h.request⟩
  · simp only [enter, aesFreeDescRest, AesDev.modifyDesc, hcb, if_true, hpriv, h.called]
    rfl
  · simp only [enter, h.finished, h.releasing, h.pending]
    exact congrArg (fun job => [finishedJob 0 job]) h.job

/-- With every other descriptor taken, the next request is given the descriptor
    that is being released, and the release then unmaps and calls back for that
    request instead of its own. -/
theorem early_reuse_wrong_callback :
    ∃ es l l', Run (ledgerStep plainEnv) Succeeds (Ledger.init bdNum) es l ∧
      (∃ n, InUse l n ∧ l.descOf n ∈ l.sys.releasing) ∧ ¬ OwnCompletion l ∧
      ledgerStep plainEnv l (.release 0) = some l' ∧ l'.sys.dev.called = [7] ∧
      (l'.request 0).priv = 0 ∧ ¬ OwnCompletion l' := by
  rcases draining_start with ⟨l0, hrun0, h0⟩
  -- Between publishing the descriptor and releasing it there is room for all of this.
  rcases draining_run (blockRequest 1 1) rfl rfl _ 1 l0 h0 with ⟨es, l1, c, hrun1, h1⟩
  rcases reused_submit h1 with ⟨l, hstep, h⟩
  rcases reused_release h with ⟨l', hrelease, hcalled, hfinished, hrequest⟩
  have hearly : l.descOf (l.sys.serial - 1) ∈ l.sys.releasing := by
    rw [h.desc, h.releasing]
    exact List.mem_singleton_self 0
  refine ⟨_, l, l', run_append hrun0 (run_append hrun1 (Run.cons _ _ _ _ _ hstep trivial
    (Run.nil _))), ⟨_, h.inUse, hearly⟩, fun hown => hown.notReleasing _ h.inUse hearly,
    hrelease, hcalled, by rw [hrequest]; rfl, ?_⟩
  intro hown
  have hone := hown.own (finishedJob 0 (blockRequest 1 7).job) (by
    rw [hfinished]
    exact List.mem_singleton_self _)
  have hpriv := congrArg Finished.called hone
  change some 7 = (finishedJob 0 (l'.request 0).job).called at hpriv
  rw [hrequest] at hpriv
  exact absurd hpriv (by decide)

end Early

end Driver

end Ml605
