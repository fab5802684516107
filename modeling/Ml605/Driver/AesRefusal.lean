import Ml605.Driver.AesSystem

/-!
# Refused Requests

What a call of `aes_submit` leaves behind when it fails. The call returns early
when there is no device or a mapping fails, and has then touched nothing. After
that it takes a software descriptor off the free list, queues it on `hw_head`
and posts the two buffers, and an error of either posting is returned as it is:
nothing takes the descriptor off `hw_head` again, puts it back on the free list
or undoes the RX posting when the TX posting fails.

So the call fails without a trace only where it cannot fail any more once it
has taken the descriptor.

## Main definitions

* `Untouched`: The shared structures are as before and the callback of the
  request is nowhere.
* `FailsClean`: A failing call leaves them so.
* `Reachable`: A device that some schedule leads to.

## Theorems

* `aesDescToHw_refused`: A refused descriptor stays on `hw_head`.
* `aesSubmit_failsClean_iff`: The calls that fail without a trace.
* `oversized_not_failsClean`: A request with more segments than descriptors.
-/

namespace Ml605

namespace Driver

open Lib

/-- The rings, the queue and the free list are as before, the callback was not
    called, and no descriptor has come to hold one. -/
structure Untouched (d d' : AesDev) : Prop where
  rx : d'.rxRing.toGroups = d.rxRing.toGroups
  tx : d'.txRing.toGroups = d.txRing.toGroups
  hwHead : d'.hwHead = d.hwHead
  descHead : d'.descHead = d.descHead
  called : d'.called = d.called
  callback : ∀ sw, (d'.desc sw).cb = true → d'.desc sw = d.desc sw

theorem Untouched.refl (d : AesDev) : Untouched d d :=
  ⟨rfl, rfl, rfl, rfl, rfl, fun _ _ => rfl⟩

/-- If the call fails, it leaves no trace. -/
def FailsClean (env : Env) (jiffies : BitVec 32) (dma : Option AesDev) (rq : Request) : Prop :=
  (aesSubmit env jiffies dma rq).2 ≠ 0 →
    ∀ d d', dma = some d → (aesSubmit env jiffies dma rq).1 = some d' → Untouched d d'

/-- A device that some schedule leads to. -/
def Reachable (env : Env) (num : Nat) (d : AesDev) : Prop :=
  ∃ es s, Run (step env) Free (System.init num) es s ∧ s.dev = d

/-- The buffers a request brings. -/
def Request.srcBuf (rq : Request) : DmaBuf := (dmaBufSgInit rq.srcTable rq.srcSg rq.srcSz).1

def Request.dstBuf (rq : Request) : DmaBuf := (dmaBufSgInit rq.dstTable rq.dstSg rq.dstSz).1

section Posting

variable (env : Env) (jiffies : BitVec 32) (d : AesDev) (sw : Nat)

theorem postOn_hwHead (rx : Bool) (buf : DmaBuf) : (postOn rx d buf sw).1.hwHead = d.hwHead := by
  cases rx <;> rfl

theorem postOn_descBufs (rx : Bool) (buf : DmaBuf) :
    ((postOn rx d buf sw).1.desc sw).srcBuf = (d.desc sw).srcBuf := by
  have hset : (d.setRing rx (postBuf (d.ring rx) buf sw).1).desc = d.desc := by
    cases rx <;> rfl
  unfold postOn krefGet
  simp only [AesDev.modifyDesc_desc_self, hset]

theorem hwSection_bufs :
    ((hwSection env jiffies d sw).desc sw).srcBuf = (d.desc sw).srcBuf ∧
      ((hwSection env jiffies d sw).desc sw).dstBuf = (d.desc sw).dstBuf := by
  unfold hwSection
  simp only [AesDev.modifyDesc_desc_self, and_self]

/-- Whether the two postings of a call succeed is decided by the rings as they
    were before the call. -/
theorem sections_ok_iff (hwf : RingsWf d) :
    ((rxSection (hwSection env jiffies d sw) sw).2 = 0 ↔
        Accepts d.rxRing (d.desc sw).dstBuf) ∧
      ((txSection (rxSection (hwSection env jiffies d sw) sw).1 sw).2 = 0 ↔
        Accepts d.txRing (d.desc sw).srcBuf) := by
  have hrx := hwSection_ring d env jiffies sw
  constructor
  · have h := postBuf_ok_iff (hwf true) (d.desc sw).dstBuf sw
    unfold rxSection postOn
    rw [hrx, (hwSection_bufs env jiffies d sw).2]
    exact h
  · have h := postBuf_ok_iff (hwf false) (d.desc sw).srcBuf sw
    -- The RX posting leaves the TX ring and the source buffer alone.
    have hring : (rxSection (hwSection env jiffies d sw) sw).1.ring false = d.ring false := by
      unfold rxSection postOn krefGet
      rw [ring_modifyDesc]
      exact ((hwSection env jiffies d sw).ring_setRing_not true _).trans (hrx false)
    have hbuf : ((rxSection (hwSection env jiffies d sw) sw).1.desc sw).srcBuf =
        (d.desc sw).srcBuf := by
      unfold rxSection
      rw [postOn_descBufs, (hwSection_bufs env jiffies d sw).1]
    unfold txSection postOn
    rw [hring, hbuf]
    exact h

/-- A refused descriptor stays on the queue. -/
theorem aesDescToHw_refused (hwf : RingsWf d)
    (hno : ¬ (Accepts d.rxRing (d.desc sw).dstBuf ∧ Accepts d.txRing (d.desc sw).srcBuf)) :
    (aesDescToHw env jiffies d sw).2 ≠ 0 ∧
      (aesDescToHw env jiffies d sw).1.hwHead = d.hwHead ++ [sw] := by
  rcases sections_ok_iff env jiffies d sw hwf with ⟨hrx, htx⟩
  unfold aesDescToHw
  simp only
  by_cases hrxok : (rxSection (hwSection env jiffies d sw) sw).2 = 0
  · rw [if_neg (not_not_intro hrxok)]
    have hbad : (txSection (rxSection (hwSection env jiffies d sw) sw).1 sw).2 ≠ 0 :=
      fun hok => hno ⟨hrx.mp hrxok, htx.mp hok⟩
    rw [if_pos hbad]
    refine ⟨hbad, ?_⟩
    unfold txSection
    rw [postOn_hwHead]
    unfold rxSection
    rw [postOn_hwHead]
    rfl
  · rw [if_pos hrxok]
    refine ⟨hrxok, ?_⟩
    unfold rxSection
    rw [postOn_hwHead]
    rfl

/-- A descriptor that both rings accept is submitted. -/
theorem aesDescToHw_accepted (hwf : RingsWf d) (hrx : Accepts d.rxRing (d.desc sw).dstBuf)
    (htx : Accepts d.txRing (d.desc sw).srcBuf) : (aesDescToHw env jiffies d sw).2 = 0 := by
  rcases sections_ok_iff env jiffies d sw hwf with ⟨hrx', htx'⟩
  unfold aesDescToHw
  simp only
  rw [if_neg (not_not_intro (hrx'.mpr hrx)), if_neg (not_not_intro (htx'.mpr htx))]

end Posting

/-- The descriptor a request gets carries its buffers. -/
theorem prepareDesc_bufs (d : AesDev) (rq : Request) :
    ((prepareDesc d rq).1.desc (prepareDesc d rq).2).srcBuf = rq.srcBuf ∧
      ((prepareDesc d rq).1.desc (prepareDesc d rq).2).dstBuf = rq.dstBuf := by
  unfold prepareDesc
  simp only [AesDev.modifyDesc_desc_self]
  exact ⟨rfl, rfl⟩

theorem prepareDesc_hwHead (d : AesDev) (rq : Request) :
    (prepareDesc d rq).1.hwHead = d.hwHead := by
  unfold prepareDesc aesAllocDesc
  cases d.descHead with
  | nil => rfl
  | cons sw rest => rfl

theorem prepareDesc_rings (d : AesDev) (rq : Request) :
    (prepareDesc d rq).1.rxRing = d.rxRing ∧ (prepareDesc d rq).1.txRing = d.txRing :=
  ⟨prepareDesc_ring d rq true, prepareDesc_ring d rq false⟩

theorem prepareDesc_ringsWf {d : AesDev} (h : RingsWf d) (rq : Request) :
    RingsWf (prepareDesc d rq).1 := by
  intro rx
  rw [prepareDesc_ring]
  exact h rx

/-- The early returns give the device back as it was. -/
theorem aesSubmit_unmapped (env : Env) (jiffies : BitVec 32) (d : AesDev) {rq : Request}
    (h : rq.srcMapped = false ∨ rq.dstMapped = false) :
    aesSubmit env jiffies (some d) rq = (some d, enomem) := by
  unfold aesSubmit
  simp only
  by_cases hsrc : rq.srcMapped = false
  · rw [if_pos hsrc]
  · rw [if_neg hsrc, if_pos (h.resolve_left hsrc)]

/-- Past the early returns, a call whose postings are not both accepted fails
    and leaves its descriptor on the queue. -/
theorem aesSubmit_refused (env : Env) (jiffies : BitVec 32) {d : AesDev} (hwf : RingsWf d)
    {rq : Request} (hsrc : rq.srcMapped = true) (hdst : rq.dstMapped = true)
    (hno : ¬ (Accepts d.rxRing rq.dstBuf ∧ Accepts d.txRing rq.srcBuf)) :
    (aesSubmit env jiffies (some d) rq).2 ≠ 0 ∧
      ∃ d' sw, (aesSubmit env jiffies (some d) rq).1 = some d' ∧
        d'.hwHead = d.hwHead ++ [sw] := by
  have hbufs := prepareDesc_bufs d rq
  have hrings := prepareDesc_rings d rq
  have hnot : ¬ (Accepts (prepareDesc d rq).1.rxRing
      ((prepareDesc d rq).1.desc (prepareDesc d rq).2).dstBuf ∧
      Accepts (prepareDesc d rq).1.txRing
        ((prepareDesc d rq).1.desc (prepareDesc d rq).2).srcBuf) := by
    rw [hbufs.1, hbufs.2, hrings.1, hrings.2]
    exact hno
  rcases aesDescToHw_refused env jiffies _ (prepareDesc d rq).2 (prepareDesc_ringsWf hwf rq) hnot
    with ⟨hres, hhead⟩
  simp only [aesSubmit, hsrc, hdst, Bool.true_eq_false, if_false]
  exact ⟨hres, _, _, rfl, by rw [hhead, prepareDesc_hwHead]⟩

/-- Such a call has not failed without a trace: the queue is longer. -/
theorem not_failsClean_of_refused (env : Env) (jiffies : BitVec 32) {d : AesDev} (hwf : RingsWf d)
    {rq : Request} (hsrc : rq.srcMapped = true) (hdst : rq.dstMapped = true)
    (hno : ¬ (Accepts d.rxRing rq.dstBuf ∧ Accepts d.txRing rq.srcBuf)) :
    (aesSubmit env jiffies (some d) rq).2 ≠ 0 ∧ ¬ FailsClean env jiffies (some d) rq := by
  rcases aesSubmit_refused env jiffies hwf hsrc hdst hno with ⟨hres, d', sw, hd', hhead⟩
  refine ⟨hres, fun hclean => ?_⟩
  have hsame := (hclean hres d d' rfl hd').hwHead
  rw [hhead] at hsame
  exact absurd (List.append_right_eq_self.mp hsame) (List.cons_ne_nil sw [])

/-- A call whose postings are both accepted succeeds. -/
theorem aesSubmit_accepted (env : Env) (jiffies : BitVec 32) {d : AesDev} (hwf : RingsWf d)
    {rq : Request} (hsrc : rq.srcMapped = true) (hdst : rq.dstMapped = true)
    (hrx : Accepts d.rxRing rq.dstBuf) (htx : Accepts d.txRing rq.srcBuf) :
    (aesSubmit env jiffies (some d) rq).2 = 0 := by
  have hbufs := prepareDesc_bufs d rq
  have hrings := prepareDesc_rings d rq
  simp only [aesSubmit, hsrc, hdst, Bool.true_eq_false, if_false]
  refine aesDescToHw_accepted env jiffies _ _ (prepareDesc_ringsWf hwf rq) ?_ ?_
  · rw [hbufs.2, hrings.1]
    exact hrx
  · rw [hbufs.1, hrings.2]
    exact htx

/-- A call of `aes_submit` fails without a trace exactly when it returns before
    it takes a descriptor, or cannot fail because both rings accept it. -/
theorem aesSubmit_failsClean_iff (env : Env) {num : Nat} (hnum : 0 < num) (dma : Option AesDev)
    (hreach : ∀ d, dma = some d → Reachable env num d) (jiffies : BitVec 32) (rq : Request) :
    FailsClean env jiffies dma rq ↔
      (rq.srcMapped = false ∨ rq.dstMapped = false ∨
        ∀ d, dma = some d → Accepts d.rxRing rq.dstBuf ∧ Accepts d.txRing rq.srcBuf) := by
  cases dma with
  | none =>
      refine ⟨fun _ => Or.inr (Or.inr fun d hd => ?_), fun _ _ d d' hd => ?_⟩
      · exact absurd hd (by simp only [reduceCtorEq, not_false_eq_true])
      · exact absurd hd (by simp only [reduceCtorEq, not_false_eq_true])
  | some d =>
      rcases hreach d rfl with ⟨es, s, hrun, hdev⟩
      have hwf : RingsWf d := hdev ▸ run_ringsWf hnum hrun
      -- The early returns come before the call takes a descriptor.
      by_cases hmap : rq.srcMapped = false ∨ rq.dstMapped = false
      · refine ⟨fun _ => ?_, fun _ _ d0 d' h0 h' => ?_⟩
        · exact hmap.imp_right Or.inl
        · rw [aesSubmit_unmapped env jiffies d hmap, Option.some.injEq] at h'
          rw [Option.some.injEq] at h0
          rw [← h0, ← h']
          exact Untouched.refl d
      rw [not_or, Bool.not_eq_false, Bool.not_eq_false] at hmap
      rcases hmap with ⟨hsrc, hdst⟩
      constructor
      · intro hclean
        refine Or.inr (Or.inr fun d0 h0 => ?_)
        rw [Option.some.injEq] at h0
        rw [← h0]
        by_contra hno
        exact (not_failsClean_of_refused env jiffies hwf hsrc hdst hno).2 hclean
      · rintro (hbad | hbad | hacc)
        · exact absurd (hsrc.symm.trans hbad) (by simp only [Bool.true_eq_false, not_false_eq_true])
        · exact absurd (hdst.symm.trans hbad) (by simp only [Bool.true_eq_false, not_false_eq_true])
        · intro hres
          have hok := hacc d rfl
          exact absurd (aesSubmit_accepted env jiffies hwf hsrc hdst hok.1 hok.2) hres

/-- A request of one block on the idle device. -/
theorem aesSubmit_block_failsClean :
    (aesSubmit plainEnv 0 (some (System.init bdNum).dev) (blockRequest 1 0)).2 = 0 ∧
      FailsClean plainEnv 0 (some (System.init bdNum).dev) (blockRequest 1 0) := by
  refine ⟨rfl, (aesSubmit_failsClean_iff plainEnv bdNum_pos _ ?_ 0
    (blockRequest 1 0)).mpr (Or.inr (Or.inr ?_))⟩
  · intro d hd
    rw [Option.some.injEq] at hd
    exact ⟨[], _, Run.nil _, hd⟩
  · intro d hd
    rw [Option.some.injEq] at hd
    rw [← hd]
    have hwf := init_ringsWf bdNum_pos
    exact ⟨(postBuf_ok_iff (hwf true) _ 0).mp rfl, (postBuf_ok_iff (hwf false) _ 0).mp rfl⟩

theorem segLen_block (a : Nat) {left : Int} (h : 16 ≤ left) : segLen ⟨a, 16⟩ left = 16 := by
  have hlen : toInt ((16 : Nat) : Int) = 16 := by decide
  rw [segLen, hlen]
  exact Int.min_eq_left h

/-- Segments of one block each are all needed. -/
theorem sgCntUpdate_blocks (a : Nat) : ∀ n : Nat, 16 * (n + 1) < 2 ^ 31 →
    sgCntUpdate (List.replicate (n + 1) ⟨a, 16⟩) (16 * ((n + 1 : Nat) : Int)) = n + 1 := by
  intro n
  induction n with
  | zero =>
      intro _
      simp only [List.replicate_succ, List.replicate_zero, sgCntUpdate]
      rw [segLen_block a (by omega)]
      rfl
  | succ n ih =>
      intro hn
      have hleft : toInt (16 * ((n + 1 + 1 : Nat) : Int) - 16) = 16 * ((n + 1 : Nat) : Int) := by
        rw [toInt_eq_self (by omega) (by omega)]
        omega
      rw [List.replicate_succ]
      simp only [sgCntUpdate]
      rw [segLen_block a (by omega), hleft, if_neg (by omega), ih (by omega)]

/-- A request with more segments than the ring has descriptors is refused and
    leaves a trace, on a device that has done nothing yet. -/
theorem oversized_not_failsClean :
    (aesSubmit plainEnv 0 (some (System.init bdNum).dev) (blockRequest (bdNum + 1) 0)).2 ≠ 0 ∧
      ¬ FailsClean plainEnv 0 (some (System.init bdNum).dev) (blockRequest (bdNum + 1) 0) := by
  have hcnt : dmaBufCnt (blockRequest (bdNum + 1) 0).dstBuf = bdNum + 1 := by
    change ((List.replicate (bdNum + 1) (⟨0x2000, 16⟩ : SgEntry)).take
      (sgCntUpdate (List.replicate (bdNum + 1) ⟨0x2000, 16⟩)
        (16 * ((bdNum + 1 : Nat) : Int)))).length = _
    rw [sgCntUpdate_blocks _ _ (by decide), List.length_take, List.length_replicate, Nat.min_self]
  have hno : ¬ Accepts (System.init bdNum).dev.rxRing (blockRequest (bdNum + 1) 0).dstBuf := by
    intro h
    have hroom := h.room
    rw [hcnt] at hroom
    exact absurd hroom (Nat.not_succ_le_self bdNum)
  exact not_failsClean_of_refused plainEnv 0 (init_ringsWf bdNum_pos) rfl rfl fun h => hno h.1

end Driver

end Ml605
