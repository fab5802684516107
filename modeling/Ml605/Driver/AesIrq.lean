import Ml605.Driver.BdVisible

/-!
# Interrupts of the TX Channel

How finished packets get from the hardware to `tx_handle_bh`. The DMA engine
sets an event in the status register of the channel some time after it has
finished a packet. `aes_isr`, called for the interrupt and by the poll timer,
looks at the register and calls `aes_tx_isr`, which reads it, acknowledges what
it has read, and under `tx_bh_lock` puts the device on `tx_head`, disables the
interrupt of the channel and schedules the tasklet. The tasklet takes devices
off the list, reclaims finished descriptors until there are none, and enables
the interrupt again.

The calls of `aes_isr` may overlap, since the timer does not wait for the
interrupt, and the tasklet may be at work on the device while an event is
acknowledged. A register access is one step, and so is a section under a lock;
of the loop of the tasklet each round is one. The rest of the driver goes on as
in `AesSystem`. No error bit is ever set.

A finished packet must not be forgotten. `Attended` lists who may have to do
the next step for it. Between its acknowledgement and its section under the
lock a call of `aes_tx_isr` is the only one who knows of it.

## Main definitions

* `IrqBits`: The events of the status register.
* `Isr`, `Bh`: How far a call of `aes_isr` and the tasklet are.
* `IrqSys`, `IrqEvent`, `irqStep`: The driver with its interrupts.
* `Attended`: Someone will see to the packet.
* `Watched`: The invariant.

## Theorems

* `sysStep_watched`: The rest of the driver keeps it.
* `lock_watched`: The section under `tx_bh_lock` hands the event over.
* `irqStep_watched`: Every step keeps it.
* `run_attended`: No finished packet is forgotten.
-/

namespace Ml605

namespace Driver

open Lib

/-- The completion and the delay event. -/
structure IrqBits where
  ioc : Bool
  delay : Bool
deriving DecidableEq, Repr

namespace IrqBits

def any (b : IrqBits) : Bool := b.ioc || b.delay

/-- The events of the hardware are added to those that are set. -/
def or (b b' : IrqBits) : IrqBits := ⟨b.ioc || b'.ioc, b.delay || b'.delay⟩

/-- An acknowledgement clears the bits that are written. -/
def without (b b' : IrqBits) : IrqBits := ⟨b.ioc && !b'.ioc, b.delay && !b'.delay⟩

theorem or_any (b : IrqBits) {b' : IrqBits} (h : b'.any = true) : (b.or b').any = true := by
  unfold any at h ⊢
  unfold or
  cases hioc : b'.ioc with
  | true => rw [Bool.or_true, Bool.true_or]
  | false =>
      rw [hioc, Bool.false_or] at h
      rw [h, Bool.or_true, Bool.or_true]

/-- An event that is cleared was among those written. -/
theorem any_or_of_without {b b' : IrqBits} (h : b.any = true) :
    (b.without b').any = true ∨ b'.any = true := by
  cases hany : b'.any with
  | true => exact Or.inr rfl
  | false =>
      rcases Bool.or_eq_false_iff.mp hany with ⟨hioc, hdelay⟩
      unfold any without
      rw [hioc, hdelay, Bool.not_false, Bool.and_true, Bool.and_true]
      exact Or.inl h

end IrqBits

/-- How far a call of `aes_isr` is in its part for the TX channel, with the
    status that `aes_tx_isr` has read. -/
inductive Isr
  | out
  | entered
  | read (sts : IrqBits)
  | acked (sts : IrqBits)
deriving DecidableEq, Repr

/-- How far the tasklet is: about to look at `tx_head`, in the loop of a device,
    or behind that loop and about to enable the interrupt. -/
inductive Bh
  | idle
  | look
  | process (dev : Nat)
  | finished (dev : Nat)
deriving DecidableEq, Repr

/-- The driver and the interrupts of its TX channel. `announced` counts the
    finished descriptors, oldest first, whose event has been set; for those
    behind it the event is still to come. -/
structure IrqSys where
  sys : System
  announced : Nat
  sr : IrqBits
  intEnabled : Bool
  txHead : List Nat
  scheduled : Bool
  bh : Bh
  isr : Nat → Isr

/-- The steps of the interrupts. -/
inductive IrqEvent
  /-- A step of the rest of the driver or of the hardware. -/
  | sys (e : Event)
  /-- The hardware sets an event, for the finished packets up to some descriptor. -/
  | raise (bits : IrqBits) (upto : Nat)
  /-- A call of `aes_isr` reads the status register. -/
  | enter (call : Nat)
  /-- `aes_tx_isr` reads it again. -/
  | readSts (call : Nat)
  /-- `aes_tx_isr` acknowledges what it has read. -/
  | ack (call : Nat)
  /-- The section of `aes_tx_isr` under `tx_bh_lock`. -/
  | lock (call : Nat)
  /-- The same section for another device. -/
  | other (dev : Nat)
  /-- The tasklet starts. -/
  | start
  /-- The section of `tx_handle_bh` under `tx_bh_lock`. -/
  | look
  /-- A round of its loop over finished descriptors. -/
  | fromHw
  /-- It enables the interrupt. -/
  | enable

/-- This device on `tx_head`. -/
def ours : Nat := 0

namespace IrqSys

/-- The descriptors a bottom half would take back. -/
def visible (s : IrqSys) : Nat := Driver.visible (s.sys.dev.ring false)

def setIsr (s : IrqSys) (call : Nat) (i : Isr) : IrqSys :=
  { s with isr := Function.update s.isr call i }

/-- The state after `aes_probe`, which enables the interrupt. -/
def init (num : Nat) : IrqSys where
  sys := System.init num
  announced := 0
  sr := ⟨false, false⟩
  intEnabled := true
  txHead := []
  scheduled := false
  bh := .idle
  isr := fun _ => .out

end IrqSys

/-- The section of `aes_tx_isr` under `tx_bh_lock`: a device that is not on the
    list is added, its interrupt disabled and the tasklet scheduled. -/
def lockSection (sts : IrqBits) (s : IrqSys) : IrqSys :=
  if sts.any = true ∧ ours ∉ s.txHead then
    { s with txHead := s.txHead ++ [ours], intEnabled := false, scheduled := true }
  else s

/-- A round of `tx_handle_bh`. -/
def Event.isTxReclaim : Event → Bool
  | .reclaim false => true
  | _ => false

/-- One step, `none` when the event cannot happen now. -/
def irqStep (env : Env) (s : IrqSys) : IrqEvent → Option IrqSys
  | .sys e =>
    -- On the TX ring it is only the tasklet that takes descriptors back.
    if e.isTxReclaim then none else (step env s.sys e).map fun t => { s with sys := t }
  | .raise bits upto =>
    if bits.any = true ∧ s.announced ≤ upto ∧ upto ≤ s.visible then
      some { s with sr := s.sr.or bits, announced := upto }
    else none
  | .enter call =>
    match s.isr call with
    | .out => some (if s.sr.any then s.setIsr call .entered else s)
    | _ => none
  | .readSts call =>
    match s.isr call with
    | .entered => some (s.setIsr call (.read s.sr))
    | _ => none
  | .ack call =>
    match s.isr call with
    | .read sts => some ({ s with sr := s.sr.without sts }.setIsr call (.acked sts))
    | _ => none
  | .lock call =>
    match s.isr call with
    | .acked sts => some ((lockSection sts s).setIsr call .out)
    | _ => none
  | .other dev =>
    if dev = ours then none
    else if dev ∈ s.txHead then some s
    else some { s with txHead := s.txHead ++ [dev], scheduled := true }
  | .start =>
    -- The scheduled bit is cleared before the function runs.
    match s.bh with
    | .idle => if s.scheduled then some { s with scheduled := false, bh := .look } else none
    | _ => none
  | .look =>
    match s.bh, s.txHead with
    | .look, [] => some { s with bh := .idle }
    | .look, dev :: rest => some { s with txHead := rest, bh := .process dev }
    | _, _ => none
  | .fromHw =>
    match s.bh with
    | .process dev =>
      if dev = ours ∧ s.visible ≠ 0 then
        (step env s.sys (.reclaim false)).map fun t =>
          { s with sys := t, announced := s.announced - s.visible }
      else some { s with bh := .finished dev }
    | _ => none
  | .enable =>
    match s.bh with
    | .finished dev =>
      some { s with bh := .look, intEnabled := s.intEnabled || decide (dev = ours) }
    | _ => none

/-- Someone will see to the finished descriptor `p`. -/
inductive Attended (s : IrqSys) (p : Nat) : Prop
  /-- Its event is still to come. -/
  | toCome (h : s.announced ≤ p)
  /-- An event is set in the status register. -/
  | unacked (h : s.sr.any = true)
  /-- The device is on the list, and the tasklet is scheduled or will look at the
      list again. -/
  | listed (h : ours ∈ s.txHead) (hrun : s.scheduled = true ∨ s.bh ≠ .idle)
  /-- The tasklet has taken the device off the list and will call
      `XAxiDma_BdRingFromHw`. -/
  | taken (h : s.bh = .process ours)
  /-- A call of `aes_tx_isr` has acknowledged an event and will take the lock. -/
  | acked (call : Nat) (sts : IrqBits) (h : s.isr call = .acked sts) (hany : sts.any = true)

/-- What holds in every state: no finished packet is forgotten, and an interrupt
    that is disabled will be enabled. -/
structure Attentive (s : IrqSys) : Prop where
  attended : ∀ p, p < s.visible → Attended s p
  disabled : s.intEnabled = false →
    ours ∈ s.txHead ∨ s.bh = .process ours ∨ s.bh = .finished ours

/-- The invariant. -/
structure Watched (s : IrqSys) : Prop extends Attentive s where
  wf : RingsWf s.sys.dev
  channel : TxChannel s.sys
  announced : s.announced ≤ s.visible
  running : ours ∈ s.txHead → s.scheduled = true ∨ s.bh ≠ .idle

section Steps

variable {env : Env} {s t : IrqSys} {p : Nat}

/-- A step that touches neither the events nor the calls has only to say what
    becomes of the list and of the tasklet. -/
theorem Attended.moved (h : Attended s p) (hann : t.announced = s.announced) (hsr : t.sr = s.sr)
    (hisr : t.isr = s.isr) (hlisted : ours ∈ s.txHead → Attended t p)
    (htaken : s.bh = .process ours → Attended t p) : Attended t p := by
  cases h with
  | toCome h => exact .toCome (hann.trans_le h)
  | unacked h => exact .unacked (hsr ▸ h)
  | listed h _ => exact hlisted h
  | taken h => exact htaken h
  | acked call sts h hany => exact .acked call sts ((congrFun hisr call).trans h) hany

/-- With the tasklet not at work on it, a disabled device is on the list. -/
theorem Watched.listed_of_disabled (h : Watched s) (hoff : s.intEnabled = false)
    (hprocess : s.bh ≠ .process ours) (hfinished : s.bh ≠ .finished ours) : ours ∈ s.txHead :=
  (h.disabled hoff).resolve_right fun hbh => hbh.elim hprocess hfinished

/-- The rest of the driver only adds packets, and their events are to come. -/
theorem sysStep_watched (h : Watched s) {e : Event} {u : System}
    (hstep : step env s.sys e = some u) (hne : e ≠ .reclaim false) :
    Watched { s with sys := u } := by
  have hmore : s.visible ≤ IrqSys.visible { s with sys := u } :=
    visible_le_of_ahead h.channel (step_ahead hstep hne h.wf)
  refine ⟨⟨fun p _ => ?_, h.disabled⟩, step_ringsWf hstep h.wf,
    step_txChannel hstep h.wf h.channel, Nat.le_trans h.announced hmore, h.running⟩
  by_cases hp : p < s.visible
  · exact (h.attended p hp).moved rfl rfl rfl (fun hin => .listed hin (h.running hin))
      fun hbh => .taken hbh
  · have hannounced := h.announced
    exact .toCome (show s.announced ≤ p by omega)

theorem raise_watched (h : Watched s) {bits : IrqBits} (hany : bits.any = true) {upto : Nat}
    (hupto : upto ≤ s.visible) : Watched { s with sr := s.sr.or bits, announced := upto } :=
  ⟨⟨fun _ _ => .unacked (IrqBits.or_any _ hany), h.disabled⟩, h.wf, h.channel, hupto, h.running⟩

/-- A call that has nothing to hand over moves on. -/
theorem setIsr_watched (h : Watched s) {call : Nat} (i : Isr)
    (hnone : ∀ sts, s.isr call = .acked sts → sts.any = false) : Watched (s.setIsr call i) := by
  refine ⟨⟨fun p hp => ?_, h.disabled⟩, h.wf, h.channel, h.announced, h.running⟩
  cases h.attended p hp with
  | toCome h => exact .toCome h
  | unacked h => exact .unacked h
  | listed h hrun => exact .listed h hrun
  | taken h => exact .taken h
  | acked call' sts h hany =>
      by_cases hcall : call' = call
      · rw [hcall] at h
        rw [hnone sts h] at hany
        exact nomatch hany
      · exact .acked call' sts ((Function.update_of_ne hcall _ s.isr).trans h) hany

/-- An acknowledgement clears only events that the call has read. -/
theorem ack_watched (h : Watched s) {call : Nat} {sts : IrqBits} (hisr : s.isr call = .read sts) :
    Watched ({ s with sr := s.sr.without sts }.setIsr call (.acked sts)) := by
  refine ⟨⟨fun p hp => ?_, h.disabled⟩, h.wf, h.channel, h.announced, h.running⟩
  cases h.attended p hp with
  | toCome h => exact .toCome h
  | unacked h =>
      rcases IrqBits.any_or_of_without h with hleft | hread
      · exact .unacked hleft
      · exact .acked call sts (Function.update_self call _ s.isr) hread
  | listed h hrun => exact .listed h hrun
  | taken h => exact .taken h
  | acked call' sts' h hany =>
      have hcall : call' ≠ call := by
        rintro rfl
        exact nomatch hisr.symm.trans h
      exact .acked call' sts' ((Function.update_of_ne hcall _ s.isr).trans h) hany

/-- The section under the lock hands the event over to the tasklet. -/
theorem lock_watched (h : Watched s) {call : Nat} {sts : IrqBits}
    (hisr : s.isr call = .acked sts) : Watched ((lockSection sts s).setIsr call .out) := by
  unfold lockSection
  by_cases hadd : sts.any = true ∧ ours ∉ s.txHead
  · rw [if_pos hadd]
    have hin : ours ∈ s.txHead ++ [ours] := List.mem_append_right _ (List.mem_singleton_self _)
    exact ⟨⟨fun _ _ => .listed hin (Or.inl rfl), fun _ => Or.inl hin⟩, h.wf, h.channel, h.announced,
      fun _ => Or.inl rfl⟩
  · rw [if_neg hadd]
    cases hany : sts.any with
    | false =>
        refine setIsr_watched h .out fun sts' hsts' => ?_
        rw [hisr] at hsts'
        rw [← Isr.acked.inj hsts']
        exact hany
    | true =>
        -- The device is on the list already, so the tasklet will look at it.
        have hin : ours ∈ s.txHead := by
          by_contra hout
          exact hadd ⟨hany, hout⟩
        exact ⟨⟨fun _ _ => .listed hin (h.running hin), h.disabled⟩, h.wf, h.channel, h.announced,
          h.running⟩

/-- Another device is added behind ours. -/
theorem other_watched (h : Watched s) (dev : Nat) :
    Watched { s with txHead := s.txHead ++ [dev], scheduled := true } := by
  refine ⟨⟨fun p hp => ?_, fun hoff => (h.disabled hoff).imp_left (List.mem_append_left _)⟩, h.wf,
    h.channel, h.announced, fun _ => Or.inl rfl⟩
  exact (h.attended p hp).moved rfl rfl rfl
    (fun hin => .listed (List.mem_append_left _ hin) (Or.inl rfl)) fun hbh => .taken hbh

/-- The tasklet starts. -/
theorem start_watched (h : Watched s) (hidle : s.bh = .idle) :
    Watched { s with scheduled := false, bh := .look } := by
  refine ⟨⟨fun p hp => ?_, fun hoff => ?_⟩, h.wf, h.channel, h.announced, fun _ => Or.inr nofun⟩
  · exact (h.attended p hp).moved rfl rfl rfl (fun hin => .listed hin (Or.inr nofun))
      fun hbh => nomatch hidle.symm.trans hbh
  · exact Or.inl (h.listed_of_disabled hoff (by rw [hidle]; exact nofun)
      (by rw [hidle]; exact nofun))

/-- The tasklet ends when the list is empty. -/
theorem look_nil_watched (h : Watched s) (hlook : s.bh = .look) (hnil : s.txHead = []) :
    Watched { s with bh := .idle } := by
  have hout : ours ∉ s.txHead := by
    rw [hnil]
    exact List.not_mem_nil
  refine ⟨⟨fun p hp => ?_, fun hoff => ?_⟩, h.wf, h.channel, h.announced,
    fun hin => absurd hin hout⟩
  · exact (h.attended p hp).moved rfl rfl rfl (fun hin => absurd hin hout)
      fun hbh => nomatch hlook.symm.trans hbh
  · exact absurd (h.listed_of_disabled hoff (by rw [hlook]; exact nofun)
      (by rw [hlook]; exact nofun)) hout

/-- The tasklet takes the first device off the list. -/
theorem look_cons_watched (h : Watched s) (hlook : s.bh = .look) {dev : Nat} {rest : List Nat}
    (hcons : s.txHead = dev :: rest) : Watched { s with txHead := rest, bh := .process dev } := by
  have hsplit : ours ∈ s.txHead → dev = ours ∨ ours ∈ rest := by
    intro hin
    rw [hcons] at hin
    exact (List.mem_cons.mp hin).imp_left Eq.symm
  refine ⟨⟨fun p hp => ?_, fun hoff => ?_⟩, h.wf, h.channel, h.announced, fun _ => Or.inr nofun⟩
  · refine (h.attended p hp).moved rfl rfl rfl (fun hin => ?_)
      fun hbh => nomatch hlook.symm.trans hbh
    rcases hsplit hin with rfl | hrest
    · exact .taken rfl
    · exact .listed hrest (Or.inr nofun)
  · have hin := h.listed_of_disabled hoff (by rw [hlook]; exact nofun) (by rw [hlook]; exact nofun)
    rcases hsplit hin with rfl | hrest
    · exact Or.inr (Or.inl rfl)
    · exact Or.inl hrest

/-- A round that takes descriptors back is followed by another one. -/
theorem reclaim_watched (h : Watched s) (hours : s.bh = .process ours) {u : System}
    (hstep : step env s.sys (.reclaim false) = some u) :
    Watched { s with sys := u, announced := s.announced - s.visible } := by
  have hnone : s.announced - s.visible = 0 := Nat.sub_eq_zero_of_le h.announced
  refine ⟨⟨fun _ _ => .taken hours, h.disabled⟩, step_ringsWf hstep h.wf,
    step_txChannel hstep h.wf h.channel, ?_, h.running⟩
  change s.announced - s.visible ≤ _
  rw [hnone]
  exact Nat.zero_le _

/-- A round that finds nothing is the last one for a device. -/
theorem finished_watched (h : Watched s) {dev : Nat} (hbh : s.bh = .process dev)
    (hnone : ¬ (dev = ours ∧ s.visible ≠ 0)) : Watched { s with bh := .finished dev } := by
  refine ⟨⟨fun p hp => ?_, fun hoff => ?_⟩, h.wf, h.channel, h.announced, fun _ => Or.inr nofun⟩
  · refine (h.attended p hp).moved rfl rfl rfl (fun hin => .listed hin (Or.inr nofun)) ?_
    -- On our own ring there was nothing to find.
    intro hours
    have hdev := Bh.process.inj (hbh.symm.trans hours)
    have hsome : s.visible ≠ 0 := Nat.ne_of_gt (Nat.lt_of_le_of_lt (Nat.zero_le p) hp)
    exact absurd ⟨hdev, hsome⟩ hnone
  · rcases h.disabled hoff with hin | hours | hours
    · exact Or.inl hin
    · exact Or.inr (Or.inr (congrArg Bh.finished (Bh.process.inj (hbh.symm.trans hours))))
    · exact nomatch hbh.symm.trans hours

/-- The interrupt of the device is enabled. -/
theorem enable_watched (h : Watched s) {dev : Nat} (hbh : s.bh = .finished dev) :
    Watched { s with bh := .look, intEnabled := s.intEnabled || decide (dev = ours) } := by
  refine ⟨⟨fun p hp => ?_, fun hoff => ?_⟩, h.wf, h.channel, h.announced, fun _ => Or.inr nofun⟩
  · exact (h.attended p hp).moved rfl rfl rfl (fun hin => .listed hin (Or.inr nofun))
      fun hours => nomatch hbh.symm.trans hours
  · rcases Bool.or_eq_false_iff.mp hoff with ⟨hdisabled, hdev⟩
    rcases h.disabled hdisabled with hin | hours | hours
    · exact Or.inl hin
    · exact nomatch hbh.symm.trans hours
    · exact absurd (Bh.finished.inj (hbh.symm.trans hours)) (of_decide_eq_false hdev)

/-- Every step keeps the invariant. -/
theorem irqStep_watched (h : Watched s) {e : IrqEvent} (hstep : irqStep env s e = some t) :
    Watched t := by
  cases e with
  | sys e =>
      rw [irqStep] at hstep
      split at hstep
      · exact nomatch hstep
      · rename_i hother
        rcases Option.map_eq_some_iff.mp hstep with ⟨u, hu, rfl⟩
        refine sysStep_watched h hu ?_
        rintro rfl
        exact hother rfl
  | raise bits upto =>
      rw [irqStep] at hstep
      split at hstep
      · rename_i hok
        rw [← Option.some.inj hstep]
        exact raise_watched h hok.1 hok.2.2
      · exact nomatch hstep
  -- Before the acknowledge the handler has only read; nothing it saw can be lost.
  | enter call =>
      rw [irqStep] at hstep
      split at hstep
      · rename_i hisr
        rw [← Option.some.inj hstep]
        split
        · exact setIsr_watched h _ fun sts hacked => nomatch hisr.symm.trans hacked
        · exact h
      · exact nomatch hstep
  | readSts call =>
      rw [irqStep] at hstep
      split at hstep
      · rename_i hisr
        rw [← Option.some.inj hstep]
        exact setIsr_watched h _ fun sts hacked => nomatch hisr.symm.trans hacked
      · exact nomatch hstep
  | ack call =>
      rw [irqStep] at hstep
      split at hstep
      · rename_i sts hisr
        rw [← Option.some.inj hstep]
        exact ack_watched h hisr
      · exact nomatch hstep
  | lock call =>
      rw [irqStep] at hstep
      split at hstep
      · rename_i sts hisr
        rw [← Option.some.inj hstep]
        exact lock_watched h hisr
      · exact nomatch hstep
  | other dev =>
      rw [irqStep] at hstep
      split at hstep
      · exact nomatch hstep
      · split at hstep
        · rw [← Option.some.inj hstep]
          exact h
        · rw [← Option.some.inj hstep]
          exact other_watched h dev
  | start =>
      rw [irqStep] at hstep
      split at hstep
      · rename_i hidle
        split at hstep
        · rw [← Option.some.inj hstep]
          exact start_watched h hidle
        · exact nomatch hstep
      · exact nomatch hstep
  | look =>
      rw [irqStep] at hstep
      split at hstep
      · rename_i hlook hnil
        rw [← Option.some.inj hstep]
        exact look_nil_watched h hlook hnil
      · rename_i dev rest hlook hcons
        rw [← Option.some.inj hstep]
        exact look_cons_watched h hlook hcons
      · exact nomatch hstep
  | fromHw =>
      rw [irqStep] at hstep
      split at hstep
      · rename_i dev hbh
        split at hstep
        · rename_i hours
          rcases Option.map_eq_some_iff.mp hstep with ⟨u, hu, rfl⟩
          exact reclaim_watched h (hours.1 ▸ hbh) hu
        · rename_i hnone
          rw [← Option.some.inj hstep]
          exact finished_watched h hbh hnone
      · exact nomatch hstep
  | enable =>
      rw [irqStep] at hstep
      split at hstep
      · rename_i dev hbh
        rw [← Option.some.inj hstep]
        exact enable_watched h hbh
      · exact nomatch hstep

/-- Nothing is posted and nothing is on its way. -/
theorem init_watched {num : Nat} (hnum : 0 < num) : Watched (IrqSys.init num) := by
  refine ⟨⟨fun _ _ => .toCome (Nat.zero_le _), nofun⟩, init_ringsWf hnum, rfl, Nat.zero_le _, nofun⟩

end Steps

/-- **No finished packet is forgotten.** In every state of every interleaving of
    submissions, completions, interrupts, calls of the poll timer and runs of
    the tasklet someone will see to every finished packet, and an interrupt that
    is disabled will be enabled. -/
theorem run_attended (env : Env) {num : Nat} (hnum : 0 < num) (es : List IrqEvent) (s : IrqSys)
    (h : Run (irqStep env) Free (IrqSys.init num) es s) : Attentive s :=
  (run_inv (fun _ _ _ hu _ hstep => irqStep_watched hu hstep) h (init_watched hnum)).toAttentive

/-- A request of one block is posted and finished, its event is set, and a call
    of `aes_tx_isr` acknowledges it. -/
def acknowledged : List IrqEvent :=
  [.sys (.submit 0 (blockRequest 1 7)), .sys (.queue 0 0), .sys (.rx 0), .sys (.tx 0),
    .sys (.put 0), .sys (.complete false 0 true), .raise ⟨true, false⟩ 1, .enter 0, .readSts 0,
    .ack 0]

/-- The call goes on to its section under the lock, and the tasklet runs. -/
theorem run_attended_round : ∃ s, Run (irqStep plainEnv) Free (IrqSys.init bdNum)
    (acknowledged ++ [.lock 0, .start, .look]) s ∧ s.visible = 1 ∧ s.bh = .process ours ∧
      Attentive s := by
  have hrun : Run (irqStep plainEnv) Free (IrqSys.init bdNum)
      (acknowledged ++ [.lock 0, .start, .look]) _ := run_of_foldlM _ _ (fun _ _ _ => trivial) rfl
  exact ⟨_, hrun, rfl, rfl, run_attended plainEnv (by decide) _ _ hrun⟩

/-- Before that the register is clear, the device is not on the list and the
    tasklet is idle, though a packet is finished. -/
theorem acknowledged_unlisted :
    ∃ s, Run (irqStep plainEnv) Free (IrqSys.init bdNum) acknowledged s ∧ 0 < s.visible ∧
      ¬ (s.announced ≤ 0 ∨ s.sr.any = true ∨ (ours ∈ s.txHead ∧ s.scheduled = true) ∨
        s.bh = .process ours) := by
  refine ⟨_, run_of_foldlM acknowledged _ (fun _ _ _ => trivial) rfl, ?_, ?_⟩
  · decide
  · decide

end Driver

end Ml605
