import Mathlib.Data.BitVec
import Ml605.Lib.Run

/-!
# Interrupt Lines of the Virtual PCI Bridge

`vpci.c` puts several functions behind one PCI device. Each function has a port,
two interrupt lines and a table of four handlers; the lines of all ports lie
side by side in one enable register, two bits a port.

Three places work out the bit of a handler on their own. `vpci_request_irq` and
`vpci_free_irq` take any handler number up to 3 and set or clear the bit
`irq + 2 * port`, while `vpci_isr` hands each port its two bits and `vd_isr`
looks at handlers 0 and 1. So the numbers 2 and 3 are accepted and mean the
lines of the next port: registering one enables a line nobody registered, and
freeing one disables a line somebody is using, and the handler itself is never
called.

With the numbers 0 and 1 the three agree. A null handler is the other way to
enable a line without registering anything: the table cannot tell it from a
free entry.

## Main definitions

* `VirtDevice`, `VpciDevice`: A function, and the bridge with its register.
* `vpciRequestIrq`, `vpciFreeIrq`, `vdIsr`, `vpciIsr`: The functions of the
  source.
* `Sound`: The register, the tables and the dispatch agree.
* `OwnLine`: A call that names a line of its own port.

## Theorems

* `isrLoop_calls`: A pending line of a port gets its handler called.
* `step_owned`: Calls for lines of their own keep register and tables together.
* `run_sound`: In every run of such calls they agree.
* `request_two_not_sound`: Handler 2 enables the line of another port.
-/

namespace Ml605

namespace Driver

namespace Vpci

open Lib

/-- `struct virt_device`, as far as interrupts go. A handler is an address and
    `none` the null pointer. -/
structure VirtDevice where
  irqs : Nat → Option Nat
  irqsPriv : Nat → Nat
  port : Nat

/-- `struct vpci_device` with its `IRQ_IER`. -/
structure VpciDevice where
  vd : Fin 8 → Option VirtDevice
  ier : BitVec 32

/-- `-EINVAL`. -/
def einval : Int := -22

/-- `-EBUSY`. -/
def ebusy : Int := -16

/-- `0x1 << (irq + (vd->port << 1))`. -/
def lineMask (vd : VirtDevice) (irq : Nat) : BitVec 32 := 1#32 <<< (irq + (vd.port <<< 1))

/-- One entry of the tables of a function written. -/
def VirtDevice.setIrq (vd : VirtDevice) (irq : Nat) (handler : Option Nat) (priv : Nat) :
    VirtDevice where
  irqs := Function.update vd.irqs irq handler
  irqsPriv := Function.update vd.irqsPriv irq priv
  port := vd.port

/-- The same for the function at a port, and the register. -/
def VpciDevice.setLine (s : VpciDevice) (p : Fin 8) (vd : VirtDevice) (irq : Nat)
    (handler : Option Nat) (priv : Nat) (ier : BitVec 32) : VpciDevice where
  vd := Function.update s.vd p (some (vd.setIrq irq handler priv))
  ier := ier

/-- `vpci_free_irq` for the function at a port. -/
def vpciFreeIrq (s : VpciDevice) (p : Fin 8) (vd : VirtDevice) (irq : Nat) : VpciDevice :=
  if irq > 3 then s
  else s.setLine p vd irq none 0 (s.ier &&& ~~~ lineMask vd irq)

/-- `vpci_request_irq` for the function at a port. -/
def vpciRequestIrq (s : VpciDevice) (p : Fin 8) (vd : VirtDevice) (irq : Nat)
    (handler : Option Nat) (dev : Nat) : VpciDevice × Int :=
  if irq > 3 then (s, einval)
  else if vd.irqs irq ≠ none then (s, ebusy)
  else (s.setLine p vd irq handler dev (s.ier ||| lineMask vd irq), 0)

/-- A call of a handler. -/
structure Call where
  port : Nat
  irq : Nat
  handler : Nat
  priv : Nat
deriving DecidableEq, Repr

/-- One pass of the loop in `vd_isr`. -/
def vdIsrLine (vd : VirtDevice) (irq : BitVec 32) (i : Nat) : List Call :=
  if irq &&& (1#32 <<< i) = 0 then []
  else match vd.irqs i with
    -- There is only a message about a line without a handler.
    | none => []
    | some h => [⟨vd.port, i, h, vd.irqsPriv i⟩]

/-- `vd_isr`. -/
def vdIsr : Option VirtDevice → BitVec 32 → List Call
  | none, _ => []
  | some vd, irq => vdIsrLine vd irq 0 ++ vdIsrLine vd irq 1

/-- The loop of `vpci_isr` over the ports. -/
def isrLoop : List (Option VirtDevice) → BitVec 32 → List Call
  | [], _ => []
  | vd :: vds, irqPending =>
    if irqPending = 0 then []
    else vdIsr vd (irqPending &&& 3#32) ++ isrLoop vds (irqPending >>> 2)

/-- `vpci_isr` for a given `IRQ_IPR`: the handlers it calls and what it writes
    to `IRQ_IAR`, if it takes the interrupt. -/
def vpciIsr (s : VpciDevice) (irqPending : BitVec 32) : List Call × Option (BitVec 32) :=
  if irqPending = 0 then ([], none)
  else (isrLoop (List.ofFn s.vd) irqPending, some irqPending)

/-- A call of one of the two functions. -/
inductive Op
  | request (p : Fin 8) (irq : Nat) (handler : Option Nat) (dev : Nat)
  | free (p : Fin 8) (irq : Nat)

/-- One call, on a port that has a function. -/
def step (s : VpciDevice) : Op → Option VpciDevice
  | .request p irq handler dev => (s.vd p).map fun vd => (vpciRequestIrq s p vd irq handler dev).1
  | .free p irq => (s.vd p).map fun vd => vpciFreeIrq s p vd irq

/-- The bridge after `vpci_probe` has set up its first `funNum` ports: no handler
    and all lines disabled. -/
def probe (funNum : Nat) : VpciDevice where
  vd := fun p => if p < funNum then some ⟨fun _ => none, fun _ => 0, p⟩ else none
  ier := 0

/-- The handler that is registered for a port, if there is one. -/
def VpciDevice.handler (s : VpciDevice) (p : Fin 8) (irq : Nat) : Option Nat :=
  (s.vd p).bind fun vd => vd.irqs irq

/-- The register, the tables and the dispatch agree. A line is enabled exactly
    when its handler is registered, a refused call changes nothing, and every
    registered handler is called when its line is pending. -/
structure Sound (s : VpciDevice) : Prop where
  lines : ∀ (p : Fin 8) (i : Nat), i < 2 → s.ier.getLsbD (2 * p + i) = (s.handler p i).isSome
  refused : ∀ (p : Fin 8) (vd : VirtDevice) (irq : Nat) (handler : Option Nat) (dev : Nat),
    s.vd p = some vd → (vpciRequestIrq s p vd irq handler dev).2 ≠ 0 →
      (vpciRequestIrq s p vd irq handler dev).1 = s
  called : ∀ (p : Fin 8) (irq h : Nat), s.handler p irq = some h →
    ∀ irqPending : BitVec 32, irqPending.getLsbD (2 * p + irq) = true →
      ∃ priv, ⟨p, irq, h, priv⟩ ∈ (vpciIsr s irqPending).1

/-- A call for one of the two lines of the port, or one that is turned down for
    its number, and with a handler if it registers one. -/
def OwnLine (_ : VpciDevice) : Op → Prop
  | .request _ irq handler _ => (irq < 2 ∨ 3 < irq) ∧ handler ≠ none
  | .free _ irq => irq < 2 ∨ 3 < irq

/-- What holds between two calls: each function knows its port, has nothing but
    its two lines, and these are enabled when they have a handler. -/
structure Owned (s : VpciDevice) : Prop where
  port : ∀ (p : Fin 8) (vd : VirtDevice), s.vd p = some vd → vd.port = p
  upper : ∀ (p : Fin 8) (vd : VirtDevice), s.vd p = some vd → ∀ irq, 2 ≤ irq → vd.irqs irq = none
  lines : ∀ (p : Fin 8) (i : Nat), i < 2 → s.ier.getLsbD (2 * p + i) = (s.handler p i).isSome

section Bits

/-- A mask has the bit of its line and no other. -/
theorem getLsbD_lineMask (vd : VirtDevice) (irq : Nat) {m : Nat} (hm : m < 32) :
    (lineMask vd irq).getLsbD m = decide (m = irq + 2 * vd.port) := by
  unfold lineMask
  rw [BitVec.getLsbD_shiftLeft, BitVec.getLsbD_one, Nat.shiftLeft_eq, Bool.eq_iff_iff]
  simp only [Bool.and_eq_true, Bool.not_eq_true', decide_eq_true_eq, decide_eq_false_iff_not]
  omega

/-- The bit that `vd_isr` tests for a line, of the two that a port is handed. -/
theorem line_pending {irqPending : BitVec 32} {i : Nat} (hi : i < 2)
    (h : irqPending.getLsbD i = true) : (irqPending &&& 3#32) &&& (1#32 <<< i) ≠ 0 := by
  intro hzero
  have hbit := congrArg (fun x => x.getLsbD i) hzero
  have hmask : (3#32).getLsbD i = true ∧ (1#32 <<< i).getLsbD i = true := by
    have hcases : i = 0 ∨ i = 1 := by omega
    rcases hcases with rfl | rfl <;> exact ⟨rfl, rfl⟩
  rw [BitVec.getLsbD_and, BitVec.getLsbD_and, h, hmask.1, hmask.2] at hbit
  exact Bool.false_ne_true (hbit.trans BitVec.getLsbD_zero).symm

end Bits

section Dispatch

/-- A pending line of a port that has a handler gets it called. -/
theorem vdIsr_calls {vd : VirtDevice} {irqPending : BitVec 32} {i h : Nat} (hi : i < 2)
    (hbit : irqPending.getLsbD i = true) (hh : vd.irqs i = some h) :
    ⟨vd.port, i, h, vd.irqsPriv i⟩ ∈ vdIsr (some vd) (irqPending &&& 3#32) := by
  have hline : vdIsrLine vd (irqPending &&& 3#32) i = [⟨vd.port, i, h, vd.irqsPriv i⟩] := by
    unfold vdIsrLine
    rw [if_neg (line_pending hi hbit), hh]
  have hcases : i = 0 ∨ i = 1 := by omega
  unfold vdIsr
  rcases hcases with rfl | rfl
  · exact List.mem_append_left _ (by rw [hline]; exact List.mem_singleton.mpr rfl)
  · exact List.mem_append_right _ (by rw [hline]; exact List.mem_singleton.mpr rfl)

/-- A register in which a line is pending is not zero. -/
theorem ne_zero_of_getLsbD {v : BitVec 32} {k : Nat} (hbit : v.getLsbD k = true) : v ≠ 0 := by
  rintro rfl
  exact Bool.false_ne_true (BitVec.getLsbD_zero.symm.trans hbit)

/-- The loop gets to the port of every pending line: it stops early only when
    nothing is pending behind. The induction is on the ports, and each pass
    moves the bits of the next port down. -/
theorem isrLoop_calls {vd : VirtDevice} {i h : Nat} (hi : i < 2) (hh : vd.irqs i = some h) :
    ∀ (vds : List (Option VirtDevice)) (k : Nat) (irqPending : BitVec 32),
      vds[k]? = some (some vd) → irqPending.getLsbD (2 * k + i) = true →
      ⟨vd.port, i, h, vd.irqsPriv i⟩ ∈ isrLoop vds irqPending := by
  intro vds
  induction vds with
  | nil =>
      intro k _ hk
      exact nomatch hk
  | cons first rest ih =>
      intro k irqPending hk hbit
      have hsome : irqPending ≠ 0 := ne_zero_of_getLsbD hbit
      unfold isrLoop
      rw [if_neg hsome]
      cases k with
      | zero =>
          rw [List.getElem?_cons_zero, Option.some.injEq] at hk
          rw [Nat.mul_zero, Nat.zero_add] at hbit
          subst hk
          exact List.mem_append_left _ (vdIsr_calls hi hbit hh)
      | succ k =>
          refine List.mem_append_right _ (ih k _ hk ?_)
          rw [BitVec.getLsbD_ushiftRight]
          have hpos : 2 + (2 * k + i) = 2 * (k + 1) + i := by omega
          rw [hpos]
          exact hbit

end Dispatch

section Calls

theorem handler_of_vd {s : VpciDevice} {p : Fin 8} {vd : VirtDevice} (h : s.vd p = some vd)
    (j : Nat) : s.handler p j = vd.irqs j := by
  unfold VpciDevice.handler
  rw [h]
  rfl

theorem setIrq_irqs_self (vd : VirtDevice) (irq : Nat) (h : Option Nat) (priv : Nat) :
    (vd.setIrq irq h priv).irqs irq = h := Function.update_self ..

theorem setIrq_irqs_of_ne (vd : VirtDevice) (h : Option Nat) (priv : Nat) {irq j : Nat}
    (hj : j ≠ irq) : (vd.setIrq irq h priv).irqs j = vd.irqs j := Function.update_of_ne hj ..

theorem setLine_vd_self (s : VpciDevice) (p : Fin 8) (vd : VirtDevice) (irq priv : Nat)
    (h : Option Nat) (ier : BitVec 32) :
    (s.setLine p vd irq h priv ier).vd p = some (vd.setIrq irq h priv) := Function.update_self ..

theorem setLine_vd_of_ne (s : VpciDevice) {p q : Fin 8} (hq : q ≠ p) (vd : VirtDevice)
    (irq priv : Nat) (h : Option Nat) (ier : BitVec 32) :
    (s.setLine p vd irq h priv ier).vd q = s.vd q := Function.update_of_ne hq ..

variable {s : VpciDevice} (ho : Owned s)

include ho

/-- One line of one port gets a handler or loses it, and its bit follows. -/
theorem setLine_owned {p : Fin 8} {vd : VirtDevice} (hvd : s.vd p = some vd) {irq : Nat}
    (hirq : irq < 2) (h : Option Nat) (priv : Nat) {ier : BitVec 32}
    (hier : ∀ m, m < 32 →
      ier.getLsbD m = if m = irq + 2 * vd.port then h.isSome else s.ier.getLsbD m) :
    Owned (s.setLine p vd irq h priv ier) := by
  have hport := ho.port p vd hvd
  have hself := setLine_vd_self s p vd irq priv h ier
  have hother : ∀ {q}, q ≠ p → (s.setLine p vd irq h priv ier).vd q = s.vd q :=
    fun hq => setLine_vd_of_ne s hq vd irq priv h ier
  refine ⟨?_, ?_, ?_⟩
  · intro q vd' hq
    by_cases hqp : q = p
    · rw [hqp, hself] at hq
      rw [← Option.some.inj hq, hqp]
      exact hport
    · exact ho.port q vd' ((hother hqp).symm.trans hq)
  · intro q vd' hq j hj
    by_cases hqp : q = p
    · rw [hqp, hself] at hq
      rw [← Option.some.inj hq, setIrq_irqs_of_ne vd h priv (by omega)]
      exact ho.upper p vd hvd j hj
    · exact ho.upper q vd' ((hother hqp).symm.trans hq) j hj
  · intro q j hj
    have hq := q.isLt
    change ier.getLsbD (2 * q + j) = _
    rw [hier _ (by omega), hport]
    by_cases hqp : q = p
    · rw [hqp, handler_of_vd hself]
      by_cases hji : j = irq
      · rw [hji, if_pos (Nat.add_comm _ _), setIrq_irqs_self]
      · rw [if_neg (by omega), setIrq_irqs_of_ne vd h priv hji, ho.lines p j hj, handler_of_vd hvd]
    · -- The line of another port has another bit.
      have hne : (q : Nat) ≠ p := fun heq => hqp (Fin.ext heq)
      rw [if_neg (by omega), ho.lines q j hj]
      unfold VpciDevice.handler
      rw [hother hqp]

theorem vpciRequestIrq_owned {p : Fin 8} {vd : VirtDevice} (hvd : s.vd p = some vd) {irq : Nat}
    (hirq : irq < 2 ∨ 3 < irq) {handler : Option Nat} (hh : handler ≠ none) (dev : Nat) :
    Owned (vpciRequestIrq s p vd irq handler dev).1 := by
  unfold vpciRequestIrq
  by_cases hrange : irq > 3
  · rw [if_pos hrange]
    exact ho
  · rw [if_neg hrange]
    by_cases hbusy : vd.irqs irq ≠ none
    · rw [if_pos hbusy]
      exact ho
    · rw [if_neg hbusy]
      refine setLine_owned ho hvd (by omega) handler dev ?_
      intro m hm
      rw [BitVec.getLsbD_or, getLsbD_lineMask vd irq hm]
      by_cases hbit : m = irq + 2 * vd.port
      · rw [if_pos hbit, decide_eq_true hbit, Bool.or_true, Option.isSome_iff_ne_none.mpr hh]
      · rw [if_neg hbit, decide_eq_false hbit, Bool.or_false]

theorem vpciFreeIrq_owned {p : Fin 8} {vd : VirtDevice} (hvd : s.vd p = some vd) {irq : Nat}
    (hirq : irq < 2 ∨ 3 < irq) : Owned (vpciFreeIrq s p vd irq) := by
  unfold vpciFreeIrq
  by_cases hrange : irq > 3
  · rw [if_pos hrange]
    exact ho
  · rw [if_neg hrange]
    refine setLine_owned ho hvd (by omega) none 0 ?_
    intro m hm
    rw [BitVec.getLsbD_and, BitVec.getLsbD_not, getLsbD_lineMask vd irq hm, decide_eq_true hm]
    by_cases hbit : m = irq + 2 * vd.port
    · rw [if_pos hbit, decide_eq_true hbit]
      exact Bool.and_false _
    · rw [if_neg hbit, decide_eq_false hbit]
      exact Bool.and_true _

/-- Calls for lines of their own keep register and tables together. -/
theorem step_owned {op : Op} {s' : VpciDevice} (hop : OwnLine s op) (hstep : step s op = some s') :
    Owned s' := by
  cases op with
  | request p irq handler dev =>
      rcases Option.map_eq_some_iff.mp hstep with ⟨vd, hvd, rfl⟩
      exact vpciRequestIrq_owned ho hvd hop.1 hop.2 dev
  | free p irq =>
      rcases Option.map_eq_some_iff.mp hstep with ⟨vd, hvd, rfl⟩
      exact vpciFreeIrq_owned ho hvd hop

/-- Register and tables that are together make the dispatch right as well. -/
theorem Owned.sound : Sound s := by
  refine ⟨ho.lines, ?_, ?_⟩
  · intro p vd irq handler dev _ herr
    unfold vpciRequestIrq at herr ⊢
    by_cases hrange : irq > 3
    · rw [if_pos hrange]
    · rw [if_neg hrange] at herr ⊢
      by_cases hbusy : vd.irqs irq ≠ none
      · rw [if_pos hbusy]
      · rw [if_neg hbusy] at herr
        exact absurd rfl herr
  · intro p irq h hh irqPending hbit
    rcases Option.bind_eq_some_iff.mp hh with ⟨vd, hvd, hirqs⟩
    have hirq : irq < 2 := by
      by_contra hge
      rw [ho.upper p vd hvd irq (by omega)] at hirqs
      exact nomatch hirqs
    have hsome : irqPending ≠ 0 := ne_zero_of_getLsbD hbit
    refine ⟨vd.irqsPriv irq, ?_⟩
    unfold vpciIsr
    rw [if_neg hsome, ← ho.port p vd hvd]
    refine isrLoop_calls hirq hirqs _ p irqPending ?_ hbit
    rw [List.getElem?_ofFn, dif_pos p.isLt, hvd]

end Calls

theorem probe_owned (funNum : Nat) : Owned (probe funNum) := by
  have hvd : ∀ (p : Fin 8) (vd : VirtDevice), (probe funNum).vd p = some vd →
      vd = ⟨fun _ => none, fun _ => 0, p⟩ := by
    intro p vd h
    change (if (p : Nat) < funNum then some _ else none) = some vd at h
    split at h
    · exact (Option.some.inj h).symm
    · exact nomatch h
  refine ⟨fun p vd h => by rw [hvd p vd h], fun p vd h irq _ => by rw [hvd p vd h], ?_⟩
  intro p i _
  have hnone : (probe funNum).handler p i = none := by
    unfold VpciDevice.handler
    cases h : (probe funNum).vd p with
    | none => rfl
    | some vd => rw [hvd p vd h]; rfl
  rw [hnone]
  exact BitVec.getLsbD_zero

/-- **Interrupt lines.** From the state after `vpci_probe`, in every run of calls
    on any ports that name a line of their own port and bring a handler, the
    register, the tables and the dispatch agree in every state. -/
theorem run_sound (funNum : Nat) (ops : List Op) (s : VpciDevice)
    (h : Run step OwnLine (probe funNum) ops s) : Sound s :=
  (run_inv (fun _ _ _ ho hop hstep => step_owned ho hop hstep) h (probe_owned funNum)).sound

/-- Both lines of port 1, and one of them given back. -/
theorem run_sound_two : ∃ s, (List.foldlM step (probe 5)
    [.request 1 0 (some 7) 0, .request 1 1 (some 8) 0, .free 1 0] = some s) ∧ Sound s := by
  refine ⟨_, rfl, run_sound 5 [.request 1 0 (some 7) 0, .request 1 1 (some 8) 0, .free 1 0] _
    (run_of_foldlM _ _ ?_ rfl)⟩
  intro op hop u
  simp only [List.mem_cons, List.not_mem_nil, or_false] at hop
  rcases hop with rfl | rfl | rfl
  · exact ⟨Or.inl (by decide), Option.some_ne_none _⟩
  · exact ⟨Or.inl (by decide), Option.some_ne_none _⟩
  · exact Or.inl (by decide)

/-- Registering handler 2 of port 0 succeeds and enables a line of port 1 that
    has no handler, and the handler itself is not called when it is pending. -/
theorem request_two_not_sound :
    ∃ s, Run step Free (probe 5) [.request 0 2 (some 7) 0] s ∧
      s.ier.getLsbD (2 * 1 + 0) = true ∧ s.handler 1 0 = none ∧
      s.handler 0 2 = some 7 ∧ (vpciIsr s 4#32).1 = [] ∧ ¬ Sound s := by
  refine ⟨_, Run.cons _ _ _ _ _ rfl trivial (Run.nil _), rfl, rfl, rfl, by decide, ?_⟩
  intro h
  exact absurd (h.lines 1 0 (by decide)) (by decide)

end Vpci

end Driver

end Ml605
