import Ml605.Aes.Core
import Ml605.Aes.Mm2sReset

/-!
# The AES Stream Core with its Cipher

`aes_mm2s` with the core `aes_256` in it, under the key that is all zeros. In
`Mm2s` the core is a function behind a line of 29 places. Here it is the core
itself, with what its registers happen to hold.

The line of places is a prophecy of the core: place `j` holds what the core will
show in `28 - j` cycles. What is in the line at the beginning is what the core
shows during its first 29 cycles, whatever that is. So every run of the chip is a
run of `Mm2s`, with the cipher of the standard for the function, and what is known
about `Mm2s` is known about the chip.

## Main definitions

* `Chip`, `Chip.next`: The module with its core.
* `aes`: The cipher under the key of the module.
* `ChipLog`: The chip with what it has accepted and delivered.
* `foretold`: The `Mm2s` that does the same.

## Theorems

* `refines`: Cycle by cycle the chip is that `Mm2s`.
* `chip_delivers`: The chip delivers the cipher of what it accepts.
* `delivered_difference_iff`: Two delivered words differ by what the accepted ones
  differ by if and only if their places in their packets agree modulo 32.
-/

namespace Ml605

namespace Aes

open Lib

/-- The module and its core. The line `pipe` of `hw` has no part in it. -/
structure Chip where
  hw : Mm2s
  core : Core.Pipeline 256 13

/-- What the core is fed with: the counter, with the bytes reversed, and the key. -/
def Chip.feed (c : Chip) : Core.Feed 256 := ⟨swapBytes (c.hw.aesCtr.setWidth 128), 0⟩

/-- One clock cycle: `aes_out` takes what the core shows. -/
def Chip.next (c : Chip) (i : Input) : Chip where
  hw := { Aes.next (fun _ => 0) c.hw i with aesOut := swapBytes c.core.out }
  core := Core.aes256 c.core c.feed

/-- The cipher under the key of the module. -/
def aes (x : BitVec 128) : BitVec 128 := Rijndael.encrypt 8 (0 : BitVec 256) x

section Refinement

variable (c : Chip) (inp : Nat → Input)

/-- The chip over time. -/
def chipAt : Nat → Chip := trace Chip.next c inp

/-- The registers without the line. -/
def Mm2s.bare (s : Mm2s) : Mm2s := { s with pipe := fun _ => 0 }

/-- The chip at the start, its line filled with what the core is going to show. -/
def foretold : Mm2s := { c.hw with pipe := fun j => (chipAt c inp (28 - j)).core.out }

/-- A cycle reads nothing of the line but its end. -/
theorem bare_next (f : BitVec 128 → BitVec 128) {s s' : Mm2s} (i : Input) (h : s.bare = s'.bare) :
    (Aes.next f s i).bare =
      { Aes.next (fun _ => 0) s' i with aesOut := swapBytes (s.pipe 28) }.bare := by
  cases s with
  | mk =>
    cases s' with
    | mk =>
      simp only [Mm2s.bare, Mm2s.mk.injEq] at h
      rcases h with ⟨rfl, rfl, rfl, -, rfl, rfl, rfl, rfl, rfl, rfl, rfl, rfl, rfl, rfl, rfl⟩
      rfl

theorem core_chipAt (n : Nat) :
    (chipAt c inp n).core = trace Core.aes256 c.core (fun k => (chipAt c inp k).feed) n := by
  induction n with
  | zero => rfl
  | succ n ih => exact congrArg (Core.aes256 · _) ih

/-- What enters the core comes out of it enciphered. -/
theorem out_chipAt (n : Nat) :
    (chipAt c inp (n + 29)).core.out =
      aes (swapBytes ((chipAt c inp n).hw.aesCtr.setWidth 128)) := by
  rw [core_chipAt, Core.aes256_encrypt]
  rfl

/-- The chip and an `Mm2s` at the same time: equal registers, and a line that holds
    what the core is going to show. -/
structure Refines (n : Nat) (s : Mm2s) : Prop where
  same : s.bare = (chipAt c inp n).hw.bare
  line : ∀ j, j ≤ 28 → s.pipe j = (chipAt c inp (n + 28 - j)).core.out

theorem refines (n : Nat) : Refines c inp n (trace (Aes.next aes) (foretold c inp) inp n) := by
  induction n with
  | zero => exact ⟨rfl, fun j _ => by rw [Nat.zero_add]; rfl⟩
  | succ n ih =>
      have hctr : (trace (Aes.next aes) (foretold c inp) inp n).aesCtr =
          (chipAt c inp n).hw.aesCtr := by
        have h := congrArg Mm2s.aesCtr ih.same
        exact h
      refine ⟨?_, ?_⟩
      · rw [trace, bare_next aes (inp n) ih.same, ih.line 28 (Nat.le_refl 28), Nat.add_sub_cancel]
        rfl
      · intro j hj
        cases j with
        | zero =>
            rw [Nat.sub_zero, show n + 1 + 28 = n + 29 by omega, out_chipAt, ← hctr]
            rfl
        | succ j =>
            rw [show n + 1 + 28 - (j + 1) = n + 28 - j by omega]
            exact ih.line j (by omega)

end Refinement

/-- The chip with the beats it has accepted and those it has delivered. -/
structure ChipLog where
  chip : Chip
  accepted : List Beat
  delivered : List Beat

/-- One cycle of the chip, logged. -/
def chipLogNext (l : ChipLog) (i : Input) : ChipLog where
  chip := l.chip.next i
  accepted := l.accepted ++ (if handshake l.chip.hw i then [⟨i.tdata, i.tlast⟩] else [])
  delivered := l.delivered ++ (if i.tready then l.chip.hw.aesFifo.head?.toList else [])

/-- The log over time. -/
def chipLogAt (c : Chip) (inp : Nat → Input) : Nat → ChipLog := trace chipLogNext ⟨c, [], []⟩ inp

section Logs

variable (c : Chip) (inp : Nat → Input)

/-- The log of the `Mm2s` that does the same. -/
def foretoldLog : Nat → Log := trace (logNext aes) (Log.start (foretold c inp)) inp

theorem foretoldLog_succ (n : Nat) :
    foretoldLog c inp (n + 1) = logNext aes (foretoldLog c inp n) (inp n) := rfl

theorem chipLogAt_succ (n : Nat) :
    chipLogAt c inp (n + 1) = chipLogNext (chipLogAt c inp n) (inp n) := rfl

theorem foretoldLog_hw (n : Nat) :
    (foretoldLog c inp n).hw = trace (Aes.next aes) (foretold c inp) inp n := by
  induction n with
  | zero => rfl
  | succ n ih => exact congrArg (Aes.next aes · (inp n)) ih

theorem chipLogAt_chip (n : Nat) : (chipLogAt c inp n).chip = chipAt c inp n := by
  induction n with
  | zero => rfl
  | succ n ih => exact congrArg (Chip.next · (inp n)) ih

/-- Both logs are the same at all times. -/
theorem logs_agree (n : Nat) :
    (foretoldLog c inp n).accepted = (chipLogAt c inp n).accepted ∧
      (foretoldLog c inp n).delivered = (chipLogAt c inp n).delivered := by
  induction n with
  | zero => exact ⟨rfl, rfl⟩
  | succ n ih =>
      have hsame := (refines c inp n).same
      rw [← foretoldLog_hw, ← chipLogAt_chip] at hsame
      have hhs : handshake (foretoldLog c inp n).hw (inp n) =
          handshake (chipLogAt c inp n).chip.hw (inp n) := by
        have h := congrArg (handshake · (inp n)) hsame
        exact h
      have hfifo : (foretoldLog c inp n).hw.aesFifo = (chipLogAt c inp n).chip.hw.aesFifo := by
        have h := congrArg Mm2s.aesFifo hsame
        exact h
      rw [foretoldLog_succ, chipLogAt_succ]
      simp only [logNext, chipLogNext, ih.1, ih.2, hhs, hfifo, and_self]

variable {c inp}

theorem foretoldLog_traced (hq : Quiescent c.hw) (hrun : ∀ n, (inp n).resetN = true) (n : Nat) :
    Traced aes (foretoldLog c inp n) := by
  have hq' : Quiescent (foretold c inp) :=
    ⟨hq.ctr, hq.din, hq.line, hq.out, hq.outD1, hq.dinFifo, hq.aesFifo⟩
  have h : Run (logStep aes) Running (Log.start (foretold c inp)) ((List.range n).map inp)
      (foretoldLog c inp n) := by
    rw [foretoldLog, trace_eq_foldl]
    refine run_foldl (fun _ _ => rfl) _ _ ?_
    intro i hi _
    obtain ⟨k, -, rfl⟩ := List.mem_map.mp hi
    exact hrun k
  exact run_traced aes hq' h

/-- From a quiescent state on, the chip delivers the cipher of what it accepts. -/
theorem prefix_of_quiescent (hq : Quiescent c.hw) (hrun : ∀ n, (inp n).resetN = true) (n : Nat) :
    (chipLogAt c inp n).delivered <+: cipher aes 0 (chipLogAt c inp n).accepted := by
  rcases logs_agree c inp n with ⟨hacc, hdel⟩
  rcases (streams_of_traced aes (foretoldLog_traced hq hrun n)).account with ⟨rest, -, hacct⟩
  rw [← hacc, ← hdel, ← hacct, List.append_assoc]
  exact List.prefix_append _ _

/-- Once nothing more is offered and the output is read, all of it comes out. -/
theorem complete_of_quiescent (hq : Quiescent c.hw) (hrun : ∀ n, (inp n).resetN = true) (n : Nat)
    (hidle : ∀ k, k < 191 → (inp (n + k)).tvalid = false ∧ (inp (n + k)).tready = true) :
    (chipLogAt c inp (n + 191)).delivered = cipher aes 0 (chipLogAt c inp n).accepted := by
  have hst := streams_of_traced aes (foretoldLog_traced hq hrun n)
  rw [← (logs_agree c inp n).1, ← (logs_agree c inp (n + 191)).2, foretoldLog, trace_add,
    trace_eq_foldl]
  refine hst.complete ((List.range 191).map fun k => inp (n + k)) _ ?_ (by simp)
  refine run_foldl (fun _ _ => rfl) _ _ ?_
  intro i hi _
  obtain ⟨k, hk, rfl⟩ := List.mem_map.mp hi
  have hk' := hidle k (List.mem_range.mp hk)
  exact ⟨hrun _, hk'.1, hk'.2⟩

/-- A reset of 31 cycles in which nothing is offered leaves the module quiescent. -/
theorem chip_quiescent {m : Nat} (hm : 31 ≤ m)
    (hreset : ∀ n, n < m → (inp n).resetN = false ∧ (inp n).tvalid = false) :
    Quiescent (chipAt c inp m).hw := by
  have hq := quiescent_of_reset aes ((List.range m).map inp) (foretold c inp) (by simpa using hm)
    (by
      intro i hi
      obtain ⟨k, hk, rfl⟩ := List.mem_map.mp hi
      exact hreset k (List.mem_range.mp hk))
  rw [← trace_eq_foldl] at hq
  have hbare : Quiescent (chipAt c inp m).hw.bare := by
    rw [← (refines c inp m).same]
    exact ⟨hq.ctr, hq.din, hq.line, hq.out, hq.outD1, hq.dinFifo, hq.aesFifo⟩
  exact ⟨hbare.ctr, hbare.din, hbare.line, hbare.out, hbare.outD1, hbare.dinFifo, hbare.aesFifo⟩

end Logs

/-- Whatever the registers of the module and of its core hold, after a reset of at
    least 31 cycles with nothing offered the chip delivers the data it accepts
    combined with the blocks of the standard's cipher, for every input stream and
    every way of reading the output, and all of it once the output is read. -/
theorem chip_delivers (c : Chip) (inp : Nat → Input) (m : Nat) (hm : 31 ≤ m)
    (hreset : ∀ n, n < m → (inp n).resetN = false ∧ (inp n).tvalid = false)
    (hrun : ∀ n, m ≤ n → (inp n).resetN = true) (n : Nat) :
    (chipLogAt (chipAt c inp m) (fun k => inp (m + k)) n).delivered <+:
        cipher aes 0 (chipLogAt (chipAt c inp m) (fun k => inp (m + k)) n).accepted ∧
      ((∀ k, k < 191 → (inp (m + (n + k))).tvalid = false ∧ (inp (m + (n + k))).tready = true) →
        (chipLogAt (chipAt c inp m) (fun k => inp (m + k)) (n + 191)).delivered =
          cipher aes 0 (chipLogAt (chipAt c inp m) (fun k => inp (m + k)) n).accepted) := by
  have hq := chip_quiescent (c := c) hm hreset
  have hrun' : ∀ k, (inp (m + k)).resetN = true := fun k => hrun _ (Nat.le_add_right m k)
  exact ⟨prefix_of_quiescent hq hrun' n, complete_of_quiescent hq hrun' n⟩

/-- A reset of 31 cycles, two packets of one beat, and from then on the output is
    read. -/
def twoPackets (n : Nat) : Input :=
  if n < 31 then ⟨false, false, false, 0, false, false, false, 0⟩
  else ⟨true, decide (n < 33), true, BitVec.ofNat 128 n, true, false, false, 0⟩

theorem twoPackets_reset : ∀ n, n < 31 →
    (twoPackets n).resetN = false ∧ (twoPackets n).tvalid = false := by decide

theorem twoPackets_running (n : Nat) (hn : 31 ≤ n) : (twoPackets n).resetN = true := by
  rw [twoPackets, if_neg (Nat.not_lt.mpr hn)]

theorem twoPackets_idle (k : Nat) : (twoPackets (31 + (2 + k))).tvalid = false ∧
    (twoPackets (31 + (2 + k))).tready = true := by
  rw [twoPackets, if_neg (by omega)]
  exact ⟨decide_eq_false (by omega), rfl⟩

/-- What comes of them, from registers that are all zero. -/
def twoPacketsLog : Nat → ChipLog :=
  chipLogAt (chipAt ⟨powerUp, default⟩ twoPackets 31) fun k => twoPackets (31 + k)

theorem twoPacketsLog_accepted : (twoPacketsLog 2).accepted = [⟨31, true⟩, ⟨32, true⟩] := by
  decide +kernel

theorem chip_delivers_two_packets :
    (twoPacketsLog (2 + 191)).delivered = cipher aes 0 [⟨31, true⟩, ⟨32, true⟩] := by
  have h := (chip_delivers ⟨powerUp, default⟩ twoPackets 31 (Nat.le_refl 31) twoPackets_reset
    twoPackets_running 2).2 fun k _ => twoPackets_idle k
  rw [← twoPacketsLog_accepted]
  exact h

section Keystream

theorem swapBytes_eq_bus (x : BitVec 128) :
    swapBytes x = bus 128 ((List.range 16).map fun j => x.extractLsb' (8 * j) 8) := by
  rw [bus, List.foldl_map]
  rfl

theorem lane_swapBytes (x : BitVec 128) {j : Nat} (hj : j < 16) :
    lane 8 (swapBytes x) j = lane 8 x (15 - j) := by
  rw [swapBytes_eq_bus, lane_bus_range _ rfl hj, lane]
  congr 1
  omega

theorem swapBytes_injective : Function.Injective swapBytes := by
  intro x y h
  refine eq_of_lane (w := 8) (n := 16) rfl fun j hj => ?_
  have hlane := congrArg (lane 8 · (15 - j)) h
  simp only [lane_swapBytes _ (show 15 - j < 16 by omega)] at hlane
  rwa [show 15 - (15 - j) = j by omega] at hlane

/-- The blocks of the keystream repeat after 32 of them and at no other place. -/
theorem keystream_eq_iff (k k' : Nat) : keystream aes k = keystream aes k' ↔ k % 32 = k' % 32 := by
  constructor
  · intro h
    have haes : Function.Injective aes :=
      Rijndael.encrypt_injective Core.subByte_injective 8 (0 : BitVec 256)
    have hctr := congrArg BitVec.toNat (swapBytes_injective (haes (swapBytes_injective h)))
    have hsmall : ∀ n : Nat, n % 32 < 2 ^ 128 := fun n =>
      Nat.lt_trans (Nat.mod_lt n (by decide)) (by decide)
    rwa [BitVec.toNat_ofNat, BitVec.toNat_ofNat, Nat.mod_eq_of_lt (hsmall k),
      Nat.mod_eq_of_lt (hsmall k')] at hctr
  · intro h
    unfold keystream
    rw [h]

variable (f : BitVec 128 → BitVec 128)

theorem cipher_getElem? (bs : List Beat) : ∀ k i,
    (cipher f k bs)[i]? = bs[i]?.map fun b => cipherBeat f b (position k (bs.take i)) := by
  induction bs with
  | nil => exact fun _ _ => rfl
  | cons b bs ih =>
      intro k i
      cases i with
      | zero => rfl
      | succ i => exact ih (bump k b) i

/-- Words combined with two blocks keep their difference if the blocks are equal
    and only then. -/
theorem xor_difference_iff {n : Nat} (a b x y : BitVec n) :
    a ^^^ x ^^^ (b ^^^ y) = a ^^^ b ↔ x = y := by
  have h : a ^^^ x ^^^ (b ^^^ y) = a ^^^ b ^^^ (x ^^^ y) := by ac_rfl
  rw [h, ← BitVec.xor_eq_zero_iff (y := y)]
  constructor
  · intro hsame
    exact (BitVec.xor_right_inj (a ^^^ b)).mp (hsame.trans BitVec.xor_zero.symm)
  · intro hzero
    rw [hzero, BitVec.xor_zero]

end Keystream

/-- Two words that were delivered differ exactly as the words that were accepted
    for them do if and only if they have the same place in their packets up to a
    multiple of 32: there the keystream repeats, and nowhere else. -/
theorem delivered_difference_iff (c : Chip) (inp : Nat → Input) (m : Nat) (hm : 31 ≤ m)
    (hreset : ∀ n, n < m → (inp n).resetN = false ∧ (inp n).tvalid = false)
    (hrun : ∀ n, m ≤ n → (inp n).resetN = true) (n : Nat) (l : ChipLog)
    (hl : l = chipLogAt (chipAt c inp m) (fun k => inp (m + k)) n) (i i' : Nat) (d d' : Beat)
    (hd : l.delivered[i]? = some d) (hd' : l.delivered[i']? = some d') :
    ∃ b b', l.accepted[i]? = some b ∧ l.accepted[i']? = some b' ∧
      (d.data ^^^ d'.data = b.data ^^^ b'.data ↔
        position 0 (l.accepted.take i) % 32 = position 0 (l.accepted.take i') % 32) := by
  have hpre := prefix_of_quiescent (chip_quiescent (c := c) hm hreset)
    (fun k => hrun _ (Nat.le_add_right m k)) n
  rw [← hl] at hpre
  rcases hpre with ⟨rest, hrest⟩
  have hbeat : ∀ i d, l.delivered[i]? = some d → ∃ b, l.accepted[i]? = some b ∧
      d.data = b.data ^^^ keystream aes (position 0 (l.accepted.take i)) := by
    intro i d hd
    have hc : (cipher aes 0 l.accepted)[i]? = some d := by
      rw [← hrest, List.getElem?_append_left (List.getElem?_eq_some_iff.mp hd).1, hd]
    rw [cipher_getElem?] at hc
    obtain ⟨b, hb, rfl⟩ := Option.map_eq_some_iff.mp hc
    exact ⟨b, hb, rfl⟩
  obtain ⟨b, hb, hdata⟩ := hbeat i d hd
  obtain ⟨b', hb', hdata'⟩ := hbeat i' d' hd'
  refine ⟨b, b', hb, hb', ?_⟩
  rw [← keystream_eq_iff, hdata, hdata', xor_difference_iff]

theorem delivered_difference_two_packets :
    ∃ b b', (twoPacketsLog (2 + 191)).accepted[0]? = some b ∧
      (twoPacketsLog (2 + 191)).accepted[1]? = some b' ∧
      ((cipherBeat aes ⟨31, true⟩ 0).data ^^^ (cipherBeat aes ⟨32, true⟩ 0).data =
          b.data ^^^ b'.data ↔
        position 0 ((twoPacketsLog (2 + 191)).accepted.take 0) % 32 =
          position 0 ((twoPacketsLog (2 + 191)).accepted.take 1) % 32) := by
  have hout : (twoPacketsLog (2 + 191)).delivered = cipher aes 0 (twoPacketsLog 2).accepted :=
    complete_of_quiescent (chip_quiescent (Nat.le_refl 31) twoPackets_reset)
      (fun k => twoPackets_running _ (Nat.le_add_right 31 k)) 2 fun k _ => twoPackets_idle k
  rw [twoPacketsLog_accepted] at hout
  exact delivered_difference_iff ⟨powerUp, default⟩ twoPackets 31 (Nat.le_refl 31) twoPackets_reset
    twoPackets_running (2 + 191) (twoPacketsLog (2 + 191)) rfl 0 1 _ _ (by rw [hout]; rfl)
    (by rw [hout]; rfl)

end Aes

end Ml605
