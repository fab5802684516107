import Ml605.Lib.Fifo
import Ml605.Lib.Trace
import Ml605.Aes.Mm2sStream

/-!
# The Status Stream of the AES Core

The DMA engine wants a status packet of six words for every packet it gets.
`aes_mm2s` puts an entry into `eof_fifo` for each last beat that is delivered,
and `aes_sts_fsm` makes a status packet of each entry and writes it to
`sts_fifo`, from which the status stream is served. One packet takes eight
cycles, and the entry is removed in the last but one of them.

The half-full flag of `sts_fifo` is not connected to anything. If the status
stream is not read, the state machine goes on writing, and what does not fit is
lost: a status packet is truncated in the middle. The half-full flag of
`eof_fifo` stops the input of the core, with up to 160 beats behind it, which
may be as many packets.

As in the model of the core, the half-full flag may lag by a cycle, which the
inputs `late` and `eofLate` tell. An entry may take some time until the FIFO
shows it, which `eofHidden` tells. A write to a full FIFO is dropped.

## Main definitions

* `Regs`, `next`: The state machine.
* `Core`, `Core.next`: The stream core with the status path, and a record of
  what was sent on the status stream.
* `statusPacket`, `statuses`: The status of one packet, and of several.
* `owed`: The status words still to be written.
* `Sound`: One status packet per packet, and no overflow.
* `KeepsUp`: There is room in both FIFOs when it is needed.

## Theorems

* `current_next`: The words of a status packet are written in order.
* `account_next`: No status word is lost as long as it fits.
* `live_next`: A cycle keeps the invariant.
* `status_sound`: The status path is sound while the surroundings keep up.
* `status_stalled`: It is not if the status stream is not read.
-/

namespace Ml605

namespace Aes

namespace Sts

open Lib

/-- The states `S_IDLE`, `S_SOF`, `S_DATA`, `S_EOF` and `S_DONE`. -/
inductive State
  | idle
  | sof
  | data
  | eof
  | done
deriving DecidableEq, Repr

/-- A word of the status stream. -/
structure Word where
  tdata : BitVec 32
  tlast : Bool
deriving DecidableEq, Repr

/-- The registers of the state machine. -/
structure Regs where
  state : State
  stsCnt : BitVec 4
  stsWrEn : Bool
  stsWrLast : Bool
  stsWrDin : BitVec 32
deriving DecidableEq, Repr

/-- The next state. -/
def stateNs (s : Regs) (eofEmpty : Bool) : State :=
  match s.state with
  | .idle => if !eofEmpty then .data else .idle
  | .sof => .sof
  | .data => .eof
  | .eof => if s.stsCnt = 0 then .done else .eof
  | .done => .idle

/-- One clock cycle of the state machine. -/
def next (s : Regs) (eofEmpty : Bool) : Regs where
  state := stateNs s eofEmpty
  stsCnt :=
    if s.state = .idle then 4
    else if s.state = .eof then s.stsCnt - 1
    else s.stsCnt
  stsWrEn := s.state == .data || s.state == .eof
  stsWrLast := s.state == .eof && s.stsCnt == 0
  stsWrDin := if s.state = .data then 0x50000000 else 0

/-- The stream core with the status path: the register `aes_s2mm_eof`, how many
    entries `eof_fifo` has and had a cycle ago, `sts_fifo`, and what was sent. -/
structure Core where
  log : Log
  aesS2mmEof : Bool
  eofFifo : Nat
  eofOccPrev : Nat
  sts : Regs
  stsFifo : List Word
  stsOut : List Word

/-- The inputs of one cycle. -/
structure CoreInput where
  tvalid : Bool
  tlast : Bool
  tdata : BitVec 128
  tready : Bool
  stsTready : Bool
  late : Bool
  eofLate : Bool
  eofHidden : Bool
  dout : BitVec 128

/-- The word the state machine writes in this cycle. -/
def port (r : Regs) : List Word := if r.stsWrEn then [⟨r.stsWrDin, r.stsWrLast⟩] else []

namespace Core

/-- `aes_s2mm_eof_full`: 128 entries, now or a cycle ago. -/
def eofFull (s : Core) (i : CoreInput) : Bool :=
  decide (128 ≤ if i.eofLate then s.eofOccPrev else s.eofFifo)

/-- `aes_s2mm_eof_empty`. -/
def eofEmpty (s : Core) (i : CoreInput) : Bool := i.eofHidden || s.eofFifo == 0

/-- The inputs of the stream core. -/
def input (s : Core) (i : CoreInput) : Input where
  resetN := true
  tvalid := i.tvalid
  tlast := i.tlast
  tdata := i.tdata
  tready := i.tready
  eofFull := s.eofFull i
  late := i.late
  dout := i.dout

/-- `s_axis_s2mm_tready & s_axis_s2mm_tvalid & s_axis_s2mm_tlast`. -/
def ending (s : Core) (i : CoreInput) : Bool :=
  i.tready && (s.log.hw.aesFifo.head?.toList.any Beat.last)

/-- One clock cycle. -/
def next (aes256 : BitVec 128 → BitVec 128) (s : Core) (i : CoreInput) : Core where
  log := logNext aes256 s.log (s.input i)
  aesS2mmEof := s.ending i
  eofFifo :=
    s.eofFifo - (if s.sts.stsWrLast then 1 else 0) +
      (if s.aesS2mmEof && decide (s.eofFifo < 256) then 1 else 0)
  eofOccPrev := s.eofFifo
  sts := Sts.next s.sts (s.eofEmpty i)
  stsFifo := (if i.stsTready then s.stsFifo.tail else s.stsFifo) ++
    (if s.stsFifo.length < 256 then port s.sts else [])
  stsOut := s.stsOut ++ if i.stsTready then s.stsFifo.head?.toList else []

/-- The packets that have been delivered. -/
def packets (s : Core) : Nat := s.log.delivered.countP Beat.last

end Core

/-- The status of a packet. -/
def statusPacket : List Word :=
  [⟨0x50000000, false⟩, ⟨0, false⟩, ⟨0, false⟩, ⟨0, false⟩, ⟨0, false⟩, ⟨0, true⟩]

/-- The status of some packets. -/
def statuses (n : Nat) : List Word := (List.replicate n statusPacket).flatten

/-- What is left of the status packet that is being written. -/
def current (r : Regs) : List Word :=
  match r.state with
  | .idle => []
  | .sof => []
  | .data => statusPacket
  | .eof => statusPacket.drop (4 - r.stsCnt.toNat)
  | .done => statusPacket.drop 5

/-- The entries for which no status packet has been started. The entry of the one
    that is being written is still in the FIFO. -/
def waiting (s : Core) : Nat :=
  s.eofFifo + s.aesS2mmEof.toNat - if s.sts.state = .idle then 0 else 1

/-- The status words still to be written. -/
def owed (s : Core) : List Word := current s.sts ++ statuses (waiting s)

/-- One status packet for each packet that was delivered, in order. Nothing of it
    is lost, duplicated or truncated: what was not sent is in `sts_fifo` or still
    to be written. Nothing is written to a full FIFO. -/
structure Sound (s : Core) : Prop where
  sent : s.stsOut <+: statuses s.packets
  account : s.stsOut ++ s.stsFifo ++ owed s = statuses s.packets
  eofRoom : s.aesS2mmEof = true → s.eofFifo < 256
  stsRoom : s.sts.stsWrEn = true → s.stsFifo.length < 256

/-- There is room in both FIFOs when it is needed: for a status packet when it is
    started, and for an entry when a last beat is taken. All packets on their way
    through the core count for that. -/
structure KeepsUp (s : Core) (i : CoreInput) : Prop where
  status : s.sts.state = .idle → s.eofEmpty i = false → s.stsFifo.length ≤ 250
  ends : handshake s.log.hw (s.input i) = true → i.tlast = true →
    s.eofFifo + s.aesS2mmEof.toNat + s.log.accepted.countP Beat.last ≤ 255 + s.packets

/-- After reset, before the first packet. -/
structure AfterReset (s : Core) : Prop where
  log : ∃ m, Quiescent m ∧ s.log = Log.start m
  aesS2mmEof : s.aesS2mmEof = false
  eofFifo : s.eofFifo = 0
  state : s.sts.state = .idle
  stsWrEn : s.sts.stsWrEn = false
  stsWrLast : s.sts.stsWrLast = false
  stsFifo : s.stsFifo = []
  stsOut : s.stsOut = []

/-- The registers in each state. The counter goes from four down to zero while
    the words behind the first are written. -/
inductive Coherent : Regs → Prop
  | idle (cnt : BitVec 4) (din : BitVec 32) : Coherent ⟨.idle, cnt, false, false, din⟩
  | data (din : BitVec 32) : Coherent ⟨.data, 4, false, false, din⟩
  | eof (c : Nat) (hc : c ≤ 4) :
      Coherent ⟨.eof, BitVec.ofNat 4 c, true, false, if c = 4 then 0x50000000 else 0⟩
  | done (cnt : BitVec 4) : Coherent ⟨.done, cnt, true, true, 0⟩

section Machine

variable {r : Regs}

theorem coherent_of_idle (hstate : r.state = .idle) (hen : r.stsWrEn = false)
    (hlast : r.stsWrLast = false) : Coherent r := by
  rcases r with ⟨state, cnt, en, last, din⟩
  rcases hstate with rfl
  rcases hen with rfl
  rcases hlast with rfl
  exact .idle cnt din

theorem coherent_next (h : Coherent r) (e : Bool) : Coherent (next r e) := by
  cases h with
  | idle cnt din =>
      cases e with
      | false => exact .data 0
      | true => exact .idle 4 0
  | data din => exact .eof 4 (Nat.le_refl 4)
  | eof c hc =>
      interval_cases c
      · exact .done 15
      · exact .eof 0 (by decide)
      · exact .eof 1 (by decide)
      · exact .eof 2 (by decide)
      · exact .eof 3 (by decide)
  | done cnt => exact .idle cnt 0

/-- A status packet is started in this cycle. -/
def starting (r : Regs) (e : Bool) : Bool := r.state == .idle && !e

/-- The words of a status packet are written in order. -/
theorem current_next (h : Coherent r) (e : Bool) :
    port r ++ current (next r e) = current r ++ if starting r e then statusPacket else [] := by
  cases h with
  | idle cnt din =>
      cases e with
      | false => rfl
      | true => rfl
  | data din => rfl
  | eof c hc => interval_cases c <;> rfl
  | done cnt => rfl

/-- The entry is removed with the last word. -/
theorem busy_of_last (h : Coherent r) (hlast : r.stsWrLast = true) : r.state ≠ .idle := by
  cases h with
  | idle cnt din => exact absurd hlast nofun
  | data din => exact nofun
  | eof c hc => exact nofun
  | done cnt => exact nofun

/-- A word is written only while a status packet is. -/
theorem port_of_idle (h : Coherent r) (hidle : r.state = .idle) : port r = [] := by
  cases h with
  | idle cnt din => rfl
  | data din => exact absurd hidle nofun
  | eof c hc => exact absurd hidle nofun
  | done cnt => exact absurd hidle nofun

theorem port_length (r : Regs) : (port r).length = if r.stsWrEn then 1 else 0 := by
  rw [port]
  split_ifs <;> rfl

/-- How the state machine gets busy and idle. -/
theorem busy_next (h : Coherent r) (e : Bool) :
    (if (next r e).state = .idle then 0 else 1) + (if r.stsWrLast then 1 else 0) =
      (if r.state = .idle then 0 else 1) + if starting r e then 1 else 0 := by
  cases h with
  | idle cnt din =>
      cases e with
      | false => rfl
      | true => rfl
  | data din => rfl
  | eof c hc => interval_cases c <;> rfl
  | done cnt => rfl

end Machine

theorem statuses_add (a b : Nat) : statuses (a + b) = statuses a ++ statuses b := by
  rw [statuses, statuses, statuses, ← List.flatten_append, List.replicate_append_replicate]

theorem statuses_one : statuses 1 = statusPacket := rfl

/-- The invariant. The last field says that all packets that were taken and have
    no complete status fit into `eof_fifo`. -/
structure Live (aes256 : BitVec 128 → BitVec 128) (s : Core) : Prop where
  traced : Traced aes256 s.log
  coherent : Coherent s.sts
  entry : s.sts.state ≠ .idle → 1 ≤ s.eofFifo
  account : s.stsOut ++ s.stsFifo ++ owed s = statuses s.packets
  room : s.sts.state ≠ .idle → s.stsFifo.length + (current s.sts).length ≤ 256
  ends : s.eofFifo + s.aesS2mmEof.toNat + s.log.accepted.countP Beat.last ≤ 256 + s.packets

section Core

variable {aes256 : BitVec 128 → BitVec 128} {s : Core} {i : CoreInput}

theorem countP_cipher (aes256 : BitVec 128 → BitVec 128) (bs : List Beat) : ∀ k,
    (cipher aes256 k bs).countP Beat.last = bs.countP Beat.last := by
  induction bs with
  | nil => exact fun _ => rfl
  | cons b bs ih =>
      intro k
      rw [cipher, List.countP_cons, List.countP_cons, ih]
      rfl

/-- No packet is delivered that was not taken. -/
theorem packets_le (h : Traced aes256 s.log) : s.packets ≤ s.log.accepted.countP Beat.last := by
  rcases h with ⟨w, hw⟩
  rw [← countP_cipher aes256 s.log.accepted 0, ← hw.account, List.append_assoc,
    List.countP_append]
  exact Nat.le_add_right _ _

/-- A packet is delivered when its last beat is. -/
theorem packets_next : (s.next aes256 i).packets = s.packets + (s.ending i).toNat := by
  have hlog : (s.next aes256 i).log.delivered =
      s.log.delivered ++ if i.tready then s.log.hw.aesFifo.head?.toList else [] := rfl
  rw [Core.packets, hlog, List.countP_append, Core.packets, Core.ending]
  cases i.tready with
  | false => rfl
  | true =>
      cases s.log.hw.aesFifo.head? with
      | none => rfl
      | some b =>
          simp only [if_true, Option.toList_some, List.countP_singleton, List.any_cons,
            List.any_nil, Bool.or_false, Bool.true_and]
          cases b.last with
          | false => rfl
          | true => rfl

/-- A packet is taken when its last beat is. -/
theorem accepted_next : (s.next aes256 i).log.accepted.countP Beat.last =
    s.log.accepted.countP Beat.last +
      if handshake s.log.hw (s.input i) && i.tlast then 1 else 0 := by
  have hlog : (s.next aes256 i).log.accepted = s.log.accepted ++
      if handshake s.log.hw (s.input i) then [⟨i.tdata, i.tlast⟩] else [] := rfl
  rw [hlog, List.countP_append]
  cases handshake s.log.hw (s.input i) with
  | false => rfl
  | true => rw [if_pos rfl, List.countP_singleton, Bool.true_and]

/-- There is room for the entry on the write port. -/
theorem eofRoom_of_live (h : Live aes256 s) : s.aesS2mmEof = true → s.eofFifo < 256 := by
  intro hw
  have hends := h.ends
  have hle := packets_le h.traced
  rw [hw, Bool.toNat_true] at hends
  omega

/-- There is room for the word on the write port. -/
theorem stsRoom_of_live (h : Live aes256 s) : s.sts.stsWrEn = true → s.stsFifo.length < 256 := by
  intro hw
  have hlen := congrArg List.length (current_next h.coherent true)
  have hport := port_length s.sts
  rw [hw, if_pos rfl] at hport
  have hidle : s.sts.state ≠ .idle := fun hidle => by
    rw [port_of_idle h.coherent hidle] at hport
    exact absurd hport nofun
  have hroom := h.room hidle
  have hstart : starting s.sts true = false := Bool.and_false _
  rw [hstart, if_neg Bool.false_ne_true, List.append_nil, List.length_append] at hlen
  omega

/-- The entries after a cycle: one is removed with the last word of its status,
    and one is added for a last beat that was delivered. -/
theorem eofFifo_next (h : Live aes256 s) :
    (s.next aes256 i).eofFifo + (if s.sts.stsWrLast then 1 else 0) =
      s.eofFifo + s.aesS2mmEof.toNat := by
  have hentry : s.sts.stsWrLast = true → 1 ≤ s.eofFifo := fun hlast =>
    h.entry (busy_of_last h.coherent hlast)
  have hnext : (s.next aes256 i).eofFifo = s.eofFifo - (if s.sts.stsWrLast then 1 else 0) +
      (if s.aesS2mmEof && decide (s.eofFifo < 256) then 1 else 0) := rfl
  have hwrite : (if s.aesS2mmEof && decide (s.eofFifo < 256) then 1 else 0) =
      s.aesS2mmEof.toNat := by
    cases hw : s.aesS2mmEof with
    | false => rfl
    | true => rw [decide_eq_true (eofRoom_of_live h hw)]; rfl
  rw [hnext, hwrite]
  cases hlast : s.sts.stsWrLast with
  | false => rfl
  | true =>
      have hpos := hentry hlast
      rw [if_pos rfl]
      omega

/-- A status packet that is being written or started has its entry. -/
theorem busy_le (h : Live aes256 s) :
    (if s.sts.state = .idle then 0 else 1) + (if starting s.sts (s.eofEmpty i) then 1 else 0) ≤
      s.eofFifo := by
  by_cases hidle : s.sts.state = .idle
  · rw [if_pos hidle, Nat.zero_add]
    cases hs : starting s.sts (s.eofEmpty i) with
    | false => exact Nat.zero_le _
    | true =>
        rw [starting, hidle, Core.eofEmpty] at hs
        simp only [beq_self_eq_true, Bool.true_and, Bool.not_eq_true', Bool.or_eq_false_iff,
          beq_eq_false_iff_ne] at hs
        exact Nat.one_le_iff_ne_zero.mpr hs.2
  · have hstart : starting s.sts (s.eofEmpty i) = false := by
      rw [starting, beq_eq_false_iff_ne.mpr hidle, Bool.false_and]
    rw [if_neg hidle, hstart]
    exact h.entry hidle

/-- A packet that is delivered waits for its status, until that is started. -/
theorem waiting_next (h : Live aes256 s) :
    waiting (s.next aes256 i) + (if starting s.sts (s.eofEmpty i) then 1 else 0) =
      waiting s + (s.ending i).toNat := by
  have heof := eofFifo_next (i := i) h
  have hbusy := busy_next h.coherent (s.eofEmpty i)
  have hle := busy_le (i := i) h
  have hwait : waiting (s.next aes256 i) = (s.next aes256 i).eofFifo + (s.ending i).toNat -
      if (next s.sts (s.eofEmpty i)).state = .idle then 0 else 1 := rfl
  rw [hwait, waiting]
  omega

/-- No status word is lost as long as it fits. -/
theorem account_next (h : Live aes256 s) :
    (s.next aes256 i).stsOut ++ (s.next aes256 i).stsFifo ++ owed (s.next aes256 i) =
      statuses (s.next aes256 i).packets := by
  -- What is in the FIFO moves, and the word on the write port goes in behind it.
  have hmove : (s.next aes256 i).stsOut ++ (s.next aes256 i).stsFifo =
      s.stsOut ++ s.stsFifo ++ port s.sts := by
    have hwrite : (if s.stsFifo.length < 256 then port s.sts else []) = port s.sts := by
      split_ifs with hfull
      · rfl
      · rw [port, Bool.eq_false_of_not_eq_true (fun hw => hfull (stsRoom_of_live h hw)),
          if_neg Bool.false_ne_true]
    simp only [Core.next, hwrite]
    exact fifo_moves s.stsOut s.stsFifo (port s.sts) i.stsTready
  have hsts : (s.next aes256 i).sts = next s.sts (s.eofEmpty i) := rfl
  have hstart : (if starting s.sts (s.eofEmpty i) then statusPacket else []) =
      statuses (if starting s.sts (s.eofEmpty i) then 1 else 0) := by
    split_ifs <;> rfl
  calc (s.next aes256 i).stsOut ++ (s.next aes256 i).stsFifo ++ owed (s.next aes256 i)
      = s.stsOut ++ s.stsFifo ++ (port s.sts ++ current (next s.sts (s.eofEmpty i))) ++
          statuses (waiting (s.next aes256 i)) := by
        rw [hmove, owed, hsts]
        simp only [List.append_assoc]
    _ = s.stsOut ++ s.stsFifo ++ current s.sts ++
          statuses (waiting (s.next aes256 i) +
            if starting s.sts (s.eofEmpty i) then 1 else 0) := by
        rw [current_next h.coherent, hstart, Nat.add_comm (waiting _), statuses_add]
        simp only [List.append_assoc]
    _ = s.stsOut ++ s.stsFifo ++ owed s ++ statuses (s.ending i).toNat := by
        rw [waiting_next h, statuses_add, owed]
        simp only [List.append_assoc]
    _ = statuses (s.next aes256 i).packets := by
        rw [h.account, ← statuses_add, packets_next]

/-- The status packet that is being written fits. -/
theorem room_next (h : Live aes256 s) (hup : KeepsUp s i)
    (hbusy : (s.next aes256 i).sts.state ≠ .idle) :
    (s.next aes256 i).stsFifo.length + (current (s.next aes256 i).sts).length ≤ 256 := by
  have hsts : (s.next aes256 i).sts = next s.sts (s.eofEmpty i) := rfl
  have hlen := congrArg List.length (current_next h.coherent (s.eofEmpty i))
  have hfifo : (s.next aes256 i).stsFifo.length ≤ s.stsFifo.length + (port s.sts).length := by
    have htail := fifo_rest_le s.stsFifo i.stsTready
    have hwrite : (if s.stsFifo.length < 256 then port s.sts else []).length ≤
        (port s.sts).length := by
      split_ifs
      · exact Nat.le_refl _
      · exact Nat.zero_le _
    simp only [Core.next, List.length_append]
    omega
  rw [hsts]
  rw [List.length_append, List.length_append] at hlen
  cases hs : starting s.sts (s.eofEmpty i) with
  | true =>
      rw [starting, Bool.and_eq_true, beq_iff_eq] at hs
      have hroom := hup.status hs.1 (Bool.eq_false_of_not_eq_true' hs.2)
      have hcur : current s.sts = [] := by rw [current, hs.1]
      have hsix : (if starting s.sts (s.eofEmpty i) then statusPacket else []).length ≤ 6 := by
        split_ifs <;> decide
      rw [hcur, List.length_nil] at hlen
      omega
  | false =>
      -- An idle state machine that does not start stays idle.
      have hidle : s.sts.state ≠ .idle := fun hidle => by
        refine hbusy ?_
        rw [starting, hidle, beq_self_eq_true, Bool.true_and, Bool.not_eq_false'] at hs
        rw [hsts, next, stateNs, hidle, hs]
        rfl
      have hroom := h.room hidle
      rw [hs, if_neg Bool.false_ne_true, List.length_nil] at hlen
      omega

/-- The packets that were taken still fit. -/
theorem ends_next (h : Live aes256 s) (hup : KeepsUp s i) :
    (s.next aes256 i).eofFifo + (s.next aes256 i).aesS2mmEof.toNat +
      (s.next aes256 i).log.accepted.countP Beat.last ≤ 256 + (s.next aes256 i).packets := by
  have heof := eofFifo_next (i := i) h
  have hflag : (s.next aes256 i).aesS2mmEof = s.ending i := rfl
  have hends := h.ends
  rw [hflag, packets_next, accepted_next]
  cases htake : handshake s.log.hw (s.input i) && i.tlast with
  | false =>
      rw [if_neg Bool.false_ne_true]
      omega
  | true =>
      rw [Bool.and_eq_true] at htake
      have hroom := hup.ends htake.1 htake.2
      rw [if_pos rfl]
      omega

/-- A cycle keeps the invariant. -/
theorem live_next (h : Live aes256 s) (hup : KeepsUp s i) : Live aes256 (s.next aes256 i) := by
  refine ⟨step_traced aes256 (i := s.input i) h.traced rfl rfl, coherent_next h.coherent _, ?_,
    account_next h, room_next h hup, ends_next h hup⟩
  intro hbusy
  have heof := eofFifo_next (i := i) h
  have hnext := busy_next h.coherent (s.eofEmpty i)
  have hle := busy_le (i := i) h
  have hsts : (next s.sts (s.eofEmpty i)).state ≠ .idle := hbusy
  rw [if_neg hsts] at hnext
  omega

theorem afterReset_live (h0 : AfterReset s) : Live aes256 s := by
  rcases h0.log with ⟨m, hq, hlog⟩
  have hpackets : s.packets = 0 := by
    rw [Core.packets, hlog]
    rfl
  have haccepted : s.log.accepted.countP Beat.last = 0 := by
    rw [hlog]
    rfl
  have hcurrent : current s.sts = [] := by rw [current, h0.state]
  have hwaiting : waiting s = 0 := by
    rw [waiting, h0.eofFifo, h0.aesS2mmEof, h0.state]
    rfl
  refine ⟨?_, ?_, fun hbusy => absurd h0.state hbusy, ?_, fun hbusy => absurd h0.state hbusy, ?_⟩
  · rw [hlog]
    exact ⟨_, start_tracked aes256 hq⟩
  · exact coherent_of_idle h0.state h0.stsWrEn h0.stsWrLast
  · rw [h0.stsOut, h0.stsFifo, owed, hcurrent, hwaiting, hpackets]
    rfl
  · rw [h0.eofFifo, h0.aesS2mmEof, haccepted, Bool.toNat_false]
    exact Nat.zero_le _

/-- Whatever the packets and the readiness of the two streams, as long as there
    is room when it is needed. -/
theorem status_sound {s0 : Core} {inp : Nat → CoreInput} (h0 : AfterReset s0) (n : Nat)
    (hup : ∀ k, k < n → KeepsUp (trace (Core.next aes256) s0 inp k) (inp k)) :
    Sound (trace (Core.next aes256) s0 inp n) := by
  have hlive : Live aes256 (trace (Core.next aes256) s0 inp n) :=
    trace_until (afterReset_live h0) (fun k hk h => live_next h (hup k hk)) n (Nat.le_refl n)
  refine ⟨?_, hlive.account, eofRoom_of_live hlive, stsRoom_of_live hlive⟩
  rw [← hlive.account, List.append_assoc]
  exact List.prefix_append _ _

end Core

section Runs

/-- A state after reset. -/
def start : Core := ⟨Log.start powerUp, false, 0, 0, ⟨.idle, 4, false, false, 0⟩, [], []⟩

theorem start_afterReset : AfterReset start :=
  ⟨⟨powerUp, powerUp_quiescent, rfl⟩, rfl, rfl, rfl, rfl, rfl, rfl, rfl⟩

/-- The AES core does not matter for the status. -/
def noCipher : BitVec 128 → BitVec 128 := fun _ => 0

/-- One packet of two beats, with both streams always read. -/
def onePacket (n : Nat) : CoreInput where
  tvalid := decide (n < 2)
  tlast := decide (n = 1)
  tdata := 0
  tready := true
  stsTready := true
  late := false
  eofLate := false
  eofHidden := false
  dout := 0

instance (s : Core) (i : CoreInput) : Decidable (KeepsUp s i) :=
  decidable_of_iff ((s.sts.state = .idle → s.eofEmpty i = false → s.stsFifo.length ≤ 250) ∧
    (handshake s.log.hw (s.input i) = true → i.tlast = true →
      s.eofFifo + s.aesS2mmEof.toNat + s.log.accepted.countP Beat.last ≤ 255 + s.packets))
    ⟨fun h => ⟨h.1, h.2⟩, fun h => ⟨h.status, h.ends⟩⟩

theorem status_sound_onePacket :
    (trace (Core.next noCipher) start onePacket 50).stsOut = statusPacket ∧
      Sound (trace (Core.next noCipher) start onePacket 50) :=
  ⟨by decide +kernel, status_sound start_afterReset 50 (by decide +kernel)⟩

/-- Fifty packets of one beat each, and a status stream that is not read. -/
def stalled (n : Nat) : CoreInput where
  tvalid := decide (n < 50)
  tlast := true
  tdata := 0
  tready := true
  stsTready := false
  late := false
  eofLate := false
  eofHidden := false
  dout := 0

/-- What is written to a full FIFO is dropped. -/
theorem stalled_fifo (n : Nat) :
    (trace (Core.next noCipher) start stalled n).stsOut = [] ∧
      (trace (Core.next noCipher) start stalled n).stsFifo.length ≤ 256 := by
  refine trace_inv (P := fun s : Core => s.stsOut = [] ∧ s.stsFifo.length ≤ 256)
    ⟨rfl, Nat.zero_le _⟩ (fun k hs => ?_) n
  refine ⟨?_, ?_⟩
  · simp only [Core.next, stalled, Bool.false_eq_true, if_false, List.append_nil]
    exact hs.1
  · have hport : (port (trace (Core.next noCipher) start stalled k).sts).length ≤ 1 := by
      rw [port_length]
      split_ifs <;> decide
    simp only [Core.next, stalled, Bool.false_eq_true, if_false, List.length_append]
    split_ifs with hroom
    · omega
    · exact hs.2

theorem statuses_length (n : Nat) : (statuses n).length = 6 * n := by
  induction n with
  | zero => rfl
  | succ n ih =>
      rw [statuses_add, List.length_append, ih, statuses_one]
      rfl

/-- As long as nothing is lost, a full FIFO holds the status of 42 packets and a
    part of another. -/
theorem packets_le_of_full {s : Core} (h : Sound s) (hout : s.stsOut = [])
    (hfifo : s.stsFifo.length ≤ 256) : s.packets ≤ waiting s + 43 := by
  have hlen := congrArg List.length h.account
  have hcurrent : (current s.sts).length ≤ 6 := by
    rw [current]
    split <;> first | exact Nat.zero_le _ | exact Nat.le_refl 6 |
      exact (List.drop_sublist _ statusPacket).length_le
  rw [hout, List.nil_append, List.length_append, owed, List.length_append, statuses_length,
    statuses_length] at hlen
  omega

/-- If the status stream is not read, status words are lost. -/
theorem status_stalled :
    ¬ ∀ (aes256 : BitVec 128 → BitVec 128) (s0 : Core) (inp : Nat → CoreInput) (n : Nat),
      AfterReset s0 → Sound (trace (Core.next aes256) s0 inp n) := by
  intro hall
  have hsound := hall noCipher start stalled 400 start_afterReset
  have hfull := stalled_fifo 400
  have hstarted : waiting (trace (Core.next noCipher) start stalled 400) + 44 ≤
      (trace (Core.next noCipher) start stalled 400).packets := by decide +kernel
  have hfits := packets_le_of_full hsound hfull.1 hfull.2
  omega

end Runs

end Sts

end Aes

end Ml605
