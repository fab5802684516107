import Ml605.Lib.Trace
import Ml605.Pcie.SyncFifo

/-!
# The Transmit Side of the Stub

`altpcie_stub` puts the Avalon-ST words of the bridge into a `sync_fifo` and
offers them to the PCI Express core on `s_axis_tx`. Words are meant to come out
as they went in, and an offered word is meant to stay until it is taken.

Two things can go wrong. The FIFO drops a word that is written while its shift
register is full, and `txfifo_ready`, which takes part in `s_axis_tx_tvalid`,
falls when the core reports few transmit buffers, whether or not a word is
being offered. `delivers_iff` says that nothing else does.

The producer is told to stop by `TxStReady_i`, which falls a cycle after the
count reaches eight; with the cycle of the write register that leaves room for
six further words. But the wire for the count has four bits, and the sixteenth
word makes it read zero, so that `TxStReady_i` rises over a full FIFO.
`room_of_five` is for producers that stop one word earlier.

## Main definitions

* `AltStub`, `AltStub.next`: The registers and the clock cycle.
* `TxLog`: The stub with the words written and sent so far.
* `Intact`: What was written was sent or is inside.
* `Held`: A word that is offered and not taken is offered again.
* `Room`, `Credit`: What a cycle must meet for that.
* `Obeys`: The producer stops in time.

## Theorems

* `intact_next`: A cycle loses nothing exactly if there is room.
* `held_iff`: An offer is held exactly if there is credit.
* `delivers_iff`: What decides the cycles decides the run.
* `room_of_five`: There is room if the producer stops within five words.
-/

namespace Ml605

namespace Pcie

/-- A word of the FIFO: `s_axis_tx_tdata`, `s_axis_tx_tkeep` and
    `s_axis_tx_tlast`. -/
structure TxWord where
  tdata : BitVec 128
  tkeep : BitVec 16
  tlast : Bool
  deriving Repr, DecidableEq

/-- The inputs of one cycle. -/
structure TxInput where
  txStData : BitVec 128
  txStSop : Bool
  txStEop : Bool
  txStEmpty : BitVec 2
  txStValid : Bool
  tready : Bool
  txBufAv : BitVec 6

namespace TxInput

/-- The word the producer shows. A packet that ends in the lower half keeps
    eight bytes, and a packet of one word with a header of three, twelve. -/
def word (i : TxInput) : TxWord where
  tdata := i.txStData
  tkeep :=
    if i.txStEop && i.txStValid && i.txStEmpty.getLsbD 0 then 0x00FF
    else if i.txStEop && i.txStValid && i.txStSop && i.txStData.extractLsb' 24 7 == 0 then 0x0FFF
    else 0xFFFF
  tlast := i.txStEop

/-- The word the producer writes, if it does. -/
def written (i : TxInput) : List TxWord := if i.txStValid then [i.word] else []

/-- The test `tx_buf_av[5:4] == 2'b00`. -/
def bufLow (i : TxInput) : Bool := i.txBufAv.extractLsb' 4 2 == 0

end TxInput

/-- The registers of the transmit side. -/
structure AltStub where
  txfifoReady : Bool
  txfifoWe : Bool
  txfifoWdata : TxWord
  txStReady : Bool
  fifo : SyncFifo TxWord

namespace AltStub

/-- The state a reset leaves. The registers that hold words are not reset. -/
def reset (w : TxWord) : AltStub := ⟨false, false, w, true, SyncFifo.reset w⟩

/-- `txfifo_count`, a wire of four bits at a port of five. -/
def txfifoCount (s : AltStub) : BitVec 4 := s.fifo.dataCount.setWidth 4

/-- `s_axis_tx_tvalid`. -/
def tvalid (s : AltStub) : Bool := !s.fifo.empty && s.txfifoReady

/-- `txfifo_rd`. -/
def txfifoRd (s : AltStub) (i : TxInput) : Bool := s.tvalid && i.tready

/-- One clock cycle. -/
def next (s : AltStub) (i : TxInput) : AltStub where
  txfifoReady := !((s.fifo.dout.tlast && i.tready && s.txfifoReady) || i.bufLow)
  txfifoWe := i.txStValid
  txfifoWdata := i.word
  txStReady := !s.txfifoCount.getLsbD 3
  fifo := s.fifo.next s.txfifoWe (s.txfifoRd i) s.txfifoWdata

/-- The word in the write register, if there is one. -/
def pending (s : AltStub) : List TxWord := if s.txfifoWe then [s.txfifoWdata] else []

/-- The words inside, oldest first. -/
def inside (s : AltStub) : List TxWord := s.fifo.words ++ s.pending

/-- The word that is sent in a cycle, if there is one. -/
def moved (s : AltStub) (i : TxInput) : List TxWord :=
  if s.txfifoRd i then [s.fifo.dout] else []

/-- A word that is offered and not taken is offered again. -/
def Held (s : AltStub) (i : TxInput) : Prop :=
  s.tvalid = true → i.tready = false →
    (s.next i).tvalid = true ∧ (s.next i).fifo.dout = s.fifo.dout

/-- No word is written into the full shift register. -/
def Room (s : AltStub) : Prop := s.txfifoWe = true → s.fifo.contents.length ≠ 16

/-- The core has transmit buffers when it does not take the word offered. -/
def Credit (s : AltStub) (i : TxInput) : Prop :=
  s.tvalid = true → i.tready = false → i.bufLow = false

instance (s : AltStub) (i : TxInput) : Decidable (Held s i) := by unfold Held; infer_instance

/-- Only a word that is there is read. -/
theorem txfifoRd_empty {s : AltStub} {i : TxInput} (h : s.txfifoRd i = true) :
    s.fifo.empty = false := by
  unfold txfifoRd tvalid at h
  cases he : s.fifo.empty with
  | false => rfl
  | true =>
      rw [he] at h
      exact absurd h Bool.false_ne_true

/-- What is sent is the oldest word of the FIFO. -/
theorem moved_append (s : AltStub) (i : TxInput) :
    s.moved i ++ (if s.txfifoRd i then s.fifo.words.tail else s.fifo.words) = s.fifo.words := by
  unfold moved
  cases hrd : s.txfifoRd i with
  | false => rfl
  | true =>
      have hfront : s.fifo.front = [s.fifo.dout] := by
        rw [SyncFifo.front, txfifoRd_empty hrd]
        rfl
      rw [SyncFifo.words, hfront]
      rfl

/-- What is inside after a cycle, with what was sent in it. -/
theorem moved_append_inside (s : AltStub) (i : TxInput) :
    s.moved i ++ (s.next i).inside = s.fifo.words ++
      (if s.txfifoWe && !decide (s.fifo.contents.length = 16) then [s.txfifoWdata] else []) ++
      i.written := by
  have hinside : (s.next i).inside =
      (s.fifo.next s.txfifoWe (s.txfifoRd i) s.txfifoWdata).words ++ i.written := rfl
  rw [hinside, s.fifo.words_next _ _ _ txfifoRd_empty, ← List.append_assoc, ← List.append_assoc,
    moved_append]

/-- The write register gets into the FIFO exactly if there is room. -/
theorem pending_eq_iff (s : AltStub) :
    s.pending =
      (if s.txfifoWe && !decide (s.fifo.contents.length = 16) then [s.txfifoWdata] else []) ↔
    s.Room := by
  unfold pending Room
  cases s.txfifoWe with
  | false => exact iff_of_true rfl nofun
  | true =>
      by_cases hfull : s.fifo.contents.length = 16
      · rw [decide_eq_true hfull]
        exact iff_of_false nofun fun hroom => hroom rfl hfull
      · rw [decide_eq_false hfull]
        exact iff_of_true rfl fun _ => hfull

/-- An offer is held exactly if there is credit. -/
theorem held_iff (s : AltStub) (i : TxInput) : s.Held i ↔ s.Credit i := by
  unfold Held Credit
  refine forall_congr' fun hvalid => forall_congr' fun hready => ?_
  have hempty : s.fifo.empty = false := by
    unfold tvalid at hvalid
    rw [Bool.and_eq_true, Bool.not_eq_true'] at hvalid
    exact hvalid.1
  have hrd : s.txfifoRd i = false := by rw [txfifoRd, hready, Bool.and_false]
  have hnext : (s.next i).fifo = s.fifo.next s.txfifoWe false s.txfifoWdata := by
    rw [← hrd]
    rfl
  obtain ⟨hstays, hsame⟩ := s.fifo.next_held s.txfifoWe s.txfifoWdata hempty
  -- With `tready` low the first reason for `txfifo_ready` to fall is out.
  have hoffer : (s.next i).tvalid = !i.bufLow := by
    have hfalls : (s.next i).txfifoReady =
        !((s.fifo.dout.tlast && i.tready && s.txfifoReady) || i.bufLow) := rfl
    rw [tvalid, hfalls, hnext, hstays, hready, Bool.and_false, Bool.false_and, Bool.false_or]
    rfl
  rw [hoffer, hnext, Bool.not_eq_true']
  exact and_iff_left hsame

end AltStub

/-- The stub with the words that were written and sent so far, and the number
    of words written since `TxStReady_i` was last high. -/
structure TxLog where
  stub : AltStub
  written : List TxWord
  sent : List TxWord
  after : Nat

namespace TxLog

/-- One clock cycle. -/
def next (l : TxLog) (i : TxInput) : TxLog where
  stub := l.stub.next i
  written := l.written ++ i.written
  sent := l.sent ++ l.stub.moved i
  after := if l.stub.txStReady then 0 else l.after + i.written.length

/-- The log after a reset. -/
def start (w : TxWord) : TxLog := ⟨AltStub.reset w, [], [], 0⟩

/-- The log over time. -/
def run (w : TxWord) (inp : Nat → TxInput) : Nat → TxLog := Lib.trace next (start w) inp

/-- What was written was sent or is inside, in order. -/
def Intact (l : TxLog) : Prop := l.written = l.sent ++ l.stub.inside

/-- The producer writes fewer than `k` words before this one since `TxStReady_i`
    went low. -/
def Obeys (k : Nat) (l : TxLog) (i : TxInput) : Prop :=
  i.txStValid = true → l.stub.txStReady = false → l.after < k

instance (l : TxLog) : Decidable l.Intact := by unfold Intact; infer_instance

instance (k : Nat) (l : TxLog) (i : TxInput) : Decidable (Obeys k l i) := by
  unfold Obeys; infer_instance

theorem start_intact (w : TxWord) : (start w).Intact := rfl

/-- A cycle loses nothing exactly if there is room. -/
theorem intact_next {l : TxLog} (h : l.Intact) (i : TxInput) :
    (l.next i).Intact ↔ l.stub.Room := by
  have hnext : (l.next i).Intact ↔
      l.written ++ i.written = l.sent ++ l.stub.moved i ++ (l.stub.next i).inside := Iff.rfl
  rw [hnext, List.append_assoc, l.stub.moved_append_inside, h, ← List.append_assoc,
    List.append_left_inj, List.append_right_inj, AltStub.inside, List.append_right_inj,
    AltStub.pending_eq_iff]

/-- **What decides the cycles decides the run.** All words are sent in order
    and offers are held, exactly if no word is written into the full shift
    register and the core never runs low on buffers while it leaves a word
    waiting. -/
theorem delivers_iff (w : TxWord) (inp : Nat → TxInput) :
    (∀ n, (run w inp n).sent <+: (run w inp n).written ∧ (run w inp n).Intact ∧
        (run w inp n).stub.Held (inp n)) ↔
      ∀ n, (run w inp n).stub.Room ∧ (run w inp n).stub.Credit (inp n) := by
  have hintact : (∀ n, (run w inp n).Intact) ↔ ∀ n, (run w inp n).stub.Room := by
    unfold run
    exact Lib.trace_iff (C := fun l _ => l.stub.Room) (start_intact w)
      fun n hn => intact_next hn (inp n)
  constructor
  · intro hall n
    exact ⟨hintact.mp (fun m => (hall m).2.1) n, (AltStub.held_iff _ _).mp (hall n).2.2⟩
  · intro hall n
    have hn := hintact.mpr (fun m => (hall m).1) n
    have hbegins : (run w inp n).sent <+: (run w inp n).written := ⟨_, hn.symm⟩
    exact ⟨hbegins, hn, (AltStub.held_iff _ _).mpr (hall n).2⟩

/-- The inputs of a cycle with a plain word that carries a number. -/
def plainInput (valid tready : Bool) (txBufAv : BitVec 6) (n : Nat) : TxInput :=
  ⟨BitVec.ofNat 128 n, false, false, 0, valid, tready, txBufAv⟩

/-- Eighteen words while the core is not ready, the last seven with
    `TxStReady_i` low, and another one when all have been taken. -/
def eighteen (n : Nat) : TxInput :=
  plainInput (n < 18 || n == 45) (20 ≤ n) 0x3F n

/-- A word the core does not take, and then no transmit buffers. -/
def withdrawn (n : Nat) : TxInput :=
  plainInput (n == 0) false (if n < 5 then 0x3F else 0) n

/-- Inputs without words after some time obey if they do until then. -/
theorem obeys_of_quiet {w : TxWord} {inp : Nat → TxInput} {k m : Nat}
    (hquiet : ∀ n, m ≤ n → (inp n).txStValid = false)
    (hfirst : ∀ n, n < m → Obeys k (run w inp n) (inp n)) (n : Nat) :
    Obeys k (run w inp n) (inp n) := by
  by_cases hn : n < m
  · exact hfirst n hn
  · intro hvalid
    rw [hquiet n (by omega)] at hvalid
    exact absurd hvalid Bool.false_ne_true

/-- The word of all zeros. -/
def zeroWord : TxWord := ⟨0, 0, false⟩

/-- A producer that stops within seven words loses the eighteenth, and an offer
    is withdrawn. -/
theorem seven_words_not_delivered :
    ((∀ n, Obeys 7 (run zeroWord eighteen n) (eighteen n)) ∧
      ¬ (run zeroWord eighteen 50).sent <+: (run zeroWord eighteen 50).written) ∧
    (∀ n, Obeys 7 (run zeroWord withdrawn n) (withdrawn n)) ∧
      ¬ (run zeroWord withdrawn 5).stub.Held (withdrawn 5) := by
  have hlate : ∀ n, 46 ≤ n → (eighteen n).txStValid = false := by
    intro n hn
    change (decide (n < 18) || n == 45) = false
    rw [decide_eq_false (by omega), Bool.false_or, beq_eq_false_iff_ne]
    omega
  have honce : ∀ n, 1 ≤ n → (withdrawn n).txStValid = false := by
    intro n hn
    change (n == 0) = false
    rw [beq_eq_false_iff_ne]
    omega
  refine ⟨⟨obeys_of_quiet hlate ?_, ?_⟩, obeys_of_quiet honce ?_, ?_⟩
  · decide +kernel
  · decide +kernel
  · decide +kernel
  · decide +kernel

/-- The words in the shift register and the write register. -/
def backlog (l : TxLog) : Nat := l.stub.fifo.contents.length + l.stub.pending.length

/-- What holds if the producer stops within `k` words. A producer that sees
    `TxStReady_i` high finds at most nine words, for seven were counted the
    cycle before, and two more can have been on their way. -/
structure Bounded (k : Nat) (l : TxLog) : Prop where
  few : l.after ≤ k
  high : l.stub.txStReady = true → l.backlog ≤ 9
  low : l.backlog ≤ 10 + l.after

/-- A cycle adds at most the word written in it. -/
theorem backlog_next (l : TxLog) (i : TxInput) :
    (l.next i).backlog ≤ l.backlog + i.written.length := by
  have hcontents := l.stub.fifo.contents_length_next_le l.stub.txfifoWe (l.stub.txfifoRd i)
    l.stub.txfifoWdata
  have hpending : l.stub.pending.length = l.stub.txfifoWe.toNat := length_word _ _
  have hbacklog : (l.next i).backlog = (l.stub.fifo.next l.stub.txfifoWe (l.stub.txfifoRd i)
      l.stub.txfifoWdata).contents.length + i.written.length := rfl
  rw [hbacklog, backlog, hpending]
  omega

theorem not_bit_three : ∀ c : BitVec 5, c.toNat < 16 →
    (!(c.setWidth 4).getLsbD 3) = decide (c.toNat < 8) := by decide

/-- `TxStReady_i` tells whether there were eight words or more, unless there
    were sixteen. -/
theorem txStReady_next {l : TxLog} (h : l.backlog < 16) (i : TxInput) :
    (l.next i).stub.txStReady = decide (l.stub.fifo.contents.length < 8) := by
  unfold backlog at h
  rw [SyncFifo.contents_length] at h ⊢
  exact not_bit_three _ (by omega)

theorem bounded_next {l : TxLog} (h : l.Bounded 5) {i : TxInput} (hobeys : Obeys 5 l i) :
    (l.next i).Bounded 5 := by
  obtain ⟨hfew, hhigh, hlow⟩ := h
  have hback := backlog_next l i
  have hwritten : i.written.length = i.txStValid.toNat := length_word _ _
  have hone := i.txStValid.toNat_le
  have hafter : (l.next i).after =
      if l.stub.txStReady then 0 else l.after + i.written.length := rfl
  -- Fifteen words at most, so that the count is read right.
  have hready := txStReady_next (l := l) (by omega) i
  constructor
  · rw [hafter]
    cases hr : l.stub.txStReady with
    | true => exact Nat.zero_le 5
    | false =>
        rw [hwritten, if_neg Bool.false_ne_true]
        cases hv : i.txStValid with
        | false => exact hfew
        | true => exact hobeys hv hr
  · intro hr
    rw [hready, decide_eq_true_eq] at hr
    have hpending : l.stub.pending.length = l.stub.txfifoWe.toNat := length_word _ _
    have hwe := l.stub.txfifoWe.toNat_le
    unfold backlog at hback ⊢
    omega
  · rw [hafter]
    cases hr : l.stub.txStReady with
    | true =>
        have := hhigh hr
        rw [if_pos rfl]
        omega
    | false =>
        rw [if_neg Bool.false_ne_true]
        omega

/-- **A producer that stops in time.** If it writes at most five words after
    `TxStReady_i` went low, no word is lost. -/
theorem room_of_five (w : TxWord) (inp : Nat → TxInput)
    (hobeys : ∀ n, Obeys 5 (run w inp n) (inp n)) (n : Nat) : (run w inp n).stub.Room := by
  have hbounded : (run w inp n).Bounded 5 := by
    refine Lib.trace_inv ⟨Nat.zero_le 5, fun _ => Nat.zero_le 9, Nat.zero_le 10⟩ ?_ n
    exact fun m hm => bounded_next hm (hobeys m)
  intro hwe hfull
  have hpending : (run w inp n).stub.pending.length = 1 := by
    rw [AltStub.pending, hwe]
    rfl
  have hlow := hbounded.low
  have hfew := hbounded.few
  unfold backlog at hlow
  omega

end TxLog

end Pcie

end Ml605
