import Ml605.Eth.IfmRun

/-!
# The Receive Output Side in Numbers

Where the copy and the output are, counted in packets and beats, and how many
words have been read from the FIFOs. Between packets the words copied are those
of some packets; inside one they are in between.

The status words are ahead of the beats: all six of a packet have left when its
first beat does.

## Main definitions

* `upTo`: The number of beats of the first packets.
* `infoReads`, `dataReads`, `goodReads`: The words read from the FIFOs.
* `Outside`, `Inside`: Between packets, and inside one.

## Theorems

* `upTo_gap`: Packets of eight beats at least.
* `stage_position`: Where the copy is.
* `gate_position`: Where the output is.
* `copy_cases`: How the copy comes to be inside a packet.
-/

namespace Ml605

namespace Eth

namespace Ifm

open Lib

/-- The number of beats of the first `n` packets. -/
def upTo (ps : List Packet) (n : Nat) : Nat := (beatsOf (ps.take n)).length

/-- Packets of 8 to 190 beats. -/
def Sized (ps : List Packet) : Prop := ∀ p, p ∈ ps → 8 ≤ p.beats.length ∧ p.beats.length ≤ 190

section Counting

variable {ps : List Packet} {a b n : Nat}

theorem upTo_succ (h : n < ps.length) : upTo ps (n + 1) = upTo ps n + ps[n].beats.length := by
  rw [upTo, upTo, List.take_succ_eq_append_getElem h, beatsOf, List.flatMap_append,
    List.flatMap_singleton, List.length_append]
  rfl

theorem upTo_append (qs : List Packet) (h : n ≤ ps.length) : upTo (ps ++ qs) n = upTo ps n := by
  rw [upTo, upTo, List.take_append_of_le_length h]

theorem upTo_succ_le (h : Sized ps) (hn : n < ps.length) : upTo ps (n + 1) ≤ upTo ps n + 190 := by
  have hsize := (h ps[n] (List.getElem_mem hn)).2
  rw [upTo_succ hn]
  omega

/-- Packets in between have eight beats each at least. -/
theorem upTo_gap (h : Sized ps) (hab : a ≤ b) (hb : b ≤ ps.length) :
    upTo ps a + 8 * (b - a) ≤ upTo ps b := by
  induction b with
  | zero =>
      rw [Nat.le_zero.mp hab]
      omega
  | succ b ih =>
      rcases Nat.lt_or_eq_of_le hab with hlt | rfl
      · have hsize := (h ps[b] (List.getElem_mem hb)).1
        have hrest := ih (by omega) (by omega)
        rw [upTo_succ hb]
        omega
      · omega

end Counting

/-- The entries read from the info FIFO. -/
def infoReads (t : Rx) : Nat := t.fedInfo.length - t.infoFifo.length

/-- The words read from the data FIFO. -/
def dataReads (t : Rx) : Nat := t.fedData.length - t.dataFifo.length

/-- The words read from the good FIFO. -/
def goodReads (t : Rx) : Nat := t.goodFed.length - t.goodFifo.length

/-- Between two packets, with `m` of them through. -/
structure Outside (ps : List Packet) (t : Rx) (m : Nat) : Prop where
  le : m ≤ ps.length
  state : t.fsm.state ≠ .wait
  rden : t.fsm.infoFifoRden = false
  good : t.fsm.goodFifoWren = false
  reads : infoReads t = m
  front : (front t).length = upTo ps m
  status : (status t).length ≤ 6 * m

/-- Inside a packet, with `m` of them before it. -/
structure Inside (ps : List Packet) (t : Rx) (m : Nat) : Prop where
  lt : m < ps.length
  state : t.fsm.state = .wait ∧ t.fsm.infoFifoRden = false ∨
    t.fsm.state = .eof ∧ t.fsm.infoFifoRden = true
  reads : infoReads t = m
  lo : upTo ps m ≤ (front t).length
  hi : (front t).length ≤ upTo ps (m + 1)
  status : (status t).length ≤ 6 * m

section Position

variable {ps done rest : List Packet} {r : Packet} {t : Rx} {c : Cycle} {m : Nat}

theorem infoReads_eq (h : t.fedInfo = entriesOf done ++ t.infoFifo) :
    infoReads t = done.length := by
  rw [infoReads, h, List.length_append, entriesOf, List.length_map]
  omega

theorem statuses_length (ps : List Packet) : (statuses ps).length = 6 * ps.length := by
  induction ps with
  | nil => rfl
  | cons p ps ih =>
      rw [statuses_cons, List.length_append, status_length, ih, List.length_cons]
      omega

theorem upTo_done (hps : ps = done ++ rest) : upTo ps done.length = (beatsOf done).length := by
  rw [upTo, hps, List.take_left]

theorem upTo_done_succ (hps : ps = done ++ r :: rest) :
    upTo ps (done.length + 1) = (beatsOf done).length + r.beats.length := by
  have hsplit : ps = (done ++ [r]) ++ rest := by
    rw [hps, List.append_assoc, List.singleton_append]
  have hall := upTo_done hsplit
  rw [List.length_append, beatsOf_append, List.length_append] at hall
  rw [show done.length + 1 = done.length + [r].length from rfl, hall]
  exact congrArg _ (congrArg List.length (List.flatMap_singleton Packet.beats r))

/-- Some packets are through, and nothing of the next one has been copied. -/
theorem outside_of_done (hps : ps = done ++ rest) (hs : t.fsm.state ≠ .wait)
    (hrden : t.fsm.infoFifoRden = false) (hgood : t.fsm.goodFifoWren = false)
    (hinfo : t.fedInfo = entriesOf done ++ t.infoFifo) (hfront : front t = beatsOf done)
    (hstatus : (status t).length ≤ 6 * done.length) : Outside ps t done.length := by
  refine ⟨?_, hs, hrden, hgood, infoReads_eq hinfo, ?_, hstatus⟩
  · rw [hps, List.length_append]
    omega
  · rw [hfront, upTo_done hps]

/-- A part of a packet has been copied. -/
theorem inside_of_part (hps : ps = done ++ r :: rest) (part : List Beat)
    (hpart : part.length ≤ r.beats.length)
    (hs : t.fsm.state = .wait ∧ t.fsm.infoFifoRden = false ∨
      t.fsm.state = .eof ∧ t.fsm.infoFifoRden = true)
    (hinfo : t.fedInfo = entriesOf done ++ t.infoFifo) (hfront : front t = beatsOf done ++ part)
    (hstatus : status t = statuses done) : Inside ps t done.length := by
  have hlen := congrArg List.length hfront
  rw [List.length_append] at hlen
  refine ⟨?_, hs, infoReads_eq hinfo, ?_, ?_, ?_⟩
  · rw [hps, List.length_append, List.length_cons]
    omega
  · rw [upTo_done hps]
    omega
  · rw [upTo_done_succ hps]
    omega
  · rw [hstatus, statuses_length]

/-- Where the copy is, counted in packets and beats. -/
theorem stage_position (h : Stage ps t) : ∃ m, Outside ps t m ∨ Inside ps t m := by
  -- After the last beat the packet counts as through, whatever is left of its status.
  have hclosing (done : List Packet) (r : Packet) (rest : List Packet)
      (hps : ps = done ++ r :: rest) (k : Nat) (hk : k ≤ 6) (hs : t.fsm.state ≠ .wait)
      (hc : Closing done r k t) : Outside ps t (done ++ [r]).length := by
    have hps' : ps = (done ++ [r]) ++ rest := by
      rw [hps, List.append_assoc, List.singleton_append]
    refine outside_of_done hps' hs hc.rden hc.good hc.info hc.front ?_
    rw [hc.status, List.length_append, statuses_length, List.length_take, status_length,
      List.length_append, List.length_singleton]
    omega
  cases h with
  | idle done rest hps hs h =>
      refine ⟨done.length, Or.inl (outside_of_done hps ?_ h.rden h.good h.info h.front ?_)⟩
      · rw [hs]
        exact State.noConfusion
      · rw [h.status, statuses_length]
  | first done r rest hps hs h hbegun _ =>
      refine ⟨done.length, Or.inr (inside_of_part hps [] (Nat.zero_le _) (Or.inl ⟨hs, h.rden⟩)
        h.info ?_ h.status)⟩
      rw [h.front, List.append_nil]
  | wait done r rest hps pre x post hbeats _ hs hrden h =>
      refine ⟨done.length, Or.inr (inside_of_part hps (pre ++ [x]) ?_ (Or.inl ⟨hs, hrden⟩)
        h.info h.front h.status)⟩
      simp only [hbeats, List.length_append, List.length_cons, List.length_nil]
      omega
  | last done r rest hps pre x hbeats hs hrden h =>
      exact ⟨done.length, Or.inr (inside_of_part hps (pre ++ [x]) (by rw [hbeats])
        (Or.inr ⟨hs, hrden⟩) h.info h.front h.status)⟩
  | eof done r rest hps k _ hk hs h =>
      exact ⟨_, Or.inl (hclosing done r rest hps k (by omega)
        (by rw [hs]; exact State.noConfusion) h)⟩
  | done done r rest hps hs h =>
      exact ⟨_, Or.inl (hclosing done r rest hps 6 (Nat.le_refl 6)
        (by rw [hs]; exact State.noConfusion) h)⟩

/-- No entry is read: the number of entries read stays. -/
theorem infoReads_next (h : t.fsm.infoFifoRden = false) :
    infoReads (rxNext t c) = infoReads t := by
  simp only [infoReads, rxNext, h, Bool.false_eq_true, if_false, List.length_append]
  omega

theorem dataReads_le (t : Rx) (c : Cycle) : dataReads t ≤ dataReads (rxNext t c) :=
  fifo_reads_le t.fedData t.dataFifo c.newData (dataFifoRden t.fsm)

theorem goodReads_le (t : Rx) (c : Cycle) : goodReads t ≤ goodReads (rxNext t c) :=
  fifo_reads_le t.goodFed t.goodFifo (goodWriting t.fsm) (rxdTransfer t c).isSome

/-- What has been read of the data FIFO is what has been copied. -/
theorem dataReads_eq (h : Inv ps t) : dataReads t = (front t).length := by
  rw [dataReads, h.kept, List.length_append]
  omega

/-- How far the output is, counted in packets: the status words are ahead. -/
theorem gate_position (h : Gate ps t) : t.goodFed.length = goodReads t + t.goodFifo.length ∧
    ∃ a, a ≤ ps.length ∧ goodReads t ≤ upTo ps a ∧
      6 * a + t.ctrlFifo.length ≤ t.ctrlFed.length := by
  rcases h with ⟨ta, tb, hin, _, hctrl, hgood⟩
  have hreads : goodReads t = tb.length := by
    rw [goodReads, hgood, List.length_append]
    omega
  rw [hreads]
  refine ⟨by rw [hgood, List.length_append], ?_⟩
  rcases inTurn_ahead hin with ⟨done, rest, hps, hta, htb⟩
  refine ⟨done.length, ?_, ?_, ?_⟩
  · rw [hps, List.length_append]
    omega
  · rw [upTo_done hps]
    exact htb.length_le
  · have hlen := hta.length_le
    have hcount : (done.flatMap Packet.status).length = 6 * done.length := statuses_length done
    rw [hctrl, List.length_append]
    omega

/-- Inside a packet the copy goes on, or it starts a packet from the idle state
    with the flag of the good FIFO low. -/
theorem copy_cases (hdrop : t.fsm.state ≠ .drop)
    (h : (rxNext t c).fsm.state = .wait ∨ (rxNext t c).fsm.infoFifoRden = true) :
    t.fsm.state = .wait ∨ t.fsm.state = .idle ∧ c.goodFifoAfull = false := by
  by_cases hwait : t.fsm.state = .wait
  · exact Or.inl hwait
  · rcases h with h | h
    · -- Only the idle state leads to the copy.
      refine Or.inr ?_
      cases hs : t.fsm.state with
      | idle =>
          refine ⟨rfl, ?_⟩
          simp only [rxNext, next, stateNs, hs, ports] at h
          cases hfull : c.goodFifoAfull with
          | false => rfl
          | true => simp [hfull] at h
      | wait => exact absurd hs hwait
      | drop => exact absurd hs hdrop
      | eof =>
          simp only [rxNext, next, stateNs, hs] at h
          split at h <;> exact absurd h (by decide)
      | done =>
          simp only [rxNext, next, stateNs, hs] at h
          exact absurd h (by decide)
    · rw [rden_quiet hwait hdrop] at h
      exact absurd h Bool.false_ne_true

/-- Inside a packet it is being copied, or its entry is being read. -/
theorem inside_copies (h : Inside ps t m) :
    t.fsm.state = .wait ∨ t.fsm.infoFifoRden = true := by
  rcases h.state with hs | hs
  · exact Or.inl hs.1
  · exact Or.inr hs.2

/-- After a cycle of the copy the packet is not over: its last beat is on the
    write port. -/
theorem inside_of_wait (hs : t.fsm.state = .wait) (h : Outside ps (rxNext t c) m) : False := by
  have hstate := h.state
  have hrden := h.rden
  simp only [rxNext, next, stateNs, hs] at hstate hrden
  cases hlast : (ports t c).dataFifoRdata.last with
  | false => simp [hlast] at hstate
  | true => simp [hlast] at hrden

end Position

end Ifm

end Eth

end Ml605
