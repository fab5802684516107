import Ml605.Eth.IfmWriter

/-!
# Runs of the Receive Output Side

The two flags of `ifm_fifo` make the status stream and the data stream take
turns, changing over on the last flags alone. Since what is written to either
FIFO is a beginning of the right stream, and the last flags are on the sixth
status word and on the last beat, the output is the frames in order, each
behind its status, however the two sides are held back.

## Main definitions

* `Gate`: The output flags and FIFOs against the turns.
* `Status`: What the six status words of a frame say.
* `work`: The cycles left until everything is out.

## Theorems

* `step_gate`: A clock cycle moves the output by at most one word.
* `flush_out`: Once everything has arrived it comes out.
* `run_delivers`: Every frame comes out whole, in order, behind its status.
-/

namespace Ml605

namespace Eth

namespace Ifm

open Lib

/-- The status words of the packets in turns with their beats. -/
def expected (rs : List Packet) : List (CtrlWord ⊕ Beat) :=
  turns Packet.status Packet.beats rs

/-- The output flags and FIFOs against the turns: one of the flags is set, and
    what has been written is what came out and what is left in the FIFOs. -/
def Gate (rs : List Packet) (t : Rx) : Prop :=
  ∃ ta tb, InTurn Packet.status Packet.beats rs t.readyForSts ta tb t.out ∧
    t.readyForData = !t.readyForSts ∧ t.ctrlFed = ta ++ t.ctrlFifo ∧ t.goodFed = tb ++ t.goodFifo

section Output

variable {rs : List Packet} {t : Rx} {c : Cycle}

theorem ctrlFed_begins (hinv : Inv rs t) : t.ctrlFed <+: statuses rs :=
  (List.prefix_append _ _).trans (written_begins hinv.stage).2

theorem goodFed_begins (hinv : Inv rs t) : t.goodFed <+: beatsOf rs :=
  (List.prefix_append _ _).trans (written_begins hinv.stage).1

/-- With the status stream's turn no beat leaves. -/
theorem rxdTransfer_none (h : t.readyForData = false) : rxdTransfer t c = none := by
  rw [rxdTransfer, h, Bool.false_and, if_neg Bool.false_ne_true]

/-- With the data stream's turn no status word leaves. -/
theorem rxsTransfer_none (h : t.readyForSts = false) : rxsTransfer t c = none := by
  rw [rxsTransfer, h, Bool.false_and, if_neg Bool.false_ne_true]

/-- The word that leaves is the first of its FIFO. -/
theorem ctrlFifo_of_transfer {w : CtrlWord} (h : rxsTransfer t c = some w) :
    t.ctrlFifo.head? = some w := by
  unfold rxsTransfer at h
  split at h
  · exact h
  · exact absurd h (Ne.symm (Option.some_ne_none w))

theorem goodFifo_of_transfer {y : Beat} (h : rxdTransfer t c = some y) :
    t.goodFifo.head? = some y := by
  unfold rxdTransfer at h
  split at h
  · exact h
  · exact absurd h (Ne.symm (Option.some_ne_none y))

/-- A cycle in which neither stream moves. -/
theorem gate_still (hg : Gate rs t) (hrxs : rxsTransfer t c = none)
    (hrxd : rxdTransfer t c = none) : Gate rs (rxNext t c) := by
  rcases hg with ⟨ta, tb, hin, hflags, hctrl, hgood⟩
  refine ⟨ta, tb, ?_, ?_, fifo_kept hctrl (by rw [hrxs, Option.isSome_none]),
    fifo_kept hgood (by rw [hrxd, Option.isSome_none])⟩
  · simp only [rxNext, readyNext, hrxd, hrxs, Option.map_none, Option.getD_none,
      Bool.false_eq_true, if_false, Option.toList_none, List.append_nil]
    exact hin
  · simp only [rxNext, readyNext, hrxd, hrxs, Option.map_none, Option.getD_none,
      Bool.false_eq_true, if_false]
    exact hflags

/-- A cycle in the status stream's turn. -/
theorem gate_sts (hinv : Inv rs t) (hg : Gate rs t) (hturn : t.readyForSts = true) :
    Gate rs (rxNext t c) := by
  have hstill := gate_still (c := c) hg
  rcases hg with ⟨ta, tb, hin, hflags, hctrl, hgood⟩
  rw [hturn] at hin hflags
  have hrxd := rxdTransfer_none (c := c) hflags
  have hgood' : (rxNext t c).goodFed = tb ++ (rxNext t c).goodFifo :=
    fifo_kept hgood (by rw [hrxd, Option.isSome_none])
  cases hrxs : rxsTransfer t c with
  | none => exact hstill hrxs hrxd
  | some w =>
      have hfifo := ctrlFifo_of_transfer hrxs
      -- The word that leaves is the next of the status stream.
      have hw : ta ++ [w] <+: rs.flatMap Packet.status := by
        refine List.IsPrefix.trans ?_ (ctrlFed_begins hinv)
        rw [hctrl, List.eq_cons_of_mem_head? hfifo, List.prefix_append_right_inj]
        exact List.cons_prefix_cons.mpr ⟨rfl, List.nil_prefix⟩
      have hnext := inTurn_first status_ends Packet.ends hin hw
      have hready : readyNext t c = (w.last, !w.last) := by
        simp only [readyNext, hrxd, hrxs, Option.map_none, Option.getD_none, Option.map_some,
          Option.getD_some, Bool.false_eq_true, if_false, hturn, hflags]
        cases w.last with
        | false => rfl
        | true => rfl
      refine ⟨ta ++ [w], tb, ?_, ?_,
        fifo_taken hctrl (by rw [hrxs, Option.isSome_some]) hfifo, hgood'⟩
      · simp only [rxNext, hready, hrxd, hrxs, Option.map_some, Option.map_none,
          Option.toList_some, Option.toList_none, List.append_nil]
        exact hnext
      · simp only [rxNext, hready, Bool.not_not]

/-- A cycle in the data stream's turn. -/
theorem gate_data (hinv : Inv rs t) (hg : Gate rs t) (hturn : t.readyForSts = false) :
    Gate rs (rxNext t c) := by
  have hstill := gate_still (c := c) hg
  rcases hg with ⟨ta, tb, hin, hflags, hctrl, hgood⟩
  rw [hturn] at hin hflags
  have hrxs := rxsTransfer_none (c := c) hturn
  have hctrl' : (rxNext t c).ctrlFed = ta ++ (rxNext t c).ctrlFifo :=
    fifo_kept hctrl (by rw [hrxs, Option.isSome_none])
  cases hrxd : rxdTransfer t c with
  | none => exact hstill hrxs hrxd
  | some y =>
      have hfifo := goodFifo_of_transfer hrxd
      -- The beat that leaves is the next of the data stream.
      have hy : tb ++ [y] <+: rs.flatMap Packet.beats := by
        refine List.IsPrefix.trans ?_ (goodFed_begins hinv)
        rw [hgood, List.eq_cons_of_mem_head? hfifo, List.prefix_append_right_inj]
        exact List.cons_prefix_cons.mpr ⟨rfl, List.nil_prefix⟩
      have hnext := inTurn_second status_ends Packet.ends hin hy
      have hready : readyNext t c = (!y.last, y.last) := by
        simp only [readyNext, hrxd, hrxs, Option.map_none, Option.getD_none, Option.map_some,
          Option.getD_some, Bool.false_eq_true, if_false, hturn, hflags]
        cases y.last with
        | false => rfl
        | true => rfl
      refine ⟨ta, tb ++ [y], ?_, ?_, hctrl',
        fifo_taken hgood (by rw [hrxd, Option.isSome_some]) hfifo⟩
      · simp only [rxNext, hready, hrxd, hrxs, Option.map_some, Option.map_none,
          Option.toList_some, Option.toList_none, List.append_nil]
        exact hnext
      · simp only [rxNext, hready]

/-- A clock cycle moves the output by at most one word, and in turn. -/
theorem step_gate (hinv : Inv rs t) (hg : Gate rs t) : Gate rs (rxNext t c) := by
  cases hturn : t.readyForSts with
  | true => exact gate_sts hinv hg hturn
  | false => exact gate_data hinv hg hturn

theorem afterReset_gate (h0 : AfterReset t) : Gate rs t := by
  refine ⟨[], [], ?_, ?_, ?_, ?_⟩
  · rw [h0.readyForSts, h0.out]
    exact inTurn_start status_ends
  · rw [h0.readyForData, h0.readyForSts]
    rfl
  · rw [h0.ctrlFed, h0.ctrlFifo]
    rfl
  · rw [h0.goodFed, h0.goodFifo]
    rfl

end Output

/-- All packets have arrived in the FIFOs. -/
structure Arrived (rs : List Packet) (t : Rx) : Prop where
  data : t.fedData = beatsOf rs
  info : t.fedInfo = entriesOf rs

/-- The cycles the state machine has left: a packet takes one for each beat and
    eight more. The entry of a packet leaves the info FIFO with its last beat. -/
def fsmWork (t : Rx) : Nat :=
  match t.fsm.state with
  | .idle => 8 * t.infoFifo.length + t.dataFifo.length
  | .eof =>
      if t.fsm.infoFifoRden then 8 * t.infoFifo.length + t.dataFifo.length - 1
      else 8 * t.infoFifo.length + t.dataFifo.length + 7 - t.fsm.wcnt.toNat
  | .done => 8 * t.infoFifo.length + t.dataFifo.length + 1
  | _ => 8 * t.infoFifo.length + t.dataFifo.length - 1

/-- The cycles left until everything is out. -/
def work (rs : List Packet) (t : Rx) : Nat :=
  fsmWork t + ((expected rs).length - t.out.length)

section Drain

variable {rs : List Packet} {t : Rx} {c : Cycle}

theorem arrived_next (ha : Arrived rs t) (hf : Flush t c) : Arrived rs (rxNext t c) := by
  refine ⟨?_, ?_⟩
  · simp only [rxNext, hf.data, List.append_nil, ha.data]
  · simp only [rxNext, hf.info, List.append_nil, ha.info]

/-- With everything there, the data FIFO does not run empty inside a packet. -/
theorem supplied_of_flush (hinv : Inv rs t) (ha : Arrived rs t) (hf : Flush t c) :
    Supplied rs t c := by
  refine ⟨?_, ?_, fun hs => ready_of_visible hinv hs ?_⟩
  · rw [hf.data, List.append_nil]
    exact hinv.data
  · rw [hf.info, List.append_nil]
    exact hinv.info
  · rw [ha.info, entriesOf, List.length_map, List.take_length, ha.data]

/-- In the idle state all of some packets has been written. -/
theorem stage_idle (h : Stage rs t) (hs : t.fsm.state = .idle) :
    ∃ done rest, rs = done ++ rest ∧ t.goodFed = beatsOf done ∧ t.ctrlFed = statuses done := by
  cases h with
  | idle done rest hrs _ h =>
      have hgood := h.front
      have hctrl := h.status
      rw [front, goodWriting, h.good, if_neg Bool.false_ne_true, List.append_nil] at hgood
      rw [status, ctrlWriting, h.ctrl, if_neg Bool.false_ne_true, List.append_nil] at hctrl
      exact ⟨done, rest, hrs, hgood, hctrl⟩
  | first _ _ _ _ hstate => exact absurd (hstate.symm.trans hs) State.noConfusion
  | wait _ _ _ _ _ _ _ _ _ hstate => exact absurd (hstate.symm.trans hs) State.noConfusion
  | last _ _ _ _ _ _ _ hstate => exact absurd (hstate.symm.trans hs) State.noConfusion
  | eof _ _ _ _ _ _ _ hstate => exact absurd (hstate.symm.trans hs) State.noConfusion
  | done _ _ _ _ hstate => exact absurd (hstate.symm.trans hs) State.noConfusion

/-- Between packets with no entry left, everything has been written. -/
theorem between_last {done rest : List Packet} (hinv : Inv rs t) (ha : Arrived rs t)
    (hrs : rs = done ++ rest) (h : Between done t) (hinfo : t.infoFifo = []) :
    t.dataFifo = [] ∧ t.goodFed = beatsOf rs ∧ t.ctrlFed = statuses rs := by
  have hentries := h.info
  rw [ha.info, hinfo, hrs, entriesOf_append] at hentries
  have hrest : rest = [] := List.map_eq_nil_iff.mp (List.append_cancel_left hentries)
  subst hrest
  rw [List.append_nil] at hrs
  have hkept := hinv.kept
  rw [ha.data, h.front, hrs] at hkept
  have hgood := h.front
  have hctrl := h.status
  rw [front, goodWriting, h.good, if_neg Bool.false_ne_true, List.append_nil] at hgood
  rw [status, ctrlWriting, h.ctrl, if_neg Bool.false_ne_true, List.append_nil] at hctrl
  rw [hrs]
  exact ⟨List.append_right_eq_self.mp hkept.symm, hgood, hctrl⟩

section FsmWork

theorem fsmWork_idle (hs : t.fsm.state = .idle) :
    fsmWork t = 8 * t.infoFifo.length + t.dataFifo.length := by
  simp only [fsmWork, hs]

theorem fsmWork_wait (hs : t.fsm.state = .wait) :
    fsmWork t = 8 * t.infoFifo.length + t.dataFifo.length - 1 := by
  simp only [fsmWork, hs]

/-- The last beat is on the write port, and the entry is about to leave. -/
theorem fsmWork_last (hs : t.fsm.state = .eof) (hrden : t.fsm.infoFifoRden = true) :
    fsmWork t = 8 * t.infoFifo.length + t.dataFifo.length - 1 := by
  simp only [fsmWork, hs, hrden, if_true]

/-- The entry has left, and `k` of the six status words are made. -/
theorem fsmWork_eof {k : Nat} (hs : t.fsm.state = .eof) (hrden : t.fsm.infoFifoRden = false)
    (hk : k ≤ 5) (hwcnt : t.fsm.wcnt = BitVec.ofNat 4 k) :
    fsmWork t = 8 * t.infoFifo.length + t.dataFifo.length + 7 - k := by
  have htoNat : t.fsm.wcnt.toNat = k := by
    rw [hwcnt, BitVec.toNat_ofNat]
    omega
  simp only [fsmWork, hs, hrden, Bool.false_eq_true, if_false, htoNat]

theorem fsmWork_done (hs : t.fsm.state = .done) :
    fsmWork t = 8 * t.infoFifo.length + t.dataFifo.length + 1 := by
  simp only [fsmWork, hs]

end FsmWork

section Cycles

/-- Nothing arrives any more: the FIFOs only lose what is read. -/
theorem dataFifo_next (hf : Flush t c) : (rxNext t c).dataFifo =
    if dataFifoRden t.fsm then t.dataFifo.tail else t.dataFifo := by
  simp only [rxNext, hf.data, List.append_nil]

theorem infoFifo_next (hf : Flush t c) : (rxNext t c).infoFifo =
    if t.fsm.infoFifoRden then t.infoFifo.tail else t.infoFifo := by
  simp only [rxNext, hf.info, List.append_nil]

theorem infoFifo_still (hf : Flush t c) (hrden : t.fsm.infoFifoRden = false) :
    (rxNext t c).infoFifo = t.infoFifo := by
  rw [infoFifo_next hf, hrden, if_neg Bool.false_ne_true]

/-- The data FIFO is read in `S_WAIT` and in `S_DROP`. -/
theorem dataFifo_still (hf : Flush t c) (hwait : t.fsm.state ≠ .wait)
    (hdrop : t.fsm.state ≠ .drop) : (rxNext t c).dataFifo = t.dataFifo := by
  rw [dataFifo_next hf, dataFifoRden, beq_false_of_ne hwait, beq_false_of_ne hdrop, Bool.or_self,
    if_neg Bool.false_ne_true]

theorem state_of_eof (hs : t.fsm.state = .eof) :
    (rxNext t c).fsm.state = if t.fsm.wcnt = 5 then .done else .eof := by
  simp only [rxNext, next, stateNs, hs]

theorem wcnt_of_eof (hs : t.fsm.state = .eof) : (rxNext t c).fsm.wcnt = t.fsm.wcnt + 1 := by
  simp only [rxNext, next, hs, reduceCtorEq, if_false, if_true]

/-- A beat less in the data FIFO is a cycle less, whether more follow or it was
    the last one. -/
theorem fsmWork_copied (hs : t.fsm.state = .wait) (hready : t.dataFifo ≠ [])
    (hrden : t.fsm.infoFifoRden = false) (hf : Flush t c) :
    fsmWork (rxNext t c) ≤ fsmWork t - 1 := by
  cases hfifo : t.dataFifo with
  | nil => exact absurd hfifo hready
  | cons y ys =>
      have hport : (ports t c).dataFifoRdata = y := by
        simp only [ports, hfifo, List.headD_cons]
      have hrd : dataFifoRden t.fsm = true := by
        rw [dataFifoRden, hs]
        rfl
      have hdata : (rxNext t c).dataFifo = ys := by
        rw [dataFifo_next hf, hrd, if_pos rfl, hfifo, List.tail_cons]
      have hinfo := infoFifo_still hf hrden
      have hstate : (rxNext t c).fsm.state = if y.last then .eof else .wait := by
        simp only [rxNext, next, stateNs, hs, hport]
      rw [fsmWork_wait hs, hfifo, List.length_cons]
      -- A beat less is there to copy; the last one leaves the entry to be popped in `S_EOF`.
      cases hlast : y.last with
      | false =>
          rw [hlast, if_neg Bool.false_ne_true] at hstate
          rw [fsmWork_wait hstate, hinfo, hdata]
          omega
      | true =>
          rw [hlast, if_pos rfl] at hstate
          have hpop : (rxNext t c).fsm.infoFifoRden = true := by
            simp only [rxNext, next, hs, hport, hlast, BEq.rfl, Bool.true_and, Bool.or_true]
          rw [fsmWork_last hstate hpop, hinfo, hdata]
          omega

/-- A cycle in which a status word is made, with `k` of them there. -/
theorem fsmWork_closing {done : List Packet} {r : Packet} {k : Nat} (hlo : 1 ≤ k) (hhi : k ≤ 5)
    (hs : t.fsm.state = .eof) (h : Closing done r k t) (hf : Flush t c) :
    fsmWork (rxNext t c) ≤ fsmWork t - 1 := by
  have hwait : t.fsm.state ≠ .wait := by rw [hs]; exact State.noConfusion
  have hdrop : t.fsm.state ≠ .drop := by rw [hs]; exact State.noConfusion
  have hdata := dataFifo_still hf hwait hdrop
  have hinfo := infoFifo_still hf h.rden
  have hstate := state_of_eof (c := c) hs
  rw [fsmWork_eof hs h.rden hhi h.wcnt]
  by_cases hlast : k = 5
  · have hfive : t.fsm.wcnt = 5 := h.wcnt.trans (congrArg (BitVec.ofNat 4) hlast)
    rw [if_pos hfive] at hstate
    rw [fsmWork_done hstate, hinfo, hdata]
    omega
  · have hne : t.fsm.wcnt ≠ 5 := by
      rw [h.wcnt]
      intro heq
      have htoNat : k % 2 ^ 4 = 5 := (BitVec.toNat_ofNat k 4).symm.trans (congrArg BitVec.toNat heq)
      omega
    rw [if_neg hne] at hstate
    have hwcnt : (rxNext t c).fsm.wcnt = BitVec.ofNat 4 (k + 1) := by
      rw [wcnt_of_eof hs, h.wcnt, BitVec.ofNat_add]
      rfl
    rw [fsmWork_eof hstate (rden_quiet hwait hdrop) (by omega) hwcnt, hinfo, hdata]
    omega

end Cycles

/-- The state machine waits in the idle state, with an entry there, for the flag
    of the good FIFO. -/
def Held (t : Rx) (c : Cycle) : Prop := t.fsm.state = .idle ∧ c.goodFifoAfull = true

/-- A cycle in the idle state. -/
theorem fsmWork_started {done rest : List Packet} (hinv : Inv rs t) (ha : Arrived rs t)
    (hrs : rs = done ++ rest) (hs : t.fsm.state = .idle) (h : Between done t) (hf : Flush t c) :
    fsmWork (rxNext t c) ≤ fsmWork t - 1 ∨ Held t c ∧ fsmWork (rxNext t c) = fsmWork t := by
  have hwait : t.fsm.state ≠ .wait := by rw [hs]; exact State.noConfusion
  have hdrop : t.fsm.state ≠ .drop := by rw [hs]; exact State.noConfusion
  have hdata := dataFifo_still hf hwait hdrop
  have hinfo := infoFifo_still hf h.rden
  have hstate : (rxNext t c).fsm.state = stateNs t.fsm (ports t c) := rfl
  cases hfifo : t.infoFifo with
  | nil =>
      -- Everything is copied, and nothing is left.
      have hidle : (rxNext t c).fsm.state = .idle := by
        rw [hstate, stateNs, hs]
        simp only [ports, hfifo, List.isEmpty_nil, Bool.not_true, Bool.false_and,
          Bool.false_eq_true, if_false]
      have hnone := (between_last hinv ha hrs h hfifo).1
      rw [fsmWork_idle hidle, hinfo, hdata, hfifo, hnone]
      exact Or.inl (Nat.zero_le _)
  | cons e es =>
      cases hfull : c.goodFifoAfull with
      | true =>
          have hidle : (rxNext t c).fsm.state = .idle := by
            rw [hstate, stateNs, hs]
            simp only [ports, hfull, Bool.not_true, Bool.and_false, Bool.false_eq_true, if_false]
          rw [fsmWork_idle hidle, fsmWork_idle hs, hinfo, hdata]
          exact Or.inr ⟨⟨hs, hfull⟩, rfl⟩
      | false =>
          -- The entry is that of a good packet, so the copy starts.
          have hcontinues := infoFifo_continues hrs hinv h.info
          rw [hfifo] at hcontinues
          cases rest with
          | nil => exact absurd (List.prefix_nil.mp hcontinues) (List.cons_ne_nil e es)
          | cons r rest =>
              have he : e = r.info := (List.cons_prefix_cons.mp hcontinues).1
              have hcopy : (rxNext t c).fsm.state = .wait := by
                rw [hstate, stateNs, hs]
                simp only [ports, hfifo, hfull, he, r.good, List.isEmpty_cons, List.headD_cons,
                  Bool.not_false, Bool.and_self, if_true, Bool.false_eq_true, if_false]
              rw [fsmWork_wait hcopy, fsmWork_idle hs, hinfo, hdata]
              exact Or.inl (Nat.le_refl _)

/-- Every cycle is one less for the state machine, unless the good FIFO holds it
    up. -/
theorem fsmWork_next (hinv : Inv rs t) (ha : Arrived rs t) (hf : Flush t c) :
    fsmWork (rxNext t c) ≤ fsmWork t - 1 ∨ Held t c ∧ fsmWork (rxNext t c) = fsmWork t := by
  have hfed := supplied_of_flush hinv ha hf
  cases hinv.stage with
  | idle done rest hrs hs h => exact fsmWork_started hinv ha hrs hs h hf
  | first done r rest hrs hs h hbegun _ =>
      exact Or.inl (fsmWork_copied hs (hfed.ready hs) h.rden hf)
  | wait done r rest hrs pre x post _ _ hs hrden h =>
      exact Or.inl (fsmWork_copied hs (hfed.ready hs) hrden hf)
  | last done r rest hrs pre x _ hs hrden h =>
      -- The entry leaves the info FIFO, for six cycles and one more.
      have hwait : t.fsm.state ≠ .wait := by rw [hs]; exact State.noConfusion
      have hdrop : t.fsm.state ≠ .drop := by rw [hs]; exact State.noConfusion
      have hlen : t.infoFifo.length = t.infoFifo.tail.length + 1 := by
        rw [List.eq_cons_of_mem_head? h.begun.head]
        rfl
      have hinfo : (rxNext t c).infoFifo = t.infoFifo.tail := by
        rw [infoFifo_next hf, hrden, if_pos rfl]
      have hstate := state_of_eof (c := c) hs
      rw [h.begun.wcnt, if_neg (by decide)] at hstate
      have hwcnt : (rxNext t c).fsm.wcnt = BitVec.ofNat 4 1 := by
        rw [wcnt_of_eof hs, h.begun.wcnt]
        rfl
      rw [fsmWork_eof hstate (rden_quiet hwait hdrop) (by omega) hwcnt, fsmWork_last hs hrden,
        hinfo, dataFifo_still hf hwait hdrop, hlen]
      omega
  | eof done r rest hrs k hlo hhi hs h => exact Or.inl (fsmWork_closing hlo hhi hs h hf)
  | done done r rest hrs hs h =>
      have hwait : t.fsm.state ≠ .wait := by rw [hs]; exact State.noConfusion
      have hdrop : t.fsm.state ≠ .drop := by rw [hs]; exact State.noConfusion
      have hstate : (rxNext t c).fsm.state = .idle := by
        simp only [rxNext, next, stateNs, hs]
      rw [fsmWork_idle hstate, fsmWork_done hs, infoFifo_still hf h.rden,
        dataFifo_still hf hwait hdrop]
      exact Or.inl (by omega)

/-- The state machine is through when it has nothing left to do. -/
theorem written_of_fsmWork_zero (hinv : Inv rs t) (ha : Arrived rs t) (hw : fsmWork t = 0) :
    t.goodFed = beatsOf rs ∧ t.ctrlFed = statuses rs := by
  -- Inside a packet its entry or the rest of its cycles count.
  have hentry {e : BitVec 8} (hhead : t.infoFifo.head? = some e) : 0 < t.infoFifo.length := by
    rw [List.eq_cons_of_mem_head? hhead]
    exact Nat.succ_pos _
  cases hinv.stage with
  | idle done rest hrs hs h =>
      rw [fsmWork_idle hs] at hw
      exact (between_last hinv ha hrs h (List.eq_nil_of_length_eq_zero (by omega))).2
  | first done r rest hrs hs h hbegun _ =>
      have hpos := hentry hbegun.head
      rw [fsmWork_wait hs] at hw
      omega
  | wait done r rest hrs pre x post _ _ hs hrden h =>
      have hpos := hentry h.begun.head
      rw [fsmWork_wait hs] at hw
      omega
  | last done r rest hrs pre x _ hs hrden h =>
      have hpos := hentry h.begun.head
      rw [fsmWork_last hs hrden] at hw
      omega
  | eof done r rest hrs k hlo hhi hs h =>
      rw [fsmWork_eof hs h.rden hhi h.wcnt] at hw
      omega
  | done done r rest hrs hs h =>
      rw [fsmWork_done hs] at hw
      omega

/-- What has come out stays. -/
theorem out_length_le (t : Rx) (c : Cycle) : t.out.length ≤ (rxNext t c).out.length := by
  simp only [rxNext, List.length_append]
  omega

/-- With both sides taking, a word comes out of the FIFO whose turn it is. -/
theorem out_grows (hflags : t.readyForData = !t.readyForSts) (hf : Flush t c)
    (hmore : if t.readyForSts then t.ctrlFifo ≠ [] else t.goodFifo ≠ []) :
    t.out.length < (rxNext t c).out.length := by
  cases hturn : t.readyForSts with
  | true =>
      rw [hturn, if_pos rfl] at hmore
      cases hfifo : t.ctrlFifo with
      | nil => exact absurd hfifo hmore
      | cons w ws =>
          have hrxs : rxsTransfer t c = some w := by
            rw [rxsTransfer, hturn, hf.rxs, hfifo]
            rfl
          simp only [rxNext, hrxs, Option.map_some, Option.toList_some, List.length_append,
            List.length_singleton]
          omega
  | false =>
      rw [hturn, if_neg Bool.false_ne_true] at hmore
      rw [hturn, Bool.not_false] at hflags
      cases hfifo : t.goodFifo with
      | nil => exact absurd hfifo hmore
      | cons y ys =>
          have hrxd : rxdTransfer t c = some y := by
            rw [rxdTransfer, hflags, hf.rxd, hfifo]
            rfl
          simp only [rxNext, hrxd, Option.map_some, Option.toList_some, List.length_append,
            List.length_singleton]
          omega

/-- With all of some frames written, the FIFO whose turn it is has a word for as
    long as the turn is short of them. -/
theorem fifo_of_turn {ta : List CtrlWord} {tb : List Beat} {fs : List Packet}
    (hctrl : t.ctrlFed = ta ++ t.ctrlFifo) (hgood : t.goodFed = tb ++ t.goodFifo)
    (hctrlAll : t.ctrlFed = statuses fs) (hgoodAll : t.goodFed = beatsOf fs)
    (hleft : if t.readyForSts then ta ≠ fs.flatMap Packet.status
      else tb ≠ fs.flatMap Packet.beats) :
    if t.readyForSts then t.ctrlFifo ≠ [] else t.goodFifo ≠ [] := by
  cases hturn : t.readyForSts with
  | true =>
      rw [hturn, if_pos rfl] at hleft
      intro hnil
      rw [hnil, List.append_nil, hctrlAll] at hctrl
      exact hleft hctrl.symm
  | false =>
      rw [hturn, if_neg Bool.false_ne_true] at hleft
      intro hnil
      rw [hnil, List.append_nil, hgoodAll] at hgood
      exact hleft hgood.symm

/-- With everything written, a word comes out until all of them are. -/
theorem out_grows_written (hg : Gate rs t) (hf : Flush t c) (hgood : t.goodFed = beatsOf rs)
    (hctrl : t.ctrlFed = statuses rs) (hne : t.out ≠ expected rs) :
    t.out.length < (rxNext t c).out.length := by
  rcases hg with ⟨ta, tb, hin, hflags, hctrlFed, hgoodFed⟩
  exact out_grows hflags hf
    (fifo_of_turn hctrlFed hgoodFed hctrl hgood (inTurn_left hin hne))

/-- A state machine that is held up by the good FIFO has written the status of all
    that is in it, so a word comes out. -/
theorem out_grows_held (hinv : Inv rs t) (hg : Gate rs t) (hf : Flush t c) (hheld : Held t c) :
    t.out.length < (rxNext t c).out.length := by
  rcases hg with ⟨ta, tb, hin, hflags, hctrlFed, hgoodFed⟩
  rcases stage_idle hinv.stage hheld.1 with ⟨done, rest, hrs, hgood, hctrl⟩
  have htb : tb <+: done.flatMap Packet.beats := by
    have hbegins : tb <+: t.goodFed := by
      rw [hgoodFed]
      exact List.prefix_append _ _
    rw [hgood] at hbegins
    exact hbegins
  have hne : tb ≠ done.flatMap Packet.beats := by
    intro hall
    rw [hgood, hall] at hgoodFed
    exact hf.room hheld.2 (List.append_right_eq_self.mp hgoodFed.symm)
  exact out_grows hflags hf
    (fifo_of_turn hctrlFed hgoodFed hctrl hgood (inTurn_waiting hin hrs htb hne))

/-- Every cycle of the drain is one less to go: the state machine moves, or,
    when it is through, the output does. -/
theorem work_next (hinv : Inv rs t) (hg : Gate rs t) (ha : Arrived rs t) (hf : Flush t c) :
    work rs (rxNext t c) ≤ work rs t - 1 := by
  have hfsm := fsmWork_next hinv ha hf
  have hout := out_length_le t c
  unfold work
  rcases hfsm with hless | ⟨hheld, hsame⟩
  · -- The output may wait for the state machine, but not after it is through.
    by_cases hzero : fsmWork t = 0
    · have hwritten := written_of_fsmWork_zero hinv ha hzero
      by_cases hall : t.out = expected rs
      · rw [hall] at hout
        omega
      · have hgrow := out_grows_written hg hf hwritten.1 hwritten.2 hall
        omega
    · omega
  · have hgrow := out_grows_held hinv hg hf hheld
    have hnext : (rxNext t c).out.length ≤ (expected rs).length := by
      rcases step_gate (c := c) hinv hg with ⟨ta, tb, hin, _⟩
      exact (inTurn_begins hin).length_le
    omega

/-- Having no work left, everything is out. -/
theorem out_of_work_zero (hg : Gate rs t) (hw : work rs t = 0) : t.out = expected rs := by
  rcases hg with ⟨ta, tb, hin, _⟩
  unfold work at hw
  exact (inTurn_begins hin).eq_of_length_le (by unfold expected at hw; omega)

theorem expected_length (rs : List Packet) :
    (expected rs).length = 6 * rs.length + (beatsOf rs).length := by
  induction rs with
  | nil => rfl
  | cons r rs ih =>
      have hcons : expected (r :: rs) = r.status.map Sum.inl ++
          r.beats.map Sum.inr ++ expected rs := rfl
      rw [hcons, List.length_append, List.length_append, List.length_map, List.length_map, ih,
        status_length, beatsOf_cons, List.length_append, List.length_cons]
      omega

/-- No more is left than has arrived. -/
theorem work_le (hinv : Inv rs t) (ha : Arrived rs t) :
    work rs t ≤ 14 * rs.length + 2 * (beatsOf rs).length + 7 := by
  have hexpected := expected_length rs
  have hdata : t.dataFifo.length ≤ (beatsOf rs).length := by
    rw [← ha.data, hinv.kept, List.length_append]
    omega
  have hinfo : t.infoFifo.length ≤ rs.length := by
    have hfed : t.infoFifo.length ≤ t.fedInfo.length := by
      rcases hinv.stage with ⟨_, _, _, _, h⟩ | ⟨_, _, _, _, _, h, _⟩ |
        ⟨_, _, _, _, _, _, _, _, _, _, _, h⟩ | ⟨_, _, _, _, _, _, _, _, _, h⟩ |
        ⟨_, _, _, _, _, _, _, _, h⟩ | ⟨_, _, _, _, _, h⟩ <;>
        rw [h.info, List.length_append] <;> omega
    rw [ha.info, entriesOf, List.length_map] at hfed
    exact hfed
  have hfsm : fsmWork t ≤ 8 * t.infoFifo.length + t.dataFifo.length + 7 := by
    unfold fsmWork
    split
    · omega
    · split <;> omega
    · omega
    · omega
  unfold work
  omega

end Drain

/-- What the six status words of a frame say: the last flag is on the sixth
    only, the checksum of the bytes from offset 14 on is in the fifth, and the
    number of bytes in the sixth. -/
structure Status (r : RxFrame) (ws : List CtrlWord) : Prop where
  last : ws.map CtrlWord.last = [false, false, false, false, false, true]
  rxSum : ws[4]?.map (fun w => w.data.extractLsb' 0 16) =
    some (Csum.rxSumOf (Csum.checksum 0 (r.frame.bytes.drop 14)))
  bytecnt : ws[5]?.map (fun w => (w.data.extractLsb' 0 16).toNat) = some r.frame.length

theorem beats_ends (f : Frame) : EndsOnly Beat.last f.beats := by
  refine endsOnly_snoc (fun x hx => ?_) rfl
  rcases List.mem_map.mp hx with ⟨w, _, rfl⟩
  rfl

/-- A frame as a packet. -/
def RxFrame.packet (r : RxFrame) : Packet := ⟨r.frame.beats, r.info, beats_ends r.frame, r.good⟩

section Frames

variable (rs : List RxFrame)

theorem packet_status (r : RxFrame) : r.packet.status = statusWords r := by
  have hsum : Csum.packetSum 0xE 0x0 r.frame.beats = r.job.value := Csum.packetSum_job r.job
  rw [Packet.status, statusWords, RxFrame.packet, hsum, r.frame.byteCount_beats]

theorem beatsOf_packets : beatsOf (rs.map RxFrame.packet) = stream rs := List.flatMap_map ..

theorem entriesOf_packets : entriesOf (rs.map RxFrame.packet) = infos rs := List.map_map ..

theorem expected_packets :
    expected (rs.map RxFrame.packet) = turns statusWords (fun r => r.frame.beats) rs := by
  rw [expected, turns, turns, List.flatMap_map]
  refine congrArg (fun f => List.flatMap f rs) (funext fun r => ?_)
  rw [packet_status]
  rfl

theorem supplied_of_fed {t : Rx} {c : Cycle} (h : Fed rs t c) :
    Supplied (rs.map RxFrame.packet) t c := by
  refine ⟨?_, ?_, h.ready⟩
  · rw [beatsOf_packets]
    exact ⟨[], by rw [List.append_nil]; exact h.data⟩
  · rw [entriesOf_packets]
    exact h.info

end Frames

theorem statusWords_status (r : RxFrame) : Status r (statusWords r) := by
  have hlow (v : BitVec 16) : (0#16 ++ v).extractLsb' 0 16 = v := BitVec.extractLsb'_append_eq_right
  refine ⟨rfl, ?_, ?_⟩
  · exact congrArg some (hlow _)
  · have hshort := r.short
    have hcnt : ((0#16 ++ BitVec.ofNat 16 r.frame.length).extractLsb' 0 16).toNat =
        r.frame.length := by
      rw [hlow, BitVec.toNat_ofNat]
      omega
    exact congrArg some hcnt

section Runs

variable {ps : List Packet} {t0 t : Rx} {cs : List Cycle}

theorem next_of_step {t t' : Rx} {c : Cycle} (hs : step t c = some t') : t' = rxNext t c :=
  (Option.some.inj hs).symm

/-- Both sides of the invariant: what is written and what comes out. -/
def Delivering (ps : List Packet) (t : Rx) : Prop := Inv ps t ∧ Gate ps t

/-- The invariant with everything arrived. -/
def Filled (ps : List Packet) (t : Rx) : Prop := Delivering ps t ∧ Arrived ps t

theorem step_delivering (t : Rx) (c : Cycle) (t' : Rx) (h : Delivering ps t)
    (hc : Supplied ps t c) (hs : step t c = some t') : Delivering ps t' := by
  rcases next_of_step hs with rfl
  exact ⟨step_inv h.1 hc, step_gate h.1 h.2⟩

theorem step_filled (t : Rx) (c : Cycle) (t' : Rx) (h : Filled ps t) (hf : Flush t c)
    (hs : step t c = some t') : Filled ps t' := by
  have hnext := step_delivering t c t' h.1 (supplied_of_flush h.1.1 h.2 hf) hs
  rcases next_of_step hs with rfl
  exact ⟨hnext, arrived_next h.2 hf⟩

/-- More packets may follow, if the data FIFO has received what is of them. -/
theorem delivering_append (h : Delivering ps t) {qs : List Packet}
    (hdata : ∃ more, t.fedData <+: beatsOf (ps ++ qs) ++ more) : Delivering (ps ++ qs) t := by
  refine ⟨⟨stage_append h.1.stage qs, h.1.kept, hdata, ?_⟩, ?_⟩
  · rw [entriesOf_append]
    exact h.1.info.trans (List.prefix_append _ _)
  · rcases h.2 with ⟨ta, tb, hin, hrest⟩
    exact ⟨ta, tb, inTurn_append status_ends hin qs, hrest⟩

theorem afterReset_delivering (h0 : AfterReset t) : Delivering ps t :=
  ⟨afterReset_inv h0, afterReset_gate h0⟩

theorem run_delivering (h0 : AfterReset t0) (hrun : Run step (Supplied ps) t0 cs t) :
    Delivering ps t := run_inv step_delivering hrun (afterReset_delivering h0)

/-- Once everything has arrived it comes out, in a number of cycles that only
    depends on the packets. -/
theorem flush_out (h : Filled ps t0) (hrun : Run step Flush t0 cs t)
    (hlong : 14 * ps.length + 2 * (beatsOf ps).length + 7 ≤ cs.length) : t.out = expected ps := by
  have hfilled := run_inv step_filled hrun h
  have hdrop : work ps t ≤ work ps t0 - cs.length := by
    refine run_size_le (work ps) step_filled ?_ hrun h
    intro t c t' ht hf hs
    rcases next_of_step hs with rfl
    exact work_next ht.1.1 ht.1.2 ht.2 hf
  have hle := work_le h.1.1 h.2
  exact out_of_work_zero hfilled.1.2 (by omega)

/-- Every frame comes out whole and in order, each behind its own six status
    words, at any pace of the FIFOs and of the two output sides. What has come
    out is a beginning of that, and once all frames have arrived all of it comes
    out. -/
theorem run_delivers (rs : List RxFrame) {t0 t : Rx} {cs : List Cycle} (h0 : AfterReset t0)
    (hrun : Run step (Fed rs) t0 cs t) :
    ∃ sts : RxFrame → List CtrlWord, (∀ r, r ∈ rs → Status r (sts r)) ∧
      t.out <+: turns sts (fun r => r.frame.beats) rs ∧
        (t.fedData = stream rs → t.fedInfo = infos rs → ∀ cs' t', Run step Flush t cs' t' →
          14 * rs.length + 2 * (stream rs).length + 7 ≤ cs'.length →
            t'.out = turns sts (fun r => r.frame.beats) rs) := by
  have hsupplied : Run step (Supplied (rs.map RxFrame.packet)) t0 cs t :=
    run_mono (fun _ => True) (fun _ _ _ _ _ _ => trivial) (fun _ _ _ => supplied_of_fed rs) hrun
      trivial
  have hdelivering := run_delivering h0 hsupplied
  -- The words written for a frame are the ones that belong to it.
  refine ⟨statusWords, fun r _ => statusWords_status r, ?_, ?_⟩
  · rcases hdelivering.2 with ⟨ta, tb, hin, _⟩
    rw [← expected_packets]
    exact inTurn_begins hin
  · intro hdata hinfo cs' t' hflush hlong
    rw [← expected_packets]
    refine flush_out ⟨hdelivering, ?_, ?_⟩ hflush ?_
    · rw [hdata, beatsOf_packets]
    · rw [hinfo, entriesOf_packets]
    · rw [List.length_map, beatsOf_packets]
      exact hlong

end Runs

section TwoFrames

/-- A state after reset. -/
def resetRx : Rx :=
  { fsm := ⟨.idle, 0, false, ⟨0, 0, false⟩, false, false, ⟨false, 0, 0⟩, 0, 0, 0⟩
    csum := ⟨true, 0, 0, false, false, 0, 0, 0, 0, false, false, 0, false, false, false, 0, 0⟩
    readyForData := false
    readyForSts := true
    dataFifo := []
    infoFifo := []
    goodFifo := []
    ctrlFifo := []
    fedData := []
    fedInfo := []
    goodFed := []
    ctrlFed := []
    out := [] }

theorem resetRx_afterReset : AfterReset resetRx :=
  ⟨rfl, rfl, rfl, rfl, rfl, rfl, rfl, rfl, rfl, rfl, rfl, rfl, rfl, rfl, rfl, rfl⟩

/-- A cycle in which words arrive and both output sides take. -/
def feedCycle (data : List Beat) (info : List (BitVec 8)) : Cycle :=
  { goodFifoAfull := false
    rxsTready := true
    rxdTready := true
    newData := data
    newInfo := info
    idleData := ⟨0, 0, false⟩
    idleInfo := 0 }

/-- Any frames can be received: all arrive in one cycle, then nothing does. -/
theorem exists_run (rs : List RxFrame) : ∃ cs0 t0 cs t, Run step (Fed rs) resetRx cs0 t0 ∧
    t0.fedData = stream rs ∧ t0.fedInfo = infos rs ∧ Run step Flush t0 cs t ∧
      14 * rs.length + 2 * (stream rs).length + 7 ≤ cs.length := by
  refine ⟨[feedCycle (stream rs) (infos rs)], rxNext resetRx (feedCycle (stream rs) (infos rs)),
    List.replicate (14 * rs.length + 2 * (stream rs).length + 7) (feedCycle [] []), _,
    ?_, rfl, rfl, run_foldl (fun _ _ => rfl) _ _ ?_, ?_⟩
  · refine Run.cons _ _ _ _ _ rfl ⟨List.prefix_rfl, List.prefix_rfl, ?_⟩ (Run.nil _)
    intro hs
    exact absurd hs State.noConfusion
  · intro c hc t
    rw [List.eq_of_mem_replicate hc]
    exact ⟨fun hfull => absurd hfull Bool.false_ne_true, rfl, rfl, rfl, rfl⟩
  · rw [List.length_replicate]

/-- A frame of four beats, of 27 bytes. -/
def fourBeats : RxFrame :=
  { frame := ⟨[0x0706050403020100, 0x0F0E0D0C0B0A0908, 0x1716151413121110], 0x1A1918, 3,
      by decide, by decide⟩
    info := 1
    good := rfl
    long := by decide
    short := by decide }

/-- A frame of three full beats. -/
def threeBeats : RxFrame :=
  { frame := .whole [0xFFFFFFFFFFFFFFFF, 0x0123456789ABCDEF] 0xFEDCBA9876543210
    info := 1
    good := rfl
    long := by decide
    short := by decide }

/-- Both come out, one behind the other and each behind its six status words. -/
theorem run_delivers_two : AfterReset resetRx ∧ ∃ cs0 t0 cs t sts sts',
    Run step (Fed [fourBeats, threeBeats]) resetRx cs0 t0 ∧ Run step Flush t0 cs t ∧
      Status fourBeats sts ∧ Status threeBeats sts' ∧
      t.out = sts.map Sum.inl ++ fourBeats.frame.beats.map Sum.inr ++
        (sts'.map Sum.inl ++ threeBeats.frame.beats.map Sum.inr) ∧ t.out.length = 19 := by
  rcases exists_run [fourBeats, threeBeats] with ⟨cs0, t0, cs, t, hfeed, hdata, hinfo, hflush,
    hlong⟩
  rcases run_delivers [fourBeats, threeBeats] resetRx_afterReset hfeed with ⟨sts, hsts, _, hall⟩
  have hfour := hsts fourBeats List.mem_cons_self
  have hthree := hsts threeBeats (List.mem_cons_of_mem _ List.mem_cons_self)
  have hout : t.out = (sts fourBeats).map Sum.inl ++ fourBeats.frame.beats.map Sum.inr ++
      ((sts threeBeats).map Sum.inl ++ threeBeats.frame.beats.map Sum.inr) := by
    rw [hall hdata hinfo cs t hflush hlong]
    exact congrArg (_ ++ ·) (List.append_nil _)
  have hsix : ∀ {r : RxFrame} {ws : List CtrlWord}, Status r ws → ws.length = 6 :=
    fun h => (List.length_map CtrlWord.last).symm.trans (congrArg List.length h.last)
  refine ⟨resetRx_afterReset, cs0, t0, cs, t, sts fourBeats, sts threeBeats, hfeed, hflush, hfour,
    hthree, hout, ?_⟩
  rw [hout]
  simp only [List.length_append, List.length_map, hsix hfour, hsix hthree]
  rfl

end TwoFrames

end Ifm

end Eth

end Ml605
