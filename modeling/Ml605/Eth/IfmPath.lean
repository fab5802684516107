import Ml605.Eth.IfmIn
import Ml605.Eth.IfmRun

/-!
# The Receive Path from the MAC to the Streams

The input side in the receive clock and the output side in the stream clock,
with the two FIFOs between them. Either clock may tick at any time. What the
input side has written is seen by the output side some time later, in order and
in either FIFO at its own pace. The output side reads the data FIFO without
looking whether it is empty, so it is assumed that it finds a word there.

Every frame the input side accepts comes out, in order, behind its status. The
verdict of the MAC is in bit 0 of the entry, and the output side drops a frame
on bit 7, which is always zero: a bad frame comes out like any other, and only
one bit of its status tells.

## Main definitions

* `Path`, `Event`, `step`: Both sides and the ticks of the two clocks.
* `Ready`: The output side does not read the data FIFO while it is empty.
* `Assumed`, `NoStray`: What is assumed of the frames and the FIFOs, and that no
  first beat of a dropped frame is written.
* `Carried`: What both sides have in common.
* `OnlyGood`: What came out is of good frames.

## Theorems

* `step_carried`: Either clock keeps what both sides have in common.
* `flush_all`: Once everything is written, all of it comes out.
* `run_onlyGood`: Only good frames come out exactly if only good ones are accepted.
* `bad_frame_delivered`: A bad frame comes out with its status.
-/

namespace Ml605

namespace Eth

namespace IfmPath

open Lib IfmIn Ifm

theorem macFrame_ends (f : MacFrame) : EndsOnly Beat.last f.beats := by
  refine endsOnly_snoc (fun x hx => ?_) rfl
  rcases List.mem_map.mp hx with ⟨w, _, rfl⟩
  rfl

/-- A frame as the output side gets it: no entry is ever marked for dropping. -/
def packet (f : MacFrame) : Packet :=
  { beats := f.beats
    info := f.info
    ends := macFrame_ends f
    good := by cases hg : f.good <;> rw [MacFrame.info, hg] <;> rfl }

/-- Both sides. -/
structure Path where
  mac : Watch
  rx : Rx

/-- A cycle of the stream clock: the surroundings of the output side, and how
    many more words of either FIFO it gets to see. -/
structure ReadCycle where
  goodFifoAfull : Bool
  rxsTready : Bool
  rxdTready : Bool
  dataSeen : Nat
  infoSeen : Nat
  idleData : Beat
  idleInfo : BitVec 8

/-- The ticks of the receive clock and of the stream clock. -/
inductive Event
  | rxClk (i : IfmIn.Input)
  | s2mmClk (c : ReadCycle)

namespace Path

/-- The words that have been written and are not yet seen, as far as they are
    seen now. -/
def cycle (s : Path) (c : ReadCycle) : Cycle :=
  { goodFifoAfull := c.goodFifoAfull
    rxsTready := c.rxsTready
    rxdTready := c.rxdTready
    newData := (s.mac.dataFed.drop s.rx.fedData.length).take c.dataSeen
    newInfo := (s.mac.infoFed.drop s.rx.fedInfo.length).take c.infoSeen
    idleData := c.idleData
    idleInfo := c.idleInfo }

/-- A tick of one of the clocks. -/
def next (s : Path) : Event → Path
  | .rxClk i => { s with mac := s.mac.next i }
  | .s2mmClk c => { s with rx := rxNext s.rx (s.cycle c) }

/-- The frames that were accepted, as the output side gets them. -/
def packets (s : Path) : List Packet := s.mac.accepted.map packet

end Path

/-- The clocks never stop. -/
def step (s : Path) (e : Event) : Option Path := some (s.next e)

/-- Both sides after reset. -/
structure AfterReset (s : Path) : Prop where
  mac : IfmIn.AfterReset s.mac
  rx : Ifm.AfterReset s.rx

/-- A word is there when it is read: the copy does not find the data FIFO empty. -/
def Ready (s : Path) : Prop := s.rx.fsm.state = .wait → s.rx.dataFifo ≠ []

/-- What is assumed of every tick: frames have at least two beats, and a word of
    the data FIFO is there when it is read. -/
def Assumed (s : Path) : Event → Prop
  | .rxClk i => TwoBeats s.mac i
  | .s2mmClk _ => Ready s

/-- No frame that is dropped leaves its first beat in the data FIFO. -/
def NoStray (s : Path) : Event → Prop
  | .rxClk i => ¬ Stray s.mac i
  | .s2mmClk _ => True

/-- What both sides have in common. -/
structure Carried (s : Path) : Prop where
  linked : Linked s.mac
  exact : Exact s.mac
  data : s.rx.fedData <+: s.mac.dataFed
  info : s.rx.fedInfo <+: s.mac.infoFed
  rx : Delivering s.packets s.rx

section Steps

variable {s : Path} {i : IfmIn.Input} {c : ReadCycle}

theorem beatsOf_macFrames (fs : List MacFrame) :
    beatsOf (fs.map packet) = fs.flatMap MacFrame.beats := List.flatMap_map ..

theorem entriesOf_macFrames (fs : List MacFrame) :
    entriesOf (fs.map packet) = fs.map MacFrame.info := List.map_map ..

/-- What was written to the data FIFO is the accepted frames and what is in
    progress. -/
theorem dataFed_begins (h : Exact s.mac) :
    s.mac.dataFed <+: beatsOf s.packets ++ s.mac.inProgress := by
  rw [Path.packets, beatsOf_macFrames, ← h.data]
  exact List.prefix_append _ _

theorem infoFed_begins (h : Exact s.mac) : s.mac.infoFed <+: entriesOf s.packets := by
  rw [Path.packets, entriesOf_macFrames, ← h.info]
  exact List.prefix_append _ _

theorem fedInfo_le (h : Carried s) : s.rx.fedInfo.length ≤ s.packets.length := by
  have hlen := (h.info.trans (infoFed_begins h.exact)).length_le
  rw [entriesOf, List.length_map] at hlen
  exact hlen

/-- The frames that have been accepted stay. -/
theorem packets_next (s : Path) (i : IfmIn.Input) :
    ∃ qs, (s.next (.rxClk i)).packets = s.packets ++ qs := by
  refine ⟨(if i.tvalid && i.tlast && s.mac.verdict i then
    [⟨s.mac.seen, i.word, i.tuser⟩] else []).map packet, ?_⟩
  rw [Path.packets, Path.packets, ← List.map_append, ← accepted_next]
  rfl

/-- A tick of the receive clock. -/
theorem rxClk_carried (h : Carried s) (htwo : TwoBeats s.mac i) (hstray : ¬ Stray s.mac i) :
    Carried (s.next (.rxClk i)) := by
  have hexact : Exact (s.next (.rxClk i)).mac := (exact_next_iff h.linked htwo h.exact).mpr hstray
  have hdata : s.rx.fedData <+: (s.next (.rxClk i)).mac.dataFed :=
    h.data.trans (List.prefix_append _ _)
  rcases packets_next s i with ⟨qs, hqs⟩
  refine ⟨linked_next h.linked htwo, hexact, hdata, h.info.trans (List.prefix_append _ _), ?_⟩
  rw [hqs]
  refine delivering_append h.rx ⟨(s.next (.rxClk i)).mac.inProgress, ?_⟩
  rw [← hqs]
  exact hdata.trans (dataFed_begins hexact)

/-- A tick of the stream clock. -/
theorem s2mmClk_carried (h : Carried s) (hready : Ready s) : Carried (s.next (.s2mmClk c)) := by
  have hdata : s.rx.fedData ++ (s.cycle c).newData <+: s.mac.dataFed := seen_begins h.data _
  have hinfo : s.rx.fedInfo ++ (s.cycle c).newInfo <+: s.mac.infoFed := seen_begins h.info _
  have hsupplied : Supplied s.packets s.rx (s.cycle c) :=
    ⟨⟨s.mac.inProgress, hdata.trans (dataFed_begins h.exact)⟩,
      hinfo.trans (infoFed_begins h.exact), hready⟩
  exact ⟨h.linked, h.exact, hdata, hinfo, step_delivering s.rx (s.cycle c) _ h.rx hsupplied rfl⟩

/-- Either clock keeps what both sides have in common. -/
theorem step_carried (s : Path) (e : Event) (s' : Path) (h : Carried s)
    (hc : Assumed s e ∧ NoStray s e) (hs : step s e = some s') : Carried s' := by
  rcases Option.some.inj hs with rfl
  cases e with
  | rxClk i => exact rxClk_carried h hc.1 hc.2
  | s2mmClk c => exact s2mmClk_carried h hc.1

theorem afterReset_carried (h0 : AfterReset s) : Carried s := by
  have hfed : s.rx.fedData <+: s.mac.dataFed := by
    rw [h0.rx.fedData]
    exact List.nil_prefix
  refine ⟨afterReset_linked h0.mac, afterReset_exact h0.mac, hfed, ?_,
    afterReset_delivering h0.rx⟩
  rw [h0.rx.fedInfo]
  exact List.nil_prefix

/-- After reset nothing is being copied. -/
theorem afterReset_ready (h0 : AfterReset s) : Ready s :=
  fun hs => absurd (h0.rx.state.symm.trans hs) State.noConfusion

theorem out_begins (h : Carried s) : s.rx.out <+: expected s.packets := by
  rcases h.rx.2 with ⟨ta, tb, hin, _⟩
  exact inTurn_begins hin

end Steps

/-- Everything that was accepted is in the FIFOs, and no frame is in progress. -/
structure AllWritten (s : Path) : Prop where
  data : s.mac.dataFed = beatsOf s.packets
  info : s.mac.infoFed = entriesOf s.packets

/-- A tick of the stream clock with everything in sight, and both streams taken.
    The flag of the good FIFO is not high without a word in the FIFO. -/
def Flushing (s : Path) : Event → Prop
  | .rxClk _ => False
  | .s2mmClk c => (c.goodFifoAfull = true → s.rx.goodFifo ≠ []) ∧ c.rxsTready = true ∧
      c.rxdTready = true ∧ s.mac.dataFed.length ≤ c.dataSeen ∧ s.mac.infoFed.length ≤ c.infoSeen

section Flush

variable {s t : Path} {es : List Event}

/-- With everything in sight the copy finds its words, since an entry is written
    behind the words of its frame. -/
theorem ready_of_seen (h : Carried s) (hdata : s.rx.fedData = s.mac.dataFed)
    (hinfo : s.rx.fedInfo = s.mac.infoFed) : Ready s := by
  intro hs
  refine ready_of_visible h.rx.1 hs ?_
  have hbehind := h.exact.behind _ (Nat.le_refl s.mac.infoFed.length)
  rw [hinfo, hdata, Path.packets, ← List.map_take, beatsOf_macFrames]
  exact hbehind.length_le

/-- A tick may show everything that was written. -/
theorem seen_next (h : Carried s) {c : ReadCycle} (hdata : s.mac.dataFed.length ≤ c.dataSeen)
    (hinfo : s.mac.infoFed.length ≤ c.infoSeen) :
    (s.next (.s2mmClk c)).rx.fedData = s.mac.dataFed ∧
      (s.next (.s2mmClk c)).rx.fedInfo = s.mac.infoFed :=
  ⟨seen_all h.data hdata, seen_all h.info hinfo⟩

/-- After such a tick the next one finds its word. -/
theorem seen_ready (h : Carried s) (hready : Ready s) {c : ReadCycle}
    (hdata : s.mac.dataFed.length ≤ c.dataSeen) (hinfo : s.mac.infoFed.length ≤ c.infoSeen) :
    Carried (s.next (.s2mmClk c)) ∧ Ready (s.next (.s2mmClk c)) := by
  have hnext : Carried (s.next (.s2mmClk c)) := s2mmClk_carried h hready
  have hseen := seen_next h hdata hinfo
  exact ⟨hnext, ready_of_seen hnext hseen.1 hseen.2⟩

theorem flushing_carried (s : Path) (e : Event) (s' : Path) (h : Carried s ∧ Ready s)
    (hc : Flushing s e) (hs : step s e = some s') : Carried s' ∧ Ready s' := by
  rcases Option.some.inj hs with rfl
  cases e with
  | rxClk i => exact hc.elim
  | s2mmClk c => exact seen_ready h.1 h.2 hc.2.2.2.1 hc.2.2.2.2

/-- With everything in sight a run is a run of the output side alone. -/
theorem run_rx (h : Run step Flushing s es t) (hdata : s.rx.fedData = s.mac.dataFed)
    (hinfo : s.rx.fedInfo = s.mac.infoFed) :
    ∃ cs, Run Ifm.step Flush s.rx cs t.rx ∧ cs.length = es.length := by
  induction h with
  | nil s => exact ⟨[], Run.nil _, rfl⟩
  | cons s s' t e es hstep hc _ ih =>
      rcases Option.some.inj hstep with rfl
      cases e with
      | rxClk i => exact hc.elim
      | s2mmClk c =>
          rcases hc with ⟨hroom, hrxs, hrxd, _, _⟩
          have hnone (α : Type) (fed written : List α) (h : fed = written) (n : Nat) :
              (written.drop fed.length).take n = [] := by
            rw [h, List.drop_length, List.take_nil]
          have hnewData : (s.cycle c).newData = [] := hnone _ _ _ hdata _
          have hnewInfo : (s.cycle c).newInfo = [] := hnone _ _ _ hinfo _
          rcases ih (by
              change s.rx.fedData ++ (s.cycle c).newData = s.mac.dataFed
              rw [hnewData, List.append_nil, hdata]) (by
              change s.rx.fedInfo ++ (s.cycle c).newInfo = s.mac.infoFed
              rw [hnewInfo, List.append_nil, hinfo]) with ⟨cs, hrun, hlen⟩
          exact ⟨s.cycle c :: cs, Run.cons _ _ _ _ _ rfl ⟨hroom, hrxs, hrxd, hnewData, hnewInfo⟩
            hrun, congrArg Nat.succ hlen⟩

/-- Once everything is written, all of it comes out. -/
theorem flush_all (h : Carried s) (hready : Ready s) (hall : AllWritten s)
    (hrun : Run step Flushing s es t)
    (hlong : 14 * s.packets.length + 2 * (beatsOf s.packets).length + 8 ≤ es.length) :
    t.rx.out = expected s.packets := by
  cases hrun with
  | nil => exact absurd hlong (by rw [List.length_nil]; omega)
  | cons _ s1 _ e es hstep hc hrest =>
      rcases Option.some.inj hstep with rfl
      cases e with
      | rxClk i => exact hc.elim
      | s2mmClk c =>
          -- After the first tick the output side has seen everything.
          have hseen := seen_next h hc.2.2.2.1 hc.2.2.2.2
          have hnext := (flushing_carried s _ _ ⟨h, hready⟩ hc rfl).1
          rcases run_rx hrest hseen.1 hseen.2 with ⟨cs, hflush, hlen⟩
          rw [List.length_cons] at hlong
          exact flush_out ⟨hnext.rx, hseen.1.trans hall.data, hseen.2.trans hall.info⟩ hflush
            (by omega)

end Flush

/-- The accepted frames the MAC has found good. -/
def goodPackets (s : Path) : List Packet := (s.mac.accepted.filter MacFrame.good).map packet

/-- What came out is of good frames, in order and each behind its status. -/
def OnlyGood (s : Path) : Prop := s.rx.out <+: expected (goodPackets s)

/-- The MAC has found no accepted frame bad. -/
def NoneBad (s : Path) : Prop := ∀ f, f ∈ s.mac.accepted → f.good = true

section Verdict

variable {s : Path}

theorem goodPackets_eq (h : NoneBad s) : goodPackets s = s.packets := by
  rw [goodPackets, List.filter_eq_self.mpr h, Path.packets]

/-- A bad frame among the accepted ones makes for more output. -/
theorem noneBad_of_length (h : (expected s.packets).length ≤ (expected (goodPackets s)).length) :
    NoneBad s := by
  have hsub : (goodPackets s).Sublist s.packets := List.filter_sublist.map packet
  have hbeats : (beatsOf (goodPackets s)).length ≤ (beatsOf s.packets).length :=
    (hsub.flatMap Packet.beats).length_le
  have hcount := hsub.length_le
  rw [expected_length, expected_length] at h
  have hlen : (s.mac.accepted.filter MacFrame.good).length = s.mac.accepted.length := by
    rw [goodPackets, Path.packets, List.length_map, List.length_map] at h hcount
    unfold goodPackets Path.packets at hbeats
    omega
  exact List.filter_eq_self.mp (List.filter_sublist.eq_of_length hlen)

/-- A stream clock that goes on with everything in sight. -/
def flushTick (s : Path) : Event :=
  .s2mmClk
    { goodFifoAfull := false
      rxsTready := true
      rxdTready := true
      dataSeen := s.mac.dataFed.length
      infoSeen := s.mac.infoFed.length
      idleData := ⟨0, 0, false⟩
      idleInfo := 0 }

/-- The stream clock can always go on. -/
theorem exists_flush (s : Path) (n : Nat) : ∃ es t, Run step Flushing s es t ∧ es.length = n := by
  induction n with
  | zero => exact ⟨[], s, Run.nil s, rfl⟩
  | succ n ih =>
      rcases ih with ⟨es, t, hrun, hlen⟩
      refine ⟨es ++ [flushTick t], t.next (flushTick t), run_append hrun ?_, ?_⟩
      · exact Run.cons _ _ _ _ _ rfl ⟨fun hfull => absurd hfull Bool.false_ne_true, rfl, rfl,
          Nat.le_refl _, Nat.le_refl _⟩ (Run.nil _)
      · rw [List.length_append, hlen, List.length_singleton]

/-- Nothing more is written meanwhile. -/
theorem run_mac {t : Path} {es : List Event} (h : Run step Flushing s es t) : t.mac = s.mac := by
  have hkeep (u : Path) (e : Event) (u' : Path) (hu : u.mac = s.mac) (hc : Flushing u e)
      (hs : step u e = some u') : u'.mac = s.mac := by
    rcases Option.some.inj hs with rfl
    cases e with
    | rxClk i => exact hc.elim
    | s2mmClk c => exact hu
  exact run_inv hkeep h rfl

end Verdict

/-- However the two clocks tick and whatever the flags and the streams do, as
    long as no dropped frame leaves a beat behind: if no accepted frame is bad,
    what comes out is of good frames, and all of them come out. With everything
    written, no bad frame can come out any more exactly if none was accepted. A
    copy that is going on at that moment finds its next word, as before. -/
theorem run_onlyGood {s0 s : Path} {es : List Event} (h0 : AfterReset s0)
    (hrun : Run step (fun s e => Assumed s e ∧ NoStray s e) s0 es s) :
    (NoneBad s → OnlyGood s) ∧
      (AllWritten s → Ready s → NoneBad s → ∀ es' t, Run step Flushing s es' t →
        14 * s.packets.length + 2 * (beatsOf s.packets).length + 8 ≤ es'.length →
          t.rx.out = expected (goodPackets s)) ∧
      (AllWritten s → Ready s →
        ((∀ es' t, Run step Flushing s es' t → OnlyGood t) ↔ NoneBad s)) := by
  have hcarried := run_inv step_carried hrun (afterReset_carried h0)
  have hbegins (hgood : NoneBad s) : OnlyGood s := by
    rw [OnlyGood, goodPackets_eq hgood]
    exact out_begins hcarried
  refine ⟨hbegins, ?_, fun hall hready => ⟨?_, ?_⟩⟩
  · intro hall hready hgood es' t hflush hlong
    rw [goodPackets_eq hgood]
    exact flush_all hcarried hready hall hflush hlong
  · intro honly
    -- Let everything out, and count.
    rcases exists_flush s (14 * s.packets.length + 2 * (beatsOf s.packets).length + 8) with
      ⟨es', t, hflush, hlen⟩
    have hgood := (honly es' t hflush).length_le
    rw [flush_all hcarried hready hall hflush (by omega), goodPackets, run_mac hflush] at hgood
    exact noneBad_of_length hgood
  · intro hgood es' t hflush
    have ht := run_inv flushing_carried hflush ⟨hcarried, hready⟩
    have hnone : NoneBad t := by
      rw [NoneBad, run_mac hflush]
      exact hgood
    rw [OnlyGood, goodPackets_eq hnone]
    exact out_begins ht.1

section OneFrame

/-- A state after reset. -/
def start : Path := ⟨IfmIn.start, resetRx⟩

theorem start_afterReset : AfterReset start := ⟨IfmIn.start_afterReset, resetRx_afterReset⟩

/-- A frame of two beats in the receive clock, and a cycle behind it. -/
def frameEvents (good : Bool) : List Event :=
  [0, 1, 2].map fun n => .rxClk { oneFrame false n with tuser := good }

/-- The path when that frame is in the FIFOs. -/
def stored (good : Bool) : Path := (frameEvents good).foldl Path.next start

/-- The frame. -/
def twoBeats (good : Bool) : MacFrame := ⟨[⟨0, 0xFF⟩], ⟨1, 0xFF⟩, good⟩

theorem stored_accepted (good : Bool) : (stored good).mac.accepted = [twoBeats good] := by
  cases good with
  | false => rfl
  | true => rfl

theorem stored_run (good : Bool) :
    Run step (fun s e => Assumed s e ∧ NoStray s e) start (frameEvents good) (stored good) := by
  have hfull (wfull : Bool) (h : wfull = false) (a b c : Prop) :
      ¬ (a ∧ b ∧ wfull = true ∧ c) := by
    rintro ⟨_, _, hw, _⟩
    exact absurd (h.symm.trans hw) Bool.false_ne_true
  refine Run.cons _ _ _ _ _ rfl ⟨fun _ _ => rfl, hfull _ rfl _ _ _⟩ ?_
  refine Run.cons _ _ _ _ _ rfl ⟨fun h => absurd h (Option.some_ne_none _), hfull _ rfl _ _ _⟩ ?_
  exact Run.cons _ _ _ _ _ rfl ⟨fun _ h => absurd h Bool.false_ne_true, hfull _ rfl _ _ _⟩
    (Run.nil _)

theorem stored_allWritten (good : Bool) : AllWritten (stored good) := by
  cases good with
  | false => exact ⟨rfl, rfl⟩
  | true => exact ⟨rfl, rfl⟩

/-- The output side has not begun with it. -/
theorem stored_ready (good : Bool) : Ready (stored good) := by
  have hidle : (stored good).rx.fsm.state = .idle := by
    cases good with
    | false => rfl
    | true => rfl
  exact fun hs => absurd (hidle.symm.trans hs) State.noConfusion

/-- A good frame comes out, behind its status. -/
theorem run_onlyGood_good :
    (∀ es t, Run step Flushing (stored true) es t → OnlyGood t) ∧
      ∃ es t, Run step Flushing (stored true) es t ∧
        t.rx.out = expected [packet (twoBeats true)] := by
  have hgood : NoneBad (stored true) := by
    intro f hf
    rw [stored_accepted, List.mem_singleton] at hf
    rw [hf]
    rfl
  have hall := run_onlyGood start_afterReset (stored_run true)
  refine ⟨(hall.2.2 (stored_allWritten true) (stored_ready true)).mpr hgood, ?_⟩
  rcases exists_flush (stored true) 26 with ⟨es, t, hflush, hlen⟩
  exact ⟨es, t, hflush, hall.2.1 (stored_allWritten true) (stored_ready true) hgood es t hflush
    (by rw [hlen]; exact Nat.le_refl 26)⟩

/-- A bad frame comes out as well, with six status words and both its beats. -/
theorem bad_frame_delivered : AfterReset start ∧ ∃ es t,
    Run step (fun s e => Assumed s e ∧ NoStray s e) start es t ∧
      t.mac.accepted = [twoBeats false] ∧ (twoBeats false).good = false ∧
        t.rx.out = expected [packet (twoBeats false)] ∧ t.rx.out.length = 8 ∧ ¬ OnlyGood t := by
  have hcarried := run_inv step_carried (stored_run false) (afterReset_carried start_afterReset)
  have hwritten := stored_allWritten false
  rcases exists_flush (stored false) 26 with ⟨es, t, hflush, hlen⟩
  have hmac : t.mac.accepted = [twoBeats false] := by
    rw [run_mac hflush, stored_accepted]
  have hout : t.rx.out = expected [packet (twoBeats false)] :=
    flush_all hcarried (stored_ready false) hwritten hflush (by rw [hlen]; exact Nat.le_refl 26)
  have hcount : t.rx.out.length = 8 := by
    rw [hout, expected_length]
    rfl
  have hticks : Run step (fun s e => Assumed s e ∧ NoStray s e) (stored false) es t := by
    refine run_mono _ flushing_carried ?_ hflush ⟨hcarried, stored_ready false⟩
    intro u e hu hc
    cases e with
    | rxClk i => exact hc.elim
    | s2mmClk c => exact ⟨hu.2, trivial⟩
  refine ⟨start_afterReset, _, t, run_append (stored_run false) hticks, hmac, rfl, hout, hcount, ?_⟩
  intro honly
  rw [OnlyGood, goodPackets, hmac] at honly
  have hnone := honly.length_le
  rw [hcount] at hnone
  exact absurd hnone (by decide)

end OneFrame

end IfmPath

end Eth

end Ml605
