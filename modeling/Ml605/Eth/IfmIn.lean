import Ml605.Lib.Trace
import Ml605.Eth.Frame

/-!
# The Receive Input Side

`ifm_in_fsm` takes frames from the MAC, which cannot be held back. On the first
beat of a frame it looks at the two FIFOs behind it and decides whether the
frame is stored or dropped. The beats of a frame that is stored go to the data
FIFO, and with the last one an entry goes to the info FIFO that has the `tuser`
of that beat, the MAC's verdict on the frame, in its lowest bit.

The decision looks at both full flags, but the write enable of the first beat
only at that of the data FIFO. With the info FIFO full and room in the data
FIFO, the frame is dropped and its first beat is written all the same. That
beat has no last flag, so whatever comes behind it in the data FIFO looks like
the rest of the same frame.

## Main definitions

* `Regs`, `Input`, `next`: The state machine.
* `MacFrame`: A frame with the verdict of the MAC.
* `Watch`, `Watch.next`: The state machine with a record of what was written,
  and of the frames with the decision on each.
* `Exact`: Accepted frames are written whole, with an entry each, and no others.
* `Stray`: A first beat that is written although its frame is dropped.

## Theorems

* `linked_next`: The state tells the decision on the frame in progress.
* `exact_next_iff`: A cycle keeps the FIFOs exact unless it has a stray beat.
* `exact_iff`: The FIFOs are exact at all times exactly without stray beats.
* `stray_beat_written`: A stray beat, and what it leaves in the FIFOs.
-/

namespace Ml605

namespace Eth

namespace IfmIn

open Lib

/-- The states `S_IDLE`, `S_WAIT` and `S_DROP`. -/
inductive State
  | idle
  | wait
  | drop
deriving DecidableEq, Repr

/-- The registers. -/
structure Regs where
  state : State
  dataFifoWdata : Beat
  dataFifoWren : Bool
  infoFifoWdata : BitVec 8
  infoFifoWren : Bool
  pauseReq : Bool
  pauseVal : BitVec 16
deriving DecidableEq, Repr

/-- The inputs: a beat of the MAC, and the flags of the FIFOs. -/
structure Input where
  tdata : BitVec 64
  tkeep : BitVec 8
  tlast : Bool
  tuser : Bool
  tvalid : Bool
  dataFifoAfull : Bool
  wrDataCount : BitVec 12
  infoFifoWfull : Bool
deriving DecidableEq, Repr

/-- The next state. -/
def stateNs (s : Regs) (i : Input) : State :=
  match s.state with
  | .idle =>
      if i.tvalid then (if i.dataFifoAfull || i.infoFifoWfull then .drop else .wait) else .idle
  | .drop => if i.tvalid && i.tlast then .idle else .drop
  | .wait => if i.tvalid && i.tlast then .idle else .wait

/-- One clock cycle. -/
def next (s : Regs) (i : Input) : Regs :=
  { state := stateNs s i
    dataFifoWdata := ⟨i.tdata, i.tkeep, i.tlast⟩
    dataFifoWren :=
      (s.state == .idle && i.tvalid && !i.dataFifoAfull) || (s.state == .wait && i.tvalid)
    infoFifoWdata := 0#7 ++ BitVec.ofBool i.tuser
    infoFifoWren := s.state == .wait && i.tvalid && i.tlast
    pauseReq := i.wrDataCount.getLsbD 11 || i.wrDataCount.getLsbD 10
    pauseVal := 0x80 }

/-- The data and keep of a beat. -/
structure Word where
  data : BitVec 64
  keep : BitVec 8
deriving DecidableEq, Repr

/-- A word as a beat. -/
def Word.beat (last : Bool) (w : Word) : Beat := ⟨w.data, w.keep, last⟩

/-- A frame: the words before the last one, the last one, and the verdict of the
    MAC that comes with it. -/
structure MacFrame where
  body : List Word
  tail : Word
  good : Bool
deriving DecidableEq, Repr

/-- The beats of a frame. -/
def MacFrame.beats (f : MacFrame) : List Beat := f.body.map (Word.beat false) ++ [f.tail.beat true]

/-- The entry of a frame in the info FIFO. -/
def MacFrame.info (f : MacFrame) : BitVec 8 := 0#7 ++ BitVec.ofBool f.good

/-- The state machine with a record: the words the FIFOs have taken, the frame
    in progress with the decision on it, and the frames before it. -/
structure Watch where
  regs : Regs
  dataFed : List Beat
  infoFed : List (BitVec 8)
  current : Option (Bool × List Word)
  frames : List (Bool × MacFrame)
deriving DecidableEq, Repr

/-- The decision of the state machine on a frame that starts now. -/
def accepts (i : Input) : Bool := !(i.dataFifoAfull || i.infoFifoWfull)

/-- The word on the inputs. -/
def Input.word (i : Input) : Word := ⟨i.tdata, i.tkeep⟩

/-- The word the data FIFO takes in this cycle. -/
def dataWriting (s : Regs) : List Beat := if s.dataFifoWren then [s.dataFifoWdata] else []

/-- The entry the info FIFO takes in this cycle. -/
def infoWriting (s : Regs) : List (BitVec 8) := if s.infoFifoWren then [s.infoFifoWdata] else []

namespace Watch

/-- The decision on the frame a beat belongs to. -/
def verdict (s : Watch) (i : Input) : Bool := (s.current.map Prod.fst).getD (accepts i)

/-- The words of that frame before the beat. -/
def seen (s : Watch) : List Word := (s.current.map Prod.snd).getD []

/-- One clock cycle with the record. -/
def next (s : Watch) (i : Input) : Watch :=
  { regs := IfmIn.next s.regs i
    dataFed := s.dataFed ++ dataWriting s.regs
    infoFed := s.infoFed ++ infoWriting s.regs
    current :=
      if i.tvalid then (if i.tlast then none else some (s.verdict i, s.seen ++ [i.word]))
      else s.current
    frames :=
      if i.tvalid && i.tlast then s.frames ++ [(s.verdict i, ⟨s.seen, i.word, i.tuser⟩)]
      else s.frames }

/-- The frames that were accepted. -/
def accepted (s : Watch) : List MacFrame := (s.frames.filter Prod.fst).map Prod.snd

/-- The beats so far of a frame that is being accepted. -/
def inProgress (s : Watch) : List Beat :=
  match s.current with
  | some (true, ws) => ws.map (Word.beat false)
  | _ => []

/-- What was written to the data FIFO, with the word on its write port. -/
def written (s : Watch) : List Beat := s.dataFed ++ dataWriting s.regs

/-- What was written to the info FIFO, with the entry on its write port. -/
def entered (s : Watch) : List (BitVec 8) := s.infoFed ++ infoWriting s.regs

end Watch

/-- After reset, before the first frame. -/
structure AfterReset (s : Watch) : Prop where
  state : s.regs.state = .idle
  dataFifoWren : s.regs.dataFifoWren = false
  infoFifoWren : s.regs.infoFifoWren = false
  dataFed : s.dataFed = []
  infoFed : s.infoFed = []
  current : s.current = none
  frames : s.frames = []

/-- A frame does not end with its first beat. -/
def TwoBeats (s : Watch) (i : Input) : Prop :=
  s.current = none → i.tvalid = true → i.tlast = false

/-- The accepted frames are written whole, with an entry each, which goes in
    after the last word of its frame or with it, and nothing else is written. -/
structure Exact (s : Watch) : Prop where
  data : s.written = s.accepted.flatMap MacFrame.beats ++ s.inProgress
  info : s.entered = s.accepted.map MacFrame.info
  behind : ∀ k, k ≤ s.infoFed.length →
    (s.accepted.take k).flatMap MacFrame.beats <+: s.dataFed

/-- A first beat is written although its frame is dropped: the info FIFO is
    full and the data FIFO has room. -/
def Stray (s : Watch) (i : Input) : Prop :=
  s.current = none ∧ i.tvalid = true ∧ i.infoFifoWfull = true ∧ i.dataFifoAfull = false

/-- The state tells the decision on the frame in progress. -/
def Linked (s : Watch) : Prop :=
  s.regs.state =
    match s.current with
    | none => .idle
    | some (true, _) => .wait
    | some (false, _) => .drop

section Step

variable {s : Watch} {i : Input}

theorem linked_next (h : Linked s) (htwo : TwoBeats s i) : Linked (s.next i) := by
  unfold Linked at h ⊢
  simp only [Watch.next, next, stateNs, h]
  cases hv : i.tvalid with
  | false =>
      simp only [Bool.false_and, Bool.false_eq_true, if_false]
      rcases hc : s.current with _ | ⟨_ | _, ws⟩ <;> rfl
  | true =>
      rcases hc : s.current with _ | ⟨v, ws⟩
      · -- The first beat; it is not the last one.
        rw [htwo hc hv]
        simp only [if_true, Bool.false_eq_true, if_false, Watch.verdict, hc, Option.map_none,
          Option.getD_none, accepts]
        cases i.dataFifoAfull || i.infoFifoWfull with
        | false => rfl
        | true => rfl
      · simp only [Bool.true_and, if_true, Watch.verdict, hc, Option.map_some, Option.getD_some]
        cases i.tlast <;> cases v <;> rfl

/-- The beat on the inputs. -/
def Input.beat (i : Input) : Beat := ⟨i.tdata, i.tkeep, i.tlast⟩

theorem written_next (s : Watch) (i : Input) :
    (s.next i).written = s.written ++ if (next s.regs i).dataFifoWren then [i.beat] else [] := rfl

theorem entered_next (s : Watch) (i : Input) :
    (s.next i).entered = s.entered ++
      if (next s.regs i).infoFifoWren then [0#7 ++ BitVec.ofBool i.tuser] else [] := rfl

/-- What is in progress of a frame that is accepted. -/
theorem inProgress_of_accepted (hok : s.verdict i = true) :
    s.inProgress = s.seen.map (Word.beat false) := by
  rcases hc : s.current with _ | ⟨v, ws⟩
  · simp only [Watch.inProgress, Watch.seen, hc, Option.map_none, Option.getD_none, List.map_nil]
  · simp only [Watch.verdict, hc, Option.map_some, Option.getD_some] at hok
    simp only [Watch.inProgress, Watch.seen, hc, hok, Option.map_some, Option.getD_some]

theorem inProgress_of_dropped (hno : s.verdict i = false) : s.inProgress = [] := by
  rcases hc : s.current with _ | ⟨v, ws⟩
  · simp only [Watch.inProgress, hc]
  · simp only [Watch.verdict, hc, Option.map_some, Option.getD_some] at hno
    simp only [Watch.inProgress, hc, hno]

/-- The beats of accepted frames grow by those of an accepted frame. -/
theorem expected_next (s : Watch) (i : Input) :
    (s.next i).accepted.flatMap MacFrame.beats ++ (s.next i).inProgress =
      s.accepted.flatMap MacFrame.beats ++ s.inProgress ++
        if i.tvalid && s.verdict i then [i.beat] else [] := by
  cases hv : i.tvalid with
  | false =>
      simp only [Watch.next, Watch.accepted, Watch.inProgress, hv, Bool.false_and,
        Bool.false_eq_true, if_false, List.append_nil]
  | true =>
      cases hok : s.verdict i with
      | false =>
          -- The whole frame has one verdict, so a dropped beat belongs to no accepted frame.
          rw [inProgress_of_dropped hok]
          cases hl : i.tlast with
          | false =>
              simp only [Watch.next, Watch.accepted, Watch.inProgress, hv, hl, hok, Bool.and_false,
                Bool.false_eq_true, if_false, if_true, List.append_nil]
          | true =>
              simp only [Watch.next, Watch.accepted, Watch.inProgress, hv, hl, hok, Bool.and_self,
                Bool.and_false, Bool.false_eq_true, if_false, if_true, List.append_nil,
                List.filter_append, List.filter_cons, List.filter_nil]
      | true =>
          -- An accepted beat moves from the frame in progress to the frames only with TLAST.
          rw [inProgress_of_accepted hok]
          cases hl : i.tlast with
          | false =>
              simp only [Watch.next, Watch.accepted, Watch.inProgress, hv, hl, hok, Bool.and_false,
                Bool.and_self, Bool.false_eq_true, if_false, if_true, List.map_append,
                List.map_cons, List.map_nil, List.append_assoc]
              simp only [Word.beat, Input.word, Input.beat, hl]
          | true =>
              simp only [Watch.next, Watch.accepted, Watch.inProgress, hv, hl, hok, Bool.and_self,
                if_true, List.filter_append, List.filter_cons, List.filter_nil, List.map_append,
                List.map_cons, List.map_nil, List.flatMap_append, List.flatMap_cons,
                List.flatMap_nil, MacFrame.beats, List.append_nil, List.append_assoc]
              simp only [Word.beat, Input.word, Input.beat, hl]

/-- An accepted frame that ends is one more. -/
theorem accepted_next (s : Watch) (i : Input) : (s.next i).accepted = s.accepted ++
    if i.tvalid && i.tlast && s.verdict i then [⟨s.seen, i.word, i.tuser⟩] else [] := by
  cases hend : i.tvalid && i.tlast with
  | false =>
      simp only [Watch.accepted, Watch.next, hend, Bool.false_and, Bool.false_eq_true, if_false,
        List.append_nil]
  | true =>
      cases hok : s.verdict i with
      | false =>
          simp only [Watch.accepted, Watch.next, hend, hok, Bool.and_false, Bool.false_eq_true,
            if_false, if_true, List.append_nil, List.filter_append, List.filter_cons,
            List.filter_nil]
      | true =>
          simp only [Watch.accepted, Watch.next, hend, hok, Bool.and_self, if_true,
            List.filter_append, List.filter_cons, List.filter_nil, List.map_append, List.map_cons,
            List.map_nil]

/-- The write enable follows the decision, except on a stray beat. -/
theorem wren_eq_iff (h : Linked s) :
    (next s.regs i).dataFifoWren = (i.tvalid && s.verdict i) ↔ ¬ Stray s i := by
  unfold Linked at h
  simp only [next, Stray, Watch.verdict, accepts, h]
  rcases hc : s.current with _ | ⟨_ | _, ws⟩ <;>
    cases i.tvalid <;> cases i.dataFifoAfull <;> cases i.infoFifoWfull <;> simp

/-- The entry of a frame is written with its last beat, if it is accepted. -/
theorem infoFifoWren_eq (h : Linked s) (htwo : TwoBeats s i) :
    (next s.regs i).infoFifoWren = (i.tvalid && i.tlast && s.verdict i) := by
  unfold Linked at h
  simp only [next, Watch.verdict, h]
  rcases hc : s.current with _ | ⟨_ | _, ws⟩
  · cases hv : i.tvalid with
    | false => rfl
    | true =>
        rw [htwo hc hv]
        rfl
  · simp
  · simp

theorem info_next (h : Linked s) (htwo : TwoBeats s i)
    (hinfo : s.entered = s.accepted.map MacFrame.info) :
    (s.next i).entered = (s.next i).accepted.map MacFrame.info := by
  rw [entered_next, accepted_next, infoFifoWren_eq h htwo, hinfo, List.map_append]
  cases i.tvalid && i.tlast && s.verdict i with
  | false => rfl
  | true => rfl

/-- What is on the write ports goes in, so an entry that is in has its frame
    before it. -/
theorem behind_next (hx : Exact s) (k : Nat) (hk : k ≤ (s.next i).infoFed.length) :
    ((s.next i).accepted.take k).flatMap MacFrame.beats <+: (s.next i).dataFed := by
  have hlen : k ≤ s.accepted.length := by
    have hentered : (s.next i).infoFed = s.entered := rfl
    rw [hentered, hx.info, List.length_map] at hk
    exact hk
  have hfed : (s.next i).dataFed = s.written := rfl
  rw [accepted_next, List.take_append_of_le_length hlen, hfed, hx.data]
  exact ((List.take_prefix k s.accepted).flatMap MacFrame.beats).trans (List.prefix_append _ _)

/-- A cycle keeps the FIFOs exact unless it has a stray beat. -/
theorem exact_next_iff (h : Linked s) (htwo : TwoBeats s i) (hx : Exact s) :
    Exact (s.next i) ↔ ¬ Stray s i := by
  rw [← wren_eq_iff h]
  constructor
  · intro hnext
    have hdata := hnext.data
    rw [written_next, expected_next, hx.data, List.append_cancel_left_eq] at hdata
    cases hw : (next s.regs i).dataFifoWren <;> cases hok : i.tvalid && s.verdict i <;>
      simp [hw, hok] at hdata ⊢
  · intro hw
    refine ⟨?_, info_next h htwo hx.info, behind_next hx⟩
    rw [written_next, expected_next, hx.data, hw]

theorem afterReset_linked (h0 : AfterReset s) : Linked s := by
  unfold Linked
  rw [h0.state, h0.current]

theorem afterReset_exact (h0 : AfterReset s) : Exact s := by
  have hnone : s.accepted = [] := by
    rw [Watch.accepted, h0.frames]
    rfl
  refine ⟨?_, ?_, ?_⟩
  · rw [Watch.written, dataWriting, h0.dataFed, h0.dataFifoWren, hnone, Watch.inProgress,
      h0.current]
    rfl
  · rw [Watch.entered, infoWriting, h0.infoFed, h0.infoFifoWren, hnone]
    rfl
  · intro k _
    rw [hnone, List.take_nil]
    exact List.nil_prefix

end Step

section Trace

variable {s0 : Watch} {inp : Nat → Input}

/-- Whatever the flags of the FIFOs do: what is written is exactly the accepted
    frames with their entries, at all times, exactly if there is no stray beat. -/
theorem exact_iff (h0 : AfterReset s0)
    (htwo : ∀ n, TwoBeats (trace Watch.next s0 inp n) (inp n)) :
    (∀ n, Exact (trace Watch.next s0 inp n)) ↔
      ∀ n, ¬ Stray (trace Watch.next s0 inp n) (inp n) := by
  have hlinked : ∀ n, Linked (trace Watch.next s0 inp n) :=
    trace_inv (afterReset_linked h0) fun n hn => linked_next hn (htwo n)
  exact trace_iff (C := fun s i => ¬ Stray s i) (afterReset_exact h0) fun n hn =>
    exact_next_iff (hlinked n) (htwo n) hn

end Trace

section OneFrame

/-- A state after reset. -/
def start : Watch :=
  { regs := ⟨.idle, ⟨0, 0, false⟩, false, 0, false, false, 0⟩
    dataFed := []
    infoFed := []
    current := none
    frames := [] }

theorem start_afterReset : AfterReset start := ⟨rfl, rfl, rfl, rfl, rfl, rfl, rfl⟩

/-- A frame of two beats in the first two cycles, the data FIFO with room. -/
def oneFrame (wfull : Bool) (n : Nat) : Input :=
  { tdata := BitVec.ofNat 64 n
    tkeep := 0xFF
    tlast := decide (1 ≤ n)
    tuser := true
    tvalid := decide (n ≤ 1)
    dataFifoAfull := false
    wrDataCount := 0
    infoFifoWfull := wfull }

theorem oneFrame_twoBeats (wfull : Bool) (n : Nat) :
    TwoBeats (trace Watch.next start (oneFrame wfull) n) (oneFrame wfull n) := by
  intro hnone hv
  match n with
  | 0 => rfl
  | 1 => exact absurd hnone (Option.some_ne_none _)
  | n + 2 =>
      have hle : n + 2 ≤ 1 := of_decide_eq_true hv
      omega

/-- With room in both FIFOs the frame is written exactly. -/
theorem exact_iff_oneFrame : (∀ n, Exact (trace Watch.next start (oneFrame false) n)) ∧
    (trace Watch.next start (oneFrame false) 3).dataFed = [⟨0, 0xFF, false⟩, ⟨1, 0xFF, true⟩] := by
  refine ⟨(exact_iff start_afterReset (oneFrame_twoBeats false)).mpr ?_, rfl⟩
  rintro n ⟨_, _, hfull, _⟩
  exact absurd hfull Bool.false_ne_true

/-- A beat without the last flag is not made of whole frames. -/
theorem flatMap_beats_ne {x : Beat} (hx : x.last = false) (fs : List MacFrame) :
    fs.flatMap MacFrame.beats ≠ [x] := by
  intro h
  cases fs with
  | nil => exact absurd h.symm (List.cons_ne_nil _ _)
  | cons f fs =>
      rw [List.flatMap_cons, MacFrame.beats, List.append_assoc, List.singleton_append] at h
      rcases List.append_eq_singleton_iff.mp h with ⟨_, htail⟩ | ⟨_, htail⟩
      · rw [← (List.cons.inj htail).1] at hx
        exact absurd hx (Bool.noConfusion)
      · exact absurd htail (List.cons_ne_nil _ _)

/-- With the info FIFO full and room in the data FIFO, the frame is dropped and
    its first beat is written; no choice of frames to accept explains that. -/
theorem stray_beat_written :
    AfterReset start ∧
      (∀ n, TwoBeats (trace Watch.next start (oneFrame true) n) (oneFrame true n)) ∧
      (trace Watch.next start (oneFrame true) 3).accepted = [] ∧
      (trace Watch.next start (oneFrame true) 3).current = none ∧
      (trace Watch.next start (oneFrame true) 3).dataFed = [⟨0, 0xFF, false⟩] ∧
      (∀ fs : List MacFrame, fs.flatMap MacFrame.beats ≠
        (trace Watch.next start (oneFrame true) 3).dataFed) ∧
      ¬ ∀ n, Exact (trace Watch.next start (oneFrame true) n) := by
  have hfed : (trace Watch.next start (oneFrame true) 3).dataFed = [⟨0, 0xFF, false⟩] := rfl
  refine ⟨start_afterReset, oneFrame_twoBeats true, rfl, rfl, hfed, ?_, ?_⟩
  · intro fs
    rw [hfed]
    exact flatMap_beats_ne rfl fs
  · intro hexact
    exact absurd (hexact 3).data (by decide)

end OneFrame

end IfmIn

end Eth

end Ml605
