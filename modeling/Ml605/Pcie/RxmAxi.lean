import Ml605.Lib.Run
import Ml605.Lib.Lanes
import Ml605.Pcie.RxmFifo

/-!
# The Avalon to AXI Write and Read Bridge

`altpciexpav128_rxm_axi`. Requests of the PCIe core come in as Avalon beats and
wait in a FIFO of three. A state machine looks at the beat at the head and
drives the AXI channels from it: a read needs one transfer on AR, the first
beat of a write burst one on AW and one on W, and every other beat of the burst
one on W.

The head is taken off the FIFO by a condition of its own, `fifo_rdreq`, which
is written out separately from the transfers and from the state transition. For
the first beat of a write it looks at `M_ARREADY`, the ready signal of the
channel that the beat does not use; the state machine moves on when
`M_AWREADY` and `M_WREADY` come together, and the two transfers happen one by
one. In the middle of a burst `M_WVALID` is raised whether or not the FIFO
holds a beat. The address goes through a wire of 32 bits.

A cycle is `next`, and `Log` adds what was accepted and what was transferred.
What a beat asks for is said apart from the wires that carry it: its own
address, one less than its burst count, and its data with the bytes of each
32-bit word in reverse order.

## Main definitions

* `Entry`: The fields of a FIFO word.
* `Transfer`: A completed transfer on one of the three channels.
* `Bridge`, `Input`: The registers of the module and its inputs.
* `transfers`, `fifoRdreq`, `next`: The outputs and the clock cycle.
* `Log`, `logStep`: The cycle with what was accepted and transferred.
* `byteSwapped`, `owed`: The transfers a beat asks for.
* `Entry.InReach`: The address of a request has 32 bits.
* `Exact`: The transfers made and those still owed are those of the accepted
  beats.

## Theorems

* `swapData_eq`, `reqAddr_eq`, `reqLen_eq`: The wires carry what a beat asks for.
* `step_kept`: A cycle with matching ready signals keeps the account.
* `run_exact`: So does a run of such cycles.
* `write_sent_twice`: A write whose address and data are taken while `M_ARREADY`
  is low is sent twice.
-/

namespace Ml605

namespace Pcie

open Lib

/-- A FIFO word: the burst count, the address, the BAR, the two kinds of
    request, the burst markers, the byte enables and the data. -/
structure Entry where
  burstCount : BitVec 7
  address : BitVec 64
  barHit : BitVec 7
  read : Bool
  write : Bool
  eop : Bool
  sop : Bool
  byteEnable : BitVec 16
  data : BitVec 128
deriving DecidableEq

/-- The word that is all zeros. -/
def Entry.zero : Entry := ⟨0, 0, 0, false, false, false, false, 0, 0⟩

/-- The byte order of one 32-bit lane, reversed. -/
def swapLane (d : BitVec 128) (i : Nat) : BitVec 32 :=
  d.extractLsb' (32 * i) 8 ++ d.extractLsb' (32 * i + 8) 8 ++ d.extractLsb' (32 * i + 16) 8 ++
    d.extractLsb' (32 * i + 24) 8

/-- `M_WDATA`: the bytes of each lane are reversed, the lanes stay in place. -/
def swapData (d : BitVec 128) : BitVec 128 :=
  swapLane d 3 ++ swapLane d 2 ++ swapLane d 1 ++ swapLane d 0

/-- `req_addr`: a wire of 32 bits, which drops the upper half. -/
def reqAddr (e : Entry) : BitVec 64 := (e.address.setWidth 32).setWidth 64

/-- `M_AWLEN` and `M_ARLEN`: `req_len - 1`, cut to eight bits. -/
def reqLen (e : Entry) : BitVec 8 := (e.burstCount.setWidth 16 - 1).setWidth 8

/-- A completed transfer. The fields that never change are left out. -/
inductive Transfer
  | aw (addr : BitVec 64) (len : BitVec 8)
  | w (data : BitVec 128) (strb : BitVec 16) (last : Bool)
  | ar (addr : BitVec 64) (len : BitVec 8)
deriving DecidableEq

/-- `state`. -/
inductive Fsm
  | idle
  | addr
  | data
deriving DecidableEq

structure Bridge where
  fifo : RxmFifo Entry
  state : Fsm

/-- The inputs of one cycle: the Avalon wires, which are idle when they ask for
    neither a read nor a write, and the ready signals. -/
structure Input where
  core : Entry
  awready : Bool
  wready : Bool
  arready : Bool

def resetBridge : Bridge := ⟨RxmFifo.reset Entry.zero, .idle⟩

/-- `CoreRxmWaitRequest_o`. -/
def waitRequest (s : Bridge) : Bool := decide (2 < s.fifo.count.toNat)

/-- `fifo_wrreq`. -/
def fifoWrreq (s : Bridge) (i : Input) : Bool := !waitRequest s && (i.core.write || i.core.read)

/-- `fifo_rdreq`, from its three terms. -/
def fifoRdreq (s : Bridge) (i : Input) : Bool :=
  let head := s.fifo.q
  (s.state == .addr && (head.eop && head.read && i.arready)) ||
    -- The first beat of a write is taken off by the ready signal of the reads.
    (s.state == .addr && (head.write && i.arready)) ||
    (s.state == .data && i.wready)

/-- `state_ns`. -/
def stateNs (s : Bridge) (i : Input) : Fsm :=
  let head := s.fifo.q
  match s.state with
  | .idle => if s.fifo.count ≠ 0 then .addr else .idle
  | .addr =>
    if head.eop && head.read && i.arready then .idle
    else if head.write && i.awready && i.wready then (if head.eop then .idle else .data)
    else .addr
  | .data => if head.eop && i.wready then .idle else .data

def awvalid (s : Bridge) : Bool := s.state == .addr && s.fifo.q.write

def wvalid (s : Bridge) : Bool := (s.state == .addr && s.fifo.q.write) || s.state == .data

def arvalid (s : Bridge) : Bool := s.state == .addr && s.fifo.q.read

def wlast (s : Bridge) : Bool :=
  (s.state == .addr && s.fifo.q.write && s.fifo.q.eop) || (s.state == .data && s.fifo.q.eop)

/-- The transfers that complete in a cycle. -/
def transfers (s : Bridge) (i : Input) : List Transfer :=
  (if awvalid s && i.awready then [.aw (reqAddr s.fifo.q) (reqLen s.fifo.q)] else []) ++
    (if wvalid s && i.wready then
      [.w (swapData s.fifo.q.data) s.fifo.q.byteEnable (wlast s)] else []) ++
    (if arvalid s && i.arready then [.ar (reqAddr s.fifo.q) (reqLen s.fifo.q)] else [])

/-- One clock cycle. -/
def next (s : Bridge) (i : Input) : Bridge where
  fifo := s.fifo.next 3 (fifoWrreq s i) (fifoRdreq s i) i.core
  state := stateNs s i

/-- The bridge with the beats it has accepted, the transfers that have completed
    and whether its FIFO has ever been read while empty. -/
structure Log where
  bridge : Bridge
  accepted : List Entry
  sent : List Transfer
  underflow : Bool

def Log.init : Log := ⟨resetBridge, [], [], false⟩

/-- One cycle of the bridge, logged. -/
def logStep (l : Log) (i : Input) : Option Log :=
  some {
    bridge := next l.bridge i
    accepted := l.accepted ++ (if fifoWrreq l.bridge i then [i.core] else [])
    sent := l.sent ++ transfers l.bridge i
    underflow := l.underflow || (fifoRdreq l.bridge i && l.bridge.fifo.count == 0) }

/-- Whether a beat may follow, in a burst or outside one, and whether a burst
    is open after it. A read is one beat with its end marker set; a burst starts
    with its first beat marked and ends with its last one marked. -/
def follows (inBurst : Bool) (e : Entry) : Option Bool :=
  if e.read then (if !inBurst && !e.write && e.eop then some false else none)
  else if e.write && (e.sop == !inBurst) then some (!e.eop)
  else none

/-- A sequence of beats is made of bursts and reads; whether one is open at its
    end. -/
def bursts (inBurst : Bool) : List Entry → Option Bool
  | [] => some inBurst
  | e :: es => (follows inBurst e).bind fun b => bursts b es

/-- The bytes of each 32-bit word in reverse order. -/
def byteSwapped (d : BitVec 128) : BitVec 128 :=
  bus 128 ((List.range 16).map fun j => lane 8 d (4 * (j / 4) + (3 - j % 4)))

/-- The transfers a beat asks for. A burst is counted from zero on AXI. -/
def owed (e : Entry) : List Transfer :=
  if e.read then [.ar e.address (e.burstCount.setWidth 8 - 1)]
  else if e.sop then
    [.aw e.address (e.burstCount.setWidth 8 - 1), .w (byteSwapped e.data) e.byteEnable e.eop]
  else [.w (byteSwapped e.data) e.byteEnable e.eop]

/-- A beat that brings an address brings one of 32 bits. -/
def Entry.InReach (e : Entry) : Prop := e.read = true ∨ e.sop = true → e.address.toNat < 2 ^ 32

/-- The transfers made are those of the accepted beats, in order, less those of
    the beats still in the FIFO; and the FIFO never underflowed. -/
structure Exact (l : Log) : Prop where
  account : l.sent ++ l.bridge.fifo.contents.flatMap owed = l.accepted.flatMap owed
  noUnderflow : l.underflow = false

/-- What the core presents: a beat that is accepted continues the sequence of
    bursts and reads. -/
def WellFed (l : Log) (i : Input) : Prop :=
  fifoWrreq l.bridge i = true → (bursts false (l.accepted ++ [i.core])).isSome = true

/-- The ready signals match what the bridge assumes about them: the first beat
    of a write finds all three channels ready or none, and data is taken in the
    middle of a burst only when there is some. -/
def ReadyTogether (l : Log) (i : Input) : Prop :=
  (l.bridge.state = .addr → l.bridge.fifo.q.write = true →
      i.awready = i.wready ∧ i.wready = i.arready) ∧
    (l.bridge.state = .data → i.wready = true → l.bridge.fifo.count ≠ 0)

/-- A beat that is accepted has an address that the bridge can pass on. -/
def Reaching (l : Log) (i : Input) : Prop := fifoWrreq l.bridge i = true → i.core.InReach

/-- A cycle as the core presents it, within reach and with matching ready signals. -/
def Matched (l : Log) (i : Input) : Prop := WellFed l i ∧ Reaching l i ∧ ReadyTogether l i

instance (e : Entry) : Decidable e.InReach := inferInstanceAs (Decidable (_ ∨ _ → _))

instance (l : Log) (i : Input) : Decidable (Matched l i) :=
  inferInstanceAs (Decidable
    ((_ → _) ∧ (_ → Entry.InReach _) ∧ (_ → _ → _ ∧ _) ∧ (_ → _ → _)))

section Wires

theorem lane_swapLane (d : BitVec 128) {i k : Nat} (hi : i < 4) (hk : k < 4) :
    lane 8 (swapLane d i) k = lane 8 d (4 * (3 - i) + (3 - k)) := by
  apply BitVec.eq_of_getLsbD_eq
  intro b hb
  simp only [getLsbD_lane _ _ hb, swapLane, BitVec.getLsbD_append, BitVec.getLsbD_extractLsb']
  split_ifs <;> rw [decide_eq_true (by omega), Bool.true_and] <;> congr 1 <;> omega

theorem lane_swapData (d : BitVec 128) {i k : Nat} (hi : i < 4) (hk : k < 4) :
    lane 8 (swapData d) (4 * i + k) = lane 8 (swapLane d (3 - i)) k := by
  apply BitVec.eq_of_getLsbD_eq
  intro b hb
  simp only [getLsbD_lane _ _ hb, swapData, BitVec.getLsbD_append]
  interval_cases i <;> split_ifs <;> first | omega | (congr 1; omega)

/-- The wires of `M_WDATA` reverse the bytes of each word. -/
theorem swapData_eq (d : BitVec 128) : swapData d = byteSwapped d := by
  refine eq_of_lane (w := 8) (n := 16) rfl fun j hj => ?_
  have hplace : j = 4 * (j / 4) + j % 4 := by omega
  rw [byteSwapped, lane_bus_range _ rfl hj, hplace, lane_swapData d (by omega) (by omega),
    lane_swapLane d (by omega) (by omega)]
  congr 1
  omega

/-- The address wire loses nothing of an address within reach. -/
theorem reqAddr_eq {e : Entry} (h : e.address.toNat < 2 ^ 32) : reqAddr e = e.address := by
  apply BitVec.eq_of_toNat_eq
  rw [reqAddr, BitVec.toNat_setWidth, BitVec.toNat_setWidth, Nat.mod_eq_of_lt h,
    Nat.mod_eq_of_lt e.address.isLt]

theorem reqLen_eq (e : Entry) : reqLen e = e.burstCount.setWidth 8 - 1 := by
  have hlt := e.burstCount.isLt
  apply BitVec.eq_of_toNat_eq
  rw [reqLen, BitVec.toNat_setWidth, BitVec.toNat_sub, BitVec.toNat_sub, BitVec.toNat_setWidth,
    BitVec.toNat_setWidth]
  change (2 ^ 16 - 1 + e.burstCount.toNat % 2 ^ 16) % 2 ^ 16 % 2 ^ 8 =
    (2 ^ 8 - 1 + e.burstCount.toNat % 2 ^ 8) % 2 ^ 8
  omega

end Wires

section Cycle

variable {s : Bridge} {e : Entry} (i : Input)

theorem fifoRdreq_idle (hs : s.state = .idle) : fifoRdreq s i = false := by
  simp only [fifoRdreq, hs, reduceCtorEq, beq_eq_false_iff_ne.mpr, ne_eq, not_false_eq_true,
    Bool.false_and, Bool.or_self]

theorem transfers_idle (hs : s.state = .idle) : transfers s i = [] := by
  simp only [transfers, awvalid, wvalid, arvalid, hs, reduceCtorEq, beq_eq_false_iff_ne.mpr, ne_eq,
    not_false_eq_true, Bool.false_and, Bool.or_self, Bool.false_eq_true, if_false, List.append_nil]

theorem fifoRdreq_addr (hs : s.state = .addr) (hq : s.fifo.q = e) :
    fifoRdreq s i = (e.eop && e.read && i.arready || e.write && i.arready) := by
  simp only [fifoRdreq, hs, hq, BEq.rfl, Bool.true_and, reduceCtorEq, beq_eq_false_iff_ne.mpr,
    ne_eq, not_false_eq_true, Bool.false_and, Bool.or_false]

theorem transfers_addr (hs : s.state = .addr) (hq : s.fifo.q = e) :
    transfers s i =
      (if e.write && i.awready then [.aw (reqAddr e) (reqLen e)] else []) ++
        (if e.write && i.wready then [.w (swapData e.data) e.byteEnable (e.write && e.eop)]
          else []) ++
        (if e.read && i.arready then [.ar (reqAddr e) (reqLen e)] else []) := by
  simp only [transfers, awvalid, wvalid, arvalid, wlast, hs, hq, BEq.rfl, Bool.true_and,
    reduceCtorEq, beq_eq_false_iff_ne.mpr, ne_eq, not_false_eq_true, Bool.false_and, Bool.or_false]

theorem stateNs_addr (hs : s.state = .addr) (hq : s.fifo.q = e) :
    stateNs s i = if e.eop && e.read && i.arready then .idle
      else if e.write && i.awready && i.wready then (if e.eop then .idle else .data)
      else .addr := by
  simp only [stateNs, hs, hq]

theorem fifoRdreq_data (hs : s.state = .data) : fifoRdreq s i = i.wready := by
  simp only [fifoRdreq, hs, BEq.rfl, Bool.true_and, reduceCtorEq, beq_eq_false_iff_ne.mpr, ne_eq,
    not_false_eq_true, Bool.false_and, Bool.false_or]

theorem transfers_data (hs : s.state = .data) (hq : s.fifo.q = e) :
    transfers s i = if i.wready then [.w (swapData e.data) e.byteEnable e.eop] else [] := by
  simp only [transfers, awvalid, wvalid, arvalid, wlast, hs, hq, BEq.rfl, Bool.true_and,
    reduceCtorEq, beq_eq_false_iff_ne.mpr, ne_eq, not_false_eq_true, Bool.false_and, Bool.false_or,
    Bool.false_eq_true, if_false, List.nil_append, List.append_nil]

theorem stateNs_data (hs : s.state = .data) (hq : s.fifo.q = e) :
    stateNs s i = if e.eop && i.wready then .idle else .data := by
  simp only [stateNs, hs, hq]

end Cycle

/-- A read is served outside a burst and leaves none open. -/
theorem follows_read {b b' : Bool} {e : Entry} (h : follows b e = some b') (hr : e.read = true) :
    b = false ∧ e.write = false ∧ e.eop = true ∧ b' = false := by
  simp only [follows, hr, if_true] at h
  split at h
  · rename_i hcond
    simp only [Bool.and_eq_true, Bool.not_eq_true'] at hcond
    rw [Option.some.injEq] at h
    exact ⟨hcond.1.1, hcond.1.2, hcond.2, h.symm⟩
  · exact absurd h (by simp only [reduceCtorEq, not_false_eq_true])

/-- A beat that is no read is a write, first in its burst or not as the burst
    asks, and its end marker closes the burst. -/
theorem follows_write {b b' : Bool} {e : Entry} (h : follows b e = some b')
    (hr : e.read = false) : e.write = true ∧ e.sop = !b ∧ b' = !e.eop := by
  simp only [follows, hr, Bool.false_eq_true, if_false] at h
  split at h
  · rename_i hcond
    simp only [Bool.and_eq_true, beq_iff_eq] at hcond
    rw [Option.some.injEq] at h
    exact ⟨hcond.1, hcond.2, h.symm⟩
  · exact absurd h (by simp only [reduceCtorEq, not_false_eq_true])

theorem bursts_append (e : Entry) (es : List Entry) : ∀ b : Bool,
    bursts b (es ++ [e]) = (bursts b es).bind fun b' => follows b' e := by
  induction es with
  | nil =>
      intro b
      simp only [List.nil_append, bursts, Option.bind_some]
      cases follows b e with
      | none => rfl
      | some b' => rfl
  | cons e' es ih =>
      intro b
      simp only [List.cons_append, bursts]
      cases follows b e' with
      | none => rfl
      | some b' => exact ih b'

/-- The first beat of a well-formed sequence may follow. -/
theorem follows_of_bursts {b : Bool} {e : Entry} {es : List Entry}
    (h : (bursts b (e :: es)).isSome = true) : ∃ b', follows b e = some b' := by
  cases hf : follows b e with
  | none =>
      rw [bursts, hf] at h
      exact absurd h (by simp only [Option.bind_none, Option.isSome_none, Bool.false_eq_true,
        not_false_eq_true])
  | some b' => exact ⟨b', rfl⟩

/-- What holds between two cycles. The beats in the FIFO continue from where the
    state machine stands to where the accepted beats end. -/
structure Kept (l : Log) : Prop where
  count : l.bridge.fifo.count.toNat ≤ 3
  head : l.bridge.state = .addr → l.bridge.fifo.contents ≠ []
  parse : bursts (l.bridge.state == .data) l.bridge.fifo.contents = bursts false l.accepted
  fed : (bursts false l.accepted).isSome = true
  reach : ∀ e, e ∈ l.bridge.fifo.contents → e.InReach
  exact : Exact l

/-- A cycle either leaves the head alone and transfers nothing, or it takes the
    head off and makes the transfers the head asks for. -/
inductive Served (s : Bridge) (i : Input) : Prop
  | held (hrd : fifoRdreq s i = false) (ht : transfers s i = [])
      (hb : (stateNs s i == .data) = (s.state == .data))
      (ha : stateNs s i = .addr → s.fifo.contents ≠ [])
  | taken (e : Entry) (rest : List Entry) (hc : s.fifo.contents = e :: rest)
      (hrd : fifoRdreq s i = true) (ht : transfers s i = owed e)
      (hb : follows (s.state == .data) e = some (stateNs s i == .data))
      (ha : stateNs s i ≠ .addr)

theorem q_of_contents {f : RxmFifo Entry} {e : Entry} {rest : List Entry}
    (h : f.contents = e :: rest) : f.q = e := by
  have hlt : 0 < f.contents.length := by
    rw [h]
    exact Nat.zero_lt_succ _
  have hget : f.contents[0] = f.reg 0 := f.contents_getElem hlt
  simp only [h, List.getElem_cons_zero] at hget
  exact hget.symm

theorem contents_ne_nil_of_count {f : RxmFifo Entry} (h : f.count ≠ 0) : f.contents ≠ [] := by
  intro hnil
  have hlen := f.contents_length
  rw [hnil] at hlen
  exact h (BitVec.eq_of_toNat_eq hlen.symm)

/-- Outside a transfer state nothing moves. -/
theorem served_idle {s : Bridge} (i : Input) (hs : s.state = .idle) : Served s i := by
  refine Served.held (fifoRdreq_idle i hs) (transfers_idle i hs) ?_ ?_
  · simp only [stateNs, hs]
    split <;> rfl
  · simp only [stateNs, hs]
    split
    · rename_i hcount
      intro _
      exact contents_ne_nil_of_count hcount
    · intro hc
      exact absurd hc (by simp only [reduceCtorEq, not_false_eq_true])

/-- Behind a write beat the state machine is inside the burst unless that beat
    ended it, and it is never waiting for an address. -/
theorem afterWrite_state (eop : Bool) :
    ((if eop then Fsm.idle else Fsm.data) == .data) = !eop ∧
      (if eop then Fsm.idle else Fsm.data) ≠ .addr := by
  cases eop <;> decide

section Served

variable {s : Bridge} {i : Input} {e : Entry} {rest : List Entry}

/-- A read waits for its own channel only. -/
theorem served_read (hs : s.state = .addr) (hc : s.fifo.contents = e :: rest) {b : Bool}
    (hf : follows false e = some b) (hr : e.read = true) (hreach : e.InReach) : Served s i := by
  rcases follows_read hf hr with ⟨-, hw, heop, hb⟩
  have hq := q_of_contents hc
  have hrd : fifoRdreq s i = i.arready := by
    rw [fifoRdreq_addr i hs hq, hw, heop, hr, Bool.true_and, Bool.true_and, Bool.false_and,
      Bool.or_false]
  have ht : transfers s i = if i.arready then [.ar (reqAddr e) (reqLen e)] else [] := by
    rw [transfers_addr i hs hq, hw, hr]
    simp only [Bool.false_and, Bool.false_eq_true, if_false, List.nil_append, Bool.true_and]
  have hns : stateNs s i = if i.arready then .idle else .addr := by
    rw [stateNs_addr i hs hq, hw, heop, hr]
    simp only [Bool.true_and, Bool.false_and, Bool.false_eq_true, if_false]
  -- A read is one entry: it is taken together with the address or not at all.
  cases har : i.arready with
  | false =>
      simp only [har, Bool.false_eq_true, if_false] at hrd ht hns
      refine Served.held hrd ht ?_ ?_
      · rw [hns, hs]
      · intro _
        rw [hc]
        exact List.cons_ne_nil e rest
  | true =>
      simp only [har, if_true] at hrd ht hns
      refine Served.taken e rest hc hrd ?_ ?_ ?_
      · rw [ht, owed, if_pos hr, reqAddr_eq (hreach (Or.inl hr)), reqLen_eq]
      · rw [hns, hs]
        rw [hb] at hf
        exact hf
      · rw [hns]
        exact fun h => absurd h (by simp only [reduceCtorEq, not_false_eq_true])

/-- The first beat of a write moves when all three channels are ready, and not
    at all when none is. -/
theorem served_write (hs : s.state = .addr) (hc : s.fifo.contents = e :: rest) {b : Bool}
    (hf : follows false e = some b) (hr : e.read = false) (hreach : e.InReach)
    (hready : i.awready = i.wready ∧ i.wready = i.arready) : Served s i := by
  rcases follows_write hf hr with ⟨hw, hsop, hb⟩
  have hq := q_of_contents hc
  rcases hready with ⟨haw, hwr⟩
  rw [hwr] at haw
  -- The ready signal of the reads decides, and the other two agree with it.
  have hrd : fifoRdreq s i = i.arready := by
    rw [fifoRdreq_addr i hs hq, hw, hr, Bool.and_false, Bool.false_and, Bool.false_or,
      Bool.true_and]
  have ht : transfers s i = if i.arready then
      [.aw (reqAddr e) (reqLen e), .w (swapData e.data) e.byteEnable e.eop] else [] := by
    rw [transfers_addr i hs hq, hw, hr, haw, hwr]
    cases i.arready with
    | false => rfl
    | true => rfl
  have hns : stateNs s i = if i.arready then (if e.eop then .idle else .data) else .addr := by
    rw [stateNs_addr i hs hq, hw, hr, haw, hwr]
    simp only [Bool.and_false, Bool.false_and, Bool.false_eq_true, if_false, Bool.true_and,
      Bool.and_self]
  cases har : i.arready with
  | false =>
      simp only [har, Bool.false_eq_true, if_false] at hrd ht hns
      refine Served.held hrd ht ?_ ?_
      · rw [hns, hs]
      · intro _
        rw [hc]
        exact List.cons_ne_nil e rest
  | true =>
      simp only [har, if_true] at hrd ht hns
      have hfirst : e.sop = true := hsop
      refine Served.taken e rest hc hrd ?_ ?_ ?_
      · rw [ht, owed, if_neg (by rw [hr]; exact Bool.false_ne_true), if_pos hfirst,
          reqAddr_eq (hreach (Or.inr hfirst)), reqLen_eq, swapData_eq]
      · rw [hns, hs, (afterWrite_state e.eop).1, ← hb]
        exact hf
      · rw [hns]
        exact (afterWrite_state e.eop).2

/-- A later beat of a burst waits for the data channel. -/
theorem served_data (hs : s.state = .data)
    (hparse : (bursts true s.fifo.contents).isSome = true)
    (hready : i.wready = true → s.fifo.count ≠ 0) : Served s i := by
  have hrd := fifoRdreq_data i hs
  have ht := transfers_data i hs rfl
  have hns := stateNs_data i hs rfl
  cases hwr : i.wready with
  | false =>
      simp only [hwr, Bool.and_false, Bool.false_eq_true, if_false] at hrd ht hns
      refine Served.held hrd ht ?_ ?_
      · rw [hns, hs]
      · rw [hns]
        exact fun h => absurd h (by simp only [reduceCtorEq, not_false_eq_true])
  | true =>
      have hne := contents_ne_nil_of_count (hready hwr)
      cases hc : s.fifo.contents with
      | nil => exact absurd hc hne
      | cons e rest =>
          rw [hc] at hparse
          rcases follows_of_bursts hparse with ⟨b, hf⟩
          -- A read cannot follow inside a burst.
          have hr : e.read = false := by
            by_contra hr
            exact absurd (follows_read hf (by simpa using hr)).1
              (by simp only [Bool.true_eq_false, not_false_eq_true])
          rcases follows_write hf hr with ⟨hw, hsop, hb⟩
          have hlater : e.sop = false := hsop
          simp only [q_of_contents hc, hwr, Bool.and_true, if_true] at hrd ht hns
          refine Served.taken e rest hc hrd ?_ ?_ ?_
          · rw [ht, owed, if_neg (by rw [hr]; exact Bool.false_ne_true),
              if_neg (by rw [hlater]; exact Bool.false_ne_true), swapData_eq]
          · rw [hns, hs, (afterWrite_state e.eop).1, ← hb]
            exact hf
          · rw [hns]
            exact (afterWrite_state e.eop).2

end Served

/-- With matching ready signals every cycle serves the head as a whole. -/
theorem served_of_kept {l : Log} {i : Input} (h : Kept l) (hready : ReadyTogether l i) :
    Served l.bridge i := by
  cases hs : l.bridge.state with
  | idle => exact served_idle i hs
  | addr =>
      cases hc : l.bridge.fifo.contents with
      | nil => exact absurd hc (h.head hs)
      | cons e rest =>
          have hparse := h.fed
          rw [← h.parse, hc, hs] at hparse
          rcases follows_of_bursts hparse with ⟨b, hf⟩
          have hreach := h.reach e (by rw [hc]; exact List.mem_cons_self)
          cases hr : e.read with
          | true => exact served_read hs hc hf hr hreach
          | false =>
              have hw := (follows_write hf hr).1
              exact served_write hs hc hf hr hreach
                (hready.1 hs (by rw [q_of_contents hc]; exact hw))
  | data =>
      have hparse := h.fed
      rw [← h.parse, hs] at hparse
      exact served_data hs hparse (hready.2 hs)

theorem count_lt_of_wrreq {s : Bridge} {i : Input} (h : fifoWrreq s i = true) :
    s.fifo.count.toNat < 3 := by
  simp only [fifoWrreq, waitRequest, Bool.and_eq_true, Bool.not_eq_true',
    decide_eq_false_iff_not] at h
  omega

/-- The FIFO is neither overrun nor read while empty. -/
theorem fifo_safe {l : Log} {i : Input} (h : Kept l) (hsv : Served l.bridge i) :
    l.bridge.fifo.Safe 3 (fifoWrreq l.bridge i) (fifoRdreq l.bridge i) := by
  refine ⟨by decide, ?_, count_lt_of_wrreq, h.count⟩
  intro hrd
  cases hsv with
  | held hno _ _ _ => exact absurd (hno.symm.trans hrd) Bool.false_ne_true
  | taken e rest hc _ _ _ _ =>
      rw [← RxmFifo.contents_length, hc]
      exact Nat.zero_lt_succ _

/-- Reading and writing in one cycle, as far as the account goes: what is made
    and what is left is what was left before. -/
theorem served_account {s : Bridge} {i : Input} (hsv : Served s i) :
    transfers s i ++ (RxmFifo.afterRead (fifoRdreq s i) s.fifo.contents).flatMap owed =
      s.fifo.contents.flatMap owed := by
  cases hsv with
  | held hrd ht _ _ =>
      rw [hrd, ht]
      rfl
  | taken e rest hc hrd ht _ _ =>
      rw [hrd, ht, hc]
      rfl

/-- The beats left continue from where the state machine goes. -/
theorem served_parse {s : Bridge} {i : Input} (hsv : Served s i) :
    bursts (stateNs s i == .data) (RxmFifo.afterRead (fifoRdreq s i) s.fifo.contents) =
      bursts (s.state == .data) s.fifo.contents := by
  cases hsv with
  | held hrd _ hb _ =>
      rw [hrd, hb]
      rfl
  | taken e rest hc hrd _ hb _ =>
      rw [hrd, hc]
      simp only [bursts, hb, Option.bind_some]
      rfl

theorem mem_of_mem_afterRead {rdreq : Bool} {l : List Entry} {e : Entry}
    (h : e ∈ RxmFifo.afterRead rdreq l) : e ∈ l := by
  cases rdreq with
  | false => exact h
  | true => exact List.mem_of_mem_tail h

/-- A cycle with matching ready signals keeps the account. -/
theorem step_kept {l l' : Log} {i : Input} (h : Kept l) (hm : Matched l i)
    (hstep : logStep l i = some l') : Kept l' := by
  have hsv := served_of_kept h hm.2.2
  have hsafe := fifo_safe h hsv
  have hcont := RxmFifo.next_contents hsafe i.core
  have hcount := RxmFifo.next_count hsafe i.core
  simp only [logStep, Option.some.injEq] at hstep
  subst hstep
  -- A pushed beat is the last one of the FIFO and of the accepted beats.
  have hparse : bursts (stateNs l.bridge i == .data)
      (l.bridge.fifo.next 3 (fifoWrreq l.bridge i) (fifoRdreq l.bridge i) i.core).contents =
        bursts false (l.accepted ++ (if fifoWrreq l.bridge i then [i.core] else [])) := by
    rw [hcont]
    cases fifoWrreq l.bridge i with
    | false =>
        simp only [Bool.false_eq_true, if_false, List.append_nil]
        rw [served_parse hsv, h.parse]
    | true =>
        simp only [if_true]
        rw [bursts_append, bursts_append, served_parse hsv, h.parse]
  refine ⟨?_, ?_, hparse, ?_, ?_, ?_⟩
  · change (l.bridge.fifo.next 3 _ _ i.core).count.toNat ≤ 3
    have hle := h.count
    cases hw : fifoWrreq l.bridge i with
    | false =>
        simp only [hw, Bool.false_eq_true, if_false] at hcount ⊢
        omega
    | true =>
        have hlt := count_lt_of_wrreq hw
        simp only [hw, if_true] at hcount ⊢
        omega
  · -- The state machine waits for an address only with a beat in the FIFO.
    intro haddr
    change (l.bridge.fifo.next 3 _ _ i.core).contents ≠ []
    rw [hcont]
    cases hsv with
    | held hrd _ _ ha =>
        rw [hrd]
        exact List.append_ne_nil_of_left_ne_nil (ha haddr) _
    | taken e rest _ _ _ _ ha => exact absurd haddr ha
  · change (bursts false (l.accepted ++ _)).isSome = true
    cases hw : fifoWrreq l.bridge i with
    | false =>
        simp only [Bool.false_eq_true, if_false, List.append_nil]
        exact h.fed
    | true => exact hm.1 hw
  · -- A beat in the FIFO was there before or has just been accepted.
    intro e he
    change e ∈ (l.bridge.fifo.next 3 _ _ i.core).contents at he
    rw [hcont, List.mem_append] at he
    rcases he with hold | hnew
    · exact h.reach e (mem_of_mem_afterRead hold)
    · cases hw : fifoWrreq l.bridge i with
      | false =>
          rw [hw] at hnew
          exact absurd hnew List.not_mem_nil
      | true =>
          rw [hw, if_pos rfl, List.mem_singleton] at hnew
          rw [hnew]
          exact hm.2.1 hw
  · constructor
    · change (l.sent ++ transfers l.bridge i) ++
        (l.bridge.fifo.next 3 _ _ i.core).contents.flatMap owed = _
      rw [hcont, List.flatMap_append, List.flatMap_append, List.append_assoc,
        ← List.append_assoc (transfers l.bridge i), served_account hsv, ← List.append_assoc,
        h.exact.account]
    · change (l.underflow || (fifoRdreq l.bridge i && l.bridge.fifo.count == 0)) = false
      rw [h.exact.noUnderflow, Bool.false_or, Bool.and_eq_false_iff]
      cases hrd : fifoRdreq l.bridge i with
      | false => exact Or.inl rfl
      | true =>
          refine Or.inr (beq_eq_false_iff_ne.mpr fun hz => ?_)
          have hpos := hsafe.read hrd
          rw [hz] at hpos
          exact absurd hpos (Nat.lt_irrefl 0)

theorem init_kept : Kept Log.init := by
  refine ⟨Nat.zero_le 3, ?_, rfl, rfl, fun e he => absurd he List.not_mem_nil, ⟨rfl, rfl⟩⟩
  intro h
  exact absurd h (by simp only [Log.init, resetBridge, reduceCtorEq, not_false_eq_true])

/-- As long as the ready signals match and addresses are within reach, the
    transfers are exactly those of the accepted beats, in order, for every sequence
    of bursts and reads. -/
theorem run_exact {is : List Input} {l : Log} (h : Run logStep Matched Log.init is l) : Exact l :=
  (run_inv (fun _ _ _ => step_kept) h init_kept).exact

/-- A write of one beat. -/
def oneWrite : Entry := ⟨1, 0x1000, 0, false, true, true, true, 0xFFFF, 0x11223344⟩

/-- The wires when nothing is presented. -/
def quiet (awready wready arready : Bool) : Input := ⟨Entry.zero, awready, wready, arready⟩

/-- A burst of two beats, and a read behind it. -/
def burstAndRead : List Input :=
  [⟨⟨2, 0x1000, 0, false, true, false, true, 0xFFFF, 0x11223344⟩, false, false, false⟩,
    ⟨⟨2, 0x1000, 0, false, true, true, false, 0x00FF, 0x55667788⟩, false, false, false⟩,
    ⟨⟨1, 0x2000, 0, true, false, true, true, 0xFFFF, 0⟩, true, true, true⟩,
    quiet true true true, quiet true true true, quiet true true true]

/-- They meet ready channels, and come out as they went in. -/
theorem run_exact_burst_and_read :
    ∃ l, Run logStep Matched Log.init burstAndRead l ∧
      l.sent = [.aw 0x1000 1, .w 0x44332211 0xFFFF false, .w 0x88776655 0x00FF true,
        .ar 0x2000 0] ∧ Exact l := by
  have hrun : ∃ l, Run logStep Matched Log.init burstAndRead l ∧
      l.sent = [.aw 0x1000 1, .w 0x44332211 0xFFFF false, .w 0x88776655 0x00FF true,
        .ar 0x2000 0] :=
    ⟨_, Run.cons _ _ _ _ _ rfl (by decide) (Run.cons _ _ _ _ _ rfl (by decide)
      (Run.cons _ _ _ _ _ rfl (by decide) (Run.cons _ _ _ _ _ rfl (by decide)
      (Run.cons _ _ _ _ _ rfl (by decide) (Run.cons _ _ _ _ _ rfl (by decide) (Run.nil _)))))),
      by decide⟩
  rcases hrun with ⟨l, hrun, hsent⟩
  exact ⟨l, hrun, hsent, run_exact hrun⟩

/-- The address and the data of a write are taken while `M_ARREADY` is low. The
    beat stays in the FIFO and is sent again. -/
theorem write_sent_twice :
    ∃ l, Run logStep WellFed Log.init
      [⟨oneWrite, false, false, false⟩, quiet true true false, quiet true true false,
        quiet true true false, quiet true true false] l ∧
      l.accepted = [oneWrite] ∧ l.sent = owed oneWrite ++ owed oneWrite ∧ ¬ Exact l := by
  refine ⟨_, Run.cons _ _ _ _ _ rfl (fun _ => by decide) (Run.cons _ _ _ _ _ rfl
    (fun h => absurd h (by decide)) (Run.cons _ _ _ _ _ rfl (fun h => absurd h (by decide))
    (Run.cons _ _ _ _ _ rfl (fun h => absurd h (by decide)) (Run.cons _ _ _ _ _ rfl
    (fun h => absurd h (by decide)) (Run.nil _))))), ?_, ?_, ?_⟩
  · decide
  · decide
  · intro h
    exact absurd h.account (by decide)

end Pcie

end Ml605
