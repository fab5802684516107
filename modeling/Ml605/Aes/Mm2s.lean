import Mathlib.Tactic
import Ml605.Lib.Run
import Ml605.Lib.Window

/-!
# The AES Stream Core

`aes_mm2s`: the data path between the two streams of the DMA engine. A beat
taken from the MM2S stream is stored in `din_fifo` while the AES core, which is
fed with a counter and not with the data, works out the keystream block for it.
Thirty cycles later the block comes out, the beat is read back from the FIFO,
and the two are combined and written to `aes_fifo`, from which the S2MM stream
is served.

Nothing identifies a beat on its way. Data, keystream, valid bit and last bit
travel in four lines of their own, whose lengths agree, and the input is
stopped by the half-full flag of the output FIFO only, with up to thirty-one
beats in flight.

The AES core is a parameter, a function of its input behind a pipeline of
twenty-nine stages. The FIFOs show their oldest word. Their half-full flag may
lag by a cycle: the input `late` says when. `eofFull` stands for the status
path, and `dout` for what an empty FIFO shows.

## Main definitions

* `Beat`: A beat of a stream.
* `Mm2s`, `Input`: The registers of the module and its inputs.
* `handshake`, `next`: The handshake of the input stream and the clock cycle.
* `Log`, `logNext`: The cycle with what was accepted and delivered.
* `keystream`, `cipher`: What the module is for.
* `Quiescent`: The module after a reset.

## Theorems

* `cipher_append`: The cipher of one more beat.
* `quiescent_of_reset`: A reset of 31 cycles leaves the module quiescent.
-/

namespace Ml605

namespace Aes

open Lib

/-- A beat of either stream. -/
structure Beat where
  data : BitVec 128
  last : Bool
deriving DecidableEq

/-- The byte order of a word, reversed: `swap_aes_out`. -/
def swapBytes (x : BitVec 128) : BitVec 128 :=
  (List.range 16).foldl (fun acc k => acc <<< 8 ||| (x.extractLsb' (8 * k) 8).setWidth 128) 0

/-- The registers and the FIFOs. Place `j` of `pipe` is the AES core `j + 1`
    cycles after its input. `aesOccPrev` is how full `aes_fifo` was a cycle ago,
    which its half-full flag may still show. -/
structure Mm2s where
  aesCtr : BitVec 5
  aesDin : BitVec 128
  aesDinValid : Bool
  pipe : Nat → BitVec 128
  aesOut : BitVec 128
  sfifoR : BitVec 29
  lfifoR : BitVec 29
  sfifoO : Bool
  lfifoO : Bool
  dinFifo : List (Bool × BitVec 128)
  sfifoOD1 : Bool
  lfifoOD1 : Bool
  aesOutD1 : BitVec 128
  aesFifo : List Beat
  aesOccPrev : Nat

/-- The inputs of one cycle. -/
structure Input where
  resetN : Bool
  tvalid : Bool
  tlast : Bool
  tdata : BitVec 128
  tready : Bool
  eofFull : Bool
  late : Bool
  dout : BitVec 128

/-- `aes_rd_full`: 128 words, now or a cycle ago. -/
def aesRdFull (s : Mm2s) (i : Input) : Bool :=
  decide (128 ≤ if i.late then s.aesOccPrev else s.aesFifo.length)

/-- `m_axis_mm2s_tready`. -/
def mm2sTready (s : Mm2s) (i : Input) : Bool := !aesRdFull s i && !i.eofFull

/-- `mm2s_handshake`. -/
def handshake (s : Mm2s) (i : Input) : Bool := i.tvalid && mm2sTready s i

/-- `s_axis_s2mm_tvalid`. -/
def s2mmTvalid (s : Mm2s) : Bool := !s.aesFifo.isEmpty

/-- `din_rd_data`. -/
def dinRdData (s : Mm2s) (i : Input) : BitVec 128 :=
  match s.dinFifo with
  | [] => i.dout
  | w :: _ => w.2

variable (aes256 : BitVec 128 → BitVec 128)

/-- One clock cycle. -/
def next (s : Mm2s) (i : Input) : Mm2s where
  aesCtr :=
    -- A packet starts at zero, and within it five bits wrap at the end of a sector.
    if !i.resetN || (handshake s i && i.tlast) then 0
    else if handshake s i then s.aesCtr + 1
    else s.aesCtr
  -- The data goes to `dinFifo` and waits there for its keystream.
  aesDin := i.tdata
  aesDinValid := handshake s i
  pipe := fun j => match j with
    | 0 => aes256 (swapBytes (s.aesCtr.setWidth 128))
    | j + 1 => s.pipe j
  aesOut := swapBytes (s.pipe 28)
  -- The valid and the last bit go down lines of their own, which have no reset.
  sfifoR := BitVec.concat (s.sfifoR.setWidth 28) (handshake s i)
  lfifoR := BitVec.concat (s.lfifoR.setWidth 28) i.tlast
  sfifoO := s.sfifoR.getLsbD 28
  lfifoO := s.lfifoR.getLsbD 28
  -- The last bit written here is a cycle off; nothing reads it.
  dinFifo :=
    if !i.resetN then []
    else fifoNext s.sfifoO (if s.aesDinValid then some (i.tlast, s.aesDin) else none) s.dinFifo
  sfifoOD1 := s.sfifoO
  lfifoOD1 := s.lfifoO
  aesOutD1 := s.aesOut ^^^ dinRdData s i
  aesFifo :=
    if !i.resetN then []
    else fifoNext (i.tready && s2mmTvalid s)
      (if s.sfifoOD1 then some ⟨s.aesOutD1, s.lfifoOD1⟩ else none) s.aesFifo
  aesOccPrev := s.aesFifo.length

/-- The module with the beats it has accepted and those it has delivered. -/
structure Log where
  hw : Mm2s
  accepted : List Beat
  delivered : List Beat

/-- One cycle of the module, logged. -/
def logNext (l : Log) (i : Input) : Log where
  hw := next aes256 l.hw i
  accepted := l.accepted ++ (if handshake l.hw i then [⟨i.tdata, i.tlast⟩] else [])
  delivered := l.delivered ++ (if i.tready then l.hw.aesFifo.head?.toList else [])

def logStep (l : Log) (i : Input) : Option Log := some (logNext aes256 l i)

/-- No reset is applied. -/
def Running (_ : Log) (i : Input) : Prop := i.resetN = true

/-- The keystream block for the beat with a given position in its packet. -/
def keystream (k : Nat) : BitVec 128 :=
  swapBytes (aes256 (swapBytes (BitVec.ofNat 128 (k % 32))))

/-- A beat combined with its keystream block. -/
def cipherBeat (b : Beat) (k : Nat) : Beat := ⟨b.data ^^^ keystream aes256 k, b.last⟩

/-- The position behind a beat: a packet starts anew behind its last beat. -/
def bump (k : Nat) (b : Beat) : Nat := if b.last then 0 else k + 1

/-- What comes out for a sequence of beats, the first of which has position `k`
    in its packet. -/
def cipher (k : Nat) : List Beat → List Beat
  | [] => []
  | b :: bs => cipherBeat aes256 b k :: cipher (bump k b) bs

/-- The position behind a sequence of beats. -/
def position (k : Nat) (bs : List Beat) : Nat := bs.foldl bump k

theorem cipher_append (b : Beat) (bs : List Beat) : ∀ k : Nat,
    cipher aes256 k (bs ++ [b]) = cipher aes256 k bs ++ [cipherBeat aes256 b (position k bs)] := by
  induction bs with
  | nil => intro k; rfl
  | cons b' bs ih =>
      intro k
      simp only [List.cons_append, cipher]
      rw [ih]
      rfl

theorem position_append (b : Beat) (bs : List Beat) (k : Nat) :
    position k (bs ++ [b]) = bump (position k bs) b := by
  simp only [position, List.foldl_append, List.foldl_cons, List.foldl_nil]

/-- The module after a reset: the counter is at zero, the FIFOs are empty and no
    valid bit is on its way. The data registers may hold anything. -/
structure Quiescent (s : Mm2s) : Prop where
  ctr : s.aesCtr = 0
  din : s.aesDinValid = false
  line : s.sfifoR = 0
  out : s.sfifoO = false
  outD1 : s.sfifoOD1 = false
  dinFifo : s.dinFifo = []
  aesFifo : s.aesFifo = []

/-- The module after power-up, with every register cleared. -/
def powerUp : Mm2s := ⟨0, 0, false, fun _ => 0, 0, 0, 0, false, false, [], false, false, 0, [], 0⟩

theorem powerUp_quiescent : Quiescent powerUp := ⟨rfl, rfl, rfl, rfl, rfl, rfl, rfl⟩

/-- A run starts in such a state. -/
def Log.start (s : Mm2s) : Log := ⟨s, [], []⟩

/-- The valid bits after `n` cycles in which reset was held and nothing was
    offered. The lines are not reset; they run empty. -/
structure Emptying (n : Nat) (s : Mm2s) : Prop where
  held : 0 < n → s.aesCtr = 0 ∧ s.aesDinValid = false ∧ s.dinFifo = [] ∧ s.aesFifo = []
  line : ∀ j, j < n → j < 29 → s.sfifoR.getLsbD j = false
  out : 29 < n → s.sfifoO = false
  outD1 : 30 < n → s.sfifoOD1 = false

theorem next_emptying {n : Nat} {s : Mm2s} {i : Input} (h : Emptying n s)
    (hr : i.resetN = false) (hv : i.tvalid = false) : Emptying (n + 1) (next aes256 s i) := by
  have hhs : handshake s i = false := by
    unfold handshake
    rw [hv, Bool.false_and]
  refine ⟨fun _ => ?_, ?_, fun hn => h.line 28 (by omega) (by omega), fun hn => h.out (by omega)⟩
  · refine ⟨?_, hhs, ?_, ?_⟩
    · simp only [next, hr, Bool.not_false, Bool.true_or, if_true]
    · simp only [next, hr, Bool.not_false, if_true]
    · simp only [next, hr, Bool.not_false, if_true]
  · intro j hj hj'
    change (BitVec.concat (s.sfifoR.setWidth 28) (handshake s i)).getLsbD j = false
    cases j with
    | zero => rw [BitVec.getLsbD_concat_zero, hhs]
    | succ j =>
        rw [BitVec.getLsbD_concat_succ, BitVec.getLsbD_setWidth, h.line j (by omega) (by omega),
          Bool.and_false]

/-- A reset that is held for 31 cycles with nothing offered leaves the module
    quiescent, whatever it was doing. -/
theorem quiescent_of_reset (is : List Input) (s : Mm2s) (hlong : 31 ≤ is.length)
    (hreset : ∀ i, i ∈ is → i.resetN = false ∧ i.tvalid = false) :
    Quiescent (is.foldl (next aes256) s) := by
  have hrun : Run (fun s i => some (next aes256 s i))
      (fun _ i => i.resetN = false ∧ i.tvalid = false) s is (is.foldl (next aes256) s) :=
    run_foldl (fun _ _ => rfl) is s fun i hi _ => hreset i hi
  have hzero : Emptying 0 s :=
    ⟨fun h => absurd h (Nat.lt_irrefl 0), fun j hj => absurd hj (Nat.not_lt_zero j),
      fun h => absurd h (by omega), fun h => absurd h (by omega)⟩
  have hdone : Emptying (0 + is.length) (is.foldl (next aes256) s) := by
    refine run_inv_count Emptying ?_ hrun 0 hzero
    intro n s i s' h hi hs
    rw [← Option.some.inj hs]
    exact next_emptying aes256 h hi.1 hi.2
  rw [Nat.zero_add] at hdone
  rcases hdone.held (by omega) with ⟨hctr, hdin, hdf, haf⟩
  refine ⟨hctr, hdin, ?_, hdone.out (by omega), hdone.outD1 (by omega), hdf, haf⟩
  apply BitVec.eq_of_getLsbD_eq
  intro j hj
  rw [hdone.line j (by omega) hj]
  exact BitVec.getLsbD_zero.symm

end Aes

end Ml605
