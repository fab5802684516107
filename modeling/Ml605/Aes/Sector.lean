import Ml605.Lib.XorStream
import Ml605.Aes.Mm2sStream

/-!
# Sectors

The disk behind the AES core is read and written in sectors of 512 bytes, which
are 32 beats. The core's counter has five bits and is cleared at the end of a
packet, so in a packet that is made of whole sectors it starts each sector at
zero: the keystream depends on the place within the sector alone.

A sequence of sectors can therefore be encrypted in packets of one size and
decrypted in packets of another, and any run of sectors of what was written can
be decrypted by itself.

## Main definitions

* `Sector`: 32 words.
* `packet`: A packet with the given words.
* `grouped`: Sectors in packets, as beats.
* `Pass`: What goes into and comes out of the core in a run that delivers all it
  accepted.

## Theorems

* `pass_eq_cipher`: A pass puts out the cipher of what was put in.
* `cipher_grouped`: The cipher of whole sectors, however they are grouped.
* `pass_exists`: Everything can be passed through the core.
* `range_decrypts`: A run of sectors can be decrypted by itself.
* `regrouped_sectors_decrypt`: Two passes with any two groupings give the sectors
  back.
-/

namespace Ml605

namespace Aes

open Lib

variable (aes256 : BitVec 128 → BitVec 128)

/-- A sector of 512 bytes. -/
abbrev Sector := { ds : List (BitVec 128) // ds.length = 32 }

/-- The words of a sequence of sectors. -/
def words (sectors : List Sector) : List (BitVec 128) := sectors.flatMap Subtype.val

/-- A packet with the given words: the last beat is marked. -/
def packet : List (BitVec 128) → List Beat
  | [] => []
  | [d] => [⟨d, true⟩]
  | d :: ds => ⟨d, false⟩ :: packet ds

/-- Groups of sectors, one packet for each group. -/
def grouped (groups : List (List Sector)) : List Beat :=
  groups.flatMap fun g => packet (words g)

/-- A run from a reset in which all that was accepted has been delivered. -/
def Pass (input output : List Beat) : Prop :=
  ∃ s is l, Quiescent s ∧ Run (logStep aes256) Running (Log.start s) is l ∧
    l.accepted = input ∧ l.delivered = output ∧ output.length = input.length

theorem cipher_length (bs : List Beat) : ∀ k, (cipher aes256 k bs).length = bs.length := by
  induction bs with
  | nil => intro k; rfl
  | cons b bs ih =>
      intro k
      simp only [cipher, List.length_cons, ih]

/-- A pass puts out the cipher of what was put in. -/
theorem pass_eq_cipher {input output : List Beat} (h : Pass aes256 input output) :
    output = cipher aes256 0 input := by
  rcases h with ⟨s, is, l, hq, hrun, hacc, hdel, hlen⟩
  rcases (streams_of_traced aes256 (run_traced aes256 hq hrun)).account with ⟨rest, -, hacct⟩
  rw [hacc, hdel, List.append_assoc] at hacct
  -- A prefix of the same length is the whole.
  refine List.IsPrefix.eq_of_length ⟨_, hacct⟩ ?_
  rw [cipher_length, hlen]

/-- The keystream repeats after a sector. -/
theorem keystream_period (k : Nat) : keystream aes256 (k + 32) = keystream aes256 k := by
  unfold keystream
  rw [Nat.add_mod_right]

/-- The words of a packet are combined with the keystream from the place where
    it starts, and what follows it starts at zero. -/
theorem cipher_packet (rest : List Beat) (ds : List (BitVec 128)) : ∀ k, ds ≠ [] →
    (cipher aes256 k (packet ds ++ rest)).map Beat.data =
      xorFrom (keystream aes256) k ds ++ (cipher aes256 0 rest).map Beat.data := by
  induction ds with
  | nil => intro k h; exact absurd rfl h
  | cons d ds ih =>
      intro k _
      cases ds with
      | nil => rfl
      | cons d' ds =>
          have htail := ih (k + 1) (List.cons_ne_nil d' ds)
          change (d ^^^ keystream aes256 k) ::
            (cipher aes256 (k + 1) (packet (d' :: ds) ++ rest)).map Beat.data = _
          rw [htail]
          rfl

theorem words_length (sectors : List Sector) : (words sectors).length = 32 * sectors.length := by
  induction sectors with
  | nil => rfl
  | cons s ss ih =>
      have hcons : words (s :: ss) = s.val ++ words ss := List.flatMap_cons
      rw [hcons, List.length_append, s.property, ih, List.length_cons]
      omega

/-- However whole sectors are grouped, their words are combined with the
    keystream as one sequence. -/
theorem cipher_grouped (groups : List (List Sector)) :
    (cipher aes256 0 (grouped groups)).map Beat.data =
      xorFrom (keystream aes256) 0 (words groups.flatten) := by
  induction groups with
  | nil => rfl
  | cons g gs ih =>
      have hwords : words (g :: gs).flatten = words g ++ words gs.flatten := by
        unfold words
        rw [List.flatten_cons, List.flatMap_append]
      have hgroups : grouped (g :: gs) = packet (words g) ++ grouped gs := List.flatMap_cons
      rw [hwords, hgroups, xorFrom_append, words_length, xorFrom_period (keystream_period aes256),
        ← ih]
      by_cases hg : words g = []
      · rw [hg]
        rfl
      · exact cipher_packet aes256 _ _ 0 hg

/-- A pass over whole sectors. -/
theorem pass_words {groups : List (List Sector)} {output : List Beat}
    (h : Pass aes256 (grouped groups) output) :
    output.map Beat.data = xorFrom (keystream aes256) 0 (words groups.flatten) := by
  rw [pass_eq_cipher aes256 h, cipher_grouped]

/-- The cycle that offers a beat and reads the output. -/
def feed (b : Beat) : Input := ⟨true, true, b.last, b.data, true, false, false, 0⟩

/-- The cycle that offers nothing and reads the output. -/
def flush : Input := ⟨true, false, false, 0, true, false, false, 0⟩

/-- While the output is read, the output FIFO never stops the input. -/
theorem feed_accepted (bs : List Beat) : ∀ l : Log, l.hw.aesFifo.length ≤ 1 →
    ((bs.map feed).foldl (logNext aes256) l).accepted = l.accepted ++ bs := by
  induction bs with
  | nil => intro l _; exact (List.append_nil _).symm
  | cons b bs ih =>
      intro l hl
      have hhs : handshake l.hw (feed b) = true := by
        simp only [handshake, mm2sTready, aesRdFull, feed, Bool.false_eq_true, if_false,
          Bool.true_and, Bool.not_false, Bool.and_true, Bool.not_eq_true',
          decide_eq_false_iff_not]
        omega
      -- The output is read in every cycle, so a beat leaves for each one that comes in.
      have hfifo : (logNext aes256 l (feed b)).hw.aesFifo.length ≤ 1 := by
        have hwr : (if l.hw.sfifoOD1 = true then
            some (⟨l.hw.aesOutD1, l.hw.lfifoOD1⟩ : Beat) else none).toList.length ≤ 1 :=
          Option.length_toList_le
        simp only [logNext, next, feed, Bool.not_true, Bool.false_eq_true, if_false, fifoNext,
          Bool.true_and, List.length_append, s2mmTvalid]
        cases hf : l.hw.aesFifo with
        | nil =>
            simp only [List.isEmpty_nil, Bool.not_true, Bool.false_eq_true, if_false,
              List.length_nil, Nat.zero_add]
            exact hwr
        | cons x xs =>
            rw [hf, List.length_cons] at hl
            simp only [List.isEmpty_cons, Bool.not_false, if_true, List.tail_cons]
            omega
      rw [List.map_cons, List.foldl_cons, ih _ hfifo]
      simp only [logNext, hhs, if_true, List.append_assoc, List.cons_append, List.nil_append]
      rfl

/-- Everything can be passed through the core. -/
theorem pass_exists (bs : List Beat) : ∃ output, Pass aes256 bs output := by
  have hq := powerUp_quiescent
  let fed := (bs.map feed).foldl (logNext aes256) (Log.start powerUp)
  let done := (List.replicate 191 flush).foldl (logNext aes256) fed
  have hfeed : Run (logStep aes256) Running (Log.start powerUp) (bs.map feed) fed := by
    refine run_foldl (fun _ _ => rfl) _ _ ?_
    intro i hi u
    rcases List.mem_map.mp hi with ⟨b, -, rfl⟩
    rfl
  have hflush : Run (logStep aes256) Idle fed (List.replicate 191 flush) done := by
    refine run_foldl (fun _ _ => rfl) _ _ ?_
    intro i hi u
    rw [List.eq_of_mem_replicate hi]
    exact ⟨rfl, rfl, rfl⟩
  have hacc : fed.accepted = bs := feed_accepted aes256 bs (Log.start powerUp) (Nat.zero_le 1)
  have htraced := run_traced aes256 hq hfeed
  have hdel := delivered_of_idle aes256 htraced hflush (by rw [List.length_replicate])
  have hkeep : done.accepted = fed.accepted := by
    rcases htraced with ⟨w, hw⟩
    refine (run_draining aes256 hflush 0 w ⟨hw, fun j hj => absurd hj (Nat.not_lt_zero j), ?_⟩).2
    have hocc := hw.occupied
    omega
  have hrest : Run (logStep aes256) Running fed (List.replicate 191 flush) done :=
    run_mono (fun _ => True) (fun _ _ _ _ _ _ => trivial) (fun _ _ _ hi => hi.1) hflush trivial
  refine ⟨done.delivered, powerUp, _, done, hq, run_append hfeed hrest, hkeep.trans hacc, rfl, ?_⟩
  rw [hdel, hacc, cipher_length]

/-- A run of whole sectors of what was put out can be passed through the core by
    itself, and gives back that run of what was put in. -/
theorem range_decrypts {groups groups' : List (List Sector)} {output back : List Beat}
    (h : Pass aes256 (grouped groups) output) (first count : Nat)
    (hcut : words groups'.flatten =
      ((output.map Beat.data).drop (32 * first)).take (32 * count))
    (h' : Pass aes256 (grouped groups') back) :
    back.map Beat.data = ((words groups.flatten).drop (32 * first)).take (32 * count) := by
  rw [pass_words aes256 h', hcut, pass_words aes256 h, xorFrom_drop,
    xorFrom_period (keystream_period aes256), xorFrom_take, xorFrom_self]

/-- Sectors that pass through the core in packets of any sizes, and whose output
    passes through it again in packets of any other sizes, come back as they
    were; and there are such passes. -/
theorem regrouped_sectors_decrypt (groups : List (List Sector)) :
    (∃ output, Pass aes256 (grouped groups) output) ∧
      ∀ (output : List Beat) (groups' : List (List Sector)),
        Pass aes256 (grouped groups) output → words groups'.flatten = output.map Beat.data →
        (∃ back, Pass aes256 (grouped groups') back) ∧
          ∀ back, Pass aes256 (grouped groups') back →
            back.map Beat.data = words groups.flatten := by
  refine ⟨pass_exists aes256 _, ?_⟩
  intro output groups' hpass hcut
  refine ⟨pass_exists aes256 _, ?_⟩
  intro back hback
  -- The second pass combines the same words with the same keystream.
  rw [pass_words aes256 hback, hcut, pass_words aes256 hpass, xorFrom_self]

end Aes

end Ml605
