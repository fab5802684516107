import Ml605.Lib.Trace
import Ml605.Aes.Expand

/-!
# The AES Cores

`aes_128`, `aes_192` and `aes_256`. A block and its key go down two lines of
registers side by side: the block through the rounds, the key through the
expanders. A new pair enters in every cycle. No round knows which block it has,
and no expander which key; a round key meets its block because both lines take
two cycles per stage.

The three cores have one shape, `Pipeline`, with the expanders and the number of
rounds as parameters. `aes_256` has the delay of the key at its head in the place
of an expander.

For every content of the registers, and whatever enters before and behind it, a
block comes out enciphered under the key that entered with it, as the standard
has it, after 21, 25 and 29 cycles.

## Main definitions

* `Pipeline`, `Pipeline.next`: The registers of a core and its clock cycle.
* `busAt`: The key on its way through the expanders.
* `Schedules`: The expanders make the keys of the rounds.
* `aes128`, `aes192`, `aes256`: The three cores.

## Theorems

* `keyIn_busAt`, `stateIn_rounds`: Key and block on their way.
* `out_encrypt`: What a core delivers.
* `aes256_encrypt`: What `aes_256` delivers.
* `cores_encrypt`: The three cores implement the standard.
-/

namespace Ml605

namespace Aes

namespace Core

open Lib Lib.Rijndael

/-- The registers of a core with `n` full rounds. The expanders are one more than
    the rounds, for the last one. -/
structure Pipeline (m n : Nat) where
  s0 : BitVec 128
  k0 : BitVec m
  a : Fin (n + 1) → ExpandKey m
  r : Fin n → OneRound
  rf : FinalRound
deriving Inhabited

/-- The inputs of one cycle. -/
structure Feed (m : Nat) where
  state : BitVec 128
  key : BitVec m

section Cycle

variable {m n : Nat} (e : Nat → Expander m)

/-- The key bus in front of an expander: `k0`, `k1`, ... -/
def Pipeline.keyIn (s : Pipeline m n) : Fin (n + 1) → BitVec m :=
  Fin.cases s.k0 fun j => (s.a j.castSucc).out1

/-- The state in front of a round: `s0`, `s1`, ... -/
def Pipeline.stateIn (s : Pipeline m n) : Fin (n + 1) → BitVec 128 :=
  Fin.cases s.s0 fun j => (s.r j).stateOut

/-- The key of the round behind: `k0b`, `k1b`, ... -/
def Pipeline.keyOut (s : Pipeline m n) (j : Fin (n + 1)) : BitVec 128 := (s.a j).out2 (e j)

/-- One clock cycle. -/
def Pipeline.next (s : Pipeline m n) (i : Feed m) : Pipeline m n where
  s0 := i.state ^^^ i.key.extractLsb' (m - 128) 128
  k0 := i.key
  a j := (s.a j).next (e j) (s.keyIn j)
  r j := (s.r j).next (s.stateIn j.castSucc) (s.keyOut e j.castSucc)
  rf := s.rf.next (s.stateIn (Fin.last n)) (s.keyOut e (Fin.last n))

def Pipeline.out (s : Pipeline m n) : BitVec 128 := s.rf.stateOut

/-- The key behind the first `i` expanders. -/
def busAt (key : BitVec m) : Nat → BitVec m
  | 0 => key
  | i + 1 => (e i).apply (busAt key i)

/-- The expanders make the keys of the rounds, from a key of `nk` words. -/
def Schedules (n nk : Nat) : Prop :=
  ∀ key i, i ≤ n → blockState ((e i).out2 (busAt e key (i + 1))) =
    roundKey (keyWord nk (busWord key)) (i + 1)

section Run

variable (s : Pipeline m n) (inp : Nat → Feed m) (t : Nat)

/-- The key that enters in cycle `t` is in front of expander `i` after two cycles
    for each expander before it. -/
theorem keyIn_busAt (i : Fin (n + 1)) :
    (trace (Pipeline.next e) s inp (t + 1 + 2 * i)).keyIn i = busAt e (inp t).key i := by
  induction i using Fin.induction with
  | zero => rfl
  | succ i ih => exact congrArg (e i).apply ih

/-- One cycle later the expander shows the key of its round. -/
theorem keyOut_busAt (i : Fin (n + 1)) :
    (trace (Pipeline.next e) s inp (t + 1 + 2 * i + 1)).keyOut e i =
      (e i).out2 (busAt e (inp t).key (i + 1)) :=
  congrArg (fun x => (e i).out2 ((e i).apply x)) (keyIn_busAt e s inp t i)

variable {e} {nk : Nat} (hs : Schedules e n nk) (hm : 128 ≤ m)

include hs

theorem keyOut_roundKey (i : Fin (n + 1)) :
    blockState ((trace (Pipeline.next e) s inp (t + 1 + 2 * i + 1)).keyOut e i) =
      roundKey (keyWord nk (busWord (inp t).key)) (i + 1) := by
  rw [keyOut_busAt]
  exact hs _ i (Nat.le_of_lt_succ i.isLt)

include hm

/-- The block that enters in cycle `t` has been through `i` rounds when it is in
    front of the next one. -/
theorem stateIn_rounds (hnk : 4 ≤ nk) (i : Fin (n + 1)) :
    blockState ((trace (Pipeline.next e) s inp (t + 1 + 2 * i)).stateIn i) =
      rounds (keyWord nk (busWord (inp t).key)) (blockState (inp t).state) i := by
  induction i using Fin.induction with
  | zero =>
      funext r c
      have htop : lane 32 ((inp t).key.extractLsb' (m - 128) 128) c = lane 32 (inp t).key c :=
        lane_extract _ (by omega) (by omega)
      have hbyte : lane 8 (lane 32 ((inp t).state ^^^ (inp t).key.extractLsb' (m - 128) 128) c) r =
          lane 8 (lane 32 (inp t).state c) r ^^^ lane 8 (lane 32 (inp t).key c) r := by
        rw [lane_xor, lane_xor, htop]
      refine hbyte.trans ?_
      change _ = _ ^^^ keyWord nk (busWord (inp t).key) (4 * 0 + c) r
      rw [keyWord_of_lt nk _ (by omega), Nat.mul_zero, Nat.zero_add]
      rfl
  -- Two cycles a round, and the round key is in the pipeline in both.
  | succ i ih =>
      have htime : t + 1 + 2 * (i.succ : Nat) = t + 1 + 2 * i.castSucc + 1 + 1 := by
        rw [Fin.val_succ, Fin.val_castSucc]
        omega
      have hround := oneRound_state
        ((trace (Pipeline.next e) s inp (t + 1 + 2 * i.castSucc)).stateIn i.castSucc)
        ((trace (Pipeline.next e) s inp (t + 1 + 2 * i.castSucc)).keyOut e i.castSucc)
        ((trace (Pipeline.next e) s inp (t + 1 + 2 * i.castSucc + 1)).keyOut e i.castSucc)
        ((trace (Pipeline.next e) s inp (t + 1 + 2 * i.castSucc)).r i)
        ((trace (Pipeline.next e) s inp (t + 1 + 2 * i.castSucc + 1)).stateIn i.castSucc)
      rw [ih, keyOut_roundKey s inp t hs] at hround
      rw [htime]
      exact hround

/-- A block comes out two cycles for each round after it has entered, and as many
    for the last one. -/
theorem out_encrypt (hn : n + 1 = nk + 6) (hnk : 4 ≤ nk) :
    (trace (Pipeline.next e) s inp (t + 1 + 2 * n + 2)).out =
      encrypt nk (inp t).key (inp t).state := by
  apply blockState_injective
  have hround := finalRound_state
    ((trace (Pipeline.next e) s inp (t + 1 + 2 * (Fin.last n : Nat))).stateIn (Fin.last n))
    ((trace (Pipeline.next e) s inp (t + 1 + 2 * (Fin.last n : Nat))).keyOut e (Fin.last n))
    ((trace (Pipeline.next e) s inp (t + 1 + 2 * (Fin.last n : Nat) + 1)).keyOut e (Fin.last n))
    (trace (Pipeline.next e) s inp (t + 1 + 2 * n)).rf
    ((trace (Pipeline.next e) s inp (t + 1 + 2 * (Fin.last n : Nat) + 1)).stateIn (Fin.last n))
  rw [stateIn_rounds s inp t hs hm hnk, keyOut_roundKey s inp t hs] at hround
  rw [encrypt, blockState_stateBlock, cipher, ← hn, Nat.add_sub_cancel]
  exact hround

end Run

end Cycle

section Expanders

/-- The expanders of `aes_128`: `a1` to `a10`. -/
def expanders128 (i : Nat) : Expander 128 :=
  expandKey128 ([0x1, 0x2, 0x4, 0x8, 0x10, 0x20, 0x40, 0x80, 0x1b, 0x36].getD i 0)

/-- The expanders of `aes_192`: `a0` to `a11`. -/
def expanders192 (i : Nat) : Expander 192 :=
  if i = 0 then expandKeyTypeD192 0x1
  else if i % 3 = 1 then expandKeyTypeB192
  else if i % 3 = 2 then expandKeyTypeA192 ([0x2, 0x8, 0x20, 0x80].getD (i / 3) 0)
  else expandKeyTypeC192 ([0x4, 0x10, 0x40].getD (i / 3 - 1) 0)

/-- The expanders of `aes_256`: `a1` to `a13`, behind the delay. -/
def expanders256 (i : Nat) : Expander 256 :=
  if i = 0 then keyDelay256
  else if i % 2 = 1 then
    expandKeyTypeA256 ([0x1, 0x2, 0x4, 0x8, 0x10, 0x20, 0x40].getD (i / 2) 0)
  else expandKeyTypeB256

theorem expanders128_eq {i : Nat} (hi : i < 10) :
    expanders128 i = expandKey128 (xtime^[i] 1) := by
  have h : ∀ i, i < 10 → ([0x1, 0x2, 0x4, 0x8, 0x10, 0x20, 0x40, 0x80, 0x1b, 0x36] :
      List (BitVec 8)).getD i 0 = xtime^[i] 1 := by decide
  rw [expanders128, h i hi]

theorem expanders192_A {j : Nat} (hj : j < 4) :
    expanders192 (3 * j + 2) = expandKeyTypeA192 (xtime^[2 * j + 1] 1) := by
  have h : ∀ j, j < 4 → ([0x2, 0x8, 0x20, 0x80] : List (BitVec 8)).getD j 0 =
      xtime^[2 * j + 1] 1 := by decide
  rw [expanders192, if_neg (by omega), if_neg (by omega), if_pos (by omega),
    show (3 * j + 2) / 3 = j by omega, h j hj]

theorem expanders192_B (j : Nat) : expanders192 (3 * j + 1) = expandKeyTypeB192 := by
  rw [expanders192, if_neg (by omega), if_pos (by omega)]

theorem expanders192_C {j : Nat} (hj : j < 3) :
    expanders192 (3 * j + 3) = expandKeyTypeC192 (xtime^[2 * j + 1 + 1] 1) := by
  have h : ∀ j, j < 3 → ([0x4, 0x10, 0x40] : List (BitVec 8)).getD j 0 =
      xtime^[2 * j + 1 + 1] 1 := by decide
  rw [expanders192, if_neg (by omega), if_neg (by omega), if_neg (by omega),
    show (3 * j + 3) / 3 - 1 = j by omega, h j hj]

theorem expanders256_A {j : Nat} (hj : j < 7) :
    expanders256 (2 * j + 1) = expandKeyTypeA256 (xtime^[j] 1) := by
  have h : ∀ j, j < 7 → ([0x1, 0x2, 0x4, 0x8, 0x10, 0x20, 0x40] : List (BitVec 8)).getD j 0 =
      xtime^[j] 1 := by decide
  rw [expanders256, if_neg (by omega), if_pos (by omega), show (2 * j + 1) / 2 = j by omega, h j hj]

theorem expanders256_B (j : Nat) : expanders256 (2 * j + 2) = expandKeyTypeB256 := by
  rw [expanders256, if_neg (by omega), if_neg (by omega)]

end Expanders

section Schedule

/-- The key itself is the beginning of its schedule. -/
theorem shows_key {m : Nat} (key : BitVec m) (nk : Nat) :
    Shows (keyWord nk (busWord key)) key 0 0 nk := by
  intro j hj
  rw [Nat.zero_add, keyWord_of_lt nk _ hj]

theorem shows128 (key : BitVec 128) : ∀ i, i ≤ 10 →
    Shows (keyWord 4 (busWord key)) (busAt expanders128 key i) 0 (4 * i) 4 := by
  intro i
  induction i with
  | zero => exact fun _ => shows_key key 4
  | succ i ih =>
      intro hi
      rw [busAt, expanders128_eq hi]
      exact expandKey128_words i (ih (Nat.le_of_succ_le hi))

theorem schedules128 : Schedules expanders128 9 4 := fun key i hi =>
  roundKey_of_shows (shows128 key (i + 1) (by omega))

-- Types A and B take turns, and each needs what the other has left.

theorem shows256_even (key : BitVec 256) {j : Nat} (hj : j < 7)
    (h : Shows (keyWord 8 (busWord key)) (busAt expanders256 key (2 * j + 1)) 0 (8 * j) 8) :
    Shows (keyWord 8 (busWord key)) (busAt expanders256 key (2 * j + 2)) 0 (8 * j + 8) 4 ∧
      Shows (keyWord 8 (busWord key)) (busAt expanders256 key (2 * j + 2)) 4 (8 * j + 4) 4 := by
  rw [busAt, expanders256_A hj]
  exact typeA256_words j h

theorem shows256_odd (key : BitVec 256) : ∀ j, j ≤ 7 →
    Shows (keyWord 8 (busWord key)) (busAt expanders256 key (2 * j + 1)) 0 (8 * j) 8 := by
  intro j
  induction j with
  | zero => exact fun _ => shows_key key 8
  | succ j ih =>
      intro hj
      rcases shows256_even key hj (ih (Nat.le_of_succ_le hj)) with ⟨hlow, hhigh⟩
      rw [show 2 * (j + 1) + 1 = 2 * j + 2 + 1 by omega, busAt, expanders256_B]
      exact typeB256_words j hlow hhigh

theorem schedules256 : Schedules expanders256 13 8 := by
  intro key i hi
  rcases Nat.eq_zero_or_pos i with rfl | hpos
  · exact roundKey_of_shows ((shows_key key 8).part 4 4 (by decide))
  rcases Nat.even_or_odd' i with ⟨j, rfl | rfl⟩
  · obtain ⟨j, rfl⟩ : ∃ k, j = k + 1 := ⟨j - 1, by omega⟩
    have hodd := shows256_odd key (j + 1) (by omega)
    have hnew := hodd.part 4 4 (by decide)
    rw [show 8 * (j + 1) + 4 = 4 * (2 * (j + 1) + 1) by omega] at hnew
    rw [show 2 * (j + 1) = 2 * j + 2 by omega, expanders256_B]
    exact roundKey_of_shows hnew
  · have hnew := (shows256_even key (by omega) (shows256_odd key j (by omega))).1
    rw [show 8 * j + 8 = 4 * (2 * j + 1 + 1) by omega] at hnew
    rw [expanders256_A (by omega)]
    exact roundKey_of_shows hnew

-- The first expander of `aes_192` is of type D, and then types B, A and C take turns.

theorem shows192_A (key : BitVec 192) {j : Nat}
    (h : Shows (keyWord 6 (busWord key)) (busAt expanders192 key (3 * j + 1)) 0 (12 * j + 6) 2 ∧
      Shows (keyWord 6 (busWord key)) (busAt expanders192 key (3 * j + 1)) 2 (12 * j + 2) 4) :
    Shows (keyWord 6 (busWord key)) (busAt expanders192 key (3 * j + 2)) 0 (12 * j + 6) 6 := by
  rw [show 12 * j = 6 * (2 * j) by omega] at h ⊢
  rw [busAt, expanders192_B]
  exact typeB192_words (2 * j) h.1 h.2

theorem shows192_C (key : BitVec 192) {j : Nat} (hj : j < 4)
    (h : Shows (keyWord 6 (busWord key)) (busAt expanders192 key (3 * j + 2)) 0 (12 * j + 6) 6) :
    Shows (keyWord 6 (busWord key)) (busAt expanders192 key (3 * j + 3)) 0 (12 * j + 12) 4 ∧
      Shows (keyWord 6 (busWord key)) (busAt expanders192 key (3 * j + 3)) 4 (12 * j + 10) 2 := by
  rw [show 12 * j + 6 = 6 * (2 * j + 1) by omega] at h
  rw [show 12 * j + 12 = 6 * (2 * j + 1) + 6 by omega,
    show 12 * j + 10 = 6 * (2 * j + 1) + 4 by omega, busAt, expanders192_A hj]
  exact typeA192_words (2 * j + 1) h

theorem shows192_B (key : BitVec 192) : ∀ j, j < 4 →
    Shows (keyWord 6 (busWord key)) (busAt expanders192 key (3 * j + 1)) 0 (12 * j + 6) 2 ∧
      Shows (keyWord 6 (busWord key)) (busAt expanders192 key (3 * j + 1)) 2 (12 * j + 2) 4 := by
  intro j
  induction j with
  | zero => exact fun _ => typeD192_words (shows_key key 6)
  | succ j ih =>
      intro hj
      rcases shows192_C key (Nat.lt_of_succ_lt hj)
        (shows192_A key (ih (Nat.lt_of_succ_lt hj))) with ⟨hlow, hhigh⟩
      rw [show 12 * j + 12 = 6 * (2 * j + 1) + 6 by omega] at hlow
      rw [show 12 * j + 10 = 6 * (2 * j + 1) + 4 by omega] at hhigh
      rw [show 12 * (j + 1) + 6 = 6 * (2 * j + 1) + 12 by omega,
        show 12 * (j + 1) + 2 = 6 * (2 * j + 1) + 8 by omega,
        show 3 * (j + 1) + 1 = 3 * j + 3 + 1 by omega, busAt, expanders192_C (by omega)]
      exact typeC192_words (2 * j + 1) hlow hhigh

/-- Types C and D show the two words at the end of the bus before the two new ones
    at its beginning. -/
theorem roundKey_of_split {x : BitVec 192} {w : Nat → Word} {i c : Nat} (hc : c + 2 = 4 * i)
    (hlow : Shows w x 0 (c + 4) 2) (hhigh : Shows w x 2 c 4) :
    blockState (select [4, 5, 0, 1] x) = roundKey w i := by
  refine roundKey_of_select (p := ![4, 5, 0, 1]) fun j => ?_
  rw [← hc]
  rcases fin_four j with rfl | rfl | rfl | rfl
  · exact hhigh 2 (by decide)
  · exact hhigh 3 (by decide)
  · exact hlow 0 (by decide)
  · exact hlow 1 (by decide)

theorem schedules192 : Schedules expanders192 11 6 := by
  intro key i hi
  rcases Nat.eq_zero_or_pos i with rfl | hpos
  · have hnew := shows192_B key 0 (by decide)
    exact roundKey_of_split rfl hnew.1 hnew.2
  obtain ⟨j, hj⟩ : ∃ j, i = 3 * j + 1 ∨ i = 3 * j + 2 ∨ i = 3 * j + 3 := ⟨(i - 1) / 3, by omega⟩
  rcases hj with rfl | rfl | rfl
  · have hnew := (shows192_A key (shows192_B key j (by omega))).part 2 4 (by decide)
    rw [show 12 * j + 6 + 2 = 4 * (3 * j + 1 + 1) by omega] at hnew
    rw [expanders192_B]
    exact roundKey_of_shows hnew
  · have hnew := (shows192_C key (by omega) (shows192_A key (shows192_B key j (by omega)))).1
    rw [show 12 * j + 12 = 4 * (3 * j + 2 + 1) by omega] at hnew
    rw [expanders192_A (by omega)]
    exact roundKey_of_shows hnew
  · have hnew := shows192_B key (j + 1) (by omega)
    rw [expanders192_C (by omega)]
    exact roundKey_of_split (by omega) hnew.1 hnew.2

end Schedule

section Standard

/-- A clock cycle of `aes_128`, `aes_192` and `aes_256`. -/
def aes128 : Pipeline 128 9 → Feed 128 → Pipeline 128 9 := Pipeline.next expanders128

@[inherit_doc aes128]
def aes192 : Pipeline 192 11 → Feed 192 → Pipeline 192 11 := Pipeline.next expanders192

@[inherit_doc aes128]
def aes256 : Pipeline 256 13 → Feed 256 → Pipeline 256 13 := Pipeline.next expanders256

theorem aes256_encrypt (s : Pipeline 256 13) (inp : Nat → Feed 256) (t : Nat) :
    (trace aes256 s inp (t + 29)).out = encrypt 8 (inp t).key (inp t).state :=
  out_encrypt s inp t schedules256 (by decide) rfl (by decide)

/-- Every block comes out of every core as the standard enciphers it under the key
    that entered with it, whatever the registers held and whatever enters before
    and behind it. -/
theorem cores_encrypt :
    (∀ (s : Pipeline 128 9) (inp : Nat → Feed 128) (t : Nat),
      (trace aes128 s inp (t + 21)).out = encrypt 4 (inp t).key (inp t).state) ∧
    (∀ (s : Pipeline 192 11) (inp : Nat → Feed 192) (t : Nat),
      (trace aes192 s inp (t + 25)).out = encrypt 6 (inp t).key (inp t).state) ∧
    (∀ (s : Pipeline 256 13) (inp : Nat → Feed 256) (t : Nat),
      (trace aes256 s inp (t + 29)).out = encrypt 8 (inp t).key (inp t).state) :=
  ⟨fun s inp t => out_encrypt s inp t schedules128 (by decide) rfl (by decide),
    fun s inp t => out_encrypt s inp t schedules192 (by decide) rfl (by decide), aes256_encrypt⟩

end Standard

end Core

end Aes

end Ml605
