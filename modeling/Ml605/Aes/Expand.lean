import Ml605.Aes.Round

/-!
# Key Expanders of the AES Cores

`aes_128.v`, `aes_192.v` and `aes_256.v` expand the key while the state goes
through the rounds. An expander takes a bus with the latest words of the key
schedule, makes up to four new words in two cycles, and passes the bus on with
the new words in the place of the oldest ones. In between it shows the key of one
round.

Most expanders do the same thing in another place: they take one word through the
substitution box, and add it to the running sums of a stretch of the bus. `chained`
is that. Types B and C of the 192-bit core do something else.

A running sum is what the recursion of the standard unrolls to: a new word is the
sum of an old one and the new word before it.

## Main definitions

* `Expander`: The wires of an expander.
* `ExpandKey`: Its registers, and its clock cycle.
* `chained`: The expanders that substitute one word and sum up others.
* `expandKey128`, `expandKeyTypeA192`, ..., `expandKeyTypeB256`: The expanders.

## Theorems

* `chained_words`: A chained expander makes the next words of the schedule.
* `typeB192_words`, `typeC192_words`: So do the two others.
-/

namespace Ml605

namespace Aes

namespace Core

open Lib Lib.Rijndael

/-- The wires of an expander whose bus has `m` bits: what the registers `k0a`,
    `k1a`, ... take, what `S4` looks up, how its answer is added, and which words
    are shown as the key of a round. -/
structure Expander (m : Nat) where
  ka : BitVec m → BitVec m
  s4In : BitVec m → BitVec 32
  kb : BitVec m → BitVec 32 → BitVec m
  out2 : BitVec m → BitVec 128

/-- The registers of an expander. -/
structure ExpandKey (m : Nat) where
  ka : BitVec m
  k8a : BitVec 32
  out1 : BitVec m
deriving Inhabited

section Cycle

variable {m : Nat} (e : Expander m)

def ExpandKey.next (k : ExpandKey m) (x : BitVec m) : ExpandKey m :=
  ⟨e.ka x, s4 (e.s4In x), e.kb k.ka k.k8a⟩

def ExpandKey.out2 (k : ExpandKey m) : BitVec 128 := e.out2 (e.kb k.ka k.k8a)

/-- What becomes of the bus. -/
def Expander.apply (x : BitVec m) : BitVec m := e.kb (e.ka x) (s4 (e.s4In x))

end Cycle

/-- The first byte of a word with a constant added: `v0`. -/
def addRcon (rcon : BitVec 8) (x : BitVec 32) : BitVec 32 :=
  (x.extractLsb' 24 8 ^^^ rcon) ++ x.extractLsb' 0 24

/-- A word turned round by a byte. -/
def rotate (x : BitVec 32) : BitVec 32 := x.extractLsb' 0 24 ++ x.extractLsb' 24 8

/-- The words at some places of a bus, side by side. -/
def select {m : Nat} (places : List Nat) (x : BitVec m) : BitVec 128 :=
  bus 128 (places.map (lane 32 x))

/-- The sum of the words from place `a` on: `v0`, `v1`, ... -/
def running {m : Nat} (rcon : BitVec 8) (x : BitVec m) (a : Nat) : Nat → BitVec 32
  | 0 => addRcon rcon (lane 32 x a)
  | j + 1 => running rcon x a j ^^^ lane 32 x (a + (j + 1))

/-- An expander for `n` words that makes `len` new words, from place `a` on. -/
def chained (m n a len : Nat) (rcon : BitVec 8) (s4In : BitVec m → BitVec 32)
    (out2 : BitVec m → BitVec 128) : Expander m where
  ka x := bus m ((List.range n).map fun j =>
    if a ≤ j ∧ j < a + len then running rcon x a (j - a) else lane 32 x j)
  s4In := s4In
  kb ka k8a := bus m ((List.range n).map fun j =>
    if a ≤ j ∧ j < a + len then lane 32 ka j ^^^ k8a else lane 32 ka j)
  out2 := out2

def expandKey128 (rcon : BitVec 8) : Expander 128 :=
  chained 128 4 0 4 rcon (fun x => rotate (lane 32 x 3)) (select [0, 1, 2, 3])

def expandKeyTypeA192 (rcon : BitVec 8) : Expander 192 :=
  chained 192 6 0 4 rcon (fun x => rotate (lane 32 x 5)) (select [0, 1, 2, 3])

def expandKeyTypeD192 (rcon : BitVec 8) : Expander 192 :=
  chained 192 6 0 2 rcon (fun x => rotate (lane 32 x 5)) (select [4, 5, 0, 1])

def expandKeyTypeA256 (rcon : BitVec 8) : Expander 256 :=
  chained 256 8 0 4 rcon (fun x => rotate (lane 32 x 7)) (select [0, 1, 2, 3])

/-- No constant is added here, and the word is not turned round. -/
def expandKeyTypeB256 : Expander 256 :=
  chained 256 8 4 4 0 (fun x => lane 32 x 3) (select [4, 5, 6, 7])

/-- Four new words, none of which needs the substitution box. There is no `S4`,
    so nothing reads what it would look up. -/
def expandKeyTypeB192 : Expander 192 where
  ka x :=
    let v2 := lane 32 x 1 ^^^ lane 32 x 2
    let v3 := v2 ^^^ lane 32 x 3
    let v4 := v3 ^^^ lane 32 x 4
    let v5 := v4 ^^^ lane 32 x 5
    bus 192 [lane 32 x 0, lane 32 x 1, v2, v3, v4, v5]
  s4In _ := 0
  kb ka _ := ka
  out2 := select [2, 3, 4, 5]

/-- Two new words by sums alone, and two more for which the second of them is
    looked up in the same cycle. -/
def expandKeyTypeC192 (rcon : BitVec 8) : Expander 192 where
  ka x :=
    let v4 := lane 32 x 3 ^^^ lane 32 x 4
    let v5 := v4 ^^^ lane 32 x 5
    let v0 := addRcon rcon (lane 32 x 0)
    let v1 := v0 ^^^ lane 32 x 1
    bus 192 [v0, v1, lane 32 x 2, lane 32 x 3, v4, v5]
  s4In x := rotate (lane 32 x 3 ^^^ lane 32 x 4 ^^^ lane 32 x 5)
  kb ka k6a :=
    bus 192 [lane 32 ka 0 ^^^ k6a, lane 32 ka 1 ^^^ k6a, lane 32 ka 2, lane 32 ka 3, lane 32 ka 4,
      lane 32 ka 5]
  out2 := select [4, 5, 0, 1]

/-- What stands in the place of an expander at the head of `aes_256`: the key goes
    through `k0a` to `k1`, and its second half is the key of the first round. -/
def keyDelay256 : Expander 256 where
  ka x := x
  s4In _ := 0
  kb ka _ := ka
  out2 := select [4, 5, 6, 7]

section Words

theorem wordOf_s4 (x : BitVec 32) : wordOf (s4 x) = subWord (wordOf x) := by
  funext r
  exact lane_s4 x r

theorem wordOf_rotate (x : BitVec 32) : wordOf (rotate x) = rotWord (wordOf x) := by
  funext r
  exact lane_rotate x (k := 3) (l := 1) rfl rfl rfl r.isLt

theorem wordOf_addRcon (c : BitVec 8) (x : BitVec 32) :
    wordOf (addRcon c x) = xorWord (wordOf x) (constant c) := by
  funext r
  rcases fin_four r with rfl | rfl | rfl | rfl
  · refine (lane_append_left (w := 8) (j := 0) _ _ (by decide)).trans ?_
    rw [lane_xor, lane_extract (k := 0) x (by decide) rfl, lane_self]
    rfl
  -- The other three bytes are those of the word.
  · refine (lane_append_right (w := 8) (k := 1) (j := 0) _ _ rfl (by decide)).trans ?_
    rw [lane_extract (k := 1) x (by decide) rfl]
    exact BitVec.xor_zero.symm
  · refine (lane_append_right (w := 8) (k := 1) (j := 1) _ _ rfl (by decide)).trans ?_
    rw [lane_extract (k := 2) x (by decide) rfl]
    exact BitVec.xor_zero.symm
  · refine (lane_append_right (w := 8) (k := 1) (j := 2) _ _ rfl (by decide)).trans ?_
    rw [lane_extract (k := 3) x (by decide) rfl]
    exact BitVec.xor_zero.symm

end Words

/-- From place `a` on, a bus shows `len` words of a schedule, from word `b` on. -/
def Shows {m : Nat} (w : Nat → Word) (x : BitVec m) (a b len : Nat) : Prop :=
  ∀ j, j < len → busWord x (a + j) = w (b + j)

section Shows

variable {m : Nat} {w : Nat → Word} {x : BitVec m} {a b len : Nat}

/-- A part of what is shown. -/
theorem Shows.part (h : Shows w x a b len) (k len' : Nat) (hk : k + len' ≤ len) :
    Shows w x (a + k) (b + k) len' := by
  intro j hj
  rw [Nat.add_assoc, Nat.add_assoc]
  exact h (k + j) (by omega)

/-- What is shown in two stretches that follow each other. -/
theorem Shows.join {len' : Nat} (h : Shows w x a b len) (h' : Shows w x (a + len) (b + len) len') :
    Shows w x a b (len + len') := by
  intro j hj
  rcases Nat.lt_or_ge j len with hlt | hge
  · exact h j hlt
  · obtain ⟨i, rfl⟩ := Nat.exists_eq_add_of_le hge
    rw [← Nat.add_assoc, ← Nat.add_assoc]
    exact h' i (by omega)

/-- Four words that follow one another are the key of a round. -/
theorem roundKey_of_select {p : Fin 4 → Nat} {i : Nat}
    (h : ∀ j : Fin 4, busWord x (p j) = w (4 * i + j)) :
    blockState (select [p 0, p 1, p 2, p 3] x) = roundKey w i := by
  funext r j
  rw [roundKey, ← h j]
  exact congrArg (fun y => wordOf y r) (lane_four (fun j => lane 32 x (p j)) rfl j)

theorem roundKey_of_shows {i : Nat} (h : Shows w x a (4 * i) 4) :
    blockState (select [a, a + 1, a + 2, a + 3] x) = roundKey w i :=
  roundKey_of_select (p := fun j => a + j) fun j => h j j.isLt

end Shows

section Chained

variable {m n a len : Nat} {rc : BitVec 8} {s4In : BitVec m → BitVec 32}
  {out2 : BitVec m → BitVec 128} {e : Expander m}

theorem lane_chained (he : e = chained m n a len rc s4In out2) (x : BitVec m) (hm : 32 * n = m)
    {j : Nat} (hj : j < n) :
    lane 32 (e.apply x) j =
      if a ≤ j ∧ j < a + len then running rc x a (j - a) ^^^ s4 (s4In x) else lane 32 x j := by
  subst he
  unfold Expander.apply chained
  rw [lane_bus_range _ hm hj, lane_bus_range _ hm hj]
  by_cases hin : a ≤ j ∧ j < a + len
  · rw [if_pos hin, if_pos hin, if_pos hin]
  · rw [if_neg hin, if_neg hin, if_neg hin]

variable {w : Nat → Word} {x : BitVec m}

/-- The other words stay. -/
theorem chained_others (he : e = chained m n a len rc s4In out2) (hm : 32 * n = m)
    {a' b' len' : Nat} (hn : a' + len' ≤ n) (hout : a' + len' ≤ a ∨ a + len ≤ a')
    (h : Shows w x a' b' len') : Shows w (e.apply x) a' b' len' := by
  intro j hj
  rw [busWord, lane_chained he x hm (by omega), if_neg (by omega)]
  exact h j hj

/-- The new words are the next ones of the schedule: the first of them takes the
    substituted word, and each of the others the one before it. -/
theorem chained_words (he : e = chained m n a len rc s4In out2) (hm : 32 * n = m) (hn : a + len ≤ n)
    {nk b : Nat} (hnk : 0 < nk) {key : Nat → Word} (h : Shows (keyWord nk key) x a b len)
    (hfirst : xorWord (subWord (wordOf (s4In x))) (constant rc) =
      temp nk (b + nk) (keyWord nk key (b + nk - 1)))
    (hplain : ∀ j, 0 < j → j < len → (b + j + nk) % nk ≠ 0 ∧ (nk ≤ 6 ∨ (b + j + nk) % nk ≠ 4)) :
    Shows (keyWord nk key) (e.apply x) a (b + nk) len := by
  intro j
  induction j with
  | zero =>
      intro hj
      have hold : wordOf (lane 32 x a) = keyWord nk key b := h 0 hj
      rw [busWord, lane_chained he x hm (by omega), if_pos (by omega), Nat.add_zero, Nat.sub_self,
        running, wordOf_xor, wordOf_addRcon, wordOf_s4, hold, Nat.add_zero,
        keyWord_add nk key hnk, ← hfirst]
      ac_rfl
  | succ j ih =>
      intro hj
      have hprev := ih (Nat.lt_of_succ_lt hj)
      rcases hplain (j + 1) (Nat.succ_pos j) hj with ⟨h0, h4⟩
      rw [busWord, lane_chained he x hm (by omega), if_pos (by omega), Nat.add_sub_cancel_left,
        wordOf_xor] at hprev
      rw [busWord, lane_chained he x hm (by omega), if_pos (by omega), Nat.add_sub_cancel_left,
        running, wordOf_xor, wordOf_xor, show b + nk + (j + 1) = b + (j + 1) + nk by omega,
        keyWord_add nk key hnk, temp_plain nk _ h0 h4,
        show b + (j + 1) + nk - 1 = b + nk + j by omega, ← hprev, ← h (j + 1) hj]
      unfold busWord
      ac_rfl

end Chained

section Steps

variable {key : Nat → Word} (j : Nat)

theorem expandKey128_words {x : BitVec 128} (h : Shows (keyWord 4 key) x 0 (4 * j) 4) :
    Shows (keyWord 4 key) ((expandKey128 (xtime^[j] 1)).apply x) 0 (4 * j + 4) 4 := by
  refine chained_words (e := expandKey128 (xtime^[j] 1)) rfl rfl (by decide) (by decide) h ?_
    (by omega)
  rw [temp_first 4 _ j (by decide), wordOf_rotate]
  exact congrArg (fun t => xorWord (subWord (rotWord t)) _) (h 3 (by decide))

theorem typeA256_words {x : BitVec 256} (h : Shows (keyWord 8 key) x 0 (8 * j) 8) :
    Shows (keyWord 8 key) ((expandKeyTypeA256 (xtime^[j] 1)).apply x) 0 (8 * j + 8) 4 ∧
      Shows (keyWord 8 key) ((expandKeyTypeA256 (xtime^[j] 1)).apply x) 4 (8 * j + 4) 4 := by
  constructor
  · refine chained_words (e := expandKeyTypeA256 (xtime^[j] 1)) rfl rfl (by decide) (by decide)
      (h.part 0 4 (by decide)) ?_ (by omega)
    rw [Nat.add_zero, temp_first 8 _ j (by decide), wordOf_rotate]
    exact congrArg (fun t => xorWord (subWord (rotWord t)) _) (h 7 (by decide))
  · exact chained_others (e := expandKeyTypeA256 (xtime^[j] 1)) rfl rfl (by decide) (by decide)
      (h.part 4 4 (by decide))

theorem typeB256_words {x : BitVec 256} (h : Shows (keyWord 8 key) x 0 (8 * j + 8) 4)
    (h' : Shows (keyWord 8 key) x 4 (8 * j + 4) 4) :
    Shows (keyWord 8 key) (expandKeyTypeB256.apply x) 0 (8 * j + 8) 8 := by
  have hnew : Shows (keyWord 8 key) (expandKeyTypeB256.apply x) 4 (8 * j + 4 + 8) 4 := by
    refine chained_words (e := expandKeyTypeB256) rfl rfl (by decide) (by decide) h' ?_ (by omega)
    rw [xorWord_constant_zero, temp_middle 8 _ (by decide) (by omega)]
    exact congrArg subWord (h 3 (by decide))
  have hold : Shows (keyWord 8 key) (expandKeyTypeB256.apply x) 0 (8 * j + 8) 4 :=
    chained_others (e := expandKeyTypeB256) rfl rfl (by decide) (by decide) h
  exact hold.join hnew

theorem typeD192_words {x : BitVec 192} (h : Shows (keyWord 6 key) x 0 0 6) :
    Shows (keyWord 6 key) ((expandKeyTypeD192 1).apply x) 0 6 2 ∧
      Shows (keyWord 6 key) ((expandKeyTypeD192 1).apply x) 2 2 4 := by
  constructor
  · refine chained_words (e := expandKeyTypeD192 1) rfl rfl (by decide) (by decide)
      (h.part 0 2 (by decide)) ?_ (by omega)
    rw [temp_first 6 _ 0 (by decide), wordOf_rotate]
    exact congrArg (fun t => xorWord (subWord (rotWord t)) _) (h 5 (by decide))
  · exact chained_others (e := expandKeyTypeD192 1) rfl rfl (by decide) (by decide)
      (h.part 2 4 (by decide))

theorem typeA192_words {x : BitVec 192} (h : Shows (keyWord 6 key) x 0 (6 * j) 6) :
    Shows (keyWord 6 key) ((expandKeyTypeA192 (xtime^[j] 1)).apply x) 0 (6 * j + 6) 4 ∧
      Shows (keyWord 6 key) ((expandKeyTypeA192 (xtime^[j] 1)).apply x) 4 (6 * j + 4) 2 := by
  constructor
  · refine chained_words (e := expandKeyTypeA192 (xtime^[j] 1)) rfl rfl (by decide) (by decide)
      (h.part 0 4 (by decide)) ?_ (by omega)
    rw [Nat.add_zero, temp_first 6 _ j (by decide), wordOf_rotate]
    exact congrArg (fun t => xorWord (subWord (rotWord t)) _) (h 5 (by decide))
  · exact chained_others (e := expandKeyTypeA192 (xtime^[j] 1)) rfl rfl (by decide) (by decide)
      (h.part 4 2 (by decide))

/-- Words that take neither the substitution box nor a constant: each is the sum
    of an old word and the one before it. -/
theorem sums_words {x y : BitVec 192} {a c len : Nat} {t : Word} (ht : t = keyWord 6 key (c + 5))
    (hx : Shows (keyWord 6 key) x a c len) (hzero : busWord y a = xorWord t (busWord x a))
    (hsucc : ∀ i, i + 1 < len →
      busWord y (a + (i + 1)) = xorWord (busWord y (a + i)) (busWord x (a + (i + 1))))
    (hc : ∀ i, i < len → (c + i) % 6 ≠ 0) : Shows (keyWord 6 key) y a (c + 6) len := by
  have hplain : ∀ i, i < len → keyWord 6 key (c + 6 + i) =
      xorWord (keyWord 6 key (c + i + 5)) (busWord x (a + i)) := by
    intro i hi
    have hi' := hc i hi
    rw [show c + 6 + i = c + i + 6 by omega, keyWord_add 6 key (by decide),
      temp_plain 6 _ (by omega) (.inl (by decide)), hx i hi]
    exact xorWord_comm _ _
  intro i
  induction i with
  | zero =>
      intro hi
      rw [hplain 0 hi, Nat.add_zero, Nat.add_zero, ← ht]
      exact hzero
  | succ i ih =>
      intro hi
      rw [hplain (i + 1) hi, hsucc i hi, ih (Nat.lt_of_succ_lt hi),
        show c + 6 + i = c + (i + 1) + 5 by omega]

theorem typeB192_words {x : BitVec 192} (h : Shows (keyWord 6 key) x 0 (6 * j + 6) 2)
    (h' : Shows (keyWord 6 key) x 2 (6 * j + 2) 4) :
    Shows (keyWord 6 key) (expandKeyTypeB192.apply x) 0 (6 * j + 6) 6 := by
  generalize hy : expandKeyTypeB192.apply x = y
  have l0 : lane 32 y 0 = lane 32 x 0 := hy ▸ lane_bus_eq rfl rfl
  have l1 : lane 32 y 1 = lane 32 x 1 := hy ▸ lane_bus_eq rfl rfl
  have l2 : lane 32 y 2 = lane 32 x 1 ^^^ lane 32 x 2 := hy ▸ lane_bus_eq rfl rfl
  have l3 : lane 32 y 3 = lane 32 x 1 ^^^ lane 32 x 2 ^^^ lane 32 x 3 := hy ▸ lane_bus_eq rfl rfl
  have l4 : lane 32 y 4 = lane 32 x 1 ^^^ lane 32 x 2 ^^^ lane 32 x 3 ^^^ lane 32 x 4 :=
    hy ▸ lane_bus_eq rfl rfl
  have l5 : lane 32 y 5 =
      lane 32 x 1 ^^^ lane 32 x 2 ^^^ lane 32 x 3 ^^^ lane 32 x 4 ^^^ lane 32 x 5 :=
    hy ▸ lane_bus_eq rfl rfl
  -- The first two words of the round are already there; the other four are running sums.
  have hold : Shows (keyWord 6 key) y 0 (6 * j + 6) 2 := by
    intro i hi
    rw [← h i hi]
    interval_cases i
    · exact congrArg wordOf l0
    · exact congrArg wordOf l1
  have hnew : Shows (keyWord 6 key) y 2 (6 * j + 2 + 6) 4 := by
    refine sums_words (h 1 (by decide)) h' ?_ ?_ (by omega)
    · exact (congrArg wordOf l2).trans (wordOf_xor _ _)
    · intro i hi
      have hi' : i < 3 := by omega
      refine Eq.trans (congrArg wordOf ?_) (wordOf_xor _ _)
      interval_cases i
      · rw [l3, l2]
      · rw [l4, l3]
      · rw [l5, l4]
  exact hold.join hnew

section TypeC

variable {rc : BitVec 8} {x y : BitVec 192} (hy : (expandKeyTypeC192 rc).apply x = y)

include hy

theorem typeC192_kept {i : Nat} (hi : 2 ≤ i) (hi' : i < 6) :
    lane 32 y i = lane 32 ((expandKeyTypeC192 rc).ka x) i := by
  rw [← hy]
  interval_cases i
  all_goals exact lane_bus_eq rfl rfl

theorem typeC192_sum4 : lane 32 y 4 = lane 32 x 3 ^^^ lane 32 x 4 := by
  rw [typeC192_kept hy (by decide) (by decide)]
  exact lane_bus_eq rfl rfl

theorem typeC192_sum5 : lane 32 y 5 = lane 32 x 3 ^^^ lane 32 x 4 ^^^ lane 32 x 5 := by
  rw [typeC192_kept hy (by decide) (by decide)]
  exact lane_bus_eq rfl rfl

/-- What is looked up is the second of the two sums. -/
theorem typeC192_sum0 : lane 32 y 0 = addRcon rc (lane 32 x 0) ^^^ s4 (rotate (lane 32 y 5)) := by
  have hka : lane 32 ((expandKeyTypeC192 rc).ka x) 0 = addRcon rc (lane 32 x 0) :=
    lane_bus_eq rfl rfl
  rw [typeC192_sum5 hy, ← hka, ← hy]
  exact lane_bus_eq rfl rfl

theorem typeC192_sum1 : lane 32 y 1 = lane 32 y 0 ^^^ lane 32 x 1 := by
  have hka : lane 32 ((expandKeyTypeC192 rc).ka x) 1 = addRcon rc (lane 32 x 0) ^^^ lane 32 x 1 :=
    lane_bus_eq rfl rfl
  have hkb : lane 32 y 1 =
      lane 32 ((expandKeyTypeC192 rc).ka x) 1 ^^^ s4 (rotate (lane 32 y 5)) := by
    rw [typeC192_sum5 hy, ← hy]
    exact lane_bus_eq rfl rfl
  rw [hkb, hka, typeC192_sum0 hy]
  ac_rfl

end TypeC

theorem typeC192_words {x : BitVec 192} (h : Shows (keyWord 6 key) x 0 (6 * j + 6) 4)
    (h' : Shows (keyWord 6 key) x 4 (6 * j + 4) 2) :
    Shows (keyWord 6 key) ((expandKeyTypeC192 (xtime^[j + 1] 1)).apply x) 0 (6 * j + 12) 2 ∧
      Shows (keyWord 6 key) ((expandKeyTypeC192 (xtime^[j + 1] 1)).apply x) 2 (6 * j + 8) 4 := by
  generalize hy : (expandKeyTypeC192 (xtime^[j + 1] 1)).apply x = y
  have hold : Shows (keyWord 6 key) y 2 (6 * j + 8) 2 := by
    intro i hi
    rw [← h.part 2 2 (by decide) i hi, busWord, typeC192_kept hy (by omega) (by omega)]
    interval_cases i
    all_goals exact congrArg wordOf (lane_bus_eq rfl rfl)
  have hsums : Shows (keyWord 6 key) y 4 (6 * j + 4 + 6) 2 := by
    refine sums_words (h 3 (by decide)) h' ?_ ?_ (by omega)
    · exact (congrArg wordOf (typeC192_sum4 hy)).trans (wordOf_xor _ _)
    · intro i hi
      obtain rfl : i = 0 := by omega
      refine Eq.trans (congrArg wordOf ?_) (wordOf_xor _ _)
      rw [typeC192_sum5 hy, ← typeC192_sum4 hy]
  -- The first word of the next key block is the one with the round constant.
  have hfirst : busWord y 0 = keyWord 6 key (6 * j + 12) := by
    have h5 : wordOf (lane 32 y 5) = keyWord 6 key (6 * j + 6 + 6 - 1) := hsums 1 (by decide)
    have h0 : wordOf (lane 32 x 0) = keyWord 6 key (6 * j + 6) := h 0 (by decide)
    have hword : keyWord 6 key (6 * j + 12) = _ := keyWord_add 6 key (by decide) (6 * j + 6)
    rw [busWord, typeC192_sum0 hy, wordOf_xor, wordOf_addRcon, wordOf_s4, wordOf_rotate, h5, h0,
      hword, show 6 * j + 6 = 6 * (j + 1) from rfl, temp_first 6 _ (j + 1) (by decide)]
    ac_rfl
  have hsecond : Shows (keyWord 6 key) y 1 (6 * j + 7 + 6) 1 := by
    refine sums_words (t := busWord y 0) hfirst (h.part 1 1 (by decide)) ?_ (by omega) (by omega)
    exact (congrArg wordOf (typeC192_sum1 hy)).trans (wordOf_xor _ _)
  have hnew : Shows (keyWord 6 key) y 0 (6 * j + 12) 1 := by
    intro i hi
    obtain rfl : i = 0 := by omega
    exact hfirst
  exact ⟨hnew.join hsecond, hold.join hsums⟩

end Steps

end Core

end Aes

end Ml605
