import Ml605.Driver.AesSystem

/-!
# The Hardware Group as a Queue

Both drivers read a ring through the IDs of the descriptors that are with the
hardware. Seen that way the ring is a queue: handing a set over appends the IDs
of its descriptors, taking descriptors back drops as many at the front, and
nothing else a driver does to the ring can be seen.

## Main definitions

* `idsFrom`, `hwIds`: The IDs of some descriptors in a row, and of those with
  the hardware.
* `InHw`: The descriptor is with the hardware.
* `roundRing`: A round of a bottom half, as the ring sees it.
* `holders`: How many descriptors of the ring carry an ID.

## Theorems

* `hwIds_fromHw`: Taking descriptors back drops their IDs.
* `hwIds_toHw`: Handing a set over appends its IDs.
* `hwIds_round`: A round drops the IDs of what it takes back.
* `holders_eq_count`: If only descriptors with the hardware carry IDs, the
  queue counts them.
-/

namespace Ml605

namespace Driver

namespace Groups

theorem nth_add (g : Groups) (bd m n : Nat) : g.nth bd (m + n) = g.nth (g.nth bd m) n := by
  unfold nth
  rw [Nat.add_comm, Function.iterate_add_apply]

/-- Stepping around the ring depends on its size only. -/
theorem nth_congr {g g' : Groups} (h : g'.allCnt = g.allCnt) (bd i : Nat) :
    g'.nth bd i = g.nth bd i := by
  have hnext : g'.next = g.next := by
    funext b
    unfold next
    rw [h]
  unfold nth
  rw [hnext]

theorem nth_lt (g : Groups) {bd : Nat} (h : bd < g.allCnt) : ∀ i, g.nth bd i < g.allCnt := by
  intro i
  induction i with
  | zero => exact h
  | succ i ih =>
      rw [nth_add g bd i 1]
      exact g.next_lt ih

section WfNth

variable {g : Groups} (h : g.Wf)

include h

/-- The free descriptors follow those with the hardware and those in between. -/
theorem Wf.freeHead_eq_nth (hroom : 0 < g.freeCnt) :
    g.freeHead = g.nth g.hwHead (g.hwCnt + g.preCnt) := by
  have hc := h.counts
  rw [h.free, h.pre, g.seekahead_add h.hwHead_lt (by omega)]
  exact (g.nth_eq_seekahead h.hwHead_lt _ (by omega)).symm

end WfNth

end Groups

/-- A change that leaves IDs alone. -/
theorem modify_id (r : BdRing) (i : Nat) {f : Bd → Bd} (hf : ∀ b, (f b).id = b.id) (j : Nat) :
    ((r.modify i f).bd j).id = (r.bd j).id := by
  by_cases hj : j = i
  · rw [hj, r.modify_bd_self, hf]
  · rw [r.modify_bd_of_ne _ hj]

/-- The IDs of `n` descriptors in a row, from `bd` on. -/
def idsFrom (r : BdRing) (bd n : Nat) : List (Option Nat) :=
  (List.range n).map fun i => (r.bd (r.nth bd i)).id

/-- The IDs of the descriptors with the hardware, the oldest first. -/
def hwIds (r : BdRing) : List (Option Nat) := idsFrom r r.hwHead r.hwCnt

theorem idsFrom_length (r : BdRing) (bd n : Nat) : (idsFrom r bd n).length = n := by
  simp only [idsFrom, List.length_map, List.length_range]

theorem hwIds_length (r : BdRing) : (hwIds r).length = r.hwCnt := idsFrom_length ..

theorem idsFrom_add (r : BdRing) (bd m n : Nat) :
    idsFrom r bd (m + n) = idsFrom r bd m ++ idsFrom r (r.nth bd m) n := by
  unfold idsFrom
  rw [List.range_add, List.map_append, List.map_map]
  congr 1
  refine List.map_congr_left fun i _ => ?_
  rw [Function.comp_apply, r.nth_add]

/-- The IDs do not see what else is in the descriptors. -/
theorem idsFrom_congr {r r' : BdRing} (hall : r'.allCnt = r.allCnt) {bd n : Nat}
    (hid : ∀ i, i < n → (r'.bd (r.nth bd i)).id = (r.bd (r.nth bd i)).id) :
    idsFrom r' bd n = idsFrom r bd n := by
  refine List.map_congr_left fun i hi => ?_
  rw [Groups.nth_congr hall]
  exact hid i (List.mem_range.mp hi)

theorem hwIds_congr {r r' : BdRing} (hall : r'.allCnt = r.allCnt) (hhead : r'.hwHead = r.hwHead)
    (hcnt : r'.hwCnt = r.hwCnt)
    (hid : ∀ i, i < r.hwCnt → (r'.bd (r.nth r.hwHead i)).id = (r.bd (r.nth r.hwHead i)).id) :
    hwIds r' = hwIds r := by
  unfold hwIds
  rw [hhead, hcnt]
  exact idsFrom_congr hall hid

/-- The hardware leaves the IDs alone. -/
theorem completeBd_id (r : BdRing) (i : Nat) (eof : Bool) (j : Nat) :
    ((completeBd r i eof).bd j).id = (r.bd j).id := by
  unfold completeBd
  rw [modify_id]
  intro b
  rfl

theorem hwIds_completeBd (r : BdRing) (i : Nat) (eof : Bool) :
    hwIds (completeBd r i eof) = hwIds r :=
  hwIds_congr rfl rfl rfl fun _ _ => completeBd_id r i eof _

/-- The queue starts with the IDs of the oldest descriptors. -/
theorem hwIds_take (r : BdRing) {n : Nat} (h : n ≤ r.hwCnt) :
    (hwIds r).take n = idsFrom r r.hwHead n := by
  have hsplit := idsFrom_add r r.hwHead n (r.hwCnt - n)
  rw [Nat.add_sub_cancel' h] at hsplit
  unfold hwIds
  rw [hsplit, List.take_left' (idsFrom_length r r.hwHead n)]

section FromHw

variable {r : BdRing} (hwf : r.Wf)

theorem bdRingFromHw_bd (r : BdRing) (limit : Nat) : (bdRingFromHw r limit).1.bd = r.bd := by
  rw [(bdRingFromHw_spec r limit).2]

theorem bdRingFromHw_allCnt (r : BdRing) (limit : Nat) :
    (bdRingFromHw r limit).1.allCnt = r.allCnt := by
  rw [(bdRingFromHw_spec r limit).2]

theorem bdRingFromHw_hwCnt (r : BdRing) (limit : Nat) :
    (bdRingFromHw r limit).1.hwCnt = r.hwCnt - (bdRingFromHw r limit).2 := by
  rw [(bdRingFromHw_spec r limit).2]

include hwf

/-- The new head is as many steps on as descriptors came back, unless none is
    left behind it. -/
theorem bdRingFromHw_hwHead (limit : Nat) (hleft : (bdRingFromHw r limit).2 < r.hwCnt) :
    (bdRingFromHw r limit).1.hwHead = r.nth r.hwHead (bdRingFromHw r limit).2 := by
  have hc := hwf.counts
  rw [(bdRingFromHw_spec r limit).2]
  generalize (bdRingFromHw r limit).2 = n at hleft
  change (if n = 0 then r.hwHead else r.seekahead r.hwHead n) = r.nth r.hwHead n
  by_cases hz : n = 0
  · rw [if_pos hz, hz]
    rfl
  · rw [if_neg hz]
    exact (r.nth_eq_seekahead hwf.hwHead_lt n (by omega)).symm

/-- Taking descriptors back drops their IDs at the front of the queue. -/
theorem hwIds_fromHw (limit : Nat) :
    hwIds (bdRingFromHw r limit).1 = (hwIds r).drop (bdRingFromHw r limit).2 := by
  have hle := (bdRingFromHw_spec r limit).1
  have hcnt := bdRingFromHw_hwCnt r limit
  by_cases hleft : (bdRingFromHw r limit).2 < r.hwCnt
  · have hhead := bdRingFromHw_hwHead hwf limit hleft
    have hsplit := idsFrom_add r r.hwHead (bdRingFromHw r limit).2
      (r.hwCnt - (bdRingFromHw r limit).2)
    rw [Nat.add_sub_cancel' hle] at hsplit
    unfold hwIds
    rw [hcnt, hhead, hsplit, List.drop_left' (idsFrom_length ..)]
    refine idsFrom_congr (bdRingFromHw_allCnt r limit) fun i _ => ?_
    rw [bdRingFromHw_bd]
  · -- All of them came back.
    have hall : (bdRingFromHw r limit).2 = r.hwCnt := by omega
    have hnone : (bdRingFromHw r limit).1.hwCnt = 0 := by omega
    rw [List.drop_of_length_le (by rw [hwIds_length]; omega)]
    exact List.length_eq_zero_iff.mp (by rw [hwIds_length]; exact hnone)

omit hwf in
/-- Nothing comes back while the oldest descriptor is not finished. -/
theorem bdRingFromHw_of_idle (limit : Nat) (h : (r.bd r.hwHead).complete = false) :
    bdRingFromHw r limit = (r, 0) := by
  have hloop : fromHwLoop r (min limit r.hwCnt) r.hwHead 0 0 = (0, 0) := by
    cases min limit r.hwCnt with
    | zero => rfl
    | succ n => simp only [fromHwLoop, h, if_true]
  unfold bdRingFromHw
  rw [hloop]
  split
  · rfl
  · rfl

end FromHw

section ToHw

/-- Handing over writes nothing but completed bits. -/
theorem clearLoop_bd : ∀ (n : Nat) (r : BdRing) (cur j : Nat),
    (clearLoop n r cur).1.bd j = r.bd j ∨
      (clearLoop n r cur).1.bd j = bdClearComplete (r.bd j) := by
  intro n
  induction n with
  | zero => intro r cur j; exact Or.inl rfl
  | succ n ih =>
      intro r cur j
      simp only [clearLoop]
      split
      · exact Or.inl rfl
      · by_cases hj : j = cur
        · subst hj
          have hone := r.modify_bd_self j bdClearComplete
          -- Clearing twice is clearing once.
          rcases ih (r.modify j bdClearComplete) (r.next j) j with h | h
          · exact Or.inr (h.trans hone)
          · exact Or.inr (h.trans (by rw [hone]; rfl))
        · have hone := r.modify_bd_of_ne bdClearComplete hj
          rw [← hone]
          exact ih _ _ j

theorem bdRingToHw_bd (r : BdRing) (n bd j : Nat) :
    (bdRingToHw r n bd).1.bd j = r.bd j ∨
      (bdRingToHw r n bd).1.bd j = bdClearComplete (r.bd j) := by
  have hloop := clearLoop_bd (n - 1) r bd j
  refine bdRingToHw_cases (fun u => u.bd j = r.bd j ∨ u.bd j = bdClearComplete (r.bd j)) r n bd
    (Or.inl rfl) hloop fun _ _ => ?_
  change ((clearLoop (n - 1) r bd).1.modify _ bdClearComplete).bd j = _ ∨ _
  by_cases hj : j = r.nth bd (n - 1)
  · -- Clearing a descriptor a second time does nothing.
    rw [← hj, BdRing.modify_bd_self]
    rcases hloop with h | h
    · exact Or.inr (by rw [h])
    · exact Or.inr (by rw [h]; rfl)
  · rw [BdRing.modify_bd_of_ne _ _ hj]
    exact hloop

theorem bdRingToHw_maxTransferLen (r : BdRing) (n bd : Nat) :
    (bdRingToHw r n bd).1.maxTransferLen = r.maxTransferLen := by
  have hloop := (clearLoop_spec (n - 1) r bd).1.maxLen
  exact bdRingToHw_cases (fun u => u.maxTransferLen = r.maxTransferLen) r n bd rfl hloop
    fun _ _ => hloop

theorem bdRingToHw_id (r : BdRing) (n bd j : Nat) :
    ((bdRingToHw r n bd).1.bd j).id = (r.bd j).id := by
  rcases bdRingToHw_bd r n bd j with h | h
  · rw [h]
  · rw [h]
    rfl

variable {r r' : BdRing} {n t : Nat}

/-- What a driver may have done to a ring between the allocation of a set and
    handing it over: it wrote into the descriptors of the set. -/
structure Filled (r : BdRing) (n : Nat) (r' : BdRing) : Prop where
  pos : 0 < n
  room : n ≤ r.freeCnt
  groups : r'.toGroups = (allocated r n).toGroups
  outside : ∀ j, (∀ i, i < n → j ≠ r.nth r.freeHead i) → r'.bd j = r.bd j

/-- A descriptor with the hardware is none of a set that was free. -/
theorem hw_ne_free (hwf : r.Wf) {i j : Nat} (hj : j < r.hwCnt) (hi : i < r.freeCnt) :
    r.nth r.hwHead j ≠ r.nth r.freeHead i := by
  have hc := hwf.counts
  rw [hwf.freeHead_eq_nth (by omega), ← r.nth_add]
  intro heq
  have := r.nth_inj hwf.hwHead_lt (by omega) (by omega) heq
  omega

variable (hwf : r.Wf) (hfill : Filled r n r') (ht : 0 < t) (htn : t ≤ n)
  (hok : (bdRingToHw r' t r.freeHead).2 = xstSuccess)

include hwf hfill ht hok

/-- A set can only be handed over when no other one was left behind. -/
theorem Filled.preCnt_eq_zero : r.preCnt = 0 := by
  rcases bdRingToHw_spec r' ht r.freeHead with ⟨hready, -, -⟩ | ⟨-, hbad, -⟩
  · have hhead := hready.head
    rw [hfill.groups] at hhead
    have hroom : 0 < r.freeCnt := Nat.lt_of_lt_of_le hfill.pos hfill.room
    exact (preHead_eq_freeHead_iff hwf hroom).mp hhead
  · exact absurd hok hbad

theorem Filled.toHw_groups : (bdRingToHw r' t r.freeHead).1.toGroups =
    { (allocated r n).toGroups with
      preHead := r.seekahead r.preHead t
      preCnt := n - t
      hwTail := r.nth r.freeHead (t - 1)
      hwCnt := r.hwCnt + t } := by
  have hpre := Filled.preCnt_eq_zero hwf hfill ht hok
  rcases bdRingToHw_spec r' ht r.freeHead with ⟨-, -, hg⟩ | ⟨-, hbad, -⟩
  · rw [hg, hfill.groups]
    have hcnt : (allocated r n).preCnt - t = n - t := by
      change r.preCnt + n - t = n - t
      omega
    rw [hcnt]
    rfl
  · exact absurd hok hbad

include htn

/-- Handing a set over appends the IDs of its descriptors. -/
theorem hwIds_toHw : hwIds (bdRingToHw r' t r.freeHead).1 =
    hwIds r ++ idsFrom r' r.freeHead t := by
  have hpre := Filled.preCnt_eq_zero hwf hfill ht hok
  have hg := Filled.toHw_groups hwf hfill ht hok
  have hroom := hfill.room
  have hall : (bdRingToHw r' t r.freeHead).1.allCnt = r.allCnt := by
    rw [hg]
    rfl
  have hcnt : (bdRingToHw r' t r.freeHead).1.hwCnt = r.hwCnt + t := by rw [hg]
  have hhead : (bdRingToHw r' t r.freeHead).1.hwHead = r.hwHead := by
    rw [hg]
    rfl
  have hfree : r.freeHead = r.nth r.hwHead r.hwCnt := by
    have h := hwf.freeHead_eq_nth (by omega)
    rw [hpre] at h
    exact h
  have hall' : r'.allCnt = r.allCnt := by
    rw [hfill.groups]
    rfl
  unfold hwIds
  rw [hcnt, hhead, idsFrom_add, Groups.nth_congr hall, ← hfree]
  congr 1
  · -- What was with the hardware is not in the set.
    refine idsFrom_congr hall fun j hj => ?_
    rw [bdRingToHw_id, hfill.outside]
    intro i hi
    exact hw_ne_free hwf hj (by omega)
  · refine idsFrom_congr (hall.trans hall'.symm) fun j _ => ?_
    rw [bdRingToHw_id]

end ToHw

/-- The descriptor is with the hardware. -/
def InHw (r : BdRing) (b : Nat) : Prop := ∃ j, j < r.hwCnt ∧ b = r.nth r.hwHead j

section Round

/-- Taking the IDs of `n` descriptors in a row away. -/
def clearIds : Nat → BdRing → Nat → BdRing
  | 0, r, _ => r
  | n + 1, r, bd => clearIds n (r.modify bd (bdSetId none)) (r.next bd)

@[simp]
theorem clearIds_toGroups : ∀ (n : Nat) (r : BdRing) (bd : Nat),
    (clearIds n r bd).toGroups = r.toGroups := by
  intro n
  induction n with
  | zero => intro r bd; rfl
  | succ n ih => intro r bd; exact ih _ _

theorem clearIds_bd_outside : ∀ (n : Nat) (r : BdRing) (bd j : Nat),
    (∀ i, i < n → j ≠ r.nth bd i) → (clearIds n r bd).bd j = r.bd j := by
  intro n
  induction n with
  | zero => intro r bd j _; rfl
  | succ n ih =>
      intro r bd j hout
      simp only [clearIds]
      rw [ih _ (r.next bd) j]
      · exact r.modify_bd_of_ne _ (hout 0 (Nat.succ_pos n))
      · intro i hi
        exact hout (i + 1) (Nat.succ_lt_succ hi)

theorem clearIds_id_none : ∀ (n : Nat) (r : BdRing) (bd j : Nat),
    (r.bd j).id = none ∨ (∃ i, i < n ∧ j = r.nth bd i) → ((clearIds n r bd).bd j).id = none := by
  intro n
  induction n with
  | zero =>
      rintro r bd j (h | ⟨i, hi, -⟩)
      · exact h
      · exact absurd hi (Nat.not_lt_zero i)
  | succ n ih =>
      intro r bd j h
      simp only [clearIds]
      refine ih _ (r.next bd) j ?_
      by_cases hj : j = bd
      · refine Or.inl ?_
        rw [hj, r.modify_bd_self]
        rfl
      · rcases h with h | ⟨i, hi, heq⟩
        · exact Or.inl (by rw [r.modify_bd_of_ne _ hj]; exact h)
        · cases i with
          | zero => exact absurd heq hj
          | succ i => exact Or.inr ⟨i, Nat.lt_of_succ_lt_succ hi, heq⟩

/-- Within one turn, the descriptors behind a cleared one are as before. -/
theorem idsFrom_next_cleared (r : BdRing) {bd n : Nat} (hbd : bd < r.allCnt)
    (hn : n + 1 ≤ r.allCnt) :
    idsFrom (r.modify bd (bdSetId none)) (r.next bd) n = idsFrom r (r.next bd) n := by
  have hall : (r.modify bd (bdSetId none)).allCnt = r.allCnt := rfl
  refine idsFrom_congr hall fun i hi => ?_
  rw [r.modify_bd_of_ne]
  intro heq
  have hturn : i + 1 = 0 := r.nth_inj hbd (by omega) (by omega) heq
  omega

theorem idsFrom_succ (r : BdRing) (bd n : Nat) :
    idsFrom r bd (n + 1) = (r.bd bd).id :: idsFrom r (r.next bd) n := by
  rw [Nat.add_comm, idsFrom_add]
  rfl

/-- What a bottom half does to a ring in one round: descriptors come back, lose
    their IDs and are free again. -/
def roundRing (r : BdRing) (limit : Nat) : BdRing × Int :=
  bdRingFree (clearIds (bdRingFromHw r limit).2 (bdRingFromHw r limit).1 r.hwHead)
    (bdRingFromHw r limit).2 r.hwHead

variable {r : BdRing} (hwf : r.Wf) (hpost : r.postCnt = 0) (limit : Nat)

include hwf

theorem roundRing_wf : (roundRing r limit).1.Wf := by
  refine bdRingFree_wf _ _ ?_
  rw [clearIds_toGroups]
  exact bdRingFromHw_wf limit hwf

/-- A descriptor that is still with the hardware is none of those taken back. -/
theorem left_ne_taken {i j : Nat} (hj : j < (bdRingFromHw r limit).1.hwCnt)
    (hi : i < (bdRingFromHw r limit).2) :
    (bdRingFromHw r limit).1.nth (bdRingFromHw r limit).1.hwHead j ≠
      (bdRingFromHw r limit).1.nth r.hwHead i := by
  have hc := hwf.counts
  have hle := (bdRingFromHw_spec r limit).1
  have hall := bdRingFromHw_allCnt r limit
  rw [bdRingFromHw_hwCnt] at hj
  rw [Groups.nth_congr hall, Groups.nth_congr hall, bdRingFromHw_hwHead hwf limit (by omega),
    ← r.nth_add]
  intro heq
  have := r.nth_inj hwf.hwHead_lt (by omega) (by omega) heq
  omega

include hpost

theorem postHead_eq_hwHead : r.postHead = r.hwHead := by
  have hlt := hwf.post
  rw [hwf.hw, hpost]
  unfold Groups.seekahead
  rw [Nat.add_zero, if_neg (by omega)]

/-- What comes back in a round is at the head of its group and all there is. -/
theorem roundRing_spec : (roundRing r limit).2 = xstSuccess ∧
    (roundRing r limit).1.bd =
      (clearIds (bdRingFromHw r limit).2 (bdRingFromHw r limit).1 r.hwHead).bd ∧
    (roundRing r limit).1.toGroups = { (bdRingFromHw r limit).1.toGroups with
      freeCnt := r.freeCnt + (bdRingFromHw r limit).2
      postCnt := 0
      postHead := (roundRing r limit).1.postHead } := by
  have hhead := postHead_eq_hwHead hwf hpost
  have hspec := (bdRingFromHw_spec r limit).2
  have hg : (bdRingFromHw r limit).1.postCnt = (bdRingFromHw r limit).2 ∧
      (bdRingFromHw r limit).1.postHead = r.hwHead ∧
      (bdRingFromHw r limit).1.freeCnt = r.freeCnt := by
    rw [hspec]
    refine ⟨?_, hhead, rfl⟩
    change r.postCnt + (bdRingFromHw r limit).2 = _
    omega
  unfold roundRing bdRingFree
  generalize (bdRingFromHw r limit).2 = n at hg ⊢
  generalize (bdRingFromHw r limit).1 = r1 at hg ⊢
  rcases hg with ⟨hcnt, hph, hfree⟩
  have hgr := clearIds_toGroups n r1 r.hwHead
  by_cases hz : n = 0
  · rw [if_pos hz]
    refine ⟨rfl, rfl, ?_⟩
    have hc0 : r1.postCnt = 0 := by omega
    have hf0 : r.freeCnt + n = r1.freeCnt := by omega
    rw [hf0, ← hc0, hgr]
  -- The post group is exactly what was taken back, so the free call cannot be refused.
  · have hsync : ¬ ((clearIds n r1 r.hwHead).postCnt < n ∨
        (clearIds n r1 r.hwHead).postHead ≠ r.hwHead) := by
      rw [hgr]
      rintro (hlt | hne)
      · omega
      · exact hne hph
    rw [if_neg hz, if_neg hsync]
    refine ⟨rfl, rfl, ?_⟩
    simp only [hgr, hcnt, hfree, Nat.sub_self]

/-- A round drops IDs at the front of the queue and does nothing else to it. -/
theorem hwIds_round : hwIds (roundRing r limit).1 = (hwIds r).drop (bdRingFromHw r limit).2 := by
  rcases roundRing_spec hwf hpost limit with ⟨-, hbd, hg⟩
  rw [← hwIds_fromHw hwf limit]
  refine hwIds_congr ?_ ?_ ?_ ?_
  · rw [hg]
  · rw [hg]
  · rw [hg]
  · intro j hj
    rw [hbd, clearIds_bd_outside]
    intro i hi
    exact left_ne_taken hwf limit hj hi

/-- After a round a descriptor that is not with the hardware has no ID, if that
    was so before. -/
theorem roundRing_outside (hout : ∀ b, b < r.allCnt → ¬ InHw r b → (r.bd b).id = none) :
    ∀ b, b < r.allCnt → ¬ InHw (roundRing r limit).1 b →
      ((roundRing r limit).1.bd b).id = none := by
  intro b hb hno
  rcases roundRing_spec hwf hpost limit with ⟨-, hbd, hg⟩
  have hall := bdRingFromHw_allCnt r limit
  have hle := (bdRingFromHw_spec r limit).1
  rw [hbd]
  refine clearIds_id_none _ _ _ _ ?_
  rw [bdRingFromHw_bd]
  by_cases hin : InHw r b
  · -- It was among those taken back, or it would still be with the hardware.
    rcases hin with ⟨j, hj, heq⟩
    by_cases htaken : j < (bdRingFromHw r limit).2
    · exact Or.inr ⟨j, htaken, by rw [Groups.nth_congr hall]; exact heq⟩
    · refine absurd ⟨j - (bdRingFromHw r limit).2, ?_, ?_⟩ hno
      · rw [hg]
        change _ < (bdRingFromHw r limit).1.hwCnt
        rw [bdRingFromHw_hwCnt]
        omega
      · rw [hg]
        change b = (bdRingFromHw r limit).1.nth (bdRingFromHw r limit).1.hwHead _
        rw [Groups.nth_congr hall, bdRingFromHw_hwHead hwf limit (by omega), ← r.nth_add,
          Nat.add_sub_cancel' (by omega)]
        exact heq
  · exact Or.inl (hout b hb hin)

end Round

/-- How many descriptors of the ring carry the ID. -/
def holders (r : BdRing) (id : Nat) : Nat :=
  (List.range r.allCnt).countP fun b => (r.bd b).id == some id

/-- If only descriptors with the hardware carry IDs, the queue counts them. -/
theorem holders_eq_count {r : BdRing} (hwf : r.Wf)
    (hout : ∀ b, b < r.allCnt → ¬ InHw r b → (r.bd b).id = none) (id : Nat) :
    holders r id = (hwIds r).count (some id) := by
  have hc := hwf.counts
  -- The descriptors with the hardware, as they lie around the ring.
  have hnodup : ((List.range r.hwCnt).map (r.nth r.hwHead)).Nodup := by
    refine List.Nodup.map_on ?_ List.nodup_range
    intro i hi j hj heq
    rw [List.mem_range] at hi hj
    exact r.nth_inj hwf.hwHead_lt (by omega) (by omega) heq
  have hperm : ((List.range r.allCnt).filter fun b => (r.bd b).id == some id).Perm
      (((List.range r.hwCnt).map (r.nth r.hwHead)).filter fun b => (r.bd b).id == some id) := by
    rw [List.perm_ext_iff_of_nodup (List.nodup_range.filter _) (hnodup.filter _)]
    intro b
    simp only [List.mem_filter, List.mem_range, List.mem_map, beq_iff_eq]
    constructor
    · rintro ⟨hb, hid⟩
      refine ⟨?_, hid⟩
      by_contra hno
      have hnone := hout b hb fun ⟨j, hj, hbj⟩ => hno ⟨j, hj, hbj.symm⟩
      rw [hnone] at hid
      exact absurd hid (by simp only [reduceCtorEq, not_false_eq_true])
    · rintro ⟨⟨j, -, rfl⟩, hid⟩
      exact ⟨r.nth_lt hwf.hwHead_lt j, hid⟩
  unfold holders hwIds idsFrom
  rw [List.count, List.countP_map, List.countP_eq_length_filter, hperm.length_eq,
    ← List.countP_eq_length_filter, List.countP_map]
  rfl

end Driver

end Ml605
