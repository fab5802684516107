import Ml605.Driver.BdVisible

/-!
# The Completed Bits of a Ring

Every descriptor has a bit that the hardware sets when it is done with it. The bit
stays set when the descriptor comes back and is used again, until it is handed
over once more. So a descriptor outside the hardware group may or may not have
it.

Counted from the head of the hardware group, the descriptors without the bit are
nevertheless those between two positions. The first of them is the oldest one that
the hardware has not dealt with. Behind the hardware group there may be more: those
that have never been used, and those of a set that was refused half way.

## Main definitions

* `Marks`: The descriptors without the bit are those from `d` up to `f`.

## Theorems

* `nth_turn`: A full turn leads back.
* `Marks.toHw`, `Marks.fromHw`, `Marks.process`: What becomes of the two positions.
* `Marks.first`: What a walk along the ring finds.
-/

namespace Ml605

namespace Driver

/-- A full turn leads back. -/
theorem Groups.nth_turn (g : Groups) {bd : Nat} (hbd : bd < g.allCnt) (i : Nat) :
    g.nth bd (g.allCnt + i) = g.nth bd i := by
  have hlast : g.nth bd g.allCnt = bd := by
    have hsplit : g.allCnt = g.allCnt - 1 + 1 := by omega
    rw [hsplit, g.nth_add, g.nth_eq_seekahead hbd _ (by omega)]
    change g.next _ = bd
    unfold Groups.next Groups.seekahead
    split <;> split <;> omega
  rw [g.nth_add, hlast]

/-- Up to a full turn, moving ahead is stepping. -/
theorem Groups.seekahead_eq_nth (g : Groups) {bd k : Nat} (hbd : bd < g.allCnt)
    (hk : k ≤ g.allCnt) : g.seekahead bd k = g.nth bd k := by
  by_cases hall : k < g.allCnt
  · exact (g.nth_eq_seekahead hbd k hall).symm
  · have hfull : k = g.allCnt + 0 := by omega
    rw [hfull, g.nth_turn hbd 0]
    change (if bd + (g.allCnt + 0) ≥ g.allCnt then _ else _) = bd
    rw [if_pos (by omega)]
    omega

/-- Every descriptor is met on the way around. -/
theorem Groups.exists_nth (g : Groups) {bd i : Nat} (hbd : bd < g.allCnt) (hi : i < g.allCnt) :
    ∃ p, p < g.allCnt ∧ g.nth bd p = i := by
  by_cases hle : bd ≤ i
  · refine ⟨i - bd, by omega, ?_⟩
    rw [g.nth_eq_seekahead hbd _ (by omega), Groups.seekahead, if_neg (by omega)]
    omega
  · refine ⟨i + g.allCnt - bd, by omega, ?_⟩
    rw [g.nth_eq_seekahead hbd _ (by omega), Groups.seekahead, if_pos (by omega)]
    omega

/-- The descriptors without the completed bit, counted from the head of the hardware
    group: the hardware has dealt with the first `d` of the group. -/
structure Marks (r : BdRing) (d f : Nat) : Prop where
  done : d ≤ r.hwCnt
  handed : r.hwCnt ≤ f
  turn : f ≤ r.allCnt
  bits : ∀ m, m < r.allCnt → ((r.bd (r.nth r.hwHead m)).complete = false ↔ d ≤ m ∧ m < f)

section Loops

/-- The loop clears the bits of the descriptors that it passes, and no others. -/
theorem clearLoop_clears : ∀ (n : Nat) (r : BdRing) (cur : Nat), ∃ q, q ≤ n ∧
    ((clearLoop n r cur).2.2 = true → q = n) ∧
    (∀ i, i < q → ((clearLoop n r cur).1.bd (r.nth cur i)).complete = false) ∧
    ∀ j, (∀ i, i < q → j ≠ r.nth cur i) → (clearLoop n r cur).1.bd j = r.bd j := by
  intro n
  induction n with
  | zero =>
      intro r cur
      exact ⟨0, Nat.le_refl 0, fun _ => rfl, fun i hi => absurd hi (Nat.not_lt_zero i),
        fun j _ => rfl⟩
  | succ n ih =>
      intro r cur
      simp only [clearLoop]
      by_cases hz : (r.bd cur).len = 0
      · rw [if_pos hz]
        exact ⟨0, Nat.zero_le _, fun hc => absurd hc Bool.false_ne_true,
          fun i hi => absurd hi (Nat.not_lt_zero i), fun j _ => rfl⟩
      · rw [if_neg hz]
        rcases ih (r.modify cur bdClearComplete) (r.next cur) with ⟨q, hq, hall, hin, hout⟩
        refine ⟨q + 1, by omega, fun hc => by rw [hall hc], ?_, ?_⟩
        · intro i hi
          cases i with
          | zero =>
              -- The rest of the loop can only clear it once more.
              have hself := r.modify_bd_self cur bdClearComplete
              change (BdRing.bd _ cur).complete = false
              rcases clearLoop_bd n (r.modify cur bdClearComplete) (r.next cur) cur with h | h
              · rw [h, hself]
                rfl
              · rw [h]
                rfl
          | succ i => exact hin i (by omega)
        · intro j hj
          have hne : j ≠ cur := hj 0 (by omega)
          rw [hout j fun i hi => hj (i + 1) (by omega), r.modify_bd_of_ne _ hne]

/-- Everything that the search counts has the bit. -/
theorem fromHwLoop_complete (r : BdRing) : ∀ (n cur count part j : Nat),
    count + j < (fromHwLoop r n cur count part).1 → (r.bd (r.nth cur j)).complete = true := by
  intro n
  induction n with
  | zero => intro cur count part j h; exact absurd h (by simp only [fromHwLoop]; omega)
  | succ n ih =>
      intro cur count part j h
      simp only [fromHwLoop] at h
      by_cases hdone : (r.bd cur).complete = false
      · rw [if_pos hdone] at h
        simp only at h
        omega
      · rw [if_neg hdone] at h
        rw [Bool.not_eq_false] at hdone
        cases j with
        | zero => exact hdone
        | succ j =>
            by_cases hend : cur = r.hwTail
            · rw [if_pos hend] at h
              simp only at h
              omega
            · rw [if_neg hend] at h
              exact ih (r.next cur) (count + 1) _ j (by rw [Nat.add_right_comm]; exact h)

end Loops

/-- The outcomes of handing a set over. -/
theorem bdRingToHw_outcomes (P : BdRing × Int → Prop) (r : BdRing) {n : Nat} (hn : 0 < n)
    (bd : Nat) (hkeep : ∀ st, st ≠ xstSuccess → P (r, st))
    (hloop : n ≤ r.preCnt → r.preHead = bd →
      ∀ st, st ≠ xstSuccess → P ((clearLoop (n - 1) r bd).1, st))
    (hdone : n ≤ r.preCnt → r.preHead = bd → (clearLoop (n - 1) r bd).2.2 = true →
      P ({ (clearLoop (n - 1) r bd).1.modify (r.nth bd (n - 1)) bdClearComplete with
        toGroups := { r.toGroups with
          preHead := r.seekahead r.preHead n
          preCnt := r.preCnt - n
          hwTail := r.nth bd (n - 1)
          hwCnt := r.hwCnt + n } }, xstSuccess)) :
    P (bdRingToHw r n bd) := by
  have hfail : xstFailure ≠ xstSuccess := by decide
  have hlist : xstDmaSgListError ≠ xstSuccess := by decide
  simp only [bdRingToHw]
  rw [if_neg (by omega)]
  by_cases hsync : r.preCnt < n ∨ r.preHead ≠ bd
  · rw [if_pos hsync]
    exact hkeep _ hlist
  rw [if_neg hsync]
  rw [not_or, Nat.not_lt, Ne, not_not] at hsync
  by_cases hsof : r.isRxChannel = false ∧ (r.bd bd).sof = false
  · rw [if_pos hsof]
    exact hkeep _ hfail
  rw [if_neg hsof]
  have hloop := hloop hsync.1 hsync.2
  have hdone := hdone hsync.1 hsync.2
  rcases clearLoop_spec (n - 1) r bd with ⟨hup, -, hend⟩
  -- The loop may stop at an empty descriptor; the last one of the set is looked at by itself.
  generalize clearLoop (n - 1) r bd = res at hloop hdone hup hend ⊢
  rcases res with ⟨r', cur, ok⟩
  cases ok with
  | false => exact hloop _ hfail
  | true =>
      have hcur : cur = r.nth bd (n - 1) := hend rfl
      simp only at hloop hup ⊢
      split
      · exact hloop _ hfail
      split
      · exact hloop _ hfail
      have hsame : r'.toGroups = r.toGroups := hup.groups
      cases r'
      subst hsame hcur
      exact hdone rfl

namespace Marks

variable {r : BdRing} {d f : Nat}

/-- What matters is the hardware group and the bits. -/
theorem congr (h : Marks r d f) {r' : BdRing} (hall : r'.allCnt = r.allCnt)
    (hhead : r'.hwHead = r.hwHead) (hcnt : r'.hwCnt = r.hwCnt)
    (hbits : ∀ j, (r'.bd j).complete = (r.bd j).complete) : Marks r' d f := by
  refine ⟨hcnt ▸ h.done, hcnt ▸ h.handed, hall ▸ h.turn, ?_⟩
  intro m hm
  rw [Groups.nth_congr hall, hhead, hbits]
  exact h.bits m (hall ▸ hm)

/-- The bits after `q` descriptors behind the hardware group have been cleared. -/
theorem clear (hwf : r.Wf) (h : Marks r d f) {q : Nat} (hq : r.hwCnt + q ≤ r.allCnt)
    (hpos : r.hwCnt < r.allCnt) {b : Nat → Bd}
    (hin : ∀ i, i < q → (b (r.nth r.preHead i)).complete = false)
    (hout : ∀ j, (∀ i, i < q → j ≠ r.nth r.preHead i) → (b j).complete = (r.bd j).complete) :
    ∀ m, m < r.allCnt → ((b (r.nth r.hwHead m)).complete = false ↔
      d ≤ m ∧ m < max f (r.hwCnt + q)) := by
  have hdone := h.done
  have hhanded := h.handed
  have hjoin : r.nth r.hwHead r.hwCnt = r.preHead := by
    rw [r.nth_eq_seekahead hwf.hwHead_lt _ hpos, ← hwf.pre]
  have hpre : ∀ i, r.nth r.preHead i = r.nth r.hwHead (r.hwCnt + i) := by
    intro i
    rw [r.nth_add, hjoin]
  intro m hm
  by_cases hset : r.hwCnt ≤ m ∧ m < r.hwCnt + q
  · have hclear := hin (m - r.hwCnt) (by omega)
    rw [hpre, Nat.add_sub_cancel' hset.1] at hclear
    rw [hclear]
    exact ⟨fun _ => ⟨by omega, by omega⟩, fun _ => rfl⟩
  · rw [hout, h.bits m hm]
    · omega
    · intro i hi heq
      rw [hpre] at heq
      have := r.nth_inj hwf.hwHead_lt hm (by omega) heq
      omega

/-- Handing over clears the bits of the set, or of its beginning if it is refused. -/
theorem toHw (hwf : r.Wf) (h : Marks r d f) (n bd : Nat) :
    ∃ f', Marks (bdRingToHw r n bd).1 d f' := by
  rcases Nat.eq_zero_or_pos n with rfl | hn
  · exact ⟨f, h⟩
  have hdone := h.done
  have hhanded := h.handed
  have hturn := h.turn
  have hcounts := hwf.counts
  refine bdRingToHw_outcomes (fun res => ∃ f', Marks res.1 d f') r hn bd
    (fun _ _ => ⟨f, h⟩) ?_ ?_
  · rintro hcnt rfl st -
    rcases clearLoop_clears (n - 1) r r.preHead with ⟨q, hq, -, hin, hout⟩
    have hsame := (clearLoop_spec (n - 1) r r.preHead).1.groups
    have hbits := h.clear hwf (q := q) (by omega) (by omega) hin fun j hj => by rw [hout j hj]
    refine ⟨max f (r.hwCnt + q), ?_, ?_, ?_, ?_⟩ <;> simp only [hsame]
    · exact hdone
    · omega
    · omega
    · exact hbits
  · rintro hcnt rfl hok
    rcases clearLoop_clears (n - 1) r r.preHead with ⟨q, -, hall, hin, hout⟩
    obtain rfl := hall hok
    -- The last descriptor of the set is cleared behind the loop.
    have hbits := h.clear hwf (q := n) (by omega) (by omega)
      (b := ((clearLoop (n - 1) r r.preHead).1.modify (r.nth r.preHead (n - 1))
        bdClearComplete).bd)
      (fun i hi => by
        by_cases hlast : r.nth r.preHead i = r.nth r.preHead (n - 1)
        · rw [hlast, BdRing.modify_bd_self]
          rfl
        · rw [BdRing.modify_bd_of_ne _ _ hlast]
          refine hin i ?_
          by_contra hc
          exact hlast (congrArg _ (by omega)))
      (fun j hj => by
        rw [BdRing.modify_bd_of_ne _ _ (hj (n - 1) (by omega)),
          hout j fun i hi => hj i (by omega)])
    refine ⟨max f (r.hwCnt + n), ?_, ?_, ?_, hbits⟩
    · change d ≤ r.hwCnt + n
      omega
    · change r.hwCnt + n ≤ _
      omega
    · change _ ≤ r.allCnt
      omega

/-- No more comes back than the hardware has dealt with. -/
theorem fromHw_le (h : Marks r d f) (hwf : r.Wf) (limit : Nat) : (bdRingFromHw r limit).2 ≤ d := by
  have hhanded := h.handed
  have hcounts := hwf.counts
  have hle := (bdRingFromHw_spec r limit).1
  by_contra hc
  -- The descriptor at `d` would have been counted.
  have hcounted : d < (fromHwLoop r (min limit r.hwCnt) r.hwHead 0 0).1 := by
    simp only [bdRingFromHw] at hc
    split at hc
    · exact absurd (Nat.zero_le d) hc
    · split at hc
      · exact absurd (Nat.zero_le d) hc
      · simp only at hc
        omega
  have hbit := fromHwLoop_complete r _ _ _ _ d (by rw [Nat.zero_add]; exact hcounted)
  have hopen := (h.bits d (by omega)).mpr ⟨Nat.le_refl d, by omega⟩
  rw [hbit] at hopen
  exact Bool.noConfusion hopen

theorem fromHw_hwHead (hwf : r.Wf) (limit : Nat) : (bdRingFromHw r limit).1.hwHead =
    r.nth r.hwHead (bdRingFromHw r limit).2 := by
  have hcounts := hwf.counts
  rcases bdRingFromHw_spec r limit with ⟨hle, heq⟩
  generalize (bdRingFromHw r limit).2 = k at hle heq ⊢
  rw [heq]
  change (if k = 0 then r.hwHead else r.seekahead r.hwHead k) = r.nth r.hwHead k
  by_cases hz : k = 0
  · rw [if_pos hz, hz]
    rfl
  · rw [if_neg hz]
    exact r.seekahead_eq_nth hwf.hwHead_lt (by omega)

/-- What comes back has the bit, and is now behind everything else. -/
theorem fromHw (hwf : r.Wf) (h : Marks r d f) (limit : Nat) :
    Marks (bdRingFromHw r limit).1 (d - (bdRingFromHw r limit).2)
      (f - (bdRingFromHw r limit).2) := by
  have hdone := h.done
  have hhanded := h.handed
  have hturn := h.turn
  have hkd := h.fromHw_le hwf limit
  have hhead := fromHw_hwHead hwf limit
  have hcnt := bdRingFromHw_hwCnt r limit
  have hall := bdRingFromHw_allCnt r limit
  have hbd := bdRingFromHw_bd r limit
  generalize (bdRingFromHw r limit).2 = k at hkd hhead hcnt ⊢
  generalize (bdRingFromHw r limit).1 = r' at hhead hcnt hall hbd ⊢
  refine ⟨by omega, by omega, by omega, ?_⟩
  intro m hm
  rw [Groups.nth_congr hall, hhead, hbd, ← r.nth_add]
  rw [hall] at hm
  by_cases hin : k + m < r.allCnt
  · rw [h.bits (k + m) hin]
    omega
  · -- Past the end of the turn are the descriptors that have just come back.
    have hsplit : k + m = r.allCnt + (k + m - r.allCnt) := by omega
    rw [hsplit, r.nth_turn hwf.hwHead_lt, h.bits _ (by omega)]
    omega

/-- The hardware deals with the next descriptor of the group. -/
theorem process (hwf : r.Wf) (h : Marks r d f) (hd : d < r.hwCnt) {g : Bd → Bd}
    (hg : ∀ b, (g b).complete = true) : Marks (r.modify (r.nth r.hwHead d) g) (d + 1) f := by
  have hhanded := h.handed
  have hturn := h.turn
  refine ⟨hd, hhanded, hturn, ?_⟩
  intro m hm
  change ((r.modify (r.nth r.hwHead d) g).bd (r.nth r.hwHead m)).complete = false ↔ _
  by_cases hmd : m = d
  · subst hmd
    rw [r.modify_bd_self, hg]
    exact ⟨fun hc => Bool.noConfusion hc, fun hc => absurd hc.1 (by omega)⟩
  · have hne : r.nth r.hwHead m ≠ r.nth r.hwHead d := fun heq =>
      hmd (r.nth_inj hwf.hwHead_lt hm (by omega) heq)
    rw [r.modify_bd_of_ne g hne, h.bits m hm]
    omega

/-- From a descriptor with the bit, the first one without it is the oldest one, even
    if the way there leads through the other groups. -/
theorem first (hwf : r.Wf) (h : Marks r d f) (hdf : d < f) {p : Nat} (hp : p < r.allCnt)
    (hbit : (r.bd (r.nth r.hwHead p)).complete = true) :
    ∃ k, 0 < k ∧ k < r.allCnt ∧ r.nth (r.nth r.hwHead p) k = r.nth r.hwHead d ∧
      ∀ j, j < k → (r.bd (r.nth (r.nth r.hwHead p) j)).complete = true := by
  have hturn := h.turn
  have hout : ¬ (d ≤ p ∧ p < f) := by
    intro hin
    rw [(h.bits p hp).mpr hin] at hbit
    exact Bool.noConfusion hbit
  have hpast : ∀ m, m < r.allCnt → m < d ∨ f ≤ m →
      (r.bd (r.nth r.hwHead m)).complete = true := by
    intro m hm hor
    rw [← Bool.not_eq_false, h.bits m hm]
    omega
  by_cases hpd : p < d
  -- Before the oldest open one: straight ahead.
  · refine ⟨d - p, by omega, by omega, ?_, ?_⟩
    · rw [← r.nth_add, Nat.add_sub_cancel' (by omega)]
    · intro j hj
      rw [← r.nth_add]
      exact hpast (p + j) (by omega) (Or.inl (by omega))
  -- Behind the group: over the end of the ring and round to its start.
  · refine ⟨r.allCnt - p + d, by omega, by omega, ?_, ?_⟩
    · have hsplit : p + (r.allCnt - p + d) = r.allCnt + d := by omega
      rw [← r.nth_add, hsplit, r.nth_turn hwf.hwHead_lt]
    · intro j hj
      rw [← r.nth_add]
      by_cases hin : p + j < r.allCnt
      · exact hpast (p + j) hin (Or.inr (by omega))
      · have hsplit : p + j = r.allCnt + (p + j - r.allCnt) := by omega
        rw [hsplit, r.nth_turn hwf.hwHead_lt]
        exact hpast _ (by omega) (Or.inl (by omega))

end Marks

end Driver

end Ml605
