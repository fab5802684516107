import Ml605.Scst.BlockioBuild

/-!
# Unwinding a Block I/O Command

What `out_no_bio` of `blockio_exec_rw` gives back. Control gets there when the
`scst_aes_work` cannot be allocated, or a bio. The label releases the bios of
the chain and the `scst_blockio_work`, and completes the command as busy.

It knows nothing of what AES adds. If the `scst_aes_work` was allocated it stays
behind, with its tables and with every bounce page that a bio has taken. Those
that were not taken were given back in the loop.

## Main definitions

* `Clean`, `Unwound`: Everything acquired was released once.
* `InLoop`: The books in the segment loop.
* `Booked`: The books, and what they come to at `out_no_bio`.

## Theorems

* `turn_booked`: A round of the loop keeps the books.
* `clean_of_plain`: Without AES the label gives back everything.
* `not_clean_of_aesWork`: It never gives back the AES work.
* `noBio_unwound_iff`: It is clean exactly if there is none.
-/

namespace Ml605

namespace Scst

open Lib

/-- Everything acquired was released exactly once. -/
def Clean (s : Build) : Prop := ∀ o, o ∈ s.acquired → s.released.count o = 1

/-- What is asked of `out_no_bio`. -/
structure Unwound (s : Build) : Prop where
  clean : Clean s
  done : s.done = 1
  busy : s.busy = true

/-- The books in the segment loop: only bounce pages have been given back. -/
structure InLoop (c : ExecRw) (acquired released : List Obj) (bios done : Nat) : Prop where
  plain : c.aes = false →
    acquired = .work :: (List.range bios).map Obj.bio ∧ released = []
  aes : c.aes = true → Obj.aesWork ∈ acquired
  pages : ∀ o, o ∈ released → ∃ n, o = .page n
  done : done = 0

/-- The books in the loop, and what they come to at `out_no_bio`. -/
structure Booked (c : ExecRw) (a : Allocs) (s : Build) : Prop where
  loop : ∀ e cur rest, s.phase = .segment e cur rest →
    InLoop c s.acquired s.released s.chain.length s.done
  out : s.phase = .noBio → (Unwound s ↔ c.aes = false ∨ a.aes = false)

section Label

variable {c : ExecRw} {s : Build}

/-- Without AES the label gives back everything. -/
theorem clean_of_plain
    (hacquired : s.acquired = Obj.work :: (List.range s.chain.length).map Obj.bio)
    (hreleased : s.released = []) : Clean (outNoBio s) := by
  have hbios : ((List.range s.chain.length).map Obj.bio).Nodup :=
    List.nodup_range.map fun _ _ h => Obj.bio.inj h
  have hwork : Obj.work ∉ (List.range s.chain.length).map Obj.bio := by
    intro hmem
    rcases List.mem_map.mp hmem with ⟨n, -, hn⟩
    exact nomatch hn
  have hperm : (outNoBio s).released.Perm s.acquired := by
    rw [hacquired]
    change (s.released ++ (List.range s.chain.length).map Obj.bio ++ [Obj.work]).Perm _
    rw [hreleased, List.nil_append]
    exact List.perm_append_singleton _ _
  have hnodup : s.acquired.Nodup := by
    rw [hacquired]
    exact List.nodup_cons.mpr ⟨hwork, hbios⟩
  intro o ho
  rw [hperm.count_eq]
  exact List.count_eq_one_of_mem hnodup ho

/-- The label does not give back the AES work. -/
theorem not_clean_of_aesWork (hmem : Obj.aesWork ∈ s.acquired)
    (hpages : ∀ o, o ∈ s.released → ∃ n, o = .page n) : ¬ Clean (outNoBio s) := by
  intro hclean
  have hcount := hclean .aesWork hmem
  have hin : Obj.aesWork ∈ (outNoBio s).released := by
    rw [← List.count_pos_iff, hcount]
    exact Nat.one_pos
  change Obj.aesWork ∈ s.released ++ (List.range s.chain.length).map Obj.bio ++ [.work] at hin
  rw [List.mem_append, List.mem_append] at hin
  rcases hin with (hpage | hbio) | hwork
  · rcases hpages _ hpage with ⟨n, hn⟩
    exact nomatch hn
  · rcases List.mem_map.mp hbio with ⟨n, -, hn⟩
    exact nomatch hn
  · exact nomatch List.mem_singleton.mp hwork

/-- What the books of the loop come to at the label. -/
theorem unwound_iff (h : InLoop c s.acquired s.released s.chain.length s.done) :
    Unwound (outNoBio s) ↔ c.aes = false := by
  have hdone : (outNoBio s).done = 1 := by
    change s.done + 1 = 1
    rw [h.done]
  constructor
  · intro hunwound
    by_contra haes
    exact not_clean_of_aesWork (h.aes (Bool.eq_true_of_not_eq_false haes)) h.pages hunwound.clean
  · intro hplain
    rcases h.plain hplain with ⟨hacquired, hreleased⟩
    exact ⟨clean_of_plain hacquired hreleased, hdone, rfl⟩

end Label

section Rounds

variable {c : ExecRw} {a : Allocs} {s : Build} {e : Extent} {cur : Cursor} {rest : List Extent}
  {ag : Option Page}

theorem withBio_inLoop (cur : Cursor) (h : InLoop c s.acquired s.released s.chain.length s.done) :
    InLoop c (withBio c cur s).acquired (withBio c cur s).released (withBio c cur s).chain.length
      (withBio c cur s).done := by
  unfold withBio
  cases s.needNewBio with
  | false => exact h
  | true =>
      refine ⟨fun hplain => ⟨?_, (h.plain hplain).2⟩, fun haes => ?_, h.pages, h.done⟩
      · change s.acquired ++ [.bio s.chain.length] =
          .work :: (List.range (s.chain.length + 1)).map Obj.bio
        rw [(h.plain hplain).1, List.range_succ, List.map_append]
        rfl
      · exact List.mem_append_left _ (h.aes haes)

theorem pageObj_page : ∀ o, o ∈ pageObj ag → ∃ n, o = .page n := by
  intro o ho
  unfold pageObj at ho
  split at ho
  · rename_i n
    exact ⟨n, List.mem_singleton.mp ho⟩
  · exact nomatch ho

theorem withPage_inLoop (h : InLoop c s.acquired s.released s.chain.length s.done)
    (hag : c.aes = false → ag = none) :
    InLoop c (withPage ag s).acquired (withPage ag s).released (withPage ag s).chain.length
      (withPage ag s).done := by
  refine ⟨fun hplain => ⟨?_, (h.plain hplain).2⟩, fun haes => ?_, h.pages, h.done⟩
  · change s.acquired ++ pageObj ag = _
    rw [hag hplain]
    change s.acquired ++ [] = _
    rw [List.append_nil]
    exact (h.plain hplain).1
  · exact List.mem_append_left _ (h.aes haes)

theorem bouncePage_plain (ok : Bool) (hplain : c.aes = false) : bouncePage c ok s = none := by
  rw [bouncePage, hplain, Bool.false_and]
  rfl

/-- Behind the loop the books are closed. -/
theorem booked_of_end (h : s.phase = .built ∨ s.phase = .oops) : Booked c a s := by
  constructor
  · intro e cur rest hseg
    rw [hseg] at h
    exact h.elim nofun nofun
  · intro hout
    rw [hout] at h
    exact h.elim nofun nofun

theorem nextExtent_booked (h : InLoop c s.acquired s.released s.chain.length s.done) :
    Booked c a (nextExtent c s rest) := by
  cases rest with
  | nil => exact booked_of_end (finish_phase c s)
  | cons e rest => exact ⟨fun _ _ _ _ => h, nofun⟩

/-- Nothing is acquired or released behind a piece that was taken. -/
theorem advance_booked (h : InLoop c s.acquired s.released s.chain.length s.done) :
    Booked c a (advance c e cur rest s) := by
  unfold advance
  by_cases hmore : cur.bytes < cur.len
  · rw [dif_pos hmore]
    exact ⟨fun _ _ _ _ => h, nofun⟩
  · rw [dif_neg hmore]
    exact nextExtent_booked h

theorem addVec_length (v : SgItem) (chain : List Bio) : (addVec v chain).length = chain.length := by
  cases chain <;> rfl

theorem fillTables_books {s' : Build} {p : Piece} (hfill : fillTables c p ag s = some s') :
    s'.acquired = s.acquired ∧ s'.released = s.released ∧ s'.chain = s.chain ∧
      s'.done = s.done := by
  unfold fillTables at hfill
  split at hfill
  · rw [← Option.some.inj hfill]
    exact ⟨rfl, rfl, rfl, rfl⟩
  · exact nomatch hfill

theorem accepted_booked (h : InLoop c s.acquired s.released s.chain.length s.done) :
    Booked c a (accepted c e cur rest ag s) := by
  unfold accepted
  split
  · split
    · rename_i s' hfill
      rcases fillTables_books hfill with ⟨hacquired, hreleased, hchain, hdone⟩
      refine advance_booked ?_
      rw [hacquired, hreleased, hchain, hdone]
      change InLoop c s.acquired s.released (addVec (cur.piece.item ag) s.chain).length s.done
      rw [addVec_length]
      exact h
    · exact ⟨nofun, nofun⟩
  · refine advance_booked ?_
    change InLoop c s.acquired s.released (addVec _ s.chain).length s.done
    rw [addVec_length]
    exact h

/-- A round of the loop keeps the books. -/
theorem turn_booked (t : Turn) (h : InLoop c s.acquired s.released s.chain.length s.done)
    (hloop : c.aes = true → a.aes = true) : Booked c a (turn c t e cur rest s) := by
  unfold turn
  split
  · -- With AES on the loop is not entered without the work, so the label misses it.
    refine ⟨nofun, fun _ => (unwound_iff h).trans ?_⟩
    constructor
    · exact Or.inl
    · rintro (hplain | hnone)
      · exact hplain
      · by_contra haes
        rw [hloop (Bool.eq_true_of_not_eq_false haes)] at hnone
        exact nomatch hnone
  · have hready := withPage_inLoop (withBio_inLoop cur h) (bouncePage_plain (s := s) t.page)
    cases t.accepted with
    | true => exact accepted_booked hready
    | false =>
        -- The page that was taken in this round is given back in it.
        refine ⟨fun _ _ _ _ => ⟨fun hplain => ⟨(hready.plain hplain).1, ?_⟩, hready.aes, ?_,
          hready.done⟩, nofun⟩
        · change s.released ++ pageObj (bouncePage c t.page s) = []
          rw [bouncePage_plain t.page hplain, (h.plain hplain).2]
          rfl
        · intro o ho
          rcases List.mem_append.mp ho with hold | hnew
          · exact h.pages o hold
          · exact pageObj_page o hnew

theorem buildStep_booked (hloop : c.aes = true → a.aes = true) {s' : Build} {t : Turn}
    (h : Booked c a s) (hstep : buildStep c s t = some s') : Booked c a s' := by
  rcases buildStep_segment hstep with ⟨e, cur, rest, hphase, rfl⟩
  exact turn_booked t (h.loop e cur rest hphase) hloop

/-- The books when the loop starts. -/
theorem execRw_booked (hloop : c.aes = true → a.aes = true) : Booked c a (execRw c a) := by
  unfold execRw
  cases a.work with
  | false => exact ⟨nofun, nofun⟩
  | true =>
      cases haes : c.aes with
      | false =>
          refine nextExtent_booked ⟨fun _ => ⟨rfl, rfl⟩, ?_, nofun, rfl⟩
          exact fun h => absurd (haes.symm.trans h) Bool.false_ne_true
      | true =>
          rw [hloop haes]
          refine nextExtent_booked ⟨?_, fun _ => ?_, nofun, rfl⟩
          · exact fun h => absurd (h.symm.trans haes) Bool.false_ne_true
          · exact List.mem_append_left _ (List.mem_append_left _
              (List.mem_append_right _ (List.mem_singleton_self _)))

/-- Without the AES work the label has nothing but the other work to release. -/
theorem execRw_unwound (haes : c.aes = true) (hnone : a.aes = false)
    (hout : (execRw c a).phase = .noBio) : Unwound (execRw c a) := by
  unfold execRw at hout ⊢
  rw [if_pos haes, hnone] at hout ⊢
  cases hwork : a.work with
  | false =>
      rw [hwork] at hout
      exact nomatch hout
  | true => exact ⟨clean_of_plain rfl rfl, rfl, rfl⟩

end Rounds

/-- **What `out_no_bio` gives back.** For every command, however its data is
    split, and every point at which an allocation takes it to the label:
    everything acquired is released once and the command is completed once as
    busy, exactly if AES is off or the allocation was that of the
    `scst_aes_work`. -/
theorem noBio_unwound_iff (c : ExecRw) (a : Allocs) (ts : List Turn) (s : Build)
    (hrun : Run (buildStep c) Free (execRw c a) ts s) (hout : s.phase = .noBio) :
    Unwound s ↔ c.aes = false ∨ a.aes = false := by
  by_cases hloop : c.aes = true → a.aes = true
  · have hbooked := run_inv (fun _ _ _ hu _ hstep => buildStep_booked hloop hu hstep) hrun
      (execRw_booked hloop)
    exact hbooked.out hout
  · -- The function does not get to its loop, so the run is over at its start.
    have haes : c.aes = true := by
      by_contra hne
      exact hloop fun h => absurd h hne
    have hnone : a.aes = false := by
      by_contra hne
      exact hloop fun _ => Bool.eq_true_of_not_eq_false hne
    refine iff_of_true ?_ (Or.inr hnone)
    cases hrun with
    | nil => exact execRw_unwound haes hnone hout
    | cons t ts s u v hstep _ _ =>
        rcases buildStep_segment hstep with ⟨e, cur, rest, hphase, -⟩
        unfold execRw at hphase
        rw [if_pos haes, hnone] at hphase
        cases hwork : a.work with
        | false =>
            rw [hwork] at hphase
            exact nomatch hphase
        | true =>
            rw [hwork] at hphase
            exact nomatch hphase

/-- A write of two pages. -/
def twoPages (aes : Bool) : ExecRw :=
  ⟨true, aes, 0, 9, [⟨0, 0, 8192, Nat.succ_pos 8191, pageSize_pos⟩]⟩

/-- The first page is taken, the second is not, and there is no second bio. -/
def secondBioFails : List Turn := [⟨true, true, true⟩, ⟨true, true, false⟩, ⟨false, true, true⟩]

/-- Without AES everything is given back. -/
theorem noBio_unwound_twoPages :
    ∃ s, Run (buildStep (twoPages false)) Free (execRw (twoPages false) ⟨true, true, true, true⟩)
      secondBioFails s ∧ s.acquired = [.work, .bio 0] ∧ Unwound s := by
  have hrun : Run (buildStep (twoPages false)) Free
      (execRw (twoPages false) ⟨true, true, true, true⟩) secondBioFails _ :=
    run_of_foldlM _ _ (fun _ _ _ => trivial) rfl
  exact ⟨_, hrun, rfl, (noBio_unwound_iff _ _ _ _ hrun rfl).mpr (Or.inl rfl)⟩

/-- With AES the AES work, its tables and the bounce page of the first page are
    left behind. -/
theorem twoPages_leaks :
    ∃ s, Run (buildStep (twoPages true)) Free (execRw (twoPages true) ⟨true, true, true, true⟩)
      secondBioFails s ∧ s.phase = .noBio ∧
      s.acquired = [.work, .aesWork, .srcTbl, .dstTbl, .bio 0, .page 0, .page 1] ∧
      s.released = [.page 1, .bio 0, .work] ∧ ¬ Unwound s := by
  refine ⟨_, run_of_foldlM secondBioFails _ (fun _ _ _ => trivial) rfl, rfl, rfl, rfl, ?_⟩
  intro h
  exact absurd (h.clean .aesWork (by decide)) (by decide)

end Scst

end Ml605
