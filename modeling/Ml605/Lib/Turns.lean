import Mathlib.Data.List.Infix

/-!
# Two Streams Taking Turns

Two streams of frames, every element carrying a flag that is set on the last
one of its frame. A reader takes the elements of one frame of the first stream,
then those of one frame of the second, and so on, and it changes over on the
flag alone: it never sees which frame an element belongs to.

As long as what it takes comes from two lists of frames in order, what it has
put out is a beginning of the frames taken in turns, whatever the moments at
which it takes.

## Main definitions

* `EndsOnly`: The flag is set on the last element and on no other.
* `turns`: The frames of both streams in turns.
* `InTurn`: How far a reader has got.

## Theorems

* `endsOnly_snoc`: Elements without the flag and then one that has it.
* `countP_ends`, `countP_before`: How many elements have the flag.
* `inTurn_start`: A reader that has taken nothing.
* `inTurn_first`, `inTurn_second`: A reader that takes one more element.
* `inTurn_append`: More frames may follow.
* `inTurn_begins`: What has been put out is a beginning of the turns.
* `inTurn_ahead`: The first stream is ahead of the second.
* `inTurn_left`: The stream whose turn it is has more, until all has been put
  out.
* `inTurn_waiting`: It has more of some frames, too, while the second stream
  has.
-/

namespace Ml605

namespace Lib

variable {α β ι : Type}

/-- The flag is set on the last element and on no other, and there is one. -/
structure EndsOnly (last : α → Bool) (l : List α) : Prop where
  ne_nil : l ≠ []
  split : ∀ pre x post, l = pre ++ x :: post → last x = decide (post = [])

/-- Elements without the flag and then one that has it. -/
theorem endsOnly_snoc {last : α → Bool} {body : List α} {tail : α}
    (hbody : ∀ x, x ∈ body → last x = false) (htail : last tail = true) :
    EndsOnly last (body ++ [tail]) := by
  refine ⟨List.append_ne_nil_of_right_ne_nil body (List.cons_ne_nil tail []), ?_⟩
  intro pre x post h
  rcases List.eq_nil_or_concat post with rfl | ⟨ps, y, rfl⟩
  · rw [← List.singleton_injective (List.append_inj' h rfl).2, htail]
    rfl
  · -- With an element after it, `x` is one of the body.
    rw [List.concat_eq_append] at h ⊢
    rw [← List.cons_append, ← List.append_assoc] at h
    have hx := hbody x (by
      rw [(List.append_inj' h rfl).1]
      exact List.mem_append_right pre List.mem_cons_self)
    rw [hx, decide_eq_false (List.append_ne_nil_of_right_ne_nil ps (List.cons_ne_nil y []))]

/-- Before the last element nothing has the flag. -/
theorem countP_before {last : α → Bool} {l pre post : List α} (h : EndsOnly last l)
    (hl : l = pre ++ post) (hpost : post ≠ []) : pre.countP last = 0 := by
  rw [List.countP_eq_zero]
  intro x hx hlast
  rcases List.append_of_mem hx with ⟨as, bs, rfl⟩
  rw [List.append_assoc, List.cons_append] at hl
  rw [h.split as x (bs ++ post) hl] at hlast
  exact List.append_ne_nil_of_right_ne_nil bs hpost (of_decide_eq_true hlast)

/-- One element has the flag. -/
theorem countP_ends {last : α → Bool} {l : List α} (h : EndsOnly last l) : l.countP last = 1 := by
  rcases List.eq_nil_or_concat l with hnil | ⟨pre, x, hl⟩
  · exact absurd hnil h.ne_nil
  · rw [List.concat_eq_append] at hl
    have hbefore := countP_before h hl (List.cons_ne_nil x [])
    have hlast := h.split pre x [] hl
    rw [hl, List.countP_append, hbefore, List.countP_singleton, hlast]
    rfl

variable (f : ι → List α) (g : ι → List β)

/-- The frames of both streams in turns. -/
def turns (fs : List ι) : List (α ⊕ β) :=
  fs.flatMap fun i => (f i).map Sum.inl ++ (g i).map Sum.inr

/-- How far a reader has got through the frames `fs`: whether it is the first
    stream's turn, what it has taken of either, and what it has put out. -/
inductive InTurn (fs : List ι) : Bool → List α → List β → List (α ⊕ β) → Prop
  | finished : InTurn fs true (fs.flatMap f) (fs.flatMap g) (turns f g fs)
  | first (done : List ι) (i : ι) (rest : List ι) (hfs : fs = done ++ i :: rest)
      (pre post : List α) (hi : f i = pre ++ post) (hpost : post ≠ []) :
      InTurn fs true (done.flatMap f ++ pre) (done.flatMap g)
        (turns f g done ++ pre.map Sum.inl)
  | second (done : List ι) (i : ι) (rest : List ι) (hfs : fs = done ++ i :: rest)
      (pre post : List β) (hi : g i = pre ++ post) (hpost : post ≠ []) :
      InTurn fs false (done.flatMap f ++ f i) (done.flatMap g ++ pre)
        (turns f g done ++ (f i).map Sum.inl ++ pre.map Sum.inr)

variable {f g}

theorem turns_append (fs gs : List ι) :
    turns f g (fs ++ gs) = turns f g fs ++ turns f g gs := List.flatMap_append

theorem turns_cons (i : ι) (fs : List ι) :
    turns f g (i :: fs) = (f i).map Sum.inl ++ (g i).map Sum.inr ++ turns f g fs := rfl

variable {lastA : α → Bool} {lastB : β → Bool} {fs : List ι} {b : Bool} {ta : List α}
  {tb : List β} {out : List (α ⊕ β)}

section Taking

variable (hA : ∀ i, EndsOnly lastA (f i)) (hB : ∀ i, EndsOnly lastB (g i))

include hA in
/-- Between two frames of the second stream it is the first one's turn. -/
theorem inTurn_between {done rest : List ι} (hfs : fs = done ++ rest) :
    InTurn f g fs true (done.flatMap f) (done.flatMap g) (turns f g done) := by
  cases rest with
  | nil =>
      rw [List.append_nil] at hfs
      rw [← hfs]
      exact .finished
  | cons i rest =>
      have hfirst := InTurn.first (f := f) (g := g) done i rest hfs [] (f i) rfl (hA i).ne_nil
      rw [List.append_nil, List.map_nil, List.append_nil] at hfirst
      exact hfirst

include hA in
theorem inTurn_start : InTurn f g fs true [] [] [] := inTurn_between hA (List.nil_append fs).symm

include hA hB in
/-- An element of the first stream is taken. -/
theorem inTurn_first (h : InTurn f g fs true ta tb out) {x : α}
    (hx : ta ++ [x] <+: fs.flatMap f) :
    InTurn f g fs (!lastA x) (ta ++ [x]) tb (out ++ [Sum.inl x]) := by
  cases h with
  | finished =>
      -- There is nothing left to take.
      have hlen := hx.length_le
      rw [List.length_append, List.length_singleton] at hlen
      omega
  | first done i rest hfs pre post hi hpost =>
      cases post with
      | nil => exact absurd rfl hpost
      | cons y post =>
          have hxy : x = y := by
            rw [hfs, List.flatMap_append, List.flatMap_cons, hi, List.append_assoc,
              List.append_assoc, List.prefix_append_right_inj, List.prefix_append_right_inj,
              List.cons_append, List.cons_prefix_cons] at hx
            exact hx.1
          subst hxy
          have hlast := (hA i).split pre x post hi
          by_cases hend : post = []
          · -- The frame is complete, and the turn changes.
            rw [hlast, decide_eq_true hend, Bool.not_true]
            have hall : pre ++ [x] = f i := by rw [hi, hend]
            have hnext := InTurn.second (f := f) (g := g) done i rest hfs [] (g i) rfl
              (hB i).ne_nil
            rw [← hall] at hnext
            simp only [List.append_nil, List.map_nil, List.map_append, List.map_cons,
              List.append_assoc] at hnext ⊢
            exact hnext
          · rw [hlast, decide_eq_false hend, Bool.not_false]
            have hi' : f i = (pre ++ [x]) ++ post := by
              rw [hi, List.append_assoc, List.singleton_append]
            have hnext := InTurn.first (f := f) (g := g) done i rest hfs (pre ++ [x]) post hi' hend
            simp only [List.map_append, List.map_cons, List.map_nil, List.append_assoc] at hnext ⊢
            exact hnext

include hA hB in
/-- An element of the second stream is taken. -/
theorem inTurn_second (h : InTurn f g fs false ta tb out) {y : β}
    (hy : tb ++ [y] <+: fs.flatMap g) :
    InTurn f g fs (lastB y) ta (tb ++ [y]) (out ++ [Sum.inr y]) := by
  cases h with
  | second done i rest hfs pre post hi hpost =>
      cases post with
      | nil => exact absurd rfl hpost
      | cons z post =>
          have hyz : y = z := by
            rw [hfs, List.flatMap_append, List.flatMap_cons, hi, List.append_assoc,
              List.append_assoc, List.prefix_append_right_inj, List.prefix_append_right_inj,
              List.cons_append, List.cons_prefix_cons] at hy
            exact hy.1
          subst hyz
          have hlast := (hB i).split pre y post hi
          by_cases hend : post = []
          · -- The next frame starts with the first stream again.
            rw [hlast, decide_eq_true hend]
            have hfs' : fs = (done ++ [i]) ++ rest := by
              rw [hfs, List.append_assoc, List.singleton_append]
            have hnext := inTurn_between (g := g) hA hfs'
            rw [turns_append, turns_cons, hi, hend] at hnext
            simp only [List.flatMap_append, List.flatMap_cons, List.flatMap_nil, List.append_nil,
              turns, hi, hend, List.map_append, List.map_cons, List.map_nil,
              List.append_assoc] at hnext ⊢
            exact hnext
          · rw [hlast, decide_eq_false hend]
            have hi' : g i = (pre ++ [y]) ++ post := by
              rw [hi, List.append_assoc, List.singleton_append]
            have hnext := InTurn.second (f := f) (g := g) done i rest hfs (pre ++ [y]) post hi' hend
            simp only [List.map_append, List.map_cons, List.map_nil, List.append_assoc] at hnext ⊢
            exact hnext

include hA in
/-- More frames may follow. -/
theorem inTurn_append (h : InTurn f g fs b ta tb out) (gs : List ι) :
    InTurn f g (fs ++ gs) b ta tb out := by
  cases h with
  | finished => exact inTurn_between hA rfl
  | first done i rest hfs pre post hi hpost =>
      exact .first done i (rest ++ gs) (by rw [hfs, List.append_assoc, List.cons_append]) pre post
        hi hpost
  | second done i rest hfs pre post hi hpost =>
      exact .second done i (rest ++ gs) (by rw [hfs, List.append_assoc, List.cons_append]) pre post
        hi hpost

end Taking

/-- What has been put out is a beginning of the turns. -/
theorem inTurn_begins (h : InTurn f g fs b ta tb out) : out <+: turns f g fs := by
  cases h with
  | finished => exact List.prefix_rfl
  | first done i rest hfs pre post hi hpost =>
      rw [hfs, turns_append, turns_cons, hi, List.prefix_append_right_inj, List.map_append]
      simp only [List.append_assoc]
      exact List.prefix_append _ _
  | second done i rest hfs pre post hi hpost =>
      rw [hfs, turns_append, turns_cons, hi, List.append_assoc, List.prefix_append_right_inj,
        List.append_assoc, List.prefix_append_right_inj, List.map_append]
      simp only [List.append_assoc]
      exact List.prefix_append _ _

/-- The first stream is ahead: what was taken of the second belongs to frames of
    which all of the first was taken. -/
theorem inTurn_ahead (h : InTurn f g fs b ta tb out) :
    ∃ done rest, fs = done ++ rest ∧ done.flatMap f <+: ta ∧ tb <+: done.flatMap g := by
  cases h with
  | finished => exact ⟨fs, [], (List.append_nil fs).symm, List.prefix_rfl, List.prefix_rfl⟩
  | first done i rest hfs pre post hi hpost =>
      exact ⟨done, i :: rest, hfs, List.prefix_append _ _, List.prefix_rfl⟩
  | second done i rest hfs pre post hi hpost =>
      have hf : (done ++ [i]).flatMap f = done.flatMap f ++ f i := by
        rw [List.flatMap_append, List.flatMap_singleton]
      have hg : (done ++ [i]).flatMap g = done.flatMap g ++ g i := by
        rw [List.flatMap_append, List.flatMap_singleton]
      refine ⟨done ++ [i], rest, ?_, hf ▸ List.prefix_rfl, ?_⟩
      · rw [hfs, List.append_assoc, List.singleton_append]
      · rw [hg, List.prefix_append_right_inj, hi]
        exact List.prefix_append _ _

/-- The stream whose turn it is has more, until all has been put out. -/
theorem inTurn_left (h : InTurn f g fs b ta tb out) (hne : out ≠ turns f g fs) :
    if b then ta ≠ fs.flatMap f else tb ≠ fs.flatMap g := by
  cases h with
  | finished => exact absurd rfl hne
  | first done i rest hfs pre post hi hpost =>
      intro hall
      rw [hfs, List.flatMap_append, List.flatMap_cons, hi, List.append_assoc] at hall
      have hcut := List.append_cancel_left (List.append_cancel_left hall.symm |>.trans
        (List.append_nil pre).symm)
      exact hpost (List.append_eq_nil_iff.mp hcut).1
  | second done i rest hfs pre post hi hpost =>
      intro hall
      rw [hfs, List.flatMap_append, List.flatMap_cons, hi, List.append_assoc] at hall
      have hcut := List.append_cancel_left (List.append_cancel_left hall.symm |>.trans
        (List.append_nil pre).symm)
      exact hpost (List.append_eq_nil_iff.mp hcut).1

/-- Of the first frames alone, the stream whose turn it is has more for as long as
    the second stream has. -/
theorem inTurn_waiting (h : InTurn f g fs b ta tb out) {done rest : List ι}
    (hfs : fs = done ++ rest) (htb : tb <+: done.flatMap g) (hne : tb ≠ done.flatMap g) :
    if b then ta ≠ done.flatMap f else tb ≠ done.flatMap g := by
  have hdone : done <+: fs := ⟨rest, hfs.symm⟩
  cases h with
  | finished =>
      have hbegins : done.flatMap g <+: fs.flatMap g := by
        rw [hfs, List.flatMap_append]
        exact List.prefix_append _ _
      exact absurd (htb.eq_of_length_le hbegins.length_le) hne
  | first before i after hfs' pre post hi hpost =>
      intro hall
      rcases Nat.lt_or_ge before.length done.length with hlt | hge
      · -- The frame at hand is one of them, and it is not through.
        have hthis : before ++ [i] <+: fs :=
          ⟨after, by rw [hfs', List.append_assoc, List.singleton_append]⟩
        have hin : before ++ [i] <+: done := by
          refine List.prefix_of_prefix_length_le hthis hdone ?_
          rw [List.length_append, List.length_singleton]
          exact hlt
        have hlen := (hin.flatMap f).length_le
        have hpos := List.length_pos_iff.mpr hpost
        rw [← hall, List.flatMap_append, List.flatMap_singleton, hi, List.length_append,
          List.length_append, List.length_append] at hlen
        omega
      · have hbefore : before <+: fs := ⟨i :: after, hfs'.symm⟩
        have hin : done <+: before := List.prefix_of_prefix_length_le hdone hbefore hge
        exact absurd (htb.eq_of_length_le (hin.flatMap g).length_le) hne
  | second before i after hfs' pre post hi hpost => exact hne

end Lib

end Ml605
