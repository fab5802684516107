import Ml605.Scst.BlockioBuild

/-!
# The Scatter Tables of an Encrypted Command

What the segment loop of `blockio_exec_rw` puts into `src_tbl` and `dst_tbl`.

The pieces that were taken so far and those still to come are the pieces of the
data, in every round. A piece that the block layer does not take stays the
first of those to come. So whatever it takes and refuses, both tables list the
pieces in order, one with the pages of the command and one with the bounce
pages.

The tables have 2048 entries, and nothing compares the number of pieces with
that. The end marks go to the entry behind the last piece, so there has to be
one: 2047 pieces is the most. Nor is the result of `sg_alloc_table` looked at
further. `sound_iff` says that this is all that can go wrong.

## Main definitions

* `Filled`: The tables list some pieces.
* `Upto`, `Filling`: They list those that are not to come any more.
* `Short`: The condition on the command and on the allocations.
* `Kept`: The invariant.
* `Tables`, `Sound`: What is asked of the loop.

## Theorems

* `fillTables_filled`: A piece that is taken goes to the end of both.
* `Upto.room`: A short command leaves room for what is to come.
* `turn_kept`: A round of the loop keeps the invariant.
* `reaches_end`: If everything is taken the loop ends.
* `sound_of_short`, `short_of_sound`: Both halves of the result.
* `sound_iff`: Exactly the short commands are sound.
-/

namespace Ml605

namespace Scst

open Lib

/-- The length and the offset of an entry. -/
def SgItem.shape (i : SgItem) : Nat × Nat := (i.length, i.offset)

def Piece.shape (p : Piece) : Nat × Nat := (p.bytes, p.off)

/-- The entry of a piece in the command's table. -/
def Piece.dataItem (p : Piece) : SgItem := p.item (some (.data p.page))

/-- The table that lists the pages of the command. -/
def dataTbl (c : ExecRw) (src dst : SgTable) : SgTable := if c.write then src else dst

/-- The table that lists the bounce pages. -/
def bounceTbl (c : ExecRw) (src dst : SgTable) : SgTable := if c.write then dst else src

/-- The tables list some pieces, and these are counted. -/
structure Filled (c : ExecRw) (src dst : SgTable) (sgCnt sgSize : Nat) (taken : List Piece) :
    Prop where
  data : (dataTbl c src dst).items = taken.map Piece.dataItem
  bounce : (bounceTbl c src dst).items.map SgItem.shape = taken.map Piece.shape
  cnt : sgCnt = taken.length
  size : sgSize = (taken.map Piece.bytes).sum

/-- In the loop, or behind it with everything in place. -/
def Phase.Live : Phase → Prop
  | .segment .. => True
  | .built => True
  | _ => False

/-- The end mark is in the entry behind the last piece, which is there. -/
def Marked (t : SgTable) : Prop := t.marked = some t.items.length ∧ t.items.length < t.nents

/-- The tables list all pieces but those still to come. -/
structure Upto (c : ExecRw) (a : Allocs) (s : Build) (todo : List Piece) : Prop where
  srcNents : s.src.nents = if a.src then 2048 else 0
  dstNents : s.dst.nents = if a.dst then 2048 else 0
  filled : ∃ taken, taken ++ todo = c.pieces ∧ Filled c s.src s.dst s.sgCnt s.sgSize taken

/-- Between two rounds of the loop, and behind it. -/
structure Filling (c : ExecRw) (a : Allocs) (s : Build) : Prop where
  upto : Upto c a s s.phase.todo
  marked : s.phase = .built → Marked s.src ∧ Marked s.dst

/-- Both tables were allocated, and the pieces leave an entry free. -/
structure Short (c : ExecRw) (a : Allocs) : Prop where
  src : a.src = true
  dst : a.dst = true
  room : c.pieces.length < 2048

/-- As long as it is in the loop it fills the tables, and for a short command it
    finds the entries it writes to. -/
structure Kept (c : ExecRw) (a : Allocs) (s : Build) : Prop where
  filling : s.phase.Live → Filling c a s
  noOops : Short c a → s.phase ≠ .oops

/-- What is asked of the tables when the loop is done. Entry `i` of both is the
    `i`th piece of the data. -/
structure Tables (c : ExecRw) (s : Build) : Prop where
  data : (dataTbl c s.src s.dst).items = c.pieces.map Piece.dataItem
  bounce : (bounceTbl c s.src s.dst).items.map SgItem.shape = c.pieces.map Piece.shape
  srcCnt : s.src.items.length = s.sgCnt
  dstCnt : s.dst.items.length = s.sgCnt
  srcSize : (s.src.items.map SgItem.length).sum = s.sgSize
  dstSize : (s.dst.items.map SgItem.length).sum = s.sgSize
  total : s.sgSize = c.dataLength
  srcMark : ∃ k, s.src.marked = some k ∧ k < s.src.nents
  dstMark : ∃ k, s.dst.marked = some k ∧ k < s.dst.nents

/-- No entry is written to that is not there, and the tables are as asked. -/
def Sound (c : ExecRw) (s : Build) : Prop := s.phase ≠ .oops ∧ (s.phase = .built → Tables c s)

section Fill

variable {c : ExecRw} {src dst : SgTable} {sgCnt sgSize : Nat} {taken : List Piece}

/-- Both tables have the lengths and offsets of the pieces. -/
theorem Filled.shapes (h : Filled c src dst sgCnt sgSize taken) :
    src.items.map SgItem.shape = taken.map Piece.shape ∧
      dst.items.map SgItem.shape = taken.map Piece.shape := by
  have hdata : (dataTbl c src dst).items.map SgItem.shape = taken.map Piece.shape := by
    rw [h.data, List.map_map]
    rfl
  have hbounce := h.bounce
  unfold dataTbl at hdata
  unfold bounceTbl at hbounce
  cases hw : c.write with
  | true =>
      rw [hw] at hdata hbounce
      exact ⟨hdata, hbounce⟩
  | false =>
      rw [hw] at hdata hbounce
      exact ⟨hbounce, hdata⟩

theorem length_of_shapes {t : SgTable} (h : t.items.map SgItem.shape = taken.map Piece.shape) :
    t.items.length = taken.length := by
  have hlen := congrArg List.length h
  rw [List.length_map, List.length_map] at hlen
  exact hlen

theorem size_of_shapes {t : SgTable} (h : t.items.map SgItem.shape = taken.map Piece.shape) :
    (t.items.map SgItem.length).sum = (taken.map Piece.bytes).sum := by
  have hfst := congrArg (List.map Prod.fst) h
  rw [List.map_map, List.map_map] at hfst
  exact congrArg List.sum hfst

/-- A piece goes with its own page to the one table and with the bounce page to
    the other. -/
theorem items_append {src' dst' : SgTable} {p : Piece} {ag : Option Page}
    (hsrc : src'.items = src.items ++ [srcItem c p ag])
    (hdst : dst'.items = dst.items ++ [dstItem c p ag]) :
    (dataTbl c src' dst').items = (dataTbl c src dst).items ++ [p.dataItem] ∧
      (bounceTbl c src' dst').items = (bounceTbl c src dst).items ++ [p.item ag] := by
  unfold dataTbl bounceTbl
  unfold srcItem at hsrc
  unfold dstItem at hdst
  cases hw : c.write with
  | true =>
      rw [hw] at hsrc hdst
      exact ⟨hsrc, hdst⟩
  | false =>
      rw [hw] at hsrc hdst
      exact ⟨hdst, hsrc⟩

/-- A piece that is taken goes to the end of both tables. -/
theorem fillTables_filled {s s' : Build} {p : Piece} {ag : Option Page}
    (h : Filled c s.src s.dst s.sgCnt s.sgSize taken) (hfill : fillTables c p ag s = some s') :
    Filled c s'.src s'.dst s'.sgCnt s'.sgSize (taken ++ [p]) ∧
      s'.src.nents = s.src.nents ∧ s'.dst.nents = s.dst.nents := by
  unfold fillTables at hfill
  split at hfill
  · rename_i src dst hsrc hdst
    rw [← Option.some.inj hfill]
    rcases SgTable.setPage_eq_some hsrc with ⟨hsrcN, hsrcI⟩
    rcases SgTable.setPage_eq_some hdst with ⟨hdstN, hdstI⟩
    rcases items_append hsrcI hdstI with ⟨hdata, hbounce⟩
    refine ⟨⟨?_, ?_, ?_, ?_⟩, hsrcN, hdstN⟩
    · rw [hdata, h.data, List.map_append]
      rfl
    · rw [hbounce, List.map_append, h.bounce, List.map_append]
      rfl
    · change s.sgCnt + 1 = _
      rw [h.cnt, List.length_append]
      rfl
    · change s.sgSize + p.bytes = _
      rw [h.size, List.map_append, List.sum_append]
      rfl
  · exact nomatch hfill

/-- Only the entries of the tables matter. -/
theorem Filled.of_items {src' dst' : SgTable} (h : Filled c src dst sgCnt sgSize taken)
    (hsrc : src'.items = src.items) (hdst : dst'.items = dst.items) :
    Filled c src' dst' sgCnt sgSize taken := by
  have hdata : (dataTbl c src' dst').items = (dataTbl c src dst).items := by
    unfold dataTbl
    cases c.write with
    | true => exact hsrc
    | false => exact hdst
  have hbounce : (bounceTbl c src' dst').items = (bounceTbl c src dst).items := by
    unfold bounceTbl
    cases c.write with
    | true => exact hdst
    | false => exact hsrc
  exact ⟨hdata.trans h.data, hbounce ▸ h.bounce, h.cnt, h.size⟩

end Fill

section Rounds

variable {c : ExecRw} {a : Allocs} {s : Build} {todo : List Piece}

/-- A short command leaves room for what is to come. -/
theorem Upto.room (h : Upto c a s todo) (hshort : Short c a) :
    s.src.items.length < s.src.nents ∧ s.dst.items.length < s.dst.nents := by
  rcases h.filled with ⟨taken, hsplit, hfilled⟩
  rcases hfilled.shapes with ⟨hsrc, hdst⟩
  have hle : taken.length < 2048 := by
    have hlen := congrArg List.length hsplit
    rw [List.length_append] at hlen
    have := hshort.room
    omega
  rw [h.srcNents, h.dstNents, hshort.src, hshort.dst, length_of_shapes hsrc, length_of_shapes hdst]
  exact ⟨hle, hle⟩

variable (haes : c.aes = true)

include haes

/-- The end of the loop marks the entries behind the last. -/
theorem finish_kept (h : Upto c a s []) : Kept c a (finish c s) := by
  unfold finish
  rw [if_pos haes]
  cases hsrc : s.src.markEnd with
  | none =>
      refine ⟨fun hlive => hlive.elim, fun hshort => ?_⟩
      have hmark : s.src.markEnd = some _ := if_pos (h.room hshort).1
      rw [hsrc] at hmark
      exact nomatch hmark
  | some src =>
      cases hdst : s.dst.markEnd with
      | none =>
          refine ⟨fun hlive => hlive.elim, fun hshort => ?_⟩
          have hmark : s.dst.markEnd = some _ := if_pos (h.room hshort).2
          rw [hdst] at hmark
          exact nomatch hmark
      | some dst =>
          rcases SgTable.markEnd_eq_some hsrc with ⟨hsrcN, hsrcI, hsrcM, hsrcL⟩
          rcases SgTable.markEnd_eq_some hdst with ⟨hdstN, hdstI, hdstM, hdstL⟩
          rcases h.filled with ⟨taken, hsplit, hfilled⟩
          refine ⟨fun _ => ⟨⟨hsrcN.trans h.srcNents, hdstN.trans h.dstNents, taken, hsplit,
            hfilled.of_items hsrcI hdstI⟩, fun _ => ⟨⟨?_, ?_⟩, ⟨?_, ?_⟩⟩⟩, fun _ => nofun⟩
          · rw [hsrcI]; exact hsrcM
          · rw [hsrcI, hsrcN]; exact hsrcL
          · rw [hdstI]; exact hdstM
          · rw [hdstI, hdstN]; exact hdstL

theorem nextExtent_kept {rest : List Extent} (h : Upto c a s (rest.flatMap Extent.pieces)) :
    Kept c a (nextExtent c s rest) := by
  cases rest with
  | nil => exact finish_kept haes h
  | cons e rest =>
      exact ⟨fun _ => ⟨⟨h.srcNents, h.dstNents, h.filled⟩, nofun⟩, fun _ => nofun⟩

variable {e : Extent} {cur : Cursor} {rest : List Extent}

/-- Behind a piece that is listed. -/
theorem advance_kept (h : Upto c a s ((if h : cur.bytes < cur.len then (cur.next h).pieces else [])
      ++ rest.flatMap Extent.pieces)) : Kept c a (advance c e cur rest s) := by
  unfold advance
  by_cases hmore : cur.bytes < cur.len
  · rw [dif_pos hmore] at h ⊢
    exact ⟨fun _ => ⟨⟨h.srcNents, h.dstNents, h.filled⟩, nofun⟩, fun _ => nofun⟩
  · rw [dif_neg hmore] at h ⊢
    exact nextExtent_kept haes ⟨h.srcNents, h.dstNents, h.filled⟩

theorem accepted_kept {ag : Option Page}
    (h : Upto c a s (cur.pieces ++ rest.flatMap Extent.pieces)) :
    Kept c a (accepted c e cur rest ag s) := by
  unfold accepted
  rw [if_pos haes]
  cases hfill : fillTables c cur.piece ag
      { s with chain := addVec (cur.piece.item ag) s.chain } with
  | none =>
      refine ⟨fun hlive => hlive.elim, fun hshort => ?_⟩
      -- Both entries are there, so this does not happen.
      rcases h.room hshort with ⟨hsrc, hdst⟩
      rcases SgTable.setPage_isSome (i := srcItem c cur.piece ag) hsrc with ⟨src, hsrc'⟩
      rcases SgTable.setPage_isSome (i := dstItem c cur.piece ag) hdst with ⟨dst, hdst'⟩
      unfold fillTables at hfill
      rw [hsrc', hdst'] at hfill
      exact nomatch hfill
  | some s' =>
      rcases h.filled with ⟨taken, hsplit, hfilled⟩
      rcases fillTables_filled (s := { s with chain := addVec (cur.piece.item ag) s.chain })
        hfilled hfill with ⟨hfilled', hsrcN, hdstN⟩
      refine advance_kept haes ⟨hsrcN.trans h.srcNents, hdstN.trans h.dstNents,
        taken ++ [cur.piece], ?_, hfilled'⟩
      rw [← hsplit, cur.pieces_eq, List.append_assoc]
      rfl

/-- A round of the loop keeps the invariant, whatever the kernel answers. -/
theorem turn_kept (t : Turn) (h : Upto c a s (cur.pieces ++ rest.flatMap Extent.pieces)) :
    Kept c a (turn c t e cur rest s) := by
  unfold turn
  split
  · exact ⟨fun hlive => hlive.elim, fun _ => nofun⟩
  · cases t.accepted with
    | true => exact accepted_kept haes ⟨h.srcNents, h.dstNents, h.filled⟩
    | false => exact ⟨fun _ => ⟨⟨h.srcNents, h.dstNents, h.filled⟩, nofun⟩, fun _ => nofun⟩

theorem buildStep_kept {s' : Build} {t : Turn} (h : Kept c a s)
    (hstep : buildStep c s t = some s') : Kept c a s' := by
  rcases buildStep_segment hstep with ⟨e, cur, rest, hphase, rfl⟩
  have hfilling := h.filling (by rw [hphase]; trivial)
  have hupto := hfilling.upto
  rw [hphase] at hupto
  exact turn_kept haes t hupto

/-- The tables are empty when the loop starts. -/
theorem execRw_kept : Kept c a (execRw c a) := by
  unfold execRw
  rw [if_pos haes]
  split
  · exact ⟨fun hlive => hlive.elim, fun _ => nofun⟩
  · split
    · exact ⟨fun hlive => hlive.elim, fun _ => nofun⟩
    · refine nextExtent_kept haes ⟨rfl, rfl, [], rfl, ?_, ?_, rfl, rfl⟩
      · unfold dataTbl
        cases c.write <;> rfl
      · unfold bounceTbl
        cases c.write <;> rfl

theorem run_kept {es : List Turn} (hrun : Run (buildStep c) Free (execRw c a) es s) :
    Kept c a s :=
  run_inv (fun _ _ _ hu _ hstep => buildStep_kept haes hu hstep) hrun (execRw_kept haes)

omit haes in
/-- If the loop goes on, the piece is no longer to come. -/
theorem advance_progress (s : Build) :
    (advance c e cur rest s).phase = .oops ∨
      (advance c e cur rest s).phase.Live ∧
        cur.piece :: (advance c e cur rest s).phase.todo =
          cur.pieces ++ rest.flatMap Extent.pieces := by
  unfold advance
  rw [cur.pieces_eq]
  by_cases hmore : cur.bytes < cur.len
  · rw [dif_pos hmore, dif_pos hmore]
    exact Or.inr ⟨trivial, rfl⟩
  · rw [dif_neg hmore, dif_neg hmore]
    cases rest with
    | cons e' rest' => exact Or.inr ⟨trivial, rfl⟩
    | nil =>
        rcases finish_phase c
          { s with lbaStart := s.lbaStart + e.length >>> c.blockShift } with hbuilt | hoops
        · refine Or.inr ?_
          rw [nextExtent, hbuilt]
          exact ⟨trivial, rfl⟩
        · exact Or.inl hoops

/-- A round in which the kernel grants everything. -/
def grant : Turn := ⟨true, true, true⟩

/-- Such a round takes a piece or is the last. -/
theorem turn_grant_progress (e : Extent) (cur : Cursor) (rest : List Extent) (s : Build) :
    (turn c grant e cur rest s).phase = .oops ∨
      (turn c grant e cur rest s).phase.Live ∧
        cur.piece :: (turn c grant e cur rest s).phase.todo =
          cur.pieces ++ rest.flatMap Extent.pieces := by
  have hturn : turn c grant e cur rest s = accepted c e cur rest (bouncePage c true s)
      (withPage (bouncePage c true s) (withBio c cur s)) := by
    unfold turn
    rw [if_neg (by rw [grant, Bool.not_true, Bool.and_false]; exact Bool.false_ne_true)]
    rfl
  rw [hturn]
  unfold accepted
  rw [if_pos haes]
  split
  · exact advance_progress _
  · exact Or.inl rfl

/-- If everything is granted the loop ends. -/
theorem reaches_end : ∀ (n : Nat) (s : Build), s.phase.todo.length = n → s.phase.Live →
    ∃ es s', Run (buildStep c) Free s es s' ∧ (s'.phase = .built ∨ s'.phase = .oops) := by
  intro n
  -- The induction is on the number of pieces to come.
  induction n with
  | zero =>
      intro s hnone hlive
      cases hphase : s.phase with
      | segment e cur rest =>
          rw [hphase, Phase.todo, cur.pieces_eq] at hnone
          exact nomatch hnone
      | built => exact ⟨[], s, Run.nil s, Or.inl hphase⟩
      | noBio => exact absurd hlive (by rw [hphase]; exact id)
      | noMem => exact absurd hlive (by rw [hphase]; exact id)
      | oops => exact absurd hlive (by rw [hphase]; exact id)
  | succ n ih =>
      intro s hmore hlive
      cases hphase : s.phase with
      | segment e cur rest =>
          have hstep : buildStep c s grant = some (turn c grant e cur rest s) := by
            rw [buildStep, hphase]
          rcases turn_grant_progress haes e cur rest s with hoops | ⟨hlive', htodo⟩
          · exact ⟨[grant], _, Run.cons _ _ _ _ _ hstep trivial (Run.nil _), Or.inr hoops⟩
          · have hlen : (turn c grant e cur rest s).phase.todo.length = n := by
              have hcons := congrArg List.length htodo
              rw [hphase] at hmore
              exact Nat.succ.inj (hcons.trans hmore)
            rcases ih _ hlen hlive' with ⟨es, s', hrun, hend⟩
            exact ⟨grant :: es, s', Run.cons _ _ _ _ _ hstep trivial hrun, hend⟩
      | built => exact nomatch hphase ▸ hmore
      | noBio => exact absurd hlive (by rw [hphase]; exact id)
      | noMem => exact absurd hlive (by rw [hphase]; exact id)
      | oops => exact absurd hlive (by rw [hphase]; exact id)

omit haes in
/-- At the end all pieces are listed. -/
theorem Filling.all (h : Filling c a s) (hbuilt : s.phase = .built) :
    Filled c s.src s.dst s.sgCnt s.sgSize c.pieces := by
  rcases h.upto.filled with ⟨taken, hsplit, hfilled⟩
  have hnone : s.phase.todo = [] := by
    rw [hbuilt]
    rfl
  rw [hnone, List.append_nil] at hsplit
  exact hsplit ▸ hfilled

omit haes in
/-- What the loop leaves, if it gets to its end. -/
theorem tables_of_filling (h : Filling c a s) (hbuilt : s.phase = .built) : Tables c s := by
  have hfilled := h.all hbuilt
  rcases hfilled.shapes with ⟨hsrc, hdst⟩
  rcases h.marked hbuilt with ⟨hsrcM, hdstM⟩
  exact ⟨hfilled.data, hfilled.bounce, (length_of_shapes hsrc).trans hfilled.cnt.symm,
    (length_of_shapes hdst).trans hfilled.cnt.symm, (size_of_shapes hsrc).trans hfilled.size.symm,
    (size_of_shapes hdst).trans hfilled.size.symm, hfilled.size.trans c.pieces_bytes,
    ⟨_, hsrcM⟩, ⟨_, hdstM⟩⟩

/-- A short command is sound, whatever the kernel answers in the loop. -/
theorem sound_of_short (hshort : Short c a) {es : List Turn}
    (hrun : Run (buildStep c) Free (execRw c a) es s) : Sound c s := by
  have hkept := run_kept haes hrun
  refine ⟨hkept.noOops hshort, fun hbuilt => ?_⟩
  exact tables_of_filling (hkept.filling (by rw [hbuilt]; trivial)) hbuilt

omit haes in
/-- The end mark needs an entry, and there are none in a table that is missing. -/
theorem short_of_filling (h : Filling c a s) (hbuilt : s.phase = .built) : Short c a := by
  rcases (h.all hbuilt).shapes with ⟨hsrc, hdst⟩
  rcases h.marked hbuilt with ⟨⟨-, hsrcL⟩, ⟨-, hdstL⟩⟩
  rw [length_of_shapes hsrc, h.upto.srcNents] at hsrcL
  rw [length_of_shapes hdst, h.upto.dstNents] at hdstL
  cases hs : a.src with
  | false =>
      rw [hs] at hsrcL
      exact absurd hsrcL (Nat.not_lt_zero _)
  | true =>
      cases hd : a.dst with
      | false =>
          rw [hd] at hdstL
          exact absurd hdstL (Nat.not_lt_zero _)
      | true =>
          rw [hs] at hsrcL
          exact ⟨hs, hd, hsrcL⟩

/-- Behind the allocations of the works the function is in the loop, or it has
    marked the tables of an empty command. -/
theorem execRw_phase (hwork : a.work = true) (hok : a.aes = true) :
    (execRw c a).phase.Live ∨ (execRw c a).phase = .oops := by
  have hstart : execRw c a = nextExtent c (withAes a (withWork c)) c.sg := by
    unfold execRw
    rw [hwork, hok, haes]
    rfl
  rw [hstart]
  cases c.sg with
  | nil =>
      rcases finish_phase c (withAes a (withWork c)) with hbuilt | hoops
      · exact Or.inl (by rw [nextExtent, hbuilt]; trivial)
      · exact Or.inr hoops
  | cons e rest => exact Or.inl trivial

/-- Without its work objects the function does not get to the loop. -/
theorem execRw_out (hout : ¬ (a.work = true ∧ a.aes = true)) :
    (execRw c a).phase = .noMem ∨ (execRw c a).phase = .noBio := by
  unfold execRw
  rw [if_pos haes]
  cases hwork : a.work with
  | false => exact Or.inl rfl
  | true =>
      cases hok : a.aes with
      | false => exact Or.inr rfl
      | true => exact absurd ⟨hwork, hok⟩ hout

/-- A command that is always sound is short. -/
theorem short_of_sound
    (hsound : ∀ es s, Run (buildStep c) Free (execRw c a) es s → Sound c s)
    (hwork : a.work = true) (hok : a.aes = true) : Short c a := by
  rcases execRw_phase haes hwork hok with hlive | hoops
  · rcases reaches_end haes _ _ rfl hlive with ⟨es, s, hrun, hbuilt | hoops⟩
    · exact short_of_filling ((run_kept haes hrun).filling (by rw [hbuilt]; trivial)) hbuilt
    · exact absurd hoops (hsound es s hrun).1
  · exact absurd hoops (hsound [] _ (Run.nil _)).1

end Rounds

/-- **Exactly the short commands are sound.** For every command of an encrypted
    device, however its data is split, and every outcome of the allocations at
    the start: the loop fills both tables as asked, whatever `bio_add_page`
    refuses, exactly if both tables were allocated and the data has at most 2047
    pieces. Without its work objects the function does not get to the loop. -/
theorem sound_iff (c : ExecRw) (haes : c.aes = true) (a : Allocs) :
    (∀ es s, Run (buildStep c) Free (execRw c a) es s → Sound c s) ↔
      (a.work = true → a.aes = true → Short c a) := by
  constructor
  · exact fun hsound hwork hok => short_of_sound haes hsound hwork hok
  · intro hshort es s hrun
    by_cases hloop : a.work = true ∧ a.aes = true
    · exact sound_of_short haes (hshort hloop.1 hloop.2) hrun
    · -- There is no step, so the run is over at its start.
      have hout := execRw_out haes hloop
      cases hrun with
      | nil => rcases hout with hout | hout <;> rw [Sound, hout] <;> exact ⟨nofun, nofun⟩
      | cons t es s u v hstep _ _ =>
          rcases buildStep_segment hstep with ⟨e, cur, rest, hphase, -⟩
          rw [hphase] at hout
          exact hout.elim nofun nofun

/-- A write of so many pages. -/
def pagesWrite (n : Nat) (h : 0 < n * pageSize) : ExecRw :=
  ⟨true, true, 0, 9, [⟨0, 0, n * pageSize, h, pageSize_pos⟩]⟩

theorem pagesWrite_pieces (n : Nat) (h : 0 < n * pageSize) :
    (pagesWrite n h).pieces.length = n := by
  have hps : pageSize = 4096 := rfl
  have hone : (pagesWrite n h).pieces = pieces 0 0 (n * pageSize) ++ [] := rfl
  rw [hone, List.append_nil, pieces_length 0 0 (n * pageSize) h pageSize_pos, hps]
  omega

/-- A write of 2047 pages, with every table in place. -/
theorem sound_iff_full :
    Short (pagesWrite 2047 (by decide)) ⟨true, true, true, true⟩ ∧ ∀ es s,
      Run (buildStep (pagesWrite 2047 (by decide))) Free
        (execRw (pagesWrite 2047 (by decide)) ⟨true, true, true, true⟩) es s →
      Sound (pagesWrite 2047 (by decide)) s := by
  have hshort : Short (pagesWrite 2047 (by decide)) ⟨true, true, true, true⟩ := by
    refine ⟨rfl, rfl, ?_⟩
    rw [pagesWrite_pieces]
    decide
  exact ⟨hshort, (sound_iff _ rfl _).mpr fun _ _ => hshort⟩

/-- A write of 8 MiB has one page too many. -/
theorem eight_mib_not_sound : ¬ ∀ es s,
    Run (buildStep (pagesWrite 2048 (by decide))) Free
      (execRw (pagesWrite 2048 (by decide)) ⟨true, true, true, true⟩) es s →
    Sound (pagesWrite 2048 (by decide)) s := by
  intro hsound
  have hroom := (short_of_sound rfl hsound rfl rfl).room
  rw [pagesWrite_pieces] at hroom
  exact absurd hroom (by decide)

end Scst

end Ml605
