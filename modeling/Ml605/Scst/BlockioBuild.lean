import Mathlib.Tactic
import Ml605.Lib.Run

/-!
# Building the Bios of a Block I/O Command

The first half of `blockio_exec_rw`: the allocations at its start and the
segment loop, up to the point where `Blockio` takes over or control reaches one
of the labels at the end.

The data of a command is a list of extents, each a run of pages with an offset
into the first. The loop cuts them into pieces that lie in one page, adds each
piece to the current bio, and starts a new bio when the block layer does not
take it. With AES enabled a piece goes with a bounce page, which is what is
added to the bio, and both are entered into the two scatter tables of the
`scst_aes_work`.

What the kernel answers is left open: which of the allocations succeed and
which pieces are taken is part of the input, one `Turn` for each round of the
inner loop. A failing `sg_alloc_table` and a failing `alloc_page` are only
printed by the source, so the tables may be missing and a bounce page may be
`NULL`.

The cursors `ssg` and `dsg` are the lengths of the tables filled so far. The
entry behind the last one is `NULL`, and to write to it is an `oops`.

Every object that is acquired is logged, and every one that is released.

## Main definitions

* `Extent`, `ExecRw`: The data of a command and the command.
* `Allocs`, `Turn`: What the kernel answers.
* `Piece`, `pieces`: The pieces of an extent.
* `SgTable`: A scatter table, filled up to some entry.
* `Build`: The local variables of the function and the objects.
* `outNoBio`, `outNoMem`: The labels at its end.
* `turn`: A round of the inner loop.
* `execRw`, `buildStep`: The start of the function and a step of it.

## Theorems

* `pieces_length`: How many pieces there are.
* `pieces_bytes`: Their lengths add up.
* `Cursor.pieces_eq`: The pieces still to come, the current one first.
* `buildStep_segment`: Only the inner loop takes steps.
-/

namespace Ml605

namespace Scst

/-- `PAGE_SIZE`. -/
def pageSize : Nat := 4096

theorem pageSize_pos : 0 < pageSize := Nat.succ_pos 4095

/-- What `scst_get_sg_page_first` and `scst_get_sg_page_next` return: a page, the
    offset into it and a length. -/
structure Extent where
  page : Nat
  offset : Nat
  length : Nat
  pos : 0 < length
  inPage : offset < pageSize

/-- A command, with the data it moves. -/
structure ExecRw where
  write : Bool
  /-- `virt_dev->aes`. -/
  aes : Bool
  lbaStart : Nat
  blockShift : Nat
  sg : List Extent

/-- The length of the data. -/
def ExecRw.dataLength (c : ExecRw) : Nat := (c.sg.map Extent.length).sum

/-- Which of the allocations at the start succeed. -/
structure Allocs where
  work : Bool
  aes : Bool
  src : Bool
  dst : Bool

/-- What the kernel answers in a round of the inner loop, as far as it is asked:
    whether `bio_kmalloc` and `alloc_page` succeed, and whether `bio_add_page`
    takes the piece. -/
structure Turn where
  bio : Bool
  page : Bool
  accepted : Bool

/-- A piece of the data that lies in one page. -/
structure Piece where
  page : Nat
  bytes : Nat
  off : Nat
deriving DecidableEq, Repr

/-- The pieces of a run of pages. -/
def pieces (page off len : Nat) : List Piece :=
  if _h : 0 < len ∧ off < pageSize then
    ⟨page, min len (pageSize - off), off⟩ ::
      pieces (page + 1) 0 (len - min len (pageSize - off))
  else []
termination_by len

theorem pieces_zero (page off : Nat) : pieces page off 0 = [] := by
  rw [pieces, dif_neg (by omega)]

/-- One piece for every page that is touched. -/
theorem pieces_length (page off len : Nat) (hlen : 0 < len) (hoff : off < pageSize) :
    (pieces page off len).length = (off + len + pageSize - 1) / pageSize := by
  have hps : pageSize = 4096 := rfl
  -- The recursion is on what is left behind the first page.
  induction len using Nat.strong_induction_on generalizing page off with
  | _ len ih =>
      rw [pieces, dif_pos ⟨hlen, hoff⟩, List.length_cons]
      by_cases hmore : pageSize - off < len
      · rw [Nat.min_eq_right (by omega), ih (len - (pageSize - off)) (by omega) _ _ (by omega)
          (by omega)]
        rw [hps] at hmore hoff ⊢
        omega
      · rw [Nat.min_eq_left (by omega), Nat.sub_self, pieces_zero, List.length_nil]
        rw [hps] at hmore hoff ⊢
        omega

/-- The lengths of the pieces add up. -/
theorem pieces_bytes (page off len : Nat) (hoff : off < pageSize) :
    ((pieces page off len).map Piece.bytes).sum = len := by
  have hps : pageSize = 4096 := rfl
  induction len using Nat.strong_induction_on generalizing page off with
  | _ len ih =>
      by_cases hlen : 0 < len
      · rw [pieces, dif_pos ⟨hlen, hoff⟩, List.map_cons, List.sum_cons, ih _ (by omega) _ _
          (by omega)]
        change min len (pageSize - off) + _ = len
        omega
      · rw [show len = 0 by omega, pieces_zero]
        rfl

def Extent.pieces (e : Extent) : List Piece := Scst.pieces e.page e.offset e.length

/-- All pieces of the data of a command. -/
def ExecRw.pieces (c : ExecRw) : List Piece := c.sg.flatMap Extent.pieces

/-- The lengths of all pieces add up to the length of the data. -/
theorem ExecRw.pieces_bytes (c : ExecRw) : (c.pieces.map Piece.bytes).sum = c.dataLength := by
  unfold ExecRw.pieces ExecRw.dataLength
  induction c.sg with
  | nil => rfl
  | cons e es ih =>
      rw [List.flatMap_cons, List.map_append, List.sum_append, List.map_cons, List.sum_cons, ih,
        Extent.pieces, Scst.pieces_bytes _ _ _ e.inPage]

/-- A page of the command or a bounce page. -/
inductive Page
  | data (n : Nat)
  | bounce (n : Nat)
deriving DecidableEq, Repr

/-- An entry of a scatter table or of a bio. The page may be `NULL`. -/
structure SgItem where
  page : Option Page
  length : Nat
  offset : Nat
deriving DecidableEq, Repr

/-- A scatter table with the entries that are set, and the place of the end mark
    if `sg_mark_end` was called. -/
structure SgTable where
  nents : Nat
  items : List SgItem
  marked : Option Nat
  fits : items.length ≤ nents

namespace SgTable

/-- `sg_alloc_table` for 2048 entries. If it fails there is no table. -/
def alloc (ok : Bool) : SgTable := ⟨if ok then 2048 else 0, [], none, Nat.zero_le _⟩

/-- `sg_set_page` at the cursor, which is then moved by `sg_next`. -/
def setPage (t : SgTable) (i : SgItem) : Option SgTable :=
  if h : t.items.length < t.nents then
    some ⟨t.nents, t.items ++ [i], t.marked, by rw [List.length_append]; exact h⟩
  else none

/-- `sg_mark_end` at the cursor. -/
def markEnd (t : SgTable) : Option SgTable :=
  if t.items.length < t.nents then some { t with marked := some t.items.length } else none

theorem setPage_eq_some {t u : SgTable} {i : SgItem} (h : t.setPage i = some u) :
    u.nents = t.nents ∧ u.items = t.items ++ [i] := by
  unfold setPage at h
  split at h
  · rw [← Option.some.inj h]
    exact ⟨rfl, rfl⟩
  · exact nomatch h

theorem setPage_isSome {t : SgTable} {i : SgItem} (h : t.items.length < t.nents) :
    ∃ u, t.setPage i = some u := ⟨_, dif_pos h⟩

theorem markEnd_eq_some {t u : SgTable} (h : t.markEnd = some u) :
    u.nents = t.nents ∧ u.items = t.items ∧ u.marked = some t.items.length ∧
      t.items.length < t.nents := by
  unfold markEnd at h
  split at h
  · rename_i hlt
    rw [← Option.some.inj h]
    exact ⟨rfl, rfl, rfl, hlt⟩
  · exact nomatch h

end SgTable

/-- The objects a command acquires. -/
inductive Obj
  | work
  | aesWork
  | srcTbl
  | dstTbl
  | bio (n : Nat)
  | page (n : Nat)
deriving DecidableEq, Repr

/-- A bio of the chain. -/
structure Bio where
  sector : Nat
  vecs : List SgItem

/-- The variables of the inner loop: `lba_start0`, `thislen` and the rest of the
    extent. -/
structure Cursor where
  lba : Nat
  thislen : Nat
  page : Nat
  off : Nat
  len : Nat
  pos : 0 < len
  inPage : off < pageSize

namespace Cursor

def start (lbaStart : Nat) (e : Extent) : Cursor :=
  ⟨lbaStart, 0, e.page, e.offset, e.length, e.pos, e.inPage⟩

/-- `min_t(unsigned int, len, PAGE_SIZE - off)`. -/
def bytes (cur : Cursor) : Nat := min cur.len (pageSize - cur.off)

def piece (cur : Cursor) : Piece := ⟨cur.page, cur.bytes, cur.off⟩

/-- The pieces still to come. -/
def pieces (cur : Cursor) : List Piece := Scst.pieces cur.page cur.off cur.len

/-- Behind a piece that was taken. -/
def next (cur : Cursor) (h : cur.bytes < cur.len) : Cursor :=
  ⟨cur.lba, cur.thislen + cur.bytes, cur.page + 1, 0, cur.len - cur.bytes,
    Nat.sub_pos_of_lt h, pageSize_pos⟩

/-- Behind a piece that was not taken: the new bio starts here. -/
def retry (blockShift : Nat) (cur : Cursor) : Cursor :=
  { cur with lba := cur.lba + cur.thislen >>> blockShift, thislen := 0 }

/-- The pieces still to come, the current one first. -/
theorem pieces_eq (cur : Cursor) :
    cur.pieces = cur.piece :: if h : cur.bytes < cur.len then (cur.next h).pieces else [] := by
  rw [pieces, Scst.pieces, dif_pos ⟨cur.pos, cur.inPage⟩]
  congr 1
  by_cases h : cur.bytes < cur.len
  · rw [dif_pos h]
    rfl
  · have hall : cur.len - cur.bytes = 0 := by omega
    rw [dif_neg h]
    change Scst.pieces _ 0 (cur.len - cur.bytes) = []
    rw [hall, pieces_zero]

end Cursor

/-- Where the function is. -/
inductive Phase
  /-- In the inner loop, with the extents behind the current one. -/
  | segment (e : Extent) (cur : Cursor) (rest : List Extent)
  /-- Behind the segment loop. -/
  | built
  /-- Behind `out_no_bio`. -/
  | noBio
  /-- Behind `out_no_mem`, without having been at `out_no_bio`. -/
  | noMem
  /-- A `NULL` entry was written to. -/
  | oops

/-- The pieces still to come. -/
def Phase.todo : Phase → List Piece
  | .segment _ cur rest => cur.pieces ++ rest.flatMap Extent.pieces
  | _ => []

/-- The variables of the function, the objects, and what becomes of the
    command. The chain of bios has its newest first. -/
structure Build where
  phase : Phase
  needNewBio : Bool
  lbaStart : Nat
  chain : List Bio
  src : SgTable
  dst : SgTable
  sgCnt : Nat
  sgSize : Nat
  nextPage : Nat
  acquired : List Obj
  released : List Obj
  busy : Bool
  done : Nat

/-- `out_no_mem`: the command is completed as busy. -/
def outNoMem (s : Build) : Build := { s with phase := .noMem, busy := true, done := s.done + 1 }

/-- `out_no_bio`: the bios of the chain and the work are released, and the
    command is completed as busy. -/
def outNoBio (s : Build) : Build :=
  { s with
    phase := .noBio
    released := s.released ++ (List.range s.chain.length).map Obj.bio ++ [.work]
    busy := true
    done := s.done + 1 }

/-- Behind the segment loop. -/
def finish (c : ExecRw) (s : Build) : Build :=
  if c.aes then
    -- The cursors are behind the last entry, where a full table has nothing to mark.
    match s.src.markEnd, s.dst.markEnd with
    | some src, some dst => { s with phase := .built, src := src, dst := dst }
    | _, _ => { s with phase := .oops }
  else { s with phase := .built }

theorem finish_phase (c : ExecRw) (s : Build) :
    (finish c s).phase = .built ∨ (finish c s).phase = .oops := by
  unfold finish
  cases c.aes with
  | false => exact Or.inl rfl
  | true =>
      cases s.src.markEnd with
      | none => exact Or.inr rfl
      | some src =>
          cases s.dst.markEnd with
          | none => exact Or.inr rfl
          | some dst => exact Or.inl rfl

/-- To the next extent, if there is one. -/
def nextExtent (c : ExecRw) (s : Build) : List Extent → Build
  | [] => finish c s
  | e :: rest => { s with phase := .segment e (Cursor.start s.lbaStart e) rest }

/-- With a bio to add to: a new one at the end of the chain if one is needed. -/
def withBio (c : ExecRw) (cur : Cursor) (s : Build) : Build :=
  { s with
    needNewBio := false
    chain := if s.needNewBio then ⟨cur.lba <<< (c.blockShift - 9), []⟩ :: s.chain else s.chain
    acquired := if s.needNewBio then s.acquired ++ [.bio s.chain.length] else s.acquired }

/-- `ag`: the bounce page, which is `NULL` without AES and when `alloc_page`
    fails. -/
def bouncePage (c : ExecRw) (ok : Bool) (s : Build) : Option Page :=
  if c.aes && ok then some (.bounce s.nextPage) else none

/-- The object a bounce page is. -/
def pageObj : Option Page → List Obj
  | some (.bounce n) => [.page n]
  | _ => []

/-- With the bounce page acquired. -/
def withPage (ag : Option Page) (s : Build) : Build :=
  { s with
    nextPage := s.nextPage + (pageObj ag).length
    acquired := s.acquired ++ pageObj ag }

/-- The piece was not taken: its bounce page is released, and the next round
    makes a new bio. -/
def rejected (c : ExecRw) (e : Extent) (cur : Cursor) (rest : List Extent) (ag : Option Page)
    (s : Build) : Build :=
  { s with
    phase := .segment e (cur.retry c.blockShift) rest
    needNewBio := true
    released := s.released ++ pageObj ag }

/-- A piece at the end of the newest bio. -/
def addVec (v : SgItem) : List Bio → List Bio
  | [] => []
  | b :: bs => { b with vecs := b.vecs ++ [v] } :: bs

/-- A piece as an entry with a given page. -/
def Piece.item (p : Piece) (page : Option Page) : SgItem := ⟨page, p.bytes, p.off⟩

/-- The source of a write is the command's page, and that of a read the bounce
    page. -/
def srcItem (c : ExecRw) (p : Piece) (ag : Option Page) : SgItem :=
  p.item (if c.write then some (.data p.page) else ag)

/-- The destination is the other one. -/
def dstItem (c : ExecRw) (p : Piece) (ag : Option Page) : SgItem :=
  p.item (if c.write then ag else some (.data p.page))

/-- Both tables get an entry. -/
def fillTables (c : ExecRw) (p : Piece) (ag : Option Page) (s : Build) : Option Build :=
  match s.src.setPage (srcItem c p ag), s.dst.setPage (dstItem c p ag) with
  | some src, some dst =>
      some { s with src := src, dst := dst, sgCnt := s.sgCnt + 1, sgSize := s.sgSize + p.bytes }
  | _, _ => none

/-- To the next piece, of this extent or of the next. -/
def advance (c : ExecRw) (e : Extent) (cur : Cursor) (rest : List Extent) (s : Build) : Build :=
  if h : cur.bytes < cur.len then { s with phase := .segment e (cur.next h) rest }
  -- `lba_start` moves on by whole extents, whatever became of `lba_start0`.
  else nextExtent c { s with lbaStart := s.lbaStart + e.length >>> c.blockShift } rest

/-- The piece was taken. -/
def accepted (c : ExecRw) (e : Extent) (cur : Cursor) (rest : List Extent) (ag : Option Page)
    (s : Build) : Build :=
  if c.aes then
    -- The bio gets the bounce page, which may be `NULL`.
    match fillTables c cur.piece ag { s with chain := addVec (cur.piece.item ag) s.chain } with
    | some s => advance c e cur rest s
    | none => { s with phase := .oops }
  else
    advance c e cur rest
      { s with chain := addVec (cur.piece.item (some (.data cur.page))) s.chain }

/-- A round of the inner loop. -/
def turn (c : ExecRw) (t : Turn) (e : Extent) (cur : Cursor) (rest : List Extent) (s : Build) :
    Build :=
  if s.needNewBio && !t.bio then outNoBio s
  else
    -- Every round takes a bounce page of its own, one that tries a piece again too.
    let ag := bouncePage c t.page s
    let s := withPage ag (withBio c cur s)
    if t.accepted then accepted c e cur rest ag s else rejected c e cur rest ag s

/-- The next round, if the function is in its inner loop. -/
def buildStep (c : ExecRw) (s : Build) (t : Turn) : Option Build :=
  match s.phase with
  | .segment e cur rest => some (turn c t e cur rest s)
  | _ => none

/-- Behind `kmem_cache_alloc` of the work. What comes next sets the phase. -/
def withWork (c : ExecRw) : Build where
  phase := .noMem
  needNewBio := true
  lbaStart := c.lbaStart
  chain := []
  src := SgTable.alloc false
  dst := SgTable.alloc false
  sgCnt := 0
  sgSize := 0
  nextPage := 0
  acquired := [.work]
  released := []
  busy := false
  done := 0

/-- Behind the allocation of the AES work and its tables. A table that could not
    be allocated is only reported. -/
def withAes (a : Allocs) (s : Build) : Build :=
  { s with
    src := SgTable.alloc a.src
    dst := SgTable.alloc a.dst
    acquired := s.acquired ++ [.aesWork] ++ (if a.src then [.srcTbl] else []) ++
      (if a.dst then [.dstTbl] else []) }

/-- `blockio_exec_rw` up to its segment loop. -/
def execRw (c : ExecRw) (a : Allocs) : Build :=
  if !a.work then outNoMem { withWork c with acquired := [] }
  else if c.aes then
    -- Of the three allocations only that of the work itself is checked.
    if !a.aes then outNoBio (withWork c) else nextExtent c (withAes a (withWork c)) c.sg
  else nextExtent c (withWork c) c.sg

theorem buildStep_segment {c : ExecRw} {s s' : Build} {t : Turn} (h : buildStep c s t = some s') :
    ∃ e cur rest, s.phase = .segment e cur rest ∧ s' = turn c t e cur rest s := by
  unfold buildStep at h
  split at h
  · rename_i e cur rest hphase
    exact ⟨e, cur, rest, hphase, (Option.some.inj h).symm⟩
  · exact nomatch h

end Scst

end Ml605
