import Ml605.Lib.RefPool
import Ml605.Driver.BdQueue

/-!
# The Books of the AES Driver

The reference count of a software descriptor. `aes_submit` starts with one
reference, `_aes_desc_to_hw` takes one for each buffer descriptor it posts,
`aes_desc_to_hw` drops the first one when both rings are filled, and the bottom
halves drop one for each buffer descriptor they take back. The last one runs
`aes_free_desc`.

The device is a pool of counted objects in the sense of `Lib.RefPool`, with the
submissions as users. What a submission holds is read off a ledger that runs
along: it records which submission each posted buffer descriptor belongs to,
and for which submission each `aes_free_desc` ran. The ledger adds nothing to
what the driver does, it only names it.

## Main definitions

* `AesDev.pool`: The counts and the free list of the device.
* `Ledger`, `ledgerStep`: The system with its books.
* `outstanding`, `InProgress`, `weight`: What a submission holds.
* `Succeeds`: No posting fails.
* `Tagged`: Which submissions the descriptors of a ring were posted for.

## Theorems

* `hwIds_postBuf`, `hwIds_postBuf_failed`: A posting appends its software
  descriptor to the queue, or leaves the queue alone if it fails.
* `cleanLoop_held`: The clean-up loop drops one reference for each descriptor.
-/

namespace Ml605

namespace Driver

open Lib

section Pool

/-- The reference counts and the free list. -/
def AesDev.pool (d : AesDev) : Pool := ⟨fun sw => (d.desc sw).kref, d.descHead, d.fresh⟩

theorem modifyDesc_pool (d : AesDev) (sw : Nat) (f : AesDesc → AesDesc) :
    (d.modifyDesc sw f).pool =
      { d.pool with refs := Function.update d.pool.refs sw (f (d.desc sw)).kref } := by
  have hrefs : (fun x => (Function.update d.desc sw (f (d.desc sw)) x).kref) =
      Function.update (fun x => (d.desc x).kref) sw (f (d.desc sw)).kref :=
    Function.comp_update AesDesc.kref d.desc sw _
  simp only [AesDev.pool, AesDev.modifyDesc, hrefs]

/-- A change of a descriptor that leaves its count alone. -/
theorem modifyDesc_pool_same (d : AesDev) (sw : Nat) {f : AesDesc → AesDesc}
    (hf : ∀ desc, (f desc).kref = desc.kref) : (d.modifyDesc sw f).pool = d.pool := by
  rw [modifyDesc_pool, hf]
  have hsame : Function.update d.pool.refs sw (d.desc sw).kref = d.pool.refs :=
    Function.update_eq_self sw _
  rw [hsame]

theorem setRing_pool (d : AesDev) (rx : Bool) (r : BdRing) : (d.setRing rx r).pool = d.pool := by
  cases rx <;> rfl

/-- Preparing a descriptor takes one from the pool. -/
theorem prepareDesc_pool (d : AesDev) (rq : Request) :
    (prepareDesc d rq).1.pool = d.pool.alloc.1 ∧ (prepareDesc d rq).2 = d.pool.alloc.2 := by
  have halloc : (aesAllocDesc d).1.pool = d.pool.alloc.1 ∧
      (aesAllocDesc d).2 = d.pool.alloc.2 := by
    have hfree : d.pool.free = d.descHead := rfl
    unfold aesAllocDesc Pool.alloc
    rw [hfree]
    cases d.descHead with
    | nil => exact ⟨by rw [modifyDesc_pool]; rfl, rfl⟩
    | cons sw rest => exact ⟨by rw [modifyDesc_pool]; rfl, rfl⟩
  refine ⟨?_, halloc.2⟩
  refine Eq.trans ?_ halloc.1
  simp only [prepareDesc]
  rw [modifyDesc_pool_same]
  intro desc
  rfl

theorem hwSection_pool (env : Env) (jiffies : BitVec 32) (d : AesDev) (sw : Nat) :
    (hwSection env jiffies d sw).pool = d.pool := by
  unfold hwSection
  exact modifyDesc_pool_same _ _ fun _ => rfl

theorem aesFreeDescRest_pool (d : AesDev) (sw : Nat) : (aesFreeDescRest d sw).pool = d.pool := by
  unfold aesFreeDescRest
  exact modifyDesc_pool_same _ _ fun _ => rfl

theorem postOn_pool (rx : Bool) (d : AesDev) (buf : DmaBuf) (sw : Nat) :
    (postOn rx d buf sw).1.pool = d.pool.get sw (postBuf (d.ring rx) buf sw).2.2 := by
  have hdesc : (d.setRing rx (postBuf (d.ring rx) buf sw).1).desc = d.desc := by
    cases rx <;> rfl
  unfold postOn krefGet
  rw [modifyDesc_pool, setRing_pool, hdesc]
  rfl

/-- Dropping a reference, with the locked part of the release if it was the
    last one. -/
theorem putAndFree_pool (d : AesDev) (sw : Nat) :
    (putAndFree d sw).1.pool = (d.pool.put sw).1 ∧
      (putAndFree d sw).2 = if (d.pool.put sw).2 then [sw] else [] := by
  have hkref : d.pool.refs sw = (d.desc sw).kref := rfl
  unfold putAndFree krefPut Pool.put
  rw [hkref]
  by_cases hlast : (d.desc sw).kref - 1 = 0
  · simp only [hlast, BEq.rfl, if_true]
    refine ⟨?_, trivial⟩
    have hpool := modifyDesc_pool d sw fun desc => { desc with kref := desc.kref - 1 }
    simp only [AesDev.pool, aesFreeDescLocked, hlast] at hpool ⊢
    rw [Pool.mk.injEq] at hpool ⊢
    exact ⟨hpool.1, by rw [hpool.2.1], hpool.2.2⟩
  · have hne : ((d.desc sw).kref - 1 == 0) = false := beq_eq_false_iff_ne.mpr hlast
    simp only [hne, hlast, Bool.false_eq_true, if_false]
    exact ⟨modifyDesc_pool d sw fun desc => { desc with kref := desc.kref - 1 }, trivial⟩

/-- A submission is entered if it dropped the last reference. -/
theorem putAndFree_entered (d : AesDev) (sw n : Nat) :
    (if (putAndFree d sw).2 = [] then [] else [n]) = if (d.pool.put sw).2 then [n] else [] := by
  rw [(putAndFree_pool d sw).2]
  cases (d.pool.put sw).2 with
  | true => rfl
  | false => rfl

/-- What is released then is its descriptor. -/
theorem putAndFree_released {descOf : Nat → Nat} {sw n : Nat} (h : descOf n = sw) (d : AesDev) :
    (putAndFree d sw).2 = (if (putAndFree d sw).2 = [] then [] else [n]).map descOf := by
  rw [putAndFree_entered, (putAndFree_pool d sw).2]
  cases (d.pool.put sw).2 with
  | true => exact congrArg (fun x => [x]) h.symm
  | false => rfl

end Pool

section Post

/-- A change of the marks leaves the IDs alone. -/
theorem markPacket_id (r : BdRing) (first last j : Nat) :
    ((markPacket r first last).bd j).id = (r.bd j).id := by
  have hctrl : ∀ (sof eof : Bool) (b : Bd), (bdSetCtrl sof eof b).id = b.id := fun _ _ _ => rfl
  unfold markPacket
  split
  · exact modify_id _ _ (hctrl _ _) j
  · rw [modify_id _ _ (hctrl _ _), modify_id _ _ (hctrl _ _)]

theorem markPacket_bd_of_ne (r : BdRing) {first last j : Nat} (hfirst : j ≠ first)
    (hlast : j ≠ last) : (markPacket r first last).bd j = r.bd j := by
  unfold markPacket
  split
  · exact r.modify_bd_of_ne _ hfirst
  · rw [BdRing.modify_bd_of_ne _ _ hfirst, BdRing.modify_bd_of_ne _ _ hlast]

variable {r : BdRing} {buf : DmaBuf} (sw : Nat)

theorem packetRing_filled (hcnt : 0 < dmaBufCnt buf) (hroom : dmaBufCnt buf ≤ r.freeCnt) :
    Filled r (dmaBufCnt buf) (packetRing r buf sw) := by
  have hg := packetRing_toGroups r buf sw
  rw [alloc_eq_allocated hcnt hroom] at hg
  refine ⟨hcnt, hroom, hg, ?_⟩
  intro j hout
  have hle := bufSegs_length_le buf hcnt
  have hpos : 0 < (bufSegs buf).length := List.length_pos_of_ne_nil (bufSegs_ne_nil buf)
  unfold packetRing
  rw [alloc_eq_allocated hcnt hroom, markPacket_bd_of_ne, fillBds_bd_outside]
  · rfl
  · intro i hi
    exact hout i (by omega)
  · exact hout 0 hcnt
  · exact hout _ (by omega)

/-- Every descriptor of a packet carries the software descriptor. -/
theorem packetRing_ids (hwf : r.Wf) (hcnt : 0 < dmaBufCnt buf)
    (hroom : dmaBufCnt buf ≤ r.freeCnt) :
    idsFrom (packetRing r buf sw) r.freeHead (bufSegs buf).length =
      List.replicate (bufSegs buf).length (some sw) := by
  have hc := hwf.counts
  have hle := bufSegs_length_le buf hcnt
  have hg := packetRing_toGroups r buf sw
  rw [alloc_eq_allocated hcnt hroom] at hg
  have hfew : (bufSegs buf).length ≤ (allocated r (dmaBufCnt buf)).allCnt := by
    change _ ≤ r.allCnt
    omega
  refine List.eq_replicate_iff.mpr ⟨idsFrom_length .., ?_⟩
  intro o ho
  rcases List.mem_map.mp ho with ⟨i, hi, rfl⟩
  rw [List.mem_range] at hi
  have hfill := fillBds_bd_nth sw (bufSegs buf) (allocated r (dmaBufCnt buf)) r.freeHead
    hwf.freeHead_lt hfew i _ (List.getElem?_eq_getElem hi)
  rw [hg]
  unfold packetRing
  rw [markPacket_id, alloc_eq_allocated hcnt hroom, hfill]
  unfold writeBd
  rw [BdRing.modify_bd_self]
  rfl

/-- A posting that succeeds appends its software descriptor to the queue, once
    for each reference it takes. -/
theorem hwIds_postBuf (hwf : r.Wf) (hok : (postBuf r buf sw).2.1 = xstSuccess) :
    hwIds (postBuf r buf sw).1 = hwIds r ++ List.replicate (postBuf r buf sw).2.2 (some sw) ∧
      (postBuf r buf sw).1.postCnt = r.postCnt := by
  have hpos : 0 < (bufSegs buf).length := List.length_pos_of_ne_nil (bufSegs_ne_nil buf)
  have haccept := (postBuf_ok_iff hwf buf sw).mp hok
  have hfill := packetRing_filled sw haccept.entries haccept.room
  have halloc : (bdRingAlloc r (dmaBufCnt buf)).2 = xstSuccess := by
    by_contra hbad
    rw [postBuf_eq_of_refused sw hbad] at hok
    exact hbad hok
  rw [postBuf_eq_of_alloc sw halloc] at hok ⊢
  constructor
  · rw [hwIds_toHw hwf hfill hpos (bufSegs_length_le buf haccept.entries) hok,
      packetRing_ids sw hwf haccept.entries haccept.room]
  · have hg := Filled.toHw_groups hwf hfill hpos hok
    change (BdRing.toGroups (bdRingToHw _ _ _).1).postCnt = r.postCnt
    rw [hg]
    rfl

/-- A posting that fails leaves the queue of the hardware as it was, wherever it
    stopped. -/
theorem hwIds_postBuf_failed (hwf : r.Wf) (hbad : (postBuf r buf sw).2.1 ≠ xstSuccess) :
    hwIds (postBuf r buf sw).1 = hwIds r ∧ (postBuf r buf sw).1.postCnt = r.postCnt := by
  have hpos : 0 < (bufSegs buf).length := List.length_pos_of_ne_nil (bufSegs_ne_nil buf)
  rcases bdRingAlloc_spec r (dmaBufCnt buf) with ⟨hcnt, hroom, halloc, -⟩ | ⟨-, hno, hsame⟩
  · rw [postBuf_eq_of_alloc sw halloc] at hbad ⊢
    have hfill := packetRing_filled sw hcnt hroom
    rcases bdRingToHw_spec (packetRing r buf sw) hpos r.freeHead with ⟨-, hok, -⟩ | ⟨-, -, hg⟩
    · exact absurd hok hbad
    · -- The set stays in the pre-processing group; the groups behind it did not move.
      rw [hfill.groups] at hg
      refine ⟨hwIds_congr (by rw [hg]; rfl) (by rw [hg]; rfl) (by rw [hg]; rfl) fun i hi => ?_,
        by rw [hg]; rfl⟩
      rw [bdRingToHw_id, hfill.outside]
      intro j hj
      exact hw_ne_free hwf hi (by omega)
  · rw [postBuf_eq_of_refused sw hno, hsame]
    exact ⟨rfl, rfl⟩

end Post

/-- What the unlocked part of an `aes_free_desc` did: the buffers it unmapped
    and the argument it called back with, for the submission it ran for. -/
structure Finished where
  submission : Nat
  unmapped : DmaBuf × DmaBuf
  called : Option Nat

/-- The system with its books. For each submission, the software descriptor it
    was given and its request; for each ring, whose the descriptors with the
    hardware are, the oldest first; the references of failed submissions that
    nobody will drop; for which submissions `aes_free_desc` has run its locked
    part, for which of them the rest is still to come, and what it did where it
    is done. -/
structure Ledger where
  sys : System
  descOf : Nat → Nat
  request : Nat → Request
  posted : Bool → List Nat
  lost : Nat → Nat
  freed : List Nat
  pending : List Nat
  finished : List Finished

def Ledger.init (num : Nat) : Ledger where
  sys := System.init num
  descOf := fun _ => 0
  request := fun _ => blockRequest 0 0
  posted := fun _ => []
  lost := fun _ => 0
  freed := []
  pending := []
  finished := []

/-- The entries of a list of submissions whose descriptors, cleaned up in a row,
    dropped a last reference. -/
def lastPuts (rx : Bool) : List Nat → AesDev → Nat → List Nat
  | [], _, _ => []
  | n :: ns, d, bd =>
    let put := cleanBh rx d bd
    let cleared := put.1.setRing rx ((put.1.ring rx).modify bd (bdSetId none))
    (if put.2 = [] then [] else [n]) ++ lastPuts rx ns cleared ((d.ring rx).next bd)

/-- A posting on a ring, entered for the submission if it succeeded. -/
def enterPost (l : Ledger) (rx : Bool) (n : Nat) (buf : DmaBuf) (sw : Nat) : Bool → List Nat :=
  if (postOn rx l.sys.dev buf sw).2 = xstSuccess then
    Function.update l.posted rx (l.posted rx ++
      List.replicate (postBuf (l.sys.dev.ring rx) buf sw).2.2 n)
  else l.posted

/-- A posting that failed: neither the reference of the call nor those its loop
    took are dropped by anybody. -/
def enterLost (l : Ledger) (rx : Bool) (n : Nat) (buf : DmaBuf) (sw : Nat) : Nat → Nat :=
  if (postOn rx l.sys.dev buf sw).2 = xstSuccess then l.lost
  else Function.update l.lost n (l.lost n + 1 + (postBuf (l.sys.dev.ring rx) buf sw).2.2)

/-- The entry of a step that leads to the given state. -/
def enter (l : Ledger) (t : System) : Event → Ledger
  | .submit _ rq =>
    -- A call that fails to map its buffers takes no number.
    if t.serial = l.sys.serial then { l with sys := t }
    else
      { l with
        sys := t
        descOf := Function.update l.descOf l.sys.serial (prepareDesc l.sys.dev rq).2
        request := Function.update l.request l.sys.serial rq }
  | .rx caller =>
    match l.sys.phase caller with
    | .queued sw n => { l with
        sys := t
        posted := enterPost l true n (l.sys.dev.desc sw).dstBuf sw
        lost := enterLost l true n (l.sys.dev.desc sw).dstBuf sw }
    | _ => { l with sys := t }
  | .tx caller =>
    match l.sys.phase caller with
    | .rxPosted sw n => { l with
        sys := t
        posted := enterPost l false n (l.sys.dev.desc sw).srcBuf sw
        lost := enterLost l false n (l.sys.dev.desc sw).srcBuf sw }
    | _ => { l with sys := t }
  | .put caller =>
    match l.sys.phase caller with
    | .txPosted sw n =>
      let last := if (putAndFree l.sys.dev sw).2 = [] then [] else [n]
      { l with sys := t, freed := l.freed ++ last, pending := l.pending ++ last }
    | _ => { l with sys := t }
  | .reclaim rx =>
    let fromHw := bdRingFromHw (l.sys.dev.ring rx) bdNum
    let last := lastPuts rx ((l.posted rx).take fromHw.2) (l.sys.dev.setRing rx fromHw.1)
      (l.sys.dev.ring rx).hwHead
    { l with
      sys := t
      posted := Function.update l.posted rx ((l.posted rx).drop fromHw.2)
      freed := l.freed ++ last
      pending := l.pending ++ last }
  | .release sw =>
    let i := l.sys.releasing.idxOf sw
    let desc := l.sys.dev.desc sw
    { l with
      sys := t
      pending := l.pending.eraseIdx i
      finished := l.finished ++ [⟨l.pending.getD i 0, (desc.srcBuf, desc.dstBuf),
        if desc.cb then some desc.priv else none⟩] }
  | _ => { l with sys := t }

/-- A step of the system and its entry. -/
def ledgerStep (env : Env) (l : Ledger) (e : Event) : Option Ledger :=
  (step env l.sys e).map fun t => enter l t e

/-- The submission is between its start and the end of `aes_desc_to_hw`. -/
def InProgress (s : System) (n : Nat) : Prop := ∃ c, (s.phase c).serial = some n

/-- How many of its buffer descriptors are posted and not taken back. -/
def outstanding (l : Ledger) (n : Nat) : Nat :=
  (l.posted true).count n + (l.posted false).count n

/-- No posting fails. -/
def Succeeds (l : Ledger) : Event → Prop
  | .rx caller => ∀ sw n, l.sys.phase caller = .queued sw n →
      (rxSection l.sys.dev sw).2 = xstSuccess
  | .tx caller => ∀ sw n, l.sys.phase caller = .rxPosted sw n →
      (txSection l.sys.dev sw).2 = xstSuccess
  | _ => True

section Busy

/-- The reference a submission holds while it is in progress. -/
noncomputable def busy (phase : Nat → Phase) (n : Nat) : Nat :=
  open Classical in if ∃ c, (phase c).serial = some n then 1 else 0

theorem busy_of_inProgress {phase : Nat → Phase} {c n : Nat} (h : (phase c).serial = some n) :
    busy phase n = 1 := if_pos ⟨c, h⟩

theorem busy_congr {phase phase' : Nat → Phase} {n : Nat}
    (h : (∃ c, (phase' c).serial = some n) ↔ ∃ c, (phase c).serial = some n) :
    busy phase' n = busy phase n := by
  unfold busy
  by_cases hp : ∃ c, (phase c).serial = some n
  · rw [if_pos (h.mpr hp), if_pos hp]
  · rw [if_neg fun hp' => hp (h.mp hp'), if_neg hp]

/-- A caller that keeps its number keeps its reference. -/
theorem busy_moved {phase : Nat → Phase} {c : Nat} {p : Phase}
    (h : p.serial = (phase c).serial) : busy (Function.update phase c p) = busy phase := by
  have hserial : ∀ c', (Function.update phase c p c').serial = (phase c').serial := by
    intro c'
    by_cases hc : c' = c
    · rw [hc, Function.update_self, h]
    · rw [Function.update_of_ne hc]
  funext n
  exact busy_congr (exists_congr fun c' => by rw [hserial])

/-- A caller whose old and whose new number is another one does not matter. -/
theorem busy_others {phase : Nat → Phase} {c n : Nat} {p : Phase}
    (hold : (phase c).serial ≠ some n) (hnew : p.serial ≠ some n) :
    busy (Function.update phase c p) n = busy phase n := by
  refine busy_congr (exists_congr fun c' => ?_)
  by_cases hc : c' = c
  · rw [hc, Function.update_self]
    exact ⟨fun h => absurd h hnew, fun h => absurd h hold⟩
  · rw [Function.update_of_ne hc]

/-- A new submission holds one reference. -/
theorem busy_started {phase : Nat → Phase} {c n : Nat} {p : Phase}
    (hidle : (phase c).serial = none) (hp : p.serial = some n) :
    busy (Function.update phase c p) = Function.update (busy phase) n 1 := by
  funext m
  by_cases hm : m = n
  · rw [hm, Function.update_self]
    exact if_pos ⟨c, by rw [Function.update_self]; exact hp⟩
  · rw [Function.update_of_ne hm]
    refine busy_others (by rw [hidle]; exact nofun) ?_
    rw [hp]
    exact fun h => hm (Option.some.inj h).symm

/-- A submission that is through holds it no longer. -/
theorem busy_ended {phase : Nat → Phase} {c n : Nat} (hn : (phase c).serial = some n)
    (honly : ∀ c', (phase c').serial = some n → c' = c) :
    busy (Function.update phase c .idle) = Function.update (busy phase) n 0 := by
  funext m
  by_cases hm : m = n
  · rw [hm, Function.update_self]
    refine if_neg ?_
    rintro ⟨c', hc'⟩
    by_cases hc : c' = c
    · rw [hc, Function.update_self] at hc'
      exact nomatch hc'
    · rw [Function.update_of_ne hc] at hc'
      exact hc (honly c' hc')
  · rw [Function.update_of_ne hm]
    refine busy_others ?_ nofun
    rw [hn]
    exact fun h => hm (Option.some.inj h).symm

end Busy

/-- What a submission holds. -/
noncomputable def weight (l : Ledger) (n : Nat) : Nat :=
  outstanding l n + busy l.sys.phase n + l.lost n

theorem weight_of_inProgress {l : Ledger} {c n : Nat} (h : (l.sys.phase c).serial = some n) :
    weight l n = outstanding l n + 1 + l.lost n := by
  unfold weight
  rw [busy_of_inProgress h]

section Clean

variable {descOf held : Nat → Nat} {users : Nat} {gone : List Nat}

/-- What the clean-up loop does to the rings. -/
theorem cleanLoop_ring (rx : Bool) : ∀ (n : Nat) (d : AesDev) (bd : Nat),
    (cleanLoop rx n d bd).1.ring rx = clearIds n (d.ring rx) bd ∧
      (cleanLoop rx n d bd).1.ring (!rx) = d.ring (!rx) := by
  intro n
  induction n with
  | zero => intro d bd; exact ⟨rfl, rfl⟩
  | succ n ih =>
      intro d bd
      rcases ih ((cleanBh rx d bd).1.setRing rx
        (((cleanBh rx d bd).1.ring rx).modify bd (bdSetId none))) ((d.ring rx).next bd)
        with ⟨hown, hother⟩
      refine ⟨hown.trans ?_, hother.trans ?_⟩
      · rw [AesDev.ring_setRing, cleanBh_ring]
        rfl
      · rw [AesDev.ring_setRing_not, cleanBh_ring]

/-- On its own ring a round of a bottom half is the round of the ring, the other
    one is not touched. -/
theorem reclaim_ring (rx : Bool) (d : AesDev) :
    (reclaim rx d).1.ring rx = (roundRing (d.ring rx) bdNum).1 ∧
      (reclaim rx d).1.ring (!rx) = d.ring (!rx) := by
  rcases cleanLoop_ring rx (bdRingFromHw (d.ring rx) bdNum).2
    (d.setRing rx (bdRingFromHw (d.ring rx) bdNum).1) (d.ring rx).hwHead with ⟨hown, hother⟩
  unfold reclaim roundRing
  simp only [AesDev.ring_setRing, AesDev.ring_setRing_not] at hown hother ⊢
  exact ⟨by rw [hown], hother⟩

/-- The buffer descriptors of a ring from `bd` on were posted for the submissions
    of a list, one for each entry. -/
structure Tagged (descOf : Nat → Nat) (r : BdRing) (bd : Nat) (tags : List Nat) : Prop where
  onRing : bd < r.allCnt
  few : tags.length ≤ r.allCnt
  ids : idsFrom r bd tags.length = tags.map fun n => some (descOf n)

namespace Tagged

variable {d : AesDev} {rx : Bool} {bd n : Nat} {ns : List Nat}

/-- The descriptor at hand belongs to the first submission of the list. -/
theorem cleanBh_eq (h : Tagged descOf (d.ring rx) bd (n :: ns)) :
    cleanBh rx d bd = putAndFree d (descOf n) := by
  have hids := h.ids
  rw [List.length_cons, idsFrom_succ, List.map_cons, List.cons.injEq] at hids
  unfold cleanBh
  rw [hids.1]

/-- Behind a descriptor that has been cleaned the list goes on. -/
theorem cleaned (h : Tagged descOf (d.ring rx) bd (n :: ns)) :
    Tagged descOf (((cleanBh rx d bd).1.setRing rx
      (((cleanBh rx d bd).1.ring rx).modify bd (bdSetId none))).ring rx) ((d.ring rx).next bd)
      ns := by
  have hids := h.ids
  have hfew := h.few
  rw [List.length_cons] at hids hfew
  rw [idsFrom_succ, List.map_cons, List.cons.injEq] at hids
  rw [AesDev.ring_setRing, cleanBh_ring]
  refine ⟨(d.ring rx).next_lt h.onRing, Nat.le_of_succ_le hfew, ?_⟩
  rw [idsFrom_next_cleared _ h.onRing hfew]
  exact hids.2

end Tagged

/-- The clean-up loop drops one reference for each descriptor, on behalf of the
    submission it was posted for. -/
theorem cleanLoop_held (rx : Bool) (tags : List Nat) : ∀ (d : AesDev) (bd : Nat)
    (held : Nat → Nat) (gone : List Nat), Tagged descOf (d.ring rx) bd tags →
    Held d.pool descOf (fun n => tags.count n + held n) users gone →
    Held (cleanLoop rx tags.length d bd).1.pool descOf held users
      (gone ++ lastPuts rx tags d bd) := by
  induction tags with
  | nil =>
      intro d bd held gone _ h
      simp only [List.count_nil, Nat.zero_add] at h
      simp only [lastPuts, List.append_nil]
      exact h
  | cons n ns ih =>
      intro d bd held gone htags h
      have hpos : 0 < (n :: ns).count n + held n := by
        rw [List.count_cons_self]
        omega
      have hone := held_put h hpos
      -- The first tag pays for this put; the rest pays for the calls that follow.
      have hheld : Function.update (fun m => (n :: ns).count m + held m) n
          ((n :: ns).count n + held n - 1) = fun m => ns.count m + held m := by
        funext m
        by_cases hm : m = n
        · rw [hm, Function.update_self, List.count_cons_self]
          omega
        · rw [Function.update_of_ne hm, List.count_cons_of_ne fun heq => hm heq.symm]
      rw [hheld] at hone
      have hgone : (if (cleanBh rx d bd).2 = [] then [] else [n]) =
          if (d.pool.put (descOf n)).2 then [n] else [] := by
        rw [htags.cleanBh_eq, putAndFree_entered]
      simp only [List.length_cons, cleanLoop, lastPuts]
      rw [hgone, ← List.append_assoc]
      refine ih _ _ held _ htags.cleaned ?_
      rw [setRing_pool, htags.cleanBh_eq, (putAndFree_pool d (descOf n)).1]
      exact hone

end Clean

end Driver

end Ml605
