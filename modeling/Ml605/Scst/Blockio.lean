import Mathlib.Data.List.Perm.Basic
import Ml605.Lib.Run

/-!
# Block I/O Commands of the SCST Virtual Disk

The asynchronous half of a BLOCKIO command in `scst_vdisk.c`: from the point
where `blockio_exec_rw` has built its chain of bios and sets the in-flight
counter, to the point where nothing that belongs to the command can run any
more.

Four activities share one `scst_blockio_work` and, with AES enabled, one
`scst_aes_work`: the submitting thread, the completion of every bio, the AES
engine's callback and the write work item. None of them waits for another, so
the state keeps the list of activities that are still to run, and an event
picks one of them. Each entry of the list runs exactly once, which is the
block layer's promise about bios and the AES driver's about its callback; the
order is left entirely open.

A submission loop is not one activity but one per bio, since a bio may end
while the loop is still handing out the next. In the same way
`blockio_check_finish` gives up control inside its read branch: once
`aes_submit` has been called the callback may run before the function gets to
its `kmem_cache_free`, so that call is an entry of its own.

Freeing is counted, and every dereference of one of the two objects goes
through `derefWork` or `derefAes`, which note a use after free. What the rest
of the system sees of the command, `scst_cmd_done`, the sense data and the end
of each bio, is recorded in order in a log.

`virt_dev->aes` is read once per command here. The source reads it again in
`blockio_check_finish`; the attribute is assumed not to be rewritten while the
command is in flight.

## Main definitions

* `Command`: The direction, the AES switch and the number of bios.
* `Task`: An activity that has still to run.
* `LogEvent`: What the target core and the block layer observe.
* `State`: The command's objects, its log and its pending activities.
* `blockioAesSubmit`, `blockioCheckFinish`, `blockioEndio`, `aesCleanup`,
  `aesWriteWorkFn`, `blockioWriteAesCb`, `blockioReadAesCb`,
  `blockioExecRw`: The functions of the source.
* `step`: Running one pending activity.

## Theorems

* `step_eq`: What an enabled step does.
-/

namespace Ml605

namespace Scst

/-- What `blockio_exec_rw` is asked to do, once its bios are built. -/
structure Command where
  /-- The command writes to the device. -/
  write : Bool
  /-- `virt_dev->aes`. -/
  aes : Bool
  /-- How many bios the segment loop built. -/
  bios : Nat
deriving DecidableEq, Repr

/-- The two senses `blockio_endio` can load. -/
inductive Sense
  | readError
  | writeError
deriving DecidableEq, Repr

/-- What is observed of a command, in the order it happens. -/
inductive LogEvent
  | bioEnded (bio : Nat) (error : Int)
  | senseSet (sense : Sense)
  | cmdDone
deriving DecidableEq, Repr

/-- The activities of a command that have still to run. -/
inductive Task
  /-- The submission loop of `blockio_exec_rw`, then its final check. -/
  | execSubmit (hbio : List Nat)
  /-- The submission loop of `aes_write_work_fn`, then its final check. -/
  | workSubmit (hbio : List Nat)
  /-- A submitted bio, whose completion is `blockio_endio`. -/
  | bioEndio (bio : Nat)
  /-- `blockio_write_aes_cb`, owed by the AES engine. -/
  | writeAesCb
  /-- `blockio_read_aes_cb`, owed by the AES engine. -/
  | readAesCb
  /-- The queued work item, `aes_write_work_fn`. -/
  | aesWrite
  /-- The tail of `blockio_check_finish` behind `blockio_aes_submit`. -/
  | freeWork
deriving DecidableEq, Repr

/-- How the block layer reports a bio. -/
structure BioStatus where
  /-- `BIO_UPTODATE`. -/
  uptodate : Bool
  error : Int
deriving DecidableEq, Repr

/-- One command in flight. -/
structure State where
  /-- `blockio_work->bios_inflight`. -/
  biosInflight : Int
  /-- `aes_work->hbio`. -/
  hbio : List Nat
  /-- How often the `scst_blockio_work` was given back to its cache. -/
  workFreed : Nat
  /-- How often `aes_cleanup` released the `scst_aes_work`. -/
  aesFreed : Nat
  /-- A freed object was dereferenced. -/
  stale : Bool
  /-- References taken on the command with `scst_cmd_get`. -/
  cmdRefs : Int
  completed : Bool
  log : List LogEvent
  pending : List Task
deriving DecidableEq, Repr

/-- Reading a field of the `scst_blockio_work`. -/
def derefWork (s : State) : State :=
  { s with stale := s.stale || decide (0 < s.workFreed) }

/-- Reading a field of the `scst_aes_work`. -/
def derefAes (s : State) : State :=
  { s with stale := s.stale || decide (0 < s.aesFreed) }

/-- `kmem_cache_free(blockio_work_cachep, blockio_work)`. -/
def kmemCacheFree (s : State) : State := { s with workFreed := s.workFreed + 1 }

def scstCmdGet (s : State) : State := { s with cmdRefs := s.cmdRefs + 1 }

def scstCmdPut (s : State) : State := { s with cmdRefs := s.cmdRefs - 1 }

/-- `cmd->completed = 1` followed by the call through `cmd->scst_cmd_done`. -/
def scstCmdDone (s : State) : State :=
  { s with completed := true, log := s.log ++ [LogEvent.cmdDone] }

/-- Hand an activity to whoever will run it later. -/
def spawn (t : Task) (s : State) : State := { s with pending := s.pending ++ [t] }

/-- `aes_cleanup`: the choice of the table reads `aes->blockio_work->write`. -/
def aesCleanup (s : State) : State :=
  let s := derefWork (derefAes s)
  { s with aesFreed := s.aesFreed + 1 }

/-- `blockio_aes_submit`. A write is reported done before it is encrypted. -/
def blockioAesSubmit (c : Command) (s : State) : State :=
  let s := derefWork s
  if c.write then
    spawn Task.writeAesCb (derefAes (scstCmdDone (scstCmdGet s)))
  else
    spawn Task.readAesCb (derefAes s)

/-- `blockio_check_finish`. The work is freed behind `blockio_aes_submit` as an
    activity of its own, since the callback may come first. -/
def blockioCheckFinish (c : Command) (s : State) : State :=
  let s := derefWork s
  let s := { s with biosInflight := s.biosInflight - 1 }
  if s.biosInflight = 0 then
    let s := derefWork s
    if c.aes then
      if c.write then
        -- An encrypted write was reported when it was submitted.
        kmemCacheFree (scstCmdPut (aesCleanup s))
      else
        -- A read has its data now and can be decrypted.
        spawn Task.freeWork (blockioAesSubmit c s)
    else
      kmemCacheFree (scstCmdDone s)
  else s

/-- `-EIO`. -/
def eio : Int := -5

/-- The error `blockio_endio` goes by: a bio that is not up to date but carries
    no error is given one. -/
def endioError (st : BioStatus) : Int :=
  if st.uptodate = false ∧ st.error = 0 then eio else st.error

/-- The sense loaded for a failed bio. `submit_bio` put the direction of the
    command into `bi_rw`. -/
def endioSense (c : Command) : Sense :=
  if c.write then Sense.writeError else Sense.readError

/-- `blockio_endio`. -/
def blockioEndio (c : Command) (bio : Nat) (st : BioStatus) (s : State) : State :=
  let error := endioError st
  let s := { derefWork s with log := s.log ++ [LogEvent.bioEnded bio error] }
  -- The sense is loaded into the command before the reference is dropped.
  let s := if error = 0 then s else
    { derefWork s with log := s.log ++ [LogEvent.senseSet (endioSense c)] }
  blockioCheckFinish c s

/-- `blockio_write_aes_cb`: queue the work item embedded in the AES work. -/
def blockioWriteAesCb (s : State) : State :=
  spawn Task.aesWrite (derefAes (derefWork s))

/-- `blockio_read_aes_cb`. -/
def blockioReadAesCb (s : State) : State :=
  kmemCacheFree (scstCmdDone (derefWork (aesCleanup (derefWork s))))

/-- `aes_write_work_fn` up to its submission loop. -/
def aesWriteWorkFn (s : State) : State :=
  let s := derefWork (derefAes s)
  spawn (Task.workSubmit s.hbio) s

/-- Run one activity to its next scheduling point. -/
def runTask (c : Command) (st : BioStatus) : Task → State → State
  | .execSubmit [], s => blockioCheckFinish c s
  | .execSubmit (b :: bs), s => spawn (.execSubmit bs) (spawn (.bioEndio b) s)
  | .workSubmit [], s => blockioCheckFinish c (derefAes s)
  | .workSubmit (b :: bs), s => spawn (.workSubmit bs) (spawn (.bioEndio b) s)
  | .bioEndio b, s => blockioEndio c b st s
  | .writeAesCb, s => blockioWriteAesCb s
  | .readAesCb, s => blockioReadAesCb s
  | .aesWrite, s => aesWriteWorkFn s
  | .freeWork, s => kmemCacheFree s

/-- The end of `blockio_exec_rw`: the counter is set to one more than the
    number of bios, and either the AES engine or the submission loop takes
    over. -/
def blockioExecRw (c : Command) : State :=
  let hbio := List.range c.bios
  let s : State :=
    { biosInflight := (c.bios : Int) + 1, hbio := [], workFreed := 0, aesFreed := 0,
      stale := false, cmdRefs := 0, completed := false, log := [], pending := [] }
  if c.aes && c.write then
    blockioAesSubmit c { s with hbio := hbio }
  else
    spawn (.execSubmit hbio) s

/-- Without encryption, or for a read, the submission loop comes first. -/
theorem blockioExecRw_submits (c : Command) (h : (c.aes && c.write) = false) :
    blockioExecRw c = spawn (.execSubmit (List.range c.bios))
      { biosInflight := (c.bios : Int) + 1, hbio := [], workFreed := 0, aesFreed := 0,
        stale := false, cmdRefs := 0, completed := false, log := [], pending := [] } := by
  simp only [blockioExecRw, h, Bool.false_eq_true, if_false]

/-- An event: which pending activity runs, and the status the block layer
    reports if that activity is the end of a bio. -/
abbrev Event := Nat × BioStatus

/-- Run the chosen activity, if there is one at that place. -/
def step (c : Command) (s : State) (e : Event) : Option State :=
  match s.pending[e.1]? with
  | none => none
  | some t => some (runTask c e.2 t { s with pending := s.pending.eraseIdx e.1 })

/-- An enabled step takes one activity off the list and runs it. The list is
    the activity and the rest up to order, which is all the counting
    arguments look at. -/
theorem step_eq (c : Command) (s s' : State) (e : Event) (h : step c s e = some s') :
    ∃ (t : Task) (rest : List Task), (t :: rest).Perm s.pending ∧
      s' = runTask c e.2 t { s with pending := rest } := by
  simp only [step] at h
  cases hget : s.pending[e.1]? with
  | none =>
      rw [hget] at h
      exact absurd h (by simp only [reduceCtorEq, not_false_eq_true])
  | some t =>
      rw [hget] at h
      rcases List.getElem?_eq_some_iff.mp hget with ⟨hlt, ht⟩
      refine ⟨t, s.pending.eraseIdx e.1, ?_, (Option.some.inj h).symm⟩
      rw [← ht]
      exact List.getElem_cons_eraseIdx_perm hlt

end Scst

end Ml605
