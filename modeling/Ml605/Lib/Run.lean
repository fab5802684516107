import Mathlib.Data.List.Basic

/-!
# Runs of a Labelled Step Function

Software in this development is a step function `S → E → Option S`: the event
says which pending activity is scheduled next, and `none` means that activity
is not enabled. A schedule is a list of events.

`Run` carries a side condition on every step as well. A statement about all
schedules takes the condition that is always true; a statement about the
schedules that avoid some interleaving takes the condition that excludes it,
evaluated in the state *before* the step, so it never mentions anything the
step computes.

The rules below are the only inductions over schedules anywhere: what one step
preserves, a whole run preserves.

## Main definitions

* `Run`: A schedule every step of which is enabled and meets a condition.
* `Free`: The condition every step meets.

## Theorems

* `run_append`: Runs compose.
* `run_inv`: An invariant of every step is an invariant of every run.
* `run_inv_count`: The same for an invariant that counts the steps.
* `run_mono`: Weakening the condition under an invariant keeps a run a run.
* `run_foldl`: A system that is never stuck runs through every schedule.
* `run_of_foldlM`: A schedule that can be carried out is a run.
* `run_length_le`: A measure that drops at every step bounds the schedule.
* `run_size_le`: A measure that drops down to zero has dropped by the length.
-/

namespace Ml605

namespace Lib

variable {S E : Type}

/-- The schedule `es` leads from one state to another, every event enabled
    when its turn comes and meeting the condition `C` there. -/
inductive Run (step : S → E → Option S) (C : S → E → Prop) : S → List E → S → Prop
  | nil (s : S) : Run step C s [] s
  | cons (s s' t : S) (e : E) (es : List E) (hstep : step s e = some s') (hc : C s e)
      (hrest : Run step C s' es t) : Run step C s (e :: es) t

/-- No condition at all: the schedules of a system left to itself. -/
def Free : S → E → Prop := fun _ _ => True

variable {step : S → E → Option S} {C : S → E → Prop}

theorem run_append {s t u : S} {es fs : List E} (h1 : Run step C s es t)
    (h2 : Run step C t fs u) : Run step C s (es ++ fs) u := by
  induction h1 with
  | nil s => exact h2
  | cons s s' t e es hstep hc _ ih => exact Run.cons s s' u e _ hstep hc (ih h2)

/-- An invariant of every step is an invariant of every run. The condition is
    available in the step case, which is how an invariant that only holds
    along restricted schedules is proved. -/
theorem run_inv {Inv : S → Prop}
    (hpres : ∀ s e s', Inv s → C s e → step s e = some s' → Inv s')
    {s t : S} {es : List E} (h : Run step C s es t) (h0 : Inv s) : Inv t := by
  induction h with
  | nil s => exact h0
  | cons s s' t e es hstep hc _ ih => exact ih (hpres s e s' h0 hc hstep)

/-- An invariant that counts the steps, for systems that are in a known state
    after so many of them. -/
theorem run_inv_count (Inv : Nat → S → Prop)
    (hpres : ∀ n s e s', Inv n s → C s e → step s e = some s' → Inv (n + 1) s')
    {s t : S} {es : List E} (h : Run step C s es t) : ∀ n, Inv n s → Inv (n + es.length) t := by
  induction h with
  | nil s => intro n h0; exact h0
  | cons s s' t e es hstep hc _ ih =>
      intro n h0
      have hrest := ih (n + 1) (hpres n s e s' h0 hc hstep)
      rw [Nat.add_right_comm, Nat.add_assoc] at hrest
      exact hrest

/-- A condition that implies another, at least where the invariant holds. -/
theorem run_mono (Inv : S → Prop) {D : S → E → Prop}
    (hpres : ∀ s e s', Inv s → C s e → step s e = some s' → Inv s')
    (hcd : ∀ s e, Inv s → C s e → D s e) {s t : S} {es : List E}
    (h : Run step C s es t) (h0 : Inv s) : Run step D s es t := by
  induction h with
  | nil s => exact Run.nil s
  | cons s s' t e es hstep hc _ ih =>
      exact Run.cons s s' t e es hstep (hcd s e h0 hc) (ih (hpres s e s' h0 hc hstep))

/-- A system that is never stuck runs through every schedule whose events meet
    the condition in every state. -/
theorem run_foldl {next : S → E → S} (hstep : ∀ s e, step s e = some (next s e)) :
    ∀ (es : List E) (s : S), (∀ e, e ∈ es → ∀ u, C u e) → Run step C s es (es.foldl next s) := by
  intro es
  induction es with
  | nil => intro s _; exact Run.nil s
  | cons e es ih =>
      intro s hc
      exact Run.cons s (next s e) _ e es (hstep s e) (hc e List.mem_cons_self s)
        (ih (next s e) fun e' he' => hc e' (List.mem_cons_of_mem _ he'))

/-- A schedule that can be carried out, and whose events meet the condition in
    every state, is a run. -/
theorem run_of_foldlM : ∀ (es : List E) (s : S) {t : S}, (∀ e, e ∈ es → ∀ u, C u e) →
    es.foldlM step s = some t → Run step C s es t := by
  intro es
  induction es with
  | nil =>
      intro s t _ h
      rw [← Option.some.inj h]
      exact Run.nil s
  | cons e es ih =>
      intro s t hc h
      rw [List.foldlM_cons] at h
      cases hs : step s e with
      | none =>
          rw [hs] at h
          exact nomatch h
      | some s' =>
          rw [hs] at h
          exact Run.cons s s' t e es hs (hc e List.mem_cons_self s)
            (ih s' (fun e' he' => hc e' (List.mem_cons_of_mem _ he')) h)

/-- A measure that drops at every step bounds the length of every schedule, so
    a system with one cannot be scheduled forever. -/
theorem run_length_le {Inv : S → Prop} (size : S → Nat)
    (hpres : ∀ s e s', Inv s → C s e → step s e = some s' → Inv s')
    (hdrop : ∀ s e s', Inv s → C s e → step s e = some s' → size s' < size s)
    {s t : S} {es : List E} (h : Run step C s es t) (h0 : Inv s) :
    es.length + size t ≤ size s := by
  induction h with
  | nil s => simp only [List.length_nil, Nat.zero_add, Nat.le_refl]
  | cons s s' t e es hstep hc _ ih =>
      have hd := hdrop s e s' h0 hc hstep
      have hrest := ih (hpres s e s' h0 hc hstep)
      simp only [List.length_cons]
      omega

/-- A measure that drops at every step until it is zero has dropped by the
    length of the schedule, so after enough steps it is zero. -/
theorem run_size_le {Inv : S → Prop} (size : S → Nat)
    (hpres : ∀ s e s', Inv s → C s e → step s e = some s' → Inv s')
    (hdrop : ∀ s e s', Inv s → C s e → step s e = some s' → size s' ≤ size s - 1)
    {s t : S} {es : List E} (h : Run step C s es t) (h0 : Inv s) :
    size t ≤ size s - es.length := by
  induction h with
  | nil s => exact Nat.le_refl _
  | cons s s' t e es hstep hc _ ih =>
      have hd := hdrop s e s' h0 hc hstep
      have hrest := ih (hpres s e s' h0 hc hstep)
      simp only [List.length_cons]
      omega

end Lib

end Ml605
