import Mathlib.Data.List.Basic

/-!
# Machines that Answer

A machine takes calls one after another and answers each. Two machines are
compared by their answers: if a relation between their states is kept by every
call, and related states give corresponding answers, then a whole dialogue with
the one is a dialogue with the other.

## Main definitions

* `dialogue`: The state after a list of calls, and the answers.

## Theorems

* `dialogue_simulates`: Related machines give corresponding answers.
-/

namespace Ml605

namespace Lib

variable {S T E A B : Type*}

/-- The state after a list of calls, and the answers to them. -/
def dialogue (call : S → E → S × A) : S → List E → S × List A
  | s, [] => (s, [])
  | s, e :: es =>
    let res := dialogue call (call s e).1 es
    (res.1, (call s e).2 :: res.2)

/-- Related machines give corresponding answers. -/
theorem dialogue_simulates {call : S → E → S × A} {call' : T → E → T × B} {R : S → T → Prop}
    {P : E → Prop} (f : B → A)
    (hcall : ∀ s t e, R s t → P e →
      R (call s e).1 (call' t e).1 ∧ (call s e).2 = f (call' t e).2) :
    ∀ (es : List E) (s : S) (t : T), R s t → (∀ e ∈ es, P e) →
      R (dialogue call s es).1 (dialogue call' t es).1 ∧
        (dialogue call s es).2 = (dialogue call' t es).2.map f := by
  intro es
  induction es with
  | nil => intro s t h _; exact ⟨h, rfl⟩
  | cons e es ih =>
      intro s t h hes
      have hone := hcall s t e h (hes e List.mem_cons_self)
      have hrest := ih _ _ hone.1 fun e he => hes e (List.mem_cons_of_mem _ he)
      refine ⟨hrest.1, ?_⟩
      simp only [dialogue, List.map_cons, hone.2, hrest.2]

end Lib

end Ml605
