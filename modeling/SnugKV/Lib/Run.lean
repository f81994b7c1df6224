import Mathlib.Data.Option.Basic
import Mathlib.Tactic.TypeStar

/-!
# Run — systems that take one event after the other

A system is a partial function `step` on states and events. `run` is a whole list of events,
`Along P` says that every event of a run meets `P` in the state it happens in.

* `run_preserves`    — what every event with `P` preserves holds after every run along `P`;
* `along_of_preserves` — and what such an event guarantees where the invariant holds, it
  guarantees at every point of the run.
-/

namespace SnugKV
namespace Lib

variable {σ ε : Type*} (step : σ → ε → Option σ)

/-- The state after the events; `none` if one of them cannot happen. -/
def run : σ → List ε → Option σ
  | s, [] => some s
  | s, e :: es => (step s e).bind fun s' => run s' es

/-- Every event of the run meets `P` in the state it happens in. -/
def Along (P : σ → ε → Prop) : σ → List ε → Prop
  | _, [] => True
  | s, e :: es => P s e ∧ ∀ s', step s e = some s' → Along P s' es

variable {step} {I : σ → Prop} {P Q : σ → ε → Prop}

theorem run_preserves (hstep : ∀ s e s', I s → P s e → step s e = some s' → I s') :
    ∀ {es : List ε} {s s' : σ}, I s → Along step P s es → run step s es = some s' → I s' := by
  intro es
  induction es with
  | nil =>
    intro s s' hI _ h
    cases h
    exact hI
  | cons e es ih =>
    intro s s' hI hP h
    obtain ⟨s₁, hs, h⟩ := Option.bind_eq_some_iff.1 h
    exact ih (hstep s e s₁ hI hP.1 hs) (hP.2 s₁ hs) h

theorem along_of_preserves (hstep : ∀ s e s', I s → P s e → step s e = some s' → I s')
    (hQ : ∀ s e, I s → P s e → Q s e) :
    ∀ {es : List ε} {s : σ}, I s → Along step P s es → Along step Q s es := by
  intro es
  induction es with
  | nil => exact fun _ _ => trivial
  | cons e es ih =>
    intro s hI hP
    exact ⟨hQ s e hI hP.1, fun s₁ hs => ih (hstep s e s₁ hI hP.1 hs) (hP.2 s₁ hs)⟩

/-- Whether a run is along `P` can be checked event by event. -/
instance decidableAlong [∀ s e, Decidable (P s e)] :
    ∀ (es : List ε) (s : σ), Decidable (Along step P s es)
  | [], _ => isTrue trivial
  | e :: es, s =>
    match h : step s e with
    | none => decidable_of_iff (P s e)
        ⟨fun hP => ⟨hP, fun _ hs => by rw [h] at hs; cases hs⟩, fun hA => hA.1⟩
    | some s' =>
      have := decidableAlong es s'
      decidable_of_iff (P s e ∧ Along step P s' es)
        ⟨fun hA => ⟨hA.1, fun _ hs => by rw [h] at hs; cases hs; exact hA.2⟩,
          fun hA => ⟨hA.1, hA.2 s' h⟩⟩

end Lib
end SnugKV
