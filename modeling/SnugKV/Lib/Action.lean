import Mathlib.Data.List.Basic
import Mathlib.Tactic

/-!
# Action — steps on a state that may fail

A step reads and changes a state and gives a value or an error; what it changed before an error
stays changed.

* `Action` — such steps, as a monad;
* `Meets` — what holds after a successful run of a step, and what after one that fails, with one
  rule per construct;
* `Ensures` — what holds after every successful run.
-/

namespace SnugKV
namespace Lib

theorem bind_eq_ok {ε α β : Type} {x : Except ε α} {f : α → Except ε β} {r : β}
    (h : (x >>= f) = .ok r) : ∃ a, x = .ok a ∧ f a = .ok r := by
  cases x with
  | error e => cases h
  | ok a => exact ⟨a, rfl, h⟩

/-- A step on a state of type `σ`. -/
def Action (σ ε α : Type) : Type := σ → Except ε α × σ

namespace Action

variable {σ ε α β : Type}

instance : Monad (Action σ ε) where
  pure a := fun s => (.ok a, s)
  bind m f := fun s =>
    match m s with
    | (.ok a, s') => f a s'
    | (.error e, s') => (.error e, s')

variable {s s' : σ} {m : Action σ ε α} {f : α → Action σ ε β}

theorem bind_ok {a : α} (h : m s = (.ok a, s')) : (m >>= f) s = f a s' := by
  change (match m s with
    | (.ok a, s') => f a s'
    | (.error e, s') => (.error e, s')) = _
  rw [h]

variable {e : ε}

theorem bind_error (h : m s = (.error e, s')) : (m >>= f) s = (.error e, s') := by
  change (match m s with
    | (.ok a, s') => f a s'
    | (.error e, s') => (.error e, s')) = _
  rw [h]

theorem bind_eq_ok {b : β} :
    (m >>= f) s = (.ok b, s') ↔ ∃ a s₁, m s = (.ok a, s₁) ∧ f a s₁ = (.ok b, s') := by
  rcases hm : m s with ⟨e | a, s₁⟩
  · rw [bind_error hm]
    simp
  · rw [bind_ok hm]
    constructor
    · exact fun h => ⟨a, s₁, rfl, h⟩
    · rintro ⟨a', s₁', heq, h⟩
      cases heq
      exact h

instance : LawfulMonad (Action σ ε) := LawfulMonad.mk' (Action σ ε)
  (by
    intro α x
    funext s
    rcases hx : x s with ⟨e | a, s'⟩
    · exact (bind_error hx).trans rfl
    · exact (bind_ok hx).trans rfl)
  (by
    intro α β x f
    rfl)
  (by
    intro α β γ x f g
    funext s
    rcases hx : x s with ⟨e | a, s'⟩
    · rw [bind_error hx, bind_error (bind_error hx)]
    · rw [bind_ok hx]
      rcases hf : f a s' with ⟨e | b, s''⟩
      · rw [bind_error hf, bind_error ((bind_ok hx).trans hf)]
      · rw [bind_ok hf, bind_ok ((bind_ok hx).trans hf)])

def fail (e : ε) : Action σ ε α := fun s => (.error e, s)

def ofExcept (r : Except ε α) : Action σ ε α := fun s => (r, s)

/-- A missing value is the error `e`. -/
def ofOption (e : ε) : Option α → Action σ ε α
  | none => fail e
  | some a => pure a

theorem ofOption_some_bind (e : ε) (a : α) (f : α → Action σ ε β) :
    ofOption e (some a) >>= f = f a := rfl

/-- Runs `undo` when `m` fails; the error stays. -/
def onError (m : Action σ ε α) (undo : σ → σ) : Action σ ε α := fun s =>
  match m s with
  | (.ok a, s') => (.ok a, s')
  | (.error e, s') => (.error e, undo s')

theorem onError_id (m : Action σ ε α) : onError m id = m := by
  funext s
  unfold onError
  rcases m s with ⟨e | a, s'⟩ <;> rfl

/-! ## What a step does, whether it succeeds or not -/

/-- From a state with `P` the step ends with `Q` when it succeeds and with `E` when it fails. -/
def Meets (P : σ → Prop) (m : Action σ ε α) (Q : α → σ → Prop) (E : ε → σ → Prop) : Prop :=
  ∀ s, P s → match m s with
    | (.ok a, s') => Q a s'
    | (.error e, s') => E e s'

namespace Meets

variable {P P' : σ → Prop} {Q Q' : α → σ → Prop} {E E' : ε → σ → Prop} {m : Action σ ε α}
  {f : α → Action σ ε β} {R : β → σ → Prop}

theorem ok (h : Meets P m Q E) {a : α} (hs : P s) (hm : m s = (.ok a, s')) : Q a s' := by
  have := h s hs
  rwa [hm] at this

theorem error (h : Meets P m Q E) (hs : P s) (hm : m s = (.error e, s')) : E e s' := by
  have := h s hs
  rwa [hm] at this

theorem of_run (h : ∀ s, P s → (∀ a s', m s = (.ok a, s') → Q a s') ∧
    ∀ e s', m s = (.error e, s') → E e s') : Meets P m Q E := by
  intro s hs
  rcases hm : m s with ⟨e | a, s'⟩
  · exact (h s hs).2 e s' hm
  · exact (h s hs).1 a s' hm

theorem imp (h : Meets P m Q E) (hpre : ∀ s, P' s → P s) (hpost : ∀ a s, Q a s → Q' a s)
    (herror : ∀ e s, E e s → E' e s) : Meets P' m Q' E' :=
  of_run fun s hs => ⟨fun a s' hm => hpost a s' (h.ok (hpre s hs) hm),
    fun e s' hm => herror e s' (h.error (hpre s hs) hm)⟩

theorem pre (h : Meets P m Q E) (hpre : ∀ s, P' s → P s) : Meets P' m Q E :=
  fun s hs => h s (hpre s hs)

theorem post (h : Meets P m Q E) (hpost : ∀ a s, Q a s → Q' a s) : Meets P m Q' E :=
  h.imp (fun _ hs => hs) hpost fun _ _ he => he

theorem given (h : ∀ s, P s → Meets (fun x => x = s) m Q E) : Meets P m Q E :=
  fun s hs => h s hs s rfl

protected theorem pure {a : α} (h : ∀ s, P s → Q a s) :
    Meets P (Pure.pure a : Action σ ε α) Q E := h

protected theorem fail {e : ε} (h : ∀ s, P s → E e s) : Meets P (fail e : Action σ ε α) Q E := h

protected theorem bind {f : α → Action σ ε β} {R : β → σ → Prop} (hm : Meets P m Q E)
    (hf : ∀ a, Meets (Q a) (f a) R E) : Meets P (m >>= f) R E := by
  refine of_run fun s hs => ?_
  rcases hrun : m s with ⟨e | a, s₁⟩
  · rw [bind_error hrun]
    refine ⟨fun a s' h => (by cases h), ?_⟩
    rintro _ _ ⟨⟩
    exact hm.error hs hrun
  · rw [bind_ok hrun]
    exact ⟨fun b s' h => (hf a).ok (hm.ok hs hrun) h, fun e s' h => (hf a).error (hm.ok hs hrun) h⟩

theorem bind_of_ok {t : σ} {a : α} (h : m s = (.ok a, t))
    (hf : Meets (fun x => x = t) (f a) R E) : Meets (fun x => x = s) (m >>= f) R E := by
  rintro x rfl
  rw [bind_ok h]
  exact hf t rfl

theorem bind_ofOption {o : Option α}
    (herror : o = none → ∀ s, P s → E e s) (h : ∀ a, o = some a → Meets P (f a) R E) :
    Meets P (Action.ofOption e o >>= f) R E := by
  cases o with
  | none => exact Meets.fail (herror rfl)
  | some a => exact h a rfl

protected theorem ite {c : Prop} [Decidable c] {m' : Action σ ε α}
    (ht : c → Meets P m Q E) (he : ¬ c → Meets P m' Q E) :
    Meets P (if c then m else m') Q E := by
  split_ifs with hc
  · exact ht hc
  · exact he hc

/-- Leaving the result aside. -/
protected theorem discard {Q : σ → Prop} (h : Meets P m (fun _ => Q) E) :
    Meets P (Functor.discard m) (fun _ => Q) E := by
  change Meets P (m >>= fun _ => Pure.pure ()) (fun _ => Q) E
  exact h.bind fun _ => Meets.pure fun _ hs => hs

protected theorem onError {undo : σ → σ} {E₀ : ε → σ → Prop} (h : Meets P m Q E₀)
    (hundo : ∀ e s, E₀ e s → E e (undo s)) : Meets P (onError m undo) Q E := by
  refine of_run fun s hs => ?_
  unfold onError
  rcases hrun : m s with ⟨e | a, s'⟩
  · refine ⟨fun a s' h => (by cases h), ?_⟩
    rintro _ _ ⟨⟩
    exact hundo e s' (h.error hs hrun)
  · refine ⟨?_, fun e s' h => by cases h⟩
    rintro _ _ ⟨⟩
    exact h.ok hs hrun

end Meets

abbrev Ensures (P : σ → Prop) (m : Action σ ε α) (Q : α → σ → Prop) : Prop :=
  Meets P m Q fun _ _ => True

theorem Meets.ensures {P : σ → Prop} {Q : α → σ → Prop} {E : ε → σ → Prop}
    (h : Meets P m Q E) : Ensures P m Q :=
  h.imp (fun _ hs => hs) (fun _ _ hq => hq) fun _ _ _ => trivial

end Action

end Lib
end SnugKV
