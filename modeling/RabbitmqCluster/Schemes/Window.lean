import RabbitmqCluster.Schemes.Machine
import Mathlib.Data.Finset.Card

/-! @scheme window | family:flow-control

    Credit-based flow control over tags of any type. A grantor gives a credit only while at most `w`
    tags are out and nothing is in flight; the holder turns the credit into a tag, the tag is handed
    in, and tags that are out are released in any order. One credit can be on its way when the
    window is full, so at most `w + 1` tags are ever out or in flight (`bounded`). -/

namespace RabbitmqCluster.Schemes.Window

/-- What is on its way between grantor and holder. -/
inductive Flight (τ : Type*) where
  | empty
  | credit
  | held (t : τ)
  deriving DecidableEq

/-- A credit counts for the tag it will become. -/
def Flight.size {τ : Type*} : Flight τ → ℕ
  | .empty => 0
  | .credit => 1
  | .held _ => 1

/-- The flight and the tags that are out. -/
structure State (τ : Type*) where
  flight : Flight τ
  out : Finset τ

inductive Op (τ : Type*) where
  | grant
  | take (t : τ)
  | enter (t : τ)
  | lose
  | release (t : τ)

variable {τ : Type*} [DecidableEq τ]

def enabled (w : ℕ) (s : State τ) : Op τ → Bool
  | .grant => s.flight = .empty && s.out.card ≤ w
  | .take _ => s.flight = .credit
  | .enter t => s.flight = .held t
  | .lose => true
  | .release _ => true

def next (s : State τ) : Op τ → State τ
  | .grant => { s with flight := .credit }
  | .take t => { s with flight := .held t }
  | .enter t => { flight := .empty, out := insert t s.out }
  | .lose => { s with flight := .empty }
  | .release t => { s with out := s.out.erase t }

/-- The window with threshold `w`, starting with nothing out. -/
def window (τ : Type*) [DecidableEq τ] (w : ℕ) : Machine (State τ) (Op τ) where
  init := ⟨.empty, ∅⟩
  enabled := enabled w
  next := next

/-- Tags out and in flight fit the window and its one credit. -/
def Fits (w : ℕ) (s : State τ) : Prop := s.out.card + s.flight.size ≤ w + 1

theorem fits_step (w : ℕ) (s : State τ) (a : Op τ) (hs : Fits w s)
    (he : enabled w s a = true) : Fits w (next s a) := by
  unfold Fits at hs ⊢
  cases a with
  | grant =>
    simp only [enabled, Bool.and_eq_true, decide_eq_true_eq] at he
    simp only [next, Flight.size]; omega
  | take t =>
    simp only [enabled, decide_eq_true_eq] at he
    simpa only [next, he, Flight.size] using hs
  | enter t =>
    simp only [enabled, decide_eq_true_eq] at he
    have hins := Finset.card_insert_le t s.out
    simp only [he, Flight.size] at hs
    simp only [next, Flight.size]; omega
  | lose => simp only [next, Flight.size]; omega
  | release t =>
    have her := Finset.card_erase_le (s := s.out) (a := t)
    simp only [next]; omega

/-- CORRECT: no run of the window ever has more than `w + 1` tags out and in flight. -/
theorem bounded (w : ℕ) : ∀ s, (window τ w).Reach Machine.Any s → Fits w s :=
  Machine.inv (by simp [Fits, window, Flight.size]) fun s a hs he _ => fits_step w s a hs he

end RabbitmqCluster.Schemes.Window
