import Mathlib.Logic.Relation
import Mathlib.Data.Option.Basic

/-! @scheme machine | family:transition-systems

    A program of several parties is a labelled machine: the action names the party that moves and
    every choice it makes, so a step is a function and all nondeterminism is in the word of actions.
    A *guarded* run takes only actions that meet a condition on the state before them. An invariant
    is proved on one step and carried to every run (`inv`, `inv_under`); a concrete run is computed
    by `run` and read back as a reachable state (`reach_of_run`); a law that only the steps outside
    a condition break, and break for good, holds after exactly the runs that meet the condition
    (`Exact.iff`); a machine that simulates another hands its reachable states over
    (`Simulation.reach`). -/

namespace RabbitmqCluster.Schemes

/-- A machine: where it starts, which actions are enabled, and what an enabled action does. -/
structure Machine (σ α : Type*) where
  init : σ
  enabled : σ → α → Bool
  next : σ → α → σ

namespace Machine

variable {σ α τ β : Type*} (m : Machine σ α) {C D : σ → α → Prop}

/-- The condition that lets every action pass. -/
def Any (_ : σ) (_ : α) : Prop := True

/-- One step by an enabled action that meets `C`. -/
def Step (C : σ → α → Prop) (s s' : σ) : Prop :=
  ∃ a, m.enabled s a = true ∧ C s a ∧ m.next s a = s'

/-- A run: any number of steps, each meeting `C`. -/
def Steps (C : σ → α → Prop) : σ → σ → Prop := Relation.ReflTransGen (m.Step C)

/-- The states reached by the runs whose steps all meet `C`. -/
def Reach (C : σ → α → Prop) (s : σ) : Prop := m.Steps C m.init s

/-- Running a word of actions; `none` at the first action that is not enabled. -/
def run : σ → List α → Option σ
  | s, [] => some s
  | s, a :: as => if m.enabled s a then run (m.next s a) as else none

/-- Every action of the word meets `C` in the state before it. -/
def Meets (C : σ → α → Prop) : σ → List α → Prop
  | _, [] => True
  | s, a :: as => C s a ∧ Meets C (m.next s a) as

instance decMeets [∀ s a, Decidable (C s a)] : ∀ s as, Decidable (m.Meets C s as)
  | _, [] => isTrue trivial
  | s, a :: as =>
    have := decMeets (m.next s a) as
    inferInstanceAs (Decidable (C s a ∧ m.Meets C (m.next s a) as))

theorem Steps.refl (s : σ) : m.Steps C s s := Relation.ReflTransGen.refl

variable {m}

theorem Steps.trans {s t u : σ} (h : m.Steps C s t) (k : m.Steps C t u) : m.Steps C s u :=
  Relation.ReflTransGen.trans h k

theorem Steps.one {s : σ} (a : α) (he : m.enabled s a = true) (hc : C s a) :
    m.Steps C s (m.next s a) :=
  Relation.ReflTransGen.single ⟨a, he, hc, rfl⟩

theorem Steps.snoc {s t : σ} (h : m.Steps C s t) (a : α) (he : m.enabled t a = true)
    (hc : C t a) : m.Steps C s (m.next t a) :=
  h.trans (Steps.one a he hc)

/-- A weaker condition admits the same runs. -/
theorem Steps.mono (hCD : ∀ s a, C s a → D s a) {s t : σ} (h : m.Steps C s t) : m.Steps D s t :=
  Relation.ReflTransGen.mono (fun _ _ ⟨a, he, hc, hn⟩ => ⟨a, he, hCD _ _ hc, hn⟩) s t h

theorem Reach.mono (hCD : ∀ s a, C s a → D s a) {s : σ} (h : m.Reach C s) : m.Reach D s :=
  Steps.mono hCD h

theorem Reach.any {s : σ} (h : m.Reach C s) : m.Reach Any s := h.mono fun _ _ _ => trivial

/-- RULE (invariant along a run): what every guarded step keeps, every guarded run keeps. -/
theorem Steps.inv {I : σ → Prop}
    (hstep : ∀ s a, I s → m.enabled s a = true → C s a → I (m.next s a))
    {s t : σ} (h : m.Steps C s t) (hs : I s) : I t := by
  induction h with
  | refl => exact hs
  | tail _ hlast ih =>
    obtain ⟨a, he, hc, rfl⟩ := hlast
    exact hstep _ a ih he hc

/-- RULE (invariant): an invariant of the start that every guarded step keeps holds of every
    state a guarded run reaches. -/
theorem inv {I : σ → Prop} (hinit : I m.init)
    (hstep : ∀ s a, I s → m.enabled s a = true → C s a → I (m.next s a)) :
    ∀ s, m.Reach C s → I s :=
  fun _ h => h.inv hstep hinit

/-- RULE (invariant under invariants): the step may assume what is already known of every
    reached state. -/
theorem inv_under {I J : σ → Prop} (hJ : ∀ s, m.Reach C s → J s) (hinit : I m.init)
    (hstep : ∀ s a, J s → I s → m.enabled s a = true → C s a → I (m.next s a)) :
    ∀ s, m.Reach C s → I s := by
  intro s h
  have hboth : m.Reach C s ∧ I s := by
    refine Steps.inv (I := fun s => m.Reach C s ∧ I s) ?_ h ⟨Steps.refl m _, hinit⟩
    rintro s a ⟨hr, hi⟩ he hc
    exact ⟨Steps.snoc hr a he hc, hstep s a (hJ s hr) hi he hc⟩
  exact hboth.2

/-- One step of a computed run. -/
theorem run_cons {s t : σ} {a : α} {as : List α} (h : m.run s (a :: as) = some t) :
    m.enabled s a = true ∧ m.run (m.next s a) as = some t := by
  rw [run] at h
  split at h
  · next he => exact ⟨he, h⟩
  · exact absurd h nofun

/-- A computed run is a run. -/
theorem steps_of_run {as : List α} {s t : σ} (h : m.run s as = some t) (hm : m.Meets C s as) :
    m.Steps C s t := by
  induction as generalizing s with
  | nil =>
    rw [run, Option.some.injEq] at h
    exact h ▸ Steps.refl m s
  | cons a as ih =>
    obtain ⟨he, hrest⟩ := run_cons h
    exact (Steps.one a he hm.1).trans (ih hrest hm.2)

theorem meets_any : ∀ (as : List α) (s : σ), m.Meets Any s as
  | [], _ => trivial
  | a :: as, s => ⟨trivial, meets_any as (m.next s a)⟩

/-- RULE (witness): a word that runs to a state with `P` reaches such a state. -/
theorem reach_of_run {P : σ → Prop} (as : List α)
    (h : ∃ s ∈ m.run m.init as, m.Meets C m.init as ∧ P s) : ∃ s, m.Reach C s ∧ P s := by
  obtain ⟨s, hs, hm, hp⟩ := h
  exact ⟨s, steps_of_run hs hm, hp⟩

theorem reach_any_of_run {P : σ → Prop} (as : List α) (h : ∃ s ∈ m.run m.init as, P s) :
    ∃ s, m.Reach Any s ∧ P s :=
  reach_of_run as <| by
    obtain ⟨s, hs, hp⟩ := h
    exact ⟨s, hs, meets_any as _, hp⟩

/-- `C` is the exact condition of the law `P`, in the domain `D` and under the invariant `J`: a
    step that meets it keeps the law, and one that does not leads to `L`, where the law fails for
    good. -/
structure Exact (m : Machine σ α) (D C : σ → α → Prop) (J P L : σ → Prop) : Prop where
  keeps : ∀ s a, J s → m.enabled s a = true → D s a → J (m.next s a)
  holds : ∀ s a, J s → P s → m.enabled s a = true → D s a → C s a → P (m.next s a)
  fails : ∀ s a, J s → P s → m.enabled s a = true → D s a → ¬ C s a → L (m.next s a)
  stays : ∀ s a, J s → L s → m.enabled s a = true → L (m.next s a)
  excludes : ∀ s, L s → ¬ P s

section Exact

variable {J P L : σ → Prop}

theorem Exact.lost (h : Exact m D C J P L) (as : List α) {s t : σ} (hrun : m.run s as = some t)
    (hd : m.Meets D s as) (hj : J s) (hl : L s) : L t := by
  induction as generalizing s with
  | nil =>
    rw [run, Option.some.injEq] at hrun
    exact hrun ▸ hl
  | cons a as ih =>
    obtain ⟨he, hrest⟩ := run_cons hrun
    exact ih hrest hd.2 (h.keeps s a hj he hd.1) (h.stays s a hj hl he)

/-- RULE (exact condition): the law holds after exactly the runs whose steps all meet it. -/
theorem Exact.iff (h : Exact m D C J P L) (as : List α) {s t : σ} (hrun : m.run s as = some t)
    (hd : m.Meets D s as) (hj : J s) (hp : P s) : P t ↔ m.Meets C s as := by
  induction as generalizing s with
  | nil =>
    rw [run, Option.some.injEq] at hrun
    exact ⟨fun _ => trivial, fun _ => hrun ▸ hp⟩
  | cons a as ih =>
    obtain ⟨he, hrest⟩ := run_cons hrun
    have hj' : J (m.next s a) := h.keeps s a hj he hd.1
    by_cases hc : C s a
    · have hrec := ih hrest hd.2 hj' (h.holds s a hj hp he hd.1 hc)
      exact ⟨fun ht => ⟨hc, hrec.mp ht⟩, fun hmeets => hrec.mpr hmeets.2⟩
    · have hl : L t := h.lost as hrest hd.2 hj' (h.fails s a hj hp he hd.1 hc)
      exact ⟨fun ht => absurd ht (h.excludes t hl), fun hmeets => absurd hmeets.1 hc⟩

end Exact

/-- `abs` maps every step of `m` (from a state with `I`) to a run of `n`, perhaps an empty one. -/
structure Simulation (m : Machine σ α) (n : Machine τ β) (I : σ → Prop) (abs : σ → τ) :
    Prop where
  init : abs m.init = n.init
  step : ∀ s a, I s → m.enabled s a = true → n.Steps Any (abs s) (abs (m.next s a))

/-- RULE (simulation): the image of a reachable state is reachable. -/
theorem Simulation.reach {n : Machine τ β} {I : σ → Prop} {abs : σ → τ}
    (h : Simulation m n I abs) (hI : ∀ s, m.Reach Any s → I s) :
    ∀ s, m.Reach Any s → n.Reach Any (abs s) := by
  refine inv_under hI ?_ ?_
  · rw [h.init]; exact Steps.refl n _
  · intro s a hs hn he _
    exact Steps.trans hn (h.step s a hs he)

end Machine

end RabbitmqCluster.Schemes
