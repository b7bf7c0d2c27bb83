import RabbitmqCluster.Schemes.Machine
import Mathlib.Data.List.Basic
import Mathlib.Data.List.Nodup
import Mathlib.Tactic.Common

/-! @scheme delivery | family:at-least-once

    A queue whose consumer acknowledges. A message waits, is handed out under a tag, and is done
    when the tag is settled; what is handed out and not settled can be given back and waits again.
    Every accepted message is in one of the three places (`places`), and one that was handed out
    more often than it was accepted has been given back in between (`handed_count`).

        accept ─▶ ready ── hand ──▶ out ── settle ─▶ done
                    ▲── give back ──┘ -/

namespace RabbitmqCluster.Schemes

/-- The messages of a queue by place; `accepted`, `handed` and `returned` record what came in, what
    was handed out and what was given back. -/
structure Delivery (α : Type*) where
  accepted : List α
  ready : List α
  out : List (ℕ × α)
  done : List α
  handed : List α
  returned : List α

namespace Delivery

inductive Act (α : Type*) where
  | accept (a : α)
  | hand (d : ℕ) (a : α)
  | settle (d : ℕ) (a : α)
  | giveBack
  deriving DecidableEq

variable {α : Type*} [DecidableEq α]

def enabled (s : Delivery α) : Act α → Bool
  | .accept a => a ∉ s.accepted
  | .hand _ a => s.ready.head? = some a
  | .settle d a => (d, a) ∈ s.out
  | .giveBack => true

def next (s : Delivery α) : Act α → Delivery α
  | .accept a => { s with accepted := s.accepted ++ [a], ready := s.ready ++ [a] }
  | .hand d a =>
    { s with ready := s.ready.tail, out := s.out ++ [(d, a)], handed := s.handed ++ [a] }
  | .settle d a => { s with out := s.out.erase (d, a), done := s.done ++ [a] }
  | .giveBack =>
    { s with
      ready := s.out.map Prod.snd ++ s.ready
      out := []
      returned := s.returned ++ s.out.map Prod.snd }

def empty : Delivery α := ⟨[], [], [], [], [], []⟩

/-- The queue, empty at first. -/
def machine (α : Type*) [DecidableEq α] : Machine (Delivery α) (Act α) where
  init := empty
  enabled := enabled
  next := next

/-- What every run keeps: an accepted message is in one place, and there is a handing for each time
    that it came in or came back and does not wait. -/
structure Conserved (s : Delivery α) : Prop where
  fresh : s.accepted.Nodup
  places : (s.ready ++ s.out.map Prod.snd ++ s.done).Perm s.accepted
  handings : (s.handed ++ s.ready).Perm (s.accepted ++ s.returned)

variable {s : Delivery α} {C : Delivery α → Act α → Prop}

theorem conserved_step (a : Act α) (h : Conserved s) (he : enabled s a = true) :
    Conserved (next s a) := by
  obtain ⟨hfresh, hplaces, hhandings⟩ := h
  cases a with
  | accept a =>
    have hnew : a ∉ s.accepted := of_decide_eq_true he
    refine ⟨?_, ?_, ?_⟩
    · exact (List.perm_append_singleton a s.accepted).nodup_iff.mpr
        (List.nodup_cons.mpr ⟨hnew, hfresh⟩)
    · show (s.ready ++ [a] ++ s.out.map Prod.snd ++ s.done).Perm (s.accepted ++ [a])
      rw [List.append_assoc (s.ready ++ [a]), List.append_assoc s.ready, List.singleton_append]
      refine List.perm_middle.trans (List.Perm.trans ?_ (List.perm_append_singleton a _).symm)
      rw [← List.append_assoc]
      exact hplaces.cons a
    · show (s.handed ++ (s.ready ++ [a])).Perm (s.accepted ++ [a] ++ s.returned)
      rw [← List.append_assoc, List.append_assoc s.accepted, List.singleton_append]
      exact (List.perm_append_singleton a _).trans ((hhandings.cons a).trans List.perm_middle.symm)
  | hand d a =>
    obtain ⟨rest, hready⟩ := List.head?_eq_some_iff.mp (of_decide_eq_true he)
    refine ⟨hfresh, ?_, ?_⟩
    · show (s.ready.tail ++ (s.out ++ [(d, a)]).map Prod.snd ++ s.done).Perm s.accepted
      refine List.Perm.trans ?_ hplaces
      rw [hready, List.tail_cons, List.map_append, List.map_singleton, ← List.append_assoc,
        List.cons_append, List.cons_append]
      exact (List.perm_append_singleton a _).append_right _
    · show (s.handed ++ [a] ++ s.ready.tail).Perm (s.accepted ++ s.returned)
      rw [List.append_assoc, List.singleton_append, hready, List.tail_cons, ← hready]
      exact hhandings
  | settle d a =>
    have hmem : (d, a) ∈ s.out := of_decide_eq_true he
    refine ⟨hfresh, ?_, hhandings⟩
    show (s.ready ++ (s.out.erase (d, a)).map Prod.snd ++ (s.done ++ [a])).Perm s.accepted
    refine List.Perm.trans ?_ hplaces
    have hout : (s.out.map Prod.snd).Perm (a :: (s.out.erase (d, a)).map Prod.snd) :=
      (List.perm_cons_erase hmem).map Prod.snd
    rw [← List.append_assoc]
    refine (List.perm_append_singleton a _).trans ?_
    rw [← List.cons_append]
    refine List.Perm.append_right _ (List.perm_middle.symm.trans ?_)
    exact hout.symm.append_left _
  | giveBack =>
    refine ⟨hfresh, ?_, ?_⟩
    · show (s.out.map Prod.snd ++ s.ready ++ [] ++ s.done).Perm s.accepted
      rw [List.append_nil]
      exact (List.perm_append_comm.append_right _).trans hplaces
    · show (s.handed ++ (s.out.map Prod.snd ++ s.ready)).Perm
        (s.accepted ++ (s.returned ++ s.out.map Prod.snd))
      rw [← List.append_assoc s.accepted]
      refine (List.perm_append_comm.append_left _).trans ?_
      rw [← List.append_assoc]
      exact hhandings.append_right _

/-- RULE (conservation): every run keeps all accepted messages, each in one place. -/
theorem conserved : ∀ s, (machine α).Reach C s → Conserved s := by
  refine Machine.inv ⟨List.nodup_nil, List.Perm.refl _, List.Perm.refl _⟩ ?_
  exact fun s a h he _ => conserved_step a h he

namespace Conserved

omit [DecidableEq α] in
theorem nodup (h : Conserved s) : (s.ready ++ s.out.map Prod.snd ++ s.done).Nodup :=
  h.places.nodup_iff.mpr h.fresh

omit [DecidableEq α] in
/-- An accepted message waits, is handed out, or is done. -/
theorem mem_accepted (h : Conserved s) (a : α) :
    a ∈ s.accepted ↔ a ∈ s.ready ∨ (∃ d, (d, a) ∈ s.out) ∨ a ∈ s.done := by
  rw [← h.places.mem_iff, List.mem_append, List.mem_append, or_assoc]
  simp [List.mem_map]

/-- RULE (redelivery): a message is handed out at most once more than it was given back. -/
theorem handed_count (h : Conserved s) (a : α) :
    s.handed.count a ≤ 1 + s.returned.count a := by
  have hcount := h.handings.count_eq a
  rw [List.count_append, List.count_append] at hcount
  have hone := List.nodup_iff_count_le_one.mp h.fresh a
  omega

end Conserved

end Delivery

end RabbitmqCluster.Schemes
