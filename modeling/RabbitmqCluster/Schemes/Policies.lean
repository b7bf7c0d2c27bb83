import RabbitmqCluster.Schemes.Broker

/-! @scheme policies | family:selection

    Which policy governs an object. The candidates are the applying, matching policies of maximal
    priority; all candidates have the same priority (`candidates_priority`), so they are one where
    the priorities of the policies for a kind tell them apart (`unique_of_priorities`), and more
    than one where two of the same priority match a name above all others. -/

namespace RabbitmqCluster.Schemes

/-- The policy is meant for objects of this kind. -/
def Policy.applies (p : Policy) (kind : ApplyTo) : Bool := p.applyTo = kind || p.applyTo = .all

namespace Topology

variable {top : Topology} {kind : ApplyTo} {name : String} {p q : Policy}

/-- No two different policies are candidates for the object. -/
def UniqueInForce (top : Topology) (kind : ApplyTo) (name : String) : Prop :=
  ∀ p ∈ top.candidates kind name, ∀ q ∈ top.candidates kind name, p = q

theorem mem_matching : p ∈ top.matching kind name ↔
    p ∈ top.policies ∧ p.applies kind = true ∧ Pattern.isMatch p.pattern name = true := by
  simp [matching, Policy.applies]

theorem mem_candidates : p ∈ top.candidates kind name ↔
    p ∈ top.matching kind name ∧ ∀ q ∈ top.matching kind name, q.priority ≤ p.priority := by
  simp [candidates]

theorem candidates_priority (hp : p ∈ top.candidates kind name)
    (hq : q ∈ top.candidates kind name) : p.priority = q.priority := by
  rw [mem_candidates] at hp hq
  exact Int.le_antisymm (hq.2 p hp.1) (hp.2 q hq.1)

/-- RULE (unique): policies that differ in priority never tie. -/
theorem unique_of_priorities (h : ∀ p ∈ top.policies, ∀ q ∈ top.policies,
      p.applies kind = true → q.applies kind = true →
        p.priority = q.priority → p = q) (name : String) :
    top.UniqueInForce kind name := by
  intro p hp q hq
  have heq := candidates_priority hp hq
  rw [mem_candidates, mem_matching] at hp hq
  exact h p hp.1.1 q hq.1.1 hp.1.2.1 hq.1.2.1 heq

/-- Where the candidate is unique it is in force. -/
theorem policy_of_unique (hp : p ∈ top.candidates kind name) (h : top.UniqueInForce kind name) :
    top.policy kind name = some p := by
  rw [policy]
  cases hc : top.candidates kind name with
  | nil =>
    rw [hc] at hp
    exact absurd hp List.not_mem_nil
  | cons q qs =>
    have hq : q ∈ top.candidates kind name := hc ▸ List.mem_cons_self
    rw [List.head?_cons, h q hq p hp]

end Topology

end RabbitmqCluster.Schemes
