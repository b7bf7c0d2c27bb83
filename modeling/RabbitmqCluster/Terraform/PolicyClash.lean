import RabbitmqCluster.Schemes.Policies
import RabbitmqCluster.Terraform.Rabbitmq3

/-! @src var/terraform | scheme:policies | family:selection

    Is the policy in force unique? On rabbitmq1 the queue policies have three different priorities,
    and rabbitmq2 has one policy. On rabbitmq3 the catch-all for queues has the priority of the
    shared `delivery-limit`, so on every queue that `delivery-limit` matches the two tie, on
    requests.delayed first of all (`policy_clash`), and nowhere else (`policy_law_iff`). -/

namespace RabbitmqCluster.Terraform

open RabbitmqCluster.Schemes Topology

/-- The policy in force is unique, and for `requests.delayed` it is `delivery-limit`. -/
def PolicyLaw (i : Instance) (kind : ApplyTo) (name : String) : Prop :=
  i.topology.UniqueInForce kind name ∧
    (kind = .queues → name = delayedRequestsQueue.name →
      i.topology.candidates kind name = [deliveryLimitPolicy])

theorem policy_clash : ¬ ∀ i kind name, PolicyLaw i kind name := by
  intro hall
  have hlimit := (hall .rabbitmq3 .queues delayedRequestsQueue.name).2 rfl rfl
  have htie : rabbitmq3.candidates .queues delayedRequestsQueue.name =
      [deliveryLimitPolicy, allQueuesPolicy] := by decide +kernel
  exact absurd (congrArg List.length (htie.symm.trans hlimit)) (by simp)

/-! ### The instances without the catch-all -/

theorem unique_shared (kind : ApplyTo) (name : String) : shared.UniqueInForce kind name :=
  unique_of_priorities (by cases kind <;> decide) name

theorem unique_rabbitmq1 (kind : ApplyTo) (name : String) : rabbitmq1.UniqueInForce kind name :=
  unique_of_priorities (by cases kind <;> decide) name

theorem delayed_candidates : ∀ i : Instance, i ≠ .rabbitmq3 →
    i.topology.candidates .queues delayedRequestsQueue.name = [deliveryLimitPolicy]
  | .rabbitmq1, _ => by decide +kernel
  | .rabbitmq2, _ => by decide +kernel
  | .rabbitmq3, h => absurd rfl h

/-! ### The instance with the catch-all -/

theorem allQueues_matches (name : String) :
    Pattern.isMatch allQueuesPolicy.pattern name = true :=
  Pattern.isMatch_star (p := .any) (by decide +kernel) name

theorem rabbitmq3_queue_policies {p : Policy} (hp : p ∈ rabbitmq3.policies)
    (hq : p.applies .queues = true) : p = deliveryLimitPolicy ∨ p = allQueuesPolicy := by
  have hcases : p = deliveryLimitPolicy ∨ p = allExchangesPolicy ∨ p = allQueuesPolicy := by
    simpa [rabbitmq3, shared] using hp
  rcases hcases with rfl | rfl | rfl
  · exact Or.inl rfl
  · exact absurd hq (by decide)
  · exact Or.inr rfl

theorem allQueues_candidate (name : String) :
    allQueuesPolicy ∈ rabbitmq3.candidates .queues name := by
  refine mem_candidates.mpr ⟨mem_matching.mpr ⟨by decide, by decide, allQueues_matches name⟩, ?_⟩
  intro q hq
  obtain ⟨hmem, happ, -⟩ := mem_matching.mp hq
  rcases rabbitmq3_queue_policies hmem happ with rfl | rfl <;> decide

/-- On a queue that `delivery-limit` matches it ties with the catch-all. -/
theorem deliveryLimit_candidate {name : String}
    (hm : Pattern.isMatch deliveryLimitPolicy.pattern name = true) :
    deliveryLimitPolicy ∈ rabbitmq3.candidates .queues name := by
  refine mem_candidates.mpr ⟨mem_matching.mpr ⟨by decide, by decide, hm⟩, ?_⟩
  intro q hq
  obtain ⟨hmem, happ, -⟩ := mem_matching.mp hq
  rcases rabbitmq3_queue_policies hmem happ with rfl | rfl <;> decide

theorem rabbitmq3_queues_unique (name : String) : rabbitmq3.UniqueInForce .queues name ↔
    Pattern.isMatch deliveryLimitPolicy.pattern name = false := by
  constructor
  · intro huniq
    by_contra hm
    have hm' := Bool.of_not_eq_false hm
    have heq := huniq _ (deliveryLimit_candidate hm') _ (allQueues_candidate name)
    exact absurd heq (by decide)
  · intro hm
    have hall : ∀ p ∈ rabbitmq3.candidates .queues name, p = allQueuesPolicy := fun p hp => by
      obtain ⟨hmem, happ, hpm⟩ := mem_matching.mp (mem_candidates.mp hp).1
      rcases rabbitmq3_queue_policies hmem happ with rfl | rfl
      · exact absurd (hpm.symm.trans hm) nofun
      · rfl
    exact fun p hp q hq => (hall p hp).trans (hall q hq).symm

theorem rabbitmq3_unique {kind : ApplyTo} (hk : kind ≠ .queues) (name : String) :
    rabbitmq3.UniqueInForce kind name := by
  refine unique_of_priorities ?_ name
  cases kind with
  | queues => exact absurd rfl hk
  | exchanges => decide
  | all => decide

/-- CORRECT: on every instance and for every name the policy in force is unique, on
    `requests.delayed` it is `delivery-limit`, if and only if the object is no queue of rabbitmq3
    that `delivery-limit` matches. -/
theorem policy_law_iff (i : Instance) (kind : ApplyTo) (name : String) :
    PolicyLaw i kind name ↔ ¬ (i = .rabbitmq3 ∧ kind = .queues ∧
      Pattern.isMatch deliveryLimitPolicy.pattern name = true) := by
  have hdelayed : Pattern.isMatch deliveryLimitPolicy.pattern delayedRequestsQueue.name = true := by
    decide +kernel
  cases i with
  | rabbitmq1 =>
    refine iff_of_true ⟨unique_rabbitmq1 kind name, ?_⟩ fun h => absurd h.1 nofun
    rintro rfl rfl
    exact delayed_candidates .rabbitmq1 nofun
  | rabbitmq2 =>
    refine iff_of_true ⟨unique_shared kind name, ?_⟩ fun h => absurd h.1 nofun
    rintro rfl rfl
    exact delayed_candidates .rabbitmq2 nofun
  | rabbitmq3 =>
    by_cases hk : kind = .queues
    · subst hk
      constructor
      · rintro ⟨huniq, -⟩ ⟨-, -, hm⟩
        exact absurd (((rabbitmq3_queues_unique name).mp huniq).symm.trans hm) nofun
      · intro hno
        have hm : Pattern.isMatch deliveryLimitPolicy.pattern name = false :=
          Bool.eq_false_iff.mpr fun hm => hno ⟨rfl, rfl, hm⟩
        refine ⟨(rabbitmq3_queues_unique name).mpr hm, ?_⟩
        rintro - rfl
        exact absurd (hm.symm.trans hdelayed) nofun
    · exact iff_of_true ⟨rabbitmq3_unique hk name, fun h => absurd h hk⟩ fun h => hk h.2.1

end RabbitmqCluster.Terraform
