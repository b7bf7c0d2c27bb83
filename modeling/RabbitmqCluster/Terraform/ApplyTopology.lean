import RabbitmqCluster.Terraform.Resources

/-! @src var/terraform/src var/terraform/rabbitmq1 var/terraform/rabbitmq3 | scheme:apply |
    family:declared-state

    `terraform apply` on an instance. The files name with every resource what its object needs, and
    their references do not go round; so in every order that Terraform may take nothing is refused,
    it can always go on, also after it was interrupted, and it ends with the topology of the
    instance (`apply_topology`).

        apply ─▶ ... ✗   apply ─▶ ... ─▶ Instance.topology -/

namespace RabbitmqCluster.Terraform

open RabbitmqCluster.Schemes RabbitmqCluster.Clients RabbitmqCluster.Scripts RabbitmqCluster.Site

/-- The resources on the broker of the instance. -/
def Instance.graph (i : Instance) : Graph Resource Address (Service × Entity) where
  resources := i.resources
  address := Resource.address
  refs := Resource.refs
  brings r := r.brings.map fun b => ⟨b.mode, (i.inputs.service, b.object)⟩

/-- Round by round the resources whose references are there; one order that Terraform may take. -/
def rounds : ℕ → List Address → List Resource → List Resource
  | 0, _, _ => []
  | n + 1, done, rs =>
    let ready := rs.filter fun r => r.refs.all (· ∈ done)
    ready ++ rounds n (ready.map (·.address) ++ done)
      (rs.filter fun r => !r.refs.all (· ∈ done))

theorem unique (i : Instance) : (i.graph.addresses i.graph.resources).Nodup := by
  cases i <;> decide +kernel

theorem consistent (i : Instance) :
    Consistent (Entity.naming.located Service) (i.graph.script i.graph.resources) := by
  refine consistent_of_nodup ?_
  cases i <;> decide +kernel

theorem covered (i : Instance) :
    Graph.Covered (Entity.naming.located Service) i.graph [] := by
  cases i <;> decide +kernel

theorem acyclic (i : Instance) : Graph.InOrder i.graph [] (rounds 5 [] i.resources) := by
  cases i <;> decide +kernel

theorem complete (i : Instance) : ∀ r ∈ i.resources, r ∈ rounds 5 [] i.resources := by
  cases i <;> decide +kernel

theorem sub (i : Instance) : ∀ r ∈ rounds 5 [] i.resources, r ∈ i.resources := by
  have hsub : ∀ (n : ℕ) (done : List Address) (rs : List Resource), ∀ r ∈ rounds n done rs,
      r ∈ rs := by
    intro n
    induction n with
    | zero => exact fun _ _ _ hr => absurd hr List.not_mem_nil
    | succ n ih =>
      intro done rs r hr
      rcases List.mem_append.mp hr with hr | hr
      · exact List.mem_of_mem_filter hr
      · exact List.mem_of_mem_filter (ih _ _ r hr)
  exact hsub 5 [] i.resources

theorem sound (i : Instance) :
    Graph.Sound (Entity.naming.located Service) i.graph [] (rounds 5 [] i.resources) :=
  ⟨unique i, consistent i, covered i, complete i, sub i, acyclic i⟩

/-! ### What the resources declare -/

theorem declares_topology (i : Instance) :
    topologyAt ((i.graph.script i.graph.resources).map (·.object)) i.inputs.service vhost =
      i.topology := by
  cases i <;> rfl

/-- The resource sets its object, or declares the vhost, an exchange, a queue or a binding. -/
def DeclaresIn (b : Service) (c : Bring (Service × Entity)) : Prop :=
  c.mode = .put ∨ c.mode = .declare ∧ c.object.1 = b ∧
    (c.object.2 = .object (.vhost vhost) ∨
      ∃ k ∈ [Kind.exchange, .queue, .binding], c.object.2.key.kind = some (k, vhost))

instance (b : Service) (c : Bring (Service × Entity)) : Decidable (DeclaresIn b c) :=
  inferInstanceAs (Decidable (_ ∨ _ ∧ _ ∧ (_ ∨ _)))

theorem declaresIn (i : Instance) :
    ∀ c ∈ i.graph.script i.graph.resources, DeclaresIn i.inputs.service c := by
  cases i <;> decide +kernel

theorem key_vhost {e : Entity} (h : e.key = .object (.vhost vhost)) :
    e = .object (.vhost vhost) := by
  rcases e with (_ | _ | _ | _ | _ | _) | _ | _ | _ <;> cases h
  rfl

/-- Where the vhost of the broker is empty nothing contradicts the resources. -/
theorem agrees_of_empty {i : Instance} {s : Brokers}
    (hnone : topologyAt s.objects i.inputs.service vhost = ⟨[], [], [], []⟩) :
    Agrees (i.graph.script i.graph.resources) s := by
  intro c hc hput o ho hkey
  obtain ⟨hmode, hbroker, hdeclares⟩ := (declaresIn i c hc).resolve_left hput
  refine ⟨hmode, ?_⟩
  obtain ⟨b, d⟩ := o
  obtain ⟨hb, hd⟩ : b = c.object.1 ∧ d.key = c.object.2.key := Prod.mk.inj hkey
  rcases hdeclares with hvhost | ⟨k, -, hkind⟩
  · rw [hvhost] at hd
    have hdv : d = .object (.vhost vhost) := key_vhost hd
    exact Prod.ext hb (hdv.trans hvhost.symm)
  · rw [hb, hbroker] at ho
    exact absurd (hd ▸ hkind) (none_of_kind hnone ho k)

/-- CORRECT: on an instance whose vhost is empty, in whatever order Terraform creates the resources
    and wherever it was interrupted: none of its next creations is refused, it can create all that
    is left, and when all is created the instance has its topology. -/
theorem apply_topology (i : Instance) (s₀ : Brokers)
    (hnone : topologyAt s₀.objects i.inputs.service vhost = ⟨[], [], [], []⟩)
    (s : Graph.State Resource (Entity.naming.located Service))
    (h : (i.graph.applying s₀).Reach Machine.Any s) :
    (∀ r, i.graph.enabled s r = true → Graph.Accepts (i.graph.brings r) s.store) ∧
      (∃ t, (i.graph.applying s₀).Steps Machine.Any s t ∧ ∀ r ∈ i.resources, r ∈ t.created) ∧
      ((∀ r ∈ i.resources, r ∈ s.created) →
        SameAs (topologyAt s.store.objects i.inputs.service vhost) i.topology) := by
  have hbase : ∀ k ∈ ([] : List (Service × Entity.Key)), k ∈ s₀.keys := List.forall_mem_nil _
  have hadd : ∀ c ∈ i.graph.script i.graph.resources, c.mode ≠ .add := by
    intro c hc hmode
    rcases declaresIn i c hc with hput | ⟨hdeclare, -⟩
    · cases hmode.symm.trans hput
    · cases hmode.symm.trans hdeclare
  have happlied := (sound i).applied hbase s h
  refine ⟨fun r he => ?_, (sound i).progress hbase happlied, fun hall => ?_⟩
  · exact (sound i).not_refused hbase hadd (agrees_of_empty hnone) h he
  · rw [← declares_topology i]
    exact topology_brought ((sound i).mem_applied happlied hall) hnone

/-- On the imported definitions, without an interruption. -/
theorem apply_topology_imported : ∃ t, (Instance.rabbitmq1.graph.applying imported).Reach
    Machine.Any t ∧ SameAs (topologyAt t.store.objects .rabbitmq1 vhost) rabbitmq1 := by
  have hempty : topologyAt imported.objects .rabbitmq1 vhost = ⟨[], [], [], []⟩ := rfl
  obtain ⟨-, ⟨t, ht, hall⟩, -⟩ := apply_topology .rabbitmq1 imported hempty _
    (Machine.Steps.refl _ _)
  exact ⟨t, ht, (apply_topology .rabbitmq1 imported hempty t ht).2.2 hall⟩

end RabbitmqCluster.Terraform
