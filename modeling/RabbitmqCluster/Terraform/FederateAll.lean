import RabbitmqCluster.Schemes.Copies
import RabbitmqCluster.Schemes.Federation
import RabbitmqCluster.Terraform.Rabbitmq3

/-! @src var/terraform/rabbitmq3 federate-all.tf | scheme:federation | family:topology

    rabbitmq3 federates all its exchanges and all its queues with rabbitmq1, so a request has two
    ways there: the exchange `requests` brings a copy, and the queue `requests.current` moves what
    waits on rabbitmq1. A request published to rabbitmq1 therefore has two copies, its own queue's
    and the exchange's. In every run each of them is in one place, on its way, waiting or handed
    out; so both can be handed out (`request_handed_twice`), but neither of them twice
    (`each_copy_handed_once`).

        rabbitmq1: requests ─ # ─▶ requests.current
                      ┆ copy            ┆ move
        rabbitmq3: requests ─ # ─▶ requests.current -/

namespace RabbitmqCluster.Terraform

open RabbitmqCluster.Schemes Broker Federation

/-- The brokers for which the upstream resources stand. -/
def upstreamBroker : Instance → String → Option Instance
  | .rabbitmq1, name => if name = "rabbitmq2" then some .rabbitmq2 else none
  | .rabbitmq2, _ => none
  | .rabbitmq3, name => if name = rabbitmq1Upstream then some .rabbitmq1 else none

/-- The instances, federated as their policies say. -/
def instances : Federation Instance where
  brokers := [.rabbitmq1, .rabbitmq2, .rabbitmq3]
  top := Instance.topology
  upstream := upstreamBroker

def currentPlace (i : Instance) : Place Instance := ⟨i, currentRequestsQueue.name⟩

/-- Requests are published on rabbitmq1, and consumed on rabbitmq1 and rabbitmq3. -/
def RequestsOnly (_ : FedState Instance) : FedAct Instance → Prop
  | .publish p => p.broker = .rabbitmq1 ∧ p.exchange = requests.name
  | .subscribe q => q = currentPlace .rabbitmq1 ∨ q = currentPlace .rabbitmq3
  | _ => True

instance (s : FedState Instance) (a : FedAct Instance) : Decidable (RequestsOnly s a) := by
  rcases a <;> (dsimp only [RequestsOnly]; infer_instance)

/-- How often the message was handed to a consumer of `requests.current`, on all brokers. -/
def handings (s : FedState Instance) (k : ℕ) : ℕ :=
  s.handed.countP fun c => c.place.queue = currentRequestsQueue.name && c.msg.id = k

/-- Every request is handed to at most one consumer. -/
def HandedOnce (s : FedState Instance) : Prop := ∀ p ∈ s.published, handings s p.msg.id ≤ 1

/-! ### Both copies -/

def publishedRequest : Posted Instance :=
  { broker := .rabbitmq1, exchange := "requests", msg := { id := 1, key := "request" } }

/-- Both brokers have a consumer, and each of them gets the request. -/
def bothConsume : List (FedAct Instance) :=
  [.subscribe (currentPlace .rabbitmq1), .subscribe (currentPlace .rabbitmq3),
    .publish publishedRequest, .relay { publishedRequest with broker := .rabbitmq3 },
    .deliver
      { msg := publishedRequest.msg, place := currentPlace .rabbitmq1, origin := .routed },
    .deliver
      { msg := publishedRequest.msg, place := currentPlace .rabbitmq3, origin := .relayed }]

theorem request_handed_twice :
    ¬ ∀ s, (federated instances).Reach RequestsOnly s → HandedOnce s := by
  intro hall
  obtain ⟨s, hs, hp, htwo⟩ := Machine.reach_of_run (m := federated instances) (C := RequestsOnly)
    (P := fun s => publishedRequest ∈ s.published ∧ handings s 1 = 2) bothConsume
    (by decide +kernel)
  have hone := hall s hs publishedRequest hp
  rw [show publishedRequest.msg.id = 1 from rfl, htwo] at hone
  exact absurd hone (by decide)

/-! ### Each copy once -/

theorem requests_exchange (i : Instance) : i.topology.exchange requests.name = some requests := by
  cases i <;> decide +kernel

theorem requests_bindings (i : Instance) :
    i.topology.bindingsFrom requests.name = [currentRequestsBinding] := by
  cases i <;> decide +kernel

theorem requests_matches (m : Message) :
    currentRequestsBinding.matches m requests.type = true :=
  Topic.topicMatch_hash m.key

theorem requests_routed (i : Instance) (m : Message) :
    instances.routed { broker := i, exchange := requests.name, msg := m } = [currentPlace i] := by
  have hroute : i.topology.route m requests.name = [currentRequestsQueue.name] :=
    route_queues (Q := [currentRequestsQueue.name]) (by decide) (requests_exchange i)
      (targets_single (requests_bindings i) (requests_matches m))
  exact congrArg (List.map _) hroute

/-- It is rabbitmq3 whose exchange `requests` and queue `requests.current` have an upstream. -/
theorem requests_upstream (i : Instance) :
    instances.upstreamOf .exchanges i requests.name =
        (if i = .rabbitmq3 then some .rabbitmq1 else none) ∧
      instances.upstreamOf .queues i currentRequestsQueue.name =
        if i = .rabbitmq3 then some .rabbitmq1 else none := by
  cases i <;> decide +kernel

/-- Of all the instances it is rabbitmq3 whose exchange `requests` takes over the message. -/
theorem requests_carried (m : Message) :
    instances.carried { broker := .rabbitmq1, exchange := requests.name, msg := m } =
      [{ broker := .rabbitmq3, exchange := requests.name, msg := m }] := by
  have hwants : instances.wants .rabbitmq3 requests.name m = true := by
    rw [wants, show instances.top = Instance.topology from rfl, requests_exchange,
      requests_bindings]
    simp [requests_matches]
  have hup := fun i => (requests_upstream i).1
  have hall : instances.brokers = [.rabbitmq1, .rabbitmq2, .rabbitmq3] := rfl
  simp [carried, hall, hup, hwants]

theorem requests_share (m : Message) (o : Origin) :
    instances.share { broker := .rabbitmq1, exchange := requests.name, msg := m } o = 1 := by
  cases o with
  | routed => rw [share, requests_routed]; rfl
  | relayed =>
    rw [share, requests_carried, List.map_singleton, requests_routed]
    rfl

/-- The links of exchanges carry requests to rabbitmq3. -/
def RequestRelay (r : Posted Instance) : Prop :=
  r.broker = .rabbitmq3 ∧ r.exchange = requests.name

/-- The links of queues carry the copy that rabbitmq1 routed, to rabbitmq3. -/
def RequestMove (c : FedCopy Instance) : Prop :=
  c.origin = .routed ∧ c.place = currentPlace .rabbitmq3

/-- What the exchange brought is in `requests.current` of rabbitmq3; what rabbitmq1 routed is in its
    own, or in that of rabbitmq3. -/
def RequestCopy (c : FedCopy Instance) : Prop :=
  c.place = currentPlace .rabbitmq3 ∨ c.origin = .routed ∧ c.place = currentPlace .rabbitmq1

theorem upstream_not_rabbitmq3 (kind : ApplyTo) (i : Instance) (name : String) :
    instances.upstreamOf kind i name ≠ some .rabbitmq3 := by
  intro h
  obtain ⟨v, -, hv⟩ := Option.bind_eq_some_iff.mp h
  obtain ⟨u, -, hu⟩ := Option.bind_eq_some_iff.mp hv
  cases i with
  | rabbitmq1 => simp [instances, upstreamBroker] at hu
  | rabbitmq2 => simp [instances, upstreamBroker] at hu
  | rabbitmq3 => simp [instances, upstreamBroker] at hu

theorem requests_placing :
    Placing instances RequestsOnly RequestRelay RequestMove RequestCopy where
  publish s p hp := by
    obtain ⟨b, x, m⟩ := p
    obtain ⟨rfl, rfl⟩ := hp
    rw [requests_carried, enqueue, requests_routed]
    refine ⟨fun r hr => ?_, fun c hc => ?_⟩
    · rw [List.mem_singleton.mp hr]
      exact ⟨rfl, rfl⟩
    · rw [List.mem_singleton.mp hc]
      exact Or.inr ⟨rfl, rfl⟩
  relay r hr c hc := by
    obtain ⟨b, x, m⟩ := r
    obtain ⟨rfl, rfl⟩ := hr
    rw [enqueue, requests_routed] at hc
    rw [List.mem_singleton.mp hc]
    exact Or.inl rfl
  pull c d hI hup := by
    rcases hI with hplace | ⟨horigin, hplace⟩
    · rw [hplace] at hup
      exact absurd hup (upstream_not_rabbitmq3 _ _ _)
    · rw [hplace, show (currentPlace .rabbitmq1).queue = currentRequestsQueue.name from rfl,
        (requests_upstream d).2] at hup
      -- only rabbitmq3 has an upstream for the queue
      have hd : d = .rabbitmq3 := by
        by_contra hne
        rw [if_neg hne] at hup
        cases hup
      refine ⟨horigin, ?_⟩
      rw [hd, hplace]
      rfl
  land c hM := Or.inl hM.2
  deliver c hI := hI

theorem requests_published : ∀ s, (federated instances).Reach RequestsOnly s →
    ∀ p ∈ s.published, p.broker = .rabbitmq1 ∧ p.exchange = requests.name := by
  refine Machine.inv nofun ?_
  intro s a h _ hd
  cases a with
  | publish p => exact List.forall_mem_append.mpr ⟨h, List.forall_mem_singleton.mpr hd⟩
  | _ => exact h

theorem requests_routed_copy (m : Message) :
    instances.enqueue .routed { broker := .rabbitmq1, exchange := requests.name, msg := m } =
      [{ msg := m, place := currentPlace .rabbitmq1, origin := .routed }] := by
  rw [enqueue, requests_routed]
  rfl

theorem requests_relayed_copy (m : Message) :
    (instances.carried { broker := .rabbitmq1, exchange := requests.name, msg := m }).flatMap
        (instances.enqueue .relayed) =
      [{ msg := m, place := currentPlace .rabbitmq3, origin := .relayed }] := by
  rw [requests_carried, List.flatMap_singleton, enqueue, requests_routed]
  rfl

/-- Each request has two copies, the one that rabbitmq1 routes into its `requests.current` and the
    one that the exchange brings to rabbitmq3. Each of them is on its way, waiting or was handed
    out, and the consumers of `requests.current` get each of them once. -/
structure HandedPerCopy (s : FedState Instance) : Prop where
  routed : ∀ p ∈ s.published, instances.enqueue .routed p =
    [{ msg := p.msg, place := currentPlace .rabbitmq1, origin := .routed }]
  relayed : ∀ p ∈ s.published, (instances.carried p).flatMap (instances.enqueue .relayed) =
    [{ msg := p.msg, place := currentPlace .rabbitmq3, origin := .relayed }]
  both : ∀ p ∈ s.published, ∀ o, instances.tokens s p.msg.id o = 1
  places : Placed RequestRelay RequestMove RequestCopy s
  once : ∀ p ∈ s.published, ∀ o, s.handed.countP (FedCopy.is p.msg.id o) ≤ 1
  twice : ∀ p ∈ s.published, handings s p.msg.id ≤ 2

/-- CORRECT: in every run of requests published on rabbitmq1 and consumed on both brokers a request
    has two copies, each in one place, and each of them is handed to at most one consumer, so the
    request to at most two. -/
theorem each_copy_handed_once (s : FedState Instance)
    (h : (federated instances).Reach RequestsOnly s) : HandedPerCopy s := by
  have hform : ∀ p ∈ s.published,
      p = { broker := .rabbitmq1, exchange := requests.name, msg := p.msg } := by
    intro p hp
    obtain ⟨hb, hx⟩ := requests_published s h p hp
    rw [← hb, ← hx]
  have hshare : ∀ p ∈ s.published, ∀ o, instances.share p o = 1 := by
    intro p hp o
    rw [hform p hp, requests_share]
  have honce : ∀ p ∈ s.published, ∀ o, s.handed.countP (FedCopy.is p.msg.id o) ≤ 1 :=
    fun p hp o => (handed_le h hp o).trans_eq (hshare p hp o)
  refine ⟨fun p hp => ?_, fun p hp => ?_, fun p hp o => ?_, placed requests_placing s h, honce,
    fun p hp => ?_⟩
  · rw [hform p hp, requests_routed_copy]
  · rw [hform p hp, requests_relayed_copy]
  · exact ((balance s h).shares p hp o).trans (hshare p hp o)
  · have hsum := countP_origins s.handed p.msg.id
    have hsub : handings s p.msg.id ≤ s.handed.countP (·.msg.id = p.msg.id) := by
      refine List.countP_mono_left fun c _ hc => ?_
      exact (Bool.and_eq_true _ _ ▸ hc).2
    have hr := honce p hp .routed
    have hl := honce p hp .relayed
    omega

/-- The queue of rabbitmq3 takes the request over for its consumer. -/
def queueMoves : List (FedAct Instance) :=
  [.publish publishedRequest, .subscribe (currentPlace .rabbitmq3),
    .pull { msg := publishedRequest.msg, place := currentPlace .rabbitmq1, origin := .routed }
      .rabbitmq3,
    .land { msg := publishedRequest.msg, place := currentPlace .rabbitmq3, origin := .routed },
    .relay { publishedRequest with broker := .rabbitmq3 },
    .deliver
      { msg := publishedRequest.msg, place := currentPlace .rabbitmq3, origin := .relayed },
    .deliver
      { msg := publishedRequest.msg, place := currentPlace .rabbitmq3, origin := .routed }]

theorem each_copy_handed_once_moved :
    ∃ s : FedState Instance, s.published = [publishedRequest] ∧ handings s 1 = 2 ∧
      HandedPerCopy s := by
  obtain ⟨s, hs, hp, htwo⟩ := Machine.reach_of_run (m := federated instances) (C := RequestsOnly)
    (P := fun s => s.published = [publishedRequest] ∧ handings s 1 = 2) queueMoves
    (by decide +kernel)
  exact ⟨s, hp, htwo, each_copy_handed_once s hs⟩

end RabbitmqCluster.Terraform
