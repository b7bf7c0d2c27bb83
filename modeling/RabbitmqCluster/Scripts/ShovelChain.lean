import RabbitmqCluster.Schemes.Copies
import RabbitmqCluster.Schemes.Relay

/-! @src scripts setup_shovel.sh | scheme:relay | family:at-least-once

    The chain of two shovels that the script builds. The first one publishes to a direct exchange
    without a key of its own, so everything hangs on the key of the message: it is the queue's name,
    which is what the exchange is bound with, and it stays so on both hops. So nothing is ever
    unroutable, and since a shovel acks at the source only what has arrived, no link failure loses a
    message (`chain_keeps`).

        rabbitmq1: shovel ─▶ rabbitmq2: rabbitmq1.shovel ─ shovel ─▶ shovel ─▶ rabbitmq3: shovel -/

namespace RabbitmqCluster.Scripts

open RabbitmqCluster.Schemes Broker Network

/-! ### setup_shovel.sh -/

/-- The brokers of the compose file. -/
inductive Service where | rabbitmq1 | rabbitmq2 | rabbitmq3
  deriving DecidableEq

def shovelQueue : Queue := { name := "shovel" }

def shovelExchange : Exchange := { name := "rabbitmq1.shovel", type := .direct }

def shovelBinding : Binding :=
  { source := shovelExchange.name
    destination := .queue shovelQueue.name
    routingKey := "shovel" }

def shovelTopology : Service → Topology
  | .rabbitmq1 => { exchanges := [], queues := [shovelQueue], bindings := [], policies := [] }
  | .rabbitmq2 =>
    { exchanges := [shovelExchange]
      queues := [shovelQueue]
      bindings := [shovelBinding]
      policies := [] }
  | .rabbitmq3 => { exchanges := [], queues := [shovelQueue], bindings := [], policies := [] }

/-- The shovels under the names the script gives them, those of their destinations. -/
inductive ShovelName where | rabbitmq2 | rabbitmq3
  deriving DecidableEq

/-- A `dest-exchange` without a key, and a `dest-queue`: the nameless exchange and that key. -/
def ShovelName.config : ShovelName → Shovel Service
  | .rabbitmq2 =>
    { source := ⟨.rabbitmq1, "shovel"⟩, broker := .rabbitmq2, exchange := "rabbitmq1.shovel" }
  | .rabbitmq3 =>
    { source := ⟨.rabbitmq2, "shovel"⟩, broker := .rabbitmq3, exchange := "", key := some "shovel" }

/-- The three brokers; no queue is declared with `auto_delete`. -/
def chain : Network Service ShovelName where
  top := shovelTopology
  shovel := ShovelName.config
  life _ := .declared false
  subscribed := []
  redeclares := true

/-- A publish to the queue `shovel` of rabbitmq1 through the nameless exchange. -/
def ToShovel (b : Service) (x : String) (m : Message) : Prop :=
  b = .rabbitmq1 ∧ x = "" ∧ m.key = shovelQueue.name

/-- Messages are published to that queue; consumers and links do what they like. -/
def FedAtRabbitmq1 (_ : ShovelState Service ShovelName) (a : ShovelAct Service ShovelName) : Prop :=
  EntersBy ToShovel a

instance (s : ShovelState Service ShovelName) (a : ShovelAct Service ShovelName) :
    Decidable (FedAtRabbitmq1 s a) := by
  rcases a <;> (dsimp only [FedAtRabbitmq1, EntersBy, ToShovel]; infer_instance)

/-! ### The way up -/

/-- The invariant of the key: in a queue `shovel`, with that key. -/
def Keyed (q : Place Service) (m : Message) : Prop :=
  q.queue = shovelQueue.name ∧ m.key = shovelQueue.name

def hopsDone (q : Place Service) : ℕ :=
  match q.broker with
  | .rabbitmq1 => 1
  | .rabbitmq2 => 2
  | .rabbitmq3 => 3

theorem shovel_queue (b : Service) :
    (shovelTopology b).queue shovelQueue.name = some shovelQueue := by
  cases b <;> decide

theorem chain_enter {b : Service} {x : String} {m : Message} (h : ToShovel b x m) :
    chain.routed b x m = [⟨.rabbitmq1, shovelQueue.name⟩] := by
  obtain ⟨rfl, rfl, hkey⟩ := h
  have hroute := route_nameless (shovelTopology .rabbitmq1) (m := m)
    (hkey ▸ shovel_queue .rabbitmq1)
  rw [Network.routed, show chain.top = shovelTopology from rfl, hroute]
  rfl

/-- Where a shovel publishes a message with the key, it goes to the queue `shovel` there. -/
theorem chain_forwards (l : ShovelName) {m : Message} (hkey : m.key = shovelQueue.name) :
    chain.forwarded l m = [⟨l.config.broker, shovelQueue.name⟩] := by
  cases l with
  | rabbitmq2 =>
    have hb : (shovelTopology .rabbitmq2).bindingsFrom shovelExchange.name = [shovelBinding] := by
      decide
    have hmatch : shovelBinding.matches m shovelExchange.type = true := decide_eq_true hkey.symm
    have he : (shovelTopology .rabbitmq2).exchange shovelExchange.name = some shovelExchange := by
      decide
    have hroute := route_queues (Q := [shovelQueue.name]) (by decide) he (targets_single hb hmatch)
    exact congrArg (List.map _) hroute
  | rabbitmq3 =>
    have hroute := route_nameless (shovelTopology .rabbitmq3)
      (m := ShovelName.rabbitmq3.config.sent m) (shovel_queue .rabbitmq3)
    exact congrArg (List.map _) hroute

theorem chain_ascending : Ascending chain ToShovel Keyed hopsDone where
  enter b x m h q hq := by
    rw [chain_enter h, List.mem_singleton] at hq
    exact ⟨hq ▸ rfl, h.2.2⟩
  routable l m h := by
    rw [chain_forwards l h.2]
    exact List.cons_ne_nil _ _
  hop l m h q hq := by
    rw [chain_forwards l h.2, List.mem_singleton] at hq
    subst hq
    cases l with
    | rabbitmq2 => exact ⟨⟨rfl, h.2⟩, by decide⟩
    | rabbitmq3 => exact ⟨⟨rfl, rfl⟩, by decide⟩
  lasting _ _ := rfl

/-! ### Nothing is lost -/

/-- Of every published message a copy is in `shovel` on one of the brokers, if it was not
    consumed. -/
def ChainKept (s : ShovelState Service ShovelName) : Prop :=
  ∀ m ∈ s.published, m.id ∈ s.consumed ∨
    ∃ i ∈ s.items, i.msg.id = m.id ∧ i.place.queue = shovelQueue.name

/-- What waits at the source of a shovel will be routed where the shovel publishes it. -/
def ChainRouted (s : ShovelState Service ShovelName) : Prop :=
  ∀ i ∈ s.items, ∀ l, chain.source l = i.place →
    chain.forwarded l i.msg = [⟨l.config.broker, shovelQueue.name⟩]

/-- CORRECT: in any interleaving of publishers, consumers, shovels and link failures no message is
    lost, and none is unroutable. -/
theorem chain_keeps (s : ShovelState Service ShovelName)
    (h : (shovels chain).Reach FedAtRabbitmq1 s) : ChainKept s ∧ ChainRouted s := by
  have hpos : ∀ q, 0 < hopsDone q := by
    intro q
    unfold hopsDone
    split <;> decide
  have hroute : ∀ b x m, ToShovel b x m → chain.routed b x m ≠ [] := by
    intro b x m hin
    rw [chain_enter hin]
    exact List.cons_ne_nil _ _
  obtain ⟨hcar, hkept⟩ := kept_of_lasting chain_ascending (fun _ _ hd => hd) hpos hroute s h
  refine ⟨?_, fun i hi l _ => chain_forwards l (hcar.fits i hi).2⟩
  intro m hm
  rcases hkept m hm with hcon | ⟨i, hi, hid, -⟩
  · exact Or.inl hcon
  · exact Or.inr ⟨i, hi, hid, (hcar.fits i hi).1⟩

/-- Message 1 as a publisher sends it. -/
def shovelled : Message := { id := 1, key := "shovel" }

/-- The first link fails after it published the message and before it acked it. -/
def failsBetween : List (ShovelAct Service ShovelName) :=
  [.connect .rabbitmq2, .publish .rabbitmq1 "" shovelled,
    .move (.take .rabbitmq2) { msg := shovelled, place := ⟨.rabbitmq1, "shovel"⟩ },
    .move (.forward .rabbitmq2)
      { msg := shovelled, place := ⟨.rabbitmq1, "shovel"⟩, holder := .shovel .rabbitmq2 .taken },
    .drop .rabbitmq2]

theorem chain_keeps_failing : ∃ s : ShovelState Service ShovelName,
    s.items.map (·.place.broker) = [.rabbitmq1, .rabbitmq2] ∧ ChainKept s ∧ ChainRouted s := by
  obtain ⟨s, hs, hboth⟩ := Machine.reach_of_run (m := shovels chain) (C := FedAtRabbitmq1)
    (P := fun s => s.items.map (·.place.broker) = [.rabbitmq1, .rabbitmq2]) failsBetween
    (by decide +kernel)
  exact ⟨s, hboth, chain_keeps s hs⟩

end RabbitmqCluster.Scripts
