import RabbitmqCluster.Schemes.Machine
import RabbitmqCluster.Schemes.Pattern
import RabbitmqCluster.Schemes.Routing
import Mathlib.Data.List.Dedup

/-! @scheme broker | family:dead-lettering

    A broker over a fixed topology. A message is published to an exchange and copied into the queues
    it is routed to; a copy is delivered, acked, requeued, rejected or expires. A copy that dies
    (rejected, expired, or requeued past the delivery limit) goes through the dead-letter exchange
    of its queue, and is gone when there is none.

        publish ─▶ route ─▶ copy ⇄ held ─▶ acked
                     ▲        └──────┴──▶ dies ─▶ dead-letter exchange ─┐
                     └──────────────────────────────────────────────────┘ -/

namespace RabbitmqCluster.Schemes

inductive ExchangeType where | topic | headers | direct | fanout
  deriving DecidableEq

structure Exchange where
  name : String
  type : ExchangeType
  arguments : Table := []
  deriving DecidableEq

structure Queue where
  name : String
  arguments : Table := []
  deriving DecidableEq

inductive Destination where
  | queue (name : String)
  | exchange (name : String)
  deriving DecidableEq

structure Binding where
  source : String
  destination : Destination
  routingKey : String := ""
  arguments : Table := []
  deriving DecidableEq

inductive ApplyTo where | queues | exchanges | all
  deriving DecidableEq

structure Policy where
  name : String
  pattern : String
  priority : ℤ
  applyTo : ApplyTo
  definition : Table
  deriving DecidableEq

/-- What is declared on a broker. -/
structure Topology where
  exchanges : List Exchange
  queues : List Queue
  bindings : List Binding
  policies : List Policy

/-- Why a copy died. -/
inductive Reason where | rejected | expired | deliveryLimit
  deriving DecidableEq

def Reason.text : Reason → String
  | .rejected => "rejected"
  | .expired => "expired"
  | .deliveryLimit => "delivery_limit"

/-- An entry of the death history of a message. -/
structure Death where
  queue : String
  reason : Reason
  deriving DecidableEq

/-- A message; its death history has the newest entry first. -/
structure Message where
  id : ℕ
  key : String
  headers : Table := []
  expiration : Option ℕ := none
  deaths : List Death := []
  deriving DecidableEq

/-- A message in a queue, perhaps held by a consumer, requeued `returns` times. -/
structure Copy where
  msg : Message
  queue : String
  held : Bool := false
  returns : ℕ := 0
  deriving DecidableEq

/-- The binding matches the message, at an exchange of this type. -/
def Binding.matches (b : Binding) (m : Message) : ExchangeType → Bool
  | .topic => Topic.topicMatch b.routingKey m.key
  | .headers => Headers.headersMatch b.arguments m.headers
  | .direct => b.routingKey = m.key
  | .fanout => true

def Table.set (t : Table) (k : String) (v : Value) : Table := (k, v) :: t.filter (·.1 ≠ k)

theorem Table.lookup_set {t : Table} {k j : String} {v : Value} (h : j ≠ k) :
    (Table.set t k v).lookup j = t.lookup j := by
  have hfilter : ∀ l : Table, (l.filter (·.1 ≠ k)).lookup j = l.lookup j := by
    intro l
    induction l with
    | nil => rfl
    | cons e l ih =>
      obtain ⟨i, w⟩ := e
      rw [List.filter_cons]
      by_cases hik : i = k
      · have hji : (j == i) = false := by simpa [hik] using h
        rw [if_neg (by simp [hik]), ih, List.lookup_cons, hji]
      · rw [if_pos (by simp [hik]), List.lookup_cons, List.lookup_cons, ih]
  have hne : (j == k) = false := by simpa using h
  rw [Table.set, List.lookup_cons, hne]
  exact hfilter t

/-- The headers that name the first death of a message; later deaths leave them. -/
def Message.firstDeath (m : Message) (reason : Reason) (queue : String) : Table :=
  if m.deaths = [] then
    Table.set (Table.set m.headers "x-first-death-reason" (.str reason.text)) "x-first-death-queue"
      (.str queue)
  else m.headers

/-- The returns that are counted at a death: the one past the limit is counted as well. -/
def Reason.returns (reason : Reason) (returns : ℕ) : ℕ :=
  if reason = .deliveryLimit then returns + 1 else returns

/-- The message as it leaves a queue through the dead-letter exchange: without its expiration, with
    its key, and with the death in its history and its headers. -/
def Message.die (m : Message) (reason : Reason) (queue : String) (returns : ℕ) : Message :=
  let first := m.firstDeath reason queue
  { m with
    expiration := none
    deaths := ⟨queue, reason⟩ :: m.deaths.filter (· ≠ ⟨queue, reason⟩)
    headers :=
      if reason.returns returns = 0 then first
      else Table.set first "x-delivery-count" (.int (reason.returns returns)) }

/-- The history leads back to the queue without a rejection on the way: the copy is not sent there,
    unless it was rejected now. -/
def automaticCycle (queue : String) (deaths : List Death) : Bool :=
  match deaths.dropWhile (·.queue ≠ queue) with
  | [] => false
  | d :: _ => (deaths.takeWhile (·.queue ≠ queue) ++ [d]).all (·.reason ≠ .rejected)

namespace Topology

variable (top : Topology)

def exchange (name : String) : Option Exchange := top.exchanges.find? (·.name = name)

def queue (name : String) : Option Queue := top.queues.find? (·.name = name)

/-- The policies that apply to this kind of object and match its name. -/
def matching (kind : ApplyTo) (name : String) : List Policy :=
  top.policies.filter fun p =>
    (p.applyTo = kind || p.applyTo = .all) && Pattern.isMatch p.pattern name

/-- The policies of the highest priority among the matching ones. -/
def candidates (kind : ApplyTo) (name : String) : List Policy :=
  (top.matching kind name).filter fun p =>
    (top.matching kind name).all fun q => q.priority ≤ p.priority

/-- The policy in force: the one candidate (the first, where the broker would be free to choose). -/
def policy (kind : ApplyTo) (name : String) : Option Policy := (top.candidates kind name).head?

/-- A queue argument that a policy can give as well: the argument counts before the policy. -/
def setting (name argument definition : String) : Option Value :=
  ((top.queue name).bind (·.arguments.lookup argument)).or
    ((top.policy .queues name).bind (·.definition.lookup definition))

/-- A numeric limit that an argument and a policy can both give: the smaller one counts. -/
def limit (name argument definition : String) : Option ℤ :=
  let fromArgument := ((top.queue name).bind (·.arguments.lookup argument)).bind Value.number
  let fromPolicy :=
    ((top.policy .queues name).bind (·.definition.lookup definition)).bind Value.number
  match fromArgument, fromPolicy with
  | some m, some n => some (min m n)
  | m, n => m.or n

def deadLetterExchange (name : String) : Option String :=
  (top.setting name "x-dead-letter-exchange" "dead-letter-exchange").bind Value.text

def messageTtl (name : String) : Option ℤ := top.limit name "x-message-ttl" "message-ttl"

def isQuorum (name : String) : Bool :=
  (top.queue name).bind (·.arguments.lookup "x-queue-type") = some (.str "quorum")

/-- Only quorum queues count redeliveries; `standard` is the broker's limit for those without. -/
def deliveryLimit (standard : Option ℤ) (name : String) : Option ℤ :=
  if top.isQuorum name then
    (top.limit name "x-delivery-limit" "delivery-limit").or standard
  else none

def bindingsFrom (source : String) : List Binding := top.bindings.filter (·.source = source)

def alternateExchange (e : Exchange) : Option String :=
  ((e.arguments.lookup "alternate-exchange").or
    ((top.policy .exchanges e.name).bind (·.definition.lookup "alternate-exchange"))).bind
      Value.text

/-- Where an exchange sends the message: along its matching bindings, or else to its alternate. -/
def targets (e : Exchange) (m : Message) : List Destination :=
  match ((top.bindingsFrom e.name).filter (·.matches m e.type)).map (·.destination) with
  | [] => (top.alternateExchange e).toList.map .exchange
  | ds => ds

/-- The queues reached from an exchange over at most `n` exchanges. -/
def hops (m : Message) : ℕ → String → List String
  | 0, _ => []
  | n + 1, x =>
    match top.exchange x with
    | none => []
    | some e => (top.targets e m).flatMap fun
      | .queue q => [q]
      | .exchange y => hops m n y

/-- The queues that get a copy, each one; the nameless exchange routes to the queue of that name. -/
def route (m : Message) (x : String) : List String :=
  if x = "" then (top.queue m.key).toList.map (·.name)
  else (top.hops m top.exchanges.length x).dedup

/-- The copies a copy leaves when it dies. -/
def deadLetter (reason : Reason) (c : Copy) : List Copy :=
  match top.deadLetterExchange c.queue with
  | none => []
  | some x =>
    let m := c.msg.die reason c.queue c.returns
    ((top.route m x).filter fun q => reason = .rejected || !automaticCycle q m.deaths).map
      fun q => { msg := m, queue := q }

end Topology

/-- What happens to a copy in a queue. -/
inductive Settle where | deliver | ack | requeue | reject | expire
  deriving DecidableEq

inductive BrokerAct where
  | publish (x : String) (m : Message)
  | settle (k : Settle) (c : Copy)
  deriving DecidableEq

/-- The copies in the queues; the lists below them record the messages published, the ids acked by
    a consumer, and the id and queue of every death. -/
structure BrokerState where
  copies : List Copy
  published : List Message
  acked : List ℕ
  died : List (ℕ × String)

namespace Broker

variable (top : Topology) (standard : Option ℤ)

/-- The requeue is one too many. -/
def overLimit (c : Copy) : Bool :=
  match top.deliveryLimit standard c.queue with
  | some n => n < (c.returns + 1 : ℤ)
  | none => false

/-- The reason for which the copy dies, if it does. -/
def death (c : Copy) : Settle → Option Reason
  | .reject => some .rejected
  | .expire => some .expired
  | .requeue => if overLimit top standard c then some .deliveryLimit else none
  | .deliver | .ack => none

/-- The copies that take the place of the copy. -/
def outcome (c : Copy) (k : Settle) : List Copy :=
  match death top standard c k, k with
  | some reason, _ => top.deadLetter reason c
  | none, .deliver => [{ c with held := true }]
  | none, .requeue => [{ c with held := false, returns := c.returns + 1 }]
  | none, _ => []

/-- A copy waits or is held, and only a waiting one with a time to live expires. -/
def canSettle (c : Copy) : Settle → Bool
  | .deliver => !c.held
  | .expire => !c.held && ((top.messageTtl c.queue).isSome || c.msg.expiration.isSome)
  | .ack | .requeue | .reject => c.held

def enabled (s : BrokerState) : BrokerAct → Bool
  | .publish _ m => s.published.all (·.id ≠ m.id)
  | .settle k c => c ∈ s.copies && canSettle top c k

def next (s : BrokerState) : BrokerAct → BrokerState
  | .publish x m =>
    { s with
      copies := s.copies ++ (top.route m x).map fun q => { msg := m, queue := q }
      published := s.published ++ [m] }
  | .settle k c =>
    { s with
      copies := s.copies.erase c ++ outcome top standard c k
      acked := if k = .ack then s.acked ++ [c.msg.id] else s.acked
      died := if (death top standard c k).isSome then s.died ++ [(c.msg.id, c.queue)]
        else s.died }

end Broker

/-- The broker with nothing published yet. -/
def broker (top : Topology) (standard : Option ℤ) : Machine BrokerState BrokerAct where
  init := ⟨[], [], [], []⟩
  enabled := Broker.enabled top
  next := Broker.next top standard

end RabbitmqCluster.Schemes
