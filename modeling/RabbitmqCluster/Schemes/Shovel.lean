import RabbitmqCluster.Schemes.Broker
import Mathlib.Logic.Function.Basic

/-! @scheme shovel | family:store-and-forward

    Queues on several brokers and the links between them. A link takes a message from its source
    queue, publishes it at its destination, waits for the confirm and only then acks it at the
    source; when it drops, what it held is ready again. So a message may be copied on its way, and
    there are three ways to lose it: nothing is routed where the link publishes it, it is published
    to a missing queue, or a temporary queue goes away with it after its last consumer.

        ready ⇄ consumer ─ ack ─▶ consumed
        ready ─▶ taken ─ publish ─▶ forwarded ─ confirm ─▶ confirmed ─ ack ─▶ gone here
          ▲────────┴───── link drops ───┴────────────────────┘ -/

namespace RabbitmqCluster.Schemes

/-- A queue of one of the brokers. -/
structure Place (B : Type*) where
  broker : B
  queue : String
  deriving DecidableEq

instance {B : Type*} [DecidableEq B] : LawfulBEq (Place B) := inferInstance

/-- A link: the queue it empties, and the broker, exchange and key with which it publishes. Without
    a key of its own it keeps the message's. -/
structure Shovel (B : Type*) where
  source : Place B
  broker : B
  exchange : String
  key : Option String := none

/-- A temporary queue goes away with its content when its last consumer does. -/
inductive Life where | lasting | temporary | missing
  deriving DecidableEq

/-- A queue as it is declared. -/
def Life.declared (autoDelete : Bool) : Life := if autoDelete then .temporary else .lasting

/-- Brokers, the links between their queues, and the consumers at the start. A link that finds its
    source missing declares it, as a lasting queue, or does not connect. -/
structure Network (B L : Type*) where
  top : B → Topology
  shovel : L → Shovel B
  life : Place B → Life
  subscribed : List (Place B)
  redeclares : Bool

/-- How far a link is with a message that it has not acked at the source. -/
inductive Stage where | taken | forwarded | confirmed
  deriving DecidableEq

inductive Holder (L : Type*) where
  | ready
  | consumer
  | shovel (l : L) (stage : Stage)
  deriving DecidableEq

/-- A message in a queue, and who holds it there. -/
structure Item (B L : Type*) where
  msg : Message
  place : Place B
  holder : Holder L := .ready
  deriving DecidableEq

/-- What happens to an item. -/
inductive Move (L : Type*) where
  | deliver
  | ack
  | giveBack
  | take (l : L)
  | forward (l : L)
  | confirm (l : L)
  | ackSource (l : L)
  deriving DecidableEq

inductive ShovelAct (B L : Type*) where
  | publish (b : B) (x : String) (m : Message)
  | subscribe (q : Place B)
  | cancel (q : Place B)
  | connect (l : L)
  | drop (l : L)
  | move (k : Move L) (i : Item B L)

/-- The items in the queues, the links that are up, the queues with a consumer, and which queues
    there are; `published` and `consumed` record what was published and what a consumer acked. -/
structure ShovelState (B L : Type*) where
  items : List (Item B L)
  up : List L
  subscribed : List (Place B)
  life : Place B → Life
  published : List Message
  consumed : List ℕ

variable {B L : Type*}

/-- The message as the link publishes it. -/
def Shovel.sent (l : Shovel B) (m : Message) : Message := { m with key := l.key.getD m.key }

/-- The link has published the item and not yet acked it at the source. -/
def Holder.sent : Holder L → Bool
  | .shovel _ .forwarded | .shovel _ .confirmed => true
  | _ => false

theorem Holder.sent_stage {h : Holder L} (hs : h.sent = true) :
    ∃ l stage, h = .shovel l stage ∧ stage ≠ .taken := by
  cases h with
  | ready => exact absurd hs nofun
  | consumer => exact absurd hs nofun
  | shovel l stage =>
    refine ⟨l, stage, rfl, ?_⟩
    rintro rfl
    exact absurd hs nofun

namespace Network

variable (N : Network B L)

def routed (b : B) (x : String) (m : Message) : List (Place B) :=
  ((N.top b).route m x).map fun q => ⟨b, q⟩

def source (l : L) : Place B := (N.shovel l).source

/-- Where the link's publish of the message goes. -/
def forwarded (l : L) (m : Message) : List (Place B) :=
  N.routed (N.shovel l).broker (N.shovel l).exchange ((N.shovel l).sent m)

/-- A copy of the message in each of the queues that exist. -/
def arrive (s : ShovelState B L) (m : Message) (qs : List (Place B)) : List (Item B L) :=
  (qs.filter fun q => s.life q ≠ .missing).map fun q => { msg := m, place := q }

/-- The items that take the place of the item. -/
def outcome (s : ShovelState B L) (i : Item B L) : Move L → List (Item B L)
  | .deliver => [{ i with holder := .consumer }]
  | .giveBack => [{ i with holder := .ready }]
  | .take l => [{ i with holder := .shovel l .taken }]
  | .forward l =>
    { i with holder := .shovel l .forwarded } ::
      arrive s ((N.shovel l).sent i.msg) (N.forwarded l i.msg)
  | .confirm l => [{ i with holder := .shovel l .confirmed }]
  | .ack | .ackSource _ => []

variable [DecidableEq B] [DecidableEq L]

def canMove (s : ShovelState B L) (i : Item B L) : Move L → Bool
  | .deliver => i.holder = .ready && i.place ∈ s.subscribed
  | .ack | .giveBack => i.holder = .consumer
  | .take l => i.holder = .ready && l ∈ s.up && N.source l = i.place
  | .forward l => i.holder = .shovel l .taken
  | .confirm l => i.holder = .shovel l .forwarded
  | .ackSource l => i.holder = .shovel l .confirmed

/-- The queue is temporary and has no consumer left, neither an ordinary one nor a link. -/
def deserted (s : ShovelState B L) (q : Place B) : Bool :=
  s.life q = .temporary && q ∉ s.subscribed && s.up.all (N.source · ≠ q)

/-- A consumer of the queue is gone; if it was the last one, so may be the queue. -/
def left (s : ShovelState B L) (q : Place B) : ShovelState B L :=
  if N.deserted s q then
    { s with items := s.items.filter (·.place ≠ q), life := Function.update s.life q .missing }
  else s

/-- What the link held is ready again. -/
def release (l : L) (i : Item B L) : Item B L :=
  match i.holder with
  | .shovel k _ => if k = l then { i with holder := .ready } else i
  | _ => i

def unsubscribed (s : ShovelState B L) (q : Place B) : ShovelState B L :=
  { s with subscribed := s.subscribed.filter (· ≠ q) }

def dropped (s : ShovelState B L) (l : L) : ShovelState B L :=
  { s with up := s.up.filter (· ≠ l), items := s.items.map (release l) }

def enabled (s : ShovelState B L) : ShovelAct B L → Bool
  | .publish _ _ m => s.published.all (·.id ≠ m.id)
  | .subscribe q => s.life q ≠ .missing && q ∉ s.subscribed
  | .cancel q => q ∈ s.subscribed
  | .connect l => l ∉ s.up && (s.life (N.source l) ≠ .missing || N.redeclares)
  | .drop l => l ∈ s.up
  | .move k i => i ∈ s.items && N.canMove s i k

def next (s : ShovelState B L) : ShovelAct B L → ShovelState B L
  | .publish b x m =>
    { s with items := s.items ++ arrive s m (N.routed b x m), published := s.published ++ [m] }
  | .subscribe q => { s with subscribed := q :: s.subscribed }
  | .cancel q => N.left (unsubscribed s q) q
  | .connect l =>
    { s with
      up := l :: s.up
      life := if s.life (N.source l) = .missing then
        Function.update s.life (N.source l) .lasting else s.life }
  | .drop l => N.left (dropped s l) (N.source l)
  | .move k i =>
    { s with
      items := s.items.erase i ++ N.outcome s i k
      consumed := if k = .ack then s.consumed ++ [i.msg.id] else s.consumed }

end Network

/-- The network with nothing published and no link up. -/
def shovels (N : Network B L) [DecidableEq B] [DecidableEq L] :
    Machine (ShovelState B L) (ShovelAct B L) where
  init := ⟨[], [], N.subscribed, N.life, [], []⟩
  enabled := N.enabled
  next := N.next

end RabbitmqCluster.Schemes
