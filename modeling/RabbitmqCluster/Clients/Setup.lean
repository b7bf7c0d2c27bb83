import RabbitmqCluster.Schemes.Broker
import RabbitmqCluster.Schemes.Inventory

/-! @src clients setup.sh cleanup.sh | scheme:inventory | family:undo

    The users, permissions, exchanges, queues and bindings of a broker, and the two scripts of the
    clients: `setup.sh` adds four users with one permission each, an exchange and two queues bound
    to it; `cleanup.sh` deletes the users, the exchange and the queues again.

        publisher ─▶ my.exchange ─ # ─▶ my.queue ─▶ consumer
                          └────── # ─▶ my.stream ─▶ consume_stream
        publish_stream ─────────────────▶ ┘ -/

namespace RabbitmqCluster.Clients

open RabbitmqCluster.Schemes

/-- The patterns of the names that a user may configure, write and read. -/
structure Permission where
  configure : String
  write : String
  read : String
  deriving DecidableEq

inductive Object where
  | vhost (name : String)
  | user (name password : String)
  | permission (vhost user : String) (p : Permission)
  | exchange (vhost : String) (e : Exchange)
  | queue (vhost : String) (q : Queue)
  | binding (vhost : String) (b : Binding)
  deriving DecidableEq

inductive Key where
  | vhost (name : String)
  | user (name : String)
  | permission (vhost user : String)
  | exchange (vhost name : String)
  | queue (vhost name : String)
  | binding (vhost : String) (b : Binding)
  deriving DecidableEq

def Object.key : Object → Key
  | vhost v => .vhost v
  | user name _ => .user name
  | permission v name _ => .permission v name
  | exchange v e => .exchange v e.name
  | queue v q => .queue v q.name
  | binding v b => .binding v b

def Key.ofDestination (v : String) : Destination → Key
  | .queue name => queue v name
  | .exchange name => exchange v name

/-- A permission goes with its user, a binding with both of its ends. -/
def Key.needs : Key → List Key
  | vhost _ => []
  | user _ => []
  | permission v u => [vhost v, user u]
  | exchange v _ => [vhost v]
  | queue v _ => [vhost v]
  | binding v b => [vhost v, exchange v b.source, ofDestination v b.destination]

theorem Key.needs_trans (i j k : Key) (hi : i ∈ j.needs) (hj : j ∈ k.needs) : i ∈ k.needs := by
  cases k with
  | vhost v => exact absurd hj List.not_mem_nil
  | user u => exact absurd hj List.not_mem_nil
  | permission v u =>
    rcases List.mem_pair.mp hj with rfl | rfl
    · exact absurd hi List.not_mem_nil
    · exact absurd hi List.not_mem_nil
  | exchange v x =>
    obtain rfl := List.mem_singleton.mp hj
    exact absurd hi List.not_mem_nil
  | queue v q =>
    obtain rfl := List.mem_singleton.mp hj
    exact absurd hi List.not_mem_nil
  | binding v b =>
    rcases List.mem_cons.mp hj with rfl | hj
    · exact absurd hi List.not_mem_nil
    · have hv : i = vhost v := by
        rcases List.mem_pair.mp hj with rfl | rfl
        · exact List.mem_singleton.mp hi
        · cases hd : b.destination <;> simpa [hd, ofDestination, needs] using hi
      rw [hv]
      exact List.mem_cons_self

def naming : Naming Object Key where
  key := Object.key
  needs := Key.needs
  trans := Key.needs_trans

/-- What is declared on a broker, in all its vhosts. -/
abbrev Definitions : Type := Store naming

/-! ### The commands of rabbitmqctl and rabbitmqadmin -/

inductive Command where
  | addUser (name password : String)
  | setPermissions (vhost user : String) (p : Permission)
  | declareExchange (vhost : String) (e : Exchange)
  | declareQueue (vhost : String) (q : Queue)
  | declareBinding (vhost : String) (b : Binding)
  | deleteUser (name : String)
  | deleteExchange (vhost name : String)
  | deleteQueue (vhost name : String)
  deriving DecidableEq

/-- What the command does; `none` if it is refused. -/
def Command.exec : Command → Definitions → Option Definitions
  | addUser name password => fun s => s.add (.user name password)
  | setPermissions v name p => fun s => s.put (.permission v name p)
  | declareExchange v e => fun s => s.declare (.exchange v e)
  | declareQueue v q => fun s => s.declare (.queue v q)
  | declareBinding v b => fun s => s.declare (.binding v b)
  | deleteUser name => fun s => s.delete (.user name)
  | deleteExchange v name => fun s => s.delete (.exchange v name)
  | deleteQueue v name => fun s => s.delete (.queue v name)

/-! ### setup.sh -/

def vhost : String := "vhost"

def myExchange : Exchange := { name := "my.exchange", type := .topic }

def myQueue : Queue := { name := "my.queue" }

def myStream : Queue :=
  { name := "my.stream"
    arguments := [("x-queue-type", .str "stream"), ("x-max-age", .str "10m")] }

/-- `declare binding source destination_type="queue" destination routing_key="#"`. -/
def bindAll (q : Queue) : Binding :=
  { source := myExchange.name, destination := .queue q.name, routingKey := "#" }

def setup : List Command :=
  [.addUser "publisher" "publisher",
    .setPermissions vhost "publisher" ⟨"", "my\\.exchange", ""⟩,
    .addUser "consumer" "consumer",
    .setPermissions vhost "consumer" ⟨"", "", "my\\.queue"⟩,
    .addUser "publish_stream" "stream",
    .setPermissions vhost "publish_stream" ⟨"", "my\\.stream", ""⟩,
    .addUser "consume_stream" "stream",
    .setPermissions vhost "consume_stream" ⟨"", "", "my\\.stream"⟩,
    .declareExchange vhost myExchange,
    .declareQueue vhost myQueue,
    .declareBinding vhost (bindAll myQueue),
    .declareQueue vhost myStream,
    .declareBinding vhost (bindAll myStream)]

/-! ### cleanup.sh -/

def cleanup : List Command :=
  [.deleteUser "publisher",
    .deleteUser "consumer",
    .deleteUser "publish_stream",
    .deleteUser "consume_stream",
    .deleteExchange vhost "my.exchange",
    .deleteQueue vhost "my.queue",
    .deleteQueue vhost "my.stream"]

end RabbitmqCluster.Clients
