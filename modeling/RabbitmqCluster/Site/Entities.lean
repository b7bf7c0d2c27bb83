import RabbitmqCluster.Clients.SetupRoutes
import RabbitmqCluster.Scripts.ShovelChain

/-! @src scripts import_definitions.sh var/rabbitmq rabbitmq1.json rabbitmq2.json rabbitmq3.json |
    scheme:convergence | family:declared-state

    All that is set on the brokers: what the clients' scripts know of, and the tags of users, the
    policies of a vhost and its runtime parameters, on each of the three brokers. The commands of
    `rabbitmqctl` and `rabbitmqadmin` bring one of them each. `import_definitions.sh` gives every
    broker the vhost and the administrator.

        vhost ◀─ exchange, queue ◀─ binding        user ◀─ tags
          ▲───── policy, parameter, permission ────▶ -/

namespace RabbitmqCluster.Site

open RabbitmqCluster.Schemes RabbitmqCluster.Clients RabbitmqCluster.Scripts

/-- What is set on a broker; the value of a parameter is a table, or a list of tables. -/
inductive Entity where
  | object (o : Object)
  | tags (user : String) (tags : List String)
  | policy (vhost : String) (p : Policy)
  | parameter (vhost component name : String) (value : List Table)
  deriving DecidableEq

inductive Entity.Key where
  | object (k : Clients.Key)
  | tags (user : String)
  | policy (vhost name : String)
  | parameter (vhost component name : String)
  deriving DecidableEq

namespace Entity

def key : Entity → Key
  | object o => .object o.key
  | tags user _ => .tags user
  | policy v p => .policy v p.name
  | parameter v component name _ => .parameter v component name

def Key.needs : Key → List Key
  | object k => k.needs.map object
  | tags user => [object (.user user)]
  | policy v _ => [object (.vhost v)]
  | parameter v _ _ => [object (.vhost v)]

theorem Key.needs_trans (i j k : Key) (hi : i ∈ j.needs) (hj : j ∈ k.needs) : i ∈ k.needs := by
  cases k with
  | object k =>
    obtain ⟨l, hl, rfl⟩ := List.mem_map.mp hj
    obtain ⟨m, hm, rfl⟩ := List.mem_map.mp hi
    exact List.mem_map_of_mem (Clients.Key.needs_trans m l k hm hl)
  | tags user =>
    rw [List.mem_singleton.mp hj] at hi
    exact absurd hi List.not_mem_nil
  | policy v name =>
    rw [List.mem_singleton.mp hj] at hi
    exact absurd hi List.not_mem_nil
  | parameter v component name =>
    rw [List.mem_singleton.mp hj] at hi
    exact absurd hi List.not_mem_nil

def naming : Naming Entity Key where
  key := key
  needs := Key.needs
  trans := Key.needs_trans

end Entity

/-- The entities of the three brokers. -/
abbrev Brokers : Type := Store (Entity.naming.located Service)

/-! ### The commands -/

inductive Command where
  | addUser (name password : String)
  | setUserTags (name tag : String)
  | setPermissions (vhost user : String) (p : Permission)
  | declareExchange (vhost : String) (e : Exchange)
  | declareQueue (vhost : String) (q : Queue)
  | declareBinding (vhost : String) (b : Binding)
  | setParameter (vhost component name : String) (value : List Table)
  | setPolicy (vhost : String) (p : Policy)
  deriving DecidableEq

def Command.bring : Command → Bring Entity
  | addUser name password => ⟨.add, .object (.user name password)⟩
  | setUserTags name tag => ⟨.put, .tags name [tag]⟩
  | setPermissions v user p => ⟨.put, .object (.permission v user p)⟩
  | declareExchange v e => ⟨.declare, .object (.exchange v e)⟩
  | declareQueue v q => ⟨.declare, .object (.queue v q)⟩
  | declareBinding v b => ⟨.declare, .object (.binding v b)⟩
  | setParameter v component name value => ⟨.put, .parameter v component name value⟩
  | setPolicy v p => ⟨.put, .policy v p⟩

/-- `docker-compose exec broker command`. The user for whom `rabbitmqadmin` logs in is left out: a
    command whose login is refused is a broken one. -/
def dockerExec (b : Service) (c : Command) : Bring (Service × Entity) :=
  ⟨c.bring.mode, (b, c.bring.object)⟩

/-! ### import_definitions.sh -/

/-- The definitions in the exports of the three brokers, with the password whose salted hashes they
    hold. -/
def exported : List Entity :=
  [.object (.user "rabbit" "rabbit"), .tags "rabbit" ["administrator"], .object (.vhost "vhost"),
    .object (.permission "vhost" "rabbit" ⟨".*", ".*", ".*"⟩)]

/-- The brokers after the import on fresh ones. -/
def imported : Brokers where
  objects := [Service.rabbitmq1, .rabbitmq2, .rabbitmq3].flatMap fun b => exported.map (b, ·)
  closed := by decide

/-- Every broker has the vhost. -/
def HasVhost (s : Brokers) : Prop := ∀ b : Service, (b, .object (.vhost vhost)) ∈ s.keys

theorem imported_hasVhost : HasVhost imported := by
  intro b
  cases b <;> decide

end RabbitmqCluster.Site
