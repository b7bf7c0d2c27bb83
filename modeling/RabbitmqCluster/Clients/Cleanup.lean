import RabbitmqCluster.Clients.Setup

/-! @src clients cleanup.sh | scheme:inventory | family:undo

    `cleanup.sh` undoes `setup.sh`, wherever that stopped: the names are deleted in the order in
    which they are created, so the first delete that fails comes after all that was created. -/

namespace RabbitmqCluster.Clients

open RabbitmqCluster.Schemes

/-- The object that a command of `setup.sh` creates. -/
def Command.object : Command → Option Object
  | addUser name password => some (.user name password)
  | setPermissions v name p => some (.permission v name p)
  | declareExchange v e => some (.exchange v e)
  | declareQueue v q => some (.queue v q)
  | declareBinding v b => some (.binding v b)
  | _ => none

/-- The key that a command of `cleanup.sh` deletes. -/
def Command.deleted : Command → Option Key
  | deleteUser name => some (.user name)
  | deleteExchange v name => some (.exchange v name)
  | deleteQueue v name => some (.queue v name)
  | _ => none

def created : List Object := setup.filterMap Command.object

/-- The seven names. -/
def sevenNames : List Key := cleanup.filterMap Command.deleted

/-- None of the seven names is in use. -/
def Fresh (s : Definitions) : Prop := ∀ k ∈ sevenNames, k ∉ s.keys

instance (s : Definitions) : Decidable (Fresh s) :=
  inferInstanceAs (Decidable (∀ k ∈ sevenNames, k ∉ s.keys))

/-- The broker after `setup.sh`, some of whose commands may be broken. -/
def afterSetup (broken : ℕ → Bool) (s : Definitions) : Definitions :=
  runScript Command.exec setup broken s

/-- The broker is as before, and on the way nothing of it was lost. -/
structure Undone (s : Definitions) (broken : ℕ → Bool) : Prop where
  restored : runScript Command.exec cleanup unbroken (afterSetup broken s) = s
  untouched : ∀ broken',
    s.objects <+: (runScript Command.exec cleanup broken' (afterSetup broken s)).objects

/-! ### The scripts, command by command -/

theorem creates {c : Command} {o : Object} (h : c.object = some o) : Creates Command.exec c o := by
  intro s t hnew ht
  cases c with
  | addUser name password =>
    obtain rfl := Option.some.inj h
    exact Store.add_objects ht
  | setPermissions v name p =>
    obtain rfl := Option.some.inj h
    exact Store.put_objects hnew ht
  | declareExchange v e =>
    obtain rfl := Option.some.inj h
    exact Store.declare_objects hnew ht
  | declareQueue v q =>
    obtain rfl := Option.some.inj h
    exact Store.declare_objects hnew ht
  | declareBinding v b =>
    obtain rfl := Option.some.inj h
    exact Store.declare_objects hnew ht
  | deleteUser name => exact absurd h nofun
  | deleteExchange v name => exact absurd h nofun
  | deleteQueue v name => exact absurd h nofun

theorem deletes {c : Command} {k : Key} (h : c.deleted = some k) : Deletes Command.exec c k := by
  intro s
  cases c with
  | deleteUser name => obtain rfl := Option.some.inj h; rfl
  | deleteExchange v name => obtain rfl := Option.some.inj h; rfl
  | deleteQueue v name => obtain rfl := Option.some.inj h; rfl
  | addUser name password => exact absurd h nofun
  | setPermissions v name p => exact absurd h nofun
  | declareExchange v e => exact absurd h nofun
  | declareQueue v q => exact absurd h nofun
  | declareBinding v b => exact absurd h nofun

theorem setup_creates : List.Forall₂ (Creates Command.exec) setup created :=
  forall₂_filterMap (fun _ _ => creates) (by decide)

theorem cleanup_deletes : List.Forall₂ (Deletes Command.exec) cleanup sevenNames :=
  forall₂_filterMap (fun _ _ => deletes) (by decide)

/-- The seven names are deleted as they are created, and everything created goes with them. -/
theorem cleanup_order : Undoes naming created sevenNames where
  distinct := by decide
  order := by decide
  free := by decide
  covers := by decide

/-- CORRECT: where none of the seven names is in use `cleanup.sh` undoes `setup.sh`, at whichever
    command that failed. -/
theorem cleanup_undoes_setup (s : Definitions) (h : Fresh s) (broken : ℕ → Bool) :
    Undone s broken where
  restored := cleanup_order.undo setup_creates cleanup_deletes h broken
  untouched broken' := by
    obtain ⟨n, hn⟩ :=
      run_creates setup_creates broken s (cleanup_order.new h) cleanup_order.distinct
    refine run_deletes_prefix cleanup_deletes (Undoes.spared h) broken' _ ?_
    rw [afterSetup, hn]
    exact List.prefix_append _ _

/-- A broker with objects of others, one of them with a name of the clients in another vhost. -/
def teamBroker : Definitions where
  objects :=
    [.vhost vhost,
      .vhost "team",
      .user "rabbit" "rabbit",
      .permission vhost "rabbit" ⟨".*", ".*", ".*"⟩,
      .exchange vhost { name := "events", type := .topic },
      .queue vhost { name := "api.events" },
      .binding vhost
        { source := "events", destination := .queue "api.events", routingKey := "#" },
      .queue "team" { name := "my.queue" }]
  closed := by decide

/-- The script fails at the stream: four users, the exchange and one bound queue are undone. -/
theorem cleanup_undoes_setup_team : Undone teamBroker (· = 11) ∧
    (afterSetup (· = 11) teamBroker).objects = teamBroker.objects ++ created.take 11 :=
  ⟨cleanup_undoes_setup teamBroker (by decide) _, by decide⟩

end RabbitmqCluster.Clients
