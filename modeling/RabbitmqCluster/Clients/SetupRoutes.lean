import RabbitmqCluster.Clients.Cleanup
import RabbitmqCluster.Schemes.Convergence
import RabbitmqCluster.Schemes.Copies
import Mathlib.Data.List.Perm.Subperm

/-! @src clients setup.sh cleanup.sh | scheme:convergence | family:topology

    Where the messages of the clients go. On a broker that has the vhost and none of the seven
    names, `setup.sh` runs to its end, and then `my.exchange` routes every message once to
    `my.queue` and once to `my.stream`, whatever else is declared there (`setup_routes`). After a
    run that stopped on the way only `cleanup.sh` makes it run to its end again (`setup_recovers`).

        my.exchange ─ # ─┬─▶ my.queue
                         └─▶ my.stream -/

namespace RabbitmqCluster.Clients

open RabbitmqCluster.Schemes Broker

/-! ### The script as declared objects -/

/-- How a command of `setup.sh` brings its object. -/
def Command.bring : Command → Option (Bring Object)
  | addUser name password => some ⟨.add, .user name password⟩
  | setPermissions v name p => some ⟨.put, .permission v name p⟩
  | declareExchange v e => some ⟨.declare, .exchange v e⟩
  | declareQueue v q => some ⟨.declare, .queue v q⟩
  | declareBinding v b => some ⟨.declare, .binding v b⟩
  | _ => none

def setupBrings : List (Bring Object) := setup.filterMap Command.bring

theorem exec_bring {c : Command} {b : Bring Object} (h : c.bring = some b) (s : Definitions) :
    c.exec s = b.exec s := by
  cases c with
  | addUser name password => obtain rfl := Option.some.inj h; rfl
  | setPermissions v name p => obtain rfl := Option.some.inj h; rfl
  | declareExchange v e => obtain rfl := Option.some.inj h; rfl
  | declareQueue v q => obtain rfl := Option.some.inj h; rfl
  | declareBinding v b => obtain rfl := Option.some.inj h; rfl
  | deleteUser name => cases h
  | deleteExchange v name => cases h
  | deleteQueue v name => cases h

theorem afterSetup_brings (broken : ℕ → Bool) (s : Definitions) :
    afterSetup broken s = runScript Bring.exec setupBrings broken s :=
  runScript_congr (forall₂_filterMap (R := fun (c : Command) (b : Bring Object) =>
      ∀ s : Definitions, c.exec s = b.exec s)
    (fun _ _ => exec_bring) (by decide)) broken s

theorem setupBrings_objects : setupBrings.map (·.object) = created := by decide

/-- Nothing is refused on a broker that has the vhost and none of the seven names. -/
theorem setup_completes {s : Definitions} (h : Fresh s) (hv : .vhost vhost ∈ s.keys) :
    (afterSetup unbroken s).objects = s.objects ++ created := by
  have hnew := cleanup_order.new h
  have hone : Consistent naming setupBrings := by decide
  have hsupplied : Supplied naming s.keys (setupBrings.map (·.object)) := by
    have hvhost : Supplied naming [.vhost vhost] (setupBrings.map (·.object)) := by decide
    exact hvhost.mono fun k hk => List.mem_singleton.mp hk ▸ hv
  have hagree : Agrees setupBrings s := by
    intro b hb _ o ho hkey
    have hcreated : b.object ∈ created :=
      setupBrings_objects ▸ List.mem_map_of_mem (f := (·.object)) hb
    exact absurd (Store.mem_keys.mpr ⟨o, ho, hkey⟩) (hnew _ hcreated)
  obtain ⟨n, hn⟩ := run_creates setup_creates unbroken s hnew cleanup_order.distinct
  rw [← afterSetup] at hn
  have hall : ∀ o ∈ created, o ∈ created.take n := by
    intro o ho
    have hbrought : o ∈ (afterSetup unbroken s).objects := by
      rw [afterSetup_brings, runScript_eq_runAll hone (by decide) hsupplied hagree,
        mem_runAll hone hsupplied]
      obtain ⟨b, hb, hobj⟩ := List.mem_map.mp (setupBrings_objects.symm ▸ ho)
      exact Or.inr ⟨b, hb, hobj, Or.inr (hobj ▸ hnew o ho)⟩
    rw [hn] at hbrought
    refine (List.mem_append.mp hbrought).resolve_left fun hold => hnew o ho ?_
    exact Store.mem_keys.mpr ⟨o, hold, rfl⟩
  have hnodup : created.Nodup := List.Nodup.of_map _ cleanup_order.distinct
  have hlen : created.length ≤ (created.take n).length :=
    (List.subperm_of_subset hnodup hall).length_le
  rw [hn, List.take_of_length_le (by rw [List.length_take] at hlen; omega)]

/-! ### The topology of a vhost -/

def Object.exchangeIn (v : String) : Object → Option Exchange
  | exchange w e => if w = v then some e else none
  | _ => none

def Object.queueIn (v : String) : Object → Option Queue
  | queue w q => if w = v then some q else none
  | _ => none

def Object.bindingIn (v : String) : Object → Option Binding
  | binding w b => if w = v then some b else none
  | _ => none

/-- What is declared in the vhost, under the policies. -/
def topologyOf (s : Definitions) (v : String) (policies : List Policy) : Topology where
  exchanges := s.objects.filterMap (Object.exchangeIn v)
  queues := s.objects.filterMap (Object.queueIn v)
  bindings := s.objects.filterMap (Object.bindingIn v)
  policies := policies

theorem exchangeIn_key {v : String} {o : Object} {e : Exchange} (h : o.exchangeIn v = some e) :
    o.key = .exchange v e.name := by
  cases o with
  | exchange w f =>
    rw [Object.exchangeIn] at h
    split at h
    · next hw => rw [Option.some.inj h, hw]; rfl
    · cases h
  | vhost | user | permission | queue | binding => cases h

theorem bindingIn_key {v : String} {o : Object} {b : Binding} (h : o.bindingIn v = some b) :
    o.key = .binding v b := by
  cases o with
  | binding w c =>
    rw [Object.bindingIn] at h
    split at h
    · next hw => rw [Option.some.inj h, hw]; rfl
    · cases h
  | vhost | user | permission | exchange | queue => cases h

/-- Where the name of an exchange is not in use, nothing is bound to it. -/
theorem no_bindings {s : Definitions} {v x : String} (hx : .exchange v x ∉ s.keys) :
    (s.objects.filterMap (Object.bindingIn v)).filter (·.source = x) = [] := by
  refine List.filter_eq_nil_iff.mpr fun b hb hsource => hx ?_
  obtain ⟨o, ho, hbind⟩ := List.mem_filterMap.mp hb
  have hneeds : Key.exchange v b.source ∈ Key.needs o.key := by
    rw [bindingIn_key hbind]
    exact List.mem_cons_of_mem _ List.mem_cons_self
  exact of_decide_eq_true hsource ▸ s.closed o ho _ hneeds

theorem no_exchange {s : Definitions} {v x : String} (hx : .exchange v x ∉ s.keys) :
    (s.objects.filterMap (Object.exchangeIn v)).find? (·.name = x) = none := by
  refine List.find?_eq_none.mpr fun e he hname => hx ?_
  obtain ⟨o, ho, hex⟩ := List.mem_filterMap.mp he
  rw [← of_decide_eq_true hname, ← exchangeIn_key hex]
  exact Store.mem_keys.mpr ⟨o, ho, rfl⟩

/-- CORRECT: after `setup.sh` every message that is published to `my.exchange` goes once to the
    queue and once to the stream, whatever else is declared on the broker. -/
theorem setup_routes {s : Definitions} (h : Fresh s) (hv : .vhost vhost ∈ s.keys)
    (policies : List Policy) (m : Message) :
    (topologyOf (afterSetup unbroken s) vhost policies).route m myExchange.name =
      [myQueue.name, myStream.name] := by
  have hfree : Key.exchange vhost myExchange.name ∉ s.keys := h _ (by decide)
  have hobjects := setup_completes h hv
  have hexchange : (topologyOf (afterSetup unbroken s) vhost policies).exchange myExchange.name =
      some myExchange := by
    rw [Topology.exchange, topologyOf, hobjects, List.filterMap_append, List.find?_append,
      no_exchange hfree]
    rfl
  have hbindings : (topologyOf (afterSetup unbroken s) vhost policies).bindingsFrom
      myExchange.name = [bindAll myQueue, bindAll myStream] := by
    rw [Topology.bindingsFrom, topologyOf, hobjects]
    show (List.filterMap _ _).filter _ = _
    rw [List.filterMap_append, List.filter_append, no_bindings hfree]
    rfl
  have htargets : (topologyOf (afterSetup unbroken s) vhost policies).targets myExchange m =
      [myQueue.name, myStream.name].map .queue := by
    have hall : ∀ b ∈ [bindAll myQueue, bindAll myStream],
        b.matches m myExchange.type = true := by
      intro b hb
      rcases List.mem_pair.mp hb with rfl | rfl
      · exact Topic.topicMatch_hash m.key
      · exact Topic.topicMatch_hash m.key
    rw [Topology.targets, hbindings, List.filter_eq_self.mpr hall]
    rfl
  rw [route_queues (by decide) hexchange htargets]
  decide

theorem setup_routes_team : (topologyOf (afterSetup unbroken teamBroker) vhost []).route
    { id := 1, key := "user.create.account" } myExchange.name = [myQueue.name, myStream.name] :=
  setup_routes (by decide) (by decide) [] _

/-! ### Running it again -/

/-- CORRECT: once `setup.sh` has added its first user a second run changes nothing, wherever the
    first one stopped; but after `cleanup.sh` it gets to its end. -/
theorem setup_recovers {s : Definitions} (h : Fresh s) (hv : .vhost vhost ∈ s.keys)
    (broken : ℕ → Bool) (hfirst : broken 0 = false) :
    afterSetup unbroken (afterSetup broken s) = afterSetup broken s ∧
      (afterSetup unbroken (runScript Command.exec cleanup unbroken
        (afterSetup broken s))).objects = s.objects ++ created := by
  constructor
  · have hready : s.Ready (.user "publisher" "publisher") := by
      intro k hk
      exact absurd hk List.not_mem_nil
    rw [afterSetup_brings, afterSetup_brings]
    exact stuck hready broken hfirst
  · have hundone : runScript Command.exec cleanup unbroken (afterSetup broken s) = s :=
      cleanup_order.undo setup_creates cleanup_deletes h broken
    rw [hundone]
    exact setup_completes h hv

/-- The first run stops before the stream is declared. -/
theorem setup_recovers_team : afterSetup unbroken (afterSetup (· = 11) teamBroker) =
      afterSetup (· = 11) teamBroker ∧
    .queue vhost myStream ∉ (afterSetup (· = 11) teamBroker).objects :=
  ⟨(setup_recovers (by decide) (by decide) (· = 11) (by decide)).1, by decide⟩

end RabbitmqCluster.Clients
