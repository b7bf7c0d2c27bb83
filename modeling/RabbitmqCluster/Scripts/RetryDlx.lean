import RabbitmqCluster.Schemes.RetryLoop

/-! @src scripts setup_retry_dlx_topology.sh publish_message.sh | scheme:retry-loop | family:retry

    The retry loop that the script builds: what `events` routes to `api.events` dies into
    `dead-events` and comes back after five seconds. A rejected message comes back for ever. But
    `publish_message.sh` sends its messages with an expiration: one that expires in `api.events` and
    then in `dead-events` has gone round without a rejection, and the broker drops it
    (`script_message_dropped`). The loop keeps its messages exactly in the runs in which no copy
    dies in such a cycle (`events_kept_iff`).

        events ─ 3 keys ─▶ api.events ─ dies ─▶ dlx.events
                               ▲                    │ *.*.*
             dlx.retry ─ 3 keys ┘◀─ dies ─ dead-events ◀┘ -/

namespace RabbitmqCluster.Scripts

open RabbitmqCluster.Schemes Broker

/-! ### setup_retry_dlx_topology.sh -/

def events : Exchange := { name := "events", type := .topic }

def dlxEvents : Exchange := { name := "dlx.events", type := .topic }

def dlxRetry : Exchange := { name := "dlx.retry", type := .topic }

def apiEvents : Queue := { name := "api.events" }

def deadEvents : Queue := { name := "dead-events", arguments := [("x-message-ttl", .int 5000)] }

/-- `declare binding source destination_type="queue" destination routing_key`. -/
def declareBinding (source : Exchange) (destination : Queue) (routingKey : String) : Binding :=
  { source := source.name, destination := .queue destination.name, routingKey := routingKey }

def haEvents : Policy :=
  { name := "ha-events"
    pattern := ".\\.events"
    priority := 2
    applyTo := .queues
    definition :=
      [("ha-mode", .str "all"), ("ha-sync-mode", .str "automatic"),
        ("dead-letter-exchange", .str "dlx.events")] }

def haRetryEvents : Policy :=
  { name := "ha-retry-events"
    pattern := "dead-events"
    priority := 2
    applyTo := .queues
    definition :=
      [("ha-mode", .str "all"), ("ha-sync-mode", .str "automatic"),
        ("dead-letter-exchange", .str "dlx.retry")] }

/-- What the script declares on rabbitmq1. -/
def retryDlx : Topology where
  exchanges := [events, dlxEvents, dlxRetry]
  queues := [apiEvents, deadEvents]
  bindings :=
    [declareBinding events apiEvents "user.create.account",
      declareBinding events apiEvents "user.update.account",
      declareBinding events apiEvents "user.delete.account",
      declareBinding dlxEvents deadEvents "*.*.*",
      declareBinding dlxRetry apiEvents "user.create.account",
      declareBinding dlxRetry apiEvents "user.update.account",
      declareBinding dlxRetry apiEvents "user.delete.account"]
  policies := [haEvents, haRetryEvents]

/-! ### publish_message.sh -/

/-- The message of round `i`: `"expiration": "20000"` and `"routing_key": "user.create.account"`. -/
def publishMessage (i : ℕ) : Message :=
  { id := i, key := "user.create.account", expiration := some 20000 }

/-! ### The loop -/

/-- The keys bound at `events` and again at `dlx.retry`. -/
def boundKeys : List String := ["user.create.account", "user.update.account", "user.delete.account"]

theorem boundKeys_literal : ∀ k ∈ boundKeys,
    Topic.star ∉ Topic.words k ∧ Topic.hash ∉ Topic.words k := by
  decide +kernel

theorem events_route (m : Message) :
    retryDlx.route m events.name = if m.key ∈ boundKeys then [apiEvents.name] else [] :=
  route_literal (by decide) (by decide +kernel) (by decide +kernel) rfl (by decide +kernel)
    (by decide) boundKeys_literal m

theorem dlxRetry_route (m : Message) :
    retryDlx.route m dlxRetry.name = if m.key ∈ boundKeys then [apiEvents.name] else [] :=
  route_literal (by decide) (by decide +kernel) (by decide +kernel) rfl (by decide +kernel)
    (by decide) boundKeys_literal m

theorem dlxEvents_route {m : Message} (hm : m.key ∈ boundKeys) :
    retryDlx.route m dlxEvents.name = [deadEvents.name] := by
  have he : retryDlx.exchange dlxEvents.name = some dlxEvents := by decide +kernel
  have hb : retryDlx.bindingsFrom dlxEvents.name =
      [declareBinding dlxEvents deadEvents "*.*.*"] := by decide +kernel
  have hall : ∀ k ∈ boundKeys, Topic.topicMatch "*.*.*" k = true := by decide +kernel
  exact route_queues (Q := [deadEvents.name]) (by decide) he (targets_single hb (hall m.key hm))

theorem retryDlx_loop :
    DeadLetterLoop retryDlx events.name apiEvents.name deadEvents.name boundKeys where
  enter := events_route
  toWait := ⟨dlxEvents.name, by decide +kernel, fun _ hm => dlxEvents_route hm⟩
  toWork := ⟨by decide, dlxRetry.name, by decide +kernel, fun m hm => by
    rw [dlxRetry_route, if_pos hm]⟩

/-! ### Kept -/

/-- Every event that was routed to `api.events` and not acked is in one of the two queues. -/
def EventsKept (s : BrokerState) : Prop :=
  LoopKept retryDlx events.name apiEvents.name deadEvents.name s

/-- No copy dies so that it would go round without a rejection. -/
def RejectedOnTheWay (standard : Option ℤ) (s : BrokerState) (a : BrokerAct) : Prop :=
  NoCycle retryDlx standard apiEvents.name deadEvents.name s a

instance (standard : Option ℤ) (s : BrokerState) (a : BrokerAct) :
    Decidable (RejectedOnTheWay standard s a) :=
  inferInstanceAs (Decidable (NoCycle retryDlx standard apiEvents.name deadEvents.name s a))

/-- A copy in `dead-events` whose last death was in `api.events` comes back exactly when that death
    was a rejection. -/
theorem back_iff {c : Copy} {d : Death} {older : List Death} (hq : c.queue = deadEvents.name)
    (hdeaths : c.msg.deaths = d :: older) (hd : d.queue = apiEvents.name) :
    ¬ Cycles apiEvents.name deadEvents.name c .expired ↔ d.reason = .rejected := by
  have hne : deadEvents.name ≠ apiEvents.name := by decide
  have hkeep : d ≠ ⟨deadEvents.name, .expired⟩ := fun h => hne (by rw [← hd, h])
  simp [Cycles, otherQueue, hq, hne, Message.die, hdeaths, hkeep, automaticCycle, hd]

/-- The first message of the script expires in `api.events` and then in `dead-events`. -/
def expiresTwice : List BrokerAct :=
  [.publish events.name (publishMessage 1),
    .settle .expire { msg := publishMessage 1, queue := apiEvents.name },
    .settle .expire
      { msg := (publishMessage 1).die .expired apiEvents.name 0, queue := deadEvents.name }]

theorem script_message_dropped :
    ¬ ∀ standard s, (broker retryDlx standard).Reach (EntersAt events.name) s →
      EventsKept s := by
  intro hall
  obtain ⟨s, hs, hpub, hack, hnone⟩ := Machine.reach_of_run (m := broker retryDlx none)
    (C := EntersAt events.name)
    (P := fun s => s.published = [publishMessage 1] ∧ s.acked = [] ∧ s.copies = []) expiresTwice
    (by decide +kernel)
  have hkey : (publishMessage 1).key ∈ boundKeys := by decide
  obtain ⟨c, hc, -⟩ := hall none s hs (publishMessage 1)
    (by rw [hpub]; exact List.mem_singleton_self _) ((retryDlx_loop.enters _).mpr hkey)
    (by rw [hack]; exact List.not_mem_nil)
  rw [hnone] at hc
  exact absurd hc List.not_mem_nil

/-- CORRECT: whatever is published to `events` and however it is consumed, the loop keeps its
    messages if and only if no copy dies in a cycle without a rejection. -/
theorem events_kept_iff (standard : Option ℤ) (as : List BrokerAct) (s : BrokerState)
    (h : (broker retryDlx standard).run (broker retryDlx standard).init as = some s)
    (hd : (broker retryDlx standard).Meets (EntersAt events.name)
      (broker retryDlx standard).init as) :
    EventsKept s ↔ (broker retryDlx standard).Meets (RejectedOnTheWay standard)
      (broker retryDlx standard).init as :=
  (retryDlx_loop.kept_exact standard).iff as h hd (looping_init _ _ _) nofun

/-- The message is rejected before it expires, and comes back. -/
def rejectedInTime : List BrokerAct :=
  [.publish events.name (publishMessage 1),
    .settle .deliver { msg := publishMessage 1, queue := apiEvents.name },
    .settle .reject { msg := publishMessage 1, queue := apiEvents.name, held := true },
    .settle .expire
      { msg := (publishMessage 1).die .rejected apiEvents.name 0, queue := deadEvents.name }]

theorem events_kept_iff_rejected :
    ∃ s, s.copies.map (·.queue) = [apiEvents.name] ∧ EventsKept s := by
  obtain ⟨s, hs, hd, hrejected, hq⟩ : ∃ s ∈ (broker retryDlx none).run (broker retryDlx none).init
      rejectedInTime, (broker retryDlx none).Meets (EntersAt events.name)
        (broker retryDlx none).init rejectedInTime ∧
      (broker retryDlx none).Meets (RejectedOnTheWay none) (broker retryDlx none).init
        rejectedInTime ∧ s.copies.map (·.queue) = [apiEvents.name] := by
    decide +kernel
  exact ⟨s, hq, (events_kept_iff none rejectedInTime s hs hd).mpr hrejected⟩

end RabbitmqCluster.Scripts
