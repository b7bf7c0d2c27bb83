import RabbitmqCluster.Schemes.Resting
import RabbitmqCluster.Terraform.Rabbitmq3

/-! @src var/terraform/src main.tf | scheme:resting | family:routing

    Which queue gets which event. An event goes to both streams and, by its three words, to the
    queues of the system, of creations and of updates, on every instance (`events_routes`). Nothing
    else that goes on there leads to these queues, so each of the last three holds just the events
    that it asks for (`events_held`).

        events ─┬─ # ──────────▶ all-events, last-events
                ├─ system.*.* ─▶ system-events
                ├─ *.create.* ─▶ create-events
                └─ *.update.* ─▶ update-events -/

namespace RabbitmqCluster.Terraform

open RabbitmqCluster.Schemes Broker Topology

/-- A binding key of three words, none of them `#`. -/
theorem topicMatch_three {pattern key : String} {p q r : List Char}
    (hp : Topic.words pattern = [p, q, r]) (hh : Topic.hash ∉ [p, q, r]) :
    Topic.topicMatch pattern key = true ↔ ∃ a b c, Topic.words key = [a, b, c] ∧
      (p = Topic.star ∨ p = a) ∧ (q = Topic.star ∨ q = b) ∧ (r = Topic.star ∨ r = c) := by
  rw [Topic.topicMatch, hp, Topic.matchWords_fixed hh]
  simp only [List.forall₂_cons_left_iff, List.forall₂_nil_left_iff]
  constructor
  · rintro ⟨a, -, ha, ⟨b, -, hb, ⟨c, -, hc, rfl, rfl⟩, rfl⟩, heq⟩
    exact ⟨a, b, c, heq, ha, hb, hc⟩
  · rintro ⟨a, b, c, heq, ha, hb, hc⟩
    exact ⟨a, [b, c], ha, ⟨b, [c], hb, ⟨c, [], hc, rfl, rfl⟩, rfl⟩, heq⟩

theorem topicMatch_first {pattern key : String} {w : List Char}
    (hp : Topic.words pattern = [w, Topic.star, Topic.star]) (hs : w ≠ Topic.star)
    (hh : w ≠ Topic.hash) :
    Topic.topicMatch pattern key = true ↔ ∃ a b, Topic.words key = [w, a, b] := by
  have hne : Topic.hash ≠ Topic.star := by decide
  have hhash : Topic.hash ∉ [w, Topic.star, Topic.star] := by simp [hh.symm, hne]
  rw [topicMatch_three hp hhash]
  constructor
  · rintro ⟨a, b, c, heq, hw | rfl, -, -⟩
    · exact absurd hw hs
    · exact ⟨b, c, heq⟩
  · rintro ⟨a, b, heq⟩
    exact ⟨w, a, b, heq, Or.inr rfl, Or.inl rfl, Or.inl rfl⟩

theorem topicMatch_middle {pattern key : String} {w : List Char}
    (hp : Topic.words pattern = [Topic.star, w, Topic.star]) (hs : w ≠ Topic.star)
    (hh : w ≠ Topic.hash) :
    Topic.topicMatch pattern key = true ↔ ∃ a b, Topic.words key = [a, w, b] := by
  have hne : Topic.hash ≠ Topic.star := by decide
  have hhash : Topic.hash ∉ [Topic.star, w, Topic.star] := by simp [hh.symm, hne]
  rw [topicMatch_three hp hhash]
  constructor
  · rintro ⟨a, b, c, heq, -, hw | rfl, -⟩
    · exact absurd hw hs
    · exact ⟨a, c, heq⟩
  · rintro ⟨a, b, heq⟩
    exact ⟨a, w, b, heq, Or.inl rfl, Or.inr rfl, Or.inl rfl⟩

/-- `events` is the same exchange on every instance. -/
theorem events_lookup (i : Instance) :
    i.topology.exchange events.name = some events ∧
      i.topology.bindingsFrom events.name = [allEventsBinding, lastEventsBinding,
        systemEventsBinding, createEventsBinding, updateEventsBinding] ∧
      i.topology.alternateExchange events = none := by
  cases i <;> decide +kernel

/-- The queues for events that are no streams. -/
def eventQueues : List String := [systemEvents.name, createEvents.name, updateEvents.name]

theorem events_gate (i : Instance) : i.topology.Gate (· = events.name) (· ∈ eventQueues) := by
  cases i <;> exact ⟨by decide +kernel, by decide +kernel⟩

/-- What the queues for events are there for. -/
inductive WantsEvent (m : Message) : String → Prop
  | all : WantsEvent m allEvents.name
  | last : WantsEvent m lastEvents.name
  | system {a b : List Char} (h : Topic.words m.key = ["system".toList, a, b]) :
      WantsEvent m systemEvents.name
  | create {a b : List Char} (h : Topic.words m.key = [a, "create".toList, b]) :
      WantsEvent m createEvents.name
  | update {a b : List Char} (h : Topic.words m.key = [a, "update".toList, b]) :
      WantsEvent m updateEvents.name

theorem wantsEvent_iff {m : Message} {q : String} : WantsEvent m q ↔
    q = allEvents.name ∨ q = lastEvents.name ∨
      (q = systemEvents.name ∧ ∃ a b, Topic.words m.key = ["system".toList, a, b]) ∨
      (q = createEvents.name ∧ ∃ a b, Topic.words m.key = [a, "create".toList, b]) ∨
      (q = updateEvents.name ∧ ∃ a b, Topic.words m.key = [a, "update".toList, b]) := by
  constructor
  · rintro (_ | _ | h | h | h)
    · exact Or.inl rfl
    · exact Or.inr (Or.inl rfl)
    · exact Or.inr (Or.inr (Or.inl ⟨rfl, _, _, h⟩))
    · exact Or.inr (Or.inr (Or.inr (Or.inl ⟨rfl, _, _, h⟩)))
    · exact Or.inr (Or.inr (Or.inr (Or.inr ⟨rfl, _, _, h⟩)))
  · rintro (rfl | rfl | ⟨rfl, a, b, h⟩ | ⟨rfl, a, b, h⟩ | ⟨rfl, a, b, h⟩)
    · exact .all
    · exact .last
    · exact .system h
    · exact .create h
    · exact .update h

/-- The bindings of `events` lead each event to the queues that want it. -/
theorem events_wants (m : Message) (q : String) :
    (∃ b ∈ [allEventsBinding, lastEventsBinding, systemEventsBinding, createEventsBinding,
      updateEventsBinding], b.matches m events.type = true ∧ b.destination = .queue q) ↔
      WantsEvent m q := by
  have hall : allEventsBinding.matches m events.type = true := Topic.topicMatch_hash m.key
  have hlast : lastEventsBinding.matches m events.type = true := Topic.topicMatch_hash m.key
  have hsystem : systemEventsBinding.matches m events.type = true ↔
      ∃ a b, Topic.words m.key = ["system".toList, a, b] :=
    topicMatch_first (by decide +kernel) (by decide) (by decide)
  have hcreate : createEventsBinding.matches m events.type = true ↔
      ∃ a b, Topic.words m.key = [a, "create".toList, b] :=
    topicMatch_middle (by decide +kernel) (by decide) (by decide)
  have hupdate : updateEventsBinding.matches m events.type = true ↔
      ∃ a b, Topic.words m.key = [a, "update".toList, b] :=
    topicMatch_middle (by decide +kernel) (by decide) (by decide)
  have hall' : allEventsBinding.destination = .queue q ↔ q = allEvents.name := bind_to
  have hlast' : lastEventsBinding.destination = .queue q ↔ q = lastEvents.name := bind_to
  have hsystem' : systemEventsBinding.destination = .queue q ↔ q = systemEvents.name := bind_to
  have hcreate' : createEventsBinding.destination = .queue q ↔ q = createEvents.name := bind_to
  have hupdate' : updateEventsBinding.destination = .queue q ↔ q = updateEvents.name := bind_to
  simp only [List.mem_cons, List.not_mem_nil, or_false, exists_eq_or_imp, exists_eq_left, hall,
    hlast, hsystem, hcreate, hupdate, hall', hlast', hsystem', hcreate', hupdate', true_and,
    wantsEvent_iff]
  exact or_congr Iff.rfl (or_congr Iff.rfl (or_congr and_comm (or_congr and_comm and_comm)))

theorem events_route (i : Instance) (m : Message) (q : String) :
    q ∈ i.topology.route m events.name ↔ WantsEvent m q := by
  have hname : events.name ≠ "" := by decide
  obtain ⟨hex, hbindings, halt⟩ := events_lookup i
  have hnone : ∀ y, ¬ i.topology.Sends m events.name y := by
    intro y hs
    rw [sends_iff hex halt, hbindings] at hs
    obtain ⟨b, hb, -, hdest⟩ := hs
    have hqueues : ∀ b ∈ [allEventsBinding, lastEventsBinding, systemEventsBinding,
        createEventsBinding, updateEventsBinding], b.destination ≠ .exchange y := by
      simp [allEventsBinding, lastEventsBinding, systemEventsBinding, createEventsBinding,
        updateEventsBinding, bind]
    exact hqueues b hb hdest
  rw [mem_route_next hname fun y hs => absurd hs (hnone y), drops_iff hex halt, hbindings,
    events_wants]
  refine or_iff_left ?_
  rintro ⟨y, hs, -⟩
  exact hnone y hs

/-- CORRECT: on every instance an event gets to the queues that want it, to each of them once, and
    nowhere else. -/
theorem events_routes (i : Instance) (m : Message) :
    (i.topology.route m events.name).Nodup ∧
      ∀ q, q ∈ i.topology.route m events.name ↔ WantsEvent m q :=
  ⟨route_nodup, events_route i m⟩

/-- Nothing is published into a queue directly. -/
def NamedRun (_ : BrokerState) : BrokerAct → Prop
  | .publish x _ => x ≠ ""
  | .settle _ _ => True

instance (s : BrokerState) (a : BrokerAct) : Decidable (NamedRun s a) := by
  rcases a <;> (dsimp only [NamedRun]; infer_instance)

theorem events_resting (i : Instance) :
    Resting i.topology NamedRun events.name (· ∈ eventQueues) WantsEvent where
  routes m q _ := events_route i m q
  others s y m hc hy q hq hmem := hy ((events_gate i).route hc hq hmem)
  deaths p y hp m q hq hmem := by
    have hother : y ≠ "" ∧ y ≠ events.name := by
      refine deadLetterExchange_named (P := fun y => y ≠ "" ∧ y ≠ events.name) ?_ ?_ hp
      · cases i <;> decide +kernel
      · cases i <;> decide +kernel
    exact hother.2 ((events_gate i).route hother.1 hq hmem)
  last q hq := by
    revert q
    cases i <;> decide +kernel

/-- CORRECT: whatever else goes on at an instance, each queue for events holds only events that it
    wants, each once, and keeps every one of them that was published to `events`. -/
theorem events_held {standard : Option ℤ} (i : Instance) :
    (∀ s, (broker i.topology standard).Reach NamedRun s →
      Rested (· ∈ eventQueues) WantsEvent s) ∧
    ∀ m q s t, (broker i.topology standard).Reach NamedRun s →
      enabled i.topology s (.publish events.name m) = true →
      (broker i.topology standard).Steps
        (fun u a => NamedRun u a ∧ Spares i.topology standard m.id q u a)
        (next i.topology standard s (.publish events.name m)) t →
      q ∈ eventQueues → WantsEvent m q → copiesIn t m.id q = 1 := by
  constructor
  · intro s hs
    exact rested (events_resting i) s hs
  · intro m q s t hs he hst
    exact kept (events_resting i) hs he hst

def accountCreated : Message := { id := 1, key := "user.create.account", expiration := some 20000 }

def inCreateEvents : Copy := { msg := accountCreated, queue := createEvents.name }

/-- A consumer takes the event and gives it back. -/
def takenAndReturned : List BrokerAct :=
  [.settle .deliver inCreateEvents, .settle .requeue { inCreateEvents with held := true }]

theorem events_held_returned : ∃ t, { inCreateEvents with returns := 1 } ∈ t.copies ∧
    copiesIn t accountCreated.id createEvents.name = 1 := by
  obtain ⟨t, ht, hmeets, hback⟩ : ∃ t ∈ (broker rabbitmq1 none).run
      (next rabbitmq1 none (broker rabbitmq1 none).init (.publish events.name accountCreated))
      takenAndReturned, (broker rabbitmq1 none).Meets
        (fun u a => NamedRun u a ∧ Spares rabbitmq1 none accountCreated.id createEvents.name u a)
        (next rabbitmq1 none (broker rabbitmq1 none).init (.publish events.name accountCreated))
        takenAndReturned ∧ { inCreateEvents with returns := 1 } ∈ t.copies := by
    decide +kernel
  have hwants : WantsEvent accountCreated createEvents.name :=
    .create (a := "user".toList) (b := "account".toList) (by decide +kernel)
  exact ⟨t, hback, (events_held .rabbitmq1).2 accountCreated createEvents.name _ t
    (Machine.Steps.refl _ _) (by decide) (Machine.steps_of_run ht hmeets) (by decide) hwants⟩

end RabbitmqCluster.Terraform
