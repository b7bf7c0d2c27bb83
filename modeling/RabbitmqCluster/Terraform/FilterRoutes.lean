import RabbitmqCluster.Schemes.Resting
import RabbitmqCluster.Terraform.Rabbitmq3

/-! @src var/terraform/rabbitmq1 filter-topology.tf | scheme:resting | family:routing

    Which queue gets which message for `Unfiltered`: the log gets them all, and a second exchange,
    which passes each of them on by its headers, feeds the filters. Nothing else that goes on at
    rabbitmq1 leads to these queues, so each of them holds just what it asks for (`filter_held`).

        Unfiltered ─┬─ # ─▶ unfiltered-log
                    └─ # ─▶ Eventrouter ─ headers ─▶ filtered-1, filtered-2, filtered-all -/

namespace RabbitmqCluster.Terraform

open RabbitmqCluster.Schemes Broker Topology

/-- The queues of the filter. -/
def filterQueues : List String :=
  [unfilteredLog.name, filtered1.name, filtered2.name, filteredAll.name]

theorem unfiltered_lookup :
    rabbitmq1.exchange unfiltered.name = some unfiltered ∧
      rabbitmq1.bindingsFrom unfiltered.name = [unfilteredFilterBinding, unfilteredLogBinding] ∧
      rabbitmq1.alternateExchange unfiltered = none := by
  decide +kernel

theorem eventrouter_lookup :
    rabbitmq1.exchange eventrouter.name = some eventrouter ∧
      rabbitmq1.bindingsFrom eventrouter.name =
        [filtered1Binding, filtered2Binding, filteredAllBinding] ∧
      rabbitmq1.alternateExchange eventrouter = none := by
  decide +kernel

/-- The exchanges of the filter feed its queues, and no others. -/
theorem filter_gate : rabbitmq1.Gate (fun x => x = unfiltered.name ∨ x = eventrouter.name)
    (· ∈ filterQueues) := by
  constructor
  · decide +kernel
  · decide +kernel

/-- The header with this value. -/
def Has (m : Message) (header value : String) : Prop := m.headers.lookup header = some (.str value)

/-- What the queues of the filter are there for. -/
inductive WantsFiltered (m : Message) : String → Prop
  | log : WantsFiltered m unfilteredLog.name
  | one (h : Has m "country" "1" ∨ Has m "rid" "1") : WantsFiltered m filtered1.name
  | two (h : Has m "country" "2" ∨ Has m "rid" "2") : WantsFiltered m filtered2.name
  | all (h : Has m "root" "1") : WantsFiltered m filteredAll.name

theorem wantsFiltered_iff {m : Message} {q : String} : WantsFiltered m q ↔
    q = unfilteredLog.name ∨
      (q = filtered1.name ∧ (Has m "country" "1" ∨ Has m "rid" "1")) ∨
      (q = filtered2.name ∧ (Has m "country" "2" ∨ Has m "rid" "2")) ∨
      (q = filteredAll.name ∧ Has m "root" "1") := by
  constructor
  · rintro (_ | h | h | h)
    · exact Or.inl rfl
    · exact Or.inr (Or.inl ⟨rfl, h⟩)
    · exact Or.inr (Or.inr (Or.inl ⟨rfl, h⟩))
    · exact Or.inr (Or.inr (Or.inr ⟨rfl, h⟩))
  · rintro (rfl | ⟨rfl, h⟩ | ⟨rfl, h⟩ | ⟨rfl, h⟩)
    · exact .log
    · exact .one h
    · exact .two h
    · exact .all h

/-- All that is published to `Unfiltered` goes on to `Eventrouter`. -/
theorem unfiltered_sends (m : Message) (y : String) :
    rabbitmq1.Sends m unfiltered.name y ↔ y = eventrouter.name := by
  obtain ⟨hex, hbindings, halt⟩ := unfiltered_lookup
  rw [sends_iff hex halt, hbindings]
  constructor
  · rintro ⟨b, hb, -, hdest⟩
    rcases List.mem_pair.mp hb with rfl | rfl
    · exact (Destination.exchange.inj hdest).symm
    · cases hdest
  · rintro rfl
    exact ⟨unfilteredFilterBinding, List.mem_cons_self, Topic.topicMatch_hash m.key, rfl⟩

theorem unfiltered_drops (m : Message) (q : String) :
    rabbitmq1.Drops m unfiltered.name q ↔ q = unfilteredLog.name := by
  obtain ⟨hex, hbindings, halt⟩ := unfiltered_lookup
  rw [drops_iff hex halt, hbindings]
  constructor
  · rintro ⟨b, hb, -, hdest⟩
    rcases List.mem_pair.mp hb with rfl | rfl
    · cases hdest
    · exact bind_to.mp hdest
  · rintro rfl
    exact ⟨unfilteredLogBinding, List.mem_pair.mpr (Or.inr rfl), Topic.topicMatch_hash m.key, rfl⟩

/-- The bindings of `Eventrouter` lead to queues. -/
theorem eventrouter_sends (m : Message) (y : String) :
    ¬ rabbitmq1.Sends m eventrouter.name y := by
  obtain ⟨hex, hbindings, halt⟩ := eventrouter_lookup
  rw [sends_iff hex halt, hbindings]
  rintro ⟨b, hb, -, hdest⟩
  simp only [List.mem_cons, List.not_mem_nil, or_false] at hb
  rcases hb with rfl | rfl | rfl <;> cases hdest

/-- A filter asks for one of its headers. -/
theorem filtered_matches (m : Message) :
    (filtered1Binding.matches m eventrouter.type = true ↔
        Has m "country" "1" ∨ Has m "rid" "1") ∧
      (filtered2Binding.matches m eventrouter.type = true ↔
        Has m "country" "2" ∨ Has m "rid" "2") ∧
      (filteredAllBinding.matches m eventrouter.type = true ↔ Has m "root" "1") := by
  refine ⟨?_, ?_, ?_⟩
  · refine (Headers.headersMatch_any (by decide +kernel) m.headers).trans ?_
    simp [Has]
  · refine (Headers.headersMatch_any (by decide +kernel) m.headers).trans ?_
    simp [Has]
  · refine (Headers.headersMatch_any (by decide +kernel) m.headers).trans ?_
    simp [Has]

theorem eventrouter_drops (m : Message) (q : String) :
    rabbitmq1.Drops m eventrouter.name q ↔
      (q = filtered1.name ∧ (Has m "country" "1" ∨ Has m "rid" "1")) ∨
      (q = filtered2.name ∧ (Has m "country" "2" ∨ Has m "rid" "2")) ∨
      (q = filteredAll.name ∧ Has m "root" "1") := by
  have h1 : filtered1Binding.destination = .queue q ↔ q = filtered1.name := by
    simp [filtered1Binding, eq_comm]
  have h2 : filtered2Binding.destination = .queue q ↔ q = filtered2.name := by
    simp [filtered2Binding, eq_comm]
  have hall : filteredAllBinding.destination = .queue q ↔ q = filteredAll.name := by
    simp [filteredAllBinding, eq_comm]
  obtain ⟨hex, hbindings, halt⟩ := eventrouter_lookup
  rw [drops_iff hex halt, hbindings]
  obtain ⟨hmatches1, hmatches2, hmatchesAll⟩ := filtered_matches m
  simp only [List.mem_cons, List.not_mem_nil, or_false, exists_eq_or_imp, exists_eq_left,
    hmatches1, hmatches2, hmatchesAll, h1, h2, hall]
  exact or_congr and_comm (or_congr and_comm and_comm)

theorem unfiltered_route (m : Message) (q : String) :
    q ∈ rabbitmq1.route m unfiltered.name ↔ WantsFiltered m q := by
  have hnone : ∀ y, ¬ rabbitmq1.Sends m eventrouter.name y := eventrouter_sends m
  have hfilter : q ∈ rabbitmq1.route m eventrouter.name ↔ rabbitmq1.Drops m eventrouter.name q := by
    rw [mem_route_next (by decide) fun y hs => absurd hs (hnone y)]
    refine or_iff_left ?_
    rintro ⟨y, hs, -⟩
    exact hnone y hs
  rw [mem_route_next (by decide) fun y hs => by
    rw [(unfiltered_sends m y).mp hs]
    decide, unfiltered_drops]
  simp only [unfiltered_sends, exists_eq_left, hfilter, eventrouter_drops, wantsFiltered_iff]

/-- Nothing is published to `Eventrouter` or into a queue directly. -/
def FilterRun (_ : BrokerState) : BrokerAct → Prop
  | .publish x _ => x ≠ "" ∧ x ≠ eventrouter.name
  | .settle _ _ => True

instance (s : BrokerState) (a : BrokerAct) : Decidable (FilterRun s a) := by
  rcases a <;> (dsimp only [FilterRun]; infer_instance)

theorem filter_resting : Resting rabbitmq1 FilterRun unfiltered.name (· ∈ filterQueues)
    WantsFiltered where
  routes m q _ := unfiltered_route m q
  others s y m hc hy q hq hmem := by
    rcases filter_gate.route hc.1 hq hmem with heq | heq
    · exact hy heq
    · exact hc.2 heq
  deaths p y hp m q hq hmem := by
    have hother : y ≠ "" ∧ y ≠ unfiltered.name ∧ y ≠ eventrouter.name :=
      deadLetterExchange_named
        (P := fun y => y ≠ "" ∧ y ≠ unfiltered.name ∧ y ≠ eventrouter.name)
        (by decide +kernel) (by decide +kernel) hp
    exact (filter_gate.route hother.1 hq hmem).elim hother.2.1 hother.2.2
  last q hq := by
    revert q
    decide +kernel

/-- CORRECT: whatever else goes on at rabbitmq1, each queue of the filter holds only messages that
    it asks for, each once, and keeps every one of them that was published to `Unfiltered`. -/
theorem filter_held {standard : Option ℤ} :
    (∀ s, (broker rabbitmq1 standard).Reach FilterRun s →
      Rested (· ∈ filterQueues) WantsFiltered s) ∧
    ∀ m q s t, (broker rabbitmq1 standard).Reach FilterRun s →
      enabled rabbitmq1 s (.publish unfiltered.name m) = true →
      (broker rabbitmq1 standard).Steps
        (fun u a => FilterRun u a ∧ Spares rabbitmq1 standard m.id q u a)
        (next rabbitmq1 standard s (.publish unfiltered.name m)) t →
      q ∈ filterQueues → WantsFiltered m q → copiesIn t m.id q = 1 := by
  constructor
  · intro s hs
    exact rested filter_resting s hs
  · intro m q s t hs he hst
    exact kept filter_resting hs he hst

def fromCountry1 : Message := { id := 1, key := "", headers := [("country", .str "1")] }

/-- Both copies are handed out, and the one in the log is acked. -/
def logAcked : List BrokerAct :=
  [.settle .deliver { msg := fromCountry1, queue := unfilteredLog.name },
    .settle .deliver { msg := fromCountry1, queue := filtered1.name },
    .settle .ack { msg := fromCountry1, queue := unfilteredLog.name, held := true }]

theorem filter_held_acked : ∃ t, t.acked = [fromCountry1.id] ∧
    copiesIn t fromCountry1.id filtered1.name = 1 := by
  obtain ⟨t, ht, hmeets, hacked⟩ : ∃ t ∈ (broker rabbitmq1 none).run
      (next rabbitmq1 none (broker rabbitmq1 none).init (.publish unfiltered.name fromCountry1))
      logAcked, (broker rabbitmq1 none).Meets
        (fun u a => FilterRun u a ∧ Spares rabbitmq1 none fromCountry1.id filtered1.name u a)
        (next rabbitmq1 none (broker rabbitmq1 none).init (.publish unfiltered.name fromCountry1))
        logAcked ∧ t.acked = [fromCountry1.id] := by
    decide +kernel
  have hwants : WantsFiltered fromCountry1 filtered1.name :=
    .one (Or.inl rfl)
  exact ⟨t, hacked, filter_held.2 fromCountry1 filtered1.name _ t (Machine.Steps.refl _ _)
    (by decide) (Machine.steps_of_run ht hmeets) (by decide) hwants⟩

end RabbitmqCluster.Terraform
