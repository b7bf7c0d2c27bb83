import RabbitmqCluster.Clients.ConsumerAcks
import RabbitmqCluster.Clients.Publisher
import RabbitmqCluster.Clients.SetupRoutes
import RabbitmqCluster.Schemes.Delivery

/-! @src clients setup.sh go/publisher.go go/consumer.go | scheme:delivery | family:at-least-once

    The clients and the broker between them as one machine: the publisher program, the queue to
    which `my.exchange` routes, and consumer programs that are started one after another and may be
    killed at any moment. The broker acks a published message after it has taken it into the queue,
    pushes it under a delivery tag, drops it when it has processed the ack of that tag, and takes
    back what is left when the channel is gone. No message that the broker acked is lost
    (`confirmed_kept`), at a broker without policies: a time to live or a length limit set by one
    would take messages away.

        publisher ─ route ─▶ my.queue ── push ──▶ consumer ─ handle ─▶ ack
                                ▲─── requeue ───┘    └── commit ─▶ done -/

namespace RabbitmqCluster.Pipeline

open RabbitmqCluster.Schemes RabbitmqCluster.Clients

/-- `queue` has the messages by the publisher's tags; `tagged` is what was pushed to the running
    consumer under which delivery tag, and `earlier` what the consumers before it had handled. -/
structure State where
  publisher : Publisher.State
  consumer : Consumer.State
  queue : Delivery ℕ
  tagged : List (ℕ × ℕ)
  earlier : List ℕ

inductive Act where
  | publisher (a : Publisher.Act)
  | route (t : ℕ)
  | push (d t : ℕ)
  | consumer (a : Consumer.Act)
  | commit (d t : ℕ)
  | requeue
  | kill
  | restart
  deriving DecidableEq

/-- The messages that `handle` has counted, in all consumers so far. -/
def State.handled (s : State) : List ℕ :=
  s.earlier ++ (s.tagged.filter (·.1 ∈ s.consumer.counted)).map Prod.snd

/-- What the publisher publishes, with its default key. -/
def message (t : ℕ) : Message := { id := t, key := "my.key" }

def isPush : Consumer.Act → Bool
  | .push _ => true
  | _ => false

section Machine

variable (top : Topology) (lifetime : ℤ) (autoAck continuous : Bool)

/-- The broker routes the message to the queue of the consumer. -/
def Routed (t : ℕ) : Prop := myQueue.name ∈ top.route (message t) myExchange.name

instance (t : ℕ) : Decidable (Routed top t) :=
  inferInstanceAs (Decidable (_ ∈ top.route (message t) _))

/-- The broker acks a message only when it is where it is routed to. -/
def mayAck (s : State) : Publisher.Act → Bool
  | .ack t => Routed top t → t ∈ s.queue.accepted
  | _ => true

def enabled (s : State) : Act → Bool
  | .publisher a => Publisher.enabled s.publisher a && mayAck top s a
  | .route t => t ∈ s.publisher.published && Routed top t && t ∉ s.queue.accepted
  | .push d t => Consumer.enabled s.consumer (.push d) && s.queue.ready.head? = some t
  | .consumer a => !isPush a && Consumer.enabled s.consumer a
  -- without acks of the consumer the broker takes what it has sent for acked
  | .commit d t => (d, t) ∈ s.queue.out && (autoAck || d ∈ s.consumer.acked)
  | .requeue => !autoAck && (!s.consumer.channelOpen || s.consumer.process ≠ .running)
  | .kill => s.consumer.process = .running
  | .restart => s.consumer.process ≠ .running && s.queue.out = []

def next (s : State) : Act → State
  | .publisher a => { s with publisher := Publisher.next continuous s.publisher a }
  | .route t => { s with queue := Delivery.next s.queue (.accept t) }
  | .push d t =>
    { s with
      consumer := Consumer.next autoAck s.consumer (.push d)
      queue := Delivery.next s.queue (.hand d t)
      tagged := s.tagged ++ [(d, t)] }
  | .consumer a => { s with consumer := Consumer.next autoAck s.consumer a }
  | .commit d t => { s with queue := Delivery.next s.queue (.settle d t) }
  | .requeue => { s with queue := Delivery.next s.queue .giveBack }
  | .kill => { s with consumer := { s.consumer with process := .exited 137 } }
  | .restart =>
    { s with consumer := Consumer.init lifetime, tagged := [], earlier := s.handled }

/-- The clients at a broker with this topology. -/
def pipeline : Machine State Act where
  init := ⟨Publisher.init, Consumer.init lifetime, Delivery.empty, [], []⟩
  enabled := enabled top autoAck
  next := next lifetime autoAck continuous

end Machine

variable {top : Topology} {lifetime : ℤ} {autoAck continuous : Bool} {C : State → Act → Prop}
  {s : State}

/-! ### The queue -/

variable (lifetime continuous) in
/-- What a step does to the queue is a step of the queue, or nothing. -/
theorem queue_step (a : Act) (he : enabled top autoAck s a = true) :
    (next lifetime autoAck continuous s a).queue = s.queue ∨
      ∃ b, Delivery.enabled s.queue b = true ∧
        (next lifetime autoAck continuous s a).queue = Delivery.next s.queue b := by
  cases a with
  | route t =>
    simp only [enabled, Bool.and_eq_true] at he
    exact Or.inr ⟨.accept t, he.2, rfl⟩
  | push d t =>
    simp only [enabled, Bool.and_eq_true] at he
    exact Or.inr ⟨.hand d t, he.2, rfl⟩
  | commit d t =>
    simp only [enabled, Bool.and_eq_true] at he
    exact Or.inr ⟨.settle d t, he.1, rfl⟩
  | requeue => exact Or.inr ⟨.giveBack, rfl, rfl⟩
  | publisher | consumer | kill | restart => exact Or.inl rfl

theorem queue_simulates : Machine.Simulation (pipeline top lifetime autoAck continuous)
    (Delivery.machine ℕ) (fun _ => True) State.queue where
  init := rfl
  step s a _ he := by
    rcases queue_step lifetime continuous a he with hsame | ⟨b, hb, hnext⟩
    · rw [show ((pipeline top lifetime autoAck continuous).next s a).queue = s.queue from hsame]
      exact Machine.Steps.refl _ _
    · rw [show ((pipeline top lifetime autoAck continuous).next s a).queue =
        Delivery.next s.queue b from hnext]
      exact Machine.Steps.one b hb trivial

theorem queue_conserved (h : (pipeline top lifetime autoAck continuous).Reach C s) :
    s.queue.Conserved :=
  Delivery.conserved _ (queue_simulates.reach (fun _ _ => trivial) s h.any)

/-! ### The consumer -/

/-- What every run of a consumer keeps: it counts and acks only what was pushed, each once. -/
structure Fed (c : Consumer.State) : Prop where
  fresh : c.pushed.Nodup
  sub : (c.counted ++ c.buffered).Sublist c.pushed
  acked : ∀ d ∈ c.acked, d ∈ c.counted
  body : ∀ d ∈ c.handle.inBody, d ∈ c.counted

theorem fed_init : Fed (Consumer.init lifetime) :=
  ⟨List.nodup_nil, List.Sublist.refl _, List.forall_mem_nil _, List.forall_mem_nil _⟩

variable (autoAck) in
theorem fed_step {c : Consumer.State} (a : Consumer.Act) (h : Fed c)
    (he : Consumer.enabled c a = true) : Fed (Consumer.next autoAck c a) := by
  obtain ⟨-, hg⟩ := Consumer.enabled_iff.mp he
  cases a with
  | push d =>
    simp only [Consumer.guard, Bool.and_eq_true, List.all_eq_true, decide_eq_true_eq] at hg
    refine ⟨?_, ?_, h.acked, h.body⟩
    · refine List.nodup_append.mpr ⟨h.fresh, List.nodup_singleton d, fun u hu v hv => ?_⟩
      rw [List.mem_singleton.mp hv]
      exact (hg.2 u hu).ne
    · show (c.counted ++ (c.buffered ++ [d])).Sublist (c.pushed ++ [d])
      rw [← List.append_assoc]
      exact h.sub.append (List.Sublist.refl [d])
  | drop =>
    refine ⟨h.fresh, ?_, h.acked, h.body⟩
    exact (List.append_nil c.counted).symm ▸ (List.sublist_append_left ..).trans h.sub
  | take d =>
    simp only [Consumer.guard, Bool.and_eq_true, decide_eq_true_eq] at hg
    obtain ⟨rest, hbuf⟩ := List.head?_eq_some_iff.mp hg.2
    refine ⟨h.fresh, ?_, fun e he => List.mem_append_left _ (h.acked e he), fun e he => ?_⟩
    · have hsub := h.sub
      show (c.counted ++ [d] ++ c.buffered.tail).Sublist c.pushed
      rw [hbuf] at hsub ⊢
      simpa using hsub
    · exact List.mem_append_right _ he
  | bodyEnd d =>
    have hhandle : c.handle = .body d := of_decide_eq_true hg
    have hbody : d ∈ c.counted := h.body d (by rw [hhandle]; exact List.mem_singleton_self d)
    have hack : ∀ e ∈ c.acked ++ [d], e ∈ c.counted := by
      intro e he
      rcases List.mem_append.mp he with he | he
      · exact h.acked e he
      · rw [List.mem_singleton.mp he]
        exact hbody
    simp only [Consumer.next, Consumer.State.ackCall]
    split
    · exact ⟨h.fresh, h.sub, h.acked, List.forall_mem_nil _⟩
    · split
      · exact ⟨h.fresh, h.sub, hack, List.forall_mem_nil _⟩
      · exact ⟨h.fresh, h.sub, h.acked, List.forall_mem_nil _⟩
  | rangeEnd => exact ⟨h.fresh, h.sub, h.acked, List.forall_mem_nil _⟩
  | recv p => exact ⟨h.fresh, h.sub, h.acked, List.forall_mem_nil _⟩
  | cancel p =>
    simp only [Consumer.next, Consumer.State.cancelCall]
    split
    · exact ⟨h.fresh, h.sub, h.acked, h.body⟩
    · exact ⟨h.fresh, h.sub, h.acked, h.body⟩
  | close p =>
    simp only [Consumer.next, Consumer.State.closeCall]
    split
    · exact ⟨h.fresh, h.sub, h.acked, h.body⟩
    · exact ⟨h.fresh, h.sub, h.acked, h.body⟩
  | _ => exact ⟨h.fresh, h.sub, h.acked, h.body⟩

/-- Only a push adds to what was pushed. -/
theorem pushed_next {c : Consumer.State} {a : Consumer.Act} (hp : isPush a = false) :
    (Consumer.next autoAck c a).pushed = c.pushed := by
  cases a with
  | push d => cases hp
  | bodyEnd d =>
    simp only [Consumer.next, Consumer.State.ackCall]
    split
    · rfl
    · split <;> rfl
  | cancel p =>
    simp only [Consumer.next, Consumer.State.cancelCall]
    split <;> rfl
  | close p =>
    simp only [Consumer.next, Consumer.State.closeCall]
    split <;> rfl
  | _ => rfl

/-- What is counted stays counted. -/
theorem counted_next {c : Consumer.State} (a : Consumer.Act) :
    ∀ d ∈ c.counted, d ∈ (Consumer.next autoAck c a).counted := by
  intro d hd
  cases a with
  | take e => exact List.mem_append_left _ hd
  | bodyEnd e =>
    simp only [Consumer.next, Consumer.State.ackCall]
    split
    · exact hd
    · split <;> exact hd
  | cancel p =>
    simp only [Consumer.next, Consumer.State.cancelCall]
    split <;> exact hd
  | close p =>
    simp only [Consumer.next, Consumer.State.closeCall]
    split <;> exact hd
  | _ => exact hd

/-- Only the broker's ack settles a tag as acked. -/
theorem acked_next {p : Publisher.State} (a : Publisher.Act) {t : ℕ}
    (h : (Publisher.next continuous p a).broker t = .acked) : p.broker t = .acked ∨ a = .ack t := by
  cases a with
  | ack u =>
    by_cases ht : t = u
    · exact Or.inr (ht ▸ rfl)
    · refine Or.inl ?_
      simp only [Publisher.next] at h
      rwa [Function.update_of_ne ht] at h
  | nack u =>
    by_cases ht : t = u
    · simp only [Publisher.next] at h
      rw [ht, Function.update_self] at h
      cases h
    · refine Or.inl ?_
      simp only [Publisher.next] at h
      rwa [Function.update_of_ne ht] at h
  | connLoss =>
    simp only [Publisher.next] at h
    split at h
    · cases h
    · exact Or.inl h
  | checkTag c todo k =>
    simp only [Publisher.next] at h
    split at h
    · exact Or.inl h
    · exact Or.inl h
  | checked c =>
    cases c with
    | loop => exact Or.inl h
    | exit => exact Or.inl h
  | _ => exact Or.inl h

/-! ### Nothing is lost -/

/-- What every run keeps of the parties together. -/
structure Linked (top : Topology) (s : State) : Prop where
  accepted : ∀ t, Routed top t → s.publisher.broker t = .acked → t ∈ s.queue.accepted
  pushed : s.tagged.map Prod.fst = s.consumer.pushed
  fed : Fed s.consumer
  out : ∀ e ∈ s.queue.out, e ∈ s.tagged
  handed : ∃ before, s.queue.handed = before ++ s.tagged.map Prod.snd ∧ s.earlier.Sublist before

theorem linked_init : Linked top (pipeline top lifetime autoAck continuous).init :=
  ⟨by rintro _ _ ⟨⟩, rfl, fed_init, List.forall_mem_nil _, [], rfl, List.Sublist.refl _⟩

/-- A step of the consumer alone. -/
theorem Linked.consumer {a : Consumer.Act} (h : Linked top s) (hp : isPush a = false)
    (he : Consumer.enabled s.consumer a = true) :
    Linked top { s with consumer := Consumer.next autoAck s.consumer a } where
  accepted := h.accepted
  pushed := h.pushed.trans (pushed_next hp).symm
  fed := fed_step autoAck a h.fed he
  out := h.out
  handed := h.handed

theorem linked_step (a : Act) (h : Linked top s) (he : enabled top autoAck s a = true) :
    Linked top (next lifetime autoAck continuous s a) := by
  cases a with
  | publisher a =>
    simp only [enabled, Bool.and_eq_true] at he
    refine ⟨fun t hr ht => ?_, h.pushed, h.fed, h.out, h.handed⟩
    rcases acked_next a ht with hold | rfl
    · exact h.accepted t hr hold
    · have hmay := he.2
      simp only [mayAck, decide_eq_true_eq] at hmay
      exact hmay hr
  | route t =>
    refine ⟨fun u hr hu => List.mem_append_left _ (h.accepted u hr hu), h.pushed, h.fed, h.out,
      h.handed⟩
  | push d t =>
    simp only [enabled, Bool.and_eq_true] at he
    obtain ⟨before, hhanded, hsub⟩ := h.handed
    refine ⟨h.accepted, ?_, fed_step autoAck _ h.fed he.1, ?_, before, ?_, hsub⟩
    · show (s.tagged ++ [(d, t)]).map Prod.fst = s.consumer.pushed ++ [d]
      rw [List.map_append, h.pushed]
      rfl
    · intro e he
      rcases List.mem_append.mp he with he | he
      · exact List.mem_append_left _ (h.out e he)
      · exact List.mem_append_right _ he
    · show s.queue.handed ++ [t] = before ++ (s.tagged ++ [(d, t)]).map Prod.snd
      rw [hhanded, List.map_append, List.append_assoc]
      rfl
  | consumer a =>
    simp only [enabled, Bool.and_eq_true, Bool.not_eq_true'] at he
    exact h.consumer he.1 he.2
  | commit d t =>
    exact ⟨h.accepted, h.pushed, h.fed, fun e he => h.out e (List.mem_of_mem_erase he), h.handed⟩
  | requeue => exact ⟨h.accepted, h.pushed, h.fed, List.forall_mem_nil _, h.handed⟩
  | kill => exact ⟨h.accepted, h.pushed, ⟨h.fed.fresh, h.fed.sub, h.fed.acked, h.fed.body⟩, h.out,
      h.handed⟩
  | restart =>
    simp only [enabled, Bool.and_eq_true, decide_eq_true_eq] at he
    obtain ⟨before, hhanded, hsub⟩ := h.handed
    refine ⟨h.accepted, rfl, fed_init, ?_, s.queue.handed, (List.append_nil _).symm, ?_⟩
    · rw [show (next lifetime autoAck continuous s .restart).queue = s.queue from rfl, he.2]
      exact List.forall_mem_nil _
    · rw [hhanded]
      exact hsub.append (List.filter_sublist.map Prod.snd)

theorem linked : ∀ s, (pipeline top lifetime autoAck continuous).Reach C s → Linked top s :=
  Machine.inv linked_init fun _ a h he _ => linked_step a h he

/-- A delivery that was pushed and counted is handled. -/
theorem mem_handled {d t : ℕ} (he : (d, t) ∈ s.tagged) (hd : d ∈ s.consumer.counted) :
    t ∈ s.handled :=
  List.mem_append_right _ (List.mem_map.mpr ⟨(d, t), List.mem_filter.mpr ⟨he, by simpa⟩, rfl⟩)

theorem handled_consumer (a : Consumer.Act) {t : ℕ} (ht : t ∈ s.handled) :
    t ∈ State.handled { s with consumer := Consumer.next autoAck s.consumer a } := by
  rcases List.mem_append.mp ht with ht | ht
  · exact List.mem_append_left _ ht
  · obtain ⟨e, he, rfl⟩ := List.mem_map.mp ht
    obtain ⟨he, hd⟩ := List.mem_filter.mp he
    exact mem_handled he (counted_next a e.1 (of_decide_eq_true hd))

/-- What the broker has dropped was handled, if the consumer acks. -/
def DoneHandled (s : State) : Prop := ∀ t ∈ s.queue.done, t ∈ s.handled

theorem doneHandled_step (a : Act) (hl : Linked top s) (h : DoneHandled s)
    (he : enabled top false s a = true) : DoneHandled (next lifetime false continuous s a) := by
  cases a with
  | push d t =>
    intro u hu
    rcases List.mem_append.mp (h u hu) with ht | ht
    · exact List.mem_append_left _ ht
    · obtain ⟨e, hmem, rfl⟩ := List.mem_map.mp ht
      obtain ⟨hmem, hd⟩ := List.mem_filter.mp hmem
      exact mem_handled (List.mem_append_left _ hmem) (of_decide_eq_true hd)
  | consumer a => exact fun t ht => handled_consumer a (h t ht)
  | commit d t =>
    simp only [enabled, Bool.and_eq_true, Bool.false_or, decide_eq_true_eq] at he
    intro u hu
    rcases List.mem_append.mp hu with hu | hu
    · exact h u hu
    · rw [List.mem_singleton.mp hu]
      exact mem_handled (hl.out _ he.1) (hl.fed.acked d he.2)
  | restart => exact fun t ht => List.mem_append_left _ (h t ht)
  | publisher | route | requeue | kill => exact h

theorem doneHandled : ∀ s, (pipeline top lifetime false continuous).Reach C s → DoneHandled s :=
  Machine.inv_under linked (List.forall_mem_nil _) fun _ a hl h he _ => doneHandled_step a hl h he

/-- A message that the broker acked waits in the queue, is with the consumer, or was handled. -/
def Kept (s : State) : Prop :=
  ∀ t, s.publisher.broker t = .acked →
    t ∈ s.queue.ready ∨ (∃ d, (d, t) ∈ s.queue.out) ∨ t ∈ s.handled

/-- CORRECT: at a broker set up by `setup.sh`, without policies, and with a consumer that acks, no
    message that the broker acked is ever lost, however often the consumer is stopped, loses its
    channel or connection or is killed. -/
theorem confirmed_kept {d : Definitions} (hf : Fresh d) (hv : .vhost vhost ∈ d.keys) (lifetime : ℤ)
    (continuous : Bool) (s : State) (h : (pipeline (topologyOf (afterSetup unbroken d) vhost [])
      lifetime false continuous).Reach Machine.Any s) : Kept s := by
  intro t ht
  have hrouted : Routed (topologyOf (afterSetup unbroken d) vhost []) t := by
    rw [Routed, setup_routes hf hv]
    exact List.mem_cons_self
  have haccepted := (linked s h).accepted t hrouted ht
  rcases ((queue_conserved h).mem_accepted t).mp haccepted with hready | hout | hdone
  · exact Or.inl hready
  · exact Or.inr (Or.inl hout)
  · exact Or.inr (Or.inr (doneHandled s h t hdone))

/-- The broker of the clients, freshly set up. -/
def clientsTopology : Topology := topologyOf (afterSetup unbroken teamBroker) vhost []

/-- The broker acks the message after it has put it into the queue; the consumer that gets it is
    killed before its ack, and a second one handles it. -/
def killedInBody : List Act :=
  [.publisher .connect, .publisher .pass, .publisher .sendOk, .publisher .gotOk,
    .publisher (.publishMsg 1), .route 1, .publisher (.ack 1), .push 1 1, .consumer (.take 1),
    .kill, .requeue, .restart, .push 1 1, .consumer (.take 1), .consumer (.bodyEnd 1),
    .commit 1 1]

theorem confirmed_kept_killed : ∃ s, s.publisher.broker 1 = .acked ∧ s.handled = [1, 1] ∧
    Kept s := by
  obtain ⟨s, hs, hacked, hhandled⟩ := Machine.reach_any_of_run
    (m := pipeline clientsTopology 0 false true)
    (P := fun s => s.publisher.broker 1 = .acked ∧ s.handled = [1, 1]) killedInBody
    (by decide +kernel)
  exact ⟨s, hacked, hhandled, confirmed_kept (by decide) (by decide) 0 true s hs⟩

/-- RULE (redelivery): a message is handled at most once more than it was put back into the
    queue. -/
theorem handled_count (h : (pipeline top lifetime autoAck continuous).Reach C s) (t : ℕ) :
    s.handled.count t ≤ 1 + s.queue.returned.count t := by
  obtain ⟨before, hhanded, hsub⟩ := (linked s h).handed
  have hhandled : s.handled.Sublist s.queue.handed := by
    rw [hhanded]
    exact hsub.append (List.filter_sublist.map Prod.snd)
  exact (hhandled.count_le t).trans ((queue_conserved h).handed_count t)

theorem handled_count_killed : ∃ s : State, s.handled.count 1 = 2 ∧ s.queue.returned = [1] ∧
    s.handled.count 1 ≤ 1 + s.queue.returned.count 1 := by
  obtain ⟨s, hs, hcount, hreturned⟩ := Machine.reach_any_of_run
    (m := pipeline clientsTopology 0 false true)
    (P := fun s => s.handled.count 1 = 2 ∧ s.queue.returned = [1]) killedInBody
    (by decide +kernel)
  exact ⟨s, hcount, hreturned, handled_count hs 1⟩

end RabbitmqCluster.Pipeline
