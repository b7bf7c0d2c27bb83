import RabbitmqCluster.Schemes.Copies
import RabbitmqCluster.Terraform.Shared

/-! @src var/terraform/src/request-retry.tf | scheme:copies | family:retry

    Is a request lost on its way through the retry topology? A request that dies in
    `requests.current` always arrives in `requests.delayed` or `requests.error`, whatever its
    headers: what no binding of `retry.requests` takes goes to its alternate exchange. But
    `requests.delayed` has no dead-letter exchange, so a request that is rejected there or requeued
    once too often is dropped (`request_lost`). All requests are kept exactly in the runs in which
    whatever dies there has a copy in `requests.error` as well or was acked (`retained_iff`). -/

namespace RabbitmqCluster.Terraform

open RabbitmqCluster.Schemes Broker

variable {standard : Option ℤ} {s : BrokerState} {c : Copy} {k : Settle}

/-- Requests are published to `requests` and settled in its queues; `requests.error` is terminal. A
    client's own death history counts only with brokers that have no delivery limit as standard. -/
def RequestRun (standard : Option ℤ) (_ : BrokerState) : BrokerAct → Prop
  | .publish x m => x = requests.name ∧ (standard = none ∨ m.deaths = [])
  | .settle k c =>
    k ≠ .expire ∧ (c.queue = errorRequestsQueue.name → k = .deliver ∨ k = .ack)

instance (s : BrokerState) (a : BrokerAct) : Decidable (RequestRun standard s a) := by
  rcases a <;> (dsimp only [RequestRun]; infer_instance)

def requestQueues : List String :=
  [currentRequestsQueue.name, delayedRequestsQueue.name, errorRequestsQueue.name]

/-- Every request that nobody acked is in one of the three queues, and one that died in
    `requests.delayed` is in `requests.error`. -/
structure Retained (s : BrokerState) : Prop where
  somewhere : ∀ m ∈ s.published, m.id ∈ s.acked ∨
    ∃ c ∈ s.copies, c.msg.id = m.id ∧ c.queue ∈ requestQueues
  failed : ∀ id, (id, delayedRequestsQueue.name) ∈ s.died → id ∈ s.acked ∨
    ∃ c ∈ s.copies, c.msg.id = id ∧ c.queue = errorRequestsQueue.name

def request : Message := { id := 1, key := "order.create" }

def inCurrent : Copy := { msg := request, queue := currentRequestsQueue.name }

/-- The request after a rejection in `requests.current`. -/
def inDelayed : Copy :=
  { msg := request.die .rejected currentRequestsQueue.name 0, queue := delayedRequestsQueue.name }

/-- The request is rejected in `requests.current` and again in `requests.delayed`. -/
def rejectedTwice : List BrokerAct :=
  [.publish requests.name request, .settle .deliver inCurrent,
    .settle .reject { inCurrent with held := true }, .settle .deliver inDelayed,
    .settle .reject { inDelayed with held := true }]

theorem request_lost :
    ¬ ∀ standard s, (broker shared standard).Reach (RequestRun standard) s → Retained s := by
  intro hall
  obtain ⟨s, hs, hpub, hack, hnone⟩ := Machine.reach_of_run (m := broker shared none)
    (C := RequestRun none)
    (P := fun s => s.published = [request] ∧ s.acked = [] ∧ s.copies = []) rejectedTwice
    (by decide +kernel)
  rcases (hall none s hs).somewhere request (by rw [hpub]; exact List.mem_singleton_self _) with
    hacked | ⟨c, hc, -⟩
  · rw [hack] at hacked; exact absurd hacked List.not_mem_nil
  · rw [hnone] at hc; exact absurd hc List.not_mem_nil

/-! ### The topology -/

/-- What the queues that a request can die in are declared with. -/
theorem request_arguments :
    shared.deadLetterExchange currentRequestsQueue.name = some retryRequests.name ∧
      shared.deadLetterExchange delayedRequestsQueue.name = none ∧
      shared.isQuorum currentRequestsQueue.name = true ∧
      shared.isQuorum delayedRequestsQueue.name = true ∧
      shared.limit currentRequestsQueue.name "x-delivery-limit" "delivery-limit" = none ∧
      shared.limit delayedRequestsQueue.name "x-delivery-limit" "delivery-limit" = some 3 := by
  decide +kernel

/-- What leads on from the exchanges of the requests. -/
theorem request_bindings :
    shared.bindingsFrom requests.name = [currentRequestsBinding] ∧
      shared.bindingsFrom errorRequests.name = [delayedRequestsBinding] ∧
      shared.bindingsFrom retryRequests.name = [retryRequestsBinding, errorRequestsBinding] ∧
      shared.alternateExchange retryRequests = some errorRequests.name := by
  decide +kernel

theorem current_deadLetterExchange :
    shared.deadLetterExchange currentRequestsQueue.name = some retryRequests.name :=
  request_arguments.1

theorem delayed_deadLetterExchange :
    shared.deadLetterExchange delayedRequestsQueue.name = none :=
  request_arguments.2.1

theorem delayed_deliveryLimit :
    shared.deliveryLimit standard delayedRequestsQueue.name = some 3 := by
  obtain ⟨-, -, -, hq, -, hl⟩ := request_arguments
  rw [Topology.deliveryLimit, if_pos hq, hl]; rfl

theorem current_deliveryLimit :
    shared.deliveryLimit standard currentRequestsQueue.name = standard := by
  obtain ⟨-, -, hq, -, hl, -⟩ := request_arguments
  rw [Topology.deliveryLimit, if_pos hq, hl]; rfl

theorem requests_targets (m : Message) :
    shared.targets requests m = [.queue currentRequestsQueue.name] :=
  targets_single request_bindings.1 (Topic.topicMatch_hash m.key)

theorem errorRequests_targets (m : Message) :
    shared.targets errorRequests m = [.queue errorRequestsQueue.name] :=
  targets_single request_bindings.2.1 (Topic.topicMatch_hash m.key)

theorem retryRequests_targets (m : Message) : shared.targets retryRequests m =
    match retryRequestsBinding.matches m .headers, errorRequestsBinding.matches m .headers with
    | true, true => [.queue delayedRequestsQueue.name, .queue errorRequestsQueue.name]
    | true, false => [.queue delayedRequestsQueue.name]
    | false, true => [.queue errorRequestsQueue.name]
    | false, false => [.exchange errorRequests.name] := by
  obtain ⟨-, -, hb, ha⟩ := request_bindings
  have hd : retryRequestsBinding.destination = .queue delayedRequestsQueue.name := rfl
  have he : errorRequestsBinding.destination = .queue errorRequestsQueue.name := rfl
  have ht : retryRequests.type = .headers := rfl
  cases h₁ : retryRequestsBinding.matches m .headers <;>
    cases h₂ : errorRequestsBinding.matches m .headers <;>
    simp [Topology.targets, hb, ha, hd, he, ht, h₁, h₂]

theorem requests_route (m : Message) :
    shared.route m requests.name = [currentRequestsQueue.name] :=
  route_queues (Q := [currentRequestsQueue.name]) (by decide) (by decide +kernel)
    (requests_targets m)

/-- The queues that `retry.requests` sends a request to, through its alternate exchange where no
    binding takes it. -/
theorem retryRequests_queues (m : Message) : shared.route m retryRequests.name =
    match retryRequestsBinding.matches m .headers, errorRequestsBinding.matches m .headers with
    | true, true => [delayedRequestsQueue.name, errorRequestsQueue.name]
    | true, false => [delayedRequestsQueue.name]
    | false, _ => [errorRequestsQueue.name] := by
  have hx : shared.exchange retryRequests.name = some retryRequests := by decide +kernel
  have hy : shared.exchange errorRequests.name = some errorRequests := by decide +kernel
  have hn : retryRequests.name ≠ "" := by decide
  have ht := retryRequests_targets m
  split at ht
  · next hr he =>
    rw [hr, he, route_queues (Q := [delayedRequestsQueue.name, errorRequestsQueue.name]) hn hx ht]
    decide
  · next hr he =>
    rw [hr, he, route_queues (Q := [delayedRequestsQueue.name]) hn hx ht]
    decide
  · next hr he =>
    rw [hr, he, route_queues (Q := [errorRequestsQueue.name]) hn hx ht]
    decide
  · next hr he =>
    have hl : shared.exchanges.length = 2 + 1 + 1 := rfl
    rw [hr, he, Topology.route, if_neg hn, hl, Topology.hops, hx]
    simp only [ht, List.flatMap_singleton, Topology.hops, hy, errorRequests_targets]
    decide

/-- The sets of queues to which `retry.requests` can send a request. -/
def retryRoutes : List (List String) :=
  [[delayedRequestsQueue.name], [errorRequestsQueue.name],
    [delayedRequestsQueue.name, errorRequestsQueue.name]]

theorem retryRoutes_mem : ∀ l ∈ retryRoutes, ∀ q ∈ l,
    q = delayedRequestsQueue.name ∨ q = errorRequestsQueue.name := by
  decide

theorem retryRequests_route (m : Message) : shared.route m retryRequests.name ∈ retryRoutes := by
  rw [retryRequests_queues]
  split <;> decide

/-! ### What a death leaves -/

theorem delayed_dies {reason : Reason} (hq : c.queue = delayedRequestsQueue.name) :
    shared.deadLetter reason c = [] := by
  rw [Topology.deadLetter, hq, delayed_deadLetterExchange]

/-- A request that dies in `requests.current` is not held up by its history: it was rejected, or it
    has none before this death. -/
theorem current_dies {reason : Reason} (hq : c.queue = currentRequestsQueue.name)
    (hhist : reason = .rejected ∨ c.msg.deaths = []) :
    (shared.deadLetter reason c).map (·.queue) ∈ retryRoutes := by
  have hd : currentRequestsQueue.name ≠ delayedRequestsQueue.name := by decide
  have he : currentRequestsQueue.name ≠ errorRequestsQueue.name := by decide
  have hroute := retryRequests_route (c.msg.die reason c.queue c.returns)
  have hkeep : ∀ q, q = delayedRequestsQueue.name ∨ q = errorRequestsQueue.name →
      (reason = .rejected || !automaticCycle q (c.msg.die reason c.queue c.returns).deaths) =
        true := by
    intro q hmem
    rcases hhist with hrej | hnone
    · simp [hrej]
    · have hne : currentRequestsQueue.name ≠ q := by
        rcases hmem with rfl | rfl
        · exact hd
        · exact he
      simp [Message.die, hnone, hq, automaticCycle, hne]
  have hqueues : (shared.deadLetter reason c).map (·.queue) =
      shared.route (c.msg.die reason c.queue c.returns) retryRequests.name := by
    rw [Topology.deadLetter, hq, current_deadLetterExchange, ← hq]
    simp only [List.map_map, Function.comp_def, List.map_id']
    exact List.filter_eq_self.mpr fun q hmem => hkeep q (retryRoutes_mem _ hroute q hmem)
  rw [hqueues]
  exact hroute

/-- What is known of a copy in the request queues: one in `requests.current` has no history that
    could hold it up. -/
structure InPlace (standard : Option ℤ) (c : Copy) : Prop where
  queue : c.queue ∈ requestQueues
  history : c.queue = currentRequestsQueue.name → standard = none ∨ c.msg.deaths = []

/-- The copy is outside the terminal queue. -/
def Pending (c : Copy) : Bool := c.queue ≠ errorRequestsQueue.name

theorem death_history {reason : Reason} (hk : k ≠ .expire) (hc : InPlace standard c)
    (hq : c.queue = currentRequestsQueue.name) (hd : death shared standard c k = some reason) :
    reason = .rejected ∨ c.msg.deaths = [] := by
  cases k with
  | reject => exact Or.inl (Option.some.inj hd).symm
  | requeue =>
    right
    rcases hc.history hq with hnone | hdeaths
    · simp [death, overLimit, hq, current_deliveryLimit, hnone] at hd
    · exact hdeaths
  | expire => exact absurd rfl hk
  | deliver => exact absurd hd nofun
  | ack => exact absurd hd nofun

/-- What a step of a run leaves of a copy: copies in place, at most one of them pending, and none
    only for a copy that was acked or died in `requests.delayed`. -/
structure Leaves (standard : Option ℤ) (c : Copy) (k : Settle) (l : List Copy) : Prop where
  place : ∀ d ∈ l, InPlace standard d
  pending : l.countP Pending ≤ if Pending c then 1 else 0
  none_left : l = [] → k = .ack ∨
    c.queue = delayedRequestsQueue.name ∧ (death shared standard c k).isSome = true

theorem leaves (hc : InPlace standard c) (hrun : RequestRun standard s (.settle k c)) :
    Leaves standard c k (outcome shared standard c k) := by
  obtain ⟨hk, herr⟩ := hrun
  cases hd : death shared standard c k with
  | none =>
    rcases outcome_alive hd with ⟨hack, hout⟩ | ⟨-, d, hout, hmsg, hqueue⟩
    · rw [hout]
      exact ⟨nofun, Nat.zero_le _, fun _ => Or.inl hack⟩
    · rw [hout]
      refine ⟨?_, ?_, nofun⟩
      · intro e he
        rw [List.mem_singleton.mp he]
        exact ⟨hqueue ▸ hc.queue, fun hq => hmsg ▸ hc.history (hqueue ▸ hq)⟩
      · simp [Pending, hqueue]
  | some reason =>
    rw [outcome_dead hd]
    have hcases := hc.queue
    simp only [requestQueues, List.mem_cons, List.not_mem_nil, or_false] at hcases
    rcases hcases with hq | hq | hq
    · have hmap := current_dies hq (death_history hk hc hq hd)
      have hone : ∀ l ∈ retryRoutes, l.countP (· ≠ errorRequestsQueue.name) ≤ 1 := by decide
      have hself : Pending c = true := by rw [Pending, hq]; decide
      refine ⟨fun d hmem => ?_, ?_, fun hnil => ?_⟩
      · rcases retryRoutes_mem _ hmap _ (List.mem_map_of_mem hmem) with hdq | hdq
        · exact ⟨by rw [hdq]; decide, fun hcur => absurd (hdq.symm.trans hcur) (by decide)⟩
        · exact ⟨by rw [hdq]; decide, fun hcur => absurd (hdq.symm.trans hcur) (by decide)⟩
      · rw [if_pos hself]
        have hcount := hone _ hmap
        rw [List.countP_map] at hcount
        exact hcount
      · rw [hnil] at hmap
        exact absurd hmap (by decide)
    · rw [delayed_dies hq]
      exact ⟨nofun, Nat.zero_le _, fun _ => Or.inr ⟨hq, by simp [hd]⟩⟩
    · rcases herr hq with rfl | rfl
      · exact absurd hd nofun
      · exact absurd hd nofun

/-! ### Runs -/

/-- What every run of requests keeps: the copies are in place, and a request has at most one copy
    outside the terminal queue. -/
structure Routed (standard : Option ℤ) (s : BrokerState) : Prop where
  ledger : Ledger s
  place : ∀ c ∈ s.copies, InPlace standard c
  single : ∀ id, s.copies.countP (fun c => c.msg.id = id && Pending c) ≤ 1

theorem routed_publish {m : Message} (h : Routed standard s)
    (he : enabled shared s (.publish requests.name m) = true)
    (hhist : standard = none ∨ m.deaths = []) :
    Routed standard (next shared standard s (.publish requests.name m)) := by
  have hfresh : ∀ o ∈ s.published, o.id ≠ m.id := by simpa [enabled] using he
  refine ⟨ledger_publish h.ledger he, ?_, ?_⟩
  · intro c hc
    rcases List.mem_append.mp hc with hold | hnew
    · exact h.place c hold
    · rw [requests_route] at hnew
      rw [List.mem_singleton.mp hnew]
      have hcur : currentRequestsQueue.name ∈ requestQueues := by decide
      exact ⟨hcur, fun _ => hhist⟩
  · intro id
    simp only [next, requests_route, List.map_cons, List.map_nil, List.countP_append]
    by_cases hid : m.id = id
    · have hnone : s.copies.countP (fun c => c.msg.id = id && Pending c) = 0 := by
        refine List.countP_eq_zero.mpr fun c hc => ?_
        obtain ⟨o, ho, hoid, -⟩ := h.ledger.copies c hc
        have hne : c.msg.id ≠ id := fun heq => hfresh o ho (hoid.trans (heq.trans hid.symm))
        simp [hne]
      rw [hnone, Nat.zero_add]
      exact List.countP_le_length
    · simpa [hid] using h.single id

theorem routed_settle (h : Routed standard s) (hc : c ∈ s.copies)
    (hrun : RequestRun standard s (.settle k c)) :
    Routed standard (next shared standard s (.settle k c)) := by
  have hleaves := leaves (h.place c hc) hrun
  refine ⟨ledger_settle h.ledger hc, ?_, ?_⟩
  · intro d hd
    rcases List.mem_append.mp hd with hold | hnew
    · exact h.place d (List.mem_of_mem_erase hold)
    · exact hleaves.place d hnew
  · intro id
    have hcount := countP_settle shared standard k (fun d => d.msg.id = id && Pending d) hc
    have hold := h.single id
    by_cases hid : c.msg.id = id
    · have hsub : (outcome shared standard c k).countP (fun d => d.msg.id = id && Pending d) ≤
          (outcome shared standard c k).countP Pending :=
        List.countP_mono_left fun d _ hd => (Bool.and_eq_true _ _ ▸ hd).2
      have hpend := hleaves.pending
      cases hp : Pending c with
      | true =>
        simp only [hid, hp, decide_true, Bool.and_self, if_true] at hcount hpend
        omega
      | false =>
        simp only [hid, hp, Bool.and_false, Bool.false_eq_true, if_false] at hcount hpend
        omega
    · have hnone : (outcome shared standard c k).countP (fun d => d.msg.id = id && Pending d) = 0 :=
        List.countP_eq_zero.mpr fun d hd => by simp [(outcome_msg hd).1, hid]
      simp only [hid, decide_false, Bool.false_and, hnone, Bool.false_eq_true, if_false] at hcount
      omega

theorem routed_step (a : BrokerAct) (h : Routed standard s) (he : enabled shared s a = true)
    (hrun : RequestRun standard s a) : Routed standard (next shared standard s a) := by
  cases a with
  | publish x m =>
    obtain ⟨rfl, hhist⟩ := hrun
    exact routed_publish h he hhist
  | settle k c => exact routed_settle h (enabled_settle he).1 hrun

/-- A copy that dies in `requests.delayed` belongs to a request that has a copy in `requests.error`
    or was acked. -/
def Spared (standard : Option ℤ) (s : BrokerState) : BrokerAct → Prop
  | .publish _ _ => True
  | .settle k c =>
    c.queue = delayedRequestsQueue.name → (death shared standard c k).isSome = true →
      c.msg.id ∈ s.acked ∨ ∃ d ∈ s.copies, d.msg.id = c.msg.id ∧ d.queue = errorRequestsQueue.name

instance (s : BrokerState) (a : BrokerAct) : Decidable (Spared standard s a) := by
  rcases a <;> (dsimp only [Spared]; infer_instance)

/-- The request was acked or is in `requests.error`. -/
def Ended (s : BrokerState) (id : ℕ) : Prop :=
  id ∈ s.acked ∨ ∃ c ∈ s.copies, c.msg.id = id ∧ c.queue = errorRequestsQueue.name

theorem ended_settle {id : ℕ} (h : Ended s id) (hrun : RequestRun standard s (.settle k c)) :
    Ended (next shared standard s (.settle k c)) id := by
  rcases h with hack | ⟨d, hd, hid, hq⟩
  · refine Or.inl ?_
    simp only [next]
    split
    · exact List.mem_append_left _ hack
    · exact hack
  · by_cases hdc : d = c
    · subst hdc
      rcases hrun.2 hq with rfl | rfl
      · exact Or.inr ⟨{ d with held := true }, List.mem_append_right _ (by simp [outcome, death]),
          hid, hq⟩
      · exact Or.inl (by simp [next, hid])
    · exact Or.inr ⟨d, List.mem_append_left _ ((List.mem_erase_of_ne hdc).mpr hd), hid, hq⟩

/-- A spared death leaves the spare. -/
theorem spare_left (hc : c.queue = delayedRequestsQueue.name)
    (h : ∃ d ∈ s.copies, d.msg.id = c.msg.id ∧ d.queue = errorRequestsQueue.name) :
    ∃ d ∈ s.copies.erase c, d.msg.id = c.msg.id ∧ d.queue = errorRequestsQueue.name := by
  obtain ⟨d, hd, hid, hq⟩ := h
  have hne : d ≠ c := fun heq => absurd (hq.symm.trans (heq ▸ hc)) (by decide)
  exact ⟨d, (List.mem_erase_of_ne hne).mpr hd, hid, hq⟩

theorem retained_publish {m : Message} (h : Retained s) :
    Retained (next shared standard s (.publish requests.name m)) := by
  refine ⟨?_, ?_⟩
  · intro o ho
    rcases List.mem_append.mp ho with hold | hnew
    · refine (h.somewhere o hold).imp_right ?_
      rintro ⟨c, hc, hid⟩
      exact ⟨c, List.mem_append_left _ hc, hid⟩
    · rw [List.mem_singleton.mp hnew]
      have hcur : currentRequestsQueue.name ∈ requestQueues := by decide
      refine Or.inr ⟨{ msg := m, queue := currentRequestsQueue.name }, ?_, rfl, hcur⟩
      simp [next, requests_route]
  · intro id hd
    refine (h.failed id hd).imp_right ?_
    rintro ⟨c, hc, hid⟩
    exact ⟨c, List.mem_append_left _ hc, hid⟩

theorem retained_settle (hr : Routed standard s) (h : Retained s) (hc : c ∈ s.copies)
    (hrun : RequestRun standard s (.settle k c)) (hs : Spared standard s (.settle k c)) :
    Retained (next shared standard s (.settle k c)) := by
  have hr' := routed_settle hr hc hrun
  refine ⟨fun m hm => ?_, fun id hd => ?_⟩
  · have hpresent : Present (next shared standard s (.settle k c)) m.id := by
      refine present_settle ?_ fun hid => ?_
      · refine (h.somewhere m hm).imp_right ?_
        rintro ⟨d, hd, hid, -⟩
        exact ⟨d, hd, hid⟩
      · by_cases hout : outcome shared standard c k = []
        · rcases (leaves (hr.place c hc) hrun).none_left hout with hack | ⟨hq, hdead⟩
          · exact Or.inl hack
          · rcases hs hq hdead with hack | hspare
            · exact Or.inr (Or.inr (Or.inl (hid ▸ hack)))
            · obtain ⟨d, hd, hdid, -⟩ := spare_left hq hspare
              exact Or.inr (Or.inr (Or.inr ⟨d, hd, hdid.trans hid⟩))
        · exact Or.inr (Or.inl hout)
    refine hpresent.imp_right ?_
    rintro ⟨d, hd, hid⟩
    exact ⟨d, hd, hid, (hr'.place d hd).queue⟩
  · have hold : (id, delayedRequestsQueue.name) ∈ s.died ∨
        id = c.msg.id ∧ c.queue = delayedRequestsQueue.name ∧
          (death shared standard c k).isSome = true := by
      simp only [next] at hd
      split at hd
      · next hdead =>
        rcases List.mem_append.mp hd with hold | hnew
        · exact Or.inl hold
        · obtain ⟨hid, hq⟩ := Prod.mk.inj (List.mem_singleton.mp hnew)
          exact Or.inr ⟨hid, hq.symm, hdead⟩
      · exact Or.inl hd
    refine ended_settle ?_ hrun
    rcases hold with hold | ⟨rfl, hq, hdead⟩
    · exact h.failed id hold
    · exact hs hq hdead

/-- A death that is not spared loses the request. -/
theorem unspared_gone (hr : Routed standard s) (hc : c ∈ s.copies)
    (hs : ¬ Spared standard s (.settle k c)) :
    Gone (next shared standard s (.settle k c)) c.msg.id := by
  simp only [Spared, Classical.not_imp, not_or] at hs
  obtain ⟨hq, hdead, hack, hspare⟩ := hs
  obtain ⟨reason, hd⟩ := Option.isSome_iff_exists.mp hdead
  obtain ⟨m, hm, hmid, -⟩ := hr.ledger.copies c hc
  have hk : k ≠ .ack := fun hk => by rw [hk] at hd; exact absurd hd nofun
  refine ⟨⟨m, hm, hmid⟩, ?_⟩
  rintro (hacked | ⟨d, hd', hid⟩)
  · simp only [next, hk, if_false] at hacked
    exact hack hacked
  · simp only [next, outcome_dead hd, delayed_dies hq, List.append_nil] at hd'
    have hdq : d.queue ≠ errorRequestsQueue.name := fun herr =>
      hspare ⟨d, List.mem_of_mem_erase hd', hid, herr⟩
    -- the erased copy and `d` would be two pending copies of one request
    have htwo := hr.single c.msg.id
    rw [(List.perm_cons_erase hc).countP_eq, List.countP_cons] at htwo
    have hone : 0 < (s.copies.erase c).countP (fun e => e.msg.id = c.msg.id && Pending e) :=
      List.countP_pos_iff.mpr ⟨d, hd', by simp [hid, Pending, hdq]⟩
    have hself : (c.msg.id = c.msg.id && Pending c) = true := by
      simp only [decide_true, Bool.true_and, Pending, hq]; decide
    rw [if_pos hself] at htwo
    omega

/-- Some request is gone. -/
def Lost (s : BrokerState) : Prop := ∃ id, Gone s id

theorem lost_not_retained (s : BrokerState) (h : Lost s) : ¬ Retained s := by
  obtain ⟨id, ⟨m, hm, rfl⟩, habs⟩ := h
  intro hr
  refine habs ((hr.somewhere m hm).imp_right ?_)
  rintro ⟨c, hc, hid, -⟩
  exact ⟨c, hc, hid⟩

theorem retained_step (a : BrokerAct) (hr : Routed standard s) (h : Retained s)
    (he : enabled shared s a = true) (hrun : RequestRun standard s a)
    (hs : Spared standard s a) : Retained (next shared standard s a) := by
  cases a with
  | publish x m =>
    obtain ⟨rfl, -⟩ := hrun
    exact retained_publish h
  | settle k c => exact retained_settle hr h (enabled_settle he).1 hrun hs

theorem lost_step (a : BrokerAct) (hr : Routed standard s) (he : enabled shared s a = true)
    (hs : ¬ Spared standard s a) : Lost (next shared standard s a) := by
  cases a with
  | publish x m => exact absurd trivial hs
  | settle k c => exact ⟨c.msg.id, unspared_gone hr (enabled_settle he).1 hs⟩

theorem retained_exact : Machine.Exact (broker shared standard) (RequestRun standard)
    (Spared standard) (Routed standard) Retained Lost where
  keeps _ a hr he hrun := routed_step a hr he hrun
  holds _ a hr h he hrun hs := retained_step a hr h he hrun hs
  fails _ a hr _ he _ hs := lost_step a hr he hs
  stays _ a _ hl he := hl.imp fun _ hg => gone_step a hg he
  excludes := lost_not_retained

/-- CORRECT: with any standard delivery limit, the requests are retained exactly in the runs in
    which no death in `requests.delayed` goes unspared. -/
theorem retained_iff (as : List BrokerAct) (s : BrokerState)
    (h : (broker shared standard).run (broker shared standard).init as = some s)
    (hd : (broker shared standard).Meets (RequestRun standard) (broker shared standard).init as) :
    Retained s ↔
      (broker shared standard).Meets (Spared standard) (broker shared standard).init as :=
  retained_exact.iff as h hd ⟨⟨nofun, nofun, nofun, nofun⟩, nofun, fun _ => Nat.zero_le _⟩
    ⟨nofun, nofun⟩

/-- The request succeeds in `requests.delayed`. -/
def retriedOnce : List BrokerAct :=
  [.publish requests.name request, .settle .deliver inCurrent,
    .settle .reject { inCurrent with held := true }, .settle .deliver inDelayed,
    .settle .ack { inDelayed with held := true }]

theorem retained_iff_retried : ∃ s, s.acked = [1] ∧ Retained s := by
  obtain ⟨s, hs, hd, hspared, hack⟩ : ∃ s ∈ (broker shared (some 20)).run
      (broker shared (some 20)).init retriedOnce,
      (broker shared (some 20)).Meets (RequestRun (some 20)) (broker shared (some 20)).init
        retriedOnce ∧
      (broker shared (some 20)).Meets (Spared (some 20)) (broker shared (some 20)).init
        retriedOnce ∧ s.acked = [1] := by decide +kernel
  exact ⟨s, hack, (retained_iff retriedOnce s hs hd).mpr hspared⟩

end RabbitmqCluster.Terraform
