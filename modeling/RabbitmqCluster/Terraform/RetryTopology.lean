import RabbitmqCluster.Schemes.RetryLoop
import RabbitmqCluster.Terraform.Rabbitmq1

/-! @src var/terraform/rabbitmq1/retry-topology.tf | scheme:copies | family:retry

    The retry loop of rabbitmq1. What `system.events` routes has one of three keys; `dlx.events`
    takes every key of three words to `dead.events`, and `dlx.retry` has the same three bindings as
    `system.events`. A copy in `dead.events` came there by a rejection, so its expiry is never
    mistaken for a cycle without one. Hence an event goes round as one copy until it is acked
    (`retry_loop`). -/

namespace RabbitmqCluster.Terraform

open RabbitmqCluster.Schemes Broker

variable {standard : Option ℤ} {s : BrokerState} {c : Copy} {k : Settle}

/-- Events are published to `system.events` without an expiration of their own, acked or rejected in
    `api.events`, and expire. -/
def RetryRun (_ : BrokerState) : BrokerAct → Prop
  | .publish x m => x = systemExchange.name ∧ m.expiration = none
  | .settle k c =>
    k ≠ .requeue ∧ (c.queue = deadeventsQueue.name → k = .expire)

instance (s : BrokerState) (a : BrokerAct) : Decidable (RetryRun s a) := by
  rcases a <;> (dsimp only [RetryRun]; infer_instance)

/-- The copy goes round: it leaves exactly one copy, of the same message under the same key, in the
    other queue. -/
def Moves (standard : Option ℤ) (c : Copy) (k : Settle) (q : Queue) : Prop :=
  ∃ d, outcome rabbitmq1 standard c k = [d] ∧ d.queue = q.name ∧ d.msg.id = c.msg.id ∧
    d.msg.key = c.msg.key

/-- An event that was routed to `api.events` is one copy in one of the two queues, under its own
    key, until it is acked, and no copy after that. -/
structure RetryLoop (standard : Option ℤ) (s : BrokerState) : Prop where
  once : ∀ m ∈ s.published, apieventsQueue.name ∈ rabbitmq1.route m systemExchange.name →
    m.id ∉ s.acked → ∃ c, s.copies.filter (·.msg.id = m.id) = [c] ∧
      (c.queue = apieventsQueue.name ∨ c.queue = deadeventsQueue.name) ∧ c.msg.key = m.key
  acked : ∀ m ∈ s.published, m.id ∈ s.acked → s.copies.filter (·.msg.id = m.id) = []
  reject : ∀ c ∈ s.copies, c.queue = apieventsQueue.name → Moves standard c .reject deadeventsQueue
  expire : ∀ c ∈ s.copies, c.queue = deadeventsQueue.name → Moves standard c .expire apieventsQueue

/-! ### The topology -/

/-- The keys bound at `system.events` and again at `dlx.retry`. -/
def boundKeys : List String := ["user.create.account", "user.update.account", "user.delete.account"]

theorem boundKeys_literal : ∀ k ∈ boundKeys,
    Topic.star ∉ Topic.words k ∧ Topic.hash ∉ Topic.words k := by
  decide +kernel

theorem system_route (m : Message) : rabbitmq1.route m systemExchange.name =
    if m.key ∈ boundKeys then [apieventsQueue.name] else [] :=
  route_literal (by decide) (by decide +kernel) (by decide +kernel) rfl (by decide +kernel)
    (by decide) boundKeys_literal m

theorem retry_route (m : Message) : rabbitmq1.route m retryExchange.name =
    if m.key ∈ boundKeys then [apieventsQueue.name] else [] :=
  route_literal (by decide) (by decide +kernel) (by decide +kernel) rfl (by decide +kernel)
    (by decide) boundKeys_literal m

theorem deadletter_route {m : Message} (hm : m.key ∈ boundKeys) :
    rabbitmq1.route m deadletterExchange.name = [deadeventsQueue.name] := by
  have hx : rabbitmq1.exchange deadletterExchange.name = some deadletterExchange := by
    decide +kernel
  have hb : rabbitmq1.bindingsFrom deadletterExchange.name = [deadExchangeQueueBinding] := by
    decide +kernel
  have hall : ∀ k ∈ boundKeys, Topic.topicMatch "*.*.*" k = true := by decide +kernel
  exact route_queues (Q := [deadeventsQueue.name]) (by decide) hx
    (targets_single hb (hall m.key hm))

theorem rabbitmq1_loop :
    DeadLetterLoop rabbitmq1 systemExchange.name apieventsQueue.name deadeventsQueue.name
      boundKeys where
  enter := system_route
  toWait := ⟨deadletterExchange.name, by decide +kernel, fun _ hm => deadletter_route hm⟩
  toWork := ⟨by decide, retryExchange.name, by decide +kernel, fun m hm => by
    rw [retry_route, if_pos hm]⟩

theorem api_messageTtl : rabbitmq1.messageTtl apieventsQueue.name = none := by
  decide +kernel

/-! ### Rounds -/

/-- A copy on its round: a waiting event in `api.events`, or one that came to `dead.events` by a
    rejection. -/
structure InLoop (c : Copy) : Prop where
  queue : c.queue = apieventsQueue.name ∨ c.queue = deadeventsQueue.name ∧
    ∃ older, c.msg.deaths = ⟨apieventsQueue.name, .rejected⟩ :: older
  key : c.msg.key ∈ boundKeys
  expiration : c.msg.expiration = none

theorem InLoop.inQueues (h : InLoop c) :
    InQueues apieventsQueue.name deadeventsQueue.name boundKeys c :=
  ⟨h.queue.imp_right And.left, h.key⟩

theorem reject_outcome (h : InLoop c) (hq : c.queue = apieventsQueue.name) :
    outcome rabbitmq1 standard c .reject =
      [{ msg := c.msg.die .rejected c.queue c.returns, queue := deadeventsQueue.name }] := by
  rw [outcome_dead (r := .rejected) rfl, rabbitmq1_loop.dies h.inQueues,
    if_neg fun hcycle => hcycle.1 rfl, otherQueue, if_pos hq]

/-- The way back from `dead.events` passes the rejection that led there. -/
theorem no_automaticCycle {older : List Death} :
    automaticCycle apieventsQueue.name (⟨deadeventsQueue.name, .expired⟩ ::
      (⟨apieventsQueue.name, .rejected⟩ :: older).filter
        (· ≠ ⟨deadeventsQueue.name, .expired⟩)) = false := by
  have hne : deadeventsQueue.name ≠ apieventsQueue.name := by decide
  have hkeep : (⟨apieventsQueue.name, .rejected⟩ : Death) ≠ ⟨deadeventsQueue.name, .expired⟩ := by
    decide
  simp [automaticCycle, hne, hkeep]

theorem expire_outcome (h : InLoop c) (hq : c.queue = deadeventsQueue.name) :
    outcome rabbitmq1 standard c .expire =
      [{ msg := c.msg.die .expired c.queue c.returns, queue := apieventsQueue.name }] := by
  have hapi : c.queue ≠ apieventsQueue.name := by rw [hq]; decide
  have hother : otherQueue apieventsQueue.name deadeventsQueue.name c.queue =
      apieventsQueue.name := if_neg hapi
  have hcycle : ¬ Cycles apieventsQueue.name deadeventsQueue.name c .expired := by
    rintro ⟨-, hauto⟩
    obtain ⟨-, older, hdeaths⟩ := h.queue.resolve_left hapi
    rw [hother] at hauto
    simp only [Message.die, hdeaths, hq] at hauto
    exact absurd (no_automaticCycle.symm.trans hauto) nofun
  rw [outcome_dead (r := .expired) rfl, rabbitmq1_loop.dies h.inQueues, if_neg hcycle, hother]

theorem InLoop.rejected (h : InLoop c) (hq : c.queue = apieventsQueue.name) :
    InLoop { msg := c.msg.die .rejected c.queue c.returns, queue := deadeventsQueue.name } :=
  ⟨Or.inr ⟨rfl, _, by rw [← hq]; rfl⟩, h.key, rfl⟩

theorem InLoop.expired (h : InLoop c) :
    InLoop { msg := c.msg.die .expired c.queue c.returns, queue := apieventsQueue.name } :=
  ⟨Or.inl rfl, h.key, rfl⟩

/-- A settled copy leaves one copy on its round, or none when it is acked. -/
theorem settle_outcome (h : InLoop c) (hcan : canSettle rabbitmq1 c k = true)
    (hrun : RetryRun s (.settle k c)) :
    (∀ d ∈ outcome rabbitmq1 standard c k, InLoop d) ∧
      (outcome rabbitmq1 standard c k).length = if k = .ack then 0 else 1 := by
  obtain ⟨hreq, hdead⟩ := hrun
  cases k with
  | deliver =>
    have hout : outcome rabbitmq1 standard c .deliver = [{ c with held := true }] := rfl
    rw [hout]
    refine ⟨fun d hd => ?_, rfl⟩
    rw [List.mem_singleton.mp hd]
    exact ⟨h.queue, h.key, h.expiration⟩
  | ack => exact ⟨nofun, rfl⟩
  | requeue => exact absurd rfl hreq
  | reject =>
    rcases h.queue with hq | ⟨hq, -⟩
    · rw [reject_outcome h hq]
      refine ⟨fun d hd => ?_, rfl⟩
      rw [List.mem_singleton.mp hd]
      exact h.rejected hq
    · exact absurd (hdead hq) nofun
  | expire =>
    rcases h.queue with hq | ⟨hq, -⟩
    · simp [canSettle, hq, api_messageTtl, h.expiration] at hcan
    · rw [expire_outcome h hq]
      refine ⟨fun d hd => ?_, rfl⟩
      rw [List.mem_singleton.mp hd]
      exact h.expired

theorem inLoop_step (a : BrokerAct) (h : ∀ c ∈ s.copies, InLoop c)
    (he : enabled rabbitmq1 s a = true) (hrun : RetryRun s a) :
    ∀ c ∈ (next rabbitmq1 standard s a).copies, InLoop c := by
  intro d hd
  cases a with
  | publish x m =>
    obtain ⟨rfl, hexp⟩ := hrun
    rcases List.mem_append.mp hd with hold | hnew
    · exact h d hold
    · rw [system_route] at hnew
      split at hnew
      · next hm =>
        rw [List.mem_singleton.mp hnew]
        exact ⟨Or.inl rfl, hm, hexp⟩
      · exact absurd hnew List.not_mem_nil
  | settle k c =>
    obtain ⟨hc, hcan⟩ := enabled_settle he
    rcases List.mem_append.mp hd with hold | hnew
    · exact h d (List.mem_of_mem_erase hold)
    · exact (settle_outcome (h c hc) hcan hrun).1 d hnew

theorem inLoop (s : BrokerState) (h : (broker rabbitmq1 standard).Reach RetryRun s) :
    ∀ c ∈ s.copies, InLoop c :=
  Machine.inv (m := broker rabbitmq1 standard) (I := fun s => ∀ c ∈ s.copies, InLoop c) nofun
    (fun _ a hs he hrun => inLoop_step a hs he hrun) s h

/-- Copies and acks of an event add up to one if it was routed, and to none otherwise. -/
theorem retry_balance (s : BrokerState) (h : (broker rabbitmq1 standard).Reach RetryRun s) :
    ∀ m ∈ s.published,
      live s m.id + s.acked.count m.id = if m.key ∈ boundKeys then 1 else 0 := by
  refine balance (n := fun m => if m.key ∈ boundKeys then 1 else 0) ?_ ?_ s h
  · rintro s x m ⟨rfl, -⟩
    rw [system_route]
    split <;> rfl
  · intro s k c hreach he hrun
    obtain ⟨hc, hcan⟩ := enabled_settle he
    exact (settle_outcome (inLoop s hreach c hc) hcan hrun).2

/-- CORRECT: in every run an event goes round as one copy, under its own key, until it is acked. -/
theorem retry_loop (s : BrokerState) (h : (broker rabbitmq1 standard).Reach RetryRun s) :
    RetryLoop standard s := by
  have hled : Ledger s := ledger s h
  have hloop := inLoop s h
  have hbal := retry_balance s h
  refine ⟨?_, ?_, ?_, ?_⟩
  · intro m hm hroute hack
    have hkey : m.key ∈ boundKeys := by
      by_contra hno
      rw [system_route, if_neg hno] at hroute
      exact absurd hroute List.not_mem_nil
    have hone := hbal m hm
    rw [if_pos hkey, List.count_eq_zero.mpr hack, Nat.add_zero, live,
      List.countP_eq_length_filter] at hone
    obtain ⟨c, hc⟩ := List.length_eq_one_iff.mp hone
    have hmem : c ∈ s.copies.filter (·.msg.id = m.id) := by
      rw [hc]; exact List.mem_singleton_self c
    obtain ⟨hcs, hid⟩ := List.mem_filter.mp hmem
    obtain ⟨o, ho, hoid, hokey⟩ := hled.copies c hcs
    have hom : o = m := hled.ids o ho m hm (hoid.trans (by simpa using hid))
    refine ⟨c, hc, ?_, by rw [← hokey, hom]⟩
    exact (hloop c hcs).queue.imp_right fun hq => hq.1
  · intro m hm hack
    have hone := hbal m hm
    have hpos := List.count_pos_iff.mpr hack
    have hzero : live s m.id = 0 := by split at hone <;> omega
    rw [live, List.countP_eq_length_filter] at hzero
    exact List.length_eq_zero_iff.mp hzero
  · intro c hc hq
    exact ⟨_, reject_outcome (hloop c hc) hq, rfl, rfl, rfl⟩
  · intro c hc hq
    exact ⟨_, expire_outcome (hloop c hc) hq, rfl, rfl, rfl⟩

def event : Message := { id := 1, key := "user.update.account" }

def inApi : Copy := { msg := event, queue := apieventsQueue.name }

def inDead : Copy :=
  { msg := event.die .rejected apieventsQueue.name 0, queue := deadeventsQueue.name }

def backInApi : Copy :=
  { msg := inDead.msg.die .expired deadeventsQueue.name 0, queue := apieventsQueue.name }

/-- Two events, one of them of another kind; the first is rejected, comes back, and is delivered. -/
def oneRound : List BrokerAct :=
  [.publish systemExchange.name event, .settle .deliver inApi,
    .settle .reject { inApi with held := true }, .settle .expire inDead,
    .publish systemExchange.name { id := 2, key := "user.create" }, .settle .deliver backInApi]

theorem retry_loop_round :
    ∃ s, s.copies = [{ backInApi with held := true }] ∧ RetryLoop none s := by
  obtain ⟨s, hs, hc⟩ := Machine.reach_of_run (m := broker rabbitmq1 none) (C := RetryRun)
    (P := fun s => s.copies = [{ backInApi with held := true }]) oneRound (by decide +kernel)
  exact ⟨s, hc, retry_loop s hs⟩

end RabbitmqCluster.Terraform
