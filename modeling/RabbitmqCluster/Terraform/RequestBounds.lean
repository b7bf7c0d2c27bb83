import RabbitmqCluster.Schemes.Potential
import RabbitmqCluster.Schemes.RetryLoop
import RabbitmqCluster.Terraform.RequestRetry

/-! @src var/terraform/src/request-retry.tf | scheme:potential | family:retry

    How often a request can be tried. Each of the three queues counts redeliveries: two of them up
    to the standard limit of the broker, `requests.delayed` up to 3. A request goes through
    `requests.current` once and leaves at most one copy in each of the other two, so with a standard
    limit of `L` it is handed to consumers at most `2 * L + 6` times, whatever they do with it.

        current: L + 1 ─▶ delayed: 3 + 1
                     └──▶ error: L + 1 -/

namespace RabbitmqCluster.Terraform

open RabbitmqCluster.Schemes Broker

variable {L : ℕ} {c : Copy} {k : Settle} {s : BrokerState}

theorem error_deadLetterExchange :
    shared.deadLetterExchange errorRequestsQueue.name = none := by
  decide +kernel

theorem error_deliveryLimit {standard : Option ℤ} :
    shared.deliveryLimit standard errorRequestsQueue.name = standard := by
  have hq : shared.isQuorum errorRequestsQueue.name = true := by decide +kernel
  have hl : shared.limit errorRequestsQueue.name "x-delivery-limit" "delivery-limit" = none := by
    decide +kernel
  rw [Topology.deliveryLimit, if_pos hq, hl]; rfl

/-- How often the copy may come back to its queue. -/
def returnsLeft (L : ℕ) (c : Copy) : ℕ :=
  (if c.queue = delayedRequestsQueue.name then 3 else L) - c.returns

/-- The deliveries that are still possible: of the copy itself, and in `requests.current` of what it
    leaves in the other queues. -/
def deliveriesLeft (L : ℕ) (c : Copy) : ℕ :=
  returnsLeft L c + (if c.held then 0 else 1) +
    if c.queue = currentRequestsQueue.name then (3 + 1) + (L + 1) else 0

/-- The copy is in one of the three queues. -/
def Requested (c : Copy) : Prop := c.queue ∈ requestQueues

theorem deliveryLimit_requests (h : Requested c) :
    shared.deliveryLimit (some (L : ℤ)) c.queue =
      some ((if c.queue = delayedRequestsQueue.name then 3 else L : ℕ) : ℤ) := by
  simp only [Requested, requestQueues, List.mem_cons, List.not_mem_nil, or_false] at h
  rcases h with hq | hq | hq
  · rw [hq, current_deliveryLimit, if_neg (by decide)]
  · rw [hq, delayed_deliveryLimit, if_pos rfl]; rfl
  · rw [hq, error_deliveryLimit, if_neg (by decide)]

/-- A copy that comes back once more has one return less left. -/
theorem returnsLeft_pos (h : Requested c)
    (hd : death shared (some (L : ℤ)) c .requeue = none) : 0 < returnsLeft L c := by
  have hover : overLimit shared (some (L : ℤ)) c = false := by
    by_contra hover
    simp [death, hover] at hd
  simp only [overLimit, deliveryLimit_requests h, decide_eq_false_iff_not, not_lt] at hover
  rw [returnsLeft]
  omega

/-! ### Deaths -/

/-- What a new copy behind `retry.requests` can still take. -/
def retriesLeft (L : ℕ) (q : String) : ℕ :=
  if q = delayedRequestsQueue.name then 3 + 1 else L + 1

theorem deliveriesLeft_retry {m : Message} {q : String}
    (hq : q = delayedRequestsQueue.name ∨ q = errorRequestsQueue.name) :
    deliveriesLeft L { msg := m, queue := q } = retriesLeft L q := by
  have hcurrent : q ≠ currentRequestsQueue.name := by
    rcases hq with rfl | rfl
    · decide
    · decide
  simp only [deliveriesLeft, returnsLeft, retriesLeft, hcurrent, if_false, Bool.false_eq_true]
  split <;> rfl

theorem retryRoutes_sum : ∀ l ∈ retryRoutes,
    (l.map (retriesLeft L)).sum ≤ (3 + 1) + (L + 1) := by
  have hd : retriesLeft L delayedRequestsQueue.name = 3 + 1 := if_pos rfl
  have he : retriesLeft L errorRequestsQueue.name = L + 1 := if_neg (by decide)
  intro l hl
  simp only [retryRoutes, List.mem_cons, List.not_mem_nil, or_false] at hl
  rcases hl with rfl | rfl | rfl
  · simp [hd]
  · simp [he]
  · simp [hd, he]

/-- What dies leaves at most one copy in each of the two queues, and nothing outside
    `requests.current`. -/
theorem deadLetter_requests (reason : Reason) (h : Requested c) :
    (∀ d ∈ shared.deadLetter reason c, Requested d) ∧
      ((shared.deadLetter reason c).map (deliveriesLeft L)).sum ≤
        if c.queue = currentRequestsQueue.name then (3 + 1) + (L + 1) else 0 := by
  simp only [Requested, requestQueues, List.mem_cons, List.not_mem_nil, or_false] at h
  rcases h with hq | hq | hq
  · obtain ⟨m, hm⟩ : ∃ m, m = c.msg.die reason c.queue c.returns := ⟨_, rfl⟩
    have hroute := retryRequests_route m
    have hdead : shared.deadLetter reason c = ((shared.route m retryRequests.name).filter fun q =>
        reason = .rejected || !automaticCycle q m.deaths).map
          fun q => { msg := m, queue := q } := by
      rw [Topology.deadLetter, hq, current_deadLetterExchange, ← hq, hm]
    have hplace : ∀ q ∈ (shared.route m retryRequests.name).filter fun q =>
        reason = .rejected || !automaticCycle q m.deaths,
        q = delayedRequestsQueue.name ∨ q = errorRequestsQueue.name := fun q hmem =>
      retryRoutes_mem _ hroute q (List.mem_of_mem_filter hmem)
    refine ⟨fun d hd => ?_, ?_⟩
    · rw [hdead] at hd
      obtain ⟨q, hmem, rfl⟩ := List.mem_map.mp hd
      rcases hplace q hmem with rfl | rfl
      · show delayedRequestsQueue.name ∈ requestQueues
        decide
      · show errorRequestsQueue.name ∈ requestQueues
        decide
    · rw [if_pos hq, hdead, List.map_map]
      calc (((shared.route m retryRequests.name).filter _).map
            (deliveriesLeft L ∘ fun q => { msg := m, queue := q })).sum
        _ = (((shared.route m retryRequests.name).filter _).map (retriesLeft L)).sum :=
          congrArg List.sum (List.map_congr_left fun q hmem => deliveriesLeft_retry (hplace q hmem))
        _ ≤ ((shared.route m retryRequests.name).map (retriesLeft L)).sum :=
          (List.filter_sublist.map _).sum_le_sum fun _ _ => Nat.zero_le _
        _ ≤ _ := retryRoutes_sum _ hroute
  · rw [delayed_dies hq]
    exact ⟨List.forall_mem_nil _, Nat.zero_le _⟩
  · rw [Topology.deadLetter, hq, error_deadLetterExchange]
    exact ⟨List.forall_mem_nil _, Nat.zero_le _⟩

/-! ### Runs -/

theorem settle_requests (h : Requested c) (hcan : canSettle shared c k = true) :
    (∀ d ∈ outcome shared (some (L : ℤ)) c k, Requested d) ∧
      ((outcome shared (some (L : ℤ)) c k).map (deliveriesLeft L)).sum +
        (if k = .deliver then 1 else 0) ≤ deliveriesLeft L c := by
  cases hd : death shared (some (L : ℤ)) c k with
  | some reason =>
    have hk : k ≠ .deliver := by
      rintro rfl
      cases hd
    obtain ⟨hplace, hsum⟩ := deadLetter_requests (L := L) reason h
    rw [outcome_dead hd, if_neg hk, Nat.add_zero]
    exact ⟨hplace, hsum.trans (Nat.le_add_left _ _)⟩
  | none =>
    cases k with
    | deliver =>
      have hfree : c.held = false := by simpa [canSettle] using hcan
      have hout : outcome shared (some (L : ℤ)) c .deliver = [{ c with held := true }] := rfl
      rw [hout]
      refine ⟨fun d hmem => List.mem_singleton.mp hmem ▸ h, ?_⟩
      simp only [List.map_singleton, List.sum_singleton, deliveriesLeft, returnsLeft, hfree]
      simp only [if_true, Bool.false_eq_true, if_false]
      omega
    | ack => exact ⟨List.forall_mem_nil _, Nat.zero_le _⟩
    | requeue =>
      have hheld : c.held = true := hcan
      have hleft := returnsLeft_pos h hd
      have hout : outcome shared (some (L : ℤ)) c .requeue =
          [{ c with held := false, returns := c.returns + 1 }] := by simp only [outcome, hd]
      rw [hout]
      refine ⟨fun d hmem => List.mem_singleton.mp hmem ▸ h, ?_⟩
      rw [returnsLeft] at hleft
      simp only [List.map_singleton, List.sum_singleton, deliveriesLeft, returnsLeft, hheld]
      simp only [if_true, Bool.false_eq_true, if_false, reduceCtorEq]
      omega
    | reject => cases hd
    | expire => cases hd

/-- CORRECT: with a standard delivery limit of `L` no request is handed to consumers more than
    `2 * L + 6` times, in all three queues together. -/
theorem request_deliveries (L id : ℕ) (as : List BrokerAct) (s : BrokerState)
    (h : (broker shared (some (L : ℤ))).run (broker shared (some (L : ℤ))).init as = some s)
    (hd : (broker shared (some (L : ℤ))).Meets (EntersAt requests.name)
      (broker shared (some (L : ℤ))).init as) :
    as.countP (handsOver id) ≤ 2 * L + 6 := by
  have htires : Tires shared (some (L : ℤ)) (EntersAt requests.name) Requested (deliveriesLeft L)
      (2 * L + 6) := by
    refine ⟨?_, ?_, fun s k c hp hcan _ => (settle_requests hp hcan).1,
      fun s k c hp hcan _ => (settle_requests hp hcan).2⟩
    · rintro s x m rfl q hq
      rw [requests_route] at hq
      rw [List.mem_singleton.mp hq]
      show currentRequestsQueue.name ∈ requestQueues
      decide
    · rintro s x m rfl
      have hcurrent : currentRequestsQueue.name ≠ delayedRequestsQueue.name := by decide
      rw [requests_route]
      simp only [List.map_singleton, List.sum_singleton, deliveriesLeft, returnsLeft, hcurrent]
      simp only [if_true, Bool.false_eq_true, if_false]
      omega
  exact htires.deliveries_le id as s h hd

/-- The first `n` deliveries of a copy, each ending with a requeue. -/
def tries (c : Copy) (n : ℕ) : List BrokerAct :=
  (List.range n).flatMap fun r =>
    [.settle .deliver { c with returns := r },
      .settle .requeue { c with held := true, returns := r }]

/-- The request after a rejection at its third delivery, in the queue `q`. -/
def rejectedThird (q : Queue) : Copy :=
  { msg := request.die .rejected currentRequestsQueue.name 2, queue := q.name }

/-- The request is rejected at its third delivery and copied to both queues; there it is tried as
    often as it may be. -/
def triedOut : List BrokerAct :=
  [.publish requests.name request] ++ tries inCurrent 2 ++
    [.settle .deliver { inCurrent with returns := 2 },
      .settle .reject { inCurrent with held := true, returns := 2 }] ++
    tries (rejectedThird delayedRequestsQueue) 3 ++
    [.settle .deliver { rejectedThird delayedRequestsQueue with returns := 3 }] ++
    tries (rejectedThird errorRequestsQueue) 2 ++
    [.settle .deliver { rejectedThird errorRequestsQueue with returns := 2 }]

/-- With a limit of 2 the bound is reached. -/
theorem request_deliveries_reached : triedOut.countP (handsOver 1) = 10 ∧
    triedOut.countP (handsOver 1) ≤ 2 * 2 + 6 := by
  obtain ⟨s, hs, hd⟩ : ∃ s ∈ (broker shared (some 2)).run (broker shared (some 2)).init triedOut,
      (broker shared (some 2)).Meets (EntersAt requests.name) (broker shared (some 2)).init
        triedOut := by decide +kernel
  exact ⟨by decide, request_deliveries 2 1 triedOut s hs hd⟩

end RabbitmqCluster.Terraform
