import RabbitmqCluster.Terraform.RequestRetry

/-! @src var/terraform/src request-retry.tf variables.tf | scheme:broker | family:retry

    Where a request goes that died in `requests.current`. `retry.requests` has two bindings that
    look at one header each, and an alternate exchange for what neither takes, so a request is never
    without a place. But the two bindings do not exclude each other: a request that was rejected and
    carries a delivery count of 2 is copied to both queues (`request_in_both`). It goes to one place
    exactly when it does not carry both headers (`onePlace_iff`).

        x-first-death-reason = rejected ─▶ requests.delayed
        x-delivery-count = 2            ─▶ requests.error ◀─ neither -/

namespace RabbitmqCluster.Terraform

open RabbitmqCluster.Schemes Broker

variable {standard : Option ℤ}

/-- The message as it comes from `requests.current` to `retry.requests`. -/
def deadRequest (m : Message) (reason : Reason) (returns : ℕ) : Message :=
  m.die reason currentRequestsQueue.name returns

/-- One copy in total, in one of the two queues. -/
def OnePlace (m : Message) : Prop :=
  ∃ q, (q = delayedRequestsQueue.name ∨ q = errorRequestsQueue.name) ∧
    shared.route m retryRequests.name = [q]

/-- The header that `retry_requests_binding` asks for. -/
def FirstRejected (m : Message) : Prop :=
  m.headers.lookup "x-first-death-reason" = some (.str "rejected")

/-- The header that `error_requests_binding` asks for. -/
def CountedTwice (m : Message) : Prop := m.headers.lookup "x-delivery-count" = some (.int 2)

/-- Requeued twice in `requests.current`, and rejected at the third delivery. -/
def requeuedTwice : List BrokerAct :=
  [.publish requests.name request, .settle .deliver inCurrent,
    .settle .requeue { inCurrent with held := true },
    .settle .deliver { inCurrent with returns := 1 },
    .settle .requeue { inCurrent with held := true, returns := 1 },
    .settle .deliver { inCurrent with returns := 2 }]

theorem request_in_both :
    ¬ ∀ standard s, (broker shared standard).Reach Machine.Any s → ∀ c ∈ s.copies,
      c.queue = currentRequestsQueue.name → OnePlace (deadRequest c.msg .rejected c.returns) := by
  intro hall
  obtain ⟨s, hs, hc⟩ := Machine.reach_any_of_run (m := broker shared (some 20))
    (P := fun s => s.copies = [{ inCurrent with held := true, returns := 2 }]) requeuedTwice
    (by decide +kernel)
  obtain ⟨q, -, hone⟩ := hall (some 20) s hs _ (by rw [hc]; exact List.mem_singleton_self _) rfl
  have htwo : shared.route (deadRequest request .rejected 2) retryRequests.name =
      [delayedRequestsQueue.name, errorRequestsQueue.name] := by decide +kernel
  exact absurd (congrArg List.length (htwo.symm.trans hone)) (by simp)

theorem retryRequests_matches (m : Message) :
    retryRequestsBinding.matches m .headers = true ↔ FirstRejected m :=
  Headers.headersMatch_single (k := "x-first-death-reason") (v := .str "rejected") (by decide)
    nofun m.headers

theorem errorRequests_matches (m : Message) :
    errorRequestsBinding.matches m .headers = true ↔ CountedTwice m :=
  Headers.headersMatch_single (k := "x-delivery-count") (v := .int 2) (by decide) nofun m.headers

/-- Whatever the headers, there are one or two copies, and two exactly when both bindings match. -/
theorem onePlace_iff (m : Message) : OnePlace m ↔ ¬ (FirstRejected m ∧ CountedTwice m) := by
  have hroute := retryRequests_queues m
  split at hroute
  · next hr he =>
    have hboth := And.intro ((retryRequests_matches m).mp hr) ((errorRequests_matches m).mp he)
    refine iff_of_false ?_ (not_not.mpr hboth)
    rintro ⟨q, -, hone⟩
    exact absurd (congrArg List.length (hroute.symm.trans hone)) (by simp)
  · next hr he =>
    have hno : ¬ CountedTwice m := fun h =>
      absurd (he.symm.trans ((errorRequests_matches m).mpr h)) nofun
    exact iff_of_true ⟨_, Or.inl rfl, hroute⟩ fun h => hno h.2
  · next hr =>
    have hno : ¬ FirstRejected m := fun h =>
      absurd (hr.symm.trans ((retryRequests_matches m).mpr h)) nofun
    exact iff_of_true ⟨_, Or.inr rfl, hroute⟩ fun h => hno h.1

/-- CORRECT: a request that died in `requests.current`, with any headers, for any reason and after
    any number of returns, goes to one place if and only if it does not carry both headers. -/
theorem dead_request_placed (m : Message) (reason : Reason) (returns : ℕ) :
    OnePlace (deadRequest m reason returns) ↔
      ¬ (FirstRejected (deadRequest m reason returns) ∧
        CountedTwice (deadRequest m reason returns)) :=
  onePlace_iff (deadRequest m reason returns)

/-- The first death is the one that the headers name. -/
theorem firstRejected_dead {m : Message} {reason : Reason} {returns : ℕ} (hm : m.deaths = []) :
    FirstRejected (deadRequest m reason returns) ↔ reason = .rejected := by
  have hfirst : (m.firstDeath reason currentRequestsQueue.name).lookup "x-first-death-reason" =
      some (.str reason.text) := by
    rw [Message.firstDeath, if_pos hm, Table.lookup_set (by decide)]
    exact List.lookup_cons_self
  have hlookup : (deadRequest m reason returns).headers.lookup "x-first-death-reason" =
      some (.str reason.text) := by
    simp only [deadRequest, Message.die]
    split
    · exact hfirst
    · rw [Table.lookup_set (by decide), hfirst]
  rw [FirstRejected, hlookup]
  cases reason with
  | rejected => simp [Reason.text]
  | expired => simp [Reason.text]
  | deliveryLimit => simp [Reason.text]

theorem countedTwice_dead {m : Message} {reason : Reason} {returns : ℕ}
    (hm : m.headers.lookup "x-delivery-count" = none) :
    CountedTwice (deadRequest m reason returns) ↔ reason.returns returns = 2 := by
  have hfirst : (m.firstDeath reason currentRequestsQueue.name).lookup "x-delivery-count" =
      none := by
    rw [Message.firstDeath]
    split
    · rw [Table.lookup_set (by decide), Table.lookup_set (by decide), hm]
    · exact hm
  simp only [CountedTwice, deadRequest, Message.die]
  split
  · next hzero => simp [hfirst, hzero]
  · simp only [Table.set, List.lookup_cons_self, Option.some.injEq, Value.int.injEq]
    omega

/-- A request that was never dead-lettered and has no count of its own goes to both queues exactly
    when it is rejected after two returns. -/
theorem plain_request_placed {m : Message} {reason : Reason} {returns : ℕ}
    (hd : m.deaths = []) (hc : m.headers.lookup "x-delivery-count" = none) :
    OnePlace (deadRequest m reason returns) ↔ ¬ (reason = .rejected ∧ returns = 2) := by
  rw [onePlace_iff, firstRejected_dead hd, countedTwice_dead hc]
  refine not_congr (and_congr_right fun hr => ?_)
  rw [hr, Reason.returns, if_neg (by decide)]

end RabbitmqCluster.Terraform
