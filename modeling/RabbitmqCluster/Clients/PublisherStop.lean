import RabbitmqCluster.Clients.PublisherWindow
import Mathlib.Algebra.Order.BigOperators.Group.List
import Mathlib.Algebra.Order.Group.Nat

/-! @src clients/go/publisher.go | scheme:machine | family:exit

    What one OK is worth. The handler offers the next OK only when the last one was taken and its
    confirmation came back, so the offer never blocks (`ok_never_blocks`). Once `exitCh` is closed
    the handler passes the top of its loop no more: an OK that is in the buffer, in the hands of
    `publish` or about to be given is the last one, so at most one message follows the exit
    request; and the handler can always go on to close `confirmsDoneCh`, which every wait of
    `publish` listens to (`exit_stops`).

        OK:  offered ─▶ in publishOkCh ─▶ publishing ─▶ published        exit: no further offer -/

namespace RabbitmqCluster.Publisher

open RabbitmqCluster.Schemes

variable {continuous : Bool} {C : State → Act → Prop}

/-! ### The OK never blocks -/

/-- CORRECT: wherever the handler gives the OK, the buffer is empty and the send is ready. -/
theorem ok_never_blocks (s : State) (h : (publisher continuous).Reach Machine.Any s)
    (hh : s.handler = .offerOk) :
    s.publishOkCh = false ∧ (s.process = .running → enabled s .sendOk = true) := by
  have hempty : s.publishOkCh = false := ((credit s h).settling (by rw [hh]; rfl)).1
  refine ⟨hempty, fun hrun => enabled_iff.mpr ⟨hrun, ?_⟩⟩
  simp [guard, hh, hempty]

/-- The second OK of a run, offered after tag 1 went into the map. -/
def secondOffer : List Act :=
  [.connect, .pass, .sendOk, .gotOk, .publishMsg 1, .deliver 1, .checkTag .loop {1} 1,
    .checked .loop, .pass]

theorem ok_never_blocks_second :
    ∃ s, s.confirms = {1} ∧ s.publishOkCh = false ∧
      (s.process = .running → enabled s .sendOk = true) := by
  obtain ⟨s, hs, hh, hc⟩ := Machine.reach_any_of_run (m := publisher true)
    (P := fun s => s.handler = .offerOk ∧ s.confirms = {1}) secondOffer (by decide)
  exact ⟨s, hc, ok_never_blocks s hs hh⟩

/-! ### The last publish -/

/-- A publish is still to come: its OK is in the buffer, taken, or about to be given. -/
def State.owesPublish (s : State) : Bool :=
  s.publishOkCh || s.publish = .publishing || s.handler = .offerOk

/-- The messages published, and the one still to come. -/
def State.budget (s : State) : ℕ := s.published.length + s.owesPublish.toNat

/-- Once `exitCh` is closed the handler comes to no further offer. -/
theorem no_offer {s : State} {a : Act} (hex : s.exitClosed = true) (hg : guard s a = true)
    (ho : (next continuous s a).handler = .offerOk) : s.handler = .offerOk := by
  cases a with
  | pass => simp [guard, hex] at hg
  | checkTag c todo k =>
    simp only [next] at ho
    split at ho <;> cases ho
  | checked c => cases c <;> cases ho
  | deliver t => cases ho
  | exitTop => cases ho
  | sendOk => cases ho
  | sendOkTimeout => cases ho
  | exitRecv => cases ho
  | waitNext todo k => cases ho
  | waitDone k todo => cases ho
  | waitTimeout k todo => cases ho
  | waited => cases ho
  | closeDone => cases ho
  | _ => exact ho

/-- A token in the buffer was there before, or the handler has just put it in. -/
theorem ok_from {s : State} {a : Act} (hg : guard s a = true)
    (hok : (next continuous s a).publishOkCh = true) :
    s.publishOkCh = true ∨ s.handler = .offerOk := by
  cases a with
  | gotOk => exact absurd hok nofun
  | sendOk =>
    simp only [guard, Bool.and_eq_true, decide_eq_true_eq] at hg
    exact Or.inr hg.1
  | checkTag c todo k =>
    simp only [next] at hok
    split at hok <;> exact Or.inl hok
  | checked c => cases c <;> exact Or.inl hok
  | _ => exact Or.inl hok

/-- `publish` comes to its publish with an OK only. -/
theorem publishing_from {s : State} {a : Act} (hg : guard s a = true)
    (hp : (next continuous s a).publish = .publishing) :
    s.publish = .publishing ∨ s.publishOkCh = true := by
  cases a with
  | gotOk =>
    simp only [guard, Bool.and_eq_true, decide_eq_true_eq] at hg
    exact Or.inr hg.2
  | pauseOver => cases continuous <;> cases hp
  | checkTag c todo k =>
    simp only [next] at hp
    split at hp <;> exact Or.inl hp
  | checked c => cases c <;> exact Or.inl hp
  | connect => cases hp
  | okDone => cases hp
  | publishMsg t => cases hp
  | deliver t => cases hp
  | deliverDone t => cases hp
  | pauseDone => cases hp
  | closeExit => cases hp
  | stopDone => cases hp
  | stopTimeout => cases hp
  | _ => exact Or.inl hp

variable (continuous) in
/-- The publish that was owed is not owed again: its OK is used up. -/
theorem publish_settles {s : State} {t : ℕ} (hcr : s.Credit)
    (hg : guard s (.publishMsg t) = true) :
    s.owesPublish = true ∧ (next continuous s (.publishMsg t)).owesPublish = false := by
  simp only [guard, Bool.and_eq_true, decide_eq_true_eq] at hg
  have hbusy : s.publish.busy = true := by rw [hg.1.1]; rfl
  have hoffer : s.handler ≠ .offerOk := fun hh => by
    have hidle := (hcr.settling (by rw [hh]; rfl)).2
    cases hidle.symm.trans hbusy
  exact ⟨by simp [State.owesPublish, hg.1.1],
    by simp [State.owesPublish, next, hcr.taken hbusy, hoffer]⟩

variable (continuous) in
theorem published_next (s : State) (a : Act) :
    (∃ t, a = .publishMsg t) ∨ (next continuous s a).published = s.published := by
  cases a with
  | publishMsg t => exact Or.inl ⟨t, rfl⟩
  | checkTag c todo k => right; simp only [next]; split <;> rfl
  | checked c => cases c <;> exact Or.inr rfl
  | _ => exact Or.inr rfl

variable (continuous) in
/-- After the exit request no step raises the budget. -/
theorem budget_step {s : State} {a : Act} (hcr : s.Credit) (hex : s.exitClosed = true)
    (hg : guard s a = true) : (next continuous s a).budget ≤ s.budget := by
  rcases published_next continuous s a with ⟨t, rfl⟩ | hsame
  · obtain ⟨howed, hpaid⟩ := publish_settles continuous hcr hg
    have hlen : (next continuous s (.publishMsg t)).published.length = s.published.length + 1 :=
      List.length_append
    simp only [State.budget, howed, hpaid, hlen, Bool.toNat_true, Bool.toNat_false]
    omega
  · have howes : (next continuous s a).owesPublish = true → s.owesPublish = true := by
      simp only [State.owesPublish, Bool.or_eq_true, decide_eq_true_eq]
      rintro ((hok | hp) | ho)
      · exact (ok_from hg hok).imp_left Or.inl
      · exact Or.inl (publishing_from hg hp).symm
      · exact Or.inr (no_offer hex hg ho)
    simp only [State.budget, hsame]
    exact Nat.add_le_add_left (Bool.toNat_le_toNat howes) _

/-! ### Never stuck -/

/-- A step of one of the two loops, the warning of line 96 apart. -/
def Act.advances : Act → Bool
  | .stillWaiting => false
  | .mainReturn _ => false
  | .sigint => false
  | .sigClose => false
  | .ack _ => false
  | .nack _ => false
  | .connLoss => false
  | _ => true

theorem finished_from {s : State} {a : Act} (hf : (next continuous s a).handler = .finished) :
    s.handler = .finished ∨ a = .closeDone := by
  cases a with
  | closeDone => exact Or.inr rfl
  | pass => simp only [next] at hf; split at hf <;> cases hf
  | checkTag c todo k => simp only [next] at hf; split at hf <;> cases hf
  | checked c => cases c <;> cases hf
  | deliver t => cases hf
  | exitTop => cases hf
  | sendOk => cases hf
  | sendOkTimeout => cases hf
  | exitRecv => cases hf
  | waitNext todo k => cases hf
  | waitDone k todo => cases hf
  | waitTimeout k todo => cases hf
  | waited => cases hf
  | _ => exact Or.inl hf

/-- A handler that is finished has closed `confirmsDoneCh`. -/
theorem finished_done : ∀ s, (publisher continuous).Reach C s →
    s.handler = .finished → s.confirmsDoneCh = true :=
  invariant nofun fun s a h _ hf => (confirmsDoneCh_next s a).mpr ((finished_from hf).imp_left h)

/-- After the exit request every program point of the handler but the last has a step. -/
theorem handler_advances {s : State} (hex : s.exitClosed = true) (hf : s.handler ≠ .finished) :
    ∃ a, guard s a = true ∧ a.advances = true := by
  cases hh : s.handler with
  | top => exact ⟨.exitTop, by simp [guard, hh, hex], rfl⟩
  | offerOk => exact ⟨.sendOkTimeout, by simp [guard, hh], rfl⟩
  | recv => exact ⟨.exitRecv, by simp [guard, hh, hex], rfl⟩
  | check c todo =>
    rcases todo.eq_empty_or_nonempty with rfl | ⟨k, hk⟩
    · exact ⟨.checked c, by simp [guard, hh], rfl⟩
    · exact ⟨.checkTag c todo k, by simp [guard, hh, hk], rfl⟩
  | wait todo =>
    rcases todo.eq_empty_or_nonempty with rfl | ⟨k, hk⟩
    · exact ⟨.waited, by simp [guard, hh], rfl⟩
    · exact ⟨.waitNext todo k, by simp [guard, hh, hk], rfl⟩
  | waitTag k todo => exact ⟨.waitTimeout k todo, by simp [guard, hh], rfl⟩
  | closing => exact ⟨.closeDone, by simp [guard, hh], rfl⟩
  | finished => exact absurd hh hf

/-- With `confirmsDoneCh` closed every program point of `publish` before its return has a step: the
    publish call goes through while the connection is up. -/
theorem publish_advances {s : State} (hdone : s.confirmsDoneCh = true)
    (hr : s.publish.isReturned = false) : ∃ a, guard s a = true ∧ a.advances = true := by
  cases hp : s.publish with
  | connecting => exact ⟨.connect, by simp [guard, hp], rfl⟩
  | awaitOk => exact ⟨.okDone, by simp [guard, hp, hdone], rfl⟩
  | publishing =>
    cases hconn : s.connected with
    | true =>
      have hfresh : ∀ u ∈ s.published, u < s.published.sum + 1 := fun u hu =>
        Nat.lt_succ_of_le (List.le_sum_of_mem hu)
      exact ⟨.publishMsg (s.published.sum + 1), by simpa [guard, hp, hconn] using hfresh, rfl⟩
    | false => exact ⟨.publishErr, by simp [guard, hp], rfl⟩
  | handOver t => exact ⟨.deliverDone t, by simp [guard, hp, hdone], rfl⟩
  | pause => exact ⟨.pauseDone, by simp [guard, hp, hdone], rfl⟩
  | initiateStop => exact ⟨.closeExit, by simp [guard, hp], rfl⟩
  | stopping => exact ⟨.stopDone, by simp [guard, hp, hdone], rfl⟩
  | returned o => rw [hp] at hr; cases hr

/-- From the exit request in `s` to `t` at most one message was published, and while the program
    runs and `publish` has not returned, one of the two loops has a step. -/
structure Stops (s t : State) : Prop where
  published : t.published.length ≤ s.published.length + 1
  advances : t.process = .running → t.publish.isReturned = false →
    ∃ a, enabled t a = true ∧ a.advances = true

/-- CORRECT: after `exitCh` was closed every run publishes at most once more and never gets stuck
    before `publish` has returned. -/
theorem exit_stops (s t : State) (h : (publisher continuous).Reach Machine.Any s)
    (hex : s.exitClosed = true) (hst : (publisher continuous).Steps Machine.Any s t) :
    Stops s t := by
  have hrun : (publisher continuous).Reach Machine.Any t ∧ t.exitClosed = true ∧
      t.budget ≤ s.budget := by
    refine Machine.Steps.inv (m := publisher continuous) (I := fun u =>
      (publisher continuous).Reach Machine.Any u ∧ u.exitClosed = true ∧ u.budget ≤ s.budget)
      ?_ hst ⟨h, hex, le_refl _⟩
    rintro u a ⟨hu, hux, hb⟩ he -
    have hbudget := budget_step continuous (credit u hu) hux (enabled_iff.mp he).2
    exact ⟨Machine.Steps.snoc hu a he trivial, exitClosed_stays a hux, hbudget.trans hb⟩
  obtain ⟨ht, htx, hbudget⟩ := hrun
  refine ⟨?_, fun hproc hr => ?_⟩
  · have howed : s.owesPublish.toNat ≤ 1 := Bool.toNat_le _
    simp only [State.budget] at hbudget
    omega
  · obtain ⟨a, hg, ha⟩ : ∃ a, guard t a = true ∧ a.advances = true := by
      by_cases hf : t.handler = .finished
      · exact publish_advances (finished_done t ht hf) hr
      · exact handler_advances htx hf
    exact ⟨a, enabled_iff.mpr ⟨hproc, hg⟩, ha⟩

/-- SIGINT while an OK is in the buffer. -/
def exitWithOk : List Act := [.connect, .pass, .sendOk, .sigint, .sigClose]

/-- The handler leaves its loop; `publish` takes the OK and publishes. -/
def lastPublish : List Act := [.exitRecv, .gotOk, .publishMsg 1]

theorem exit_stops_last : ∃ s t, s.published = [] ∧ t.published = [1] ∧ Stops s t := by
  obtain ⟨s, hs, hex, hp, t, ht, hpt⟩ := Machine.reach_any_of_run (m := publisher true)
    (P := fun s => s.exitClosed = true ∧ s.published = [] ∧
      ∃ t ∈ (publisher true).run s lastPublish, t.published = [1]) exitWithOk (by decide)
  exact ⟨s, t, hp, hpt,
    exit_stops s t hs hex (Machine.steps_of_run ht (Machine.meets_any lastPublish s))⟩

end RabbitmqCluster.Publisher
