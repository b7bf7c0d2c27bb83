import RabbitmqCluster.Clients.PublisherFlow
import RabbitmqCluster.Clients.PublisherStop
import RabbitmqCluster.Schemes.Potential

/-! @src clients/go/publisher.go | scheme:potential | family:termination

    Does the program end? Once `exitCh` is closed every step that the program takes itself, the
    warning of line 96 apart, brings `publish` or the handler closer to its end, whatever the broker
    does: at most 56 of them are left, and one is always possible (`exit_ends`). The one step that
    leads away from the end, past the top of the handler's loop, is not taken any more.

        steps left:  publish  8 ─▶ ... ─▶ 1 returned      handler  46 ─▶ ... ─▶ 0 finished -/

namespace RabbitmqCluster.Publisher

open RabbitmqCluster.Schemes

variable {continuous : Bool} {C : State → Act → Prop}

/-- A step of the program. The warning of line 96, each second that `publish` waits for the OK, is
    not counted: it changes nothing. -/
def Act.own : Act → Bool
  | .stillWaiting => false
  | .ack _ => false
  | .nack _ => false
  | .connLoss => false
  | _ => true

/-- A step of the program itself. -/
def Own (_ : State) (a : Act) : Prop := a.own = true

/-! ### After the exit request -/

/-- The OKs that `publish` can still get. -/
def State.tokens (s : State) : ℕ :=
  s.publishOkCh.toNat + (decide (s.handler = .offerOk)).toNat

/-- The steps that `publish` has left, with that many OKs. -/
def PublishPc.left (tokens : ℕ) : PublishPc → ℕ
  | .connecting => 4 + 4 * tokens
  | .awaitOk => 3 + 4 * tokens
  | .publishing => 6 + 4 * tokens
  | .handOver _ => 5 + 4 * tokens
  | .pause => 4 + 4 * tokens
  | .initiateStop => 3
  | .stopping => 2
  | .returned _ => 1

/-- The steps that the handler has left, with a map of that size. -/
def HandlerPc.left (size : ℕ) : HandlerPc → ℕ
  | .top => 4 + 3 * size
  | .offerOk => 11 + 4 * size
  | .recv => 10 + 4 * size
  | .check .loop todo => 5 + todo.card + 3 * size
  | .check .exit todo => 3 + todo.card + 2 * size
  | .wait todo => 2 + 2 * todo.card
  | .waitTag _ todo => 3 + 2 * todo.card
  | .closing => 1
  | .finished => 0

def SignalPc.left : SignalPc → ℕ
  | .waiting => 2
  | .caught => 1
  | .finished => 0

/-- The steps that the program has left once `exitCh` is closed. -/
def State.left (s : State) : ℕ :=
  if s.process = .running then
    s.publish.left s.tokens + s.handler.left s.confirms.card + s.signal.left
  else 0

theorem left_running {s : State} (h : s.process = .running) : s.left =
    s.publish.left s.tokens + s.handler.left s.confirms.card + s.signal.left := if_pos h

theorem PublishPc.left_pos (n : ℕ) (p : PublishPc) : 1 ≤ p.left n := by
  cases p <;> simp only [PublishPc.left] <;> omega

theorem PublishPc.left_mono {m n : ℕ} (h : m ≤ n) (p : PublishPc) : p.left m ≤ p.left n := by
  cases p <;> simp only [PublishPc.left] <;> omega

/-- `publish` moves nearer to its return; on its way to the next publish it takes an OK. -/
theorem PublishPc.Moves.left {p q : PublishPc} {done : Bool} {m n : ℕ}
    (h : p.Moves continuous done q) (hmn : m ≤ n) (htaken : q = .publishing → m + 1 ≤ n) :
    q.left m + 1 ≤ p.left n := by
  cases h with
  | admitted =>
    have hless := htaken rfl
    simp only [PublishPc.left]
    omega
  | seen _ hd hp =>
    cases p with
    | returned o => cases hp
    | _ => simp only [PublishPc.left]; omega
  | _ => simp only [PublishPc.left]; omega

/-- A step of `publish`, the warning of line 96 apart; the hand-over is counted at the handler. -/
def Act.ofPublish : Act → Bool
  | .connect => true
  | .connectFail => true
  | .gotOk => true
  | .okDone => true
  | .publishMsg _ => true
  | .publishErr => true
  | .deliverDone _ => true
  | .pauseDone => true
  | .pauseOver => true
  | .closeExit => true
  | .stopDone => true
  | .stopTimeout => true
  | .mainReturn _ => true
  | _ => false

def Act.ofSignal : Act → Bool
  | .sigint => true
  | .sigClose => true
  | _ => false

theorem own_of (a : Act) :
    a.own.toNat ≤ a.ofPublish.toNat + a.handlerAt.isSome.toNat + a.ofSignal.toNat := by
  cases a <;> simp [Act.own, Act.ofPublish, Act.handlerAt, Act.ofSignal]

variable (continuous) in
/-- The handler comes nearer to its end with every step but the one to the next OK. -/
theorem handler_left {s : State} {a : Act} (hg : guard s a = true) (ha : a ≠ .pass) :
    (next continuous s a).handler.left (next continuous s a).confirms.card +
      a.handlerAt.isSome.toNat ≤ s.handler.left s.confirms.card := by
  cases a with
  | pass => exact absurd rfl ha
  | deliver t =>
    simp only [guard, Bool.and_eq_true, decide_eq_true_eq] at hg
    have hcard := Finset.card_insert_le t s.confirms
    simp only [next, hg.2, HandlerPc.left, Act.handlerAt, Option.isSome_some, Bool.toNat_true]
    omega
  | exitTop =>
    simp only [guard, Bool.and_eq_true, decide_eq_true_eq] at hg
    simp only [next, State.exitHandler, hg.1, HandlerPc.left, Act.handlerAt, Option.isSome_some,
      Bool.toNat_true]
    omega
  | exitRecv =>
    simp only [guard, Bool.and_eq_true, decide_eq_true_eq] at hg
    simp only [next, State.exitHandler, hg.1, HandlerPc.left, Act.handlerAt, Option.isSome_some,
      Bool.toNat_true]
    omega
  | sendOk =>
    simp only [guard, Bool.and_eq_true, decide_eq_true_eq] at hg
    simp only [next, hg.1, HandlerPc.left, Act.handlerAt, Option.isSome_some, Bool.toNat_true]
    omega
  | sendOkTimeout =>
    simp only [guard, decide_eq_true_eq] at hg
    simp only [next, hg, HandlerPc.left, Act.handlerAt, Option.isSome_some, Bool.toNat_true]
    omega
  | checkTag c todo k =>
    simp only [guard, Bool.and_eq_true, decide_eq_true_eq] at hg
    have hcard := Finset.card_erase_add_one hg.2
    have hsize : (next continuous s (.checkTag c todo k)).confirms.card ≤ s.confirms.card := by
      simp only [next]
      split
      · exact Finset.card_erase_le
      · exact le_refl _
    have hpoint : (next continuous s (.checkTag c todo k)).handler = .check c (todo.erase k) := by
      simp only [next]
      split <;> rfl
    rw [hpoint, hg.1]
    cases c <;> simp only [HandlerPc.left, Act.handlerAt, Option.isSome_some, Bool.toNat_true] <;>
      omega
  | checked c =>
    simp only [guard, decide_eq_true_eq] at hg
    cases c <;> simp only [next, hg, HandlerPc.left, Act.handlerAt, Option.isSome_some,
      Bool.toNat_true, Finset.card_empty] <;> omega
  | waitNext todo k =>
    simp only [guard, Bool.and_eq_true, decide_eq_true_eq] at hg
    have hcard := Finset.card_erase_add_one hg.2
    simp only [next, hg.1, HandlerPc.left, Act.handlerAt, Option.isSome_some, Bool.toNat_true]
    omega
  | waitDone k todo =>
    simp only [guard, Bool.and_eq_true, decide_eq_true_eq] at hg
    simp only [next, hg.1, HandlerPc.left, Act.handlerAt, Option.isSome_some, Bool.toNat_true]
    omega
  | waitTimeout k todo =>
    simp only [guard, decide_eq_true_eq] at hg
    simp only [next, hg, HandlerPc.left, Act.handlerAt, Option.isSome_some, Bool.toNat_true]
    omega
  | waited =>
    simp only [guard, decide_eq_true_eq] at hg
    simp [next, hg, HandlerPc.left, Act.handlerAt]
  | closeDone =>
    simp only [guard, decide_eq_true_eq] at hg
    simp [next, hg, HandlerPc.left, Act.handlerAt]
  | _ => exact le_refl _

variable (continuous) in
/-- The handler comes to an offer from the top of its loop only. -/
theorem offer_stays {s : State} {a : Act} (ha : a ≠ .pass)
    (ho : (next continuous s a).handler = .offerOk) : s.handler = .offerOk := by
  cases a with
  | pass => exact absurd rfl ha
  | checkTag c todo k =>
    simp only [next] at ho
    split at ho <;> cases ho
  | checked c => cases c <;> cases ho
  | deliver t => cases ho
  | exitTop => cases ho
  | sendOk => cases ho
  | sendOkTimeout => cases ho
  | exitRecv => cases ho
  | waitNext todo k => cases ho
  | waitDone k todo => cases ho
  | waitTimeout k todo => cases ho
  | waited => cases ho
  | closeDone => cases ho
  | _ => exact ho

variable (continuous) in
/-- Only a handler that passes the top of its loop can add an OK. -/
theorem tokens_le {s : State} {a : Act} (hg : guard s a = true) (ha : a ≠ .pass) :
    (next continuous s a).tokens ≤ s.tokens := by
  have hoffer : (decide ((next continuous s a).handler = .offerOk)).toNat ≤
      (decide (s.handler = .offerOk)).toNat :=
    Bool.toNat_le_toNat fun hh => decide_eq_true (offer_stays continuous ha (of_decide_eq_true hh))
  by_cases hsend : a = .sendOk
  · subst hsend
    simp only [guard, Bool.and_eq_true, decide_eq_true_eq] at hg
    simp [State.tokens, next, hg.1]
  · have hok : (next continuous s a).publishOkCh.toNat ≤ s.publishOkCh.toNat := by
      cases a with
      | sendOk => exact absurd rfl hsend
      | gotOk => exact Nat.zero_le _
      | checkTag c todo k => simp only [next]; split <;> exact le_refl _
      | checked c => cases c <;> exact le_refl _
      | _ => exact le_refl _
    exact Nat.add_le_add hok hoffer

variable (continuous) in
theorem publish_changes {s : State} {a : Act} (hg : guard s a = true) (ha : a.ofPublish = true)
    (hrun : (next continuous s a).process = .running) :
    (next continuous s a).publish ≠ s.publish := by
  intro hsame
  cases a with
  | connectFail => cases hrun
  | publishErr => cases hrun
  | mainReturn o => cases hrun
  | pauseOver =>
    simp only [guard, decide_eq_true_eq] at hg
    rw [hg] at hsame
    cases continuous <;> cases hsame
  | _ =>
    -- a step of another party, or one from the program point in the guard to another one
    simp only [Act.ofPublish, Bool.false_eq_true] at ha <;>
    simp only [guard, Bool.and_eq_true, decide_eq_true_eq] at hg <;>
    simp [next, hg] at hsame

/-- A step of `publish` moves it, and the other steps leave it alone or move it as well. -/
theorem publish_steps {s : State} {a : Act} (hg : guard s a = true)
    (hrun : (next continuous s a).process = .running) :
    ((next continuous s a).publish = s.publish ∧ a.ofPublish = false) ∨
      s.publish.Moves continuous s.confirmsDoneCh (next continuous s a).publish := by
  refine (publish_moves continuous hg).imp_left fun hsame => ⟨hsame, ?_⟩
  by_contra ha
  exact publish_changes continuous hg (by simpa using ha) hrun hsame

/-- The OK with which `publish` comes to its publish is gone. -/
theorem token_taken {s : State} {a : Act} (hg : guard s a = true)
    (hfrom : s.publish ≠ .publishing) (hto : (next continuous s a).publish = .publishing) :
    (next continuous s a).tokens + 1 ≤ s.tokens := by
  cases a with
  | gotOk =>
    simp only [guard, Bool.and_eq_true, decide_eq_true_eq] at hg
    have hbefore : s.tokens = 1 + (decide (s.handler = .offerOk)).toNat := by
      rw [State.tokens, hg.2]
      rfl
    have hafter : (next continuous s .gotOk).tokens = (decide (s.handler = .offerOk)).toNat :=
      Nat.zero_add _
    omega
  | pauseOver => cases continuous <;> cases hto
  | checkTag c todo k =>
    simp only [next] at hto
    split at hto <;> exact absurd hto hfrom
  | checked c => cases c <;> exact absurd hto hfrom
  | connect => cases hto
  | okDone => cases hto
  | publishMsg t => cases hto
  | deliver t => cases hto
  | deliverDone t => cases hto
  | pauseDone => cases hto
  | closeExit => cases hto
  | stopDone => cases hto
  | stopTimeout => cases hto
  | _ => exact absurd hto hfrom

/-- `publish` comes nearer to its return with every step. -/
theorem publish_left {s : State} {a : Act} (hg : guard s a = true) (ha : a ≠ .pass)
    (hrun : (next continuous s a).process = .running) :
    (next continuous s a).publish.left (next continuous s a).tokens + a.ofPublish.toNat ≤
      s.publish.left s.tokens := by
  have htok := tokens_le continuous hg ha
  rcases publish_steps hg hrun with ⟨hsame, hother⟩ | hmove
  · rw [hsame, hother]
    exact PublishPc.left_mono htok _
  · have htaken : (next continuous s a).publish = .publishing →
        (next continuous s a).tokens + 1 ≤ s.tokens := by
      intro hto
      refine token_taken hg (fun hfrom => ?_) hto
      rw [hfrom, hto] at hmove
      cases hmove
    have hleft := hmove.left htok htaken
    have hone := Bool.toNat_le a.ofPublish
    omega

variable (continuous) in
theorem signal_left {s : State} {a : Act} (hg : guard s a = true) :
    (next continuous s a).signal.left + a.ofSignal.toNat ≤ s.signal.left := by
  cases a with
  | sigint =>
    simp only [guard, decide_eq_true_eq] at hg
    simp [next, hg, SignalPc.left, Act.ofSignal]
  | sigClose =>
    simp only [guard, decide_eq_true_eq] at hg
    simp [next, hg, SignalPc.left, Act.ofSignal]
  | checkTag c todo k => simp only [next]; split <;> exact le_refl _
  | checked c => cases c <;> exact le_refl _
  | _ => exact le_refl _

variable (continuous) in
/-- Every step of the program leaves it fewer steps, the one to the next OK apart, and no step of
    the broker leaves it more. -/
theorem left_step {s : State} {a : Act} (he : enabled s a = true) (ha : a ≠ .pass) :
    (next continuous s a).left + a.own.toNat ≤ s.left := by
  obtain ⟨hproc, hg⟩ := enabled_iff.mp he
  rw [left_running hproc]
  by_cases hrun : (next continuous s a).process = .running
  · have hpublish := publish_left hg ha hrun
    have hhandler := handler_left continuous hg ha
    have hsignal := signal_left continuous hg
    have hown := own_of a
    rw [left_running hrun]
    omega
  · have hpos := s.publish.left_pos s.tokens
    have hone := Bool.toNat_le a.own
    rw [State.left, if_neg hrun]
    omega

/-- After the exit request the handler does not pass the top of its loop. -/
theorem no_pass {s : State} {a : Act} (hex : s.exitClosed = true) (he : enabled s a = true) :
    a ≠ .pass := by
  rintro rfl
  have hg := (enabled_iff.mp he).2
  simp [guard, hex] at hg

/-- There is one OK at a time, and none while `publish` makes use of one. -/
theorem tokens_bound {s : State} (h : s.Credit) :
    s.tokens + s.publish.busy.toNat ≤ 1 := by
  unfold State.tokens
  by_cases ho : s.handler = .offerOk
  · obtain ⟨hok, hidle⟩ := h.settling (by rw [ho]; rfl)
    simp [ho, hok, hidle]
  · cases hb : s.publish.busy with
    | true => simp [ho, h.taken hb]
    | false =>
      have hone := Bool.toNat_le s.publishOkCh
      simpa [ho] using hone

/-- What is left once `exitCh` is closed, in any reachable state. -/
theorem left_bound (s : State) (h : (publisher continuous).Reach C s) : s.left ≤ 56 := by
  by_cases hrun : s.process = .running
  · have hcr := credit s h
    have hrg := ranges s h
    have hfit := map_le_nine s h.any
    have hsignal : s.signal.left ≤ 2 := by
      cases s.signal <;> decide
    have hpublish : s.publish.left s.tokens ≤ 8 := by
      have htok := tokens_bound hcr
      cases hp : s.publish with
      | publishing =>
        simp only [hp, PublishPc.busy, Bool.toNat_true] at htok
        simp only [PublishPc.left]
        omega
      | handOver t =>
        simp only [hp, PublishPc.busy, Bool.toNat_true] at htok
        simp only [PublishPc.left]
        omega
      | _ => simp only [PublishPc.left]; omega
    have hhandler : s.handler.left s.confirms.card ≤ 46 := by
      unfold Ranges at hrg
      cases hh : s.handler with
      | top => simp only [HandlerPc.left]; omega
      | offerOk =>
        have hroom := hcr.room hh
        simp only [threshold] at hroom
        simp only [HandlerPc.left]
        omega
      | recv => simp only [HandlerPc.left]; omega
      | check c todo =>
        rw [hh] at hrg
        have hcard := Finset.card_le_card hrg
        cases c <;> simp only [HandlerPc.left] <;> omega
      | wait todo =>
        rw [hh] at hrg
        have hcard := Finset.card_le_card hrg
        simp only [HandlerPc.left]
        omega
      | waitTag k todo =>
        rw [hh] at hrg
        have hcard := Finset.card_le_card (hrg.2.trans (Finset.erase_subset _ _))
        simp only [HandlerPc.left]
        omega
      | closing => simp [HandlerPc.left]
      | finished => simp [HandlerPc.left]
    rw [left_running hrun]
    omega
  · rw [State.left, if_neg hrun]
    exact Nat.zero_le _

/-- Before `publish` has returned one of the two loops has a step, and then `main` returns. -/
theorem own_possible {s : State} (h : (publisher continuous).Reach C s) (hex : s.exitClosed = true)
    (hrun : s.process = .running) : ∃ a, enabled s a = true ∧ a.own = true := by
  cases hr : s.publish.isReturned with
  | true =>
    cases hp : s.publish with
    | returned o => exact ⟨.mainReturn o, enabled_iff.mpr ⟨hrun, by simp [guard, hp]⟩, rfl⟩
    | _ => rw [hp] at hr; cases hr
  | false =>
    obtain ⟨a, hg, ha⟩ : ∃ a, guard s a = true ∧ a.advances = true := by
      by_cases hf : s.handler = .finished
      · exact publish_advances (finished_done s h hf) hr
      · exact handler_advances hex hf
    refine ⟨a, enabled_iff.mpr ⟨hrun, hg⟩, ?_⟩
    cases a <;> first | rfl | cases ha

/-- At most `n` steps of the program lie behind, its warnings not counted, and other steps than
    warnings lead it to its end. -/
structure Ends (continuous : Bool) (n : ℕ) (as : List Act) (t : State) : Prop where
  bounded : as.countP Act.own ≤ n
  ends : ∃ u, (publisher continuous).Steps Own t u ∧ u.process ≠ .running

theorem exit_pays (continuous : Bool) (C : State → Act → Prop) :
    (publisher continuous).Pays C
      (fun s => (publisher continuous).Reach Machine.Any s ∧ s.exitClosed = true) State.left
      fun a => a.own.toNat where
  keeps _ a hj he _ := ⟨Machine.Steps.snoc hj.1 a he trivial, exitClosed_stays a hj.2⟩
  step _ _ hj he _ := left_step continuous he (no_pass hj.2 he)

theorem exit_leads (t : State) (h : (publisher continuous).Reach Machine.Any t)
    (hex : t.exitClosed = true) :
    ∃ u, (publisher continuous).Steps Own t u ∧ u.process ≠ .running :=
  (exit_pays continuous Own).ends
    (fun u hu hgo => by
      obtain ⟨a, he, ha⟩ := own_possible hu.1 hu.2 (not_not.mp hgo)
      exact ⟨a, he, ha, ha⟩)
    _ t (le_refl _) ⟨h, hex⟩

end RabbitmqCluster.Publisher
