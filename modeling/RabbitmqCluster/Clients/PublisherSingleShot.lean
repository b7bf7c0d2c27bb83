import RabbitmqCluster.Clients.PublisherEnds
import RabbitmqCluster.Clients.PublisherSettled

/-! @src clients/go/publisher.go | scheme:potential | family:termination

    The single-shot mode. `publish` hands one confirmation over, so the handler passes the top of
    its loop at most twice, and each pass is worth a bounded number of steps: a whole run has at
    most 36 steps of the program itself, the warning of line 96 apart, and from every state of it
    such steps lead to the end (`single_shot_ends`).

        offers left:  2 ─ pass ─▶ 1 ─ hand-over ─▶ 1 ─ pass ─▶ 0 ─▶ exit -/

namespace RabbitmqCluster.Publisher

open RabbitmqCluster.Schemes

variable {C : State → Act → Prop}

/-- `publish` has not published yet. -/
def PublishPc.before : PublishPc → Bool
  | .connecting => true
  | .awaitOk => true
  | .publishing => true
  | _ => false

/-- At most one message is published, and none before the publish. -/
structure OneShot (s : State) : Prop where
  before : s.publish.before = true → s.published = []
  once : s.published.length ≤ 1

theorem oneShot : ∀ s, (publisher false).Reach C s → OneShot s := by
  refine invariant ⟨fun _ => rfl, Nat.zero_le _⟩ fun s a h hg => ?_
  have hkeep : (next false s a).published = s.published → OneShot (next false s a) := by
    intro hsame
    refine ⟨fun hb => ?_, hsame ▸ h.once⟩
    rw [hsame]
    refine h.before ?_
    rcases publish_moves false hg with hstay | hmove
    · rw [← hstay]
      exact hb
    · generalize s.publish = p at hmove ⊢
      generalize (next false s a).publish = q at hmove hb
      cases hmove with
      | connected => rfl
      | admitted => rfl
      | again hc => cases hc
      | _ => cases hb
  rcases published_next false s a with ⟨t, rfl⟩ | hsame
  · simp only [guard, Bool.and_eq_true, decide_eq_true_eq] at hg
    have hnone := h.before (by rw [hg.1.1]; rfl)
    refine ⟨by rintro ⟨⟩, ?_⟩
    simp [next, hnone]
  · exact hkeep hsame

/-- The handler does not take the timer of line 177, beside which the send is ready. -/
def OkSent (_ : State) (a : Act) : Prop := a ≠ .sendOkTimeout

instance (s : State) (a : Act) : Decidable (OkSent s a) :=
  inferInstanceAs (Decidable (a ≠ .sendOkTimeout))

/-- A handler that waits for the confirmation has given its OK. -/
def Offered (s : State) : Prop :=
  s.handler = .recv → s.publish = .connecting ∨ s.publish = .awaitOk → s.publishOkCh = true

/-- Where nothing was published the map is empty. -/
theorem confirms_empty {s : State} (l : s.Ledger) (hr : s.publish.isReturned = false)
    (hp : s.published = []) : s.confirms = ∅ := by
  have hall := l.handed hr
  rw [hp] at hall
  have hnone : s.entered = [] := (List.append_eq_nil_iff.mp hall.symm).1
  refine Finset.eq_empty_of_forall_notMem fun k hk => ?_
  have hent := (l.split k).mpr (Or.inl hk)
  rw [hnone] at hent
  exact absurd hent List.not_mem_nil

theorem offered_step {s : State} {a : Act} (hled : s.Ledger) (hone : OneShot s) (h : Offered s)
    (hg : guard s a = true) (hc : OkSent s a) : Offered (next false s a) := by
  cases a with
  | sendOkTimeout => exact absurd rfl hc
  | pass =>
    rintro hh (hp | hp)
    · have hp : s.publish = .connecting := hp
      have hempty := confirms_empty hled (by rw [hp]; rfl) (hone.before (by rw [hp]; rfl))
      simp [next, hempty] at hh
    · have hp : s.publish = .awaitOk := hp
      have hempty := confirms_empty hled (by rw [hp]; rfl) (hone.before (by rw [hp]; rfl))
      simp [next, hempty] at hh
  | sendOk => exact fun _ _ => rfl
  | gotOk => rintro - (hp | hp) <;> cases hp
  | connect =>
    simp only [guard, decide_eq_true_eq] at hg
    exact fun hh _ => h hh (Or.inl hg)
  | okDone => rintro - (hp | hp) <;> cases hp
  | publishMsg t => rintro - (hp | hp) <;> cases hp
  | deliver t => rintro ⟨⟩
  | deliverDone t => rintro - (hp | hp) <;> cases hp
  | pauseDone => rintro - (hp | hp) <;> cases hp
  | pauseOver => rintro - (hp | hp) <;> cases hp
  | closeExit => rintro - (hp | hp) <;> cases hp
  | stopDone => rintro - (hp | hp) <;> cases hp
  | stopTimeout => rintro - (hp | hp) <;> cases hp
  | checkTag c todo k =>
    intro hh
    simp only [next] at hh
    split at hh <;> cases hh
  | checked c => cases c <;> rintro ⟨⟩
  | exitTop => rintro ⟨⟩
  | exitRecv => rintro ⟨⟩
  | waitNext todo k => rintro ⟨⟩
  | waitDone k todo => rintro ⟨⟩
  | waitTimeout k todo => rintro ⟨⟩
  | waited => rintro ⟨⟩
  | closeDone => rintro ⟨⟩
  | _ => exact h

theorem offered : ∀ s, (publisher false).Reach OkSent s → Offered s :=
  Machine.inv_under (m := publisher false) (I := Offered)
    (fun s hs => And.intro (ledger s hs) (oneShot s hs)) nofun
    fun _ _ hj h he hc => offered_step hj.1 hj.2 h (enabled_iff.mp he).2 hc

/-- Until the exit request one of the two loops has a step. -/
theorem shot_possible {s : State} (h : (publisher false).Reach OkSent s)
    (hopen : s.exitClosed = false) (hrun : s.process = .running) :
    ∃ a, enabled s a = true ∧ (a.own = true ∧ OkSent s a) := by
  have hex := exits s h
  have hcr := credit s h
  have hloop : s.handler.inLoop = true := by
    by_contra hout
    have hclosed := hex.left (Bool.not_eq_true _ ▸ hout)
    cases hopen.symm.trans hclosed
  -- a check can go on whatever `publish` does
  have hcheck : ∀ todo, s.handler = .check .loop todo →
      ∃ a, guard s a = true ∧ (a.own = true ∧ OkSent s a) := by
    intro todo hh
    rcases todo.eq_empty_or_nonempty with rfl | ⟨k, hk⟩
    · exact ⟨.checked .loop, by simp [guard, hh], rfl, by rintro ⟨⟩⟩
    · exact ⟨.checkTag .loop todo k, by simp [guard, hh, hk], rfl, by rintro ⟨⟩⟩
  obtain ⟨a, hg, ha⟩ : ∃ a, guard s a = true ∧ (a.own = true ∧ OkSent s a) := by
    cases hp : s.publish with
    | connecting => exact ⟨.connect, by simp [guard, hp], rfl, by rintro ⟨⟩⟩
    | awaitOk =>
      cases hh : s.handler with
      | top => exact ⟨.pass, by simp [guard, hh, hopen], rfl, by rintro ⟨⟩⟩
      | offerOk =>
        have hempty := (hcr.settling (by rw [hh]; rfl)).1
        exact ⟨.sendOk, by simp [guard, hh, hempty], rfl, by rintro ⟨⟩⟩
      | recv =>
        have hok := offered s h hh (Or.inr hp)
        exact ⟨.gotOk, by simp [guard, hp, hok], rfl, by rintro ⟨⟩⟩
      | check c todo =>
        cases c with
        | loop => exact hcheck todo hh
        | exit => rw [hh] at hloop; cases hloop
      | _ => rw [hh] at hloop; cases hloop
    | publishing =>
      cases hconn : s.connected with
      | true =>
        have hfirst := (oneShot s h).before (by rw [hp]; rfl)
        exact ⟨.publishMsg 0, by simp [guard, hp, hconn, hfirst], rfl, by rintro ⟨⟩⟩
      | false => exact ⟨.publishErr, by simp [guard, hp], rfl, by rintro ⟨⟩⟩
    | handOver t =>
      have hbusy : s.publish.busy = true := by rw [hp]; rfl
      have hwaits : s.handler = .recv := by
        cases hh : s.handler with
        | recv => rfl
        | top => cases (hcr.settling (by rw [hh]; rfl)).2.symm.trans hbusy
        | offerOk => cases (hcr.settling (by rw [hh]; rfl)).2.symm.trans hbusy
        | check c todo =>
          cases c with
          | loop => cases (hcr.settling (by rw [hh]; rfl)).2.symm.trans hbusy
          | exit => rw [hh] at hloop; cases hloop
        | _ => rw [hh] at hloop; cases hloop
      exact ⟨.deliver t, by simp [guard, hp, hwaits], rfl, by rintro ⟨⟩⟩
    | pause => exact ⟨.pauseOver, by simp [guard, hp], rfl, by rintro ⟨⟩⟩
    | initiateStop => exact ⟨.closeExit, by simp [guard, hp], rfl, by rintro ⟨⟩⟩
    | stopping => exact ⟨.stopTimeout, by simp [guard, hp], rfl, by rintro ⟨⟩⟩
    | returned o => exact ⟨.mainReturn o, by simp [guard, hp], rfl, by rintro ⟨⟩⟩
  exact ⟨a, enabled_iff.mpr ⟨hrun, hg⟩, ha⟩

/-- The handler is on its way to its next offer. -/
def HandlerPc.turning : HandlerPc → Bool
  | .top => true
  | .check .loop _ => true
  | _ => false

/-- The offers to which the handler can still come: the one on its way, and the one after the
    hand-over. -/
def State.offers (s : State) : ℕ :=
  (s.publish.before || s.publish.busy).toNat + s.handler.turning.toNat

theorem offers_publish {s : State} {a : Act} (hg : guard s a = true) :
    ((next false s a).publish.before || (next false s a).publish.busy) = true →
      (s.publish.before || s.publish.busy) = true := by
  rcases publish_moves false hg with hsame | hmove
  · rw [hsame]
    exact id
  · generalize s.publish = p at hmove ⊢
    generalize (next false s a).publish = q at hmove ⊢
    cases hmove with
    | again hc => cases hc
    | _ => first | exact fun _ => rfl | rintro ⟨⟩

theorem offers_handler {s : State} {a : Act} (hg : guard s a = true) (ha : ∀ t, a ≠ .deliver t)
    (ht : (next false s a).handler.turning = true) : s.handler.turning = true := by
  cases a with
  | deliver t => exact absurd rfl (ha t)
  | pass =>
    simp only [next] at ht
    split at ht <;> cases ht
  | checkTag c todo k =>
    simp only [guard, Bool.and_eq_true, decide_eq_true_eq] at hg
    simp only [next] at ht
    rw [hg.1]
    cases c with
    | loop => rfl
    | exit => split at ht <;> cases ht
  | checked c =>
    simp only [guard, decide_eq_true_eq] at hg
    rw [hg]
    cases c with
    | loop => rfl
    | exit => cases ht
  | exitTop => cases ht
  | sendOk => cases ht
  | sendOkTimeout => cases ht
  | exitRecv => cases ht
  | waitNext todo k => cases ht
  | waitDone k todo => cases ht
  | waitTimeout k todo => cases ht
  | waited => cases ht
  | closeDone => cases ht
  | _ => exact ht

/-- Passing the top of the loop uses an offer up, and no step of a single shot adds one. -/
theorem offers_step {s : State} {a : Act} (hg : guard s a = true) :
    (next false s a).offers + (decide (a = .pass)).toNat ≤ s.offers := by
  have hpublish := Bool.toNat_le_toNat (offers_publish hg)
  cases a with
  | deliver t =>
    -- the hand-over uses up one offer and sends the handler on its way to the other
    simp only [guard, Bool.and_eq_true, decide_eq_true_eq] at hg
    simp [State.offers, next, hg.1, hg.2, PublishPc.before, PublishPc.busy, HandlerPc.turning]
  | pass =>
    have hturned : (next false s .pass).handler.turning = false := by
      simp only [next]
      split <;> rfl
    simp only [guard, Bool.and_eq_true, decide_eq_true_eq] at hg
    rw [State.offers, State.offers, hturned, hg.1]
    exact Nat.add_le_add_right hpublish 1
  | _ =>
    have hsum : (next false s _).offers ≤ s.offers :=
      Nat.add_le_add hpublish (Bool.toNat_le_toNat (offers_handler hg (by rintro _ ⟨⟩)))
    exact hsum

/-- In a single shot the map holds one tag at most. -/
theorem map_le_one {s : State} (h : (publisher false).Reach C s) : s.confirms.card ≤ 1 := by
  have hsub : s.confirms ⊆ s.published.toFinset := fun k hk =>
    List.mem_toFinset.mpr
      (entered_published s h k (((ledger s h).split k).mpr (Or.inl hk)))
  have hcard := Finset.card_le_card hsub
  have hlen := List.toFinset_card_le s.published
  have hone := (oneShot s h).once
  omega

theorem PublishPc.left_succ (n : ℕ) (p : PublishPc) : p.left (n + 1) ≤ p.left n + 4 := by
  cases p <;> simp only [PublishPc.left] <;> omega

/-- To pass the top of its loop costs the handler what the OK is good for. -/
theorem pass_left {s : State} (he : enabled s .pass = true) (hcr : s.Credit)
    (hone : s.confirms.card ≤ 1) : (next false s .pass).left + 1 ≤ s.left + 13 := by
  obtain ⟨hproc, hg⟩ := enabled_iff.mp he
  simp only [guard, Bool.and_eq_true, decide_eq_true_eq] at hg
  have hempty := (hcr.settling (by rw [hg.1]; rfl)).1
  have hroom : s.confirms.card ≤ threshold := hone.trans (by decide)
  have hmore : s.publish.left 1 ≤ s.publish.left 0 + 4 := s.publish.left_succ 0
  have hbefore : s.tokens = 0 := by simp [State.tokens, hempty, hg.1]
  have hafter : (next false s .pass).tokens = 1 := by
    simp [State.tokens, next, hempty, hroom]
  have hrun : (next false s .pass).process = .running := hproc
  rw [left_running hproc, left_running hrun, hbefore, hafter]
  simp only [next, if_pos hroom, hg.1, HandlerPc.left]
  omega

theorem shot_pays {D : State → Act → Prop} (hCD : ∀ s a, C s a → D s a) :
    (publisher false).Pays C ((publisher false).Reach D) (fun s => s.left + 13 * s.offers)
      fun a => a.own.toNat where
  keeps _ a hj he hc := Machine.Steps.snoc hj a he (hCD _ _ hc)
  step s a hj he _ := by
    have hoffers := offers_step (enabled_iff.mp he).2
    show (next false s a).left + 13 * (next false s a).offers + a.own.toNat ≤ _
    by_cases ha : a = .pass
    · subst ha
      have hleft := pass_left he (credit s hj) (map_le_one hj)
      simp only [decide_true, Bool.toNat_true] at hoffers
      simp only [Act.own, Bool.toNat_true]
      omega
    · have hleft := left_step false he ha
      omega

/-- Steps of the program lead it to its exit request, if it does not end before. -/
theorem shot_exits (t : State) (h : (publisher false).Reach OkSent t) :
    ∃ u, (publisher false).Steps (fun s a => a.own = true ∧ OkSent s a) t u ∧
      (u.process ≠ .running ∨ u.exitClosed = true) :=
  (shot_pays fun _ _ hc => hc.2).ends
    (fun u hu hgo => by
      rw [not_or, not_not, Bool.not_eq_true] at hgo
      obtain ⟨a, he, ha⟩ := shot_possible hu hgo.2 hgo.1
      exact ⟨a, he, ha, ha.1⟩)
    _ t (le_refl _) h

/-- One message, acked before the handler looks at it, to the end of the program. -/
def wholeShot : List Act :=
  [.connect, .pass, .sendOk, .gotOk, .publishMsg 1, .deliver 1, .ack 1, .checkTag .loop {1} 1,
    .checked .loop, .pauseOver, .closeExit, .exitTop, .checked .exit, .waited, .closeDone,
    .stopDone, .mainReturn .allConfirmsSeen]

end RabbitmqCluster.Publisher
