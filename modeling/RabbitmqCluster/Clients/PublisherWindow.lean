import RabbitmqCluster.Clients.Publisher
import RabbitmqCluster.Schemes.Window
import Mathlib.Data.Finset.Basic

/-! @src clients/go/publisher.go | scheme:window | family:invariants

    What every run of the publisher keeps. The OK token, the publish it admits and the tag waiting
    to be handed over are the flight of a credit window whose out-tags are the map `confirms`
    (`simulates`), so the bound of the window is the bound of the map. The ledger says where each
    published tag is: held, in the map, or logged and removed. -/

namespace RabbitmqCluster.Publisher

open RabbitmqCluster.Schemes

variable {continuous : Bool} {C : State → Act → Prop}

theorem enabled_iff {s : State} {a : Act} :
    enabled s a = true ↔ s.process = .running ∧ guard s a = true := by
  simp [enabled]

/-- An invariant of the publisher is checked on the guard of each action. -/
theorem invariant {I : State → Prop} (hinit : I init)
    (hstep : ∀ s a, I s → guard s a = true → I (next continuous s a)) :
    ∀ s, (publisher continuous).Reach C s → I s :=
  Machine.inv hinit fun s a hs he _ => hstep s a hs (enabled_iff.mp he).2

theorem invariant_under {I J : State → Prop} (hJ : ∀ s, (publisher continuous).Reach C s → J s)
    (hinit : I init) (hstep : ∀ s a, J s → I s → guard s a = true → I (next continuous s a)) :
    ∀ s, (publisher continuous).Reach C s → I s :=
  Machine.inv_under hJ hinit fun s a hj hs he _ => hstep s a hj hs (enabled_iff.mp he).2

/-! ### The range loops -/

/-- A `range` visits keys that are still in the map: only the visit of a key deletes it. -/
def Ranges (s : State) : Prop :=
  match s.handler with
  | .check _ todo => todo ⊆ s.confirms
  | .wait todo => todo ⊆ s.confirms
  | .waitTag k todo => k ∈ s.confirms ∧ todo ⊆ s.confirms.erase k
  | _ => True

theorem ranges_step (s : State) (a : Act) (h : Ranges s) (hg : guard s a = true) :
    Ranges (next continuous s a) := by
  cases a with
  | deliver t => exact Finset.Subset.refl _
  | exitTop => exact Finset.Subset.refl _
  | exitRecv => exact Finset.Subset.refl _
  | pass =>
    unfold Ranges
    simp only [next]
    by_cases hroom : s.confirms.card ≤ threshold
    · rw [if_pos hroom]; trivial
    · rw [if_neg hroom]; trivial
  | checkTag c todo k =>
    simp only [guard, Bool.and_eq_true, decide_eq_true_eq] at hg
    have hsub : todo ⊆ s.confirms := by simpa only [Ranges, hg.1] using h
    simp only [next]
    split
    · exact Finset.erase_subset_erase k hsub
    · exact (Finset.erase_subset k todo).trans hsub
  | checked c =>
    cases c with
    | loop => trivial
    | exit => exact Finset.Subset.refl _
  | waitNext todo k =>
    simp only [guard, Bool.and_eq_true, decide_eq_true_eq] at hg
    have hsub : todo ⊆ s.confirms := by simpa only [Ranges, hg.1] using h
    exact ⟨hsub hg.2, Finset.erase_subset_erase k hsub⟩
  | waitDone k todo =>
    simp only [guard, Bool.and_eq_true, decide_eq_true_eq] at hg
    have hsub := h
    simp only [Ranges, hg.1] at hsub
    exact hsub.2
  | waitTimeout k todo =>
    simp only [guard, decide_eq_true_eq] at hg
    have hsub := h
    simp only [Ranges, hg] at hsub
    exact hsub.2.trans (Finset.erase_subset k _)
  | sendOk => trivial
  | sendOkTimeout => trivial
  | waited => trivial
  | closeDone => trivial
  | _ => exact h

theorem ranges : ∀ s, (publisher continuous).Reach C s → Ranges s :=
  invariant trivial ranges_step

/-! ### What a step can do -/

/-- `publish` has returned. -/
def PublishPc.isReturned : PublishPc → Bool
  | .returned _ => true
  | _ => false

/-- The control flow of `publish`; `done` tells whether `confirmsDoneCh` is closed. -/
inductive PublishPc.Moves (continuous done : Bool) : PublishPc → PublishPc → Prop
  | connected : Moves continuous done .connecting .awaitOk
  | admitted : Moves continuous done .awaitOk .publishing
  | published (t : ℕ) : Moves continuous done .publishing (.handOver t)
  | handedOver (t : ℕ) : Moves continuous done (.handOver t) .pause
  | again (h : continuous = true) : Moves continuous done .pause .awaitOk
  | stop (h : continuous = false) : Moves continuous done .pause .initiateStop
  | stopping : Moves continuous done .initiateStop .stopping
  | seen (p : PublishPc) (hd : done = true) (hp : p.isReturned = false) :
      Moves continuous done p (.returned .allConfirmsSeen)
  | gaveUp : Moves continuous done .stopping (.returned .maybeOutstanding)

variable (continuous) in
theorem publish_moves {s : State} {a : Act} (hg : guard s a = true) :
    (next continuous s a).publish = s.publish ∨
      s.publish.Moves continuous s.confirmsDoneCh (next continuous s a).publish := by
  cases a with
  | connect =>
    simp only [guard, decide_eq_true_eq] at hg
    rw [hg]; exact Or.inr .connected
  | gotOk =>
    simp only [guard, Bool.and_eq_true, decide_eq_true_eq] at hg
    rw [hg.1]; exact Or.inr .admitted
  | okDone =>
    simp only [guard, Bool.and_eq_true, decide_eq_true_eq] at hg
    exact Or.inr (.seen _ hg.2 (by rw [hg.1]; rfl))
  | publishMsg t =>
    simp only [guard, Bool.and_eq_true, decide_eq_true_eq] at hg
    rw [hg.1.1]; exact Or.inr (.published t)
  | deliver t =>
    simp only [guard, Bool.and_eq_true, decide_eq_true_eq] at hg
    rw [hg.1]; exact Or.inr (.handedOver t)
  | deliverDone t =>
    simp only [guard, Bool.and_eq_true, decide_eq_true_eq] at hg
    exact Or.inr (.seen _ hg.2 (by rw [hg.1]; rfl))
  | pauseDone =>
    simp only [guard, Bool.and_eq_true, decide_eq_true_eq] at hg
    exact Or.inr (.seen _ hg.2 (by rw [hg.1]; rfl))
  | pauseOver =>
    simp only [guard, decide_eq_true_eq] at hg
    rw [hg]
    cases continuous with
    | true => exact Or.inr (.again rfl)
    | false => exact Or.inr (.stop rfl)
  | closeExit =>
    simp only [guard, decide_eq_true_eq] at hg
    rw [hg]; exact Or.inr .stopping
  | stopDone =>
    simp only [guard, Bool.and_eq_true, decide_eq_true_eq] at hg
    exact Or.inr (.seen _ hg.2 (by rw [hg.1]; rfl))
  | stopTimeout =>
    simp only [guard, decide_eq_true_eq] at hg
    rw [hg]; exact Or.inr .gaveUp
  | checkTag c todo k => left; simp only [next]; split <;> rfl
  | checked c => cases c <;> exact Or.inl rfl
  | _ => exact Or.inl rfl

/-- The handler has not left its loop: it can still receive a confirmation. -/
def HandlerPc.inLoop : HandlerPc → Bool
  | .top => true
  | .offerOk => true
  | .recv => true
  | .check .loop _ => true
  | _ => false

/-- The program point of the handler at which the action is taken, if it is one of the handler. -/
def Act.handlerAt : Act → Option HandlerPc
  | .deliver _ => some .recv
  | .exitTop => some .top
  | .pass => some .top
  | .sendOk => some .offerOk
  | .sendOkTimeout => some .offerOk
  | .exitRecv => some .recv
  | .checkTag c todo _ => some (.check c todo)
  | .checked c => some (.check c ∅)
  | .waitNext todo _ => some (.wait todo)
  | .waitDone k todo => some (.waitTag k todo)
  | .waitTimeout k todo => some (.waitTag k todo)
  | .waited => some (.wait ∅)
  | .closeDone => some .closing
  | _ => none

variable (continuous) in
/-- RULE (handler): an action is taken at the handler's program point, or leaves the handler and its
    map alone. -/
theorem handler_cases {s : State} {a : Act} (hg : guard s a = true) :
    a.handlerAt = some s.handler ∨ ((next continuous s a).handler = s.handler ∧
      (next continuous s a).confirms = s.confirms) := by
  have hpoint : ∀ {p : HandlerPc}, decide (s.handler = p) = true → some p = some s.handler :=
    fun h => congrArg some (of_decide_eq_true h).symm
  have hand : ∀ {p : HandlerPc} {b : Bool}, (decide (s.handler = p) && b) = true →
      some p = some s.handler := fun h => hpoint (Bool.and_eq_true_iff.mp h).1
  cases a with
  | deliver t => exact Or.inl (hpoint (Bool.and_eq_true_iff.mp hg).2)
  | exitTop => exact Or.inl (hand hg)
  | pass => exact Or.inl (hand hg)
  | sendOk => exact Or.inl (hand hg)
  | sendOkTimeout => exact Or.inl (hpoint hg)
  | exitRecv => exact Or.inl (hand hg)
  | checkTag c todo k => exact Or.inl (hand hg)
  | checked c => exact Or.inl (hpoint hg)
  | waitNext todo k => exact Or.inl (hand hg)
  | waitDone k todo => exact Or.inl (hand hg)
  | waitTimeout k todo => exact Or.inl (hpoint hg)
  | waited => exact Or.inl (hpoint hg)
  | closeDone => exact Or.inl (hpoint hg)
  | _ => exact Or.inr ⟨rfl, rfl⟩

/-- The handler leaves its loop only through the exit branch of one of its selects. -/
theorem leaves_loop {s : State} {a : Act} (hg : guard s a = true)
    (hl : (next continuous s a).handler.inLoop = false) :
    s.handler.inLoop = false ∨
      s.exitClosed = true ∧ (a = .exitTop ∧ s.handler = .top ∨ a = .exitRecv) := by
  rcases handler_cases continuous hg with hat | ⟨hsame, -⟩
  · have hfrom : ∀ p ∈ a.handlerAt, s.handler = p := fun p hp =>
      Option.some.inj (hat.symm.trans hp)
    cases a with
    | exitTop =>
      simp only [guard, Bool.and_eq_true, decide_eq_true_eq] at hg
      exact Or.inr ⟨hg.2, Or.inl ⟨rfl, hg.1⟩⟩
    | exitRecv =>
      simp only [guard, Bool.and_eq_true, decide_eq_true_eq] at hg
      exact Or.inr ⟨hg.2, Or.inr rfl⟩
    | pass =>
      simp only [next] at hl
      split at hl <;> exact absurd hl nofun
    | checkTag c todo k =>
      cases c with
      | loop =>
        simp only [next] at hl
        split at hl <;> exact absurd hl nofun
      | exit => exact Or.inl (by rw [hfrom _ rfl]; rfl)
    | checked c =>
      cases c with
      | loop => exact absurd hl nofun
      | exit => exact Or.inl (by rw [hfrom _ rfl]; rfl)
    | waitNext todo k => exact Or.inl (by rw [hfrom _ rfl]; rfl)
    | waitDone k todo => exact Or.inl (by rw [hfrom _ rfl]; rfl)
    | waitTimeout k todo => exact Or.inl (by rw [hfrom _ rfl]; rfl)
    | waited => exact Or.inl (by rw [hfrom _ rfl]; rfl)
    | closeDone => exact Or.inl (by rw [hfrom _ rfl]; rfl)
    | deliver t => exact absurd hl nofun
    | sendOk => exact absurd hl nofun
    | sendOkTimeout => exact absurd hl nofun
    | _ => exact absurd hat nofun
  · exact Or.inl (hsame ▸ hl)

theorem finished_stays {s : State} {a : Act} (hg : guard s a = true)
    (hf : s.handler = .finished) : (next continuous s a).handler = .finished := by
  rcases handler_cases continuous hg with hat | ⟨hsame, -⟩
  · rw [hf] at hat
    cases a <;> exact absurd hat nofun
  · exact hsame.trans hf

/-- `confirmsDoneCh` is closed by the last statement of the handler. -/
theorem confirmsDoneCh_next (s : State) (a : Act) :
    (next continuous s a).confirmsDoneCh = true ↔ s.confirmsDoneCh = true ∨ a = .closeDone := by
  cases a with
  | closeDone => simp [next]
  | checkTag c todo k => simp only [next]; split <;> simp [State.confirm]
  | checked c => cases c <;> simp [next]
  | _ => simp [next, State.exitHandler, State.closeExitCh, State.confirm]

theorem exitClosed_stays {s : State} (a : Act) (h : s.exitClosed = true) :
    (next continuous s a).exitClosed = true := by
  simp only [State.exitClosed, decide_eq_true_eq] at h ⊢
  cases a with
  | closeExit => exact Nat.succ_pos _
  | sigClose => exact Nat.succ_pos _
  | checkTag c todo k => simp only [next]; split <;> exact h
  | checked c => cases c <;> exact h
  | _ => exact h

/-! ### The way out -/

/-- `publish` is in the single-shot stop, or came out of it without the confirms. -/
def PublishPc.stops : PublishPc → Bool
  | .initiateStop => true
  | .stopping => true
  | .returned .maybeOutstanding => true
  | _ => false

/-- The handler leaves its loop only for a closed `exitCh`; only its last statement closes
    `confirmsDoneCh`, and only then does `publish` say that all confirms were seen; in continuous
    mode `publish` never starts the stop itself. -/
structure Exits (continuous : Bool) (s : State) : Prop where
  left : s.handler.inLoop = false → s.exitClosed = true
  closed : s.confirmsDoneCh = true → s.handler = .finished
  seen : s.publish = .returned .allConfirmsSeen → s.confirmsDoneCh = true
  single : continuous = true → s.publish.stops = false

theorem exits_step (s : State) (a : Act) (h : Exits continuous s) (hg : guard s a = true) :
    Exits continuous (next continuous s a) := by
  refine ⟨fun hl => ?_, fun hd => ?_, fun hr => ?_, fun hc => ?_⟩
  · rcases leaves_loop hg hl with hleft | ⟨hex, -⟩
    · exact exitClosed_stays a (h.left hleft)
    · exact exitClosed_stays a hex
  · rcases (confirmsDoneCh_next s a).mp hd with hdone | rfl
    · exact finished_stays hg (h.closed hdone)
    · rfl
  · refine (confirmsDoneCh_next s a).mpr (Or.inl ?_)
    rcases publish_moves continuous hg with hsame | hmove
    · exact h.seen (hsame.symm.trans hr)
    · generalize s.publish = p at hmove
      rw [hr] at hmove
      cases hmove with
      | seen _ hd _ => exact hd
  · have hold := h.single hc
    rcases publish_moves continuous hg with hsame | hmove
    · rw [hsame]; exact hold
    · generalize s.publish = p at hmove hold
      generalize (next continuous s a).publish = p' at hmove ⊢
      cases hmove with
      | stop hs => exact absurd (hs.symm.trans hc) nofun
      | stopping => exact absurd hold nofun
      | gaveUp => exact absurd hold nofun
      | _ => rfl

theorem exits : ∀ s, (publisher continuous).Reach C s → Exits continuous s :=
  invariant ⟨nofun, nofun, nofun, fun _ => rfl⟩ exits_step

/-! ### The flight of one credit -/

/-- `publish` has taken the OK and not yet handed the confirmation over. -/
def PublishPc.busy : PublishPc → Bool
  | .publishing => true
  | .handOver _ => true
  | _ => false

/-- The tag that `publish` holds between the publish call and the send on `confirmsCh`. -/
def PublishPc.held : PublishPc → List ℕ
  | .handOver t => [t]
  | _ => []

/-- The handler is between its receive of a confirmation and its next OK. -/
def HandlerPc.settling : HandlerPc → Bool
  | .top => true
  | .offerOk => true
  | .check .loop _ => true
  | _ => false

/-- The OK, the publish it admits, or the tag to hand over. -/
def State.flight (s : State) : Window.Flight ℕ :=
  match s.publish with
  | .publishing => .credit
  | .handOver t => .held t
  | _ => if s.publishOkCh then .credit else .empty

/-- The window the publisher implements. -/
def State.window (s : State) : Window.State ℕ := ⟨s.flight, s.confirms⟩

theorem flight_idle {s : State} (h : s.publish.busy = false) :
    s.flight = if s.publishOkCh then .credit else .empty := by
  unfold State.flight
  split <;> simp_all [PublishPc.busy]

/-- The OK is in the buffer, or was taken, only while the handler waits for the confirmation it
    admits; and the handler offers it only with room in the map. The arguments are the two program
    points, the token in `publishOkCh` and the size of the map. -/
structure Credit (p : PublishPc) (h : HandlerPc) (ok : Bool) (size : ℕ) : Prop where
  settling : h.settling = true → ok = false ∧ p.busy = false
  taken : p.busy = true → ok = false
  room : h = .offerOk → size ≤ threshold

namespace Credit

variable {p p' : PublishPc} {h h' : HandlerPc} {ok : Bool} {size size' : ℕ}

/-- `publish` moves on without an OK. -/
theorem idle (c : Credit p h ok size) (hp : p'.busy = false) : Credit p' h ok size where
  settling hs := ⟨(c.settling hs).1, hp⟩
  taken hb := absurd (hp.symm.trans hb) (by decide)
  room := c.room

/-- The handler leaves for a program point where it owes nothing. -/
theorem leave (c : Credit p h ok size) (hs : h'.settling = false) : Credit p h' ok size' where
  settling ht := absurd (hs.symm.trans ht) (by decide)
  taken := c.taken
  room hh := by subst hh; exact absurd hs (by decide)

/-- The handler moves on between its receive and its next OK. -/
theorem settle (c : Credit p h ok size) (hs : h'.settling = h.settling)
    (hr : h' = .offerOk → size' ≤ threshold) : Credit p h' ok size' where
  settling ht := c.settling (hs ▸ ht)
  taken := c.taken
  room := hr

end Credit

/-- The credit discipline in a state. -/
def State.Credit (s : State) : Prop :=
  Publisher.Credit s.publish s.handler s.publishOkCh s.confirms.card

theorem credit_step (s : State) (a : Act) (h : s.Credit) (hg : guard s a = true) :
    (next continuous s a).Credit := by
  unfold State.Credit at h ⊢
  cases a with
  | connect => exact h.idle rfl
  | gotOk =>
    simp only [guard, Bool.and_eq_true, decide_eq_true_eq] at hg
    have hwait : s.handler.settling = true → False := fun hs => by
      have hempty := (h.settling hs).1
      rw [hg.2] at hempty
      exact absurd hempty (by decide)
    exact ⟨fun hs => (hwait hs).elim, fun _ => rfl, h.room⟩
  | okDone => exact h.idle rfl
  | publishMsg t =>
    simp only [guard, Bool.and_eq_true, decide_eq_true_eq] at hg
    have hbusy : s.publish.busy = true := by rw [hg.1.1]; rfl
    refine ⟨fun hs => ?_, fun _ => h.taken hbusy, h.room⟩
    have hidle := (h.settling hs).2
    rw [hbusy] at hidle
    exact absurd hidle (by decide)
  | deliver t =>
    simp only [guard, Bool.and_eq_true, decide_eq_true_eq] at hg
    exact ⟨fun _ => ⟨h.taken (by rw [hg.1]; rfl), rfl⟩, nofun, nofun⟩
  | deliverDone t => exact h.idle rfl
  | pauseDone => exact h.idle rfl
  | pauseOver => exact h.idle (by cases continuous <;> rfl)
  | closeExit => exact h.idle rfl
  | stopDone => exact h.idle rfl
  | stopTimeout => exact h.idle rfl
  | exitTop => exact h.leave rfl
  | exitRecv => exact h.leave rfl
  | pass =>
    simp only [guard, Bool.and_eq_true, decide_eq_true_eq] at hg
    simp only [next]
    by_cases hroom : s.confirms.card ≤ threshold
    · rw [if_pos hroom]; exact h.settle (by rw [hg.1]; rfl) fun _ => hroom
    · rw [if_neg hroom]; exact h.leave rfl
  | sendOk =>
    simp only [guard, Bool.and_eq_true, decide_eq_true_eq] at hg
    have hidle := (h.settling (by rw [hg.1]; rfl)).2
    exact ⟨nofun, fun hb => absurd (hidle.symm.trans hb) (by decide), nofun⟩
  | sendOkTimeout => exact h.leave rfl
  | checkTag c todo k =>
    simp only [guard, Bool.and_eq_true, decide_eq_true_eq] at hg
    have hsame : (HandlerPc.check c (todo.erase k)).settling = s.handler.settling := by
      rw [hg.1]; cases c <;> rfl
    simp only [next]
    split
    · exact h.settle hsame nofun
    · exact h.settle hsame nofun
  | checked c =>
    simp only [guard, decide_eq_true_eq] at hg
    cases c with
    | loop => exact h.settle (by rw [hg]; rfl) nofun
    | exit => exact h.leave rfl
  | waitNext todo k => exact h.leave rfl
  | waitDone k todo => exact h.leave rfl
  | waitTimeout k todo => exact h.leave rfl
  | waited => exact h.leave rfl
  | closeDone => exact h.leave rfl
  | _ => exact h

theorem credit : ∀ s, (publisher continuous).Reach C s → s.Credit :=
  invariant ⟨fun _ => ⟨rfl, rfl⟩, fun _ => rfl, nofun⟩ credit_step

/-! ### The window -/

theorem flight_eq {s s' : State} (h : s.publish.busy = false) (h' : s'.publish.busy = false)
    (hok : s'.publishOkCh = s.publishOkCh) : s'.flight = s.flight := by
  rw [flight_idle h, flight_idle h', hok]

/-- SCHEME (window): the publisher simulates the credit window with the threshold of the source. -/
theorem simulates :
    Machine.Simulation (publisher continuous) (Window.window ℕ threshold) State.Credit
      State.window where
  init := rfl
  step s a hc he := by
    obtain ⟨-, hg⟩ := enabled_iff.mp he
    -- a step that only moves `publish` between idle points leaves the window as it is
    have still : ∀ {s' : State}, s'.window = s.window →
        (Window.window ℕ threshold).Steps Machine.Any s.window s'.window := fun h => by
      rw [h]; exact Machine.Steps.refl _ _
    have move : ∀ {s' : State}, s.publish.busy = false → s'.publish.busy = false →
        s'.publishOkCh = s.publishOkCh → s'.confirms = s.confirms →
        (Window.window ℕ threshold).Steps Machine.Any s.window s'.window :=
      fun h h' hok hm => still (by simp only [State.window, flight_eq h h' hok, hm])
    have op : ∀ (o : Window.Op ℕ), Window.enabled threshold s.window o = true →
        (Window.window ℕ threshold).Steps Machine.Any s.window (Window.next s.window o) :=
      fun o ho => Machine.Steps.one o ho trivial
    change (Window.window ℕ threshold).Steps Machine.Any s.window (next continuous s a).window
    cases a with
    | connect =>
      simp only [guard, decide_eq_true_eq] at hg
      exact move (by rw [hg]; rfl) rfl rfl rfl
    | gotOk =>
      simp only [guard, Bool.and_eq_true, decide_eq_true_eq] at hg
      refine still ?_
      simp only [State.window, State.flight, next, hg.1, hg.2, if_true]
    | okDone =>
      simp only [guard, Bool.and_eq_true, decide_eq_true_eq] at hg
      exact move (by rw [hg.1]; rfl) rfl rfl rfl
    | publishMsg t =>
      simp only [guard, Bool.and_eq_true, decide_eq_true_eq] at hg
      exact op (.take t) (by simp [Window.enabled, State.window, State.flight, hg.1.1])
    | deliver t =>
      simp only [guard, Bool.and_eq_true, decide_eq_true_eq] at hg
      have htok : s.publishOkCh = false := hc.taken (by rw [hg.1]; rfl)
      have hstep := op (.enter t) (by simp [Window.enabled, State.window, State.flight, hg.1])
      have hwin : (next continuous s (.deliver t)).window = Window.next s.window (.enter t) := by
        simp [State.window, State.flight, next, Window.next, htok]
      rw [hwin]; exact hstep
    | deliverDone t =>
      simp only [guard, Bool.and_eq_true, decide_eq_true_eq] at hg
      have htok : s.publishOkCh = false := hc.taken (by rw [hg.1]; rfl)
      have hwin : (next continuous s (.deliverDone t)).window = Window.next s.window .lose := by
        simp [State.window, State.flight, next, Window.next, htok]
      rw [hwin]; exact op .lose rfl
    | pauseDone =>
      simp only [guard, Bool.and_eq_true, decide_eq_true_eq] at hg
      exact move (by rw [hg.1]; rfl) rfl rfl rfl
    | pauseOver =>
      simp only [guard, decide_eq_true_eq] at hg
      exact move (by rw [hg]; rfl) (by cases continuous <;> rfl) rfl rfl
    | closeExit =>
      simp only [guard, decide_eq_true_eq] at hg
      exact move (by rw [hg]; rfl) rfl rfl rfl
    | stopDone =>
      simp only [guard, Bool.and_eq_true, decide_eq_true_eq] at hg
      exact move (by rw [hg.1]; rfl) rfl rfl rfl
    | stopTimeout =>
      simp only [guard, decide_eq_true_eq] at hg
      exact move (by rw [hg]; rfl) rfl rfl rfl
    | sendOk =>
      simp only [guard, Bool.and_eq_true, decide_eq_true_eq] at hg
      obtain ⟨htok, hidle⟩ := hc.settling (by rw [hg.1]; rfl)
      have hroom := hc.room hg.1
      have hwin : (next continuous s .sendOk).window = Window.next s.window .grant := by
        simp only [State.window, Window.next, next]
        rw [flight_idle (by exact hidle)]; rfl
      rw [hwin]
      refine op .grant ?_
      simp [Window.enabled, State.window, flight_idle hidle, htok, hroom]
    | checkTag c todo k =>
      simp only [next]
      split
      · exact op (.release k) rfl
      · exact still rfl
    | checked c => cases c <;> exact still rfl
    | waitDone k todo => exact op (.release k) rfl
    | _ => exact still rfl

/-- The map and the flight fit the threshold and the one publish an OK admits. -/
theorem window_fits (s : State) (h : (publisher continuous).Reach Machine.Any s) :
    Window.Fits threshold s.window :=
  Window.bounded threshold _ (simulates.reach credit s h)

/-! ### The ledger of tags -/

/-- Where the published tags are. The arguments are the program point of `publish`, the tags
    published, entered and logged as confirmed, and the map. -/
structure Ledger (p : PublishPc) (published entered log : List ℕ) (confirms : Finset ℕ) :
    Prop where
  handed : p.isReturned = false → published = entered ++ p.held
  increasing : published.Pairwise (· < ·)
  once : entered.Nodup
  split : ∀ t, t ∈ entered ↔ t ∈ confirms ∨ t ∈ log
  apart : ∀ t ∈ confirms, t ∉ log
  logged : log.Nodup

namespace Ledger

variable {p p' : PublishPc} {published entered log : List ℕ} {confirms : Finset ℕ}

/-- `publish` moves on holding no tag. -/
theorem move (l : Ledger p published entered log confirms) (hr : p.isReturned = false)
    (hp : p.held = []) (hp' : p'.held = []) : Ledger p' published entered log confirms :=
  { l with handed := fun _ => by rw [l.handed hr, hp, hp'] }

theorem returned (l : Ledger p published entered log confirms) (o : Outcome) :
    Ledger (.returned o) published entered log confirms :=
  { l with handed := nofun }

/-- The publish call: the library's tag is above every earlier one. -/
theorem publishMsg (l : Ledger .publishing published entered log confirms) {t : ℕ}
    (hfresh : ∀ u ∈ published, u < t) :
    Ledger (.handOver t) (published ++ [t]) entered log confirms :=
  { l with
    handed := fun _ => by rw [l.handed rfl]; simp [PublishPc.held]
    increasing := by
      rw [List.pairwise_append]
      exact ⟨l.increasing, List.pairwise_singleton _ _, by simpa using hfresh⟩ }

/-- A held tag has never been entered. -/
theorem held_fresh {t : ℕ} (l : Ledger (.handOver t) published entered log confirms) :
    t ∉ entered := by
  have hsorted := l.increasing
  rw [l.handed rfl, PublishPc.held, List.pairwise_append] at hsorted
  exact fun ht => absurd (hsorted.2.2 t ht t (by simp)) (lt_irrefl t)

/-- The hand-over: line `confirms[dtag] = confirmation`. -/
theorem deliver {t : ℕ} (l : Ledger (.handOver t) published entered log confirms) :
    Ledger .pause published (entered ++ [t]) log (insert t confirms) where
  handed _ := by rw [l.handed rfl]; simp [PublishPc.held]
  increasing := l.increasing
  once := by
    rw [List.nodup_append]
    refine ⟨l.once, List.nodup_singleton t, fun a ha b hb => ?_⟩
    rw [List.mem_singleton] at hb
    exact fun hab => l.held_fresh (hb ▸ hab ▸ ha)
  split u := by
    rw [List.mem_append, List.mem_singleton, l.split u, Finset.mem_insert]
    tauto
  apart u hu := by
    rcases Finset.mem_insert.mp hu with rfl | hold
    · exact fun hlog => l.held_fresh ((l.split u).mpr (Or.inr hlog))
    · exact l.apart u hold
  logged := l.logged

/-- The log line and the `delete` for a key of the map. -/
theorem confirm (l : Ledger p published entered log confirms) {k : ℕ} (hk : k ∈ confirms) :
    Ledger p published entered (log ++ [k]) (confirms.erase k) where
  handed := l.handed
  increasing := l.increasing
  once := l.once
  split u := by
    rw [l.split u, List.mem_append, List.mem_singleton, Finset.mem_erase]
    by_cases huk : u = k
    · subst huk; simp [hk]
    · simp [huk]
  apart u hu := by
    rw [Finset.mem_erase] at hu
    rw [List.mem_append, List.mem_singleton]
    rintro (hlog | huk)
    · exact l.apart u hu.2 hlog
    · exact hu.1 huk
  logged := by
    rw [List.nodup_append]
    refine ⟨l.logged, List.nodup_singleton k, fun a ha b hb => ?_⟩
    rw [List.mem_singleton] at hb
    exact fun hab => l.apart k hk (hb ▸ hab ▸ ha)

end Ledger

/-- The ledger of a state. -/
def State.Ledger (s : State) : Prop :=
  Publisher.Ledger s.publish s.published s.entered s.confirmedLog s.confirms

theorem ledger_step (s : State) (a : Act) (hr : Ranges s) (h : s.Ledger)
    (hg : guard s a = true) : (next continuous s a).Ledger := by
  unfold State.Ledger at h ⊢
  cases a with
  | connect =>
    simp only [guard, decide_eq_true_eq] at hg
    rw [hg] at h
    exact h.move rfl rfl rfl
  | gotOk =>
    simp only [guard, Bool.and_eq_true, decide_eq_true_eq] at hg
    rw [hg.1] at h
    exact h.move rfl rfl rfl
  | okDone => exact h.returned _
  | publishMsg t =>
    simp only [guard, Bool.and_eq_true, decide_eq_true_eq, List.all_eq_true] at hg
    rw [hg.1.1] at h
    exact h.publishMsg hg.2
  | deliver t =>
    simp only [guard, Bool.and_eq_true, decide_eq_true_eq] at hg
    rw [hg.1] at h
    exact h.deliver
  | deliverDone t => exact h.returned _
  | pauseDone => exact h.returned _
  | pauseOver =>
    simp only [guard, decide_eq_true_eq] at hg
    rw [hg] at h
    exact h.move rfl rfl (by cases continuous <;> rfl)
  | closeExit =>
    simp only [guard, decide_eq_true_eq] at hg
    rw [hg] at h
    exact h.move rfl rfl rfl
  | stopDone => exact h.returned _
  | stopTimeout => exact h.returned _
  | checkTag c todo k =>
    simp only [guard, Bool.and_eq_true, decide_eq_true_eq] at hg
    simp only [Ranges, hg.1] at hr
    simp only [next]
    split
    · exact h.confirm (hr hg.2)
    · exact h
  | checked c => cases c <;> exact h
  | waitDone k todo =>
    simp only [guard, Bool.and_eq_true, decide_eq_true_eq] at hg
    simp only [Ranges, hg.1] at hr
    exact h.confirm hr.1
  | _ => exact h

theorem ledger : ∀ s, (publisher continuous).Reach C s → s.Ledger :=
  invariant_under ranges
    ⟨fun _ => rfl, List.Pairwise.nil, List.nodup_nil, by simp [init], by simp [init],
      List.nodup_nil⟩
    ledger_step

/-! ### Bounded window, exact tracking -/

/-- The tag is held, in the map or removed from it, and only one of the three. -/
def State.InOnePlace (s : State) (t : ℕ) : Prop :=
  (t ∈ s.publish.held ∧ t ∉ s.confirms ∧ t ∉ s.confirmedLog) ∨
  (t ∈ s.confirms ∧ t ∉ s.publish.held ∧ t ∉ s.confirmedLog) ∨
  (t ∈ s.confirmedLog ∧ t ∉ s.publish.held ∧ t ∉ s.confirms)

/-- Every tag is tracked: in one place, entered once and never over another entry, one held at a
    time, nine not yet removed at most. -/
structure Tracked (s : State) : Prop where
  place : ∀ t ∈ s.published, s.InOnePlace t
  known : ∀ t, t ∈ s.publish.held ∨ t ∈ s.confirms ∨ t ∈ s.confirmedLog → t ∈ s.published
  once : s.entered.Nodup
  fresh : ∀ t ∈ s.publish.held, t ∉ s.entered ∧ t ∉ s.confirms
  single : s.publish.held.length ≤ 1
  window : s.publish.held.length + s.confirms.card ≤ 9

theorem held_length_le (s : State) : s.publish.held.length ≤ s.flight.size := by
  unfold State.flight
  split <;> simp_all [PublishPc.held, Window.Flight.size]

/-- CORRECT: as long as `publish` has not returned, every run tracks every published tag. -/
theorem tags_tracked (s : State) (h : (publisher continuous).Reach Machine.Any s)
    (hr : s.publish.isReturned = false) : Tracked s := by
  have l := ledger s h
  have hfresh : ∀ t ∈ s.publish.held, t ∉ s.entered := by
    intro t ht
    cases hp : s.publish with
    | handOver u =>
      rw [hp, PublishPc.held, List.mem_singleton] at ht
      subst ht
      unfold State.Ledger at l
      rw [hp] at l
      exact l.held_fresh
    | _ => rw [hp] at ht; exact absurd ht (by simp [PublishPc.held])
  have hout : ∀ t ∈ s.publish.held, t ∉ s.confirms ∧ t ∉ s.confirmedLog := fun t ht =>
    ⟨fun hc => hfresh t ht ((l.split t).mpr (Or.inl hc)),
      fun hl => hfresh t ht ((l.split t).mpr (Or.inr hl))⟩
  refine ⟨?_, ?_, l.once, fun t ht => ⟨hfresh t ht, (hout t ht).1⟩, ?_, ?_⟩
  · intro t ht
    rw [l.handed hr, List.mem_append] at ht
    rcases ht with hent | hheld
    · rcases (l.split t).mp hent with hc | hl
      · exact Or.inr (Or.inl ⟨hc, fun hh => (hout t hh).1 hc, l.apart t hc⟩)
      · exact Or.inr (Or.inr ⟨hl, fun hh => (hout t hh).2 hl, fun hc => l.apart t hc hl⟩)
    · exact Or.inl ⟨hheld, hout t hheld⟩
  · rintro t (hh | hrest)
    · rw [l.handed hr]; exact List.mem_append_right _ hh
    · rw [l.handed hr]; exact List.mem_append_left _ ((l.split t).mpr hrest)
  · have hlen := held_length_le s
    have hsize : s.flight.size ≤ 1 := by cases s.flight <;> simp [Window.Flight.size]
    omega
  · have hfits := window_fits s h
    have hlen := held_length_le s
    simp only [Window.Fits, State.window, threshold] at hfits
    omega

/-- Two publishes: tag 1 in the map, tag 2 held. -/
def twoPublished : List Act :=
  [.connect, .pass, .sendOk, .gotOk, .publishMsg 1, .deliver 1, .checkTag .loop {1} 1,
    .checked .loop, .pass, .sendOk, .pauseOver, .gotOk, .publishMsg 2]

theorem tags_tracked_two : ∃ s, s.publish.held = [2] ∧ s.confirms = {1} ∧ Tracked s := by
  obtain ⟨s, hs, hh, hc⟩ := Machine.reach_any_of_run (m := publisher true)
    (P := fun s => s.publish.held = [2] ∧ s.confirms = {1}) twoPublished (by decide)
  refine ⟨s, hh, hc, tags_tracked s hs ?_⟩
  cases hp : s.publish with
  | returned o => rw [hp] at hh; exact absurd hh (by simp [PublishPc.held])
  | _ => rfl

end RabbitmqCluster.Publisher
