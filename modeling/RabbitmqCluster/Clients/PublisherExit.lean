import RabbitmqCluster.Clients.PublisherWindow

/-! @src clients/go/publisher.go | scheme:machine | family:exit

    Who closes `exitCh`. The signal goroutine closes it after SIGINT or SIGTERM, and `publish` in
    single-shot mode closes it when its 250 ms pause is over. Neither looks at the other, so a
    signal during the pause, or after the single-shot stop, closes it twice and the program panics
    (`double_close`). Only one of them acts when the signal is not received once the stop has begun
    and the stop does not begin once the signal was received; then it is closed once
    (`closes_once`). In continuous mode every run is like that (`continuous_oneCloser`). -/

namespace RabbitmqCluster.Publisher

open RabbitmqCluster.Schemes

variable {continuous : Bool} {C : State → Act → Prop}

/-- `close(exitCh)` ran at most once, and the program did not panic. -/
def ClosesOnce (s : State) : Prop := s.exitCloses ≤ 1 ∧ s.process ≠ .panicked

instance : DecidablePred ClosesOnce := fun s =>
  inferInstanceAs (Decidable (s.exitCloses ≤ 1 ∧ s.process ≠ .panicked))

/-- One publish in single-shot mode; SIGINT in the pause; the handler waits for tag 1 while the
    pause runs out. -/
def signalInPause : List Act :=
  [.connect, .pass, .sendOk, .gotOk, .publishMsg 1, .deliver 1, .checkTag .loop {1} 1,
    .checked .loop, .sigint, .sigClose, .exitTop, .checkTag .exit {1} 1, .checked .exit,
    .waitNext {1} 1, .pauseOver, .closeExit]

theorem double_close :
    ¬ ∀ continuous s, (publisher continuous).Reach Machine.Any s → ClosesOnce s := by
  intro hall
  obtain ⟨s, hs, hbad⟩ := Machine.reach_any_of_run (m := publisher false)
    (P := fun s => ¬ ClosesOnce s) signalInPause (by decide)
  exact hbad (hall false s hs)

/-- Only one of the two closers acts: the signal is received only before the single-shot stop has
    begun, and that stop begins only while no signal has been received. -/
def OneCloser (continuous : Bool) (s : State) : Act → Prop
  | .sigint => s.publish ≠ .initiateStop ∧ s.exitClosed = false
  | .pauseOver => continuous = true ∨ s.signal = .waiting
  | _ => True

instance (s : State) (a : Act) : Decidable (OneCloser continuous s a) := by
  rcases a <;> (dsimp only [OneCloser]; infer_instance)

/-- Which closer acted, by the program point of the signal goroutine. -/
def Closers (s : State) : Prop :=
  s.process ≠ .panicked ∧
  match s.signal with
  | .waiting =>
    s.exitCloses = 0 ∨ (s.exitCloses = 1 ∧ (s.publish = .stopping ∨ s.publish.isReturned = true))
  | .caught => s.exitCloses = 0 ∧ s.publish ≠ .initiateStop
  | .finished => s.exitCloses = 1 ∧ s.publish ≠ .initiateStop

theorem Closers.move {s s' : State} (h : Closers s) (hsig : s'.signal = s.signal)
    (hcl : s'.exitCloses = s.exitCloses) (hproc : s'.process ≠ .panicked)
    (hfrom : s.publish ≠ .stopping ∧ s.publish.isReturned = false ∨
      s'.publish.isReturned = true)
    (hto : s.signal = .waiting ∨ s'.publish ≠ .initiateStop) : Closers s' := by
  obtain ⟨-, hc⟩ := h
  refine ⟨hproc, ?_⟩
  rw [hsig, hcl]
  cases hs : s.signal with
  | waiting =>
    rw [hs] at hc
    rcases hc with hzero | ⟨hone, hstop⟩
    · exact Or.inl hzero
    · refine Or.inr ⟨hone, Or.inr ?_⟩
      rcases hfrom with ⟨hns, hnr⟩ | hret
      · rcases hstop with hst | hrt
        · exact absurd hst hns
        · exact absurd (hnr.symm.trans hrt) (by decide)
      · exact hret
  | caught =>
    rw [hs] at hc hto
    exact ⟨hc.1, hto.resolve_left (by decide)⟩
  | finished =>
    rw [hs] at hc hto
    exact ⟨hc.1, hto.resolve_left (by decide)⟩

theorem closers_step (s : State) (a : Act) (h : Closers s) (he : enabled s a = true)
    (hc : OneCloser continuous s a) : Closers (next continuous s a) := by
  obtain ⟨hrun, hg⟩ := enabled_iff.mp he
  have hproc : s.process ≠ .panicked := h.1
  cases a with
  | connect =>
    simp only [guard, decide_eq_true_eq] at hg
    refine h.move rfl rfl hproc (Or.inl ?_) (Or.inr (by rintro ⟨⟩))
    rw [hg]
    exact ⟨by rintro ⟨⟩, rfl⟩
  | connectFail => exact ⟨by rintro ⟨⟩, h.2⟩
  | gotOk =>
    simp only [guard, Bool.and_eq_true, decide_eq_true_eq] at hg
    refine h.move rfl rfl hproc (Or.inl ?_) (Or.inr (by rintro ⟨⟩))
    rw [hg.1]
    exact ⟨by rintro ⟨⟩, rfl⟩
  | okDone => exact h.move rfl rfl hproc (Or.inr rfl) (Or.inr (by rintro ⟨⟩))
  | publishMsg t =>
    simp only [guard, Bool.and_eq_true, decide_eq_true_eq] at hg
    refine h.move rfl rfl hproc (Or.inl ?_) (Or.inr (by rintro ⟨⟩))
    rw [hg.1.1]
    exact ⟨by rintro ⟨⟩, rfl⟩
  | publishErr => exact ⟨by rintro ⟨⟩, h.2⟩
  | deliver t =>
    simp only [guard, Bool.and_eq_true, decide_eq_true_eq] at hg
    refine h.move rfl rfl hproc (Or.inl ?_) (Or.inr (by rintro ⟨⟩))
    rw [hg.1]
    exact ⟨by rintro ⟨⟩, rfl⟩
  | deliverDone t => exact h.move rfl rfl hproc (Or.inr rfl) (Or.inr (by rintro ⟨⟩))
  | pauseDone => exact h.move rfl rfl hproc (Or.inr rfl) (Or.inr (by rintro ⟨⟩))
  | pauseOver =>
    simp only [guard, decide_eq_true_eq] at hg
    refine h.move rfl rfl hproc (Or.inl (by rw [hg]; exact ⟨by rintro ⟨⟩, rfl⟩)) ?_
    rcases hc with hcont | hwait
    · subst hcont; exact Or.inr (by rintro ⟨⟩)
    · exact Or.inl hwait
  | closeExit =>
    simp only [guard, decide_eq_true_eq] at hg
    obtain ⟨-, hsig⟩ := h
    rw [hg] at hsig
    -- at the single-shot stop the signal goroutine still waits, and nobody has closed
    have hzero : s.signal = .waiting ∧ s.exitCloses = 0 := by
      cases hs : s.signal with
      | waiting =>
        rw [hs] at hsig
        rcases hsig with hz | ⟨-, hst | hrt⟩
        · exact ⟨rfl, hz⟩
        · cases hst
        · cases hrt
      | caught => rw [hs] at hsig; exact absurd rfl hsig.2
      | finished => rw [hs] at hsig; exact absurd rfl hsig.2
    refine ⟨?_, ?_⟩
    · simp [next, State.closeExitCh, State.exitClosed, hzero.2, hproc]
    · simp [next, State.closeExitCh, hzero.1, hzero.2]
  | stopDone => exact h.move rfl rfl hproc (Or.inr rfl) (Or.inr (by rintro ⟨⟩))
  | stopTimeout => exact h.move rfl rfl hproc (Or.inr rfl) (Or.inr (by rintro ⟨⟩))
  | mainReturn o => exact ⟨by rintro ⟨⟩, h.2⟩
  | checkTag c todo k => simp only [next]; split <;> exact h
  | checked c => cases c <;> exact h
  | sigint =>
    simp only [guard, decide_eq_true_eq] at hg
    have hopen : s.exitCloses = 0 := by
      have hclosed := hc.2
      simp only [State.exitClosed, decide_eq_false_iff_not] at hclosed
      omega
    exact ⟨hproc, hopen, hc.1⟩
  | sigClose =>
    simp only [guard, decide_eq_true_eq] at hg
    obtain ⟨-, hsig⟩ := h
    rw [hg] at hsig
    refine ⟨?_, ?_⟩
    · simp [next, State.closeExitCh, State.exitClosed, hsig.1, hproc]
    · exact ⟨by simp only [next, State.closeExitCh, hsig.1], hsig.2⟩
  | _ => exact h

/-- CORRECT: when only one of the closers acts, `exitCh` is closed at most once in every run. -/
theorem closes_once (s : State)
    (h : (publisher continuous).Reach (OneCloser continuous) s) : ClosesOnce s := by
  have hc : Closers s :=
    Machine.inv (m := publisher continuous) (I := Closers) ⟨nofun, Or.inl rfl⟩
      (fun s a hs he hone => closers_step s a hs he hone) s h
  refine ⟨?_, hc.1⟩
  have hsig := hc.2
  cases hs : s.signal with
  | waiting => rw [hs] at hsig; rcases hsig with hz | ⟨hone, -⟩ <;> omega
  | caught => rw [hs] at hsig; rw [hsig.1]; exact Nat.zero_le 1
  | finished => rw [hs] at hsig; rw [hsig.1]

theorem signal_step (s : State) (a : Act) (hex : Exits true s)
    (h : s.exitClosed = true → s.signal = .finished) (hg : guard s a = true)
    (hclosed : (next true s a).exitClosed = true) : (next true s a).signal = .finished := by
  cases a with
  | closeExit =>
    have hstop := hex.single rfl
    rw [of_decide_eq_true hg] at hstop
    cases hstop
  | sigClose => rfl
  | sigint =>
    have hfin := h hclosed
    rw [of_decide_eq_true hg] at hfin
    cases hfin
  | checkTag c todo k =>
    simp only [next] at hclosed ⊢
    split at hclosed
    · next hack => rw [if_pos hack]; exact h hclosed
    · next hack => rw [if_neg hack]; exact h hclosed
  | checked c => cases c <;> exact h hclosed
  | _ => exact h hclosed

/-- In continuous mode nobody but the signal goroutine closes `exitCh`. -/
theorem closed_by_signal : ∀ s, (publisher true).Reach C s →
    s.exitClosed = true → s.signal = .finished :=
  Machine.inv_under exits (by rintro ⟨⟩) fun s a hex h he _ =>
    signal_step s a hex h (enabled_iff.mp he).2

/-- In continuous mode every step of every run meets the condition. -/
theorem continuous_oneCloser (s : State) (a : Act) (h : (publisher true).Reach C s)
    (he : enabled s a = true) : OneCloser true s a := by
  cases a with
  | sigint =>
    have hwaiting : s.signal = .waiting := of_decide_eq_true (enabled_iff.mp he).2
    refine ⟨fun hstop => ?_, Bool.eq_false_iff.mpr fun hclosed => ?_⟩
    · have hsingle := (exits s h).single rfl
      rw [hstop] at hsingle
      cases hsingle
    · have hfin := closed_by_signal s h hclosed
      rw [hwaiting] at hfin
      cases hfin
  | pauseOver => exact Or.inl rfl
  | _ => trivial

/-- A single-shot run that stops by itself. -/
def singleShot : List Act :=
  [.connect, .pass, .sendOk, .gotOk, .publishMsg 1, .deliver 1, .ack 1, .checkTag .loop {1} 1,
    .checked .loop, .pauseOver, .closeExit, .exitTop, .checked .exit, .waited, .closeDone,
    .stopDone]

theorem closes_once_single_shot :
    ∃ s, s.publish = .returned .allConfirmsSeen ∧ ClosesOnce s := by
  obtain ⟨s, hs, hp⟩ := Machine.reach_of_run (m := publisher false) (C := OneCloser false)
    (P := fun s => s.publish = .returned .allConfirmsSeen) singleShot (by decide)
  exact ⟨s, hp, closes_once s hs⟩

end RabbitmqCluster.Publisher
