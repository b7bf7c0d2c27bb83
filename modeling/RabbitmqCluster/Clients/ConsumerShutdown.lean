import RabbitmqCluster.Clients.Consumer

/-! @src clients/go/consumer.go | scheme:machine | family:shutdown

    The handshake on `done`. `handle` sends one value, and `main` without a lifetime receives it at
    line 44 before its own `Shutdown` asks for it again at line 133: after a server cancel that
    second receive blocks for ever (`second_receive`). The handshake is balanced when nobody else
    waits at a receive and the receive of line 44 happens only when no `Shutdown` can get past
    `conn.Close` any more (`handshake_balanced`); with a lifetime this is no restriction. -/

namespace RabbitmqCluster.Consumer

open RabbitmqCluster.Schemes

variable {lifetime : ℤ} {autoAck : Bool} {C : State → Act → Prop} {s : State}

/-- Steps of `handle` and the library that need nothing from outside. -/
def HandleSide : Act → Prop
  | .drop | .bodyEnd _ | .rangeEnd | .recv _ => True
  | _ => False

/-- Every step but an event from outside: no signal, no new delivery, no loss. -/
def Internal : Act → Prop
  | .push _ | .serverCancel | .channelLoss | .connLoss | .sigint => False
  | _ => True

/-- The value of `handle` was received, or the process has ended. -/
def Settled (s : State) : Prop := s.handle = .finished ∨ s.process ≠ .running

/-- The handshake on `done` is balanced while the process runs: nobody waits for a value that was
    received already, the value of `handle` is received unless the process ends, and `handle` can
    serve every `Shutdown` that got past `conn.Close`. -/
structure Balanced (lifetime : ℤ) (autoAck : Bool) (s : State) : Prop where
  value : s.handle = .finished → ∀ p, s.waiting p = false
  receiver : s.handle = .sending →
    ∃ t, (consumer lifetime autoAck).Steps (fun _ => Internal) s t ∧ Settled t
  returns : ∀ p, s.pc p = .waitHandle →
    ∃ t, (consumer lifetime autoAck).Steps (fun _ => HandleSide) s t ∧ t.pc p = .ok

/-- No lifetime; the queue is deleted, `main` receives at line 44 and shuts down. -/
def queueDeleted : List Act :=
  [.serverCancel, .rangeEnd, .recv .main, .cancel .main, .close .main]

theorem second_receive :
    ¬ ∀ lifetime autoAck s, (consumer lifetime autoAck).Reach Machine.Any s →
      s.process = .running → Balanced lifetime autoAck s := by
  intro hall
  obtain ⟨s, hs, hrun, hfin, hwait⟩ := Machine.reach_any_of_run (m := consumer 0 false)
    (P := fun s => s.process = .running ∧ s.handle = .finished ∧ s.waiting .main = true)
    queueDeleted (by decide)
  exact absurd (hwait.symm.trans ((hall 0 false s hs hrun).value hfin .main)) (by decide)

/-- `Shutdown` has got past `conn.Close`. -/
def Pc.past : Pc → Bool
  | .waitHandle | .ok => true
  | _ => false

/-- What holds in every run: a channel is open only on an open connection; only `main` waits at
    line 44; one `Shutdown` at most is past `conn.Close`, the connection is closed then, and it
    returns only after `handle` has finished. -/
structure Basic (s : State) : Prop where
  channel : s.channelOpen = true → s.connOpen = true
  signalPc : s.pc .signal ≠ .awaitDone
  past : ∀ p, (s.pc p).past = true → s.connOpen = false
  unique : ∀ p, (s.pc p).past = true → (s.pc p.other).past = false
  returned : ∀ p, s.pc p = .ok → s.handle = .finished

theorem basic_init : Basic (init lifetime) := by
  have hmain : ((init lifetime).pc .main).past = false := by
    simp only [init]; split <;> rfl
  refine ⟨fun _ => rfl, nofun, ?_, ?_, ?_⟩
  · rintro (_ | _) hp
    · exact absurd (hmain.symm.trans hp) nofun
    · exact absurd hp nofun
  · rintro (_ | _) hp
    · exact absurd (hmain.symm.trans hp) nofun
    · exact absurd hp nofun
  · rintro (_ | _) hp
    · rw [hp] at hmain; exact absurd hmain nofun
    · exact absurd hp nofun

/-- A party that does not get past `conn.Close` by moving keeps what always holds. -/
theorem Basic.goto (h : Basic s) {p : Party} {c : Pc} (hc : c ≠ .awaitDone)
    (hpast : c.past = true → (s.pc p).past = true) (hok : c = .ok → s.handle = .finished) :
    Basic (s.goto p c) := by
  have hp : ∀ q, ((s.goto p c).pc q).past = true → (s.pc q).past = true := by
    intro q hq
    rw [goto_pc] at hq
    split at hq
    · next heq => rw [heq]; exact hpast hq
    · exact hq
  refine ⟨h.channel, ?_, fun q hq => h.past q (hp q hq), ?_, ?_⟩
  · rw [goto_pc]
    split
    · exact hc
    · exact h.signalPc
  · intro q hq
    have hother := h.unique q (hp q hq)
    by_contra hne
    have hback := hp q.other (by simpa using hne)
    exact absurd (hother.symm.trans hback) nofun
  · intro q hq
    rw [goto_pc] at hq
    split at hq
    · exact hok hq
    · exact h.returned q hq

theorem Basic.callFails (h : Basic s) (p : Party) : Basic (s.callFails p) := by
  obtain ⟨hch, hsig, hpast, hun, hret⟩ := h.goto (p := p) (c := .failed) nofun nofun nofun
  exact ⟨hch, hsig, hpast, hun, hret⟩

theorem basic_step (a : Act) (h : Basic s) (he : enabled s a = true) :
    Basic (next autoAck s a) := by
  obtain ⟨-, hg⟩ := enabled_iff.mp he
  cases a with
  | push t => exact ⟨h.channel, h.signalPc, h.past, h.unique, h.returned⟩
  | drop => exact ⟨h.channel, h.signalPc, h.past, h.unique, h.returned⟩
  | serverCancel => exact ⟨h.channel, h.signalPc, h.past, h.unique, h.returned⟩
  | channelLoss => exact ⟨by rintro ⟨⟩, h.signalPc, h.past, h.unique, h.returned⟩
  | connLoss => exact ⟨by rintro ⟨⟩, h.signalPc, fun _ _ => rfl, h.unique, h.returned⟩
  | take t =>
    simp only [guard, Bool.and_eq_true, decide_eq_true_eq] at hg
    refine ⟨h.channel, h.signalPc, h.past, h.unique, fun p hp => ?_⟩
    cases hg.1.symm.trans (h.returned p hp)
  | bodyEnd t =>
    simp only [guard, decide_eq_true_eq] at hg
    have hret : ∀ p, s.pc p ≠ .ok := by
      intro p hp
      cases hg.symm.trans (h.returned p hp)
    simp only [next]
    split
    · exact ⟨h.channel, h.signalPc, h.past, h.unique, fun p hp => absurd hp (hret p)⟩
    · unfold State.ackCall
      split
      · exact ⟨h.channel, h.signalPc, h.past, h.unique, fun p hp => absurd hp (hret p)⟩
      · exact ⟨h.channel, h.signalPc, h.past, h.unique, fun p hp => absurd hp (hret p)⟩
  | rangeEnd =>
    simp only [guard, Bool.and_eq_true, decide_eq_true_eq] at hg
    refine ⟨h.channel, h.signalPc, h.past, h.unique, fun p hp => ?_⟩
    cases hg.1.1.symm.trans (h.returned p hp)
  | wake => exact h.goto (by rintro ⟨⟩) (by rintro ⟨⟩) (by rintro ⟨⟩)
  | sigint => exact h.goto (by rintro ⟨⟩) (by rintro ⟨⟩) (by rintro ⟨⟩)
  | recv p =>
    simp only [guard, State.waiting, Bool.and_eq_true, Bool.or_eq_true, decide_eq_true_eq] at hg
    have hfin : Basic { s with handle := .finished } :=
      ⟨h.channel, h.signalPc, h.past, h.unique, fun _ _ => rfl⟩
    rcases hg.2 with hawait | hwait
    · have hc : received (s.pc p) = .cancel := by rw [hawait]; rfl
      simp only [next, hc]
      exact hfin.goto (by rintro ⟨⟩) (by rintro ⟨⟩) (by rintro ⟨⟩)
    · have hc : received (s.pc p) = .ok := by rw [hwait]; rfl
      simp only [next, hc]
      exact hfin.goto (by rintro ⟨⟩) (fun _ => by simp only [hwait, Pc.past]) fun _ => rfl
  | cancel p =>
    simp only [next, State.cancelCall]
    split
    · obtain ⟨hch, hsig, hpast, hun, hret⟩ :=
        h.goto (p := p) (c := .close) (by rintro ⟨⟩) (by rintro ⟨⟩) (by rintro ⟨⟩)
      exact ⟨hch, hsig, hpast, hun, hret⟩
    · exact h.callFails p
  | close p =>
    simp only [next, State.closeCall]
    split
    · next hopen =>
      have hnone : ∀ q, (s.pc q).past = false := by
        intro q
        by_contra hq
        cases hopen.symm.trans (h.past q (by simpa using hq))
      refine ⟨by rintro ⟨⟩, ?_, fun _ _ => rfl, ?_, ?_⟩
      · show (s.goto p .waitHandle).pc .signal ≠ .awaitDone
        rw [goto_pc]
        split
        · rintro ⟨⟩
        · exact h.signalPc
      · intro q hq
        show ((s.goto p .waitHandle).pc q.other).past = false
        change ((s.goto p .waitHandle).pc q).past = true at hq
        rw [goto_pc] at hq ⊢
        split at hq
        · next heq => subst heq; rw [if_neg q.other_ne]; exact hnone _
        · cases (hnone q).symm.trans hq
      · intro q hq
        change (s.goto p .waitHandle).pc q = .ok at hq
        rw [goto_pc] at hq
        split at hq
        · cases hq
        · exact h.returned q hq
    · exact h.callFails p
  | fatal p => exact ⟨h.channel, h.signalPc, h.past, h.unique, h.returned⟩
  | exit p => exact ⟨h.channel, h.signalPc, h.past, h.unique, h.returned⟩

theorem basic (s : State) (h : (consumer lifetime autoAck).Reach C s) : Basic s :=
  Machine.inv (m := consumer lifetime autoAck) (I := Basic) basic_init
    (fun _ a hs he _ => basic_step a hs he) s h

/-- No caller can get past `conn.Close` any more. -/
def Sealed (s : State) : Prop :=
  s.connOpen = false ∨ (s.channelOpen = false ∧ ∀ p, s.pc p ≠ .close)

instance : DecidablePred Sealed := fun s =>
  inferInstanceAs (Decidable (s.connOpen = false ∨ (s.channelOpen = false ∧ ∀ p, s.pc p ≠ .close)))

/-- `main` receives at line 44 only when no `Shutdown` waits at line 133 or still can. -/
def LastWaiter (s : State) : Act → Prop
  | .recv p => s.pc p = .awaitDone → s.pc p.other ≠ .waitHandle ∧ Sealed s
  | _ => True

/-- The value is received only when the other party does not wait for it, and at line 44 only when
    no `Shutdown` can get past `conn.Close` any more. -/
def OneWaiter (s : State) : Act → Prop
  | .recv p => s.waiting p.other = false ∧ (s.pc p = .awaitDone → Sealed s)
  | _ => True

instance (s : State) (a : Act) : Decidable (OneWaiter s a) := by
  rcases a <;> (dsimp only [OneWaiter]; infer_instance)

theorem OneWaiter.last : ∀ s a, OneWaiter s a → LastWaiter s a
  | s, .recv p, ⟨hother, hseal⟩ => by
    refine fun hp => ⟨fun hwait => ?_, hseal hp⟩
    simp [State.waiting, hwait] at hother
  | _, .push _, _ | _, .drop, _ | _, .serverCancel, _ | _, .channelLoss, _ | _, .connLoss, _
  | _, .take _, _ | _, .bodyEnd _, _ | _, .rangeEnd, _ | _, .wake, _ | _, .sigint, _
  | _, .cancel _, _ | _, .close _, _ | _, .fatal _, _ | _, .exit _, _ => trivial

/-- After the value was received no `Shutdown` waits for it or will, and `main` waits for it only
    while the signal goroutine, which received it, is about to exit. -/
structure Served (s : State) : Prop where
  shutdown : ∀ p, s.pc p ≠ .waitHandle
  main : s.pc .main = .awaitDone → s.pc .signal = .ok
  closed : Sealed s

theorem Served.goto (h : Served s) {p : Party} {c : Pc} (hp : s.pc p ≠ .ok)
    (hc : c ≠ .waitHandle ∧ c ≠ .awaitDone ∧ c ≠ .close) : Served (s.goto p c) := by
  refine ⟨fun q => ?_, ?_, ?_⟩
  · rw [goto_pc]
    split
    · exact hc.1
    · exact h.shutdown q
  · intro hm
    rw [goto_pc] at hm ⊢
    split at hm
    · exact absurd hm hc.2.1
    · have hsig := h.main hm
      have hne : Party.signal ≠ p := fun heq => hp (heq ▸ hsig)
      rw [if_neg hne]
      exact hsig
  · rcases h.closed with hconn | ⟨hch, hclose⟩
    · exact Or.inl hconn
    · refine Or.inr ⟨hch, fun q => ?_⟩
      rw [goto_pc]
      split
      · exact hc.2.2
      · exact hclose q

theorem Served.callFails (h : Served s) {p : Party} (hp : s.pc p ≠ .ok) :
    Served (s.callFails p) := by
  obtain ⟨hshut, hmain, hclosed⟩ := h.goto (c := .failed) hp ⟨nofun, nofun, nofun⟩
  exact ⟨hshut, hmain, hclosed⟩

theorem served_recv {p : Party} (hb : Basic s) (hwait : s.waiting p = true)
    (hc : LastWaiter s (.recv p)) : Served (next autoAck s (.recv p)) := by
  rw [State.waiting, Bool.or_eq_true, decide_eq_true_eq, decide_eq_true_eq] at hwait
  simp only [next]
  rcases hwait with hawait | hw
  · obtain ⟨hother, hseal⟩ := hc hawait
    have hmain : p = .main := by
      cases p with
      | main => rfl
      | signal => exact absurd hawait hb.signalPc
    subst hmain
    rw [hawait]
    refine ⟨?_, fun hm => ?_, ?_⟩
    · rintro (_ | _)
      · rintro ⟨⟩
      · exact hother
    · cases hm
    · rcases hseal with hconn | ⟨hch, hclose⟩
      · exact Or.inl hconn
      · refine Or.inr ⟨hch, ?_⟩
        rintro (_ | _)
        · rintro ⟨⟩
        · exact hclose .signal
  · have hpast : (s.pc p).past = true := by rw [hw]; rfl
    have hun := hb.unique p hpast
    rw [hw]
    refine ⟨fun q => ?_, fun hm => ?_, Or.inl (hb.past p hpast)⟩
    · rcases p.eq_or_other q with rfl | rfl
      · intro hq
        cases (goto_pc_self s q .ok).symm.trans hq
      · intro hq
        change (s.goto p .ok).pc p.other = .waitHandle at hq
        rw [goto_pc, if_neg p.other_ne] at hq
        rw [hq] at hun
        cases hun
    · cases p with
      | main => cases hm
      | signal => rfl

theorem served_step (a : Act) (hb : Basic s) (h : s.handle = .finished → Served s)
    (he : enabled s a = true) (hc : LastWaiter s a) :
    (next autoAck s a).handle = .finished → Served (next autoAck s a) := by
  obtain ⟨-, hg⟩ := enabled_iff.mp he
  intro hfin
  cases a with
  | push t => obtain ⟨hs, hm, hcl⟩ := h hfin; exact ⟨hs, hm, hcl⟩
  | drop => obtain ⟨hs, hm, hcl⟩ := h hfin; exact ⟨hs, hm, hcl⟩
  | serverCancel => obtain ⟨hs, hm, hcl⟩ := h hfin; exact ⟨hs, hm, hcl⟩
  | channelLoss =>
    obtain ⟨hs, hm, hcl⟩ := h hfin
    exact ⟨hs, hm, hcl.imp id fun hclose => ⟨rfl, hclose.2⟩⟩
  | connLoss => obtain ⟨hs, hm, -⟩ := h hfin; exact ⟨hs, hm, Or.inl rfl⟩
  | take t => cases hfin
  | bodyEnd t => cases hfin
  | rangeEnd => cases hfin
  | wake =>
    simp only [guard, decide_eq_true_eq] at hg
    exact (h hfin).goto (by rw [hg]; rintro ⟨⟩) ⟨by rintro ⟨⟩, by rintro ⟨⟩, by rintro ⟨⟩⟩
  | sigint =>
    simp only [guard, decide_eq_true_eq] at hg
    exact (h hfin).goto (by rw [hg]; rintro ⟨⟩) ⟨by rintro ⟨⟩, by rintro ⟨⟩, by rintro ⟨⟩⟩
  | recv p =>
    simp only [guard, Bool.and_eq_true, decide_eq_true_eq] at hg
    exact served_recv hb hg.2 hc
  | cancel p =>
    simp only [guard, decide_eq_true_eq] at hg
    simp only [next, State.cancelCall] at hfin ⊢
    split at hfin
    · next hopen =>
      rcases (h hfin).closed with hconn | ⟨hch, -⟩
      · cases hconn.symm.trans (hb.channel hopen)
      · cases hch.symm.trans hopen
    · next hch =>
      rw [if_neg hch]
      exact (h hfin).callFails (by rw [hg]; rintro ⟨⟩)
  | close p =>
    simp only [guard, decide_eq_true_eq] at hg
    simp only [next, State.closeCall] at hfin ⊢
    split at hfin
    · next hopen =>
      rcases (h hfin).closed with hconn | ⟨-, hclose⟩
      · cases hconn.symm.trans hopen
      · exact absurd hg (hclose p)
    · next hconn =>
      rw [if_neg hconn]
      exact (h hfin).callFails (by rw [hg]; rintro ⟨⟩)
  | fatal p => obtain ⟨hs, hm, hcl⟩ := h hfin; exact ⟨hs, hm, hcl⟩
  | exit p => obtain ⟨hs, hm, hcl⟩ := h hfin; exact ⟨hs, hm, hcl⟩

theorem served (s : State) (h : (consumer lifetime autoAck).Reach LastWaiter s) :
    s.handle = .finished → Served s :=
  Machine.inv_under (m := consumer lifetime autoAck) basic (I := fun s =>
    s.handle = .finished → Served s) nofun
    (fun _ a hb hs he hc => served_step a hb hs he hc) s h

section Paths

variable (lifetime : ℤ) (autoAck : Bool)

/-- `handle` at its send serves a `Shutdown` that waits for it. -/
theorem returns_sending {p : Party} (hrun : s.process = .running) (hs : s.handle = .sending)
    (hp : s.pc p = .waitHandle) :
    ∃ t, (consumer lifetime autoAck).Steps (fun _ => HandleSide) s t ∧ t.pc p = .ok ∧
      t.process = .running := by
  refine ⟨next autoAck s (.recv p), step_one (.recv p) hrun ?_ trivial, ?_, hrun⟩
  · simp [guard, State.waiting, hs, hp]
  · show (s.goto p (received (s.pc p))).pc p = .ok
    rw [goto_pc_self, hp]; rfl

/-- `handle` in its loop: the library drops what is buffered and ends the deliveries. -/
theorem returns_range {p : Party} (hrun : s.process = .running) (hch : s.channelOpen = false)
    (hs : s.handle = .range) (hp : s.pc p = .waitHandle) :
    ∃ t, (consumer lifetime autoAck).Steps (fun _ => HandleSide) s t ∧ t.pc p = .ok ∧
      t.process = .running := by
  have hdrop : (consumer lifetime autoAck).Steps (fun _ => HandleSide) s
      (next autoAck s .drop) := step_one .drop hrun (by simp [guard, hch]) trivial
  have hend : (consumer lifetime autoAck).Steps (fun _ => HandleSide) (next autoAck s .drop)
      (next autoAck (next autoAck s .drop) .rangeEnd) :=
    step_one .rangeEnd hrun (by simp [guard, next, hs, State.deliveriesEnded, hch]) trivial
  obtain ⟨t, ht, hok⟩ := returns_sending lifetime autoAck
    (s := next autoAck (next autoAck s .drop) .rangeEnd) hrun rfl hp
  exact ⟨t, (hdrop.trans hend).trans ht, hok⟩

/-- A `Shutdown` past `conn.Close` returns by steps of `handle` and the library alone. -/
theorem shutdown_returns {p : Party} (hrun : s.process = .running)
    (hch : s.channelOpen = false) (hfin : s.handle ≠ .finished) (hp : s.pc p = .waitHandle) :
    ∃ t, (consumer lifetime autoAck).Steps (fun _ => HandleSide) s t ∧ t.pc p = .ok ∧
      t.process = .running := by
  cases hs : s.handle with
  | range => exact returns_range lifetime autoAck hrun hch hs hp
  | body k =>
    obtain ⟨hpc, hproc, -, hchan, -⟩ := view_eq.mp (bodyEnd_view autoAck s k)
    have hbody : (consumer lifetime autoAck).Steps (fun _ => HandleSide) s
        (next autoAck s (.bodyEnd k)) := step_one (.bodyEnd k) hrun (by simp [guard, hs]) trivial
    obtain ⟨t, ht, hok⟩ := returns_range lifetime autoAck (s := next autoAck s (.bodyEnd k))
      (hproc.trans hrun) (hchan.trans hch) rfl
      ((congrFun hpc p).trans hp)
    exact ⟨t, hbody.trans ht, hok⟩
  | sending => exact returns_sending lifetime autoAck hrun hs hp
  | finished => exact absurd hs hfin

/-- `main` after a failed call ends the process. -/
theorem main_fails (hrun : s.process = .running) (hp : s.pc .main = .failed) :
    ∃ t, (consumer lifetime autoAck).Steps (fun _ => Internal) s t ∧ Settled t :=
  ⟨next autoAck s (.fatal .main), step_one (.fatal .main) hrun (by simp [guard, hp]) trivial,
    Or.inr nofun⟩

theorem main_receives (hrun : s.process = .running) (hs : s.handle = .sending)
    (hp : s.waiting .main = true) :
    ∃ t, (consumer lifetime autoAck).Steps (fun _ => Internal) s t ∧ Settled t :=
  ⟨next autoAck s (.recv .main),
    step_one (.recv .main) hrun (by simp [guard, hs, hp]) trivial, Or.inl rfl⟩

theorem main_closes (hrun : s.process = .running) (hs : s.handle = .sending)
    (hp : s.pc .main = .close) :
    ∃ t, (consumer lifetime autoAck).Steps (fun _ => Internal) s t ∧ Settled t := by
  have hstep : (consumer lifetime autoAck).Steps (fun _ => Internal) s (s.closeCall .main) :=
    step_one (.close .main) hrun (by simp [guard, hp]) trivial
  cases hopen : s.connOpen with
  | true =>
    rw [State.closeCall, if_pos hopen] at hstep
    obtain ⟨t, ht, hset⟩ := main_receives lifetime autoAck (s := { s.goto .main .waitHandle with
        connOpen := false, channelOpen := false, closes := s.closes + 1 }) hrun hs rfl
    exact ⟨t, hstep.trans ht, hset⟩
  | false =>
    rw [State.closeCall, if_neg (by simp [hopen])] at hstep
    obtain ⟨t, ht, hset⟩ := main_fails lifetime autoAck (s := s.callFails .main) hrun rfl
    exact ⟨t, hstep.trans ht, hset⟩

theorem main_cancels (hrun : s.process = .running) (hs : s.handle = .sending)
    (hp : s.pc .main = .cancel) :
    ∃ t, (consumer lifetime autoAck).Steps (fun _ => Internal) s t ∧ Settled t := by
  have hstep : (consumer lifetime autoAck).Steps (fun _ => Internal) s (s.cancelCall .main) :=
    step_one (.cancel .main) hrun (by simp [guard, hp]) trivial
  cases hopen : s.channelOpen with
  | true =>
    rw [State.cancelCall, if_pos hopen] at hstep
    obtain ⟨t, ht, hset⟩ := main_closes lifetime autoAck (s := { s.goto .main .close with
        consuming := false, cancels := s.cancels + 1 }) hrun hs rfl
    exact ⟨t, hstep.trans ht, hset⟩
  | false =>
    rw [State.cancelCall, if_neg (by simp [hopen])] at hstep
    obtain ⟨t, ht, hset⟩ := main_fails lifetime autoAck (s := s.callFails .main) hrun rfl
    exact ⟨t, hstep.trans ht, hset⟩

/-- While `handle` offers its value, `main` gets to a receive or ends the process. -/
theorem send_settles (hb : Basic s) (hrun : s.process = .running) (hs : s.handle = .sending) :
    ∃ t, (consumer lifetime autoAck).Steps (fun _ => Internal) s t ∧ Settled t := by
  cases hp : s.pc .main with
  | idle =>
    have hwake : (consumer lifetime autoAck).Steps (fun _ => Internal) s (s.goto .main .cancel) :=
      step_one .wake hrun (by simp [guard, hp]) trivial
    obtain ⟨t, ht, hset⟩ := main_cancels lifetime autoAck (s := s.goto .main .cancel) hrun hs rfl
    exact ⟨t, hwake.trans ht, hset⟩
  | awaitDone => exact main_receives lifetime autoAck hrun hs (by simp [State.waiting, hp])
  | cancel => exact main_cancels lifetime autoAck hrun hs hp
  | close => exact main_closes lifetime autoAck hrun hs hp
  | waitHandle => exact main_receives lifetime autoAck hrun hs (by simp [State.waiting, hp])
  | ok => exact nomatch hs.symm.trans (hb.returned .main hp)
  | failed => exact main_fails lifetime autoAck hrun hp

end Paths

/-- Under the weaker condition already every `Shutdown` past `conn.Close` can return. -/
theorem every_shutdown_returns {p : Party}
    (h : (consumer lifetime autoAck).Reach LastWaiter s) (hrun : s.process = .running)
    (hp : s.pc p = .waitHandle) :
    ∃ t, (consumer lifetime autoAck).Steps (fun _ => HandleSide) s t ∧ t.pc p = .ok ∧
      t.process = .running := by
  have hb : Basic s := basic s h
  have hch : s.channelOpen = false := by
    by_contra hopen
    have hpast : (s.pc p).past = true := by rw [hp]; rfl
    exact nomatch (hb.past p hpast).symm.trans (hb.channel (by simpa using hopen))
  exact shutdown_returns lifetime autoAck hrun hch (fun hfin => (served s h hfin).shutdown p hp) hp

theorem goto_back {p q : Party} {c : Pc} (hc : c ≠ .awaitDone)
    (h : (s.goto p c).pc q = .awaitDone) : s.pc q = .awaitDone ∧ q ≠ p := by
  rw [goto_pc] at h
  split at h
  · exact absurd h hc
  · next hne => exact ⟨h, hne⟩

/-- Nobody comes to line 44 by a step, and who stays there is not the one that moved. -/
theorem awaitDone_back {a : Act} {q : Party} (h : (next autoAck s a).pc q = .awaitDone) :
    s.pc q = .awaitDone ∧ a ≠ .recv q := by
  cases a with
  | wake => exact ⟨(goto_back (c := .cancel) (by rintro ⟨⟩) h).1, by rintro ⟨⟩⟩
  | sigint => exact ⟨(goto_back (c := .cancel) (by rintro ⟨⟩) h).1, by rintro ⟨⟩⟩
  | recv p =>
    have hc : received (s.pc p) ≠ .awaitDone := by cases s.pc p <;> rintro ⟨⟩
    obtain ⟨hq, hne⟩ := goto_back hc h
    exact ⟨hq, fun heq => hne (by injection heq with heq; exact heq.symm)⟩
  | cancel p =>
    simp only [next, State.cancelCall] at h
    split at h
    · exact ⟨(goto_back (c := .close) (by rintro ⟨⟩) h).1, by rintro ⟨⟩⟩
    · exact ⟨(goto_back (c := .failed) (by rintro ⟨⟩) h).1, by rintro ⟨⟩⟩
  | close p =>
    simp only [next, State.closeCall] at h
    split at h
    · exact ⟨(goto_back (c := .waitHandle) (by rintro ⟨⟩) h).1, by rintro ⟨⟩⟩
    · exact ⟨(goto_back (c := .failed) (by rintro ⟨⟩) h).1, by rintro ⟨⟩⟩
  | bodyEnd t => rw [(view_eq.mp (bodyEnd_view autoAck s t)).1] at h; exact ⟨h, by rintro ⟨⟩⟩
  | _ => exact ⟨h, by rintro ⟨⟩⟩

/-- `handle` finishes only by the receipt of its value. -/
theorem finished_back {a : Act} (h : (next autoAck s a).handle = .finished)
    (ha : ∀ p, a ≠ .recv p) : s.handle = .finished := by
  cases a with
  | recv p => exact absurd rfl (ha p)
  | cancel p => simp only [next, State.cancelCall] at h; split at h <;> exact h
  | close p => simp only [next, State.closeCall] at h; split at h <;> exact h
  | take t => cases h
  | bodyEnd t => cases h
  | rangeEnd => cases h
  | _ => exact h

/-- The party that received the value waited alone, so nobody waits at line 44 any more. -/
theorem none_awaits (s : State) (h : (consumer lifetime autoAck).Reach OneWaiter s) :
    s.handle = .finished → s.pc .main ≠ .awaitDone := by
  refine Machine.inv (m := consumer lifetime autoAck) (I := fun s =>
    s.handle = .finished → s.pc .main ≠ .awaitDone) nofun ?_ s h
  intro s a hs _ hc hfin hawait
  obtain ⟨hbefore, hne⟩ := awaitDone_back hawait
  by_cases ha : ∃ p, a = .recv p
  · obtain ⟨p, rfl⟩ := ha
    have hp : p = .signal := (Party.eq_or_other .main p).resolve_left fun heq => hne (by rw [heq])
    subst hp
    obtain ⟨hother, -⟩ := hc
    simp [State.waiting, Party.other, hbefore] at hother
  · exact hs (finished_back hfin fun p hp => ha ⟨p, hp⟩) hbefore

/-- CORRECT: when the value is received only while nobody else waits for it, and at line 44 only
    when no `Shutdown` can get past `conn.Close`, the handshake is balanced in every run. -/
theorem handshake_balanced (s : State) (h : (consumer lifetime autoAck).Reach OneWaiter s)
    (hrun : s.process = .running) : Balanced lifetime autoAck s := by
  have hlast : (consumer lifetime autoAck).Reach LastWaiter s := h.mono OneWaiter.last
  have hb : Basic s := basic s h
  refine ⟨fun hfin p => ?_, fun hs => send_settles lifetime autoAck hb hrun hs, fun p hp => ?_⟩
  · have hnoawait : s.pc p ≠ .awaitDone := by
      cases p with
      | main => exact none_awaits s h hfin
      | signal => exact hb.signalPc
    simp [State.waiting, hnoawait, (served s hlast hfin).shutdown p]
  · obtain ⟨t, ht, hok, -⟩ := every_shutdown_returns hlast hrun hp
    exact ⟨t, ht, hok⟩

/-- With a lifetime nobody waits at line 44, so every run meets the condition. -/
theorem lifetime_oneWaiter (hl : 0 < lifetime) :
    ∀ s, (consumer lifetime autoAck).Reach Machine.Any s →
      (consumer lifetime autoAck).Reach OneWaiter s := by
  have hall : ∀ s, (consumer lifetime autoAck).Reach Machine.Any s →
      (consumer lifetime autoAck).Reach OneWaiter s ∧ s.pc .main ≠ .awaitDone := by
    refine Machine.inv ⟨Machine.Steps.refl _ _, ?_⟩ ?_
    · simp [consumer, init, hl]
    · rintro s a ⟨hreach, hmain⟩ he -
      have hb : Basic s := basic s hreach
      refine ⟨Machine.Steps.snoc hreach a he ?_, fun hm => hmain (awaitDone_back hm).1⟩
      cases a with
      | recv p =>
        have hnone : ∀ q, s.pc q ≠ .awaitDone := by
          rintro (_ | _)
          · exact hmain
          · exact hb.signalPc
        obtain ⟨-, hg⟩ := enabled_iff.mp he
        simp only [guard, State.waiting, hnone p, Bool.and_eq_true, Bool.or_eq_true,
          decide_eq_true_eq, false_or] at hg
        have hother := hb.unique p (by rw [hg.2]; rfl)
        refine ⟨?_, fun hp => absurd hp (hnone p)⟩
        simp only [State.waiting, hnone, decide_false, Bool.false_or, decide_eq_false_iff_not]
        intro hw
        rw [hw] at hother
        exact absurd hother nofun
      | _ => trivial
  exact fun s h => (hall s h).1

/-- A lifetime of a second, and `main` stops the consumer while a delivery is buffered. -/
def lifetimeOver : List Act :=
  [.push 1, .wake, .cancel .main, .close .main, .drop, .rangeEnd, .recv .main]

theorem handshake_balanced_lifetime :
    ∃ s, s.pc .main = .ok ∧ s.process = .running ∧ Balanced 1 false s := by
  obtain ⟨s, hs, hp, hrun⟩ := Machine.reach_of_run (m := consumer 1 false) (C := OneWaiter)
    (P := fun s => s.pc .main = .ok ∧ s.process = .running) lifetimeOver (by decide)
  exact ⟨s, hp, hrun, handshake_balanced s hs hrun⟩

end RabbitmqCluster.Consumer
