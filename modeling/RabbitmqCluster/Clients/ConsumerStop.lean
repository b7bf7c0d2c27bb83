import RabbitmqCluster.Clients.ConsumerShutdown

/-! @src clients/go/consumer.go | scheme:machine | family:shutdown

    A clean stop. Cancelling the consumer ends the deliveries, so `handle` sends on `done`; without
    a lifetime that value can wake `main` into a `Shutdown` of its own while the signal goroutine is
    inside the first one, and the slower of the two fails on the closed connection (`unclean_stop`).
    When one caller at a time stops the consumer and the value goes to `Shutdown`, everything is
    done once and the process ends with status 0 (`clean_stop`). -/

namespace RabbitmqCluster.Consumer

open RabbitmqCluster.Schemes

variable {lifetime : ℤ} {autoAck : Bool} {C : State → Act → Prop} {s : State}

/-- The party has not begun its `Shutdown`. -/
def Pc.idling : Pc → Bool
  | .idle | .awaitDone => true
  | _ => false

/-- The stop is done once and reported as clean; once begun, it ends by the program's own steps. -/
structure CleanStop (lifetime : ℤ) (autoAck : Bool) (s : State) : Prop where
  cancels : s.cancels ≤ 1
  closes : s.closes ≤ 1
  late : s.lateCalls = 0
  status : s.process = .running ∨ s.process = .exited 0
  ends : s.process = .running → ∀ p, (s.pc p).idling = false →
    ∃ t, (consumer lifetime autoAck).Steps (fun _ => Internal) s t ∧ t.process = .exited 0

/-- No lifetime; SIGINT, and the value of `handle` goes to `main`. -/
def mainWoken : List Act :=
  [.sigint, .cancel .signal, .rangeEnd, .recv .main, .close .signal, .cancel .main, .fatal .main]

theorem unclean_stop :
    ¬ ∀ lifetime autoAck s, (consumer lifetime autoAck).Reach Healthy s →
      CleanStop lifetime autoAck s := by
  intro hall
  obtain ⟨s, hs, hexit⟩ := Machine.reach_of_run (m := consumer 0 false) (C := Healthy)
    (P := fun s => s.process = .exited 1) mainWoken (by decide)
  rcases (hall 0 false s hs).status with hrun | hzero
  · rw [hexit] at hrun; exact absurd hrun nofun
  · rw [hexit] at hzero; exact absurd hzero (by decide)

/-- One caller at a time stops the consumer, on a healthy connection, and the value of `handle`
    goes to a `Shutdown`. -/
def OneStop (s : State) : Act → Prop
  | .sigint => (s.pc .main).idling = true
  | .wake => s.pc .signal = .idle
  | .recv p => s.pc p ≠ .awaitDone
  | .connLoss | .channelLoss => False
  | _ => True

instance (s : State) (a : Act) : Decidable (OneStop s a) := by
  rcases a <;> (dsimp only [OneStop]; infer_instance)

/-- The successful cancels and closes of one orderly `Shutdown` before a program point. -/
def Pc.cancelled : Pc → ℕ
  | .close | .waitHandle | .ok => 1
  | _ => 0

def Pc.closed : Pc → ℕ
  | .waitHandle | .ok => 1
  | _ => 0

/-- What one orderly `Shutdown` has done when its caller is at `c`. -/
structure Stage (s : State) (c : Pc) : Prop where
  cancels : s.cancels = c.cancelled
  closes : s.closes = c.closed
  conn : s.connOpen = !c.past
  handle : s.handle = .finished ↔ c = .ok
  succeeds : c ≠ .failed

/-- At most one party is in its `Shutdown`, and that one is orderly. -/
structure Orderly (s : State) : Prop where
  status : s.process = .running ∨ s.process = .exited 0
  late : s.lateCalls = 0
  channel : s.channelOpen = s.connOpen
  stopper : ∃ p, (s.pc p.other).idling = true ∧ Stage s (s.pc p)

/-- A party that is not idling is the one that stops the consumer. -/
theorem Orderly.stage (h : Orderly s) {p : Party} (hp : (s.pc p).idling = false) :
    (s.pc p.other).idling = true ∧ Stage s (s.pc p) := by
  obtain ⟨q, hother, hstage⟩ := h.stopper
  rcases q.eq_or_other p with rfl | rfl
  · exact ⟨hother, hstage⟩
  · exact absurd (hp.symm.trans hother) nofun

/-- A party begins its `Shutdown` while the other idles. -/
theorem Orderly.begins (h : Orderly s) {p : Party} (hp : (s.pc p).idling = true)
    (hother : (s.pc p.other).idling = true) : Orderly (s.goto p .cancel) := by
  have hstage : ∃ c, Pc.idling c = true ∧ Stage s c := by
    obtain ⟨q, -, hq⟩ := h.stopper
    rcases p.eq_or_other q with rfl | rfl
    · exact ⟨_, hp, hq⟩
    · exact ⟨_, hother, hq⟩
  obtain ⟨c, hc, hst⟩ := hstage
  refine ⟨h.status, h.late, h.channel, p, ?_, ?_⟩
  · rw [goto_pc, if_neg p.other_ne]; exact hother
  · rw [goto_pc_self]
    obtain ⟨hcan, hclo, hconn, hfin, -⟩ := hst
    cases c with
    | idle => exact ⟨hcan, hclo, hconn, iff_of_false (fun hf => nomatch hfin.mp hf) nofun, nofun⟩
    | awaitDone =>
      exact ⟨hcan, hclo, hconn, iff_of_false (fun hf => nomatch hfin.mp hf) nofun, nofun⟩
    | _ => exact absurd hc nofun

/-- A step that no caller of `Shutdown` sees, and that leaves `handle` finished or not. -/
theorem Orderly.frame {s' : State} (h : Orderly s) (hview : s'.view = s.view)
    (hfin : s'.handle = .finished ↔ s.handle = .finished) : Orderly s' := by
  obtain ⟨hpc, hproc, hconn, hch, hcan, hclo, hlate⟩ := view_eq.mp hview
  obtain ⟨hstat, hl, hc, p, hother, hst⟩ := h
  refine ⟨hproc ▸ hstat, hlate.trans hl, hch.trans (hc.trans hconn.symm), p, ?_, ?_⟩
  · rw [hpc]; exact hother
  · rw [hpc]
    exact ⟨hcan.trans hst.cancels, hclo.trans hst.closes, hconn.trans hst.conn,
      hfin.trans hst.handle, hst.succeeds⟩

theorem orderly_init : Orderly (init lifetime) := by
  refine ⟨Or.inl rfl, rfl, rfl, .signal, ?_, ?_⟩
  · show ((init lifetime).pc .main).idling = true
    simp only [init]; split <;> rfl
  · exact ⟨rfl, rfl, rfl, iff_of_false (by rintro ⟨⟩) (by rintro ⟨⟩), by rintro ⟨⟩⟩

theorem orderly_cancel {p : Party} (h : Orderly s) (hp : s.pc p = .cancel) :
    Orderly (s.cancelCall p) := by
  obtain ⟨hother, hst⟩ := h.stage (p := p) (by rw [hp]; rfl)
  rw [hp] at hst
  have hopen : s.channelOpen = true := h.channel.trans hst.conn
  rw [State.cancelCall, if_pos hopen]
  refine ⟨h.status, h.late, h.channel, p, ?_, ?_⟩
  · show ((s.goto p .close).pc p.other).idling = true
    rw [goto_pc, if_neg p.other_ne]; exact hother
  · show Stage _ ((s.goto p .close).pc p)
    rw [goto_pc_self]
    refine ⟨?_, hst.closes, hst.conn, iff_of_false ?_ (by rintro ⟨⟩), by rintro ⟨⟩⟩
    · show s.cancels + 1 = 1
      rw [hst.cancels]; rfl
    · intro hfin
      cases hst.handle.mp hfin

theorem orderly_close {p : Party} (h : Orderly s) (hp : s.pc p = .close) :
    Orderly (s.closeCall p) := by
  obtain ⟨hother, hst⟩ := h.stage (p := p) (by rw [hp]; rfl)
  rw [hp] at hst
  have hopen : s.connOpen = true := hst.conn
  rw [State.closeCall, if_pos hopen]
  refine ⟨h.status, h.late, rfl, p, ?_, ?_⟩
  · show ((s.goto p .waitHandle).pc p.other).idling = true
    rw [goto_pc, if_neg p.other_ne]; exact hother
  · show Stage _ ((s.goto p .waitHandle).pc p)
    rw [goto_pc_self]
    refine ⟨hst.cancels, ?_, rfl, iff_of_false ?_ (by rintro ⟨⟩), by rintro ⟨⟩⟩
    · show s.closes + 1 = 1
      rw [hst.closes]; rfl
    · intro hfin
      cases hst.handle.mp hfin

theorem orderly_recv {p : Party} (h : Orderly s) (hp : s.pc p = .waitHandle) :
    Orderly (next autoAck s (.recv p)) := by
  obtain ⟨hother, hst⟩ := h.stage (p := p) (by rw [hp]; rfl)
  rw [hp] at hst
  simp only [next, hp, received]
  refine ⟨h.status, h.late, h.channel, p, ?_, ?_⟩
  · show ((s.goto p .ok).pc p.other).idling = true
    rw [goto_pc, if_neg p.other_ne]; exact hother
  · show Stage _ ((s.goto p .ok).pc p)
    rw [goto_pc_self]
    exact ⟨hst.cancels, hst.closes, hst.conn, iff_of_true rfl rfl, by rintro ⟨⟩⟩

theorem orderly_step (a : Act) (h : Orderly s) (he : enabled s a = true) (hc : OneStop s a) :
    Orderly (next autoAck s a) := by
  obtain ⟨-, hg⟩ := enabled_iff.mp he
  cases a with
  | push t => exact h.frame rfl Iff.rfl
  | drop => exact h.frame rfl Iff.rfl
  | serverCancel => exact h.frame rfl Iff.rfl
  | channelLoss => exact hc.elim
  | connLoss => exact hc.elim
  | take t =>
    simp only [guard, Bool.and_eq_true, decide_eq_true_eq] at hg
    exact h.frame rfl (iff_of_false (by rintro ⟨⟩) (by rw [hg.1]; rintro ⟨⟩))
  | bodyEnd t =>
    simp only [guard, decide_eq_true_eq] at hg
    exact h.frame (bodyEnd_view autoAck s t) (iff_of_false (by rintro ⟨⟩) (by rw [hg]; rintro ⟨⟩))
  | rangeEnd =>
    simp only [guard, Bool.and_eq_true, decide_eq_true_eq] at hg
    exact h.frame rfl (iff_of_false (by rintro ⟨⟩) (by rw [hg.1.1]; rintro ⟨⟩))
  | wake =>
    simp only [guard, decide_eq_true_eq] at hg
    exact h.begins (p := .main) (by rw [hg]; rfl) (by rw [Party.other, hc]; rfl)
  | sigint =>
    simp only [guard, decide_eq_true_eq] at hg
    exact h.begins (p := .signal) (by rw [hg]; rfl) hc
  | recv p =>
    simp only [guard, State.waiting, Bool.and_eq_true, Bool.or_eq_true, decide_eq_true_eq] at hg
    exact orderly_recv h (hg.2.resolve_left hc)
  | cancel p =>
    simp only [guard, decide_eq_true_eq] at hg
    exact orderly_cancel h hg
  | close p =>
    simp only [guard, decide_eq_true_eq] at hg
    exact orderly_close h hg
  | fatal p =>
    simp only [guard, decide_eq_true_eq] at hg
    obtain ⟨-, hst⟩ := h.stage (p := p) (by rw [hg]; rfl)
    exact absurd hg hst.succeeds
  | exit p =>
    obtain ⟨q, hother, hst⟩ := h.stopper
    exact ⟨Or.inr rfl, h.late, h.channel, q, hother, hst.1, hst.2, hst.3, hst.4, hst.5⟩

theorem orderly (s : State) (h : (consumer lifetime autoAck).Reach OneStop s) : Orderly s :=
  Machine.inv (m := consumer lifetime autoAck) (I := Orderly) orderly_init
    (fun _ a hs he hc => orderly_step a hs he hc) s h

section Paths

variable (lifetime : ℤ) (autoAck : Bool)

theorem HandleSide.internal : ∀ (_ : State) (a : Act), HandleSide a → Internal a
  | _, .drop, _ | _, .bodyEnd _, _ | _, .rangeEnd, _ | _, .recv _, _ => trivial

theorem exits_ok {p : Party} (hrun : s.process = .running) (hp : s.pc p = .ok) :
    ∃ t, (consumer lifetime autoAck).Steps (fun _ => Internal) s t ∧ t.process = .exited 0 :=
  ⟨next autoAck s (.exit p), step_one (.exit p) hrun (by simp [guard, hp]) trivial, rfl⟩

theorem exits_waitHandle {p : Party} (h : Orderly s) (hrun : s.process = .running)
    (hp : s.pc p = .waitHandle) :
    ∃ t, (consumer lifetime autoAck).Steps (fun _ => Internal) s t ∧ t.process = .exited 0 := by
  obtain ⟨-, hst⟩ := h.stage (p := p) (by rw [hp]; rfl)
  rw [hp] at hst
  obtain ⟨t, ht, hok, htrun⟩ := shutdown_returns lifetime autoAck hrun (h.channel.trans hst.conn)
    (fun hfin => nomatch hst.handle.mp hfin) hp
  obtain ⟨u, hu, hexit⟩ := exits_ok lifetime autoAck htrun hok
  exact ⟨u, (ht.mono HandleSide.internal).trans hu, hexit⟩

theorem exits_close {p : Party} (h : Orderly s) (hrun : s.process = .running)
    (hp : s.pc p = .close) :
    ∃ t, (consumer lifetime autoAck).Steps (fun _ => Internal) s t ∧ t.process = .exited 0 := by
  have hstep : (consumer lifetime autoAck).Steps (fun _ => Internal) s (s.closeCall p) :=
    step_one (.close p) hrun (by simp [guard, hp]) trivial
  have hnext := orderly_close h hp
  obtain ⟨-, hst⟩ := h.stage (p := p) (by rw [hp]; rfl)
  rw [hp] at hst
  have hopen : s.connOpen = true := hst.conn
  rw [State.closeCall, if_pos hopen] at hstep hnext
  obtain ⟨t, ht, hexit⟩ := exits_waitHandle lifetime autoAck (p := p) hnext hrun (goto_pc_self ..)
  exact ⟨t, hstep.trans ht, hexit⟩

theorem exits_cancel {p : Party} (h : Orderly s) (hrun : s.process = .running)
    (hp : s.pc p = .cancel) :
    ∃ t, (consumer lifetime autoAck).Steps (fun _ => Internal) s t ∧ t.process = .exited 0 := by
  have hstep : (consumer lifetime autoAck).Steps (fun _ => Internal) s (s.cancelCall p) :=
    step_one (.cancel p) hrun (by simp [guard, hp]) trivial
  have hnext := orderly_cancel h hp
  obtain ⟨-, hst⟩ := h.stage (p := p) (by rw [hp]; rfl)
  rw [hp] at hst
  have hopen : s.channelOpen = true := h.channel.trans hst.conn
  rw [State.cancelCall, if_pos hopen] at hstep hnext
  obtain ⟨t, ht, hexit⟩ := exits_close lifetime autoAck (p := p) hnext hrun (goto_pc_self ..)
  exact ⟨t, hstep.trans ht, hexit⟩

/-- A begun stop ends the process with status 0. -/
theorem stop_ends {p : Party} (h : Orderly s) (hrun : s.process = .running)
    (hp : (s.pc p).idling = false) :
    ∃ t, (consumer lifetime autoAck).Steps (fun _ => Internal) s t ∧ t.process = .exited 0 := by
  obtain ⟨-, hst⟩ := h.stage hp
  cases hpc : s.pc p with
  | idle => rw [hpc] at hp; exact absurd hp nofun
  | awaitDone => rw [hpc] at hp; exact absurd hp nofun
  | cancel => exact exits_cancel lifetime autoAck h hrun hpc
  | close => exact exits_close lifetime autoAck h hrun hpc
  | waitHandle => exact exits_waitHandle lifetime autoAck h hrun hpc
  | ok => exact exits_ok lifetime autoAck hrun hpc
  | failed => exact absurd hpc hst.succeeds

end Paths

theorem Pc.cancelled_le (c : Pc) : c.cancelled ≤ 1 := by cases c <;> decide

theorem Pc.closed_le (c : Pc) : c.closed ≤ 1 := by cases c <;> decide

/-- CORRECT: when one caller at a time stops the consumer on a healthy connection, and the value of
    `handle` goes to a `Shutdown`, the stop is clean in every run. -/
theorem clean_stop (s : State) (h : (consumer lifetime autoAck).Reach OneStop s) :
    CleanStop lifetime autoAck s := by
  have ho : Orderly s := orderly s h
  obtain ⟨p, -, hst⟩ := ho.stopper
  refine ⟨?_, ?_, ho.late, ho.status, fun hrun q hq => stop_ends lifetime autoAck ho hrun hq⟩
  · rw [hst.cancels]; exact Pc.cancelled_le _
  · rw [hst.closes]; exact Pc.closed_le _

/-- SIGINT without a lifetime while a delivery is handled. -/
def signalStop : List Act :=
  [.push 1, .take 1, .sigint, .cancel .signal, .bodyEnd 1, .rangeEnd, .close .signal,
    .recv .signal, .exit .signal]

theorem clean_stop_signal :
    ∃ s, s.process = .exited 0 ∧ s.acked = [1] ∧ CleanStop 0 false s := by
  obtain ⟨s, hs, hexit, hack⟩ := Machine.reach_of_run (m := consumer 0 false) (C := OneStop)
    (P := fun s => s.process = .exited 0 ∧ s.acked = [1]) signalStop (by decide)
  exact ⟨s, hexit, hack, clean_stop s hs⟩

end RabbitmqCluster.Consumer
