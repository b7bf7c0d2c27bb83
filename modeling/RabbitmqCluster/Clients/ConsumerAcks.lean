import RabbitmqCluster.Clients.ConsumerShutdown

/-! @src clients/go/consumer.go | scheme:machine | family:acks

    Handled means acked. `Shutdown` closes the connection and only then waits for `handle`, so a
    delivery whose body `handle` is in, or that it takes from the buffer afterwards, is acked too
    late and the broker delivers it again (`acked_too_late`). On a connection that only the client
    closes, every counted delivery is acked exactly when the close finds `handle` outside its body
    and nothing is taken after it (`acked_iff`). -/

namespace RabbitmqCluster.Consumer

open RabbitmqCluster.Schemes

variable {lifetime : ℤ} {C : State → Act → Prop} {s s' : State}

/-- The delivery that is counted and not yet acked. -/
def HandlePc.inBody : HandlePc → List ℕ
  | .body t => [t]
  | _ => []

/-- What the broker delivers again after the connection is closed. -/
def State.redelivered (s : State) : List ℕ :=
  if s.connOpen then [] else s.pushed.filter fun t => t ∉ s.acked

/-- Every counted delivery is acked once, with its own tag, before the connection closes or the
    process ends; none of them is delivered again. -/
structure HandledAcked (s : State) : Prop where
  settled : s.counted = s.acked ++ s.handle.inBody
  once : s.acked.Nodup
  noFailure : s.ackFailed = []
  beforeClose : s.connOpen = false ∨ s.process ≠ .running → s.handle.inBody = []
  noRedelivery : ∀ t ∈ s.counted, t ∉ s.redelivered

/-- The lifetime is over while `handle` is in the body of delivery 1. -/
def closedInBody : List Act :=
  [.push 1, .take 1, .wake, .cancel .main, .close .main, .bodyEnd 1]

theorem acked_too_late :
    ¬ ∀ lifetime s, (consumer lifetime false).Reach Healthy s → HandledAcked s := by
  intro hall
  obtain ⟨s, hs, hfail⟩ := Machine.reach_of_run (m := consumer 1 false) (C := Healthy)
    (P := fun s => s.ackFailed = [1]) closedInBody (by decide)
  exact absurd (hfail.symm.trans (hall 1 s hs).noFailure) nofun

/-- The connection is closed while `handle` is outside its body, and nothing is taken after. -/
def AckInTime (s : State) : Act → Prop
  | .close _ => s.handle.inBody = []
  | .take _ => s.connOpen = true
  | _ => True

instance (s : State) (a : Act) : Decidable (AckInTime s a) := by
  rcases a <;> (dsimp only [AckInTime]; infer_instance)

/-- What holds on a connection that only the client closes: the channel is open as long as it, a
    call fails only when it is closed, and what was counted or is buffered was pushed once. -/
structure Pushed (s : State) : Prop where
  basic : Basic s
  channel : s.channelOpen = s.connOpen
  failed : ∀ p, s.pc p = .failed → s.connOpen = false
  fresh : s.pushed.Nodup
  sub : (s.counted ++ s.buffered).Sublist s.pushed

theorem pushed_init : Pushed (init lifetime) := by
  refine ⟨basic_init, rfl, ?_, List.nodup_nil, List.Sublist.refl _⟩
  rintro (_ | _) hp
  · simp only [init] at hp; split at hp <;> cases hp
  · cases hp

theorem failed_goto {p q : Party} {c : Pc} (hc : c ≠ .failed)
    (h : (s.goto p c).pc q = .failed) : s.pc q = .failed := by
  rw [goto_pc] at h
  split at h
  · exact absurd h hc
  · exact h

theorem pushed_step (a : Act) (h : Pushed s) (he : enabled s a = true) (hc : Healthy s a) :
    Pushed (next false s a) := by
  have hbasic : Basic (next false s a) := basic_step a h.basic he
  obtain ⟨-, hg⟩ := enabled_iff.mp he
  obtain ⟨-, hch, hfail, hfresh, hsub⟩ := h
  cases a with
  | push t =>
    simp only [guard, Bool.and_eq_true, List.all_eq_true, decide_eq_true_eq] at hg
    refine ⟨hbasic, hch, hfail, ?_, ?_⟩
    · refine List.nodup_append.mpr ⟨hfresh, List.nodup_singleton t, ?_⟩
      intro u hu v hv
      rw [List.mem_singleton.mp hv]
      exact (hg.2 u hu).ne
    · show (s.counted ++ (s.buffered ++ [t])).Sublist (s.pushed ++ [t])
      rw [← List.append_assoc]
      exact hsub.append (List.Sublist.refl [t])
  | drop =>
    refine ⟨hbasic, hch, hfail, hfresh, ?_⟩
    exact (List.append_nil s.counted).symm ▸ (List.sublist_append_left ..).trans hsub
  | serverCancel => exact ⟨hbasic, hch, hfail, hfresh, hsub⟩
  | channelLoss => exact absurd rfl hc.2
  | connLoss => exact absurd rfl hc.1
  | take t =>
    simp only [guard, Bool.and_eq_true, decide_eq_true_eq] at hg
    refine ⟨hbasic, hch, hfail, hfresh, ?_⟩
    obtain ⟨rest, hbuf⟩ := List.head?_eq_some_iff.mp hg.2
    show (s.counted ++ [t] ++ s.buffered.tail).Sublist s.pushed
    rw [hbuf] at hsub ⊢
    simpa using hsub
  | bodyEnd t =>
    simp only [next, State.ackCall, Bool.false_eq_true, if_false] at hbasic ⊢
    split at hbasic
    · next hopen => rw [if_pos hopen]; exact ⟨hbasic, hch, hfail, hfresh, hsub⟩
    · next hopen => rw [if_neg hopen]; exact ⟨hbasic, hch, hfail, hfresh, hsub⟩
  | rangeEnd => exact ⟨hbasic, hch, hfail, hfresh, hsub⟩
  | wake =>
    have hne : Pc.cancel ≠ .failed := by rintro ⟨⟩
    exact ⟨hbasic, hch, fun q hq => hfail q (failed_goto hne hq), hfresh, hsub⟩
  | sigint =>
    have hne : Pc.cancel ≠ .failed := by rintro ⟨⟩
    exact ⟨hbasic, hch, fun q hq => hfail q (failed_goto hne hq), hfresh, hsub⟩
  | recv p =>
    have hrec : received (s.pc p) ≠ .failed := by cases s.pc p <;> rintro ⟨⟩
    exact ⟨hbasic, hch, fun q hq => hfail q (failed_goto hrec hq), hfresh, hsub⟩
  | cancel p =>
    simp only [next, State.cancelCall] at hbasic ⊢
    split at hbasic
    · next hopen =>
      rw [if_pos hopen]
      have hne : Pc.close ≠ .failed := by rintro ⟨⟩
      exact ⟨hbasic, hch, fun q hq => hfail q (failed_goto hne hq), hfresh, hsub⟩
    · next hopen =>
      rw [if_neg hopen]
      have hclosed : s.connOpen = false := by rw [← hch]; simpa using hopen
      exact ⟨hbasic, hch, fun _ _ => hclosed, hfresh, hsub⟩
  | close p =>
    simp only [next, State.closeCall] at hbasic ⊢
    split at hbasic
    · next hopen => rw [if_pos hopen]; exact ⟨hbasic, rfl, fun _ _ => rfl, hfresh, hsub⟩
    · next hopen =>
      rw [if_neg hopen]
      have hclosed : s.connOpen = false := by simpa using hopen
      exact ⟨hbasic, hch, fun _ _ => hclosed, hfresh, hsub⟩
  | fatal p => exact ⟨hbasic, hch, hfail, hfresh, hsub⟩
  | exit p => exact ⟨hbasic, hch, hfail, hfresh, hsub⟩

/-- Acks in time make the rest: each once, and nothing counted comes again. -/
theorem HandledAcked.of (hp : Pushed s) (settled : s.counted = s.acked ++ s.handle.inBody)
    (noFailure : s.ackFailed = [])
    (before : s.connOpen = false ∨ s.process ≠ .running → s.handle.inBody = []) :
    HandledAcked s := by
  have hcounted : s.counted.Nodup :=
    ((List.sublist_append_left s.counted s.buffered).trans hp.sub).nodup hp.fresh
  rw [settled] at hcounted
  refine ⟨settled, hcounted.of_append_left, noFailure, before, fun t ht hre => ?_⟩
  unfold State.redelivered at hre
  split at hre
  · exact absurd hre List.not_mem_nil
  · next hclosed =>
    rw [settled, before (Or.inl (by simpa using hclosed)), List.append_nil] at ht
    simp [ht] at hre

/-- A step that leaves the deliveries counted, acked and in the body as they are. -/
theorem HandledAcked.frame (h : HandledAcked s) (hp : Pushed s')
    (hcounted : s'.counted = s.counted) (hacked : s'.acked = s.acked)
    (hfailed : s'.ackFailed = s.ackFailed) (hbody : s'.handle.inBody = s.handle.inBody)
    (hbefore : s'.connOpen = false ∨ s'.process ≠ .running → s.handle.inBody = []) :
    HandledAcked s' := by
  refine HandledAcked.of hp ?_ (hfailed.trans h.noFailure) fun hs => hbody.trans (hbefore hs)
  rw [hcounted, hacked, hbody]
  exact h.settled

theorem acked_step (a : Act) (hp : Pushed s) (h : HandledAcked s) (he : enabled s a = true)
    (hh : Healthy s a) (hc : AckInTime s a) : HandledAcked (next false s a) := by
  have hp' : Pushed (next false s a) := pushed_step a hp he hh
  have hbefore := h.beforeClose
  obtain ⟨hrun, hg⟩ := enabled_iff.mp he
  cases a with
  | take t =>
    simp only [guard, Bool.and_eq_true, decide_eq_true_eq] at hg
    have hnone : s.counted = s.acked := by simpa [hg.1, HandlePc.inBody] using h.settled
    refine HandledAcked.of hp' ?_ h.noFailure ?_
    · show s.counted ++ [t] = s.acked ++ [t]
      rw [hnone]
    · rintro (hclosed | hend)
      · cases hclosed.symm.trans hc
      · exact absurd hrun hend
  | bodyEnd t =>
    simp only [guard, decide_eq_true_eq] at hg
    have hopen : s.channelOpen = true := by
      by_contra hcl
      have hbody := hbefore (Or.inl (by rw [← hp.channel]; simpa using hcl))
      rw [hg] at hbody
      cases hbody
    have hall : s.counted = s.acked ++ [t] := by simpa [hg, HandlePc.inBody] using h.settled
    simp only [next, State.ackCall, hopen, Bool.false_eq_true, if_false, if_true] at hp' ⊢
    refine HandledAcked.of hp' ?_ h.noFailure fun _ => rfl
    rw [hall]
    exact (List.append_nil _).symm
  | rangeEnd =>
    simp only [guard, Bool.and_eq_true, decide_eq_true_eq] at hg
    exact h.frame hp' rfl rfl rfl (by rw [hg.1.1]; rfl) hbefore
  | recv p =>
    simp only [guard, Bool.and_eq_true, decide_eq_true_eq] at hg
    exact h.frame hp' rfl rfl rfl (by rw [hg.1]; rfl) hbefore
  | cancel p =>
    simp only [next, State.cancelCall] at hp' ⊢
    split at hp'
    · next hopen => rw [if_pos hopen]; exact h.frame hp' rfl rfl rfl rfl hbefore
    · next hopen => rw [if_neg hopen]; exact h.frame hp' rfl rfl rfl rfl hbefore
  | close p =>
    simp only [next, State.closeCall] at hp' ⊢
    split at hp'
    · next hopen => rw [if_pos hopen]; exact h.frame hp' rfl rfl rfl rfl fun _ => hc
    · next hopen => rw [if_neg hopen]; exact h.frame hp' rfl rfl rfl rfl hbefore
  | fatal p =>
    simp only [guard, decide_eq_true_eq] at hg
    exact h.frame hp' rfl rfl rfl rfl fun _ => hbefore (Or.inl (hp.failed p hg))
  | exit p =>
    simp only [guard, decide_eq_true_eq] at hg
    exact h.frame hp' rfl rfl rfl rfl fun _ => by rw [hp.basic.returned p hg]; rfl
  | channelLoss => exact absurd rfl hh.2
  | connLoss => exact absurd rfl hh.1
  | _ => exact h.frame hp' rfl rfl rfl rfl hbefore

/-- A counted delivery was not acked before the connection closed. -/
def Late (s : State) : Prop :=
  s.connOpen = false ∧ (s.handle.inBody ≠ [] ∨ s.ackFailed ≠ [])

theorem late_not_acked (s : State) (h : Late s) : ¬ HandledAcked s := by
  rintro ⟨-, -, hfail, hbefore, -⟩
  rcases h.2 with hbody | hf
  · exact hbody (hbefore (Or.inl h.1))
  · exact hf hfail

/-- A step outside the condition leaves a delivery late. -/
theorem late_step (s : State) (a : Act) (h : HandledAcked s) (hc : ¬ AckInTime s a) :
    Late (next false s a) := by
  cases a with
  | close p =>
    have hopen : s.connOpen = true := by
      by_contra hcl
      exact hc (h.beforeClose (Or.inl (by simpa using hcl)))
    simp only [next, State.closeCall, hopen, if_true]
    exact ⟨rfl, Or.inl hc⟩
  | take t =>
    have hclosed : s.connOpen = false := by simpa [AckInTime] using hc
    exact ⟨hclosed, Or.inl (by rintro ⟨⟩)⟩
  | _ => exact absurd trivial hc

theorem late_stays (a : Act) (hb : Basic s) (h : Late s) (he : enabled s a = true) :
    Late (next false s a) := by
  obtain ⟨hclosed, hlate⟩ := h
  obtain ⟨-, hg⟩ := enabled_iff.mp he
  have hch : s.channelOpen = false := by
    by_contra hopen
    exact absurd (hclosed.symm.trans (hb.channel (by simpa using hopen))) nofun
  cases a with
  | connLoss => exact ⟨rfl, hlate⟩
  | take t => exact ⟨hclosed, Or.inl nofun⟩
  | bodyEnd t =>
    simp only [next, State.ackCall, hch, Bool.false_eq_true, if_false]
    exact ⟨hclosed, Or.inr (by simp)⟩
  | rangeEnd =>
    simp only [guard, Bool.and_eq_true, decide_eq_true_eq] at hg
    rw [hg.1.1] at hlate
    exact ⟨hclosed, Or.inr (hlate.resolve_left (by simp [HandlePc.inBody]))⟩
  | recv p =>
    simp only [guard, Bool.and_eq_true, decide_eq_true_eq] at hg
    rw [hg.1] at hlate
    exact ⟨hclosed, Or.inr (hlate.resolve_left (by simp [HandlePc.inBody]))⟩
  | cancel p =>
    simp only [next, State.cancelCall]
    split
    · exact ⟨hclosed, hlate⟩
    · exact ⟨hclosed, hlate⟩
  | close p =>
    simp only [next, State.closeCall]
    split
    · exact ⟨rfl, hlate⟩
    · exact ⟨hclosed, hlate⟩
  | _ => exact ⟨hclosed, hlate⟩

theorem acked_exact : Machine.Exact (consumer lifetime false) Healthy AckInTime Pushed
    HandledAcked Late where
  keeps _ a hp he hh := pushed_step a hp he hh
  holds _ a hp ha he hh hc := acked_step a hp ha he hh hc
  fails s a _ ha _ _ hc := late_step s a ha hc
  stays _ a hp hl he := late_stays a hp.basic hl he
  excludes := late_not_acked

/-- CORRECT: on a connection that only the client closes, every counted delivery is acked exactly
    in the runs that close it while `handle` is outside its body and take nothing afterwards. -/
theorem acked_iff (as : List Act) (s : State)
    (h : (consumer lifetime false).run (init lifetime) as = some s)
    (hh : (consumer lifetime false).Meets Healthy (init lifetime) as) :
    HandledAcked s ↔ (consumer lifetime false).Meets AckInTime (init lifetime) as :=
  acked_exact.iff as h hh pushed_init
    ⟨rfl, List.nodup_nil, rfl, fun _ => rfl, fun _ ht => absurd ht List.not_mem_nil⟩

/-- SIGINT; the delivery in the body is acked before the close, the buffered one is dropped. -/
def ackedStop : List Act :=
  [.push 1, .push 2, .take 1, .sigint, .cancel .signal, .bodyEnd 1, .close .signal, .drop,
    .rangeEnd, .recv .signal, .exit .signal]

theorem acked_iff_stop : ∃ s, s.acked = [1] ∧ s.redelivered = [2] ∧ HandledAcked s := by
  obtain ⟨s, hs, hacked, hback⟩ : ∃ s ∈ (consumer 0 false).run (init 0) ackedStop,
      s.acked = [1] ∧ s.redelivered = [2] := by decide
  have hin : (consumer 0 false).Meets AckInTime (init 0) ackedStop := by decide
  exact ⟨s, hacked, hback, (acked_iff ackedStop s hs (by decide)).mpr hin⟩

end RabbitmqCluster.Consumer
