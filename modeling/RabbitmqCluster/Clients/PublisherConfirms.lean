import RabbitmqCluster.Clients.PublisherWindow

/-! @src clients/go/publisher.go | scheme:machine | family:confirmations

    What the log lines of the publisher are worth. "stopping, all confirms seen" is false when the
    exit request overtakes a published tag that was not handed over, or when the exit wait gave a
    tag up (`confirms_missed`); it is true in every run in which neither happens (`confirms_seen`).
    "confirmed delivery with tag" is true from `checkConfirmations`, which asks `Acked()`, and may
    be false from `waitConfirmations`, which waits on `Done()` and so takes a nack for a
    confirmation; the runs in which it is true are exactly those in which that wait never wakes on
    a nacked tag (`truthful_iff`). -/

namespace RabbitmqCluster.Publisher

open RabbitmqCluster.Schemes

variable {continuous : Bool} {C : State → Act → Prop}

/-! ### Settlement is final -/

theorem broker_final (s : State) (a : Act) (hg : guard s a = true) (t : ℕ)
    (h : s.broker t ≠ .pending) : (next continuous s a).broker t = s.broker t := by
  cases a with
  | ack u =>
    simp only [guard, Bool.and_eq_true, decide_eq_true_eq] at hg
    exact Function.update_of_ne (fun htu : t = u => h (by rw [htu]; exact hg.2)) _ _
  | nack u =>
    simp only [guard, Bool.and_eq_true, decide_eq_true_eq] at hg
    exact Function.update_of_ne (fun htu : t = u => h (by rw [htu]; exact hg.2)) _ _
  | connLoss => exact if_neg fun hp => h hp.2
  | checkTag c todo k => simp only [next]; split <;> rfl
  | checked c => cases c <;> rfl
  | _ => rfl

theorem settled_iff {s : State} {t : ℕ} : s.settled t = true ↔ s.broker t ≠ .pending := by
  simp [State.settled]

theorem settled_final (s : State) (a : Act) (hg : guard s a = true) (t : ℕ)
    (h : s.settled t = true) : (next continuous s a).settled t = true := by
  rw [settled_iff] at h ⊢
  rwa [broker_final s a hg t h]

/-! ### All confirms seen -/

/-- The handler still has to look at the tag before it closes `confirmsDoneCh`. -/
def HandlerPc.owes : HandlerPc → ℕ → Prop
  | .wait todo, t => t ∈ todo
  | .waitTag k todo, t => t = k ∨ t ∈ todo
  | .closing, _ => False
  | .finished, _ => False
  | _, _ => True

/-- If `publish` returned on "stopping, all confirms seen", every tag it published was handed to
    the handler and settled; and no published tag is left with nobody to look at it. Tags are
    entered only in the handler's loop, so before it left. -/
def SeenAll (s : State) : Prop :=
  (s.publish = .returned .allConfirmsSeen →
    ∀ t ∈ s.published, t ∈ s.entered ∧ s.settled t = true) ∧
  ∀ t ∈ s.published, t ∈ s.entered ∨ s.publish = .handOver t

instance : DecidablePred SeenAll := fun s =>
  inferInstanceAs (Decidable ((s.publish = .returned .allConfirmsSeen →
    ∀ t ∈ s.published, t ∈ s.entered ∧ s.settled t = true) ∧
    ∀ t ∈ s.published, t ∈ s.entered ∨ s.publish = .handOver t))

/-- SIGINT lands between the publish of tag 1 and its hand-over. -/
def exitBeforeHandOver : List Act :=
  [.connect, .pass, .sendOk, .gotOk, .sigint, .sigClose, .publishMsg 1, .exitRecv,
    .checked .exit, .waited, .closeDone, .deliverDone 1]

theorem confirms_missed :
    ¬ ∀ continuous s, (publisher continuous).Reach Machine.Any s → SeenAll s := by
  intro hall
  obtain ⟨s, hs, hbad⟩ := Machine.reach_any_of_run (m := publisher true)
    (P := fun s => ¬ SeenAll s) exitBeforeHandOver (by decide)
  exact hbad (hall true s hs)

/-- The handler leaves its loop only while `publish` holds no tag, nothing is published after it
    left, and the exit wait for a tag times out only once the tag is settled. -/
def NoneLeftBehind (s : State) : Act → Prop
  | .exitRecv => s.publish.held = []
  | .publishMsg _ => s.handler.inLoop = true
  | .waitTimeout k _ => s.settled k = true
  | _ => True

instance (s : State) (a : Act) : Decidable (NoneLeftBehind s a) := by
  rcases a <;> (dsimp only [NoneLeftBehind]; infer_instance)

/-- What is published is entered or held, and nothing is held once the handler has left. -/
structure Handed (s : State) : Prop where
  all : s.published = s.entered ++ s.publish.held
  left : s.handler.inLoop = false → s.publish.held = []

namespace Handed

variable {s s' : State}

/-- `publish` moves between points at which it holds no tag. -/
theorem move (h : Handed s) (hfrom : s.publish.held = []) (hto : s'.publish.held = [])
    (hp : s'.published = s.published) (he : s'.entered = s.entered) : Handed s' where
  all := by rw [hp, he, hto, h.all, hfrom]
  left _ := hto

/-- The handler moves; `publish` and its tags stay. -/
theorem turn (h : Handed s) (hpc : s'.publish = s.publish) (hp : s'.published = s.published)
    (he : s'.entered = s.entered)
    (hleft : s'.handler.inLoop = false → s.publish.held = []) : Handed s' where
  all := by rw [hp, he, hpc, h.all]
  left hl := by rw [hpc]; exact hleft hl

end Handed

theorem held_idle {p : PublishPc} (h : p.busy = false) : p.held = [] := by
  cases p <;> simp_all [PublishPc.busy, PublishPc.held]

theorem handed_step (s : State) (a : Act) (hcr : s.Credit) (hex : Exits continuous s)
    (h : Handed s) (hg : guard s a = true) (hc : NoneLeftBehind s a) :
    Handed (next continuous s a) := by
  have hleft : (next continuous s a).handler.inLoop = false → s.publish.held = [] := fun hl => by
    rcases leaves_loop hg hl with hout | ⟨-, ⟨rfl, htop⟩ | rfl⟩
    · exact h.left hout
    · -- at the top of its loop the handler owes no confirmation
      exact held_idle (hcr.settling (by rw [htop]; rfl)).2
    · exact hc
  cases a with
  | connect =>
    simp only [guard, decide_eq_true_eq] at hg
    exact h.move (by rw [hg]; rfl) rfl rfl rfl
  | gotOk =>
    simp only [guard, Bool.and_eq_true, decide_eq_true_eq] at hg
    exact h.move (by rw [hg.1]; rfl) rfl rfl rfl
  | okDone =>
    simp only [guard, Bool.and_eq_true, decide_eq_true_eq] at hg
    exact h.move (by rw [hg.1]; rfl) rfl rfl rfl
  | publishMsg t =>
    simp only [guard, Bool.and_eq_true, decide_eq_true_eq] at hg
    have hnone : s.publish.held = [] := by rw [hg.1.1]; rfl
    refine ⟨?_, fun hl => absurd (hl.symm.trans hc) (by decide)⟩
    change s.published ++ [t] = s.entered ++ [t]
    rw [h.all, hnone, List.append_nil]
  | deliver t =>
    simp only [guard, Bool.and_eq_true, decide_eq_true_eq] at hg
    refine ⟨?_, fun _ => rfl⟩
    simp [next, h.all, hg.1, PublishPc.held]
  | deliverDone t =>
    simp only [guard, Bool.and_eq_true, decide_eq_true_eq] at hg
    have hfin := hex.closed hg.2
    exact h.move (h.left (by rw [hfin]; rfl)) rfl rfl rfl
  | pauseDone =>
    simp only [guard, Bool.and_eq_true, decide_eq_true_eq] at hg
    exact h.move (by rw [hg.1]; rfl) rfl rfl rfl
  | pauseOver =>
    simp only [guard, decide_eq_true_eq] at hg
    exact h.move (by rw [hg]; rfl) (by cases continuous <;> rfl) rfl rfl
  | closeExit =>
    simp only [guard, decide_eq_true_eq] at hg
    exact h.move (by rw [hg]; rfl) rfl rfl rfl
  | stopDone =>
    simp only [guard, Bool.and_eq_true, decide_eq_true_eq] at hg
    exact h.move (by rw [hg.1]; rfl) rfl rfl rfl
  | stopTimeout =>
    simp only [guard, decide_eq_true_eq] at hg
    exact h.move (by rw [hg]; rfl) rfl rfl rfl
  | checkTag c todo k =>
    simp only [next] at hleft ⊢
    split
    · next hack => rw [if_pos hack] at hleft; exact h.turn rfl rfl rfl hleft
    · next hack => rw [if_neg hack] at hleft; exact h.turn rfl rfl rfl hleft
  | checked c => cases c <;> exact h.turn rfl rfl rfl hleft
  | _ => exact h.turn rfl rfl rfl hleft

/-- Logged tags are settled; a tag of the map is settled or the handler still owes it a look. -/
structure Waited (s : State) : Prop where
  log : ∀ t ∈ s.confirmedLog, s.settled t = true
  map : ∀ t ∈ s.confirms, s.settled t = true ∨ s.handler.owes t

theorem waited_step (s : State) (a : Act) (h : Waited s) (hg : guard s a = true)
    (hc : NoneLeftBehind s a) : Waited (next continuous s a) := by
  have hfin : ∀ t, s.settled t = true → (next continuous s a).settled t = true :=
    settled_final s a hg
  have hlog : ∀ t ∈ s.confirmedLog, (next continuous s a).settled t = true :=
    fun t ht => hfin t (h.log t ht)
  have hmap : ∀ t ∈ s.confirms, (next continuous s a).settled t = true ∨ s.handler.owes t :=
    fun t ht => (h.map t ht).imp_left (hfin t)
  cases a with
  | deliver t => exact ⟨hlog, fun u _ => Or.inr trivial⟩
  | exitTop => exact ⟨hlog, fun u _ => Or.inr trivial⟩
  | exitRecv => exact ⟨hlog, fun u _ => Or.inr trivial⟩
  | pass =>
    refine ⟨hlog, fun u _ => Or.inr ?_⟩
    simp only [next]
    split <;> trivial
  | sendOk => exact ⟨hlog, fun u _ => Or.inr trivial⟩
  | sendOkTimeout => exact ⟨hlog, fun u _ => Or.inr trivial⟩
  | checkTag c todo k =>
    simp only [next] at hlog ⊢
    split at hlog
    · next hack =>
      rw [if_pos hack]
      refine ⟨fun t ht => ?_, fun t _ => Or.inr trivial⟩
      rcases List.mem_append.mp ht with hold | hnew
      · exact hlog t hold
      · rw [List.mem_singleton.mp hnew, settled_iff]
        exact fun hp => absurd (hack.symm.trans hp) (by decide)
    · next hack => rw [if_neg hack]; exact ⟨hlog, fun t _ => Or.inr trivial⟩
  | checked c =>
    cases c with
    | loop => exact ⟨hlog, fun t _ => Or.inr trivial⟩
    | exit => exact ⟨hlog, fun t ht => Or.inr ht⟩
  | waitNext todo k =>
    simp only [guard, Bool.and_eq_true, decide_eq_true_eq] at hg
    rw [hg.1] at hmap
    refine ⟨hlog, fun t ht => (hmap t ht).imp_right fun htodo => ?_⟩
    by_cases htk : t = k
    · exact Or.inl htk
    · exact Or.inr (Finset.mem_erase.mpr ⟨htk, htodo⟩)
  | waitDone k todo =>
    simp only [guard, Bool.and_eq_true, decide_eq_true_eq] at hg
    rw [hg.1] at hmap
    refine ⟨fun t ht => ?_, fun t ht => ?_⟩
    · rcases List.mem_append.mp ht with hold | hnew
      · exact hlog t hold
      · rw [List.mem_singleton.mp hnew]; exact hg.2
    · have hne := Finset.mem_erase.mp ht
      exact (hmap t hne.2).imp_right fun ho => ho.resolve_left hne.1
  | waitTimeout k todo =>
    simp only [guard, decide_eq_true_eq] at hg
    rw [hg] at hmap
    refine ⟨hlog, fun t ht => ?_⟩
    rcases hmap t ht with hset | rfl | htodo
    · exact Or.inl hset
    · exact Or.inl hc
    · exact Or.inr htodo
  | waited =>
    simp only [guard, decide_eq_true_eq] at hg
    rw [hg] at hmap
    exact ⟨hlog, fun t ht => (hmap t ht).imp_right fun ho => absurd ho (Finset.notMem_empty t)⟩
  | closeDone =>
    simp only [guard, decide_eq_true_eq] at hg
    rw [hg] at hmap
    exact ⟨hlog, hmap⟩
  | _ => exact ⟨hlog, hmap⟩

/-- CORRECT: in every run in which no tag is left behind, "all confirms seen" is true when it is
    said. -/
theorem confirms_seen (s : State) (h : (publisher continuous).Reach NoneLeftBehind s) :
    SeenAll s := by
  have hex := exits s h
  have hh : Handed s := Machine.inv_under (m := publisher continuous) (I := Handed)
    (fun s hs => And.intro (credit s hs) (exits s hs)) ⟨rfl, nofun⟩
    (fun s a hj hs he hc => handed_step s a hj.1 hj.2 hs (enabled_iff.mp he).2 hc) s h
  have hw : Waited s := Machine.inv (m := publisher continuous) (I := Waited)
    ⟨by simp [publisher, init], by simp [publisher, init]⟩
    (fun s a hs he hc => waited_step s a hs (enabled_iff.mp he).2 hc) s h
  refine ⟨fun hret t ht => ?_, fun t ht => ?_⟩
  · rw [hh.all, hret] at ht
    have hent : t ∈ s.entered := by simpa [PublishPc.held] using ht
    refine ⟨hent, ?_⟩
    have hfin := hex.closed (hex.seen hret)
    rcases ((ledger s h).split t).mp hent with hmap | hlog
    · refine (hw.map t hmap).resolve_right fun ho => ?_
      rw [hfin] at ho
      exact ho
    · exact hw.log t hlog
  · rw [hh.all] at ht
    rcases List.mem_append.mp ht with hent | hheld
    · exact Or.inl hent
    · cases hp : s.publish with
      | handOver u =>
        rw [hp, PublishPc.held, List.mem_singleton] at hheld
        exact Or.inr (by rw [hheld])
      | _ => rw [hp] at hheld; exact absurd hheld (by simp [PublishPc.held])

/-- Continuous mode; SIGINT in the pause after tag 1 was confirmed. -/
def orderlyStop : List Act :=
  [.connect, .pass, .sendOk, .gotOk, .publishMsg 1, .deliver 1, .ack 1, .checkTag .loop {1} 1,
    .checked .loop, .sigint, .sigClose, .exitTop, .checked .exit, .waited, .closeDone, .pauseDone]

theorem confirms_seen_orderly :
    ∃ s, s.publish = .returned .allConfirmsSeen ∧ s.published = [1] ∧ SeenAll s := by
  obtain ⟨s, hs, hp⟩ := Machine.reach_of_run (m := publisher true) (C := NoneLeftBehind)
    (P := fun s => s.publish = .returned .allConfirmsSeen ∧ s.published = [1]) orderlyStop
    (by decide)
  exact ⟨s, hp.1, hp.2, confirms_seen s hs⟩

/-! ### Confirmed delivery -/

/-- Every tag logged as confirmed was acked by the broker (so it was not nacked). -/
def Truthful (s : State) : Prop := ∀ t ∈ s.confirmedLog, s.broker t = .acked

instance : DecidablePred Truthful := fun s =>
  inferInstanceAs (Decidable (∀ t ∈ s.confirmedLog, s.broker t = .acked))

/-- The broker nacks tag 1 while `waitConfirmations` waits for it. -/
def nackAtExit : List Act :=
  [.connect, .pass, .sendOk, .gotOk, .publishMsg 1, .deliver 1, .checkTag .loop {1} 1,
    .checked .loop, .sigint, .sigClose, .exitTop, .checkTag .exit {1} 1, .checked .exit,
    .waitNext {1} 1, .nack 1, .waitDone 1 ∅]

theorem nack_confirmed :
    ¬ ∀ continuous s, (publisher continuous).Reach Machine.Any s → Truthful s := by
  intro hall
  obtain ⟨s, hs, hbad⟩ := Machine.reach_any_of_run (m := publisher true)
    (P := fun s => ¬ Truthful s) nackAtExit (by decide)
  exact hbad (hall true s hs)

/-- The exit wait does not wake on a nacked tag. -/
def AckedWait (s : State) : Act → Prop
  | .waitDone k _ => s.broker k ≠ .nacked
  | _ => True

instance (s : State) (a : Act) : Decidable (AckedWait s a) := by
  rcases a <;> (dsimp only [AckedWait]; infer_instance)

theorem truthful_step (s : State) (a : Act) (h : Truthful s) (hg : guard s a = true)
    (hc : AckedWait s a) : Truthful (next continuous s a) := by
  have hold : ∀ t ∈ s.confirmedLog, (next continuous s a).broker t = .acked := fun t ht => by
    rw [broker_final s a hg t (by rw [h t ht]; nofun)]; exact h t ht
  cases a with
  | checkTag c todo k =>
    simp only [next] at hold ⊢
    split at hold
    · next hack =>
      rw [if_pos hack]
      intro t ht
      rcases List.mem_append.mp ht with hlog | hnew
      · exact hold t hlog
      · rw [List.mem_singleton.mp hnew]; exact hack
    · next hack => rw [if_neg hack]; exact hold
  | checked c => cases c <;> exact hold
  | waitDone k todo =>
    simp only [guard, Bool.and_eq_true, decide_eq_true_eq] at hg
    intro t ht
    rcases List.mem_append.mp ht with hlog | hnew
    · exact hold t hlog
    · rw [List.mem_singleton.mp hnew]
      have hset := settled_iff.mp hg.2
      change s.broker k = .acked
      cases hb : s.broker k with
      | pending => exact absurd hb hset
      | acked => rfl
      | nacked => exact absurd hb hc
  | _ => exact hold

/-- A nacked tag is logged as confirmed. -/
def Lie (s : State) : Prop := ∃ t ∈ s.confirmedLog, s.broker t = .nacked

theorem lie_not_truthful (s : State) (h : Lie s) : ¬ Truthful s := by
  obtain ⟨t, ht, hn⟩ := h
  intro htrue
  exact absurd ((htrue t ht).symm.trans hn) nofun

/-- A wait that wakes on a nacked tag logs it as confirmed. -/
theorem lie_told (s : State) (a : Act) (hc : ¬ AckedWait s a) : Lie (next continuous s a) := by
  cases a with
  | waitDone k todo =>
    have hn : s.broker k = .nacked := not_not.mp hc
    exact ⟨k, by simp [next, State.confirm], hn⟩
  | _ => exact absurd trivial hc

/-- A false log line stays false. -/
theorem lie_step (s : State) (a : Act) (h : Lie s) (hg : guard s a = true) :
    Lie (next continuous s a) := by
  obtain ⟨t, ht, hn⟩ := h
  have hn' : (next continuous s a).broker t = .nacked := by
    rw [broker_final s a hg t (by rw [hn]; nofun)]; exact hn
  refine ⟨t, ?_, hn'⟩
  cases a with
  | checkTag c todo k =>
    simp only [next]
    split
    · exact List.mem_append_left _ ht
    · exact ht
  | checked c => cases c <;> exact ht
  | waitDone k todo => exact List.mem_append_left _ ht
  | _ => exact ht

theorem truthful_exact : Machine.Exact (publisher continuous) Machine.Any AckedWait
    (fun _ => True) Truthful Lie where
  keeps _ _ _ _ _ := trivial
  holds s a _ ht he _ hc := truthful_step s a ht (enabled_iff.mp he).2 hc
  fails s a _ _ _ _ hc := lie_told s a hc
  stays s a _ hl he := lie_step s a hl (enabled_iff.mp he).2
  excludes := lie_not_truthful

/-- CORRECT: a run logs only acked tags as confirmed if and only if the exit wait never woke on a
    nacked tag. -/
theorem truthful_iff (as : List Act) (s : State)
    (h : (publisher continuous).run init as = some s) :
    Truthful s ↔ (publisher continuous).Meets AckedWait init as :=
  truthful_exact.iff as h (Machine.meets_any as init) trivial (by simp [Truthful, init])

/-- The broker acks tag 1 while `waitConfirmations` waits for it. -/
def ackAtExit : List Act :=
  [.connect, .pass, .sendOk, .gotOk, .publishMsg 1, .deliver 1, .checkTag .loop {1} 1,
    .checked .loop, .sigint, .sigClose, .exitTop, .checkTag .exit {1} 1, .checked .exit,
    .waitNext {1} 1, .ack 1, .waitDone 1 ∅]

theorem truthful_iff_logged : ∃ s t, s.confirmedLog = [1] ∧ Truthful s ∧
    t.confirmedLog = [1] ∧ ¬ Truthful t := by
  obtain ⟨s, hs, hlog⟩ : ∃ s ∈ (publisher true).run init ackAtExit, s.confirmedLog = [1] := by
    decide
  obtain ⟨t, ht, hlog'⟩ : ∃ t ∈ (publisher true).run init nackAtExit, t.confirmedLog = [1] := by
    decide
  have hacked : (publisher true).Meets AckedWait init ackAtExit := by decide
  have hnacked : ¬ (publisher true).Meets AckedWait init nackAtExit := by decide
  exact ⟨s, t, hlog, (truthful_iff ackAtExit s hs).mpr hacked, hlog',
    fun htrue => hnacked ((truthful_iff nackAtExit t ht).mp htrue)⟩

end RabbitmqCluster.Publisher
