import RabbitmqCluster.Clients.PublisherConfirms

/-! @src clients/go/publisher.go | scheme:machine | family:confirmations

    What a settled tag does to the map. `checkConfirmations` asks `Acked()`, so it frees the slot of
    an acked tag and keeps a nacked one for ever: a check frees every settled slot exactly when the
    map holds no nacked tag as it begins (`slot_freed_iff`). `waitConfirmations` waits for each tag
    once, and what it reports as outstanding are the tags whose own wait ran out: the report is
    exact exactly when none of them is settled before the last wait ends (`report_exact_iff`).

        check:  todo ─ acked ─▶ deleted         wait:  todo ─▶ waitTag ─ Done ─▶ deleted
                   └─ otherwise ─▶ kept                           └─ timer ─▶ given up -/

namespace RabbitmqCluster.Publisher

open RabbitmqCluster.Schemes

variable {continuous : Bool} {C : State → Act → Prop}

/-! ### A check -/

/-- The call of `checkConfirmations` goes on. -/
def InCall (_ : State) : Act → Prop
  | .checked _ => False
  | _ => True

/-- The tags published that the broker has not answered. -/
def State.unanswered (s : State) : List ℕ := s.published.filter (!s.settled ·)

/-- After a check that began in `s` the map holds no tag that was settled then, and so no more tags
    than were unanswered. -/
def SlotsFreed (s t : State) : Prop :=
  (∀ k ∈ t.confirms, s.settled k = false) ∧ t.confirms.card ≤ s.unanswered.length

instance (s : State) (a : Act) : Decidable (InCall s a) := by
  rcases a <;> (dsimp only [InCall]; infer_instance)

instance (s t : State) : Decidable (SlotsFreed s t) :=
  inferInstanceAs (Decidable ((∀ k ∈ t.confirms, s.settled k = false) ∧
    t.confirms.card ≤ s.unanswered.length))

variable (continuous) in
/-- In the middle of a check the next step of the handler is the visit of a key, or the return. -/
theorem check_step {s : State} {a : Act} {c : Caller} {todo : Finset ℕ}
    (hh : s.handler = .check c todo) (hg : guard s a = true) :
    (∃ k ∈ todo, a = .checkTag c todo k) ∨ (todo = ∅ ∧ a = .checked c) ∨
      ((next continuous s a).handler = s.handler ∧
        (next continuous s a).confirms = s.confirms) := by
  rcases handler_cases continuous hg with hat | hsame
  · rw [hh] at hat
    cases a with
    | checkTag c' todo' k =>
      obtain ⟨rfl, rfl⟩ := HandlerPc.check.inj (Option.some.inj hat)
      simp only [guard, Bool.and_eq_true, decide_eq_true_eq] at hg
      exact Or.inl ⟨k, hg.2, rfl⟩
    | checked c' =>
      obtain ⟨rfl, rfl⟩ := HandlerPc.check.inj (Option.some.inj hat)
      exact Or.inr (Or.inl ⟨rfl, rfl⟩)
    | _ => cases hat
  · exact Or.inr (Or.inr hsame)

/-- In a check that began in `s`: what was settled then still is, the same way; a key that is acked
    and was visited is gone, one that is nacked is there. -/
structure Checking (c : Caller) (s t : State) : Prop where
  point : ∃ todo, t.handler = .check c todo ∧
    ∀ k ∈ t.confirms, s.broker k = .acked → k ∈ todo
  map : t.confirms ⊆ s.confirms
  final : ∀ k, s.settled k = true → t.broker k = s.broker k
  nacked : ∀ k ∈ s.confirms, s.broker k = .nacked → k ∈ t.confirms

theorem checking_step {c : Caller} {s t : State} {a : Act} (h : Checking c s t)
    (hg : guard t a = true) (hc : InCall t a) : Checking c s (next continuous t a) := by
  obtain ⟨⟨todo, hh, htodo⟩, hmap, hfin, hnack⟩ := h
  have hfinal : ∀ k, s.settled k = true → (next continuous t a).broker k = s.broker k :=
    fun k hk => by
      have hset : t.broker k ≠ .pending := by rw [hfin k hk]; exact settled_iff.mp hk
      rw [broker_final t a hg k hset, hfin k hk]
  rcases check_step continuous hh hg with ⟨k, hk, rfl⟩ | ⟨-, rfl⟩ | ⟨hsame, hmsame⟩
  · simp only [next] at hfinal ⊢
    split
    · next hack =>
      refine ⟨⟨todo.erase k, rfl, fun u hu hacked => ?_⟩, ?_, fun u hu => ?_, fun u hu hn => ?_⟩
      · obtain ⟨hne, hin⟩ := Finset.mem_erase.mp hu
        exact Finset.mem_erase.mpr ⟨hne, htodo u hin hacked⟩
      · exact (Finset.erase_subset k t.confirms).trans hmap
      · exact hfin u hu
      · refine Finset.mem_erase.mpr ⟨fun huk => ?_, hnack u hu hn⟩
        have hset : s.settled u = true := by simp [State.settled, hn]
        have hsame := hfin u hset
        rw [huk, hack, ← huk, hn] at hsame
        cases hsame
    · next hack =>
      refine ⟨⟨todo.erase k, rfl, fun u hu hacked => ?_⟩, hmap, fun u hu => hfin u hu, hnack⟩
      refine Finset.mem_erase.mpr ⟨fun huk => hack ?_, htodo u hu hacked⟩
      have hset : s.settled u = true := by simp [State.settled, hacked]
      rw [← huk, hfin u hset, hacked]
  · exact hc.elim
  · exact ⟨⟨todo, hsame.trans hh, by rw [hmsame]; exact htodo⟩, by rw [hmsame]; exact hmap,
      hfinal, by rw [hmsame]; exact hnack⟩

theorem checking {c : Caller} {s t : State} (hbegin : s.handler = .check c s.confirms)
    (hcall : (publisher continuous).Steps InCall s t) : Checking c s t := by
  refine Machine.Steps.inv (m := publisher continuous) (I := Checking c s)
    (fun u a hu he hc => checking_step hu (enabled_iff.mp he).2 hc) hcall ?_
  exact ⟨⟨s.confirms, hbegin, fun k hk _ => hk⟩, Finset.Subset.refl _, fun _ _ => rfl,
    fun k hk _ => hk⟩

/-- What was handed to the handler had been published. -/
theorem entered_published : ∀ s, (publisher continuous).Reach C s →
    ∀ t ∈ s.entered, t ∈ s.published := by
  refine invariant_under ledger nofun fun s a l h hg t ht => ?_
  cases a with
  | publishMsg u => exact List.mem_append_left _ (h t ht)
  | deliver u =>
    simp only [guard, Bool.and_eq_true, decide_eq_true_eq] at hg
    have hpub : s.published = s.entered ++ [u] := by
      rw [l.handed (by rw [hg.1]; rfl), hg.1]; rfl
    exact hpub ▸ ht
  | checkTag c todo k =>
    simp only [next] at ht ⊢
    split at ht
    · next hack => rw [if_pos hack]; exact h t ht
    · next hack => rw [if_neg hack]; exact h t ht
  | checked c => cases c <;> exact h t ht
  | _ => exact h t ht

/-- Unanswered tags of the map are unanswered tags that were published. -/
theorem unanswered_card {s : State} (h : (publisher continuous).Reach C s) {m : Finset ℕ}
    (hsub : m ⊆ s.confirms) (hopen : ∀ k ∈ m, s.settled k = false) :
    m.card ≤ s.unanswered.length := by
  have hmem : m ⊆ s.unanswered.toFinset := fun k hk => by
    have hent : k ∈ s.entered := ((ledger s h).split k).mpr (Or.inl (hsub hk))
    simpa [State.unanswered, hopen k hk] using entered_published s h k hent
  exact (Finset.card_le_card hmem).trans (List.toFinset_card_le _)

/-- CORRECT: a check frees every slot whose tag was settled when it began exactly when the map held
    no nacked tag then. -/
theorem slot_freed_iff {c : Caller} (s t : State) (h : (publisher continuous).Reach Machine.Any s)
    (hbegin : s.handler = .check c s.confirms)
    (hcall : (publisher continuous).Steps InCall s t) (hret : guard t (.checked c) = true) :
    SlotsFreed s (next continuous t (.checked c)) ↔ ∀ k ∈ s.confirms, s.broker k ≠ .nacked := by
  obtain ⟨⟨todo, hh, htodo⟩, hmap, -, hnack⟩ := checking hbegin hcall
  simp only [guard, hh, HandlerPc.check.injEq, true_and, decide_eq_true_eq] at hret
  subst hret
  have hsame : (next continuous t (.checked c)).confirms = t.confirms := by cases c <;> rfl
  rw [SlotsFreed, hsame]
  constructor
  · rintro ⟨hfree, -⟩ k hk hn
    have hopen := hfree k (hnack k hk hn)
    simp [State.settled, hn] at hopen
  · intro hno
    have hopen : ∀ k ∈ t.confirms, s.settled k = false := fun k hk => by
      cases hb : s.broker k with
      | pending => simp [State.settled, hb]
      | acked => exact absurd (htodo k hk hb) (Finset.notMem_empty k)
      | nacked => exact absurd hb (hno k (hmap hk))
    exact ⟨hopen, unanswered_card h hmap hopen⟩

/-- The broker nacks tag 1 before it is handed over. -/
def nackedEarly : List Act := [.connect, .pass, .sendOk, .gotOk, .publishMsg 1, .nack 1, .deliver 1]

theorem slot_leaked :
    ¬ ∀ continuous c s t, (publisher continuous).Reach Machine.Any s →
      s.handler = .check c s.confirms → (publisher continuous).Steps InCall s t →
      guard t (.checked c) = true → SlotsFreed s (next continuous t (.checked c)) := by
  intro hall
  obtain ⟨s, hs, hbegin, t, ht, hm, hret, hbad⟩ := Machine.reach_any_of_run (m := publisher true)
    (P := fun s => s.handler = .check .loop s.confirms ∧
      ∃ t ∈ (publisher true).run s [.checkTag .loop {1} 1],
        (publisher true).Meets InCall s [.checkTag .loop {1} 1] ∧
        guard t (.checked .loop) = true ∧ ¬ SlotsFreed s (next true t (.checked .loop)))
    nackedEarly (by decide)
  exact hbad (hall true .loop s t hs hbegin (Machine.steps_of_run ht hm) hret)

/-- Tags 1 and 2 are in the map and tag 1 is acked when the second check begins. -/
def oneAcked : List Act :=
  [.connect, .pass, .sendOk, .gotOk, .publishMsg 1, .deliver 1, .checkTag .loop {1} 1,
    .checked .loop, .pass, .sendOk, .pauseOver, .gotOk, .publishMsg 2, .ack 1, .deliver 2]

def visitBoth : List Act := [.checkTag .loop {2, 1} 2, .checkTag .loop {1} 1]

theorem slot_freed_iff_acked : ∃ s t : State, s.confirms = {1, 2} ∧ t.confirms = {2} ∧
    SlotsFreed s (next true t (.checked .loop)) := by
  obtain ⟨s, hs, hbegin, hmap, hno, t, ht, hm, hret, hleft⟩ := Machine.reach_any_of_run
    (m := publisher true)
    (P := fun s => s.handler = .check .loop s.confirms ∧ s.confirms = {1, 2} ∧
      (∀ k ∈ s.confirms, s.broker k ≠ .nacked) ∧
      ∃ t ∈ (publisher true).run s visitBoth, (publisher true).Meets InCall s visitBoth ∧
        guard t (.checked .loop) = true ∧ t.confirms = {2})
    oneAcked (by decide)
  exact ⟨s, t, hmap, hleft,
    (slot_freed_iff s t hs hbegin (Machine.steps_of_run ht hm) hret).mpr hno⟩

/-! ### The wait at exit -/

instance (p : HandlerPc) (t : ℕ) : Decidable (p.owes t) := by
  rcases p <;> (dsimp only [HandlerPc.owes]; infer_instance)

/-- The tag stays in the map and the handler will not look at it again. -/
def GivenUp (s : State) (t : ℕ) : Prop := t ∈ s.confirms ∧ ¬ s.handler.owes t

instance (s : State) (t : ℕ) : Decidable (GivenUp s t) :=
  inferInstanceAs (Decidable (t ∈ s.confirms ∧ ¬ s.handler.owes t))

/-- The loop of `waitConfirmations` is not over. -/
def Waiting (s : State) (_ : Act) : Prop := s.handler ≠ .wait ∅

instance (s : State) (a : Act) : Decidable (Waiting s a) :=
  inferInstanceAs (Decidable (s.handler ≠ .wait ∅))

/-- Only an unsettled tag is given up, and no tag is settled after it was given up. -/
def InTime (s : State) : Act → Prop
  | .waitTimeout k _ => s.settled k = false
  | .ack t => ¬ GivenUp s t
  | .nack t => ¬ GivenUp s t
  | .connLoss => ∀ t ∈ s.published, ¬ GivenUp s t
  | _ => True

instance (s : State) (a : Act) : Decidable (InTime s a) := by
  rcases a <;> (dsimp only [InTime]; infer_instance)

/-- The call that began in `s` and whose last wait ended in `t` leaves in the map of `u`, and
    reports, exactly the tags of the map that were not settled then. -/
def ReportExact (s t u : State) : Prop :=
  u.confirms = s.confirms.filter (t.settled · = false) ∧
    u.exitReport = some (s.confirms.filter (t.settled · = false)).card

instance (s t u : State) : Decidable (ReportExact s t u) :=
  inferInstanceAs (Decidable (u.confirms = s.confirms.filter (t.settled · = false) ∧
    u.exitReport = some (s.confirms.filter (t.settled · = false)).card))

/-- What a step does once the handler has left its loop: nothing to the map and the tags to come, or
    a settled tag is deleted, or one is given up. -/
inductive ExitStep (s : State) (a : Act) (s' : State) : Prop
  | same (hmap : s'.confirms = s.confirms)
      (howes : ∀ t ∈ s.confirms, s'.handler.owes t ↔ s.handler.owes t)
  | deleted (k : ℕ) (hset : s.settled k = true) (howed : s.handler.owes k)
      (hmap : s'.confirms = s.confirms.erase k)
      (howes : ∀ t ∈ s'.confirms, s'.handler.owes t ↔ s.handler.owes t)
  | gaveUp (k : ℕ) (todo : Finset ℕ) (ha : a = .waitTimeout k todo) (hk : k ∈ s.confirms)
      (hmap : s'.confirms = s.confirms)
      (howes : ∀ t, s'.handler.owes t ↔ s.handler.owes t ∧ t ≠ k)

variable (continuous) in
theorem exit_step {s : State} {a : Act} (hr : Ranges s) (hl : s.handler.inLoop = false)
    (hg : guard s a = true) :
    (next continuous s a).handler.inLoop = false ∧ ExitStep s a (next continuous s a) := by
  rcases handler_cases continuous hg with hat | ⟨hsame, hmap⟩
  · have hfrom : ∀ p ∈ a.handlerAt, s.handler = p ∧ p.inLoop = false := fun p hp => by
      have hp' : s.handler = p := Option.some.inj (hat.symm.trans hp)
      exact ⟨hp', hp' ▸ hl⟩
    cases a with
    | deliver t => exact absurd (hfrom _ rfl).2 (by rintro ⟨⟩)
    | exitTop => exact absurd (hfrom _ rfl).2 (by rintro ⟨⟩)
    | pass => exact absurd (hfrom _ rfl).2 (by rintro ⟨⟩)
    | sendOk => exact absurd (hfrom _ rfl).2 (by rintro ⟨⟩)
    | sendOkTimeout => exact absurd (hfrom _ rfl).2 (by rintro ⟨⟩)
    | exitRecv => exact absurd (hfrom _ rfl).2 (by rintro ⟨⟩)
    | checkTag c todo k =>
      obtain ⟨hh, hloop⟩ := hfrom _ rfl
      cases c with
      | loop => cases hloop
      | exit =>
        simp only [next]
        split
        · next hack =>
          refine ⟨rfl, .deleted k (by simp [State.settled, hack]) (by rw [hh]; trivial) rfl ?_⟩
          exact fun t _ => by rw [hh]; exact Iff.rfl
        · exact ⟨rfl, .same rfl fun t _ => by rw [hh]; exact Iff.rfl⟩
    | checked c =>
      obtain ⟨hh, hloop⟩ := hfrom _ rfl
      cases c with
      | loop => cases hloop
      | exit => exact ⟨rfl, .same rfl fun t ht => by rw [hh]; exact iff_of_true ht trivial⟩
    | waitNext todo k =>
      simp only [guard, Bool.and_eq_true, decide_eq_true_eq] at hg
      refine ⟨rfl, .same rfl fun t _ => ?_⟩
      rw [hg.1]
      simp only [next, HandlerPc.owes, Finset.mem_erase]
      constructor
      · rintro (rfl | ⟨-, ht⟩)
        · exact hg.2
        · exact ht
      · exact fun ht => (eq_or_ne t k).imp_right fun hne => ⟨hne, ht⟩
    | waitDone k todo =>
      simp only [guard, Bool.and_eq_true, decide_eq_true_eq] at hg
      refine ⟨rfl, .deleted k hg.2 (by rw [hg.1]; exact Or.inl rfl) rfl fun t ht => ?_⟩
      rw [hg.1]
      simp only [next, HandlerPc.owes]
      exact ⟨Or.inr, fun h => h.resolve_left (Finset.mem_erase.mp ht).1⟩
    | waitTimeout k todo =>
      have hh := (hfrom _ rfl).1
      simp only [Ranges, hh] at hr
      refine ⟨rfl, .gaveUp k todo rfl hr.1 rfl fun t => ?_⟩
      rw [hh]
      simp only [next, HandlerPc.owes]
      constructor
      · exact fun ht => ⟨Or.inr ht, (Finset.mem_erase.mp (hr.2 ht)).1⟩
      · exact fun h => h.1.resolve_left h.2
    | waited =>
      refine ⟨rfl, .same rfl fun t _ => ?_⟩
      rw [(hfrom _ rfl).1]
      simp [next, HandlerPc.owes]
    | closeDone => exact ⟨rfl, .same rfl fun t _ => by rw [(hfrom _ rfl).1]; exact Iff.rfl⟩
    | _ => cases hat
  · exact ⟨hsame ▸ hl, .same hmap fun t _ => by rw [hsame]⟩

/-- In a call that began in `s`: only settled tags were deleted. -/
structure WaitCall (s t : State) : Prop where
  left : t.handler.inLoop = false
  ranges : Ranges t
  map : t.confirms ⊆ s.confirms
  removed : ∀ k ∈ s.confirms, k ∉ t.confirms → t.settled k = true

theorem waitCall_step {s t : State} {a : Act} (h : WaitCall s t) (hg : guard t a = true) :
    WaitCall s (next continuous t a) := by
  obtain ⟨hleft, hstep⟩ := exit_step continuous h.ranges h.left hg
  have hranges : Ranges (next continuous t a) := ranges_step t a h.ranges hg
  have hfin : ∀ k, t.settled k = true → (next continuous t a).settled k = true :=
    settled_final t a hg
  cases hstep with
  | same hmap _ =>
    refine ⟨hleft, hranges, by rw [hmap]; exact h.map, fun k hk hno => ?_⟩
    rw [hmap] at hno
    exact hfin k (h.removed k hk hno)
  | deleted u hset _ hmap _ =>
    refine ⟨hleft, hranges, ?_, fun k hk hno => hfin k ?_⟩
    · rw [hmap]; exact (Finset.erase_subset u t.confirms).trans h.map
    · rw [hmap, Finset.mem_erase, not_and_or, not_not] at hno
      rcases hno with rfl | hno
      · exact hset
      · exact h.removed k hk hno
  | gaveUp u todo _ _ hmap _ =>
    refine ⟨hleft, hranges, by rw [hmap]; exact h.map, fun k hk hno => ?_⟩
    rw [hmap] at hno
    exact hfin k (h.removed k hk hno)

/-- What was given up is not settled. -/
def NoneLate (s : State) : Prop := ∀ t, GivenUp s t → s.settled t = false

/-- A tag was given up and is settled. -/
def Late (s : State) : Prop := ∃ t, GivenUp s t ∧ s.settled t = true

theorem unsettled_next {s : State} {a : Act} {t : ℕ} (hc : InTime s a)
    (hopen : s.settled t = false) (hgiven : GivenUp s t ∨ ∃ k todo, a = .waitTimeout k todo) :
    (next continuous s a).settled t = false := by
  have hupdate : ∀ u v, ¬ GivenUp s u → GivenUp s t →
      decide (Function.update s.broker u v t ≠ .pending) = false := fun u v hno hgt => by
    have hne : t ≠ u := fun htu => hno (htu ▸ hgt)
    rw [Function.update_of_ne hne]; exact hopen
  cases a with
  | ack u =>
    rcases hgiven with hgt | ⟨k, todo, ha⟩
    · exact hupdate u .acked hc hgt
    · cases ha
  | nack u =>
    rcases hgiven with hgt | ⟨k, todo, ha⟩
    · exact hupdate u .nacked hc hgt
    · cases ha
  | connLoss =>
    rcases hgiven with hgt | ⟨k, todo, ha⟩
    · have hno : t ∉ s.published := fun hp => hc t hp hgt
      simpa [next, State.settled, hno] using hopen
    · cases ha
  | checkTag c todo k => simp only [next]; split <;> exact hopen
  | checked c => cases c <;> exact hopen
  | _ => exact hopen

theorem noneLate_step {s : State} {a : Act} (hr : Ranges s) (hl : s.handler.inLoop = false)
    (h : NoneLate s) (hg : guard s a = true) (hc : InTime s a) :
    NoneLate (next continuous s a) := by
  rintro t ⟨ht, hno⟩
  have hkeep : GivenUp s t → (next continuous s a).settled t = false :=
    fun hgt => unsettled_next hc (h t hgt) (Or.inl hgt)
  cases (exit_step continuous hr hl hg).2 with
  | same hmap howes =>
    rw [hmap] at ht
    exact hkeep ⟨ht, fun ho => hno ((howes t ht).mpr ho)⟩
  | deleted k _ _ hmap howes =>
    have ho := howes t ht
    rw [hmap] at ht
    exact hkeep ⟨Finset.mem_of_mem_erase ht, fun hs => hno (ho.mpr hs)⟩
  | gaveUp k todo ha _ hmap howes =>
    rw [hmap] at ht
    by_cases htk : t = k
    · subst ha htk
      exact unsettled_next hc hc (Or.inr ⟨_, _, rfl⟩)
    · exact hkeep ⟨ht, fun ho => hno ((howes t).mpr ⟨ho, htk⟩)⟩

theorem late_begins {s : State} {a : Act} (hr : Ranges s) (h : NoneLate s)
    (hg : guard s a = true) (hc : ¬ InTime s a) : Late (next continuous s a) := by
  cases a with
  | waitTimeout k todo =>
    simp only [guard, decide_eq_true_eq] at hg
    simp only [Ranges, hg] at hr
    refine ⟨k, ⟨hr.1, fun hin => (Finset.mem_erase.mp (hr.2 hin)).1 rfl⟩, ?_⟩
    exact Bool.of_not_eq_false hc
  | ack u => exact ⟨u, not_not.mp hc, by simp [next, State.settled]⟩
  | nack u => exact ⟨u, not_not.mp hc, by simp [next, State.settled]⟩
  | connLoss =>
    simp only [InTime, not_forall, not_not] at hc
    obtain ⟨u, hu, hgt⟩ := hc
    have hopen : s.broker u = .pending := by simpa [State.settled] using h u hgt
    exact ⟨u, hgt, by simp [next, State.settled, hu, hopen]⟩
  | _ => exact absurd trivial hc

theorem late_step {s : State} {a : Act} (hr : Ranges s) (hl : s.handler.inLoop = false)
    (h : Late s) (hg : guard s a = true) : Late (next continuous s a) := by
  obtain ⟨t, ⟨ht, hno⟩, hset⟩ := h
  refine ⟨t, ?_, settled_final s a hg t hset⟩
  cases (exit_step continuous hr hl hg).2 with
  | same hmap howes => exact ⟨by rw [hmap]; exact ht, fun ho => hno ((howes t ht).mp ho)⟩
  | deleted k _ howed hmap howes =>
    have hne : t ≠ k := fun htk => hno (htk ▸ howed)
    have ht' : t ∈ (next continuous s a).confirms := by
      rw [hmap]; exact Finset.mem_erase.mpr ⟨hne, ht⟩
    exact ⟨ht', fun ho => hno ((howes t ht').mp ho)⟩
  | gaveUp k _ _ _ hmap howes =>
    exact ⟨by rw [hmap]; exact ht, fun ho => hno ((howes t).mp ho).1⟩

theorem noneLate_exact (continuous : Bool) (s : State) :
    Machine.Exact (publisher continuous) Waiting InTime (WaitCall s) NoneLate Late where
  keeps _ _ hj he _ := waitCall_step hj (enabled_iff.mp he).2
  holds _ _ hj h he _ hc := noneLate_step hj.ranges hj.left h (enabled_iff.mp he).2 hc
  fails _ _ hj h he _ hc := late_begins hj.ranges h (enabled_iff.mp he).2 hc
  stays _ _ hj h he := late_step hj.ranges hj.left h (enabled_iff.mp he).2
  excludes _ h hn := by
    obtain ⟨t, hgt, hset⟩ := h
    exact absurd ((hn t hgt).symm.trans hset) nofun

theorem noneLate_iff {as : List Act} {s t : State} (hbegin : s.handler = .check .exit s.confirms)
    (hrun : (publisher continuous).run s as = some t)
    (hwait : (publisher continuous).Meets Waiting s as) :
    WaitCall s t ∧ (NoneLate t ↔ (publisher continuous).Meets InTime s as) := by
  have hcall : WaitCall s s :=
    ⟨by rw [hbegin]; rfl, by rw [Ranges, hbegin], Finset.Subset.refl _,
      fun k hk hno => absurd hk hno⟩
  have hnone : NoneLate s := fun k hgt => by
    obtain ⟨-, howes⟩ := hgt
    rw [hbegin] at howes
    exact absurd trivial howes
  refine ⟨?_, (noneLate_exact continuous s).iff as hrun hwait hcall hnone⟩
  exact Machine.Steps.inv (I := WaitCall s)
    (fun u a hu he _ => waitCall_step hu (enabled_iff.mp he).2)
    (Machine.steps_of_run hrun hwait) hcall

/-- The call has not returned. -/
def Returning (_ : State) (a : Act) : Prop := a ≠ .waited

/-- After the last wait nothing happens to the map before the call returns. -/
theorem returning {s t : State} (hh : s.handler = .wait ∅)
    (h : (publisher continuous).Steps Returning s t) :
    t.handler = .wait ∅ ∧ t.confirms = s.confirms := by
  refine Machine.Steps.inv (m := publisher continuous)
    (I := fun u => u.handler = .wait ∅ ∧ u.confirms = s.confirms) ?_ h ⟨hh, rfl⟩
  rintro u a ⟨hu, hmap⟩ he hc
  have hg := (enabled_iff.mp he).2
  rcases handler_cases continuous hg with hat | ⟨hsame, hleft⟩
  · rw [hu] at hat
    cases a with
    | waitNext todo k =>
      obtain rfl := HandlerPc.wait.inj (Option.some.inj hat)
      simp only [guard, Bool.and_eq_true, decide_eq_true_eq] at hg
      exact absurd hg.2 (Finset.notMem_empty k)
    | waited => exact absurd rfl hc
    | _ => cases hat
  · exact ⟨hsame.trans hu, hleft.trans hmap⟩

/-- CORRECT: for every map, order of the keys and timeline, what `waitConfirmations` leaves and
    reports is exactly what was not settled when its last wait ended, if and only if only unsettled
    tags were given up and none of them was settled in the meantime. -/
theorem report_exact_iff (as : List Act) (s t u : State)
    (hbegin : s.handler = .check .exit s.confirms)
    (hrun : (publisher continuous).run s as = some t)
    (hwait : (publisher continuous).Meets Waiting s as) (hlast : t.handler = .wait ∅)
    (hret : (publisher continuous).Steps Returning t u) :
    ReportExact s t (next continuous u .waited) ↔
      (publisher continuous).Meets InTime s as := by
  obtain ⟨hcall, hiff⟩ := noneLate_iff hbegin hrun hwait
  obtain ⟨-, hmap⟩ := returning hlast hret
  rw [← hiff]
  simp only [ReportExact, next, hmap]
  constructor
  · rintro ⟨heq, -⟩ k ⟨hk, -⟩
    rw [heq] at hk
    exact (Finset.mem_filter.mp hk).2
  · intro hnone
    have heq : t.confirms = s.confirms.filter (t.settled · = false) := by
      ext k
      rw [Finset.mem_filter]
      constructor
      · intro hk
        refine ⟨hcall.map hk, hnone k ⟨hk, ?_⟩⟩
        rw [hlast]
        exact Finset.notMem_empty k
      · rintro ⟨hk, hopen⟩
        by_contra hno
        cases hopen.symm.trans (hcall.removed k hk hno)
    exact ⟨heq, by rw [← heq]⟩

/-- SIGINT with tags 1 and 2 in the map. -/
def exitWithTwo : List Act :=
  [.connect, .pass, .sendOk, .gotOk, .publishMsg 1, .deliver 1, .checkTag .loop {1} 1,
    .checked .loop, .pass, .sendOk, .pauseOver, .gotOk, .publishMsg 2, .deliver 2,
    .checkTag .loop {2, 1} 2, .checkTag .loop {1} 1, .checked .loop, .sigint, .sigClose, .exitTop]

/-- The wait for tag 1 runs out; tag 2 is acked while it is waited for. -/
def oneGivenUp : List Act :=
  [.checkTag .exit {2, 1} 2, .checkTag .exit {1} 1, .checked .exit, .waitNext {2, 1} 1,
    .waitTimeout 1 {2}, .waitNext {2} 2, .ack 2, .waitDone 2 ∅]

/-- The same, but tag 1 is acked too while tag 2 is waited for. -/
def ackedMeanwhile : List Act :=
  [.checkTag .exit {2, 1} 2, .checkTag .exit {1} 1, .checked .exit, .waitNext {2, 1} 1,
    .waitTimeout 1 {2}, .waitNext {2} 2, .ack 1, .ack 2, .waitDone 2 ∅]

theorem report_wrong :
    ¬ ∀ continuous as (s t u : State), s.handler = .check .exit s.confirms →
      (publisher continuous).run s as = some t → (publisher continuous).Meets Waiting s as →
      t.handler = .wait ∅ → (publisher continuous).Steps Returning t u →
      ReportExact s t (next continuous u .waited) := by
  intro hall
  obtain ⟨s, -, hbegin, t, ht, hwait, hlast, hbad⟩ := Machine.reach_any_of_run
    (m := publisher true)
    (P := fun s => s.handler = .check .exit s.confirms ∧
      ∃ t ∈ (publisher true).run s ackedMeanwhile,
        (publisher true).Meets Waiting s ackedMeanwhile ∧ t.handler = .wait ∅ ∧
        ¬ ReportExact s t (next true t .waited)) exitWithTwo (by decide)
  exact hbad (hall true ackedMeanwhile s t t hbegin ht hwait hlast (Machine.Steps.refl _ t))

theorem report_exact_iff_one : ∃ s t : State, (next true t .waited).exitReport = some 1 ∧
    ReportExact s t (next true t .waited) := by
  obtain ⟨s, -, hbegin, hin, t, ht, hwait, hlast, hone⟩ := Machine.reach_any_of_run
    (m := publisher true)
    (P := fun s => s.handler = .check .exit s.confirms ∧
      (publisher true).Meets InTime s oneGivenUp ∧
      ∃ t ∈ (publisher true).run s oneGivenUp, (publisher true).Meets Waiting s oneGivenUp ∧
        t.handler = .wait ∅ ∧ (next true t .waited).exitReport = some 1) exitWithTwo (by decide)
  exact ⟨s, t, hone,
    (report_exact_iff oneGivenUp s t t hbegin ht hwait hlast (Machine.Steps.refl _ t)).mpr hin⟩

end RabbitmqCluster.Publisher
