import RabbitmqCluster.Clients.PublisherWindow
import Mathlib.Algebra.Order.BigOperators.Group.List
import Mathlib.Algebra.Order.Group.Nat
import Mathlib.Data.Finset.SDiff

/-! @src clients/go/publisher.go | scheme:machine | family:flow-control

    Does the OK always come back? The handler looks at the size of its map once per received
    confirmation. When that look finds nine unacked tags it gives no OK and parks on `confirmsCh`,
    while `publish` waits for the OK before it can send there: both wait for each other, and no ack
    wakes either (`circular_wait_stays`, `circular_wait`). In the runs in which no check leaves
    nine tags, the wait is never circular, and once every tag is acked the publisher can get the OK
    and publish again by the steps of its own two loops (`flow_live`). -/

namespace RabbitmqCluster.Publisher

open RabbitmqCluster.Schemes

variable {continuous : Bool} {C : State → Act → Prop}

/-- `publish` waits for the OK, none is in the buffer, and the handler waits for a confirmation. -/
def CircularWait (s : State) : Prop :=
  s.publish = .awaitOk ∧ s.publishOkCh = false ∧ s.handler = .recv

instance : DecidablePred CircularWait := fun s =>
  inferInstanceAs (Decidable (s.publish = .awaitOk ∧ s.publishOkCh = false ∧ s.handler = .recv))

/-- The broker has acked every published tag. -/
def AllAcked (s : State) : Prop := ∀ t ∈ s.published, s.broker t = .acked

/-- Not an exit request. -/
def NoExit (_ : State) : Act → Prop
  | .sigint => False
  | .sigClose => False
  | .closeExit => False
  | _ => True

/-- A step of the two loops alone: no exit request, nothing from the broker. -/
def Quiet (s : State) : Act → Prop
  | .ack _ => False
  | .nack _ => False
  | .connLoss => False
  | a => NoExit s a

/-- The two loops can bring `publish` to its next publish, and the library takes it as long as the
    connection is up. -/
def CanPublish (continuous : Bool) (s : State) : Prop :=
  ∃ s', (publisher continuous).Steps Quiet s s' ∧ s'.publish = .publishing ∧
    (s.connected = true → ∃ t, enabled s' (.publishMsg t) = true)

/-- As long as no exit was requested there is no circular wait, and a running program whose tags
    are all acked can publish again. -/
def FlowLive (continuous : Bool) (s : State) : Prop :=
  s.exitClosed = false →
    ¬ CircularWait s ∧ (s.process = .running → AllAcked s → CanPublish continuous s)

/-! ### The circular wait -/

/-- Whatever the broker does, a circular wait ends only with an exit request. -/
theorem circular_wait_stays (s s' : State) (hr : (publisher continuous).Reach C s)
    (hopen : s.exitClosed = false) (h : CircularWait s)
    (hrun : (publisher continuous).Steps NoExit s s') : CircularWait s' := by
  have hinv : CircularWait s' ∧ s'.exitClosed = false ∧ s'.confirmsDoneCh = false := by
    have hdone : s.confirmsDoneCh = false := by
      by_contra hd
      have hfin := (exits s hr).closed (by simpa using hd)
      exact absurd (h.2.2.symm.trans hfin) nofun
    refine Machine.Steps.inv (m := publisher continuous) (C := NoExit)
      (I := fun s => CircularWait s ∧ s.exitClosed = false ∧ s.confirmsDoneCh = false)
      ?_ hrun ⟨h, hopen, hdone⟩
    rintro s a ⟨⟨hp, hok, hh⟩, ho, hd⟩ he hc
    have hg := (enabled_iff.mp he).2
    cases a with
    | stillWaiting => exact ⟨⟨hp, hok, hh⟩, ho, hd⟩
    | ack t => exact ⟨⟨hp, hok, hh⟩, ho, hd⟩
    | nack t => exact ⟨⟨hp, hok, hh⟩, ho, hd⟩
    | connLoss => exact ⟨⟨hp, hok, hh⟩, ho, hd⟩
    | sigint => exact hc.elim
    | sigClose => exact hc.elim
    | closeExit => exact hc.elim
    | _ => simp [guard, hp, hok, hh, ho, hd] at hg
  exact hinv.1

/-- `checkConfirmations` visits the keys `ks` and finds none acked. -/
def visits (c : Caller) : List ℕ → List Act
  | [] => [.checked c]
  | k :: ks => .checkTag c (k :: ks).toFinset k :: visits c ks

/-- One publish whose confirmation joins the earlier, unacked ones. -/
def unackedRound (t : ℕ) : List Act :=
  [.pass, .sendOk, .gotOk, .publishMsg t, .deliver t] ++ visits .loop (List.range' 1 t).reverse ++
    [.pauseOver]

/-- Nine publishes before the first ack, then the ninth look at the map. -/
def nineUnacked : List Act :=
  [.connect] ++ (List.range' 1 9).flatMap unackedRound ++ [.pass]

theorem nineUnacked_run : ∃ s ∈ (publisher true).run init nineUnacked,
    s.exitClosed = false ∧ CircularWait s := by
  decide +kernel

theorem circular_wait :
    ¬ ∀ s, (publisher true).Reach Machine.Any s → FlowLive true s := by
  intro hall
  obtain ⟨s, hs, hopen, hwait⟩ := Machine.reach_any_of_run (m := publisher true)
    (P := fun s => s.exitClosed = false ∧ CircularWait s) nineUnacked nineUnacked_run
  exact (hall s hs hopen).1 hwait

/-! ### Runs that free a slot in every check -/

/-- Whenever `checkConfirmations` comes to its last key, that tag is acked or at most eight tags
    are left; and the timer of the OK, which is never blocked, is not what the handler takes. -/
def SlotFreed (s : State) : Act → Prop
  | .checkTag .loop todo k => todo = {k} → s.broker k = .acked ∨ s.confirms.card ≤ threshold
  | .sendOkTimeout => False
  | _ => True

instance (s : State) (a : Act) : Decidable (SlotFreed s a) := by
  unfold SlotFreed
  split <;> infer_instance

/-- After a check there is room for an OK, and a handler that waits for a confirmation has given
    the OK for it. -/
structure Freed (s : State) : Prop where
  top : s.handler = .top → s.confirms.card ≤ threshold
  checked : s.handler = .check .loop ∅ → s.confirms.card ≤ threshold
  out : s.handler = .recv → s.publishOkCh = true ∨ s.publish.busy = true

theorem freed_step (s : State) (a : Act) (hr : Ranges s) (hex : Exits continuous s)
    (hfit : s.confirms.card ≤ 9) (h : Freed s) (hg : guard s a = true) (hc : SlotFreed s a) :
    Freed (next continuous s a) := by
  cases a with
  | connect =>
    simp only [guard, decide_eq_true_eq] at hg
    exact ⟨h.top, h.checked, fun hh => (h.out hh).imp_right fun hb => by rw [hg] at hb; exact hb⟩
  | gotOk => exact ⟨h.top, h.checked, fun _ => Or.inr rfl⟩
  | okDone =>
    simp only [guard, Bool.and_eq_true, decide_eq_true_eq] at hg
    exact ⟨h.top, h.checked, fun hh => absurd (hh.symm.trans (hex.closed hg.2)) (by rintro ⟨⟩)⟩
  | publishMsg t => exact ⟨h.top, h.checked, fun _ => Or.inr rfl⟩
  | deliver t =>
    refine ⟨by rintro ⟨⟩, fun hh => ?_, by rintro ⟨⟩⟩
    simp only [next, HandlerPc.check.injEq, true_and] at hh
    exact absurd hh (Finset.insert_ne_empty t _)
  | deliverDone t =>
    simp only [guard, Bool.and_eq_true, decide_eq_true_eq] at hg
    exact ⟨h.top, h.checked, fun hh => absurd (hh.symm.trans (hex.closed hg.2)) (by rintro ⟨⟩)⟩
  | pauseDone =>
    simp only [guard, Bool.and_eq_true, decide_eq_true_eq] at hg
    exact ⟨h.top, h.checked, fun hh => absurd (hh.symm.trans (hex.closed hg.2)) (by rintro ⟨⟩)⟩
  | pauseOver =>
    simp only [guard, decide_eq_true_eq] at hg
    exact ⟨h.top, h.checked, fun hh => (h.out hh).imp_right fun hb => by rw [hg] at hb; cases hb⟩
  | closeExit =>
    simp only [guard, decide_eq_true_eq] at hg
    exact ⟨h.top, h.checked, fun hh => (h.out hh).imp_right fun hb => by rw [hg] at hb; cases hb⟩
  | stopDone =>
    simp only [guard, Bool.and_eq_true, decide_eq_true_eq] at hg
    exact ⟨h.top, h.checked, fun hh => absurd (hh.symm.trans (hex.closed hg.2)) (by rintro ⟨⟩)⟩
  | stopTimeout =>
    simp only [guard, decide_eq_true_eq] at hg
    exact ⟨h.top, h.checked, fun hh => (h.out hh).imp_right fun hb => by rw [hg] at hb; cases hb⟩
  | exitTop => refine ⟨?_, ?_, ?_⟩ <;> rintro ⟨⟩
  | exitRecv => refine ⟨?_, ?_, ?_⟩ <;> rintro ⟨⟩
  | pass =>
    simp only [guard, Bool.and_eq_true, decide_eq_true_eq] at hg
    simp only [next]
    rw [if_pos (h.top hg.1)]
    refine ⟨?_, ?_, ?_⟩ <;> rintro ⟨⟩
  | sendOk => exact ⟨by rintro ⟨⟩, by rintro ⟨⟩, fun _ => Or.inl rfl⟩
  | sendOkTimeout => exact hc.elim
  | checkTag c todo k =>
    simp only [guard, Bool.and_eq_true, decide_eq_true_eq] at hg
    simp only [Ranges, hg.1] at hr
    have hlast : todo.erase k = ∅ → todo = {k} := fun he =>
      ((Finset.erase_eq_empty_iff todo k).mp he).resolve_left (Finset.ne_empty_of_mem hg.2)
    have hcard := Finset.card_erase_of_mem (hr hg.2)
    simp only [next]
    split
    · refine ⟨by rintro ⟨⟩, fun _ => ?_, by rintro ⟨⟩⟩
      simp only [State.confirm, threshold]; omega
    · next hack =>
      refine ⟨by rintro ⟨⟩, fun hh => ?_, by rintro ⟨⟩⟩
      simp only [HandlerPc.check.injEq] at hh
      obtain ⟨rfl, hempty⟩ := hh
      exact (hc (hlast hempty)).resolve_left hack
  | checked c =>
    simp only [guard, decide_eq_true_eq] at hg
    cases c with
    | loop => exact ⟨fun _ => h.checked hg, by rintro ⟨⟩, by rintro ⟨⟩⟩
    | exit => refine ⟨?_, ?_, ?_⟩ <;> rintro ⟨⟩
  | waitNext todo k => refine ⟨?_, ?_, ?_⟩ <;> rintro ⟨⟩
  | waitDone k todo => refine ⟨?_, ?_, ?_⟩ <;> rintro ⟨⟩
  | waitTimeout k todo => refine ⟨?_, ?_, ?_⟩ <;> rintro ⟨⟩
  | waited => refine ⟨?_, ?_, ?_⟩ <;> rintro ⟨⟩
  | closeDone => refine ⟨?_, ?_, ?_⟩ <;> rintro ⟨⟩
  | _ => exact ⟨h.top, h.checked, h.out⟩

theorem map_le_nine (s : State) (h : (publisher continuous).Reach Machine.Any s) :
    s.confirms.card ≤ 9 := by
  have hfits := window_fits s h
  simp only [Window.Fits, State.window, threshold] at hfits
  omega

theorem freed (s : State) (h : (publisher continuous).Reach SlotFreed s) : Freed s :=
  Machine.inv_under (m := publisher continuous) (I := Freed)
    (fun s hs => And.intro (ranges s hs) (And.intro (exits s hs) (map_le_nine s hs.any)))
    ⟨fun _ => Nat.zero_le _, nofun, nofun⟩
    (fun s a hj hs he hc =>
      freed_step s a hj.1 hj.2.1 hj.2.2 hs (enabled_iff.mp he).2 hc) s h

/-! ### The way to the next publish -/

theorem quiet_step (continuous : Bool) {s : State} (a : Act) (hrun : s.process = .running)
    (hg : guard s a = true)
    (hq : Quiet s a) : (publisher continuous).Steps Quiet s (next continuous s a) :=
  Machine.Steps.one (m := publisher continuous) a (enabled_iff.mpr ⟨hrun, hg⟩) hq

/-- A check of acked tags deletes them all; it touches nothing but the map and the log. -/
theorem drain (continuous : Bool) (todo : Finset ℕ) : ∀ s : State, s.process = .running →
    s.handler = .check .loop todo → (∀ t ∈ todo, s.broker t = .acked) →
    ∃ log, (publisher continuous).Steps Quiet s
      { s with handler := .check .loop ∅, confirms := s.confirms \ todo, confirmedLog := log } := by
  induction todo using Finset.induction_on with
  | empty =>
    intro s _ hh _
    refine ⟨s.confirmedLog, ?_⟩
    rw [Finset.sdiff_empty, ← hh]
    exact Machine.Steps.refl _ s
  | insert k todo hk ih =>
    intro s hrun hh hack
    have hkack := hack k (Finset.mem_insert_self k todo)
    have hstep := quiet_step continuous (.checkTag .loop (insert k todo) k) hrun
      (by simp [guard, hh]) trivial
    simp only [next, hkack, if_true, Finset.erase_insert hk] at hstep
    obtain ⟨log, hrest⟩ := ih { s.confirm k with handler := .check .loop todo } hrun rfl
      (fun t ht => hack t (Finset.mem_insert_of_mem ht))
    refine ⟨log, hstep.trans ?_⟩
    have hmap : s.confirms.erase k \ todo = s.confirms \ insert k todo := by
      rw [Finset.erase_sdiff_comm, ← Finset.sdiff_insert]
    rw [← hmap]
    exact hrest

/-- From the end of a check that left room, the handler gives the OK. -/
theorem offer {s : State} (hrun : s.process = .running) (hh : s.handler = .check .loop ∅)
    (hopen : s.exitClosed = false) (hroom : s.confirms.card ≤ threshold)
    (hok : s.publishOkCh = false) :
    (publisher continuous).Steps Quiet s { s with handler := .recv, publishOkCh := true } := by
  have htop := quiet_step continuous (.checked .loop) hrun
    (by simp [guard, hh]) trivial
  have hpass := quiet_step continuous (s := { s with handler := .top }) .pass hrun
    (by simpa [guard, State.exitClosed] using hopen) trivial
  simp only [next, if_pos hroom] at hpass
  have hsend := quiet_step continuous (s := { s with handler := .offerOk }) .sendOk
    hrun (by simp [guard, hok]) trivial
  exact (htop.trans hpass).trans hsend

/-- With the OK in the buffer, an idle `publish` in continuous mode comes to its publish. -/
theorem take_ok {s : State} (hrun : s.process = .running) (hok : s.publishOkCh = true)
    (hp : s.publish = .connecting ∨ s.publish = .awaitOk ∨ s.publish = .pause) :
    ∃ s', (publisher true).Steps Quiet s s' ∧ s'.publish = .publishing ∧
      s'.process = .running ∧ s'.connected = s.connected := by
  have hgot := quiet_step true (s := { s with publish := .awaitOk }) .gotOk hrun
    (by simp [guard, hok]) trivial
  refine ⟨{ s with publish := .publishing, publishOkCh := false }, ?_, rfl, hrun, rfl⟩
  rcases hp with hp | hp | hp
  · have hconn := quiet_step true .connect hrun (by simp [guard, hp]) trivial
    exact hconn.trans hgot
  · have hself : { s with publish := .awaitOk } = s := by rw [← hp]
    rw [hself] at hgot
    exact hgot
  · have hover := quiet_step true .pauseOver hrun (by simp [guard, hp]) trivial
    exact hover.trans hgot

/-- The same from the end of a check. -/
theorem offer_take {s : State} (hrun : s.process = .running) (hh : s.handler = .check .loop ∅)
    (hopen : s.exitClosed = false) (hroom : s.confirms.card ≤ threshold)
    (hok : s.publishOkCh = false)
    (hp : s.publish = .connecting ∨ s.publish = .awaitOk ∨ s.publish = .pause) :
    ∃ s', (publisher true).Steps Quiet s s' ∧ s'.publish = .publishing ∧
      s'.process = .running ∧ s'.connected = s.connected := by
  obtain ⟨s', hs, hrest⟩ := take_ok (s := { s with handler := .recv, publishOkCh := true })
    hrun rfl hp
  exact ⟨s', (offer hrun hh hopen hroom hok).trans hs, hrest⟩

/-- A check of a nonempty rest of acked tags ends with room for the OK. -/
theorem drain_take {s : State} {todo : Finset ℕ} (hrun : s.process = .running)
    (hh : s.handler = .check .loop todo) (hopen : s.exitClosed = false)
    (hack : ∀ t ∈ todo, s.broker t = .acked) (hroom : (s.confirms \ todo).card ≤ threshold)
    (hok : s.publishOkCh = false)
    (hp : s.publish = .connecting ∨ s.publish = .awaitOk ∨ s.publish = .pause) :
    ∃ s', (publisher true).Steps Quiet s s' ∧ s'.publish = .publishing ∧
      s'.process = .running ∧ s'.connected = s.connected := by
  obtain ⟨log, hdrain⟩ := drain true todo s hrun hh hack
  obtain ⟨s', hs, hrest⟩ := offer_take
    (s := { s with handler := .check .loop ∅, confirms := s.confirms \ todo, confirmedLog := log })
    hrun rfl hopen hroom hok hp
  exact ⟨s', hdrain.trans hs, hrest⟩

/-- While no exit was requested, an idle `publish` in continuous mode is on its way to the OK. -/
theorem idle_cases {s : State} (hex : Exits true s) (hopen : s.exitClosed = false)
    (hidle : s.publish.busy = false) :
    s.publish = .connecting ∨ s.publish = .awaitOk ∨ s.publish = .pause := by
  have hloop : s.handler.inLoop = true := by
    by_contra hl
    have hclosed := hex.left (by simpa using hl)
    exact absurd (hopen.symm.trans hclosed) (by decide)
  have hdone : s.publish ≠ .returned .allConfirmsSeen := fun hret => by
    rw [hex.closed (hex.seen hret)] at hloop
    exact absurd hloop (by decide)
  have hstop := hex.single rfl
  cases hp : s.publish with
  | connecting => exact Or.inl rfl
  | awaitOk => exact Or.inr (Or.inl rfl)
  | pause => exact Or.inr (Or.inr rfl)
  | publishing => rw [hp] at hidle; cases hidle
  | handOver t => rw [hp] at hidle; cases hidle
  | initiateStop => rw [hp] at hstop; cases hstop
  | stopping => rw [hp] at hstop; cases hstop
  | returned o =>
    cases o with
    | allConfirmsSeen => exact absurd hp hdone
    | maybeOutstanding => rw [hp] at hstop; cases hstop

/-- Once every tag is acked, the loops bring `publish` to its next publish. -/
theorem reaches_publish (s : State) (h : (publisher true).Reach SlotFreed s)
    (hopen : s.exitClosed = false) (hrun : s.process = .running) (hack : AllAcked s) :
    ∃ s', (publisher true).Steps Quiet s s' ∧ s'.publish = .publishing ∧
      s'.process = .running ∧ s'.connected = s.connected := by
  have hfr := freed s h
  have hcr := credit s h
  have hex := exits s h
  have hrg := ranges s h
  have hfit := map_le_nine s h.any
  have hled := ledger s h
  have hmapack : ∀ t ∈ s.confirms, s.publish.isReturned = false → s.broker t = .acked := by
    intro t ht hr
    refine hack t ?_
    rw [hled.handed hr]
    exact List.mem_append_left _ ((hled.split t).mpr (Or.inl ht))
  have hloop : s.handler.inLoop = true := by
    by_contra hl
    have hclosed := hex.left (by simpa using hl)
    exact absurd (hopen.symm.trans hclosed) (by decide)
  have notReturned : (s.publish = .connecting ∨ s.publish = .awaitOk ∨ s.publish = .pause) →
      s.publish.isReturned = false := by
    rintro (hp | hp | hp) <;> rw [hp] <;> rfl
  cases hh : s.handler with
  | top =>
    obtain ⟨hok, hidle⟩ := hcr.settling (by rw [hh]; rfl)
    have hp := idle_cases hex hopen hidle
    have hpass := quiet_step true .pass hrun
      (by simp [guard, hh, hopen]) trivial
    simp only [next, if_pos (hfr.top hh)] at hpass
    have hsend := quiet_step true (s := { s with handler := .offerOk }) .sendOk
      hrun (by simp [guard, hok]) trivial
    obtain ⟨s', hs, hrest⟩ := take_ok (s := { s with handler := .recv, publishOkCh := true })
      hrun rfl hp
    exact ⟨s', (hpass.trans hsend).trans hs, hrest⟩
  | offerOk =>
    obtain ⟨hok, hidle⟩ := hcr.settling (by rw [hh]; rfl)
    have hp := idle_cases hex hopen hidle
    have hsend := quiet_step true .sendOk hrun (by simp [guard, hh, hok]) trivial
    obtain ⟨s', hs, hrest⟩ := take_ok (s := { s with handler := .recv, publishOkCh := true })
      hrun rfl hp
    exact ⟨s', hsend.trans hs, hrest⟩
  | check c todo =>
    cases c with
    | loop =>
      obtain ⟨hok, hidle⟩ := hcr.settling (by rw [hh]; rfl)
      have hp := idle_cases hex hopen hidle
      simp only [Ranges, hh] at hrg
      refine drain_take hrun hh hopen (fun t ht => hmapack t (hrg ht) (notReturned hp)) ?_ hok hp
      rcases todo.eq_empty_or_nonempty with rfl | hne
      · rw [Finset.sdiff_empty]; exact hfr.checked hh
      · have hcard := Finset.card_sdiff_of_subset hrg
        have hpos := hne.card_pos
        simp only [threshold]; omega
    | exit => rw [hh] at hloop; cases hloop
  | recv =>
    rcases hfr.out hh with hok | hbusy
    · have hidle : s.publish.busy = false := by
        by_contra hb
        have hempty := hcr.taken (by simpa using hb)
        rw [hok] at hempty
        cases hempty
      exact take_ok hrun hok (idle_cases hex hopen hidle)
    · cases hp : s.publish with
      | publishing => exact ⟨s, Machine.Steps.refl _ s, hp, hrun, rfl⟩
      | handOver t =>
        have hok := hcr.taken hbusy
        have hdel := quiet_step true (.deliver t) hrun
          (by simp [guard, hp, hh]) trivial
        have hall : ∀ u ∈ insert t s.confirms, s.broker u = .acked := by
          intro u hu
          have hret : s.publish.isReturned = false := by rw [hp]; rfl
          rcases Finset.mem_insert.mp hu with rfl | hmap
          · refine hack u ?_
            rw [hled.handed hret, hp]
            exact List.mem_append_right _ (by simp [PublishPc.held])
          · exact hmapack u hmap hret
        obtain ⟨s', hs, hrest⟩ := drain_take (s := next true s (.deliver t)) hrun rfl hopen hall
          (by simp [next]) hok (Or.inr (Or.inr rfl))
        exact ⟨s', hdel.trans hs, hrest⟩
      | _ => rw [hp] at hbusy; cases hbusy
  | _ => rw [hh] at hloop; cases hloop

/-- CORRECT: in every continuous run whose checks each free a slot, there is no circular wait, and
    once every tag is acked the publisher can publish again without an exit request. -/
theorem flow_live (s : State) (h : (publisher true).Reach SlotFreed s) : FlowLive true s := by
  intro hopen
  refine ⟨?_, fun hrun hack => ?_⟩
  · rintro ⟨hp, hok, hh⟩
    rcases (freed s h).out hh with hset | hbusy
    · exact absurd (hok.symm.trans hset) (by decide)
    · rw [hp] at hbusy; cases hbusy
  · obtain ⟨s', hs, hp, hrun', hconn⟩ := reaches_publish s h hopen hrun hack
    refine ⟨s', hs, hp, fun hup => ⟨s'.published.sum + 1, ?_⟩⟩
    rw [enabled_iff]
    refine ⟨hrun', ?_⟩
    simp only [guard, hp, hconn, hup, Bool.and_self, decide_true, Bool.true_and,
      List.all_eq_true, decide_eq_true_eq]
    exact fun u hu => Nat.lt_succ_of_le (List.le_sum_of_mem hu)

/-- Nine publishes before the first ack: the ninth confirmation fills the map. -/
def nineHandedOver : List Act :=
  [.connect] ++ (List.range' 1 8).flatMap unackedRound ++
    [.pass, .sendOk, .gotOk, .publishMsg 9, .deliver 9]

/-- Tag 1 is acked before the ninth check comes to it, and there is an OK for a tenth publish. -/
def ninthCheck : List Act :=
  [.ack 1] ++ visits .loop (List.range' 1 9).reverse ++
    [.pass, .sendOk, .pauseOver, .gotOk, .publishMsg 10]

theorem ninthCheck_run : ∃ s ∈ (publisher true).run init nineHandedOver,
    (publisher true).Meets SlotFreed init nineHandedOver ∧ s.confirms.card = 9 ∧
    ∃ t ∈ (publisher true).run s ninthCheck, (publisher true).Meets SlotFreed s ninthCheck ∧
      t.confirms.card = 8 ∧ t.published.length = 10 := by
  decide +kernel

theorem flow_live_full : ∃ s t, s.confirms.card = 9 ∧ FlowLive true s ∧
    (publisher true).Steps SlotFreed s t ∧ t.confirms.card = 8 ∧ t.published.length = 10 ∧
    FlowLive true t := by
  obtain ⟨s, hs, hms, hfull, t, ht, hmt, hleft, hten⟩ := ninthCheck_run
  have hreach : (publisher true).Reach SlotFreed s := Machine.steps_of_run hs hms
  have hsteps : (publisher true).Steps SlotFreed s t := Machine.steps_of_run ht hmt
  exact ⟨s, t, hfull, flow_live s hreach, hsteps, hleft, hten, flow_live t (hreach.trans hsteps)⟩

end RabbitmqCluster.Publisher
