import RabbitmqCluster.Clients.Pipeline

/-! @src clients go/publisher.go go/consumer.go | scheme:delivery | family:exactly-once

    When a message is handled once. A consumer that is killed, or that closes its connection while
    `handle` is in its body, leaves a delivery that is counted and not acked; the next consumer
    handles it again; so does one that loses its channel or connection before its ack. In the runs
    without that, where the broker also processes the acks sent on a connection before it takes the
    rest back, what comes back was never handled (`handled_once`).

        handled ⊆ done ∪ { out, counted }        requeue ∩ counted = ∅ -/

namespace RabbitmqCluster.Pipeline

open RabbitmqCluster.Schemes RabbitmqCluster.Clients

variable {top : Topology} {lifetime : ℤ} {continuous : Bool} {s : State}

/-- No consumer is killed or loses its channel or connection, each acks in time, and the broker
    takes back only what was not acked. -/
def InTime (s : State) : Act → Prop
  | .consumer a => Consumer.Healthy s.consumer a ∧ Consumer.AckInTime s.consumer a
  | .kill => False
  | .requeue => ∀ e ∈ s.queue.out, e.1 ∉ s.consumer.acked
  | _ => True

instance (s : State) (a : Act) : Decidable (InTime s a) := by
  rcases a <;> (dsimp only [InTime]; infer_instance)

/-- What such a run keeps: what was handled is done, or out under a tag that is counted, and on an
    open channel what is not acked is out. -/
structure Once (s : State) : Prop where
  pushed : Consumer.Pushed s.consumer
  acked : Consumer.HandledAcked s.consumer
  nodup : s.handled.Nodup
  settled : ∀ t ∈ s.handled, t ∈ s.queue.done ∨ ∃ d ∈ s.consumer.counted, (d, t) ∈ s.queue.out
  live : s.consumer.channelOpen = true → s.consumer.process = .running →
    ∀ e ∈ s.tagged, e.1 ∉ s.consumer.acked → e ∈ s.queue.out

theorem acked_init : Consumer.HandledAcked (Consumer.init lifetime) :=
  ⟨rfl, List.nodup_nil, rfl, fun _ => rfl, List.forall_mem_nil _⟩

theorem once_init : Once (pipeline top lifetime false continuous).init where
  pushed := Consumer.pushed_init
  acked := acked_init
  nodup := List.nodup_nil
  settled := List.forall_mem_nil _
  live _ _ := List.forall_mem_nil _

/-! ### The consumer -/

/-- Only a take adds to what is counted. -/
theorem counted_same {c : Consumer.State} {a : Consumer.Act} (ha : ∀ d, a ≠ .take d) :
    (Consumer.next false c a).counted = c.counted := by
  cases a with
  | take d => exact absurd rfl (ha d)
  | bodyEnd d =>
    simp only [Consumer.next, Consumer.State.ackCall, Bool.false_eq_true, if_false]
    split <;> rfl
  | cancel p =>
    simp only [Consumer.next, Consumer.State.cancelCall]
    split <;> rfl
  | close p =>
    simp only [Consumer.next, Consumer.State.closeCall]
    split <;> rfl
  | _ => rfl

/-- A channel that is open was open, and what was acked on it stays acked. -/
theorem open_next {c : Consumer.State} (a : Consumer.Act)
    (h : (Consumer.next false c a).channelOpen = true) :
    c.channelOpen = true ∧ ∀ d ∈ c.acked, d ∈ (Consumer.next false c a).acked := by
  cases a with
  | channelLoss => cases h
  | connLoss => cases h
  | bodyEnd d =>
    simp only [Consumer.next, Consumer.State.ackCall, Bool.false_eq_true, if_false] at h ⊢
    split at h
    · next hopen =>
      rw [if_pos hopen]
      exact ⟨hopen, fun e he => List.mem_append_left _ he⟩
    · next hopen => exact absurd h hopen
  | cancel p =>
    simp only [Consumer.next, Consumer.State.cancelCall] at h ⊢
    split at h
    · next hopen => rw [if_pos hopen]; exact ⟨hopen, fun _ he => he⟩
    · next hopen => exact absurd h hopen
  | close p =>
    simp only [Consumer.next, Consumer.State.closeCall] at h ⊢
    split at h
    · cases h
    · next hopen => rw [if_neg hopen]; exact ⟨h, fun _ he => he⟩
  | _ => exact ⟨h, fun _ he => he⟩

/-- The delivery that is taken adds its message to what was handled. -/
theorem handled_take {d t : ℕ} (hl : Linked top s) (hmem : (d, t) ∈ s.tagged)
    (hd : d ∉ s.consumer.counted) :
    (State.handled { s with consumer := Consumer.next false s.consumer (.take d) }).Perm
      (t :: s.handled) := by
  have hnodup : (s.tagged.map Prod.fst).Nodup := hl.pushed ▸ hl.fed.fresh
  obtain ⟨front, back, htagged⟩ := List.append_of_mem hmem
  have hother : ∀ l : List (ℕ × ℕ), (∀ e ∈ l, e.1 ≠ d) →
      l.filter (·.1 ∈ s.consumer.counted ++ [d]) = l.filter (·.1 ∈ s.consumer.counted) := by
    intro l hl
    refine List.filter_congr fun e he => ?_
    simp [hl e he]
  rw [htagged, List.map_append, List.map_cons, List.nodup_middle, List.nodup_cons,
    List.mem_append, not_or] at hnodup
  have hfront : ∀ e ∈ front, e.1 ≠ d := fun e he heq =>
    hnodup.1.1 (List.mem_map.mpr ⟨e, he, heq⟩)
  have hback : ∀ e ∈ back, e.1 ≠ d := fun e he heq =>
    hnodup.1.2 (List.mem_map.mpr ⟨e, he, heq⟩)
  show (s.earlier ++ (s.tagged.filter (·.1 ∈ s.consumer.counted ++ [d])).map Prod.snd).Perm
    (t :: (s.earlier ++ (s.tagged.filter (·.1 ∈ s.consumer.counted)).map Prod.snd))
  rw [htagged, List.filter_append, List.filter_append, List.filter_cons_of_pos (by simp),
    List.filter_cons_of_neg (by simpa using hd), hother front hfront, hother back hback,
    List.map_append, List.map_append, List.map_cons, ← List.append_assoc, ← List.append_assoc]
  exact List.perm_middle

/-! ### One step -/

/-- A message that is out is neither done nor out under another tag. -/
theorem out_once {d t : ℕ} (hq : s.queue.Conserved) (hmem : (d, t) ∈ s.queue.out) :
    t ∉ s.queue.done ∧ ∀ e, (e, t) ∈ s.queue.out → e = d := by
  have hnodup := List.nodup_append.mp hq.nodup
  have hleft := List.nodup_append.mp hnodup.1
  refine ⟨fun hdone => ?_, fun e he => ?_⟩
  · refine hnodup.2.2 t (List.mem_append_right _ ?_) t hdone rfl
    exact List.mem_map.mpr ⟨(d, t), hmem, rfl⟩
  · exact congrArg Prod.fst (List.inj_on_of_nodup_map hleft.2.1 he hmem rfl)

/-- What is taken is out, and was not handled. -/
theorem taken_new {d : ℕ} (hq : s.queue.Conserved) (hl : Linked top s) (h : Once s)
    (he : Consumer.enabled s.consumer (.take d) = true)
    (hc : Consumer.AckInTime s.consumer (.take d)) :
    d ∉ s.consumer.counted ∧ ∃ t, (d, t) ∈ s.tagged ∧ (d, t) ∈ s.queue.out ∧ t ∉ s.handled := by
  obtain ⟨hrun, hg⟩ := Consumer.enabled_iff.mp he
  simp only [Consumer.guard, Bool.and_eq_true, decide_eq_true_eq] at hg
  have hbuf : d ∈ s.consumer.buffered := List.mem_of_mem_head? hg.2
  have hnew : d ∉ s.consumer.counted := fun hin =>
    (List.nodup_append.mp (hl.fed.sub.nodup hl.fed.fresh)).2.2 d hin d hbuf rfl
  have hpush : d ∈ s.tagged.map Prod.fst :=
    hl.pushed ▸ hl.fed.sub.subset (List.mem_append_right _ hbuf)
  obtain ⟨⟨e, t⟩, hmem, rfl⟩ := List.mem_map.mp hpush
  have hopen : s.consumer.channelOpen = true := h.pushed.channel.trans hc
  have hout := h.live hopen hrun _ hmem fun hin => hnew (hl.fed.acked _ hin)
  obtain ⟨hdone, hone⟩ := out_once hq hout
  refine ⟨hnew, t, hmem, hout, fun hin => ?_⟩
  rcases h.settled t hin with hin | ⟨d', hcounted, hin⟩
  · exact hdone hin
  · exact hnew (hone d' hin ▸ hcounted)

theorem once_consumer {a : Consumer.Act} (hq : s.queue.Conserved) (hl : Linked top s) (h : Once s)
    (he : Consumer.enabled s.consumer a = true) (hh : Consumer.Healthy s.consumer a)
    (hc : Consumer.AckInTime s.consumer a) :
    Once { s with consumer := Consumer.next false s.consumer a } := by
  have hrun := (Consumer.enabled_iff.mp he).1
  have hlive : ∀ e ∈ s.tagged, (Consumer.next false s.consumer a).channelOpen = true →
      e.1 ∉ (Consumer.next false s.consumer a).acked → e ∈ s.queue.out := by
    intro e hmem hopen hno
    obtain ⟨hwas, hstill⟩ := open_next a hopen
    exact h.live hwas hrun e hmem fun hin => hno (hstill _ hin)
  refine ⟨Consumer.pushed_step a h.pushed he hh, Consumer.acked_step a h.pushed h.acked he hh hc,
    ?_, ?_, fun hopen _ e hmem => hlive e hmem hopen⟩
  · by_cases ha : ∃ d, a = .take d
    · obtain ⟨d, rfl⟩ := ha
      obtain ⟨hnew, t, hmem, -, hno⟩ := taken_new hq hl h he hc
      exact (handled_take hl hmem hnew).nodup_iff.mpr (List.nodup_cons.mpr ⟨hno, h.nodup⟩)
    · rw [State.handled, counted_same (not_exists.mp ha)]
      exact h.nodup
  · intro u hu
    have hold : u ∈ s.handled → u ∈ s.queue.done ∨
        ∃ d ∈ (Consumer.next false s.consumer a).counted, (d, u) ∈ s.queue.out := by
      intro hin
      rcases h.settled u hin with hdone | ⟨d, hd, hout⟩
      · exact Or.inl hdone
      · exact Or.inr ⟨d, counted_next a d hd, hout⟩
    by_cases ha : ∃ d, a = .take d
    · obtain ⟨d, rfl⟩ := ha
      obtain ⟨hnew, t, hmem, hout, -⟩ := taken_new hq hl h he hc
      rcases List.mem_cons.mp ((handled_take hl hmem hnew).mem_iff.mp hu) with rfl | hu
      · exact Or.inr ⟨d, List.mem_append_right _ (List.mem_singleton_self d), hout⟩
      · exact hold hu
    · rw [State.handled, counted_same (not_exists.mp ha)] at hu
      exact hold hu

/-- A tag is pushed once. -/
theorem push_new {d : ℕ} (he : Consumer.enabled s.consumer (.push d) = true) :
    d ∉ s.consumer.pushed := by
  obtain ⟨-, hg⟩ := Consumer.enabled_iff.mp he
  simp only [Consumer.guard, Bool.and_eq_true, List.all_eq_true, decide_eq_true_eq] at hg
  exact fun hin => (hg.2 d hin).false

theorem once_step (a : Act) (hq : s.queue.Conserved) (hl : Linked top s) (h : Once s)
    (he : enabled top false s a = true) (hc : InTime s a) :
    Once (next lifetime false continuous s a) := by
  cases a with
  | publisher a => exact ⟨h.pushed, h.acked, h.nodup, h.settled, h.live⟩
  | route t => exact ⟨h.pushed, h.acked, h.nodup, h.settled, h.live⟩
  | push d t =>
    simp only [enabled, Bool.and_eq_true] at he
    have hhealthy : Consumer.Healthy s.consumer (.push d) := ⟨by rintro ⟨⟩, by rintro ⟨⟩⟩
    have hnew : d ∉ s.consumer.counted := fun hin =>
      push_new he.1 (hl.fed.sub.subset (List.mem_append_left _ hin))
    have hsame : State.handled (next lifetime false continuous s (.push d t)) = s.handled := by
      show s.earlier ++ ((s.tagged ++ [(d, t)]).filter (·.1 ∈ s.consumer.counted)).map Prod.snd =
        s.handled
      rw [List.filter_append, List.filter_singleton]
      simp [hnew, State.handled]
    refine ⟨Consumer.pushed_step _ h.pushed he.1 hhealthy,
      Consumer.acked_step _ h.pushed h.acked he.1 hhealthy trivial, hsame ▸ h.nodup, ?_, ?_⟩
    · intro u hu
      rw [hsame] at hu
      refine (h.settled u hu).imp id ?_
      rintro ⟨e, hcounted, hout⟩
      exact ⟨e, hcounted, List.mem_append_left _ hout⟩
    · intro hopen hrun e he hno
      rcases List.mem_append.mp he with he | he
      · exact List.mem_append_left _ (h.live hopen hrun e he hno)
      · exact List.mem_append_right _ he
  | consumer a =>
    simp only [enabled, Bool.and_eq_true, Bool.not_eq_true'] at he
    exact once_consumer hq hl h he.2 hc.1 hc.2
  | commit d t =>
    simp only [enabled, Bool.and_eq_true, Bool.false_or, decide_eq_true_eq] at he
    refine ⟨h.pushed, h.acked, h.nodup, fun u hu => ?_, fun hopen hrun e hmem hno => ?_⟩
    · rcases h.settled u hu with hdone | ⟨e, hcounted, hout⟩
      · exact Or.inl (List.mem_append_left _ hdone)
      · by_cases heq : (e, u) = (d, t)
        · rw [(Prod.mk.inj heq).2]
          exact Or.inl (List.mem_append_right _ (List.mem_singleton_self t))
        · exact Or.inr ⟨e, hcounted, (List.mem_erase_of_ne heq).mpr hout⟩
    · refine (List.mem_erase_of_ne ?_).mpr (h.live hopen hrun e hmem hno)
      rintro rfl
      exact hno he.2
  | requeue =>
    simp only [enabled, Bool.not_false, Bool.true_and, Bool.or_eq_true, Bool.not_eq_true',
      decide_eq_true_eq] at he
    have hbody : s.consumer.handle.inBody = [] :=
      h.acked.beforeClose (he.imp_left fun hclosed => h.pushed.channel ▸ hclosed)
    have hall : s.consumer.counted = s.consumer.acked := by
      have hsettled := h.acked.settled
      rwa [hbody, List.append_nil] at hsettled
    refine ⟨h.pushed, h.acked, h.nodup, fun u hu => ?_, fun hopen hrun => ?_⟩
    · rcases h.settled u hu with hdone | ⟨e, hcounted, hout⟩
      · exact Or.inl hdone
      · exact absurd (hall ▸ hcounted) (hc (e, u) hout)
    · rcases he with hclosed | hend
      · cases hclosed.symm.trans hopen
      · exact absurd hrun hend
  | kill => exact hc.elim
  | restart =>
    simp only [enabled, Bool.and_eq_true, decide_eq_true_eq] at he
    have hsame : State.handled (next lifetime false continuous s .restart) = s.handled :=
      List.append_nil s.handled
    refine ⟨Consumer.pushed_init, acked_init, hsame ▸ h.nodup, fun u hu => ?_,
      fun _ _ => List.forall_mem_nil _⟩
    rcases h.settled u (hsame ▸ hu) with hdone | ⟨e, -, hout⟩
    · exact Or.inl hdone
    · rw [he.2] at hout
      exact absurd hout List.not_mem_nil

theorem once : ∀ s, (pipeline top lifetime false continuous).Reach InTime s → Once s := by
  refine Machine.inv_under (J := fun s => s.queue.Conserved ∧ Linked top s) ?_ once_init ?_
  · exact fun s h => ⟨queue_conserved h, linked s h⟩
  · exact fun s a hj h he hc => once_step a hj.1 hj.2 h he hc

/-- CORRECT: where every consumer stops with its acks in time no message is handled twice, in all
    consumers together. -/
theorem handled_once (top : Topology) (lifetime : ℤ) (continuous : Bool) (s : State)
    (h : (pipeline top lifetime false continuous).Reach InTime s) : s.handled.Nodup :=
  (once s h).nodup

/-- Message 1 is handled and acked before SIGINT; message 2 was pushed as well, comes back and is
    handled by the next consumer. -/
def stoppedInTime : List Act :=
  [.publisher .connect, .publisher .pass, .publisher .sendOk, .publisher .gotOk,
    .publisher (.publishMsg 1), .route 1, .publisher (.deliver 1), .publisher .pauseOver,
    .publisher (.checkTag .loop {1} 1), .publisher (.checked .loop), .publisher .pass,
    .publisher .sendOk, .publisher .gotOk, .publisher (.publishMsg 2), .route 2,
    .push 1 1, .push 2 2, .consumer (.take 1), .consumer .sigint, .consumer (.bodyEnd 1),
    .consumer (.cancel .signal), .consumer (.close .signal), .commit 1 1, .requeue,
    .consumer .drop, .consumer .rangeEnd, .consumer (.recv .signal), .consumer (.exit .signal),
    .restart, .push 1 2, .consumer (.take 1)]

theorem handled_once_stopped : ∃ s : State, s.handled = [1, 2] ∧ s.queue.returned = [2] ∧
    s.handled.Nodup := by
  obtain ⟨s, hs, hhandled, hreturned⟩ := Machine.reach_of_run
    (m := pipeline clientsTopology 0 false true) (C := InTime)
    (P := fun s => s.handled = [1, 2] ∧ s.queue.returned = [2]) stoppedInTime
    (by decide +kernel)
  exact ⟨s, hhandled, hreturned, handled_once clientsTopology 0 true s hs⟩

end RabbitmqCluster.Pipeline
