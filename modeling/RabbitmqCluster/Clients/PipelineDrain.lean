import RabbitmqCluster.Clients.Pipeline
import Mathlib.Data.Finset.Lattice.Fold

/-! @src clients go/consumer.go | scheme:delivery | family:recovery

    A new consumer gets everything. From every state of a run, whatever its consumer was doing when
    it is killed, the next consumer can handle and ack all that the queue has: first what the one
    before it left unacked, then what still waited, each in its order (`drained`). Nothing of this
    needs a step of the publisher.

        kill ─▶ requeue ─▶ restart ─▶ (push ─▶ take ─▶ ack ─▶ commit)* ─▶ ready = out = [] -/

namespace RabbitmqCluster.Pipeline

open RabbitmqCluster.Schemes RabbitmqCluster.Clients

variable {top : Topology} {lifetime : ℤ} {continuous : Bool} {s : State}

/-- The consumer waits for the next delivery, and nothing is out. -/
structure Serving (s : State) : Prop where
  running : s.consumer.process = .running
  consuming : s.consumer.consuming = true
  channel : s.consumer.channelOpen = true
  handle : s.consumer.handle = .range
  buffered : s.consumer.buffered = []
  out : s.queue.out = []
  tagged : ∀ e ∈ s.tagged, e.1 ∈ s.consumer.counted
  counted : ∀ d ∈ s.consumer.counted, d ∈ s.consumer.pushed

/-- The state after the message is pushed, handled, acked and dropped. -/
def served (s : State) (d t : ℕ) : State :=
  { s with
    consumer :=
      { s.consumer with
        handle := .range
        buffered := []
        pushed := s.consumer.pushed ++ [d]
        counted := s.consumer.counted ++ [d]
        acked := s.consumer.acked ++ [d] }
    queue :=
      { s.queue with
        ready := s.queue.ready.tail
        out := []
        done := s.queue.done ++ [t]
        handed := s.queue.handed ++ [t] }
    tagged := s.tagged ++ [(d, t)] }

/-- The actions of one delivery. -/
def delivery (d t : ℕ) : List Act :=
  [.push d t, .consumer (.take d), .consumer (.bodyEnd d), .commit d t]

variable (top lifetime continuous) in
theorem served_run {d t : ℕ} (h : Serving s) (hd : ∀ e ∈ s.consumer.pushed, e < d)
    (ht : s.queue.ready.head? = some t) :
    (pipeline top lifetime false continuous).run s (delivery d t) = some (served s d t) := by
  obtain ⟨hrun, hcons, hch, hhandle, hbuf, hout, -, -⟩ := h
  simpa [delivery, Machine.run, pipeline, enabled, next, served, isPush, Consumer.enabled,
    Consumer.guard, Consumer.next, Consumer.State.ackCall, Delivery.next, *] using hd

theorem served_serving {d t : ℕ} (h : Serving s) : Serving (served s d t) where
  running := h.running
  consuming := h.consuming
  channel := h.channel
  handle := rfl
  buffered := rfl
  out := rfl
  tagged e he := by
    rcases List.mem_append.mp he with he | he
    · exact List.mem_append_left _ (h.tagged e he)
    · rw [List.mem_singleton.mp he]
      exact List.mem_append_right _ (List.mem_singleton_self d)
  counted e he := by
    rcases List.mem_append.mp he with he | he
    · exact List.mem_append_left _ (h.counted e he)
    · exact List.mem_append_right _ he

theorem Serving.handled (h : Serving s) : s.handled = s.earlier ++ s.tagged.map Prod.snd := by
  rw [State.handled, List.filter_eq_self.mpr fun e he => by simpa using h.tagged e he]

/-- What the runs of a consumer leave as it is, and what they make of the queue. -/
structure Drained (s u : State) (ts : List ℕ) : Prop where
  publisher : u.publisher = s.publisher
  accepted : u.queue.accepted = s.queue.accepted
  ready : u.queue.ready = []
  out : u.queue.out = []
  handled : u.handled = s.handled ++ ts

variable (top lifetime continuous) in
/-- A consumer that waits can handle all that is ready, in order. -/
theorem serve_all (ts : List ℕ) (h : Serving s) (ht : s.queue.ready = ts) :
    ∃ u, (pipeline top lifetime false continuous).Steps Machine.Any s u ∧ Drained s u ts := by
  induction ts generalizing s with
  | nil => exact ⟨s, Machine.Steps.refl _ s, rfl, rfl, ht, h.out, (List.append_nil _).symm⟩
  | cons t ts ih =>
    obtain ⟨d, hd⟩ : ∃ d, ∀ e ∈ s.consumer.pushed, e < d := by
      refine ⟨s.consumer.pushed.toFinset.sup id + 1, fun e he => Nat.lt_succ_of_le ?_⟩
      exact Finset.le_sup (f := id) (List.mem_toFinset.mpr he)
    have hrun := served_run top lifetime continuous h hd (by rw [ht]; rfl)
    have hserving := served_serving (d := d) (t := t) h
    obtain ⟨u, hu, hdrained⟩ := ih hserving (by simp [served, ht])
    refine ⟨u, (Machine.steps_of_run hrun (Machine.meets_any _ _)).trans hu, hdrained.publisher,
      hdrained.accepted, hdrained.ready, hdrained.out, ?_⟩
    rw [hdrained.handled, hserving.handled, h.handled]
    simp [served]

/-- The state in which the next consumer starts. -/
def restarted (lifetime : ℤ) (s : State) : State :=
  { s with
    consumer := Consumer.init lifetime
    queue := Delivery.next s.queue .giveBack
    tagged := []
    earlier := s.handled }

theorem restarted_serving (s : State) : Serving (restarted lifetime s) :=
  ⟨rfl, rfl, rfl, rfl, rfl, rfl, List.forall_mem_nil _, List.forall_mem_nil _⟩

variable (top lifetime continuous) in
/-- The consumer is killed if it runs, the broker takes back what was out, and the next one
    starts. -/
theorem restarted_steps (s : State) : (pipeline top lifetime false continuous).Steps Machine.Any s
    (restarted lifetime s) := by
  by_cases hrun : s.consumer.process = .running
  · have hword : (pipeline top lifetime false continuous).run s [.kill, .requeue, .restart] =
        some (restarted lifetime s) := by
      simp [Machine.run, pipeline, enabled, next, restarted, Delivery.next, State.handled, hrun]
    exact Machine.steps_of_run hword (Machine.meets_any _ _)
  · have hword : (pipeline top lifetime false continuous).run s [.requeue, .restart] =
        some (restarted lifetime s) := by
      simp [Machine.run, pipeline, enabled, next, restarted, Delivery.next, State.handled, hrun]
    exact Machine.steps_of_run hword (Machine.meets_any _ _)

/-- CORRECT: in every state the consumer can be killed and the next one handle and ack all that the
    queue has, what was out before what was ready; then every message that came into the queue has
    been handled. -/
theorem drained (top : Topology) (lifetime : ℤ) (continuous : Bool) (s : State)
    (h : (pipeline top lifetime false continuous).Reach Machine.Any s) :
    ∃ u, (pipeline top lifetime false continuous).Steps Machine.Any s u ∧
      Drained s u (s.queue.out.map Prod.snd ++ s.queue.ready) ∧
      ∀ t ∈ s.queue.accepted, t ∈ u.handled := by
  obtain ⟨u, hu, hdrained⟩ := serve_all top lifetime continuous _ (restarted_serving s) rfl
  have hsteps := (restarted_steps top lifetime continuous s).trans hu
  have hreach : (pipeline top lifetime false continuous).Reach Machine.Any u := h.trans hsteps
  refine ⟨u, hsteps, ⟨hdrained.publisher, hdrained.accepted, hdrained.ready, hdrained.out, ?_⟩,
    fun t ht => ?_⟩
  · rw [hdrained.handled]
    exact congrArg (· ++ _) (List.append_nil s.handled)
  · rw [show s.queue.accepted = u.queue.accepted from hdrained.accepted.symm] at ht
    rcases ((queue_conserved hreach).mem_accepted t).mp ht with hready | ⟨d, hout⟩ | hdone
    · rw [hdrained.ready] at hready
      exact absurd hready List.not_mem_nil
    · rw [hdrained.out] at hout
      exact absurd hout List.not_mem_nil
    · exact doneHandled u hreach t hdone

/-- Killed in the body of its only delivery. -/
theorem drained_killed : ∃ s u : State, s.queue.out = [(1, 1)] ∧ s.handled = [1] ∧
    Drained s u [1] := by
  obtain ⟨s, hs, hout, hready, hhandled⟩ := Machine.reach_any_of_run
    (m := pipeline clientsTopology 0 false true)
    (P := fun s => s.queue.out = [(1, 1)] ∧ s.queue.ready = [] ∧ s.handled = [1])
    (killedInBody.take 10) (by decide +kernel)
  obtain ⟨u, -, hu, -⟩ := drained clientsTopology 0 true s hs
  rw [hout, hready] at hu
  exact ⟨s, u, hout, hhandled, hu⟩

end RabbitmqCluster.Pipeline
