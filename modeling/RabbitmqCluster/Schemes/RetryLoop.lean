import RabbitmqCluster.Schemes.Copies

/-! @scheme retry-loop | family:dead-lettering

    Two queues that dead-letter into each other: a work queue and a queue where rejected messages
    wait. A copy goes round as one copy, whatever it dies of, except where the broker sees a cycle
    without a rejection and drops it (`dies`). So the loop keeps every message that entered it
    exactly in the runs in which no such cycle closes (`kept_exact`).

        entry ─ keys ─▶ work ─ dies ─▶ wait
                          ▲─── dies ───┘ -/

namespace RabbitmqCluster.Schemes.Broker

/-- What is published to `entry` under one of the keys goes to the work queue, nothing else goes
    anywhere, and the two queues dead-letter into each other what has one of the keys. -/
structure DeadLetterLoop (top : Topology) (entry work wait : String) (keys : List String) :
    Prop where
  enter : ∀ m : Message, top.route m entry = if m.key ∈ keys then [work] else []
  toWait : ∃ x, top.deadLetterExchange work = some x ∧
    ∀ m : Message, m.key ∈ keys → top.route m x = [wait]
  toWork : work ≠ wait ∧ ∃ x, top.deadLetterExchange wait = some x ∧
    ∀ m : Message, m.key ∈ keys → top.route m x = [work]

/-- The queue to which a copy in the queue `q` dies. -/
def otherQueue (work wait q : String) : String := if q = work then wait else work

/-- The broker sees a cycle without a rejection in the death of the copy for this reason. -/
def Cycles (work wait : String) (c : Copy) (r : Reason) : Prop :=
  r ≠ .rejected ∧ automaticCycle (otherQueue work wait c.queue)
    (c.msg.die r c.queue c.returns).deaths = true

instance (work wait : String) (c : Copy) (r : Reason) : Decidable (Cycles work wait c r) :=
  inferInstanceAs (Decidable (r ≠ .rejected ∧ automaticCycle (otherQueue work wait c.queue)
    (c.msg.die r c.queue c.returns).deaths = true))

/-- Messages are published to the entry of the loop; anything may happen in its queues. -/
def EntersAt (entry : String) (_ : BrokerState) : BrokerAct → Prop
  | .publish x _ => x = entry
  | .settle _ _ => True

instance (entry : String) (s : BrokerState) (a : BrokerAct) : Decidable (EntersAt entry s a) := by
  rcases a <;> (dsimp only [EntersAt]; infer_instance)

/-- The step closes no cycle without a rejection. -/
def NoCycle (top : Topology) (standard : Option ℤ) (work wait : String) (_ : BrokerState) :
    BrokerAct → Prop
  | .publish _ _ => True
  | .settle k c => ∀ r ∈ death top standard c k, ¬ Cycles work wait c r

instance (top : Topology) (standard : Option ℤ) (work wait : String) (s : BrokerState)
    (a : BrokerAct) : Decidable (NoCycle top standard work wait s a) := by
  rcases a <;> (dsimp only [NoCycle]; infer_instance)

/-- Every message that entered the loop and was not acked is in one of its queues. -/
def LoopKept (top : Topology) (entry work wait : String) (s : BrokerState) : Prop :=
  ∀ m ∈ s.published, work ∈ top.route m entry → m.id ∉ s.acked →
    ∃ c ∈ s.copies, c.msg.id = m.id ∧ (c.queue = work ∨ c.queue = wait)

/-- A message that entered the loop is gone. -/
def LoopLost (top : Topology) (entry work : String) (s : BrokerState) : Prop :=
  ∃ m ∈ s.published, work ∈ top.route m entry ∧ Gone s m.id

/-- A copy in the loop. -/
structure InQueues (work wait : String) (keys : List String) (c : Copy) : Prop where
  queue : c.queue = work ∨ c.queue = wait
  key : c.msg.key ∈ keys

/-- What every run of a loop keeps: its copies are in the two queues, one for a message. -/
structure Looping (work wait : String) (keys : List String) (s : BrokerState) : Prop where
  ledger : Ledger s
  place : ∀ c ∈ s.copies, InQueues work wait keys c
  single : Single s

namespace DeadLetterLoop

variable {top : Topology} {entry work wait : String} {keys : List String} {standard : Option ℤ}
  {s : BrokerState} {c : Copy} {k : Settle}

theorem enters (h : DeadLetterLoop top entry work wait keys) (m : Message) :
    work ∈ top.route m entry ↔ m.key ∈ keys := by
  rw [h.enter]
  split <;> simp_all

/-- RULE (round): a dying copy leaves one copy in the other queue, or none in a cycle. -/
theorem dies (h : DeadLetterLoop top entry work wait keys) (hc : InQueues work wait keys c)
    (r : Reason) : top.deadLetter r c = if Cycles work wait c r then [] else
      [{ msg := c.msg.die r c.queue c.returns, queue := otherQueue work wait c.queue }] := by
  have hone : ∃ x, top.deadLetterExchange c.queue = some x ∧
      top.route (c.msg.die r c.queue c.returns) x = [otherQueue work wait c.queue] := by
    rcases hc.queue with hq | hq
    · obtain ⟨x, hx, hroute⟩ := h.toWait
      refine ⟨x, hq ▸ hx, ?_⟩
      rw [otherQueue, if_pos hq]
      exact hroute _ hc.key
    · obtain ⟨hne, x, hx, hroute⟩ := h.toWork
      refine ⟨x, hq ▸ hx, ?_⟩
      rw [otherQueue, if_neg (hq ▸ hne.symm)]
      exact hroute _ hc.key
  obtain ⟨x, hx, hroute⟩ := hone
  rw [deadLetter_single hx hroute]
  by_cases hr : r = .rejected
  · simp [Cycles, hr]
  · cases hcycle : automaticCycle (otherQueue work wait c.queue)
        (c.msg.die r c.queue c.returns).deaths <;> simp [Cycles, hr, hcycle]

theorem other_queue (q : String) :
    otherQueue work wait q = work ∨ otherQueue work wait q = wait := by
  unfold otherQueue
  split
  · exact Or.inr rfl
  · exact Or.inl rfl

variable (standard) in
/-- A settled copy leaves one copy in the loop, or nothing: when it was acked, or in a cycle. -/
theorem settled (h : DeadLetterLoop top entry work wait keys) (hc : InQueues work wait keys c)
    (s : BrokerState) :
    (∃ d, outcome top standard c k = [d] ∧ InQueues work wait keys d ∧ k ≠ .ack ∧
      NoCycle top standard work wait s (.settle k c)) ∨
    (outcome top standard c k = [] ∧
      (k = .ack ∨ k ≠ .ack ∧ ¬ NoCycle top standard work wait s (.settle k c))) := by
  cases hd : death top standard c k with
  | none =>
    have hno : NoCycle top standard work wait s (.settle k c) := by
      intro r hr
      rw [hd] at hr
      exact absurd hr nofun
    rcases outcome_alive hd with ⟨hack, hout⟩ | ⟨hack, d, hout, hmsg, hqueue⟩
    · exact Or.inr ⟨hout, Or.inl hack⟩
    · exact Or.inl ⟨d, hout, ⟨by rw [hqueue]; exact hc.queue, by rw [hmsg]; exact hc.key⟩, hack,
        hno⟩
  | some r =>
    have hack : k ≠ .ack := fun hk => by rw [hk] at hd; exact absurd hd nofun
    have hiff : NoCycle top standard work wait s (.settle k c) ↔ ¬ Cycles work wait c r := by
      simp [NoCycle, hd]
    rw [outcome_dead hd, h.dies hc r, hiff]
    by_cases hcyc : Cycles work wait c r
    · rw [if_pos hcyc]
      exact Or.inr ⟨rfl, Or.inr ⟨hack, not_not.mpr hcyc⟩⟩
    · rw [if_neg hcyc]
      exact Or.inl ⟨_, rfl, ⟨other_queue c.queue, hc.key⟩, hack, hcyc⟩

variable (standard) in
theorem looping_step (h : DeadLetterLoop top entry work wait keys) (a : BrokerAct)
    (hl : Looping work wait keys s) (he : enabled top s a = true) (hin : EntersAt entry s a) :
    Looping work wait keys (next top standard s a) := by
  refine ⟨ledger_step a hl.ledger he, ?_, ?_⟩
  · intro d hd
    cases a with
    | publish x m =>
      have hx : x = entry := hin
      rcases List.mem_append.mp hd with hold | hnew
      · exact hl.place d hold
      · rw [hx, h.enter] at hnew
        split at hnew
        · next hm => rw [List.mem_singleton.mp hnew]; exact ⟨Or.inl rfl, hm⟩
        · exact absurd hnew List.not_mem_nil
    | settle k c =>
      rcases List.mem_append.mp hd with hold | hnew
      · exact hl.place d (List.mem_of_mem_erase hold)
      · rcases h.settled standard (hl.place c (enabled_settle he).1) s with
          ⟨e, hout, hq, -⟩ | ⟨hout, -⟩
        · rw [hout] at hnew; rw [List.mem_singleton.mp hnew]; exact hq
        · rw [hout] at hnew; exact absurd hnew List.not_mem_nil
  · cases a with
    | publish x m =>
      have hx : x = entry := hin
      refine single_publish hl.ledger hl.single he ?_
      rw [hx, h.enter]
      split
      · exact le_refl 1
      · exact Nat.zero_le 1
    | settle k c =>
      have hc := (enabled_settle he).1
      refine single_settle hl.single hc ?_
      rcases h.settled standard (k := k) (hl.place c hc) s with
        ⟨e, hout, -, hack, -⟩ | ⟨hout, -⟩
      · rw [hout, if_neg hack]; exact le_refl 1
      · rw [hout]; exact Nat.zero_le _

theorem kept_step (h : DeadLetterLoop top entry work wait keys) (a : BrokerAct)
    (hl : Looping work wait keys s) (hk : LoopKept top entry work wait s)
    (he : enabled top s a = true) (hin : EntersAt entry s a)
    (hno : NoCycle top standard work wait s a) :
    LoopKept top entry work wait (next top standard s a) := by
  have hl' := h.looping_step standard a hl he hin
  suffices hpres : ∀ m ∈ (next top standard s a).published, work ∈ top.route m entry →
      Present (next top standard s a) m.id by
    intro m hm hroute hack
    obtain ⟨c, hc, hid⟩ := (hpres m hm hroute).resolve_left hack
    exact ⟨c, hc, hid, (hl'.place c hc).queue⟩
  intro m hm hroute
  have hold : m ∈ s.published → Present s m.id := fun hp => by
    by_cases hack : m.id ∈ s.acked
    · exact Or.inl hack
    · obtain ⟨c, hc, hid, -⟩ := hk m hp hroute hack
      exact Or.inr ⟨c, hc, hid⟩
  cases a with
  | publish x n =>
    have hx : x = entry := hin
    rcases List.mem_append.mp hm with hp | hnew
    · refine (hold hp).imp_right ?_
      rintro ⟨c, hc, hid⟩
      exact ⟨c, List.mem_append_left _ hc, hid⟩
    · rw [List.mem_singleton.mp hnew] at hroute ⊢
      refine Or.inr ⟨{ msg := n, queue := work }, List.mem_append_right _ ?_, rfl⟩
      exact List.mem_map.mpr ⟨work, hx ▸ hroute, rfl⟩
  | settle k c =>
    refine present_settle (hold hm) fun _ => ?_
    rcases h.settled standard (k := k) (hl.place c (enabled_settle he).1) s with
      ⟨e, hout, -⟩ | ⟨-, hack | ⟨-, hcyc⟩⟩
    · exact Or.inr (Or.inl (by rw [hout]; exact List.cons_ne_nil e []))
    · exact Or.inl hack
    · exact absurd hno hcyc

theorem cycle_lost (h : DeadLetterLoop top entry work wait keys) (a : BrokerAct)
    (hl : Looping work wait keys s) (he : enabled top s a = true)
    (hcyc : ¬ NoCycle top standard work wait s a) :
    LoopLost top entry work (next top standard s a) := by
  cases a with
  | publish x m => exact absurd trivial hcyc
  | settle k c =>
    have hc := (enabled_settle he).1
    have hq := hl.place c hc
    rcases h.settled standard (k := k) hq s with
      ⟨e, -, -, -, hno⟩ | ⟨hout, hack | ⟨hack, -⟩⟩
    · exact absurd hno hcyc
    · subst hack
      exact absurd (fun r hr => absurd hr nofun) hcyc
    · obtain ⟨m, hm, hid, hkey⟩ := hl.ledger.copies c hc
      refine ⟨m, hm, (h.enters m).mpr (hkey ▸ hq.key), ?_⟩
      rw [hid]
      exact gone_of_dropped hl.ledger hl.single hc hack hout

/-- RULE (loop): the loop keeps its messages exactly as long as no cycle closes without a
    rejection. -/
theorem kept_exact (h : DeadLetterLoop top entry work wait keys) (standard : Option ℤ) :
    Machine.Exact (broker top standard) (EntersAt entry) (NoCycle top standard work wait)
      (Looping work wait keys) (LoopKept top entry work wait) (LoopLost top entry work) where
  keeps _ a hl he hin := h.looping_step standard a hl he hin
  holds _ a hl hk he hin hno := h.kept_step a hl hk he hin hno
  fails _ a hl _ he _ hcyc := h.cycle_lost a hl he hcyc
  stays s a _ hlost he := by
    obtain ⟨m, hm, hroute, hgone⟩ := hlost
    refine ⟨m, ?_, hroute, gone_step a hgone he⟩
    cases a with
    | publish x n => exact List.mem_append_left _ hm
    | settle k c => exact hm
  excludes s hlost hk := by
    obtain ⟨m, hm, hroute, -, habs⟩ := hlost
    by_cases hack : m.id ∈ s.acked
    · exact habs (Or.inl hack)
    · obtain ⟨c, hc, hid, -⟩ := hk m hm hroute hack
      exact habs (Or.inr ⟨c, hc, hid⟩)

end DeadLetterLoop

theorem looping_init (work wait : String) (keys : List String) :
    Looping work wait keys ⟨[], [], [], []⟩ :=
  ⟨⟨nofun, nofun, nofun, nofun⟩, nofun, fun _ => Nat.zero_le 1⟩

end RabbitmqCluster.Schemes.Broker
