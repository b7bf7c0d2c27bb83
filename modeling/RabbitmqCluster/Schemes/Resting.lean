import RabbitmqCluster.Schemes.Copies
import RabbitmqCluster.Schemes.Policies
import RabbitmqCluster.Schemes.Walks

/-! @scheme resting | family:conservation

    Queues from which nothing is sent on. A copy in such a queue can be handed out and put back, but
    only an ack or its death takes it away, and then it is gone. Where one exchange alone leads to
    the queues, they hold in every run just the messages that it routes there, each once, whatever
    else goes on at the broker (`rested`, `kept`).

        publish ─▶ x ─┬─▶ q  ⇄ held ─▶ acked, dead
                  y ─╳└─▶ q' ⇄ held ─▶ acked, dead -/

namespace RabbitmqCluster.Schemes.Broker

variable {top : Topology} {standard : Option ℤ} {C : BrokerState → BrokerAct → Prop}
  {s : BrokerState} {c : Copy} {k : Settle} {x : String} {Q : String → Prop}
  {wants : Message → String → Prop}

/-- The copies of the message in the queue. -/
def copiesIn (s : BrokerState) (id : ℕ) (q : String) : ℕ :=
  s.copies.countP fun c => c.msg.id = id && c.queue = q

/-- The queues get what they want from the exchange, nothing from any other one and nothing that
    died elsewhere, and send nothing on. -/
structure Resting (top : Topology) (C : BrokerState → BrokerAct → Prop) (x : String)
    (Q : String → Prop) (wants : Message → String → Prop) : Prop where
  routes : ∀ m q, Q q → (q ∈ top.route m x ↔ wants m q)
  others : ∀ s y m, C s (.publish y m) → y ≠ x → ∀ q ∈ top.route m y, ¬ Q q
  deaths : ∀ p y, top.deadLetterExchange p = some y → ∀ m, ∀ q ∈ top.route m y, ¬ Q q
  last : ∀ q, Q q → top.deadLetterExchange q = none

/-- Each of the queues holds messages that it wants, as they were published, each once. -/
structure Rested (Q : String → Prop) (wants : Message → String → Prop) (s : BrokerState) :
    Prop where
  wanted : ∀ c ∈ s.copies, Q c.queue → c.msg ∈ s.published ∧ wants c.msg c.queue
  once : ∀ id q, Q q → copiesIn s id q ≤ 1

/-- A dead-letter exchange is named by the argument of a queue or by a policy. -/
theorem deadLetterExchange_named {P : String → Prop}
    (hargument : ∀ q ∈ top.queues, ∀ v ∈ q.arguments.lookup "x-dead-letter-exchange",
      ∀ y ∈ v.text, P y)
    (hpolicy : ∀ r ∈ top.policies, ∀ v ∈ r.definition.lookup "dead-letter-exchange",
      ∀ y ∈ v.text, P y) {p y : String} (h : top.deadLetterExchange p = some y) : P y := by
  obtain ⟨v, hv, htext⟩ := Option.bind_eq_some_iff.mp h
  rcases Option.or_eq_some_iff.mp hv with hown | ⟨-, hgiven⟩
  · obtain ⟨q, hq, hlookup⟩ := Option.bind_eq_some_iff.mp hown
    exact hargument q (List.mem_of_find?_eq_some hq) v hlookup y htext
  · obtain ⟨r, hr, hlookup⟩ := Option.bind_eq_some_iff.mp hgiven
    have hmem := Topology.mem_candidates.mp (List.mem_of_mem_head? hr)
    exact hpolicy r (Topology.mem_matching.mp hmem.1).1 v hlookup y htext

variable (standard k) in
/-- A settled copy is replaced by one in its place, or by none if it was acked or died. -/
theorem outcome_rests (h : top.deadLetterExchange c.queue = none) :
    (∃ d, outcome top standard c k = [d] ∧ d.msg = c.msg ∧ d.queue = c.queue) ∨
      (outcome top standard c k = [] ∧ (k = .ack ∨ (death top standard c k).isSome = true)) := by
  cases hdeath : death top standard c k with
  | none =>
    rcases outcome_alive hdeath with ⟨hack, hout⟩ | ⟨-, d, hout, hmsg, hqueue⟩
    · exact Or.inr ⟨hout, Or.inl hack⟩
    · exact Or.inl ⟨d, hout, hmsg, hqueue⟩
  | some r =>
    refine Or.inr ⟨?_, Or.inr rfl⟩
    rw [outcome_dead hdeath, Topology.deadLetter, h]

/-- A copy is put back into its queue, or sent on when it dies. -/
theorem outcome_queue {d : Copy} (h : d ∈ outcome top standard c k) : d.queue = c.queue ∨
    ∃ y, top.deadLetterExchange c.queue = some y ∧ d.queue ∈ top.route d.msg y := by
  cases hdeath : death top standard c k with
  | none =>
    rcases outcome_alive hdeath with ⟨-, hout⟩ | ⟨-, e, hout, -, hqueue⟩
    · rw [hout] at h
      exact absurd h List.not_mem_nil
    · rw [hout, List.mem_singleton] at h
      exact Or.inl (h ▸ hqueue)
  | some r =>
    rw [outcome_dead hdeath, Topology.deadLetter] at h
    cases hx : top.deadLetterExchange c.queue with
    | none =>
      rw [hx] at h
      exact absurd h List.not_mem_nil
    | some y =>
      rw [hx] at h
      obtain ⟨q, hq, rfl⟩ := List.mem_map.mp h
      exact Or.inr ⟨y, rfl, (List.mem_filter.mp hq).1⟩

variable (standard) in
/-- What a publish puts into a queue. -/
theorem copiesIn_publish (y : String) (m : Message) (id : ℕ) (q : String) :
    copiesIn (next top standard s (.publish y m)) id q =
      copiesIn s id q + if m.id = id then (top.route m y).count q else 0 := by
  simp only [copiesIn, next, List.countP_append, List.countP_map]
  congr 1
  split
  · next heq => exact List.countP_congr fun p _ => by simp [heq]
  · next hne => exact List.countP_eq_zero.mpr fun p _ => by simp [hne]

/-- A message that is published now is in no queue. -/
theorem copiesIn_fresh {y : String} {m : Message} (h : Ledger s)
    (he : enabled top s (.publish y m) = true) (q : String) : copiesIn s m.id q = 0 := by
  refine List.countP_eq_zero.mpr fun c hc => ?_
  have hnone := live_eq_zero.mp (fresh_zero h he).1 c hc
  simp [hnone]

variable (standard) in
theorem rested_publish (hr : Resting top C x Q wants) {y : String} {m : Message} (hled : Ledger s)
    (h : Rested Q wants s) (he : enabled top s (.publish y m) = true) (hc : C s (.publish y m)) :
    Rested Q wants (next top standard s (.publish y m)) := by
  constructor
  · intro c hmem hq
    rcases List.mem_append.mp hmem with hold | hnew
    · exact ⟨List.mem_append_left _ (h.wanted c hold hq).1, (h.wanted c hold hq).2⟩
    · obtain ⟨q, hroute, rfl⟩ := List.mem_map.mp hnew
      refine ⟨List.mem_append_right _ (List.mem_singleton_self m), ?_⟩
      by_cases hy : y = x
      · exact (hr.routes m q hq).mp (hy ▸ hroute)
      · exact absurd hq (hr.others s y m hc hy q hroute)
  · intro id q hq
    rw [copiesIn_publish standard]
    split
    · next heq =>
      rw [← heq, copiesIn_fresh hled he, Nat.zero_add]
      exact List.nodup_iff_count_le_one.mp Topology.route_nodup q
    · exact h.once id q hq

variable (standard k) in
/-- In each of the queues a settlement leaves the copies or takes away the settled one. -/
theorem copiesIn_settle (hr : Resting top C x Q wants) (hc : c ∈ s.copies) (id : ℕ) {q : String}
    (hq : Q q) :
    copiesIn (next top standard s (.settle k c)) id q = copiesIn s id q ∨
      ((c.msg.id = id ∧ c.queue = q) ∧
        copiesIn (next top standard s (.settle k c)) id q + 1 = copiesIn s id q ∧
        (k = .ack ∨ (death top standard c k).isSome = true)) := by
  have hcount : copiesIn (next top standard s (.settle k c)) id q +
      (if (c.msg.id = id && c.queue = q) = true then 1 else 0) = copiesIn s id q +
        (outcome top standard c k).countP fun d => d.msg.id = id && d.queue = q :=
    countP_settle top standard k (fun d => d.msg.id = id && d.queue = q) hc
  by_cases hhere : c.queue = q
  · rcases outcome_rests standard k (hr.last c.queue (hhere ▸ hq)) with
      ⟨d, hout, hmsg, hqueue⟩ | ⟨hout, hgone⟩
    · rw [hout, List.countP_singleton, hmsg, hqueue] at hcount
      exact Or.inl (by omega)
    · rw [hout, List.countP_nil] at hcount
      by_cases hid : c.msg.id = id
      · rw [if_pos (by simp [hid, hhere])] at hcount
        exact Or.inr ⟨⟨hid, hhere⟩, hcount, hgone⟩
      · rw [if_neg (by simp [hid])] at hcount
        exact Or.inl hcount
  · -- what becomes of a copy elsewhere does not come here
    have hnone : (outcome top standard c k).countP (fun d => d.msg.id = id && d.queue = q) = 0 := by
      refine List.countP_eq_zero.mpr fun d hd => ?_
      have hqueue : d.queue ≠ q := fun heq => by
        rcases outcome_queue hd with hsame | ⟨y, hdead, hroute⟩
        · exact hhere (hsame ▸ heq)
        · exact hr.deaths c.queue y hdead _ d.queue hroute (heq ▸ hq)
      simp [hqueue]
    rw [hnone, if_neg (by simp [hhere])] at hcount
    exact Or.inl hcount

variable (standard k) in
theorem rested_settle (hr : Resting top C x Q wants) (h : Rested Q wants s) (hc : c ∈ s.copies) :
    Rested Q wants (next top standard s (.settle k c)) := by
  constructor
  · intro d hd hq
    rcases List.mem_append.mp hd with hold | hnew
    · exact h.wanted d (List.mem_of_mem_erase hold) hq
    · rcases outcome_queue hnew with hsame | ⟨y, hdead, hroute⟩
      · rw [hsame] at hq
        rcases outcome_rests standard k (hr.last c.queue hq) with
          ⟨e, hout, hmsg, hqueue⟩ | ⟨hout, -⟩
        · rw [hout, List.mem_singleton] at hnew
          rw [hnew, hmsg, hqueue]
          exact h.wanted c hc hq
        · rw [hout] at hnew
          exact absurd hnew List.not_mem_nil
      · exact absurd hq (hr.deaths c.queue y hdead _ d.queue hroute)
  · intro id q hq
    have hone := h.once id q hq
    rcases copiesIn_settle standard k hr hc id hq with hsame | ⟨-, hless, -⟩
    · rw [hsame]
      exact hone
    · omega

/-- RULE (resting): in every run each of the queues holds messages that it wants, each once. -/
theorem rested (hr : Resting top C x Q wants) (s : BrokerState)
    (hs : (broker top standard).Reach C s) : Rested Q wants s := by
  refine Machine.inv_under (m := broker top standard) (I := Rested Q wants) ledger
    ⟨List.forall_mem_nil _, fun _ _ _ => Nat.zero_le _⟩ ?_ s hs
  intro s a hled h he hc
  cases a with
  | publish y m => exact rested_publish standard hr hled h he hc
  | settle k c => exact rested_settle standard k hr h (enabled_settle he).1

/-- Nobody acks the message in the queue, and it does not die there. -/
def Spares (top : Topology) (standard : Option ℤ) (id : ℕ) (q : String) (_ : BrokerState) :
    BrokerAct → Prop
  | .publish _ _ => True
  | .settle k c => c.msg.id = id → c.queue = q → k ≠ .ack ∧ death top standard c k = none

instance (id : ℕ) (q : String) (s : BrokerState) (a : BrokerAct) :
    Decidable (Spares top standard id q s a) := by
  rcases a <;> (dsimp only [Spares]; infer_instance)

/-- RULE (kept): what was published through the exchange is in each of the queues that want it, for
    as long as it is not acked and does not die there. -/
theorem kept (hr : Resting top C x Q wants) {m : Message} {t : BrokerState}
    (hs : (broker top standard).Reach C s) (he : enabled top s (.publish x m) = true) {q : String}
    (hst : (broker top standard).Steps (fun u a => C u a ∧ Spares top standard m.id q u a)
      (next top standard s (.publish x m)) t)
    (hq : Q q) (hw : wants m q) : copiesIn t m.id q = 1 := by
  have hbegin : copiesIn (next top standard s (.publish x m)) m.id q = 1 := by
    rw [copiesIn_publish standard, copiesIn_fresh (ledger s hs) he, if_pos rfl, Nat.zero_add]
    exact List.count_eq_one_of_mem Topology.route_nodup ((hr.routes m q hq).mpr hw)
  have hkept : m ∈ t.published ∧ copiesIn t m.id q = 1 := by
    refine Machine.Steps.inv (m := broker top standard)
      (I := fun t => m ∈ t.published ∧ copiesIn t m.id q = 1) ?_ hst
      ⟨List.mem_append_right _ (List.mem_singleton_self m), hbegin⟩
    rintro u a ⟨hu, hone⟩ he ⟨-, hspared⟩
    cases a with
    | publish y n =>
      refine ⟨List.mem_append_left _ hu, ?_⟩
      have hfresh : enabled top u (.publish y n) = true := he
      simp only [enabled, List.all_eq_true, decide_eq_true_eq] at hfresh
      show copiesIn (next top standard u (.publish y n)) m.id q = 1
      rw [copiesIn_publish standard, if_neg (hfresh m hu).symm, hone]
    | settle k c =>
      refine ⟨hu, ?_⟩
      rcases copiesIn_settle standard k hr (enabled_settle he).1 m.id hq with
        hsame | ⟨⟨hid, hqueue⟩, -, hgone⟩
      · exact hsame.trans hone
      · obtain ⟨hack, halive⟩ := hspared hid hqueue
        rcases hgone with rfl | hdead
        · exact absurd rfl hack
        · rw [halive] at hdead
          cases hdead
  exact hkept.2

end RabbitmqCluster.Schemes.Broker
