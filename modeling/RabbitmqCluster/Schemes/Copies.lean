import RabbitmqCluster.Schemes.Broker
import Mathlib.Data.List.Nodup
import Mathlib.Tactic.Common

/-! @scheme copies | family:conservation

    What every run of a broker does to the copies of a message. A settled copy is replaced by its
    outcome, copies of the same message with the same key, so counting them is arithmetic
    (`countP_settle`). A message is kept as long as a consumer acked it or a copy of it is
    somewhere, and what is gone stays gone (`gone_step`). Where every publish and every death lead
    to a known number of copies, copies and acks balance (`balance`). -/

namespace RabbitmqCluster.Schemes.Broker

variable {top : Topology} {standard : Option ℤ} {C : BrokerState → BrokerAct → Prop}
  {s : BrokerState} {c : Copy} {k : Settle}

/-- An exchange with one binding sends what matches it along that binding. -/
theorem targets_single {e : Exchange} {m : Message} {b : Binding}
    (hb : top.bindingsFrom e.name = [b]) (hm : b.matches m e.type = true) :
    top.targets e m = [b.destination] := by
  simp [Topology.targets, hb, hm]

/-- A topic exchange whose bindings lead to one queue under keys without wildcards. -/
theorem targets_literal {e : Exchange} {m : Message} {q : String} {keys : List String}
    (hb : top.bindingsFrom e.name = keys.map fun k =>
      { source := e.name, destination := .queue q, routingKey := k })
    (ht : e.type = .topic) (halt : top.alternateExchange e = none) (hnodup : keys.Nodup)
    (hlit : ∀ k ∈ keys, Topic.star ∉ Topic.words k ∧ Topic.hash ∉ Topic.words k) :
    top.targets e m = if m.key ∈ keys then [.queue q] else [] := by
  have hfilter : keys.filter (fun k => Topic.topicMatch k m.key) =
      keys.filter (· = m.key) := by
    refine List.filter_congr fun k hk => ?_
    obtain ⟨hstar, hhash⟩ := hlit k hk
    exact Bool.eq_iff_iff.mpr ((Topic.topicMatch_literal hstar hhash).trans (by simp [eq_comm]))
  have hmatch : ((top.bindingsFrom e.name).filter (·.matches m e.type)).map (·.destination) =
      (keys.filter (· = m.key)).map fun _ => .queue q := by
    rw [hb, List.filter_map, List.map_map, ← hfilter, ht]
    rfl
  rw [Topology.targets, hmatch, List.filter_eq]
  by_cases hmem : m.key ∈ keys
  · rw [if_pos hmem, List.count_eq_one_of_mem hnodup hmem]; rfl
  · rw [if_neg hmem, List.count_eq_zero_of_not_mem hmem, halt]; rfl

/-- An exchange that sends a message to queues only routes it to each of them once. -/
theorem route_queues {x : String} {e : Exchange} {m : Message} {Q : List String} (hx : x ≠ "")
    (he : top.exchange x = some e) (ht : top.targets e m = Q.map .queue) :
    top.route m x = Q.dedup := by
  have hlen : ∃ n, top.exchanges.length = n + 1 := by
    refine Nat.exists_eq_succ_of_ne_zero fun hnil => ?_
    rw [Topology.exchange, List.length_eq_zero_iff.mp hnil] at he
    exact absurd he nofun
  obtain ⟨n, hn⟩ := hlen
  rw [Topology.route, if_neg hx, hn, Topology.hops, he]
  simp [ht, List.flatMap_map]

/-- Such an exchange takes to its queue what has one of the keys, and nothing else. -/
theorem route_literal {e : Exchange} {q : String} {keys : List String} (hx : e.name ≠ "")
    (he : top.exchange e.name = some e)
    (hb : top.bindingsFrom e.name = keys.map fun k =>
      { source := e.name, destination := .queue q, routingKey := k })
    (ht : e.type = .topic) (halt : top.alternateExchange e = none) (hnodup : keys.Nodup)
    (hlit : ∀ k ∈ keys, Topic.star ∉ Topic.words k ∧ Topic.hash ∉ Topic.words k) (m : Message) :
    top.route m e.name = if m.key ∈ keys then [q] else [] := by
  have htargets := targets_literal (m := m) hb ht halt hnodup hlit
  split at htargets
  · next hm =>
    rw [if_pos hm]
    exact route_queues (Q := [q]) hx he htargets
  · next hm =>
    rw [if_neg hm]
    exact route_queues (Q := []) hx he htargets

variable (top) in
/-- The nameless exchange routes to the queue that the key names. -/
theorem route_nameless {m : Message} {q : Queue} (hq : top.queue m.key = some q) :
    top.route m "" = [q.name] := by
  rw [Topology.route, if_pos rfl, hq]
  rfl

theorem enabled_settle (h : enabled top s (.settle k c) = true) :
    c ∈ s.copies ∧ canSettle top c k = true := by
  simpa [enabled] using h

theorem outcome_dead {r : Reason} (h : death top standard c k = some r) :
    outcome top standard c k = top.deadLetter r c := by
  simp [outcome, h]

/-- Where the dead-letter exchange leads to one queue, a dying copy goes there unless the broker
    sees a cycle without a rejection. -/
theorem deadLetter_single {x q : String} {r : Reason} (hx : top.deadLetterExchange c.queue = some x)
    (hroute : top.route (c.msg.die r c.queue c.returns) x = [q]) :
    top.deadLetter r c =
      if r = .rejected ∨ automaticCycle q (c.msg.die r c.queue c.returns).deaths = false then
        [{ msg := c.msg.die r c.queue c.returns, queue := q }]
      else [] := by
  rw [Topology.deadLetter, hx]
  simp only [hroute]
  by_cases hr : r = .rejected
  · simp [hr]
  · cases hcycle : automaticCycle q (c.msg.die r c.queue c.returns).deaths <;> simp [hr, hcycle]

/-- A copy that does not die is acked, or stays in its queue. -/
theorem outcome_alive (h : death top standard c k = none) :
    (k = .ack ∧ outcome top standard c k = []) ∨
      (k ≠ .ack ∧ ∃ d, outcome top standard c k = [d] ∧ d.msg = c.msg ∧ d.queue = c.queue) := by
  cases k with
  | deliver => exact Or.inr ⟨nofun, { c with held := true }, by simp only [outcome, h], rfl, rfl⟩
  | ack => exact Or.inl ⟨rfl, by simp only [outcome, h]⟩
  | requeue =>
    exact Or.inr ⟨nofun, { c with held := false, returns := c.returns + 1 },
      by simp only [outcome, h], rfl, rfl⟩
  | reject => exact absurd h nofun
  | expire => exact absurd h nofun

/-- Where a copy goes, its message keeps its id and its routing key. -/
theorem outcome_msg {d : Copy} (h : d ∈ outcome top standard c k) :
    d.msg.id = c.msg.id ∧ d.msg.key = c.msg.key := by
  unfold outcome at h
  split at h
  · unfold Topology.deadLetter at h
    split at h
    · exact absurd h List.not_mem_nil
    · obtain ⟨q, -, rfl⟩ := List.mem_map.mp h
      exact ⟨rfl, rfl⟩
  · rw [List.mem_singleton.mp h]; exact ⟨rfl, rfl⟩
  · rw [List.mem_singleton.mp h]; exact ⟨rfl, rfl⟩
  · exact absurd h List.not_mem_nil

theorem countP_settle (top : Topology) (standard : Option ℤ) (k : Settle) (P : Copy → Bool)
    (hc : c ∈ s.copies) :
    (next top standard s (.settle k c)).copies.countP P + (if P c then 1 else 0) =
      s.copies.countP P + (outcome top standard c k).countP P := by
  have hperm : s.copies.countP P = (c :: s.copies.erase c).countP P :=
    (List.perm_cons_erase hc).countP_eq P
  simp only [next, List.countP_append, hperm, List.countP_cons]
  omega

/-- The copies of a message. -/
def live (s : BrokerState) (id : ℕ) : ℕ := s.copies.countP (·.msg.id = id)

theorem live_eq_zero {id : ℕ} : live s id = 0 ↔ ∀ c ∈ s.copies, c.msg.id ≠ id := by
  simp [live, List.countP_eq_zero]

theorem outcome_live (id : ℕ) : (outcome top standard c k).countP (·.msg.id = id) =
    if c.msg.id = id then (outcome top standard c k).length else 0 := by
  split
  · next heq =>
    refine List.countP_eq_length.mpr fun d hd => ?_
    simpa using (outcome_msg hd).1.trans heq
  · next hne =>
    refine List.countP_eq_zero.mpr fun d hd => ?_
    simpa using fun heq => hne ((outcome_msg hd).1.symm.trans heq)

/-- What every run keeps: an id is published once, and whatever is in a queue, acked or dead was
    published, with the key it still has. -/
structure Ledger (s : BrokerState) : Prop where
  ids : ∀ m ∈ s.published, ∀ n ∈ s.published, m.id = n.id → m = n
  copies : ∀ c ∈ s.copies, ∃ m ∈ s.published, m.id = c.msg.id ∧ m.key = c.msg.key
  acked : ∀ id ∈ s.acked, ∃ m ∈ s.published, m.id = id
  died : ∀ e ∈ s.died, ∃ m ∈ s.published, m.id = e.1

theorem ledger_publish {x : String} {m : Message} (h : Ledger s)
    (he : enabled top s (.publish x m) = true) :
    Ledger (next top standard s (.publish x m)) := by
  simp only [enabled, List.all_eq_true, decide_eq_true_eq] at he
  have hmono : ∀ n ∈ s.published, n ∈ s.published ++ [m] := fun n hn => List.mem_append_left _ hn
  refine ⟨?_, ?_, ?_, ?_⟩
  · rintro n hn n' hn' heq
    rcases List.mem_append.mp hn with hold | hnew <;>
      rcases List.mem_append.mp hn' with hold' | hnew'
    · exact h.ids n hold n' hold' heq
    · rw [List.mem_singleton.mp hnew'] at heq
      exact absurd heq (he n hold)
    · rw [List.mem_singleton.mp hnew] at heq
      exact absurd heq.symm (he n' hold')
    · rw [List.mem_singleton.mp hnew, List.mem_singleton.mp hnew']
  · intro c hc
    rcases List.mem_append.mp hc with hold | hnew
    · obtain ⟨n, hn, hid⟩ := h.copies c hold
      exact ⟨n, hmono n hn, hid⟩
    · obtain ⟨q, -, rfl⟩ := List.mem_map.mp hnew
      exact ⟨m, List.mem_append_right _ (List.mem_singleton_self m), rfl, rfl⟩
  · intro id hid
    obtain ⟨n, hn, heq⟩ := h.acked id hid
    exact ⟨n, hmono n hn, heq⟩
  · intro e hd
    obtain ⟨n, hn, heq⟩ := h.died e hd
    exact ⟨n, hmono n hn, heq⟩

theorem ledger_settle (h : Ledger s) (hc : c ∈ s.copies) :
    Ledger (next top standard s (.settle k c)) := by
  obtain ⟨m, hm, hid, hkey⟩ := h.copies c hc
  refine ⟨h.ids, ?_, ?_, ?_⟩
  · intro d hd
    rcases List.mem_append.mp hd with hold | hnew
    · exact h.copies d (List.mem_of_mem_erase hold)
    · obtain ⟨hdid, hdkey⟩ := outcome_msg hnew
      exact ⟨m, hm, hid.trans hdid.symm, hkey.trans hdkey.symm⟩
  · intro id hack
    simp only [next] at hack
    split at hack
    · rcases List.mem_append.mp hack with hold | hnew
      · exact h.acked id hold
      · exact ⟨m, hm, hid.trans (List.mem_singleton.mp hnew).symm⟩
    · exact h.acked id hack
  · intro e hdied
    simp only [next] at hdied
    split at hdied
    · rcases List.mem_append.mp hdied with hold | hnew
      · exact h.died e hold
      · rw [List.mem_singleton.mp hnew]; exact ⟨m, hm, hid⟩
    · exact h.died e hdied

theorem ledger_step (a : BrokerAct) (h : Ledger s) (he : enabled top s a = true) :
    Ledger (next top standard s a) := by
  cases a with
  | publish x m => exact ledger_publish h he
  | settle k c => exact ledger_settle h (enabled_settle he).1

theorem ledger (s : BrokerState) (h : (broker top standard).Reach C s) : Ledger s := by
  refine Machine.inv (m := broker top standard) (I := Ledger) ?_
    (fun _ a hs he _ => ledger_step a hs he) s h
  exact ⟨nofun, nofun, nofun, nofun⟩

/-! ### Kept and gone -/

/-- A consumer acked the message, or a copy of it is in a queue. -/
def Present (s : BrokerState) (id : ℕ) : Prop := id ∈ s.acked ∨ ∃ c ∈ s.copies, c.msg.id = id

/-- A published message that nobody acked and no queue has. -/
def Gone (s : BrokerState) (id : ℕ) : Prop :=
  (∃ m ∈ s.published, m.id = id) ∧ ¬ Present s id

/-- RULE (kept): a settled copy may vanish only if it was acked or its message has a spare. -/
theorem present_settle {id : ℕ} (h : Present s id)
    (hspare : c.msg.id = id → k = .ack ∨ outcome top standard c k ≠ [] ∨ id ∈ s.acked ∨
      ∃ d ∈ s.copies.erase c, d.msg.id = id) :
    Present (next top standard s (.settle k c)) id := by
  have hacked : id ∈ s.acked → Present (next top standard s (.settle k c)) id := by
    intro hack
    refine Or.inl ?_
    simp only [next]
    split
    · exact List.mem_append_left _ hack
    · exact hack
  have herase : (∃ d ∈ s.copies.erase c, d.msg.id = id) →
      Present (next top standard s (.settle k c)) id := by
    rintro ⟨d, hd, hid⟩
    exact Or.inr ⟨d, List.mem_append_left _ hd, hid⟩
  by_cases heq : c.msg.id = id
  · rcases hspare heq with rfl | hout | hack | hmore
    · exact Or.inl (by simp [next, heq])
    · obtain ⟨d, hd⟩ := List.exists_mem_of_ne_nil _ hout
      exact Or.inr ⟨d, List.mem_append_right _ hd, (outcome_msg hd).1.trans heq⟩
    · exact hacked hack
    · exact herase hmore
  · rcases h with hack | ⟨d, hd, hid⟩
    · exact hacked hack
    · refine herase ⟨d, (List.mem_erase_of_ne fun hdc => heq ?_).mpr hd, hid⟩
      rw [← hdc]; exact hid

/-- RULE (gone): a message that is gone never comes back. -/
theorem gone_step {id : ℕ} (a : BrokerAct) (h : Gone s id) (he : enabled top s a = true) :
    Gone (next top standard s a) id := by
  obtain ⟨⟨m, hm, hmid⟩, habs⟩ := h
  cases a with
  | publish x n =>
    simp only [enabled, List.all_eq_true, decide_eq_true_eq] at he
    refine ⟨⟨m, List.mem_append_left _ hm, hmid⟩, ?_⟩
    rintro (hack | ⟨c, hc, hid⟩)
    · exact habs (Or.inl hack)
    · rcases List.mem_append.mp hc with hold | hnew
      · exact habs (Or.inr ⟨c, hold, hid⟩)
      · obtain ⟨q, -, rfl⟩ := List.mem_map.mp hnew
        exact he m hm (hmid.trans hid.symm)
  | settle k c =>
    obtain ⟨hc, -⟩ := enabled_settle he
    have hne : c.msg.id ≠ id := fun heq => habs (Or.inr ⟨c, hc, heq⟩)
    refine ⟨⟨m, hm, hmid⟩, ?_⟩
    rintro (hack | ⟨d, hd, hid⟩)
    · simp only [next] at hack
      split at hack
      · rcases List.mem_append.mp hack with hold | hnew
        · exact habs (Or.inl hold)
        · exact hne (List.mem_singleton.mp hnew).symm
      · exact habs (Or.inl hack)
    · rcases List.mem_append.mp hd with hold | hnew
      · exact habs (Or.inr ⟨d, List.mem_of_mem_erase hold, hid⟩)
      · exact hne ((outcome_msg hnew).1.symm.trans hid)

/-! ### Balance -/

theorem live_publish {x : String} {m : Message} (id : ℕ) :
    live (next top standard s (.publish x m)) id =
      live s id + if m.id = id then (top.route m x).length else 0 := by
  simp only [live, next, List.countP_append, List.countP_map]
  congr 1
  split
  · next heq => exact List.countP_eq_length.mpr fun q _ => by simpa using heq
  · next hne => exact List.countP_eq_zero.mpr fun q _ => by simpa using hne

theorem live_settle (top : Topology) (standard : Option ℤ) (k : Settle) (id : ℕ)
    (hc : c ∈ s.copies) :
    live (next top standard s (.settle k c)) id + (if c.msg.id = id then 1 else 0) =
      live s id + if c.msg.id = id then (outcome top standard c k).length else 0 := by
  have hcount := countP_settle top standard k (fun d => d.msg.id = id) hc
  rw [outcome_live] at hcount
  simpa [live] using hcount

theorem acked_settle (top : Topology) (standard : Option ℤ) (k : Settle) (c : Copy) (id : ℕ) :
    (next top standard s (.settle k c)).acked.count id =
      s.acked.count id + if k = .ack ∧ c.msg.id = id then 1 else 0 := by
  by_cases hk : k = .ack
  · simp only [next, hk, if_true, true_and, List.count_append, List.count_singleton]
    congr 1
    by_cases heq : c.msg.id = id
    · simp [heq]
    · simp [heq]
  · simp [next, hk]

/-- A message that is published now has no copies and no acks yet. -/
theorem fresh_zero {x : String} {m : Message} (h : Ledger s)
    (he : enabled top s (.publish x m) = true) : live s m.id = 0 ∧ s.acked.count m.id = 0 := by
  have hfresh : ∀ o ∈ s.published, o.id ≠ m.id := by simpa [enabled] using he
  constructor
  · refine live_eq_zero.mpr fun c hc heq => ?_
    obtain ⟨o, ho, hid, -⟩ := h.copies c hc
    exact hfresh o ho (hid.trans heq)
  · refine List.count_eq_zero.mpr fun hack => ?_
    obtain ⟨o, ho, hid⟩ := h.acked _ hack
    exact hfresh o ho hid

/-- A message has one copy at most, and none once it was acked. -/
def Single (s : BrokerState) : Prop := ∀ id, live s id + s.acked.count id ≤ 1

theorem single_publish {x : String} {m : Message} (hl : Ledger s) (h : Single s)
    (he : enabled top s (.publish x m) = true) (hone : (top.route m x).length ≤ 1) :
    Single (next top standard s (.publish x m)) := by
  intro id
  have hold := h id
  rw [live_publish]
  show live s id + (if m.id = id then (top.route m x).length else 0) + s.acked.count id ≤ 1
  by_cases heq : m.id = id
  · obtain ⟨hlive, hcount⟩ := fresh_zero hl he
    rw [heq] at hlive hcount
    rw [if_pos heq]
    omega
  · rw [if_neg heq]
    omega

theorem single_settle (h : Single s) (hc : c ∈ s.copies)
    (hone : (outcome top standard c k).length ≤ if k = .ack then 0 else 1) :
    Single (next top standard s (.settle k c)) := by
  intro id
  have hold := h id
  have hlive := live_settle top standard k id hc
  rw [acked_settle]
  generalize live (next top standard s (.settle k c)) id = l at hlive ⊢
  by_cases heq : c.msg.id = id <;> by_cases hk : k = .ack <;>
    simp only [heq, hk, if_true, if_false, and_true, and_false] at hlive hone ⊢ <;> omega

/-- RULE (dropped): a single copy that leaves nothing and was not acked is gone. -/
theorem gone_of_dropped (hl : Ledger s) (h : Single s) (hc : c ∈ s.copies) (hk : k ≠ .ack)
    (hout : outcome top standard c k = []) :
    Gone (next top standard s (.settle k c)) c.msg.id := by
  obtain ⟨m, hm, hid, -⟩ := hl.copies c hc
  have hlive := live_settle top standard k c.msg.id hc
  have hacked := acked_settle (s := s) top standard k c c.msg.id
  have hold := h c.msg.id
  simp only [hout, hk, if_true, List.length_nil, false_and, if_false] at hlive hacked
  refine ⟨⟨m, hm, hid⟩, ?_⟩
  rintro (hack | ⟨d, hd, hdid⟩)
  · have hpos := List.count_pos_iff.mpr hack
    omega
  · have hzero : live (next top standard s (.settle k c)) c.msg.id = 0 := by omega
    exact live_eq_zero.mp hzero d hd hdid

/-- RULE (balance): where a publish makes `n` copies and a copy that is not acked leaves one, the
    copies of a message and its acks add up to `n`. -/
theorem balance {n : Message → ℕ}
    (hpub : ∀ s x m, C s (.publish x m) → (top.route m x).length = n m)
    (hset : ∀ s k c, (broker top standard).Reach C s → enabled top s (.settle k c) = true →
      C s (.settle k c) → (outcome top standard c k).length = if k = .ack then 0 else 1) :
    ∀ s, (broker top standard).Reach C s →
      ∀ m ∈ s.published, live s m.id + s.acked.count m.id = n m := by
  refine Machine.inv_under (J := (broker top standard).Reach C) (fun _ h => h) nofun ?_
  intro s a hreach hbal he hc
  have hled : Ledger s := ledger s hreach
  cases a with
  | publish x m =>
    have hfresh : ∀ o ∈ s.published, o.id ≠ m.id := by simpa [broker, enabled] using he
    intro o ho
    show live (next top standard s (.publish x m)) o.id + s.acked.count o.id = n o
    rw [live_publish]
    rcases List.mem_append.mp ho with hold | hnew
    · rw [if_neg (hfresh o hold).symm]
      exact hbal o hold
    · rw [List.mem_singleton.mp hnew, if_pos rfl, hpub s x m hc]
      have he' : enabled top s (.publish x m) = true := he
      obtain ⟨hlive, hcount⟩ := fresh_zero hled he'
      omega
  | settle k c =>
    obtain ⟨hmem, -⟩ := enabled_settle he
    have hout := hset s k c hreach he hc
    intro o ho
    have hlive := live_settle top standard k o.id hmem
    have hacked := acked_settle (s := s) top standard k c o.id
    have hold := hbal o ho
    show live (next top standard s (.settle k c)) o.id +
      (next top standard s (.settle k c)).acked.count o.id = n o
    rw [hout] at hlive
    rw [hacked]
    by_cases heq : c.msg.id = o.id <;> by_cases hk : k = .ack <;> simp [heq, hk] at hlive ⊢ <;>
      omega

end RabbitmqCluster.Schemes.Broker
