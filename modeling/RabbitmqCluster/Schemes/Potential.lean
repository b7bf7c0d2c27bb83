import RabbitmqCluster.Schemes.Copies
import Mathlib.Algebra.GroupWithZero.Nat
import Mathlib.Algebra.Order.BigOperators.Group.List
import Mathlib.Algebra.Order.Group.Nat

/-! @scheme potential | family:amortization

    How often something can happen at all. If every step pays its cost out of a potential, a run
    costs no more than the potential it starts with (`Pays.total`), and comes to an end if such a
    step is always possible before it (`Pays.ends`). At a broker the potential of a
    message is what its copies weigh; where a delivery makes a copy lighter and no other settlement
    makes it heavier, no run delivers the message more often than a new one weighs
    (`Tires.deliveries_le`).

        pot s ─ cost 1 ─▶ pot s - 1 ─ cost 0 ─▶ ... ─▶ 0 -/

namespace RabbitmqCluster.Schemes

theorem countP_eq_sum {α : Type*} (p : α → Bool) (l : List α) :
    l.countP p = (l.map fun a => (p a).toNat).sum := by
  induction l with
  | nil => rfl
  | cons a l ih =>
    rw [List.countP_cons, ih, List.map_cons, List.sum_cons, Nat.add_comm]
    cases p a <;> rfl

namespace Machine

variable {σ α : Type*} {m : Machine σ α} {C : σ → α → Prop} {J : σ → Prop} {pot : σ → ℕ}
  {cost : α → ℕ}

/-- Under the invariant `J`, every step pays its cost out of the potential. -/
structure Pays (m : Machine σ α) (C : σ → α → Prop) (J : σ → Prop) (pot : σ → ℕ) (cost : α → ℕ) :
    Prop where
  keeps : ∀ s a, J s → m.enabled s a = true → C s a → J (m.next s a)
  step : ∀ s a, J s → m.enabled s a = true → C s a → pot (m.next s a) + cost a ≤ pot s

/-- RULE (potential): a run costs what it takes from the potential, at most. -/
theorem Pays.total (h : Pays m C J pot cost) (as : List α) {s t : σ} (hrun : m.run s as = some t)
    (hc : m.Meets C s as) (hj : J s) : (as.map cost).sum + pot t ≤ pot s := by
  induction as generalizing s with
  | nil =>
    rw [run, Option.some.injEq] at hrun
    simp [hrun]
  | cons a as ih =>
    obtain ⟨he, hrest⟩ := run_cons hrun
    have htail := ih hrest hc.2 (h.keeps s a hj he hc.1)
    have hstep := h.step s a hj he hc.1
    rw [List.map_cons, List.sum_cons]
    omega

variable {counts : α → Bool}

/-- RULE (count): a run has at most as many of the steps that cost one as the potential it starts
    with. -/
theorem Pays.countP_le (h : Pays m C J pot fun a => (counts a).toNat) (as : List α) {s t : σ}
    (hrun : m.run s as = some t) (hc : m.Meets C s as) (hj : J s) :
    as.countP counts + pot t ≤ pot s := by
  rw [countP_eq_sum]
  exact h.total as hrun hc hj

/-- RULE (ends): where a step that costs one is always possible before the end, steps of that kind
    lead to the end. -/
theorem Pays.ends (h : Pays m C J pot fun a => (counts a).toNat) {ended : σ → Prop}
    (hmove : ∀ s, J s → ¬ ended s → ∃ a, m.enabled s a = true ∧ C s a ∧ counts a = true) :
    ∀ (n : ℕ) (s : σ), pot s ≤ n → J s → ∃ t, m.Steps C s t ∧ ended t := by
  intro n
  induction n with
  | zero =>
    intro s hn hj
    refine ⟨s, Steps.refl m s, ?_⟩
    by_contra hgo
    obtain ⟨a, he, hc, hcost⟩ := hmove s hj hgo
    have hpay := h.step s a hj he hc
    rw [hcost, Bool.toNat_true] at hpay
    omega
  | succ n ih =>
    intro s hn hj
    by_cases hgo : ended s
    · exact ⟨s, Steps.refl m s, hgo⟩
    · obtain ⟨a, he, hc, hcost⟩ := hmove s hj hgo
      have hpay := h.step s a hj he hc
      rw [hcost, Bool.toNat_true] at hpay
      obtain ⟨t, ht, hend⟩ := ih (m.next s a) (by omega) (h.keeps s a hj he hc)
      exact ⟨t, (Steps.one a he hc).trans ht, hend⟩

end Machine

namespace Broker

variable {top : Topology} {standard : Option ℤ} {C : BrokerState → BrokerAct → Prop}
  {s : BrokerState} {place : Copy → Prop} {w : Copy → ℕ} {W : ℕ}

/-- What the copies of the message weigh. -/
def weight (w : Copy → ℕ) (id : ℕ) (cs : List Copy) : ℕ :=
  ((cs.filter (·.msg.id = id)).map w).sum

theorem weight_append (w : Copy → ℕ) (id : ℕ) (cs ds : List Copy) :
    weight w id (cs ++ ds) = weight w id cs + weight w id ds := by
  simp [weight]

theorem weight_perm (w : Copy → ℕ) (id : ℕ) {cs ds : List Copy} (h : cs.Perm ds) :
    weight w id cs = weight w id ds :=
  ((h.filter _).map w).sum_eq

theorem weight_cons (w : Copy → ℕ) (id : ℕ) (c : Copy) (cs : List Copy) :
    weight w id (c :: cs) = (if c.msg.id = id then w c else 0) + weight w id cs := by
  by_cases heq : c.msg.id = id <;> simp [weight, heq]

/-- Copies of one message weigh all or nothing. -/
theorem weight_same (w : Copy → ℕ) (id : ℕ) {cs : List Copy} {i : ℕ}
    (h : ∀ c ∈ cs, c.msg.id = i) :
    weight w id cs = if i = id then (cs.map w).sum else 0 := by
  split
  · next heq =>
    rw [weight, List.filter_eq_self.mpr fun c hc => by simpa using (h c hc).trans heq]
  · next hne =>
    rw [weight, List.filter_eq_nil_iff.mpr fun c hc => by simpa using (h c hc).symm ▸ hne]
    rfl

/-- The message is handed to a consumer. -/
def handsOver (id : ℕ) : BrokerAct → Bool
  | .settle .deliver c => c.msg.id = id
  | _ => false

/-- The weight that a message has before and after it is published. -/
def potential (w : Copy → ℕ) (W id : ℕ) (s : BrokerState) : ℕ :=
  weight w id s.copies + if s.published.all (·.id ≠ id) then W else 0

/-- A new message weighs `W` at most, and a copy in its place gets lighter with a delivery and never
    heavier. -/
structure Tires (top : Topology) (standard : Option ℤ) (C : BrokerState → BrokerAct → Prop)
    (place : Copy → Prop) (w : Copy → ℕ) (W : ℕ) : Prop where
  enters : ∀ s x m, C s (.publish x m) → ∀ q ∈ top.route m x, place { msg := m, queue := q }
  publish : ∀ s x m, C s (.publish x m) →
    ((top.route m x).map fun q => w { msg := m, queue := q }).sum ≤ W
  stays : ∀ s k c, place c → canSettle top c k = true → C s (.settle k c) →
    ∀ d ∈ outcome top standard c k, place d
  settle : ∀ s k c, place c → canSettle top c k = true → C s (.settle k c) →
    ((outcome top standard c k).map w).sum + (if k = .deliver then 1 else 0) ≤ w c

namespace Tires

theorem placed_step (h : Tires top standard C place w W) (a : BrokerAct)
    (hp : ∀ c ∈ s.copies, place c) (he : enabled top s a = true) (hc : C s a) :
    ∀ c ∈ (next top standard s a).copies, place c := by
  intro d hd
  cases a with
  | publish x m =>
    rcases List.mem_append.mp hd with hold | hnew
    · exact hp d hold
    · obtain ⟨q, hq, rfl⟩ := List.mem_map.mp hnew
      exact h.enters s x m hc q hq
  | settle k c =>
    obtain ⟨hmem, hcan⟩ := enabled_settle he
    rcases List.mem_append.mp hd with hold | hnew
    · exact hp d (List.mem_of_mem_erase hold)
    · exact h.stays s k c (hp c hmem) hcan hc d hnew

theorem potential_publish (h : Tires top standard C place w W) {id : ℕ} {x : String} {m : Message}
    (he : enabled top s (.publish x m) = true) (hc : C s (.publish x m)) :
    potential w W id (next top standard s (.publish x m)) ≤ potential w W id s := by
  have hids : ∀ c ∈ (top.route m x).map fun q => ({ msg := m, queue := q } : Copy),
      c.msg.id = m.id := by
    intro c hmem
    obtain ⟨q, -, rfl⟩ := List.mem_map.mp hmem
    rfl
  have hnew := weight_same w id hids
  have hle := h.publish s x m hc
  rw [List.map_map] at hnew
  simp only [potential, next, weight_append, List.all_append, List.all_cons, List.all_nil,
    Bool.and_true, hnew]
  by_cases heq : m.id = id
  · have hfresh : s.published.all (·.id ≠ id) = true := heq ▸ he
    simp only [heq, hfresh, ne_eq, not_true, decide_false, Bool.and_false, if_true,
      Bool.false_eq_true, if_false]
    exact Nat.add_le_add_left hle _
  · simp [heq]

theorem potential_settle (h : Tires top standard C place w W) {id : ℕ} {k : Settle} {c : Copy}
    (hp : place c) (he : enabled top s (.settle k c) = true) (hc : C s (.settle k c)) :
    potential w W id (next top standard s (.settle k c)) +
      (handsOver id (.settle k c)).toNat ≤ potential w W id s := by
  obtain ⟨hmem, hcan⟩ := enabled_settle he
  have hle := h.settle s k c hp hcan hc
  have hids : ∀ d ∈ outcome top standard c k, d.msg.id = c.msg.id := fun d hd =>
    (outcome_msg hd).1
  have hout := weight_same w id hids
  have hold := weight_perm w id (List.perm_cons_erase hmem)
  rw [weight_cons] at hold
  have hhands : (handsOver id (.settle k c)).toNat =
      if c.msg.id = id then if k = .deliver then 1 else 0 else 0 := by
    by_cases heq : c.msg.id = id <;> cases k <;> simp [handsOver, heq]
  have hnext : weight w id (next top standard s (.settle k c)).copies =
      weight w id (s.copies.erase c) + weight w id (outcome top standard c k) := weight_append ..
  show weight w id (next top standard s (.settle k c)).copies +
    (if s.published.all (·.id ≠ id) then W else 0) + _ ≤ potential w W id s
  rw [potential, hnext, hout, hold, hhands]
  by_cases heq : c.msg.id = id
  · rw [if_pos heq, if_pos heq, if_pos heq]
    omega
  · rw [if_neg heq, if_neg heq, if_neg heq]
    omega

theorem pays (h : Tires top standard C place w W) (id : ℕ) :
    (broker top standard).Pays C (fun s => ∀ c ∈ s.copies, place c) (potential w W id)
      (fun a => (handsOver id a).toNat) where
  keeps s a hj he hc := h.placed_step a hj he hc
  step s a hj he hc := by
    cases a with
    | publish x m => exact h.potential_publish he hc
    | settle k c => exact h.potential_settle (hj c (enabled_settle he).1) he hc

/-- RULE (deliveries): no run delivers a message more often than a new one weighs. -/
theorem deliveries_le (h : Tires top standard C place w W) (id : ℕ) (as : List BrokerAct)
    (s : BrokerState) (hrun : (broker top standard).run (broker top standard).init as = some s)
    (hc : (broker top standard).Meets C (broker top standard).init as) :
    as.countP (handsOver id) ≤ W := by
  have htotal := (h.pays id).countP_le as hrun hc (List.forall_mem_nil _)
  have hinit : potential w W id (broker top standard).init = W := Nat.zero_add W
  rw [hinit] at htotal
  omega

end Tires

end Broker

end RabbitmqCluster.Schemes
