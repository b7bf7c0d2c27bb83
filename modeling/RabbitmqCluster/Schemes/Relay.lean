import RabbitmqCluster.Schemes.Shovel

/-! @scheme relay | family:store-and-forward

    When a network of links loses a message. What a link has published and not yet acked at the
    source is further up, or was consumed, so the ack at the source loses nothing (`Carried`). Hence
    a network whose links lead upwards and route whatever reaches them (`Ascending`) keeps its
    messages exactly as long as none is published to a missing queue and no queue goes away with
    content that is nowhere else (`kept_exact`); where all queues last, it always keeps them
    (`kept_of_lasting`). -/

namespace RabbitmqCluster.Schemes

variable {B L : Type*}

namespace Network

/-- The message was consumed, or is in a queue with `P`. -/
def Somewhere (P : Place B → Prop) (s : ShovelState B L) (k : ℕ) : Prop :=
  k ∈ s.consumed ∨ ∃ i ∈ s.items, i.msg.id = k ∧ P i.place

instance (P : Place B → Prop) [DecidablePred P] (s : ShovelState B L) (k : ℕ) :
    Decidable (Somewhere P s k) :=
  inferInstanceAs (Decidable (_ ∨ _))

/-- Every published message was consumed or is in some queue. -/
def Kept (s : ShovelState B L) : Prop := ∀ m ∈ s.published, Somewhere (fun _ => True) s m.id

/-- What is in the queue was consumed as well or is in another queue. -/
def Spared (s : ShovelState B L) (q : Place B) : Prop :=
  ∀ i ∈ s.items, i.place = q → Somewhere (· ≠ q) s i.msg.id

/-- Each link leads from any message that fits its source upwards, to queues where it fits. -/
structure Ascending (N : Network B L) (Enters : B → String → Message → Prop)
    (Fits : Place B → Message → Prop) (rank : Place B → ℕ) : Prop where
  enter : ∀ b x m, Enters b x m → ∀ q ∈ N.routed b x m, Fits q m
  routable : ∀ l m, Fits (N.source l) m → N.forwarded l m ≠ []
  hop : ∀ l m, Fits (N.source l) m → ∀ q ∈ N.forwarded l m,
    Fits q ((N.shovel l).sent m) ∧ rank (N.source l) < rank q
  lasting : ∀ q, 0 < rank q → N.life q = .lasting

/-- What every run of an ascending network keeps: where its links have published a message, it was
    consumed or is further up. -/
structure Carried (N : Network B L) (Fits : Place B → Message → Prop) (rank : Place B → ℕ)
    (s : ShovelState B L) : Prop where
  items : ∀ i ∈ s.items, ∃ m ∈ s.published, m.id = i.msg.id
  consumed : ∀ k ∈ s.consumed, ∃ m ∈ s.published, m.id = k
  fits : ∀ i ∈ s.items, Fits i.place i.msg
  held : ∀ i ∈ s.items, ∀ l stage, i.holder = .shovel l stage → N.source l = i.place
  ahead : ∀ i ∈ s.items, i.holder.sent = true →
    Somewhere (rank i.place < rank ·) s i.msg.id
  lasting : ∀ q, 0 < rank q → s.life q = .lasting

variable {N : Network B L} {Enters : B → String → Message → Prop}
  {Fits : Place B → Message → Prop} {rank : Place B → ℕ} {s : ShovelState B L} {P : Place B → Prop}
  {i : Item B L} {k : Move L}

theorem Somewhere.mono {Q : Place B → Prop} (hPQ : ∀ q, P q → Q q) {n : ℕ}
    (h : Somewhere P s n) : Somewhere Q s n := by
  rcases h with hc | ⟨j, hj, hid, hp⟩
  · exact Or.inl hc
  · exact Or.inr ⟨j, hj, hid, hPQ _ hp⟩

/-- What the items and the consumers have, they have after a step that takes neither away. -/
theorem Somewhere.grow {t : ShovelState B L} (hi : ∀ i ∈ s.items, i ∈ t.items)
    (hc : s.consumed = t.consumed) {n : ℕ} (h : Somewhere P s n) : Somewhere P t n := by
  rcases h with hcon | ⟨j, hj, hid, hp⟩
  · exact Or.inl (hc ▸ hcon)
  · exact Or.inr ⟨j, hi j hj, hid, hp⟩

theorem mem_arrive {m : Message} {qs : List (Place B)} {j : Item B L} :
    j ∈ arrive s m qs ↔ ∃ q ∈ qs, s.life q ≠ .missing ∧ j = { msg := m, place := q } := by
  simp only [arrive, List.mem_map, List.mem_filter, decide_eq_true_eq]
  constructor
  · rintro ⟨q, ⟨hq, hlife⟩, rfl⟩
    exact ⟨q, hq, hlife, rfl⟩
  · rintro ⟨q, hq, hlife, rfl⟩
    exact ⟨q, ⟨hq, hlife⟩, rfl⟩

/-- A moved item stays in its queue, except where it is acked there. -/
theorem outcome_stays (s : ShovelState B L) (i : Item B L) (k : Move L) :
    (∃ j ∈ N.outcome s i k, j.msg = i.msg ∧ j.place = i.place) ∨ k = .ack ∨
      ∃ l, k = .ackSource l := by
  cases k with
  | ack => exact Or.inr (Or.inl rfl)
  | ackSource l => exact Or.inr (Or.inr ⟨l, rfl⟩)
  | _ => exact Or.inl ⟨_, List.mem_cons_self, rfl, rfl⟩

/-- An item in the outcome is the moved item, or a copy that the link has published. -/
theorem mem_outcome {j : Item B L} (hj : j ∈ N.outcome s i k) :
    (j.msg = i.msg ∧ j.place = i.place) ∨
      ∃ l, k = .forward l ∧ j ∈ arrive s ((N.shovel l).sent i.msg) (N.forwarded l i.msg) := by
  cases k with
  | forward l =>
    rcases List.mem_cons.mp hj with rfl | harr
    · exact Or.inl ⟨rfl, rfl⟩
    · exact Or.inr ⟨l, rfl, harr⟩
  | ack => exact absurd hj List.not_mem_nil
  | ackSource l => exact absurd hj List.not_mem_nil
  | _ => rw [List.mem_singleton.mp hj]; exact Or.inl ⟨rfl, rfl⟩

theorem outcome_id {j : Item B L} (hj : j ∈ N.outcome s i k) : j.msg.id = i.msg.id := by
  rcases mem_outcome hj with ⟨hmsg, -⟩ | ⟨l, -, harr⟩
  · rw [hmsg]
  · obtain ⟨q, -, -, rfl⟩ := mem_arrive.mp harr
    rfl

theorem release_same [DecidableEq L] (l : L) (i : Item B L) :
    (release l i).msg = i.msg ∧ (release l i).place = i.place := by
  unfold release
  split
  · split <;> exact ⟨rfl, rfl⟩
  · exact ⟨rfl, rfl⟩

/-- The link that let go holds nothing, and the others hold what they held. -/
theorem release_holder [DecidableEq L] (l : L) (i : Item B L) :
    (release l i).holder = .ready ∨ (release l i).holder = i.holder := by
  unfold release
  split
  · split
    · exact Or.inl rfl
    · exact Or.inr rfl
  · exact Or.inr rfl

theorem somewhere_dropped [DecidableEq L] (l : L) {n : ℕ} :
    Somewhere P (dropped s l) n ↔ Somewhere P s n := by
  refine or_congr Iff.rfl ⟨?_, ?_⟩
  · rintro ⟨j, hj, hid, hp⟩
    obtain ⟨i, hi, rfl⟩ := List.mem_map.mp hj
    obtain ⟨hmsg, hplace⟩ := release_same l i
    exact ⟨i, hi, by rw [← hmsg]; exact hid, by rw [← hplace]; exact hp⟩
  · rintro ⟨i, hi, hid, hp⟩
    obtain ⟨hmsg, hplace⟩ := release_same l i
    exact ⟨release l i, List.mem_map_of_mem hi, by rw [hmsg]; exact hid, by rw [hplace]; exact hp⟩

/-- A queue that goes away leaves what is elsewhere. -/
theorem somewhere_left [DecidableEq B] (q : Place B) {n : ℕ} : Somewhere P (N.left s q) n ↔
    if N.deserted s q then Somewhere (fun p => P p ∧ p ≠ q) s n else Somewhere P s n := by
  unfold left
  split
  · next hd =>
    refine or_congr Iff.rfl ⟨?_, ?_⟩
    · rintro ⟨j, hj, hid, hp⟩
      obtain ⟨hmem, hne⟩ := List.mem_filter.mp hj
      exact ⟨j, hmem, hid, hp, of_decide_eq_true hne⟩
    · rintro ⟨j, hj, hid, hp, hne⟩
      exact ⟨j, List.mem_filter.mpr ⟨hj, decide_eq_true hne⟩, hid, hp⟩
  · exact Iff.rfl

theorem deserted_temporary [DecidableEq B] {q : Place B} (hd : N.deserted s q = true) :
    s.life q = .temporary := by
  simp only [deserted, Bool.and_eq_true, decide_eq_true_eq] at hd
  exact hd.1.1

theorem deserted_rank [DecidableEq B] (hl : ∀ q, 0 < rank q → s.life q = .lasting) {q : Place B}
    (hd : N.deserted s q = true) : rank q = 0 := by
  by_contra hpos
  have hlast := hl q (Nat.pos_of_ne_zero hpos)
  rw [deserted_temporary hd] at hlast
  exact absurd hlast nofun

/-- What is further up outlives a deserted queue. -/
theorem ahead_left [DecidableEq B] (hl : ∀ q, 0 < rank q → s.life q = .lasting) (q : Place B)
    {p : Place B} {n : ℕ} (hn : Somewhere (rank p < rank ·) s n) :
    Somewhere (rank p < rank ·) (N.left s q) n := by
  rw [somewhere_left]
  split
  · next hd =>
    refine hn.mono fun r hr => ⟨hr, ?_⟩
    rintro rfl
    rw [deserted_rank hl hd] at hr
    exact absurd hr (Nat.not_lt_zero _)
  · exact hn

/-! ### The invariant, step by step -/

theorem carried_left [DecidableEq B] (h : Carried N Fits rank s) (q : Place B) :
    Carried N Fits rank (N.left s q) := by
  have hmem : ∀ i ∈ (N.left s q).items, i ∈ s.items := by
    intro i hi
    unfold left at hi
    split at hi
    · exact List.mem_of_mem_filter hi
    · exact hi
  have hsame : (N.left s q).published = s.published ∧ (N.left s q).consumed = s.consumed := by
    unfold left
    split <;> exact ⟨rfl, rfl⟩
  refine ⟨?_, ?_, fun i hi => h.fits i (hmem i hi), fun i hi => h.held i (hmem i hi), ?_, ?_⟩
  · rw [hsame.1]
    exact fun i hi => h.items i (hmem i hi)
  · rw [hsame.1, hsame.2]
    exact h.consumed
  · exact fun i hi hsent => ahead_left h.lasting q (h.ahead i (hmem i hi) hsent)
  · intro p hp
    unfold left
    split
    · next hd =>
      have hne : p ≠ q := fun heq => by
        rw [heq, deserted_rank h.lasting hd] at hp
        exact absurd hp (Nat.not_lt_zero 0)
      exact (Function.update_of_ne hne .missing s.life).trans (h.lasting p hp)
    · exact h.lasting p hp

theorem carried_dropped [DecidableEq L] (h : Carried N Fits rank s) (l : L) :
    Carried N Fits rank (dropped s l) := by
  refine ⟨?_, h.consumed, ?_, ?_, ?_, h.lasting⟩
  · intro j hj
    obtain ⟨i, hi, rfl⟩ := List.mem_map.mp hj
    rw [(release_same l i).1]
    exact h.items i hi
  · intro j hj
    obtain ⟨i, hi, rfl⟩ := List.mem_map.mp hj
    rw [(release_same l i).1, (release_same l i).2]
    exact h.fits i hi
  · intro j hj l' stage hh
    obtain ⟨i, hi, rfl⟩ := List.mem_map.mp hj
    rw [(release_same l i).2]
    rcases release_holder l i with hready | hsame
    · exact absurd (hready.symm.trans hh) nofun
    · exact h.held i hi l' stage (hsame.symm.trans hh)
  · intro j hj hsent
    obtain ⟨i, hi, rfl⟩ := List.mem_map.mp hj
    rw [(release_same l i).1, (release_same l i).2, somewhere_dropped]
    rcases release_holder l i with hready | hsame
    · rw [hready] at hsent
      exact absurd hsent nofun
    · exact h.ahead i hi (hsame ▸ hsent)

theorem carried_unsubscribed [DecidableEq B] (h : Carried N Fits rank s) (q : Place B) :
    Carried N Fits rank (unsubscribed s q) :=
  ⟨h.items, h.consumed, h.fits, h.held, h.ahead, h.lasting⟩

/-- When a queue goes away, what is kept is what is spared. -/
theorem kept_left [DecidableEq B] {t : ShovelState B L} (h : Carried N Fits rank t) (hk : Kept t)
    (q : Place B) : Kept (N.left t q) ↔ (N.deserted t q = true → Spared t q) := by
  have hpub : (N.left t q).published = t.published := by
    unfold left
    split <;> rfl
  constructor
  · rintro hleft hd i hi -
    obtain ⟨m, hm, hid⟩ := h.items i hi
    have hsome := hleft m (hpub ▸ hm)
    rw [somewhere_left, if_pos hd, hid] at hsome
    exact hsome.mono fun _ hp => hp.2
  · intro hspared m hm
    have hsome := hk m (hpub ▸ hm)
    rw [somewhere_left]
    split
    · next hd =>
      rcases hsome with hcon | ⟨i, hi, hid, -⟩
      · exact Or.inl hcon
      by_cases hq : i.place = q
      · have hother := hspared hd i hi hq
        rw [hid] at hother
        exact hother.mono fun _ hp => ⟨trivial, hp⟩
      · exact Or.inr ⟨i, hi, hid, trivial, hq⟩
    · exact hsome

theorem spared_dropped [DecidableEq L] (l : L) (q : Place B) :
    Spared (dropped s l) q ↔ Spared s q := by
  constructor
  · intro h i hi hq
    obtain ⟨hmsg, hplace⟩ := release_same l i
    have hsome := h (release l i) (List.mem_map_of_mem hi) (hplace.trans hq)
    rw [somewhere_dropped, hmsg] at hsome
    exact hsome
  · intro h j hj hq
    obtain ⟨i, hi, rfl⟩ := List.mem_map.mp hj
    obtain ⟨hmsg, hplace⟩ := release_same l i
    rw [somewhere_dropped, hmsg]
    exact h i hi (hplace.symm.trans hq)

section Steps

variable [DecidableEq B] [DecidableEq L]

theorem mem_moved {j : Item B L} (hj : j ∈ (N.next s (.move k i)).items) :
    j ∈ s.items ∨ j ∈ N.outcome s i k := by
  rcases List.mem_append.mp hj with hold | hnew
  · exact Or.inl (List.mem_of_mem_erase hold)
  · exact Or.inr hnew

theorem enabled_move (he : N.enabled s (.move k i) = true) :
    i ∈ s.items ∧ N.canMove s i k = true := by
  simpa [enabled] using he

/-- A link holds an item of the outcome: it has just taken the item, or it held it before. -/
theorem outcome_held {j : Item B L} {l : L} {stage : Stage} (hcan : N.canMove s i k = true)
    (hj : j ∈ N.outcome s i k) (hh : j.holder = .shovel l stage) :
    j.msg = i.msg ∧ j.place = i.place ∧
      (k = .take l ∧ stage = .taken ∧ N.source l = i.place ∨
        k = .forward l ∧ i.holder = .shovel l .taken ∨
        k = .confirm l ∧ i.holder = .shovel l .forwarded) := by
  cases k with
  | take l' =>
    simp only [canMove, Bool.and_eq_true, decide_eq_true_eq] at hcan
    rw [List.mem_singleton.mp hj] at hh ⊢
    obtain ⟨rfl, rfl⟩ := Holder.shovel.inj hh
    exact ⟨rfl, rfl, Or.inl ⟨rfl, rfl, hcan.2⟩⟩
  | forward l' =>
    rcases List.mem_cons.mp hj with rfl | harr
    · obtain ⟨rfl, rfl⟩ := Holder.shovel.inj hh
      exact ⟨rfl, rfl, Or.inr (Or.inl ⟨rfl, by simpa [canMove] using hcan⟩)⟩
    · obtain ⟨q, -, -, rfl⟩ := mem_arrive.mp harr
      exact absurd hh nofun
  | confirm l' =>
    rw [List.mem_singleton.mp hj] at hh ⊢
    obtain ⟨rfl, rfl⟩ := Holder.shovel.inj hh
    exact ⟨rfl, rfl, Or.inr (Or.inr ⟨rfl, by simpa [canMove] using hcan⟩)⟩
  | deliver => rw [List.mem_singleton.mp hj] at hh; exact absurd hh nofun
  | giveBack => rw [List.mem_singleton.mp hj] at hh; exact absurd hh nofun
  | ack => exact absurd hj List.not_mem_nil
  | ackSource l' => exact absurd hj List.not_mem_nil

/-- What was somewhere stays at least as far up when an item moves. -/
theorem somewhere_move (hup : ∀ q p, P q → rank q < rank p → P p) (h : Carried N Fits rank s)
    (he : N.enabled s (.move k i) = true) {n : ℕ} (hn : Somewhere P s n) :
    Somewhere P (N.next s (.move k i)) n := by
  obtain ⟨hi, hcan⟩ := enabled_move he
  have hcons : ∀ m ∈ s.consumed, m ∈ (N.next s (.move k i)).consumed := by
    intro m hm
    simp only [next]
    split
    · exact List.mem_append_left _ hm
    · exact hm
  have hother : ∀ j ∈ s.items, j ≠ i → j ∈ (N.next s (.move k i)).items := fun j hj hne =>
    List.mem_append_left _ ((List.mem_erase_of_ne hne).mpr hj)
  rcases hn with hcon | ⟨j, hj, hid, hp⟩
  · exact Or.inl (hcons n hcon)
  · by_cases hji : j = i
    · subst hji
      rcases outcome_stays (N := N) s j k with ⟨j', hj', hmsg, hplace⟩ | rfl | ⟨l, rfl⟩
      · exact Or.inr ⟨j', List.mem_append_right _ hj', by rw [hmsg]; exact hid,
          by rw [hplace]; exact hp⟩
      · exact Or.inl (by simp [next, hid])
      · -- acked at the source: what the link published is further up
        have hsent : j.holder.sent = true := by
          simp only [canMove, decide_eq_true_eq] at hcan
          rw [hcan]; rfl
        rcases h.ahead j hj hsent with hcon | ⟨j', hj', hid', hrank⟩
        · exact Or.inl (hcons n (hid ▸ hcon))
        · have hne : j' ≠ j := fun heq => by rw [heq] at hrank; exact lt_irrefl _ hrank
          exact Or.inr ⟨j', hother j' hj' hne, hid'.trans hid, hup _ _ hp hrank⟩
    · exact Or.inr ⟨j, hother j hj hji, hid, hp⟩

theorem carried_publish (h : Carried N Fits rank s) {b : B} {x : String} {m : Message}
    (hfits : ∀ q ∈ N.routed b x m, Fits q m) :
    Carried N Fits rank (N.next s (.publish b x m)) := by
  have hpub : ∀ n : ℕ, (∃ m' ∈ s.published, m'.id = n) →
      ∃ m' ∈ (N.next s (.publish b x m)).published, m'.id = n := by
    rintro n ⟨m', hm', hid⟩
    exact ⟨m', List.mem_append_left _ hm', hid⟩
  have hitem : ∀ i ∈ (N.next s (.publish b x m)).items,
      i ∈ s.items ∨ ∃ q ∈ N.routed b x m, i = { msg := m, place := q } := by
    intro i hi
    rcases List.mem_append.mp hi with hold | hnew
    · exact Or.inl hold
    · obtain ⟨q, hq, -, rfl⟩ := mem_arrive.mp hnew
      exact Or.inr ⟨q, hq, rfl⟩
  refine ⟨?_, fun n hn => hpub n (h.consumed n hn), ?_, ?_, ?_, h.lasting⟩
  · intro i hi
    rcases hitem i hi with hold | ⟨q, -, rfl⟩
    · exact hpub _ (h.items i hold)
    · exact ⟨m, List.mem_append_right _ (List.mem_singleton_self m), rfl⟩
  · intro i hi
    rcases hitem i hi with hold | ⟨q, hq, rfl⟩
    · exact h.fits i hold
    · exact hfits q hq
  · intro i hi l stage hh
    rcases hitem i hi with hold | ⟨q, -, rfl⟩
    · exact h.held i hold l stage hh
    · exact absurd hh nofun
  · intro i hi hsent
    rcases hitem i hi with hold | ⟨q, -, rfl⟩
    · exact Somewhere.grow (t := N.next s (.publish b x m))
        (fun j hj => List.mem_append_left _ hj) rfl (h.ahead i hold hsent)
    · exact absurd hsent nofun

/-- What the link has published is further up. -/
theorem forward_ahead (ha : Ascending N Enters Fits rank) (h : Carried N Fits rank s) {l : L}
    (hi : i ∈ s.items) (hh : i.holder = .shovel l .taken) :
    Somewhere (rank i.place < rank ·) (N.next s (.move (.forward l) i)) i.msg.id := by
  have hsource := h.held i hi l .taken hh
  have hfits : Fits (N.source l) i.msg := by rw [hsource]; exact h.fits i hi
  obtain ⟨q, hq⟩ := List.exists_mem_of_ne_nil _ (ha.routable l i.msg hfits)
  have hrank : rank i.place < rank q := hsource ▸ (ha.hop l i.msg hfits q hq).2
  have hlife : s.life q ≠ .missing := by
    rw [h.lasting q (Nat.zero_lt_of_lt hrank)]; exact nofun
  refine Or.inr ⟨{ msg := (N.shovel l).sent i.msg, place := q }, ?_, rfl, hrank⟩
  refine List.mem_append_right _ (List.mem_cons_of_mem _ ?_)
  exact mem_arrive.mpr ⟨q, hq, hlife, rfl⟩

theorem carried_move (ha : Ascending N Enters Fits rank) (h : Carried N Fits rank s)
    (he : N.enabled s (.move k i) = true) : Carried N Fits rank (N.next s (.move k i)) := by
  obtain ⟨hi, hcan⟩ := enabled_move he
  refine ⟨?_, ?_, ?_, ?_, ?_, h.lasting⟩
  · intro j hj
    rcases mem_moved hj with hold | hnew
    · exact h.items j hold
    · rw [outcome_id hnew]
      exact h.items i hi
  · intro n hn
    simp only [next] at hn
    split at hn
    · rcases List.mem_append.mp hn with hold | hnew
      · exact h.consumed n hold
      · rw [List.mem_singleton.mp hnew]
        exact h.items i hi
    · exact h.consumed n hn
  · intro j hj
    rcases mem_moved hj with hold | hnew
    · exact h.fits j hold
    rcases mem_outcome hnew with ⟨hmsg, hplace⟩ | ⟨l, rfl, harr⟩
    · rw [hmsg, hplace]
      exact h.fits i hi
    · obtain ⟨q, hq, -, rfl⟩ := mem_arrive.mp harr
      have hsource := h.held i hi l .taken (by simpa [canMove] using hcan)
      exact (ha.hop l i.msg (by rw [hsource]; exact h.fits i hi) q hq).1
  · intro j hj l stage hh
    rcases mem_moved hj with hold | hnew
    · exact h.held j hold l stage hh
    rcases outcome_held hcan hnew hh with ⟨-, hplace, ⟨-, -, hs⟩ | ⟨-, hih⟩ | ⟨-, hih⟩⟩
    · exact hplace ▸ hs
    · exact hplace ▸ h.held i hi l .taken hih
    · exact hplace ▸ h.held i hi l .forwarded hih
  · intro j hj hsent
    rcases mem_moved hj with hold | hnew
    · exact somewhere_move (fun _ _ => lt_trans) h he (h.ahead j hold hsent)
    obtain ⟨l, stage, hh, hne⟩ := Holder.sent_stage hsent
    obtain ⟨hmsg, hplace, hcase⟩ := outcome_held hcan hnew hh
    rw [hmsg, hplace]
    rcases hcase with ⟨-, htaken, -⟩ | ⟨rfl, hih⟩ | ⟨rfl, hih⟩
    · exact absurd htaken hne
    · exact forward_ahead ha h hi hih
    · exact somewhere_move (fun _ _ => lt_trans) h he (h.ahead i hi (by rw [hih]; rfl))

/-! ### The exact condition -/

/-- Nothing is published to missing queues only, and no queue goes away with content that is
    nowhere else. -/
def Safe (N : Network B L) (s : ShovelState B L) : ShovelAct B L → Prop
  | .publish b x m => ∃ q ∈ N.routed b x m, s.life q ≠ .missing
  | .cancel q => N.deserted (unsubscribed s q) q = true → Spared s q
  | .drop l => N.deserted (dropped s l) (N.source l) = true → Spared s (N.source l)
  | _ => True

instance (s : ShovelState B L) (q : Place B) : Decidable (Spared s q) :=
  inferInstanceAs (Decidable (∀ i ∈ s.items, i.place = q → _))

instance (s : ShovelState B L) (a : ShovelAct B L) : Decidable (N.Safe s a) := by
  rcases a <;> (dsimp only [Safe]; infer_instance)

/-- What enters is what may enter. -/
def EntersBy (Enters : B → String → Message → Prop) : ShovelAct B L → Prop
  | .publish b x m => Enters b x m
  | _ => True

theorem carried_step (ha : Ascending N Enters Fits rank) (a : ShovelAct B L)
    (h : Carried N Fits rank s) (he : N.enabled s a = true) (hin : EntersBy Enters a) :
    Carried N Fits rank (N.next s a) := by
  cases a with
  | publish b x m => exact carried_publish h (ha.enter b x m hin)
  | subscribe q => exact ⟨h.items, h.consumed, h.fits, h.held, h.ahead, h.lasting⟩
  | cancel q => exact carried_left (carried_unsubscribed h q) q
  | connect l =>
    refine ⟨h.items, h.consumed, h.fits, h.held, h.ahead, fun q hq => ?_⟩
    simp only [next]
    split
    · by_cases hql : q = N.source l
      · rw [hql, Function.update_self]
      · rw [Function.update_of_ne hql]
        exact h.lasting q hq
    · exact h.lasting q hq
  | drop l => exact carried_left (carried_dropped h l) (N.source l)
  | move k i => exact carried_move ha h he

/-- A message just published is kept exactly when a queue it is routed to exists. -/
theorem kept_publish (h : Carried N Fits rank s) (hk : Kept s) {b : B} {x : String} {m : Message}
    (he : N.enabled s (.publish b x m) = true) : Kept (N.next s (.publish b x m)) ↔
      ∃ q ∈ N.routed b x m, s.life q ≠ .missing := by
  have hfresh : ∀ m' ∈ s.published, m'.id ≠ m.id := by
    simpa [enabled, List.all_eq_true] using he
  constructor
  · intro hnext
    rcases hnext m (List.mem_append_right _ (List.mem_singleton_self m)) with hcon | ⟨i, hi, hid, -⟩
    · obtain ⟨m', hm', hid⟩ := h.consumed _ hcon
      exact absurd hid (hfresh m' hm')
    · rcases List.mem_append.mp hi with hold | hnew
      · obtain ⟨m', hm', hid'⟩ := h.items i hold
        exact absurd (hid'.trans hid) (hfresh m' hm')
      · obtain ⟨q, hq, hlife, -⟩ := mem_arrive.mp hnew
        exact ⟨q, hq, hlife⟩
  · rintro ⟨q, hq, hlife⟩ m' hm'
    rcases List.mem_append.mp hm' with hold | hnew
    · exact Somewhere.grow (t := N.next s (.publish b x m))
        (fun j hj => List.mem_append_left _ hj) rfl (hk m' hold)
    · rw [List.mem_singleton.mp hnew]
      refine Or.inr ⟨{ msg := m, place := q }, List.mem_append_right _ ?_, rfl, trivial⟩
      exact mem_arrive.mpr ⟨q, hq, hlife, rfl⟩

/-- RULE (kept): one step keeps the messages exactly when it is safe. -/
theorem kept_step (a : ShovelAct B L) (h : Carried N Fits rank s) (hk : Kept s)
    (he : N.enabled s a = true) : Kept (N.next s a) ↔ N.Safe s a := by
  cases a with
  | publish b x m => exact kept_publish h hk he
  | subscribe q => exact iff_of_true hk trivial
  | cancel q => exact kept_left (carried_unsubscribed h q) hk q
  | connect l => exact iff_of_true hk trivial
  | drop l =>
    have hk' : Kept (dropped s l) := fun m hm => (somewhere_dropped l).mpr (hk m hm)
    rw [Safe, ← spared_dropped (s := s) l]
    exact kept_left (carried_dropped h l) hk' (N.source l)
  | move k i =>
    exact iff_of_true (fun m hm => somewhere_move (fun _ _ _ _ => trivial) h he (hk m hm)) trivial

/-- What is nowhere stays nowhere, for no message is published twice. -/
theorem nowhere_step (a : ShovelAct B L) (he : N.enabled s a = true) {m : Message}
    (hm : m ∈ s.published) (hn : Somewhere (fun _ => True) (N.next s a) m.id) :
    Somewhere (fun _ => True) s m.id := by
  have hleft : ∀ (t : ShovelState B L) (q : Place B),
      Somewhere (fun _ => True) (N.left t q) m.id → Somewhere (fun _ => True) t m.id := by
    intro t q ht
    rw [somewhere_left] at ht
    split at ht
    · exact ht.mono fun _ _ => trivial
    · exact ht
  cases a with
  | publish b x m' =>
    have hfresh : m.id ≠ m'.id := by
      have hall : ∀ n ∈ s.published, n.id ≠ m'.id := by
        simpa [enabled, List.all_eq_true] using he
      exact hall m hm
    rcases hn with hcon | ⟨i, hi, hid, -⟩
    · exact Or.inl hcon
    · rcases List.mem_append.mp hi with hold | hnew
      · exact Or.inr ⟨i, hold, hid, trivial⟩
      · obtain ⟨q, -, -, rfl⟩ := mem_arrive.mp hnew
        exact absurd hid.symm hfresh
  | subscribe q => exact hn
  | cancel q => exact hleft (unsubscribed s q) q hn
  | connect l => exact hn
  | drop l => exact (somewhere_dropped l).mp (hleft _ _ hn)
  | move k i =>
    obtain ⟨hi, -⟩ := enabled_move he
    rcases hn with hcon | ⟨j, hj, hid, -⟩
    · simp only [next] at hcon
      split at hcon
      · rcases List.mem_append.mp hcon with hold | hnew
        · exact Or.inl hold
        · exact Or.inr ⟨i, hi, (List.mem_singleton.mp hnew).symm, trivial⟩
      · exact Or.inl hcon
    · rcases mem_moved hj with hold | hnew
      · exact Or.inr ⟨j, hold, hid, trivial⟩
      · exact Or.inr ⟨i, hi, (outcome_id hnew).symm.trans hid, trivial⟩

/-- RULE (relay): a network whose links lead upwards keeps its messages exactly as long as every
    step is safe. -/
theorem kept_exact (ha : Ascending N Enters Fits rank) {D : ShovelState B L → ShovelAct B L → Prop}
    (hD : ∀ s a, D s a → EntersBy Enters a) :
    Machine.Exact (shovels N) D N.Safe (Carried N Fits rank) Kept fun s => ¬ Kept s where
  keeps s a h he hd := carried_step ha a h he (hD s a hd)
  holds _ a h hk he _ hsafe := (kept_step a h hk he).mpr hsafe
  fails _ a h hk he _ hunsafe hnext := hunsafe ((kept_step a h hk he).mp hnext)
  stays s a _ hlost he hnext := hlost fun m hm => by
    have hpub : m ∈ (N.next s a).published := by
      cases a with
      | publish b x m' => exact List.mem_append_left _ hm
      | cancel q => simp only [next, left]; split <;> exact hm
      | drop l => simp only [next, left]; split <;> exact hm
      | _ => exact hm
    exact nowhere_step a he hm (hnext m hpub)
  excludes _ hlost := hlost

theorem carried_init (ha : Ascending N Enters Fits rank) :
    Carried N Fits rank (shovels N).init :=
  ⟨nofun, nofun, nofun, nofun, nofun, ha.lasting⟩

/-- RULE (lasting queues): where every queue lasts and whatever enters is routed, every run keeps
    its messages. -/
theorem kept_of_lasting (ha : Ascending N Enters Fits rank)
    {D : ShovelState B L → ShovelAct B L → Prop} (hD : ∀ s a, D s a → EntersBy Enters a)
    (hpos : ∀ q, 0 < rank q) (hroute : ∀ b x m, Enters b x m → N.routed b x m ≠ []) :
    ∀ s, (shovels N).Reach D s → Carried N Fits rank s ∧ Kept s := by
  refine Machine.inv ⟨carried_init ha, nofun⟩ ?_
  rintro s a ⟨h, hk⟩ he hd
  refine ⟨carried_step ha a h he (hD s a hd), (kept_step a h hk he).mpr ?_⟩
  have hno : ∀ (t : ShovelState B L) (q : Place B), t.life = s.life → N.deserted t q = true →
      Spared s q := by
    intro t q hlife hdes
    have htemp := deserted_temporary hdes
    rw [hlife, h.lasting q (hpos q)] at htemp
    exact absurd htemp nofun
  cases a with
  | publish b x m =>
    obtain ⟨q, hq⟩ := List.exists_mem_of_ne_nil _ (hroute b x m (hD s _ hd))
    exact ⟨q, hq, by rw [h.lasting q (hpos q)]; exact nofun⟩
  | cancel q => exact hno _ q rfl
  | drop l => exact hno _ _ rfl
  | _ => trivial

end Steps

end Network

end RabbitmqCluster.Schemes
