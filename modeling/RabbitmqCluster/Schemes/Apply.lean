import RabbitmqCluster.Schemes.Convergence
import RabbitmqCluster.Schemes.Machine
import Mathlib.Data.List.Nodup

/-! @scheme apply | family:declared-state

    Declared resources that refer to one another, and a tool that creates them. It may create a
    resource once all that it refers to is created, so the order is free otherwise, and it may stop
    at any moment. If every resource brings its objects after what they need, and refers to whatever
    brings that, no creation is refused (`not_refused`), the tool never gets stuck (`progress`), and
    whatever order it takes it ends in the same objects (`applied`).

        a ◀─ b ◀─ d        a b c d, a c b d, c a b d, ...  ─▶ one store
             c ◀─┘ -/

namespace RabbitmqCluster.Schemes

/-- Resources under their addresses, the addresses they refer to, and the objects they bring. -/
structure Graph (R A O : Type) where
  resources : List R
  address : R → A
  refs : R → List A
  brings : R → List (Bring O)

variable {R A O K : Type} {N : Naming O K} {g : Graph R A O}

namespace Graph

/-- The resources created so far, in their order, and the store. -/
structure State (R : Type) (N : Naming O K) where
  created : List R
  store : Store N

variable (g) in
/-- All that the resources bring, one after another. -/
def script (rs : List R) : List (Bring O) := rs.flatMap g.brings

variable (g) in
/-- The addresses of the resources. -/
def addresses (rs : List R) : List A := rs.map g.address

section Run

variable [DecidableEq A] [DecidableEq R] [DecidableEq K] [DecidableEq O]

variable (g) in
def enabled (s : State R N) (r : R) : Bool :=
  r ∈ g.resources && g.address r ∉ g.addresses s.created &&
    (g.refs r).all (· ∈ g.addresses s.created)

variable (g) in
def next (s : State R N) (r : R) : State R N where
  created := s.created ++ [r]
  store := runAll Bring.exec (g.brings r) unbroken s.store

variable (g) in
/-- The tool on a store, with nothing created yet. -/
def applying (s : Store N) : Machine (State R N) R where
  init := ⟨[], s⟩
  enabled := g.enabled
  next := g.next

end Run

/-- The keys that are there once the addresses are created. -/
def known (N : Naming O K) (g : Graph R A O) (as : List A) [DecidableEq A] : List K :=
  (g.script (g.resources.filter (g.address · ∈ as))).map (N.key ·.object)

/-- Every resource refers to what brings the needs of its objects, `base` being there before. -/
def Covered (N : Naming O K) (g : Graph R A O) (base : List K) [DecidableEq A] : Prop :=
  ∀ r ∈ g.resources, Supplied N (base ++ known N g (g.refs r)) ((g.brings r).map (·.object))

instance (base : List K) [DecidableEq A] [DecidableEq K] : Decidable (Covered N g base) :=
  inferInstanceAs (Decidable (∀ r ∈ g.resources, Supplied N _ _))

/-- The resources can be created in this order. -/
def InOrder (g : Graph R A O) : List A → List R → Prop
  | _, [] => True
  | done, r :: rs => (∀ a ∈ g.refs r, a ∈ done) ∧ InOrder g (g.address r :: done) rs

instance InOrder.dec [DecidableEq A] : ∀ (done : List A) (rs : List R),
    Decidable (InOrder g done rs)
  | _, [] => isTrue trivial
  | done, r :: rs =>
    have := InOrder.dec (g.address r :: done) rs
    inferInstanceAs (Decidable ((∀ a ∈ g.refs r, a ∈ done) ∧ _))

/-- A graph that can be applied: addresses are unique, the objects are brought in one way and after
    what they need, and the references do not go round. -/
structure Sound (N : Naming O K) (g : Graph R A O) (base : List K) (order : List R)
    [DecidableEq A] : Prop where
  unique : (g.addresses g.resources).Nodup
  consistent : Consistent N (g.script g.resources)
  covered : Covered N g base
  complete : ∀ r ∈ g.resources, r ∈ order
  sub : ∀ r ∈ order, r ∈ g.resources
  acyclic : InOrder g [] order

/-! ### Scripts in parts -/

theorem supplied_append {known : List K} {os ps : List O} (ho : Supplied N known os)
    (hp : Supplied N (known ++ os.map N.key) ps) : Supplied N known (os ++ ps) := by
  induction os generalizing known with
  | nil => simpa using hp
  | cons o os ih =>
    refine ⟨ho.1, ih ho.2 (hp.mono fun k hk => ?_)⟩
    simp only [List.map_cons, List.mem_append, List.mem_cons] at hk ⊢
    tauto

theorem runAll_append {S C : Type} (exec : C → S → Option S) (cs ds : List C) (s : S) :
    runAll exec (cs ++ ds) unbroken s = runAll exec ds unbroken (runAll exec cs unbroken s) := by
  induction cs generalizing s with
  | nil => rfl
  | cons c cs ih => exact ih _

/-- Scripts with the same commands bring the same. -/
theorem brought_congr {script script' : List (Bring O)} {s : Store N} {o : O}
    (h : ∀ b, b ∈ script ↔ b ∈ script') : Brought script s o ↔ Brought script' s o := by
  simp only [Brought, h]

variable [DecidableEq K] [DecidableEq O]

/-- None of the commands is refused. -/
def Accepts : List (Bring O) → Store N → Prop
  | [], _ => True
  | b :: bs, s => (b.exec s).isSome = true ∧ Accepts bs (b.after s)

/-- Nothing is refused of a script that nothing contradicts, after any of its commands. -/
theorem accepts {script part : List (Bring O)} {s t : Store N} (hone : Consistent N script)
    (hadd : ∀ b ∈ script, b.mode ≠ .add) (hagree : Agrees script s) (h : Between script s t)
    (hpart : ∀ b ∈ part, b ∈ script) (hs : Supplied N t.keys (part.map (·.object))) :
    Accepts part t := by
  induction part generalizing t with
  | nil => trivial
  | cons b part ih =>
    obtain ⟨hb, hpart⟩ := List.forall_mem_cons.mp hpart
    have hexec := exec_isSome hs.1 (agrees_between hone hadd h hagree b hb)
    exact ⟨by rw [hexec]; rfl, ih (h.step hb) hpart (supplied_after hs)⟩

/-! ### Runs -/

variable [DecidableEq A] [DecidableEq R] {base : List K} {order : List R} {s : State R N}
  {s₀ : Store N} {C : State R N → R → Prop}

/-- What every run keeps: the store is what the script of the created resources makes of the first
    one, each object after its needs. -/
structure Applied (g : Graph R A O) (s₀ : Store N) (s : State R N) : Prop where
  sub : ∀ r ∈ s.created, r ∈ g.resources
  store : s.store = runAll Bring.exec (g.script s.created) unbroken s₀
  supplied : Supplied N s₀.keys ((g.script s.created).map (·.object))

namespace Sound

omit [DecidableEq K] [DecidableEq O] [DecidableEq R] in
/-- A resource whose address is created is created. -/
theorem created (h : Sound N g base order) (hsub : ∀ r ∈ s.created, r ∈ g.resources) {r : R}
    (hr : r ∈ g.resources) (ha : g.address r ∈ g.addresses s.created) : r ∈ s.created := by
  obtain ⟨q, hq, hsame⟩ := List.mem_map.mp ha
  have heq := List.inj_on_of_nodup_map h.unique (hsub q hq) hr hsame
  exact heq ▸ hq

/-- What a resource needs is there when its references are created. -/
theorem supplied (h : Sound N g base order) (hbase : ∀ k ∈ base, k ∈ s₀.keys)
    (ha : Applied g s₀ s) {r : R} (he : g.enabled s r = true) :
    Supplied N (s₀.keys ++ ((g.script s.created).map (·.object)).map N.key)
      ((g.brings r).map (·.object)) := by
  simp only [enabled, Bool.and_eq_true, decide_eq_true_eq, List.all_eq_true] at he
  refine (h.covered r he.1.1).mono fun k hk => ?_
  rcases List.mem_append.mp hk with hk | hk
  · exact List.mem_append_left _ (hbase k hk)
  · obtain ⟨b, hb, rfl⟩ := List.mem_map.mp hk
    obtain ⟨q, hq, hb⟩ := List.mem_flatMap.mp hb
    obtain ⟨hq, href⟩ := List.mem_filter.mp hq
    have hcreated := h.created ha.sub hq (he.2 _ (of_decide_eq_true href))
    refine List.mem_append_right _ (List.mem_map_of_mem (List.mem_map_of_mem ?_))
    exact List.mem_flatMap.mpr ⟨q, hcreated, hb⟩

theorem step (h : Sound N g base order) (hbase : ∀ k ∈ base, k ∈ s₀.keys) (r : R)
    (ha : Applied g s₀ s) (he : g.enabled s r = true) : Applied g s₀ (g.next s r) := by
  have hsupplied := h.supplied hbase ha he
  simp only [enabled, Bool.and_eq_true, decide_eq_true_eq] at he
  have hscript : g.script (s.created ++ [r]) = g.script s.created ++ g.brings r := by
    simp [script]
  refine ⟨fun q hq => ?_, ?_, ?_⟩
  · rcases List.mem_append.mp hq with hq | hq
    · exact ha.sub q hq
    · exact List.mem_singleton.mp hq ▸ he.1.1
  · show runAll Bring.exec (g.brings r) unbroken s.store =
      runAll Bring.exec (g.script (s.created ++ [r])) unbroken s₀
    rw [hscript, runAll_append, ← ha.store]
  · show Supplied N s₀.keys ((g.script (s.created ++ [r])).map (·.object))
    rw [hscript, List.map_append]
    exact supplied_append ha.supplied hsupplied

theorem applied (h : Sound N g base order) (hbase : ∀ k ∈ base, k ∈ s₀.keys) :
    ∀ s, (g.applying s₀).Reach C s → Applied g s₀ s :=
  Machine.inv ⟨List.forall_mem_nil _, rfl, trivial⟩ fun _ r ha he _ => h.step hbase r ha he

/-- RULE (no refusal): where nothing contradicts the resources, none of their creations is refused,
    in whatever order they are created. -/
theorem not_refused (h : Sound N g base order) (hbase : ∀ k ∈ base, k ∈ s₀.keys)
    (hadd : ∀ b ∈ g.script g.resources, b.mode ≠ .add) (hagree : Agrees (g.script g.resources) s₀)
    (hs : (g.applying s₀).Reach C s) {r : R} (he : g.enabled s r = true) :
    Accepts (g.brings r) s.store := by
  have ha := h.applied hbase s hs
  have hkeys : ∀ k ∈ s₀.keys ++ ((g.script s.created).map (·.object)).map N.key,
      k ∈ s.store.keys := by
    intro k hk
    rw [ha.store]
    exact keys_runAll ha.supplied (List.mem_append.mp hk)
  have hin : ∀ q ∈ g.resources, ∀ b ∈ g.brings q, b ∈ g.script g.resources := fun q hq b hb =>
    List.mem_flatMap.mpr ⟨q, hq, hb⟩
  have hpart : ∀ b ∈ g.script s.created, b ∈ g.script g.resources := by
    intro b hb
    obtain ⟨q, hq, hb⟩ := List.mem_flatMap.mp hb
    exact hin q (ha.sub q hq) b hb
  have hbetween : Between (g.script g.resources) s₀ s.store := by
    rw [ha.store]
    exact runAll_between hpart unbroken (Between.refl s₀)
  have hr : r ∈ g.resources := by
    simp only [enabled, Bool.and_eq_true, decide_eq_true_eq] at he
    exact he.1.1
  exact accepts h.consistent hadd hagree hbetween (hin r hr) ((h.supplied hbase ha he).mono hkeys)

omit [DecidableEq K] [DecidableEq O] in
/-- The first resource in the order that is not created can be. -/
theorem first_enabled {done : List A} (hsub : ∀ r ∈ order, r ∈ g.resources)
    (hin : InOrder g done order) (hdone : ∀ a ∈ done, a ∈ g.addresses s.created)
    (hleft : ∃ r ∈ order, g.address r ∉ g.addresses s.created) : ∃ r, g.enabled s r = true := by
  induction order generalizing done with
  | nil =>
    obtain ⟨r, hr, -⟩ := hleft
    exact absurd hr List.not_mem_nil
  | cons r rs ih =>
    obtain ⟨hr, hsub⟩ := List.forall_mem_cons.mp hsub
    by_cases hcreated : g.address r ∈ g.addresses s.created
    · refine ih hsub hin.2 (fun a ha => ?_) ?_
      · rcases List.mem_cons.mp ha with rfl | ha
        · exact hcreated
        · exact hdone a ha
      · obtain ⟨q, hq, hno⟩ := hleft
        rcases List.mem_cons.mp hq with rfl | hq
        · exact absurd hcreated hno
        · exact ⟨q, hq, hno⟩
    · refine ⟨r, ?_⟩
      simp only [enabled, Bool.and_eq_true, decide_eq_true_eq, List.all_eq_true]
      exact ⟨⟨hr, hcreated⟩, fun a ha => hdone a (hin.1 a ha)⟩

omit [DecidableEq K] [DecidableEq O] [DecidableEq R] in
/-- There is less to create after a creation. -/
theorem left_lt {r : R} (hr : r ∈ g.resources) (hno : g.address r ∉ g.addresses s.created) :
    (g.resources.filter (g.address · ∉ g.addresses (s.created ++ [r]))).length <
      (g.resources.filter (g.address · ∉ g.addresses s.created)).length := by
  have hsplit : g.resources.filter (g.address · ∉ g.addresses (s.created ++ [r])) =
      (g.resources.filter (g.address · ∉ g.addresses s.created)).filter
        (g.address · ≠ g.address r) := by
    rw [List.filter_filter]
    refine List.filter_congr fun q _ => ?_
    simp [addresses, and_comm]
  rw [hsplit]
  refine List.length_filter_lt_length_iff_exists.mpr ⟨r, ?_, by simp⟩
  exact List.mem_filter.mpr ⟨hr, decide_eq_true hno⟩

/-- RULE (progress): from every state the tool can create what is left. -/
theorem progress (h : Sound N g base order) (hbase : ∀ k ∈ base, k ∈ s₀.keys)
    (ha : Applied g s₀ s) :
    ∃ t, (g.applying s₀).Steps Machine.Any s t ∧ ∀ r ∈ g.resources, r ∈ t.created := by
  obtain ⟨n, hn⟩ : ∃ n, (g.resources.filter (g.address · ∉ g.addresses s.created)).length = n :=
    ⟨_, rfl⟩
  induction n using Nat.strong_induction_on generalizing s with
  | h n ih =>
    by_cases hleft : ∃ r ∈ order, g.address r ∉ g.addresses s.created
    · obtain ⟨r, he⟩ := first_enabled h.sub h.acyclic (List.forall_mem_nil _) hleft
      have hr := he
      simp only [enabled, Bool.and_eq_true, decide_eq_true_eq] at hr
      obtain ⟨t, ht, hall⟩ := ih _ (hn ▸ left_lt hr.1.1 hr.1.2) (h.step hbase r ha he) rfl
      exact ⟨t, (Machine.Steps.one r he trivial).trans ht, hall⟩
    · refine ⟨s, Machine.Steps.refl _ s, fun r hr => h.created ha.sub hr ?_⟩
      by_contra hno
      exact hleft ⟨r, h.complete r hr, hno⟩

omit [DecidableEq R] in
/-- RULE (one result): in whatever order all resources were created, the store has what the
    resources make of the first one. -/
theorem mem_applied (h : Sound N g base order) (ha : Applied g s₀ s)
    (hall : ∀ r ∈ g.resources, r ∈ s.created) (o : O) :
    o ∈ s.store.objects ↔ Brought (g.script g.resources) s₀ o := by
  have hmem : ∀ b, b ∈ g.script s.created ↔ b ∈ g.script g.resources := by
    intro b
    simp only [script, List.mem_flatMap]
    exact ⟨fun ⟨r, hr, hb⟩ => ⟨r, ha.sub r hr, hb⟩, fun ⟨r, hr, hb⟩ => ⟨r, hall r hr, hb⟩⟩
  have hone : Consistent N (g.script s.created) := fun b hb c hc =>
    h.consistent b ((hmem b).mp hb) c ((hmem c).mp hc)
  rw [ha.store, mem_runAll hone ha.supplied]
  exact brought_congr hmem

end Sound

end Graph

end RabbitmqCluster.Schemes
