import RabbitmqCluster.Schemes.Broker
import Mathlib.Data.List.Perm.Subperm
import Mathlib.Logic.Relation

/-! @scheme walks | family:reachability

    Where a message can get to. A walk that comes to a node twice can leave out what is between, so
    what can be reached at all can be reached without coming anywhere twice
    (`exists_nodup`), and a search as deep as there are nodes finds it. A message therefore gets
    exactly to the queues to which a chain of exchanges leads, in whatever circles the exchanges are
    bound to one another (`mem_route`).

        x ─▶ y ─▶ ... ─▶ y ─▶ z        x ─▶ y ─▶ z -/

namespace RabbitmqCluster.Schemes

section Walk

variable {α : Type*} {r : α → α → Prop} {nodes xs : List α} {x y z : α}

/-- The nodes are those of a walk from the first to the second end. -/
inductive Walk (r : α → α → Prop) : List α → α → α → Prop
  | stay (x : α) : Walk r [x] x x
  | step {xs : List α} {x y z : α} (h : r x y) (w : Walk r xs y z) : Walk r (x :: xs) x z

namespace Walk

theorem reach (w : Walk r xs x z) : Relation.ReflTransGen r x z := by
  induction w with
  | stay x => exact .refl
  | step h _ ih => exact ih.head h

/-- The rest of a walk, from a node on. -/
theorem from_node (w : Walk r xs y z) (hx : x ∈ xs) : ∃ ys, Walk r ys x z ∧ ys <:+ xs := by
  induction w with
  | stay y =>
    obtain rfl := List.mem_singleton.mp hx
    exact ⟨[x], .stay x, List.suffix_refl _⟩
  | step h w ih =>
    rcases List.mem_cons.mp hx with rfl | hrest
    · exact ⟨_, .step h w, List.suffix_refl _⟩
    · obtain ⟨ys, hys, hsuffix⟩ := ih hrest
      exact ⟨ys, hys, hsuffix.trans (List.suffix_cons _ _)⟩

/-- What can be reached can be reached without coming anywhere twice. -/
theorem exists_nodup (h : Relation.ReflTransGen r x z) : ∃ xs, Walk r xs x z ∧ xs.Nodup := by
  induction h using Relation.ReflTransGen.head_induction_on with
  | refl => exact ⟨[z], .stay z, List.nodup_singleton z⟩
  | @head a b hstep _ ih =>
    obtain ⟨xs, hw, hnodup⟩ := ih
    by_cases hmem : a ∈ xs
    · obtain ⟨ys, hys, hsuffix⟩ := hw.from_node hmem
      exact ⟨ys, hys, hnodup.sublist hsuffix.sublist⟩
    · exact ⟨a :: xs, .step hstep hw, List.nodup_cons.mpr ⟨hmem, hnodup⟩⟩

/-- A walk does not leave the nodes from which a step leads on. -/
theorem subset (w : Walk r xs x z) (hr : ∀ a b, r a b → a ∈ nodes) (hz : z ∈ nodes) :
    xs ⊆ nodes := by
  induction w with
  | stay z => exact fun a ha => List.mem_singleton.mp ha ▸ hz
  | step h _ ih => exact List.cons_subset.mpr ⟨hr _ _ h, ih hz⟩

/-- RULE (depth): a walk over as many nodes as there are leads everywhere. -/
theorem exists_short (h : Relation.ReflTransGen r x z) (hr : ∀ a b, r a b → a ∈ nodes)
    (hz : z ∈ nodes) : ∃ xs, Walk r xs x z ∧ xs.length ≤ nodes.length := by
  obtain ⟨xs, hw, hnodup⟩ := exists_nodup h
  exact ⟨xs, hw, (List.subperm_of_subset hnodup (hw.subset hr hz)).length_le⟩

end Walk

end Walk

namespace Topology

variable {top : Topology} {m : Message} {x y q : String}

/-- The exchange sends the message on to another one. -/
def Sends (top : Topology) (m : Message) (x y : String) : Prop :=
  ∃ e, top.exchange x = some e ∧ .exchange y ∈ top.targets e m

/-- The exchange sends the message into the queue. -/
def Drops (top : Topology) (m : Message) (x q : String) : Prop :=
  ∃ e, top.exchange x = some e ∧ .queue q ∈ top.targets e m

theorem exchange_name {e : Exchange} (h : top.exchange x = some e) : e.name = x := by
  simpa using List.find?_some h

theorem exchange_mem {e : Exchange} (h : top.exchange x = some e) :
    x ∈ top.exchanges.map (·.name) := by
  have hname := exchange_name h
  exact hname ▸ List.mem_map_of_mem (List.mem_of_find?_eq_some h)

theorem mem_hops_succ {n : ℕ} : q ∈ top.hops m (n + 1) x ↔
    top.Drops m x q ∨ ∃ y, top.Sends m x y ∧ q ∈ top.hops m n y := by
  rw [hops]
  cases he : top.exchange x with
  | none => simp [Drops, Sends, he]
  | some e =>
    simp only [Drops, Sends, he, Option.some.injEq, exists_eq_left', List.mem_flatMap]
    constructor
    · rintro ⟨d, hd, hq⟩
      cases d with
      | queue p =>
        obtain rfl := List.mem_singleton.mp hq
        exact Or.inl hd
      | exchange y => exact Or.inr ⟨y, hd, hq⟩
    · rintro (hd | ⟨y, hd, hq⟩)
      · exact ⟨.queue q, hd, List.mem_singleton_self q⟩
      · exact ⟨.exchange y, hd, hq⟩

/-- The search over at most `n` exchanges finds what the walks over at most `n` exchanges lead
    to. -/
theorem mem_hops : ∀ {n : ℕ} {x : String}, q ∈ top.hops m n x ↔
    ∃ xs y, Walk (top.Sends m) xs x y ∧ xs.length ≤ n ∧ top.Drops m y q
  | 0, x => by
    constructor
    · intro h
      exact absurd h List.not_mem_nil
    · rintro ⟨xs, y, hw, hlen, -⟩
      cases hw <;> simp at hlen
  | n + 1, x => by
    rw [mem_hops_succ]
    constructor
    · rintro (hd | ⟨y, hs, hq⟩)
      · exact ⟨[x], x, .stay x, by simp, hd⟩
      · obtain ⟨xs, z, hw, hlen, hd⟩ := mem_hops.mp hq
        exact ⟨x :: xs, z, .step hs hw, Nat.succ_le_succ hlen, hd⟩
    · rintro ⟨xs, z, hw, hlen, hd⟩
      cases hw with
      | stay => exact Or.inl hd
      | step hs hw => exact Or.inr ⟨_, hs, mem_hops.mpr ⟨_, z, hw, Nat.le_of_succ_le_succ hlen, hd⟩⟩

/-- RULE (routes): a message gets exactly to the queues to which a chain of exchanges leads. -/
theorem mem_route (hx : x ≠ "") : q ∈ top.route m x ↔
    ∃ y, Relation.ReflTransGen (top.Sends m) x y ∧ top.Drops m y q := by
  rw [route, if_neg hx, List.mem_dedup, mem_hops]
  constructor
  · rintro ⟨xs, y, hw, -, hd⟩
    exact ⟨y, hw.reach, hd⟩
  · rintro ⟨y, hreach, e, he, hd⟩
    have hdeclared : ∀ a b, top.Sends m a b → a ∈ top.exchanges.map (·.name) :=
      fun a b ⟨_, ha, _⟩ => exchange_mem ha
    obtain ⟨xs, hw, hlen⟩ := Walk.exists_short hreach hdeclared (exchange_mem he)
    exact ⟨xs, y, hw, by simpa using hlen, e, he, hd⟩

/-- RULE (next): from an exchange a message gets into its own queues, and to where the exchanges
    behind it lead. -/
theorem mem_route_next (hx : x ≠ "") (hnext : ∀ y, top.Sends m x y → y ≠ "") :
    q ∈ top.route m x ↔ top.Drops m x q ∨ ∃ y, top.Sends m x y ∧ q ∈ top.route m y := by
  rw [mem_route hx]
  constructor
  · rintro ⟨y, hreach, hd⟩
    rcases hreach.cases_head with rfl | ⟨z, hs, hrest⟩
    · exact Or.inl hd
    · exact Or.inr ⟨z, hs, (mem_route (hnext z hs)).mpr ⟨y, hrest, hd⟩⟩
  · rintro (hd | ⟨z, hs, hq⟩)
    · exact ⟨x, .refl, hd⟩
    · obtain ⟨y, hrest, hd⟩ := (mem_route (hnext z hs)).mp hq
      exact ⟨y, hrest.head hs, hd⟩

/-- No queue gets a message twice. -/
theorem route_nodup : (top.route m x).Nodup := by
  rw [route]
  split
  · cases top.queue m.key <;> simp
  · exact List.nodup_dedup _

/-- A message goes along the bindings that match it. -/
theorem mem_matched {e : Exchange} {d : Destination} :
    d ∈ ((top.bindingsFrom e.name).filter (·.matches m e.type)).map (·.destination) ↔
      ∃ b ∈ top.bindingsFrom e.name, b.matches m e.type = true ∧ b.destination = d := by
  simp [and_assoc]

/-- Where there is an alternate exchange, it gets what goes along no binding. -/
theorem targets_cases {e : Exchange} {d : Destination} (h : d ∈ top.targets e m) :
    (∃ b ∈ top.bindingsFrom e.name, b.matches m e.type = true ∧ b.destination = d) ∨
      ∃ y, top.alternateExchange e = some y ∧ d = .exchange y := by
  rw [targets] at h
  split at h
  · obtain ⟨y, hy, rfl⟩ := List.mem_map.mp h
    exact Or.inr ⟨y, Option.mem_toList.mp hy, rfl⟩
  · exact Or.inl (mem_matched.mp h)

/-- Without an alternate exchange a message goes along the bindings that match it. -/
theorem mem_targets {e : Exchange} {d : Destination} (h : top.alternateExchange e = none) :
    d ∈ top.targets e m ↔
      ∃ b ∈ top.bindingsFrom e.name, b.matches m e.type = true ∧ b.destination = d := by
  rw [← mem_matched, targets, h]
  split
  · next hnil => rw [hnil]; rfl
  · exact Iff.rfl

theorem drops_iff {e : Exchange} (he : top.exchange x = some e)
    (halt : top.alternateExchange e = none) : top.Drops m x q ↔
      ∃ b ∈ top.bindingsFrom x, b.matches m e.type = true ∧ b.destination = .queue q := by
  have htargets := mem_targets (m := m) (d := .queue q) halt
  rw [exchange_name he] at htargets
  simpa [Drops, he] using htargets

theorem sends_iff {e : Exchange} (he : top.exchange x = some e)
    (halt : top.alternateExchange e = none) : top.Sends m x y ↔
      ∃ b ∈ top.bindingsFrom x, b.matches m e.type = true ∧ b.destination = .exchange y := by
  have htargets := mem_targets (m := m) (d := .exchange y) halt
  rw [exchange_name he] at htargets
  simpa [Sends, he] using htargets

theorem Drops.binding (h : top.Drops m x q) :
    ∃ b ∈ top.bindings, b.source = x ∧ b.destination = .queue q := by
  obtain ⟨e, he, hd⟩ := h
  rcases targets_cases hd with ⟨b, hb, -, hdest⟩ | ⟨y, -, heq⟩
  · obtain ⟨hmem, hsource⟩ := List.mem_filter.mp hb
    exact ⟨b, hmem, (of_decide_eq_true hsource).trans (exchange_name he), hdest⟩
  · cases heq

theorem Sends.binding (h : top.Sends m x y) :
    (∃ b ∈ top.bindings, b.source = x ∧ b.destination = .exchange y) ∨
      ∃ e ∈ top.exchanges, e.name = x ∧ top.alternateExchange e = some y := by
  obtain ⟨e, he, hd⟩ := h
  rcases targets_cases hd with ⟨b, hb, -, hdest⟩ | ⟨z, halt, heq⟩
  · obtain ⟨hmem, hsource⟩ := List.mem_filter.mp hb
    exact Or.inl ⟨b, hmem, (of_decide_eq_true hsource).trans (exchange_name he), hdest⟩
  · cases heq
    exact Or.inr ⟨e, List.mem_of_find?_eq_some he, exchange_name he, halt⟩

/-- One of the exchanges `S` or of the queues `Q`. -/
def Inside (S Q : String → Prop) : Destination → Prop
  | .queue q => Q q
  | .exchange y => S y

instance {S Q : String → Prop} [DecidablePred S] [DecidablePred Q] (d : Destination) :
    Decidable (Inside S Q d) := by
  rcases d <;> (dsimp only [Inside]; infer_instance)

/-- The queues are fed by these exchanges, and these only by one another. -/
structure Gate (top : Topology) (S Q : String → Prop) : Prop where
  bindings : ∀ b ∈ top.bindings, Inside S Q b.destination → S b.source
  alternates : ∀ e ∈ top.exchanges, ∀ y ∈ top.alternateExchange e, S y → S e.name

/-- RULE (gate): what gets into the queues was published to one of the exchanges that feed them. -/
theorem Gate.route {S Q : String → Prop} (h : top.Gate S Q) (hx : x ≠ "")
    (hq : q ∈ top.route m x) (hQ : Q q) : S x := by
  obtain ⟨y, hreach, hd⟩ := (mem_route hx).mp hq
  clear hq hx
  induction hreach using Relation.ReflTransGen.head_induction_on with
  | refl =>
    obtain ⟨b, hb, hsource, hdest⟩ := hd.binding
    have hfed := h.bindings b hb
    rw [hdest] at hfed
    exact hsource ▸ hfed hQ
  | head hs _ ih =>
    rcases hs.binding with ⟨b, hb, hsource, hdest⟩ | ⟨e, he, hname, halt⟩
    · have hfed := h.bindings b hb
      rw [hdest] at hfed
      exact hsource ▸ hfed ih
    · exact hname ▸ h.alternates e he _ halt ih

end Topology

end RabbitmqCluster.Schemes
