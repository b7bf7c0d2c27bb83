import RabbitmqCluster.Schemes.Shovel
import Mathlib.Algebra.BigOperators.Group.List.Basic
import Mathlib.Algebra.GroupWithZero.Nat

/-! @scheme federation | family:conservation

    Federated brokers. The policy in force names the upstream of an exchange or a queue. A message
    published upstream is routed there, and every exchange of that name that is federated with it
    and has a matching binding gets a copy carried over. A federated queue moves a message from the
    queue of that name upstream when it has a consumer and no message of its own waiting. So links
    of exchanges copy and links of queues move. A message has as many copies as it was routed to
    queues, upstream and by the links of exchanges together; each of them is on its way, waiting, or
    was handed to one consumer (`balance`).

        publish ─┬─ routed ────────────▶ queue ─ pull ─▶ moving ─ land ─▶ queue downstream
                 └─ carried ─ relay ──────────────────────────────────────▲ -/

namespace RabbitmqCluster.Schemes

/-- Brokers, what is declared there, and the broker that an upstream of a name stands for. -/
structure Federation (B : Type*) where
  brokers : List B
  top : B → Topology
  upstream : B → String → Option B

/-- A message at an exchange. -/
structure Posted (B : Type*) where
  broker : B
  exchange : String
  msg : Message
  deriving DecidableEq

/-- Was the copy routed where the message was published, or did a link of exchanges bring it? -/
inductive Origin where | routed | relayed
  deriving DecidableEq

/-- A message in a queue, perhaps held by a consumer. -/
structure FedCopy (B : Type*) where
  msg : Message
  place : Place B
  origin : Origin
  held : Bool := false
  deriving DecidableEq

inductive FedAct (B : Type*) where
  | publish (p : Posted B)
  | relay (p : Posted B)
  | subscribe (q : Place B)
  | cancel (q : Place B)
  | pull (c : FedCopy B) (d : B)
  | land (c : FedCopy B)
  | deliver (c : FedCopy B)
  | ack (c : FedCopy B)

/-- What the links of exchanges and of queues carry, the copies in the queues, and the queues with a
    consumer; `published` and `handed` record what was published and what a consumer was handed. -/
structure FedState (B : Type*) where
  relays : List (Posted B)
  moving : List (FedCopy B)
  copies : List (FedCopy B)
  consumers : List (Place B)
  published : List (Posted B)
  handed : List (FedCopy B)

variable {B : Type*}

def FedCopy.is (k : ℕ) (o : Origin) (c : FedCopy B) : Bool := c.msg.id = k && c.origin = o

def FedCopy.waits (k : ℕ) (o : Origin) (c : FedCopy B) : Bool := !c.held && c.is k o

@[simp] theorem FedCopy.is_moved (k : ℕ) (o : Origin) (c : FedCopy B) (q : Place B) :
    FedCopy.is k o { c with place := q } = FedCopy.is k o c := rfl

@[simp] theorem FedCopy.waits_handed (k : ℕ) (o : Origin) (c : FedCopy B) :
    FedCopy.waits k o { c with held := true } = false := rfl

@[simp] theorem FedCopy.waits_landed (k : ℕ) (o : Origin) (c : FedCopy B) :
    FedCopy.waits k o { c with held := false } = FedCopy.is k o c := rfl

theorem FedCopy.waits_held {c : FedCopy B} (h : c.held = true) (k : ℕ) (o : Origin) :
    c.waits k o = false := by
  rw [FedCopy.waits, h]; rfl

theorem FedCopy.waits_open {c : FedCopy B} (h : c.held = false) (k : ℕ) (o : Origin) :
    c.waits k o = c.is k o := by
  rw [FedCopy.waits, h]; rfl

namespace Federation

variable (F : Federation B)

def routed (p : Posted B) : List (Place B) :=
  ((F.top p.broker).route p.msg p.exchange).map fun q => ⟨p.broker, q⟩

/-- The upstream that the policy in force names for the object. -/
def upstreamOf (kind : ApplyTo) (d : B) (name : String) : Option B :=
  (((F.top d).policy kind name).bind (·.definition.lookup "federation-upstream")).bind fun v =>
    v.text.bind (F.upstream d)

/-- The exchange of the broker has a binding that matches the message. -/
def wants (d : B) (x : String) (m : Message) : Bool :=
  match (F.top d).exchange x with
  | some e => ((F.top d).bindingsFrom x).any (·.matches m e.type)
  | none => false

/-- The copies of the posted message that a routing makes. -/
def enqueue (o : Origin) (p : Posted B) : List (FedCopy B) :=
  (F.routed p).map fun q => { msg := p.msg, place := q, origin := o }

variable [DecidableEq B]

/-- What the links of exchanges carry over: one copy to each federated exchange that wants it. What
    a link has brought goes no further. -/
def carried (p : Posted B) : List (Posted B) :=
  (F.brokers.filter fun d =>
    F.upstreamOf .exchanges d p.exchange = some p.broker && F.wants d p.exchange p.msg).map
      fun d => { p with broker := d }

/-- The link of the queue on `d` may take the copy. -/
def canPull (s : FedState B) (c : FedCopy B) (d : B) : Bool :=
  ((F.top d).queue c.place.queue).isSome &&
    F.upstreamOf .queues d c.place.queue = some c.place.broker &&
    ⟨d, c.place.queue⟩ ∈ s.consumers &&
    s.copies.all fun e => e.held || e.place ≠ ⟨d, c.place.queue⟩

def enabled (s : FedState B) : FedAct B → Bool
  | .publish p => s.published.all (·.msg.id ≠ p.msg.id)
  | .relay p => p ∈ s.relays
  | .subscribe q => q ∉ s.consumers
  | .cancel q => q ∈ s.consumers
  | .pull c d => c ∈ s.copies && !c.held && F.canPull s c d
  | .land c => c ∈ s.moving
  | .deliver c => c ∈ s.copies && !c.held && c.place ∈ s.consumers
  | .ack c => c ∈ s.copies && c.held

def next (s : FedState B) : FedAct B → FedState B
  | .publish p =>
    { s with
      relays := s.relays ++ F.carried p
      copies := s.copies ++ F.enqueue .routed p
      published := s.published ++ [p] }
  | .relay p =>
    { s with relays := s.relays.erase p, copies := s.copies ++ F.enqueue .relayed p }
  | .subscribe q => { s with consumers := q :: s.consumers }
  | .cancel q => { s with consumers := s.consumers.filter (· ≠ q) }
  | .pull c d =>
    { s with
      moving := s.moving ++ [{ c with place := ⟨d, c.place.queue⟩ }]
      copies := s.copies.erase c }
  | .land c =>
    { s with moving := s.moving.erase c, copies := s.copies ++ [{ c with held := false }] }
  | .deliver c =>
    { s with copies := s.copies.erase c ++ [{ c with held := true }], handed := s.handed ++ [c] }
  | .ack c => { s with copies := s.copies.erase c }

end Federation

/-- The federated brokers with nothing published and nobody subscribed. -/
def federated (F : Federation B) [DecidableEq B] : Machine (FedState B) (FedAct B) where
  init := ⟨[], [], [], [], [], []⟩
  enabled := F.enabled
  next := F.next

namespace Federation

variable [DecidableEq B] (F : Federation B)

/-! ### Conservation -/

/-- The copies of origin `o` that the publish is good for. -/
def share (p : Posted B) : Origin → ℕ
  | .routed => (F.routed p).length
  | .relayed => ((F.carried p).map fun r => (F.routed r).length).sum

/-- The copies that a link of exchanges will bring. -/
def expected (k : ℕ) (o : Origin) (p : Posted B) : ℕ :=
  if p.msg.id = k ∧ o = .relayed then (F.routed p).length else 0

/-- The copies of a message that are on their way, waiting, or handed out. -/
def tokens (s : FedState B) (k : ℕ) (o : Origin) : ℕ :=
  (s.relays.map (F.expected k o)).sum + s.moving.countP (FedCopy.is k o) +
    s.copies.countP (FedCopy.waits k o) + s.handed.countP (FedCopy.is k o)

/-- Each message has the copies it is good for, and an id not yet published has none. -/
structure Balanced (s : FedState B) : Prop where
  shares : ∀ p ∈ s.published, ∀ o, F.tokens s p.msg.id o = F.share p o
  fresh : ∀ k, (∀ p ∈ s.published, p.msg.id ≠ k) → ∀ o, F.tokens s k o = 0

variable {F} {s : FedState B} {C : FedState B → FedAct B → Prop}

theorem countP_erase_add {α : Type*} [DecidableEq α] {l : List α} {a : α} (ha : a ∈ l)
    (f : α → Bool) : (l.erase a).countP f + (f a).toNat = l.countP f := by
  rw [(List.perm_cons_erase ha).countP_eq f, List.countP_cons]
  cases f a <;> rfl

theorem countP_snoc {α : Type*} (l : List α) (a : α) (f : α → Bool) :
    (l ++ [a]).countP f = l.countP f + (f a).toNat := by
  rw [List.countP_append, List.countP_singleton]
  cases f a <;> rfl

omit [DecidableEq B] in
theorem enqueue_waits (p : Posted B) (o o' : Origin) (k : ℕ) :
    (F.enqueue o' p).countP (FedCopy.waits k o) =
      if p.msg.id = k ∧ o' = o then (F.routed p).length else 0 := by
  rw [enqueue, List.countP_map]
  split
  · next h => exact List.countP_eq_length.mpr fun q _ => by simp [FedCopy.waits, FedCopy.is, h]
  · next h =>
    refine List.countP_eq_zero.mpr fun q _ => ?_
    simpa [FedCopy.waits, FedCopy.is] using h

theorem carried_expected (p : Posted B) (o : Origin) (k : ℕ) :
    ((F.carried p).map (F.expected k o)).sum =
      if p.msg.id = k ∧ o = .relayed then F.share p .relayed else 0 := by
  have hmsg : ∀ r ∈ F.carried p, r.msg = p.msg := by
    intro r hr
    obtain ⟨d, -, rfl⟩ := List.mem_map.mp hr
    rfl
  split
  · next h =>
    refine congrArg List.sum (List.map_congr_left fun r hr => ?_)
    rw [expected, hmsg r hr, if_pos h]
  · next h =>
    refine List.sum_eq_zero fun n hn => ?_
    obtain ⟨r, hr, rfl⟩ := List.mem_map.mp hn
    rw [expected, hmsg r hr, if_neg h]

/-- A publish brings its share, and no other step makes or drops a copy. -/
theorem tokens_publish (p : Posted B) (k : ℕ) (o : Origin) :
    F.tokens (F.next s (.publish p)) k o =
      F.tokens s k o + if p.msg.id = k then F.share p o else 0 := by
  simp only [tokens, next, List.map_append, List.sum_append, List.countP_append, carried_expected,
    enqueue_waits]
  cases o with
  | routed =>
    by_cases hid : p.msg.id = k
    · simp [hid, share]; omega
    · simp [hid]
  | relayed =>
    by_cases hid : p.msg.id = k
    · simp [hid]; omega
    · simp [hid]

theorem tokens_step (a : FedAct B) (hp : ∀ p, a ≠ .publish p) (he : F.enabled s a = true) (k : ℕ)
    (o : Origin) : F.tokens (F.next s a) k o = F.tokens s k o := by
  cases a with
  | publish p => exact absurd rfl (hp p)
  | relay p =>
    have hmem : p ∈ s.relays := of_decide_eq_true he
    have hsum := List.sum_map_erase (F.expected k o) hmem
    have hwait : (F.enqueue .relayed p).countP (FedCopy.waits k o) = F.expected k o p := by
      rw [enqueue_waits, expected]
      simp only [eq_comm (a := Origin.relayed)]
    simp only [tokens, next, List.countP_append, hwait]
    omega
  | subscribe q => rfl
  | cancel q => rfl
  | pull c d =>
    simp only [enabled, Bool.and_eq_true, decide_eq_true_eq, Bool.not_eq_true'] at he
    have hcount := countP_erase_add he.1.1 (FedCopy.waits k o)
    rw [FedCopy.waits_open he.1.2] at hcount
    simp only [tokens, next, countP_snoc, FedCopy.is_moved]
    omega
  | land c =>
    have hcount := countP_erase_add (of_decide_eq_true he : c ∈ s.moving) (FedCopy.is k o)
    simp only [tokens, next, countP_snoc, FedCopy.waits_landed]
    omega
  | deliver c =>
    simp only [enabled, Bool.and_eq_true, decide_eq_true_eq, Bool.not_eq_true'] at he
    have hcount := countP_erase_add he.1.1 (FedCopy.waits k o)
    rw [FedCopy.waits_open he.1.2] at hcount
    simp only [tokens, next, countP_snoc, FedCopy.waits_handed, Bool.toNat_false]
    omega
  | ack c =>
    simp only [enabled, Bool.and_eq_true, decide_eq_true_eq] at he
    have hcount := countP_erase_add he.1 (FedCopy.waits k o)
    rw [FedCopy.waits_held he.2, Bool.toNat_false] at hcount
    simp only [tokens, next]
    omega

theorem balanced_step (a : FedAct B) (h : Balanced F s) (he : F.enabled s a = true) :
    Balanced F (F.next s a) := by
  by_cases hpub : ∃ p, a = .publish p
  · obtain ⟨p, rfl⟩ := hpub
    have hfresh : ∀ q ∈ s.published, q.msg.id ≠ p.msg.id := by
      simpa [enabled, List.all_eq_true] using he
    refine ⟨fun q hq o => ?_, fun k hk o => ?_⟩
    · rw [tokens_publish]
      rcases List.mem_append.mp hq with hold | hnew
      · rw [if_neg (hfresh q hold).symm, h.shares q hold o, Nat.add_zero]
      · rw [List.mem_singleton.mp hnew, if_pos rfl, h.fresh p.msg.id hfresh o, Nat.zero_add]
    · have hp := hk p (List.mem_append_right _ (List.mem_singleton_self p))
      rw [tokens_publish, if_neg hp, Nat.add_zero]
      exact h.fresh k (fun q hq => hk q (List.mem_append_left _ hq)) o
  · have hp : ∀ p, a ≠ .publish p := fun p heq => hpub ⟨p, heq⟩
    have hsame : (F.next s a).published = s.published := by
      cases a with
      | publish p => exact absurd rfl (hp p)
      | _ => rfl
    refine ⟨fun q hq o => ?_, fun k hk o => ?_⟩
    · rw [tokens_step a hp he]
      exact h.shares q (hsame ▸ hq) o
    · rw [tokens_step a hp he]
      exact h.fresh k (fun q hq => hk q (hsame.symm ▸ hq)) o

/-- RULE (conservation): in every run each message has as many copies as it was good for. -/
theorem balance : ∀ s, (federated F).Reach C s → Balanced F s := by
  refine Machine.inv ⟨nofun, fun _ _ _ => rfl⟩ ?_
  exact fun s a h he _ => balanced_step a h he

/-- So it is handed to no more consumers than that. -/
theorem handed_le (h : (federated F).Reach C s) {p : Posted B} (hp : p ∈ s.published)
    (o : Origin) : s.handed.countP (FedCopy.is p.msg.id o) ≤ F.share p o := by
  rw [← (balance s h).shares p hp o]
  exact Nat.le_add_left _ _

omit [DecidableEq B] in
/-- The copies of a message are of the one origin or of the other. -/
theorem countP_origins (l : List (FedCopy B)) (k : ℕ) :
    l.countP (·.msg.id = k) =
      l.countP (FedCopy.is k .routed) + l.countP (FedCopy.is k .relayed) := by
  induction l with
  | nil => rfl
  | cons c l ih =>
    rw [List.countP_cons, List.countP_cons, List.countP_cons, ih]
    by_cases hid : c.msg.id = k
    · cases ho : c.origin
      · simp [FedCopy.is, hid, ho]; omega
      · simp [FedCopy.is, hid, ho]; omega
    · simp [FedCopy.is, hid]

/-! ### Where the copies are -/

/-- `R` holds of what the links of exchanges carry, `M` of what the links of queues carry, and `I`
    of the copies that a routing makes or a link of queues has brought. -/
structure Placing (F : Federation B) (C : FedState B → FedAct B → Prop) (R : Posted B → Prop)
    (M I : FedCopy B → Prop) : Prop where
  publish : ∀ s p, C s (.publish p) → (∀ r ∈ F.carried p, R r) ∧ ∀ c ∈ F.enqueue .routed p, I c
  relay : ∀ r, R r → ∀ c ∈ F.enqueue .relayed r, I c
  pull : ∀ c d, I c → F.upstreamOf .queues d c.place.queue = some c.place.broker →
    M { c with place := ⟨d, c.place.queue⟩ }
  land : ∀ c, M c → I { c with held := false }
  deliver : ∀ c, I c → I { c with held := true }

/-- `R`, `M` and `I` of all that there is. -/
structure Placed (R : Posted B → Prop) (M I : FedCopy B → Prop) (s : FedState B) : Prop where
  relays : ∀ r ∈ s.relays, R r
  moving : ∀ c ∈ s.moving, M c
  copies : ∀ c ∈ s.copies, I c
  handed : ∀ c ∈ s.handed, I c

variable {R : Posted B → Prop} {M I : FedCopy B → Prop}

theorem placed_step (hP : Placing F C R M I) (a : FedAct B) (h : Placed R M I s)
    (he : F.enabled s a = true) (hc : C s a) : Placed R M I (F.next s a) := by
  have herase : ∀ c, ∀ e ∈ s.copies.erase c, I e := fun c e he =>
    h.copies e (List.mem_of_mem_erase he)
  cases a with
  | publish p =>
    obtain ⟨hR, hI⟩ := hP.publish s p hc
    exact ⟨List.forall_mem_append.mpr ⟨h.relays, hR⟩, h.moving,
      List.forall_mem_append.mpr ⟨h.copies, hI⟩, h.handed⟩
  | relay r =>
    have hI := hP.relay r (h.relays r (of_decide_eq_true he))
    exact ⟨fun e he => h.relays e (List.mem_of_mem_erase he), h.moving,
      List.forall_mem_append.mpr ⟨h.copies, hI⟩, h.handed⟩
  | subscribe q => exact ⟨h.relays, h.moving, h.copies, h.handed⟩
  | cancel q => exact ⟨h.relays, h.moving, h.copies, h.handed⟩
  | pull c d =>
    simp only [enabled, canPull, Bool.and_eq_true, decide_eq_true_eq] at he
    have hM := hP.pull c d (h.copies c he.1.1) he.2.1.1.2
    exact ⟨h.relays, List.forall_mem_append.mpr ⟨h.moving, List.forall_mem_singleton.mpr hM⟩,
      herase c, h.handed⟩
  | land c =>
    have hI := hP.land c (h.moving c (of_decide_eq_true he))
    exact ⟨h.relays, fun e he => h.moving e (List.mem_of_mem_erase he),
      List.forall_mem_append.mpr ⟨h.copies, List.forall_mem_singleton.mpr hI⟩, h.handed⟩
  | deliver c =>
    simp only [enabled, Bool.and_eq_true, decide_eq_true_eq] at he
    have hI := h.copies c he.1.1
    refine ⟨h.relays, h.moving, List.forall_mem_append.mpr ⟨herase c, ?_⟩,
      List.forall_mem_append.mpr ⟨h.handed, List.forall_mem_singleton.mpr hI⟩⟩
    exact List.forall_mem_singleton.mpr (hP.deliver c hI)
  | ack c => exact ⟨h.relays, h.moving, herase c, h.handed⟩

/-- RULE (places): what a placing says of the routings, every run keeps. -/
theorem placed (hP : Placing F C R M I) : ∀ s, (federated F).Reach C s → Placed R M I s := by
  refine Machine.inv ⟨nofun, nofun, nofun, nofun⟩ ?_
  exact fun s a h he hc => placed_step hP a h he hc

end Federation

end RabbitmqCluster.Schemes
