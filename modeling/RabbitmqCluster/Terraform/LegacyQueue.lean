import RabbitmqCluster.Schemes.Copies
import RabbitmqCluster.Schemes.Relay
import RabbitmqCluster.Terraform.Rabbitmq3

/-! @src var/terraform/rabbitmq1 legacy-queue.tf | scheme:relay | family:migration

    The migration from `legacy_queue` to `new_queue`: a shovel carries the messages over, the
    consumer moves first and the publisher afterwards. But `legacy_queue` is auto-delete, and once
    the consumer has moved the shovel is its only consumer: when the link drops, the queue goes away
    with everything in it (`migration_loses`). The migration keeps its messages exactly in the runs
    in which the queue loses its last consumer only while its content is elsewhere as well, and
    nothing is published to it while it is missing (`migration_kept_iff`).

        publisher ─▶ legacy_queue ─ queueShovel ─▶ new_queue
            2 └╌╌╌╌╌╌╌╌╌╌│╌╌╌╌╌╌╌╌╌╌╌╌╌╌╌╌╌╌╌╌╌╌╌╌▶ ▲│
                     consumer ╌╌╌╌╌╌╌╌ 1 ╌╌╌╌╌╌╌╌╌╌╌▶┘ -/

namespace RabbitmqCluster.Terraform

open RabbitmqCluster.Schemes Broker Network

/-! ### legacy-queue.tf -/

/-- `auto_delete` in the settings of `legacy`. -/
def legacyAutoDelete : Bool := true

/-- `auto_delete` in the settings of `new`. -/
def newAutoDelete : Bool := false

def legacyPlace : Place Instance := ⟨.rabbitmq1, legacy.name⟩

def newPlace : Place Instance := ⟨.rabbitmq1, new.name⟩

/-- The shovel resources. -/
inductive ShovelResource where | queueShovel
  deriving DecidableEq

/-- A `destination_queue` is the nameless exchange and that key. -/
def ShovelResource.config : ShovelResource → Shovel Instance
  | .queueShovel =>
    { source := legacyPlace, broker := .rabbitmq1, exchange := "", key := some new.name }

/-- The instances with the shovel, and the consumer still on `legacy_queue`; the queues other than
    the two take no part. -/
def migration (redeclares : Bool) : Network Instance ShovelResource where
  top := Instance.topology
  shovel := ShovelResource.config
  life q :=
    if q = legacyPlace then .declared legacyAutoDelete
    else if q = newPlace then .declared newAutoDelete
    else .lasting
  subscribed := [legacyPlace]
  redeclares := redeclares

/-- The consumer has left `legacy_queue` and is on `new_queue`. -/
def ConsumerMoved (s : ShovelState Instance ShovelResource) : Prop :=
  legacyPlace ∉ s.subscribed ∧ newPlace ∈ s.subscribed

/-- The documented order: the consumer moves from the one queue to the other, and the publisher
    switches for good after that. -/
def InOrder (s : ShovelState Instance ShovelResource) :
    ShovelAct Instance ShovelResource → Prop
  | .publish b x m => b = .rabbitmq1 ∧ x = "" ∧
    (m.key = legacy.name ∧ (∀ n ∈ s.published, n.key = legacy.name) ∨
      m.key = new.name ∧ ConsumerMoved s)
  | .subscribe q => q = newPlace
  | .cancel q => q = legacyPlace
  | _ => True

instance (s : ShovelState Instance ShovelResource) (a : ShovelAct Instance ShovelResource) :
    Decidable (InOrder s a) := by
  rcases a <;> (dsimp only [InOrder, ConsumerMoved]; infer_instance)

/-- Of every published message a copy is in one of the two queues, if it was not consumed. -/
def MigrationKept (s : ShovelState Instance ShovelResource) : Prop :=
  ∀ m ∈ s.published, m.id ∈ s.consumed ∨
    ∃ i ∈ s.items, i.msg.id = m.id ∧ (i.place = legacyPlace ∨ i.place = newPlace)

/-- Nothing is published to a queue that is missing, and `legacy_queue` loses its last consumer only
    while everything in it was consumed as well or is in `new_queue`. -/
def ContentSafe (redeclares : Bool) (s : ShovelState Instance ShovelResource)
    (a : ShovelAct Instance ShovelResource) : Prop :=
  (migration redeclares).Safe s a

instance (redeclares : Bool) (s : ShovelState Instance ShovelResource)
    (a : ShovelAct Instance ShovelResource) : Decidable (ContentSafe redeclares s a) :=
  inferInstanceAs (Decidable ((migration redeclares).Safe s a))

/-! ### The link drops -/

/-- Message 1 as the publisher sends it before it switches. -/
def toLegacy : Message := { id := 1, key := "legacy_queue" }

/-- The consumer has moved when the link drops, and message 1 still waits in `legacy_queue`. -/
def linkDrops : List (ShovelAct Instance ShovelResource) :=
  [.connect .queueShovel, .publish .rabbitmq1 "" toLegacy, .cancel legacyPlace,
    .subscribe newPlace, .drop .queueShovel]

theorem migration_loses :
    ¬ ∀ redeclares s, (shovels (migration redeclares)).Reach InOrder s → MigrationKept s := by
  intro hall
  obtain ⟨s, hs, hpub, hcon, hnone⟩ := Machine.reach_of_run (m := shovels (migration true))
    (C := InOrder) (P := fun s => s.published = [toLegacy] ∧ s.consumed = [] ∧ s.items = [])
    linkDrops (by decide +kernel)
  have hmem : toLegacy ∈ s.published := by rw [hpub]; exact List.mem_singleton_self _
  rcases hall true s hs toLegacy hmem with hc | ⟨i, hi, -⟩
  · rw [hcon] at hc
    exact absurd hc List.not_mem_nil
  · rw [hnone] at hi
    exact absurd hi List.not_mem_nil

/-! ### The way up -/

/-- What the publisher may send, before and after it switches. -/
def ToEither (b : Instance) (x : String) (m : Message) : Prop :=
  b = .rabbitmq1 ∧ x = "" ∧ (m.key = legacy.name ∨ m.key = new.name)

/-- The queues of the migration. -/
def InEither (q : Place Instance) (_ : Message) : Prop := q = legacyPlace ∨ q = newPlace

def newRank (q : Place Instance) : ℕ := if q = newPlace then 1 else 0

variable {redeclares : Bool}

theorem routed_key {m : Message} {q : Queue} (hq : rabbitmq1.queue m.key = some q) :
    (migration redeclares).routed .rabbitmq1 "" m = [⟨.rabbitmq1, q.name⟩] :=
  congrArg (List.map _) (route_nameless rabbitmq1 hq)

theorem queue_legacy : rabbitmq1.queue legacy.name = some legacy := by decide

theorem queue_new : rabbitmq1.queue new.name = some new := by decide

theorem migration_forwards (l : ShovelResource) (m : Message) :
    (migration redeclares).forwarded l m = [newPlace] := by
  cases l
  exact routed_key queue_new

theorem migration_ascending : Ascending (migration redeclares) ToEither InEither newRank where
  enter b x m h q hq := by
    obtain ⟨rfl, rfl, hkey | hkey⟩ := h
    · rw [routed_key (hkey ▸ queue_legacy), List.mem_singleton] at hq
      exact Or.inl hq
    · rw [routed_key (hkey ▸ queue_new), List.mem_singleton] at hq
      exact Or.inr hq
  routable l m _ := by
    rw [migration_forwards]
    exact List.cons_ne_nil _ _
  hop l m _ q hq := by
    rw [migration_forwards, List.mem_singleton] at hq
    subst hq
    cases l
    exact ⟨Or.inr rfl, show newRank legacyPlace < newRank newPlace by decide⟩
  lasting q hq := by
    unfold newRank at hq
    split at hq
    · next hnew => rw [hnew]; rfl
    · exact absurd hq (Nat.lt_irrefl 0)

theorem inOrder_enters (s : ShovelState Instance ShovelResource)
    (a : ShovelAct Instance ShovelResource) (h : InOrder s a) : EntersBy ToEither a := by
  cases a with
  | publish b x m => exact ⟨h.1, h.2.1, h.2.2.imp And.left And.left⟩
  | _ => trivial

/-- The items are in the two queues, so to be somewhere is to be in one of them. -/
theorem migrationKept_iff {s : ShovelState Instance ShovelResource}
    (h : Carried (migration redeclares) InEither newRank s) : MigrationKept s ↔ Kept s := by
  refine forall₂_congr fun m _ => or_congr Iff.rfl ⟨?_, ?_⟩
  · rintro ⟨i, hi, hid, -⟩
    exact ⟨i, hi, hid, trivial⟩
  · rintro ⟨i, hi, hid, -⟩
    exact ⟨i, hi, hid, h.fits i hi⟩

/-! ### Kept -/

/-- CORRECT: in the documented order, whatever the consumer, the publisher and the link do, the
    migration keeps its messages if and only if `legacy_queue` loses no content with its last
    consumer and gets no message while it is missing. -/
theorem migration_kept_iff (redeclares : Bool) (as : List (ShovelAct Instance ShovelResource))
    (s : ShovelState Instance ShovelResource)
    (h : (shovels (migration redeclares)).run (shovels (migration redeclares)).init as = some s)
    (hd : (shovels (migration redeclares)).Meets InOrder (shovels (migration redeclares)).init as) :
    MigrationKept s ↔ (shovels (migration redeclares)).Meets (ContentSafe redeclares)
      (shovels (migration redeclares)).init as := by
  have hcar : Carried (migration redeclares) InEither newRank s := by
    refine Machine.inv (carried_init migration_ascending) ?_ s (Machine.steps_of_run h hd)
    exact fun t a ht he hin =>
      carried_step migration_ascending a ht he (inOrder_enters t a hin)
  rw [migrationKept_iff hcar]
  exact (kept_exact migration_ascending inOrder_enters).iff as h hd
    (carried_init migration_ascending) nofun

/-- The shovel has moved message 1 when the consumer leaves and the link drops. -/
def movedInTime : List (ShovelAct Instance ShovelResource) :=
  [.connect .queueShovel, .publish .rabbitmq1 "" toLegacy,
    .move (.take .queueShovel) { msg := toLegacy, place := legacyPlace },
    .move (.forward .queueShovel)
      { msg := toLegacy, place := legacyPlace, holder := .shovel .queueShovel .taken },
    .cancel legacyPlace, .subscribe newPlace, .drop .queueShovel]

theorem migration_kept_iff_moved :
    ∃ s, s.items.map (·.place) = [newPlace] ∧ MigrationKept s := by
  obtain ⟨s, hs, hd, hsafe, hq⟩ : ∃ s ∈ (shovels (migration true)).run
      (shovels (migration true)).init movedInTime,
      (shovels (migration true)).Meets InOrder (shovels (migration true)).init movedInTime ∧
      (shovels (migration true)).Meets (ContentSafe true) (shovels (migration true)).init
        movedInTime ∧ s.items.map (·.place) = [newPlace] := by
    decide +kernel
  exact ⟨s, hq, (migration_kept_iff true movedInTime s hs hd).mpr hsafe⟩

end RabbitmqCluster.Terraform
