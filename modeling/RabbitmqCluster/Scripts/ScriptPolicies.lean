import RabbitmqCluster.Schemes.Matching
import RabbitmqCluster.Schemes.Shadowing
import RabbitmqCluster.Scripts.RetryDlx

/-! @src scripts setup_federation.sh setup_retry_dlx_topology.sh setup_policies.sh |
    scheme:shadowing | family:selection

    The policies that three scripts set on rabbitmq1, in any order and as often as one likes. The
    dead-letter policies and `ha-lazy` are ordered by their priorities, but the federation of the
    queues has none, so it is lost wherever any other policy matches: the queue `federated.events`
    of the script itself is no longer federated once `ha-events` is set
    (`federated_events_lost`). The settings are kept exactly outside of these names, and of those
    that both dead-letter policies match (`settings_kept_iff`).

        priority 2:  ha-events   ha-retry-events
        priority 1:  ha-lazy
        priority 0:  federation_rabbitmq3   ha-federation -/

namespace RabbitmqCluster.Scripts

open RabbitmqCluster.Schemes Pattern Topology

/-! ### setup_federation.sh -/

def rabbitmq2FederatedEvents : Exchange := { name := "rabbitmq2.federated.events", type := .topic }

def systemEvents : Queue := { name := "system.events" }

def federatedEvents : Queue := { name := "federated.events" }

def federationRabbitmq2 : Policy :=
  { name := "federation_rabbitmq2"
    pattern := "rabbitmq2.federated.*"
    priority := 0
    applyTo := .exchanges
    definition := [("federation-upstream-set", .str "rabbitmq2")] }

def haFederation : Policy :=
  { name := "ha-federation"
    pattern := "^federation:*"
    priority := 0
    applyTo := .all
    definition := [("ha-mode", .str "all")] }

def federationRabbitmq3 : Policy :=
  { name := "federation_rabbitmq3"
    pattern := "federated.*"
    priority := 0
    applyTo := .queues
    definition := [("federation-upstream-set", .str "rabbitmq3")] }

/-- What the script declares on rabbitmq1; it sets `ha-federation` twice. -/
def federation : Topology where
  exchanges := [rabbitmq2FederatedEvents]
  queues := [systemEvents, federatedEvents]
  bindings := [declareBinding rabbitmq2FederatedEvents systemEvents "system.create.event"]
  policies := [federationRabbitmq2, haFederation, federationRabbitmq3, haFederation]

/-! ### setup_policies.sh -/

def haLazy : Policy :=
  { name := "ha-lazy"
    pattern := "^(?!amq\\.).+"
    priority := 1
    applyTo := .queues
    definition :=
      [("queue-mode", .str "lazy"), ("ha-mode", .str "all"), ("ha-sync-mode", .str "automatic")] }

/-- What the script sets on rabbitmq1. -/
def policies : Topology where
  exchanges := []
  queues := []
  bindings := []
  policies := [haEvents, haLazy]

/-! ### The scripts, one after another -/

inductive Script where | setupFederation | setupRetryDlxTopology | setupPolicies
  deriving DecidableEq

def Script.declares : Script → Topology
  | .setupFederation => federation
  | .setupRetryDlxTopology => retryDlx
  | .setupPolicies => policies

/-- A script declares what is missing, and sets its policies. -/
def Script.run (top : Topology) (s : Script) : Topology where
  exchanges := top.exchanges ++ s.declares.exchanges.filter (· ∉ top.exchanges)
  queues := top.queues ++ s.declares.queues.filter (· ∉ top.queues)
  bindings := top.bindings ++ s.declares.bindings.filter (· ∉ top.bindings)
  policies := s.declares.policies.foldl setPolicy top.policies

/-- rabbitmq1 after the scripts. -/
def rabbitmq1After (scripts : List Script) : Topology := scripts.foldl Script.run ⟨[], [], [], []⟩

/-- The settings that a policy takes from the queue if it shadows the one that gives them. -/
def settings : List String := ["federation-upstream-set", "dead-letter-exchange"]

/-- The queue has what any matching policy gives it of these settings. -/
def SettingsKept (scripts : List Script) (name : String) : Prop :=
  (rabbitmq1After scripts).Kept .queues settings name

theorem federated_events_lost : ¬ ∀ scripts name, SettingsKept scripts name := by
  intro hall
  have hmatch : federationRabbitmq3 ∈ (rabbitmq1After [.setupFederation, .setupPolicies]).matching
      .queues federatedEvents.name := by
    decide +kernel
  have hforce : haEvents ∈ (rabbitmq1After [.setupFederation, .setupPolicies]).candidates .queues
      federatedEvents.name := by
    decide +kernel
  obtain ⟨-, hgives⟩ := hall [.setupFederation, .setupPolicies] federatedEvents.name
    federationRabbitmq3 hmatch "federation-upstream-set" (by decide) (.str "rabbitmq3") (by decide)
  exact absurd (hgives haEvents hforce) (by decide)

/-! ### The policies that are set -/

theorem policies_after (scripts : List Script) : (rabbitmq1After scripts).policies =
    (scripts.flatMap (·.declares.policies)).foldl setPolicy [] := by
  have hrun : ∀ (l : List Script) (top : Topology), (l.foldl Script.run top).policies =
      (l.flatMap (·.declares.policies)).foldl setPolicy top.policies := by
    intro l
    induction l with
    | nil => exact fun _ => rfl
    | cons s l ih =>
      intro top
      rw [List.foldl_cons, ih, List.flatMap_cons, List.foldl_append]
      rfl
  exact hrun scripts _

/-- The scripts agree on the policy of a name. -/
theorem declares_unique (s t : Script) :
    ∀ p ∈ s.declares.policies, ∀ q ∈ t.declares.policies, p.name = q.name → p = q := by
  cases s <;> cases t <;> decide

theorem mem_policies_after {scripts : List Script} {p : Policy} :
    p ∈ (rabbitmq1After scripts).policies ↔ ∃ s ∈ scripts, p ∈ s.declares.policies := by
  rw [policies_after, mem_foldl_setPolicy, List.mem_flatMap]
  · simp
  · intro p hp q hq
    obtain ⟨s, -, hs⟩ := List.mem_flatMap.mp hp
    obtain ⟨t, -, ht⟩ := List.mem_flatMap.mp hq
    exact declares_unique s t p hs q ht

/-- No two of the policies give the same upstream set or dead-letter exchange. -/
theorem settings_unique (s t : Script) : ∀ p ∈ s.declares.policies, ∀ q ∈ t.declares.policies,
    ∀ k ∈ settings, (p.definition.lookup k).isSome = true →
      p.definition.lookup k = q.definition.lookup k → p = q := by
  cases s <;> cases t <;> decide

theorem kept_after {scripts : List Script} {name : String} : SettingsKept scripts name ↔
    ∀ p ∈ (rabbitmq1After scripts).matching .queues name, Sets settings p →
      ∀ q ∈ (rabbitmq1After scripts).matching .queues name, p.priority ≤ q.priority → q = p := by
  refine kept_iff fun p hp q hq => ?_
  obtain ⟨s, -, hs⟩ := mem_policies_after.mp hp
  obtain ⟨t, -, ht⟩ := mem_policies_after.mp hq
  exact settings_unique s t p hs q ht

/-! ### The names that the patterns match -/

/-- `federated.*` -/
def FederatedName (name : String) : Prop := "federated".toList <:+: name.toList

/-- `^federation:*` -/
def FederationName (name : String) : Prop := "federation".toList <+: name.toList

/-- `.\.events` -/
def EventsName (name : String) : Prop := ∃ c, c ≠ '\n' ∧ c :: ".events".toList <:+: name.toList

/-- `dead-events` -/
def DeadEventsName (name : String) : Prop := "dead-events".toList <:+: name.toList

/-- `^(?!amq\.).+` -/
def LazyName (name : String) : Prop :=
  ¬ "amq.".toList <+: name.toList ∧ ∃ c rest, c ≠ '\n' ∧ name.toList = c :: rest

theorem matches_federationRabbitmq3 {name : String} :
    isMatch federationRabbitmq3.pattern name = true ↔ FederatedName name := by
  have hparse : parse federationRabbitmq3.pattern =
      some (sequence (star any :: letters "federated".toList)) := by decide +kernel
  rw [isMatch_iff hparse, search_cons_star]
  exact search_literal

theorem matches_haFederation {name : String} :
    isMatch haFederation.pattern name = true ↔ FederationName name := by
  have hparse : parse haFederation.pattern =
      some (sequence ((star (char ':') :: letters "federation".toList) ++ [bol])) := by
    decide +kernel
  rw [isMatch_iff hparse, search_append_bol, fits_cons_star]
  exact fits_literal

theorem matches_haEvents {name : String} :
    isMatch haEvents.pattern name = true ↔ EventsName name := by
  have hparse : parse haEvents.pattern = some (sequence (letters ".events".toList ++ [any])) := by
    decide +kernel
  have hfits : ∀ s : Place, Fits (sequence (letters ".events".toList ++ [any])) s ↔
      ∃ c, c ≠ '\n' ∧ c :: ".events".toList <+: s.rest := by
    intro s
    rw [fits_letters]
    constructor
    · rintro ⟨u, hu, hpre⟩
      obtain ⟨c, hc, hrest, -⟩ := mem_ends_any.mp hu
      exact ⟨c, hc, hrest ▸ List.cons_prefix_cons.mpr ⟨rfl, hpre⟩⟩
    · rintro ⟨c, hc, rest, hrest⟩
      exact ⟨⟨false, ".events".toList ++ rest⟩, mem_ends_any.mpr ⟨c, hc, hrest.symm, rfl⟩,
        List.prefix_append _ _⟩
  rw [isMatch_iff hparse,
    search_of_rest (fun rest => ∃ c, c ≠ '\n' ∧ c :: ".events".toList <+: rest) hfits, EventsName]
  constructor
  · rintro ⟨rest, ⟨c, hc, hpre⟩, hsuf⟩
    exact ⟨c, hc, List.infix_iff_prefix_suffix.mpr ⟨rest, hpre, hsuf⟩⟩
  · rintro ⟨c, hc, hinfix⟩
    obtain ⟨rest, hpre, hsuf⟩ := List.infix_iff_prefix_suffix.mp hinfix
    exact ⟨rest, ⟨c, hc, hpre⟩, hsuf⟩

theorem matches_haRetryEvents {name : String} :
    isMatch haRetryEvents.pattern name = true ↔ DeadEventsName name :=
  isMatch_literal (by decide +kernel)

theorem matches_haLazy {name : String} :
    isMatch haLazy.pattern name = true ↔ LazyName name := by
  have hparse : parse haLazy.pattern =
      some (sequence ([seq any (star any), notAhead (literal "amq.".toList)] ++ [bol])) := by
    decide +kernel
  rw [isMatch_iff hparse, search_append_bol, fits_cons, LazyName]
  constructor
  · rintro ⟨u, hu, hfit⟩
    obtain ⟨v, hv, hahead⟩ := mem_ends_cons.mp hu
    obtain rfl : v = ⟨true, name.toList⟩ := List.mem_singleton.mp hv
    obtain ⟨hno, rfl⟩ := mem_ends_notAhead.mp hahead
    obtain ⟨c, rest, hc, hrest⟩ := fits_any.mp (fits_seq_star.mp hfit)
    exact ⟨fun h => hno (fits_literal.mpr h), c, rest, hc, hrest⟩
  · rintro ⟨hno, c, rest, hc, hrest⟩
    refine ⟨⟨true, name.toList⟩, mem_ends_cons.mpr ⟨_, List.mem_singleton_self _, ?_⟩, ?_⟩
    · exact mem_ends_notAhead.mpr ⟨fun h => hno (fits_literal.mp h), rfl⟩
    · exact fits_seq_star.mpr (fits_any.mpr ⟨c, rest, hc, hrest⟩)

/-! ### The law -/

/-- A policy with a setting loses it: the federation of the queues to any other policy that
    matches, and one dead-letter policy to the other. -/
def Loses (scripts : List Script) (name : String) : Prop :=
  (.setupFederation ∈ scripts ∧ FederatedName name ∧
      (FederationName name ∨
        ((.setupRetryDlxTopology ∈ scripts ∨ .setupPolicies ∈ scripts) ∧ EventsName name) ∨
        (.setupRetryDlxTopology ∈ scripts ∧ DeadEventsName name) ∨
        (.setupPolicies ∈ scripts ∧ LazyName name))) ∨
    (.setupRetryDlxTopology ∈ scripts ∧ DeadEventsName name ∧ EventsName name)

/-- The policies that match a queue, each with the scripts that set it. -/
inductive Matched (scripts : List Script) (name : String) : Policy → Prop
  | federated (hs : .setupFederation ∈ scripts) (hm : FederatedName name) :
      Matched scripts name federationRabbitmq3
  | federation (hs : .setupFederation ∈ scripts) (hm : FederationName name) :
      Matched scripts name haFederation
  | events (hs : .setupRetryDlxTopology ∈ scripts ∨ .setupPolicies ∈ scripts)
      (hm : EventsName name) : Matched scripts name haEvents
  | deadEvents (hs : .setupRetryDlxTopology ∈ scripts) (hm : DeadEventsName name) :
      Matched scripts name haRetryEvents
  | lazy (hs : .setupPolicies ∈ scripts) (hm : LazyName name) : Matched scripts name haLazy

theorem mem_matching_after {scripts : List Script} {name : String} {p : Policy} :
    p ∈ (rabbitmq1After scripts).matching .queues name ↔ Matched scripts name p := by
  rw [mem_matching, mem_policies_after]
  constructor
  · rintro ⟨⟨s, hs, hp⟩, happ, hm⟩
    cases s with
    | setupFederation =>
      have hcases : p = federationRabbitmq2 ∨ p = haFederation ∨ p = federationRabbitmq3 ∨
          p = haFederation := by simpa [Script.declares, federation] using hp
      rcases hcases with rfl | rfl | rfl | rfl
      · exact absurd happ (by decide)
      · exact .federation hs (matches_haFederation.mp hm)
      · exact .federated hs (matches_federationRabbitmq3.mp hm)
      · exact .federation hs (matches_haFederation.mp hm)
    | setupRetryDlxTopology =>
      have hcases : p = haEvents ∨ p = haRetryEvents := by
        simpa [Script.declares, retryDlx] using hp
      rcases hcases with rfl | rfl
      · exact .events (Or.inl hs) (matches_haEvents.mp hm)
      · exact .deadEvents hs (matches_haRetryEvents.mp hm)
    | setupPolicies =>
      have hcases : p = haEvents ∨ p = haLazy := by
        simpa [Script.declares, policies] using hp
      rcases hcases with rfl | rfl
      · exact .events (Or.inr hs) (matches_haEvents.mp hm)
      · exact .lazy hs (matches_haLazy.mp hm)
  · intro h
    cases h with
    | federated hs hm =>
      exact ⟨⟨_, hs, by decide⟩, by decide, matches_federationRabbitmq3.mpr hm⟩
    | federation hs hm => exact ⟨⟨_, hs, by decide⟩, by decide, matches_haFederation.mpr hm⟩
    | events hs hm =>
      rcases hs with hs | hs
      · exact ⟨⟨_, hs, by decide⟩, by decide, matches_haEvents.mpr hm⟩
      · exact ⟨⟨_, hs, by decide⟩, by decide, matches_haEvents.mpr hm⟩
    | deadEvents hs hm => exact ⟨⟨_, hs, by decide⟩, by decide, matches_haRetryEvents.mpr hm⟩
    | lazy hs hm => exact ⟨⟨_, hs, by decide⟩, by decide, matches_haLazy.mpr hm⟩

/-- Nothing is below the federation of the queues, so it is kept where it matches alone. -/
theorem federation_kept_iff {scripts : List Script} {name : String}
    (hf : .setupFederation ∈ scripts ∧ FederatedName name) :
    (∀ q, Matched scripts name q →
        federationRabbitmq3.priority ≤ q.priority → q = federationRabbitmq3) ↔
      ¬ (FederationName name ∨
        ((.setupRetryDlxTopology ∈ scripts ∨ .setupPolicies ∈ scripts) ∧ EventsName name) ∨
        (.setupRetryDlxTopology ∈ scripts ∧ DeadEventsName name) ∨
        (.setupPolicies ∈ scripts ∧ LazyName name)) := by
  constructor
  · rintro hfree (h | h | h | h)
    · exact absurd (hfree haFederation (.federation hf.1 h) (by decide)) (by decide)
    · exact absurd (hfree haEvents (.events h.1 h.2) (by decide)) (by decide)
    · exact absurd (hfree haRetryEvents (.deadEvents h.1 h.2) (by decide)) (by decide)
    · exact absurd (hfree haLazy (.lazy h.1 h.2) (by decide)) (by decide)
  · intro hno q hq _
    cases hq with
    | federated => rfl
    | federation _ hm => exact absurd (Or.inl hm) hno
    | events hs hm => exact absurd (Or.inr (Or.inl ⟨hs, hm⟩)) hno
    | deadEvents hs hm => exact absurd (Or.inr (Or.inr (Or.inl ⟨hs, hm⟩))) hno
    | lazy hs hm => exact absurd (Or.inr (Or.inr (Or.inr ⟨hs, hm⟩))) hno

/-- Only the other dead-letter policy is not below the first. -/
theorem events_kept {scripts : List Script} {name : String}
    (hno : ¬ (.setupRetryDlxTopology ∈ scripts ∧ DeadEventsName name)) :
    ∀ q, Matched scripts name q → haEvents.priority ≤ q.priority → q = haEvents := by
  intro q hq hle
  cases hq with
  | events => rfl
  | deadEvents hs hm => exact absurd ⟨hs, hm⟩ hno
  | federated | federation | lazy => exact absurd hle (by decide)

/-- Only the first dead-letter policy is not below the other. -/
theorem deadEvents_kept {scripts : List Script} {name : String} (hno : ¬ EventsName name) :
    ∀ q, Matched scripts name q → haRetryEvents.priority ≤ q.priority → q = haRetryEvents := by
  intro q hq hle
  cases hq with
  | events _ hm => exact absurd hm hno
  | deadEvents => rfl
  | federated | federation | lazy => exact absurd hle (by decide)

/-- CORRECT: after any run of the scripts a queue keeps its upstream set and its dead-letter
    exchange if and only if its name is none of those on which a policy loses. -/
theorem settings_kept_iff (scripts : List Script) (name : String) :
    SettingsKept scripts name ↔ ¬ Loses scripts name := by
  simp only [kept_after, mem_matching_after]
  constructor
  · rintro hfree (⟨hs, hname, hother⟩ | ⟨hs, hdead, hevents⟩)
    · have hkept := hfree federationRabbitmq3 (.federated hs hname) (by decide)
      exact (federation_kept_iff ⟨hs, hname⟩).mp hkept hother
    · have hkept := hfree haRetryEvents (.deadEvents hs hdead) (by decide)
      exact absurd (hkept haEvents (.events (Or.inl hs) hevents) (by decide)) (by decide)
  · intro hno p hp hsets
    cases hp with
    | federated hs hm =>
      exact (federation_kept_iff ⟨hs, hm⟩).mpr fun hother => hno (Or.inl ⟨hs, hm, hother⟩)
    | events _ hm => exact events_kept fun h => hno (Or.inr ⟨h.1, h.2, hm⟩)
    | deadEvents hs hm => exact deadEvents_kept fun h => hno (Or.inr ⟨hs, hm, h⟩)
    | federation | lazy => exact absurd hsets (by decide)

end RabbitmqCluster.Scripts
