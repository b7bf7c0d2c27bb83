import RabbitmqCluster.Schemes.Matching
import RabbitmqCluster.Terraform.FederateAll
import RabbitmqCluster.Terraform.PolicyClash

/-! @src var/terraform/rabbitmq3 federate-all.tf | scheme:matching | family:selection

    Which exchanges of rabbitmq3 are federated: the built-in ones, whose names begin with `amq.`,
    and `events` are to be left out. In the pattern the dot stands for any character and `events`
    is only the beginning of a name, so `events.log` and `amqp-in` are left out as well
    (`events_log_skipped`). The names on which the pattern does what it is for are exactly the
    others (`federate_law_iff`).

        ^ ─ not ahead: amq. | events ─▶ .+ ─▶ $ -/

namespace RabbitmqCluster.Terraform

open RabbitmqCluster.Schemes Pattern Topology

/-- The exchange is none of the built-in ones, and not `events`. -/
def Intended (name : String) : Prop := ¬ "amq.".toList <+: name.toList ∧ name ≠ events.name

instance (name : String) : Decidable (Intended name) := inferInstanceAs (Decidable (_ ∧ _))

/-- The exchange of rabbitmq3 is federated with rabbitmq1. -/
def Federated (name : String) : Prop :=
  instances.upstreamOf .exchanges .rabbitmq3 name = some .rabbitmq1

/-- The pattern matches the intended names, and these exchanges are federated. -/
def FederateLaw (name : String) : Prop :=
  (isMatch allExchangesPolicy.pattern name = true ↔ Intended name) ∧
    (Intended name → Federated name)

/-! ### The pattern -/

/-- `amq.|events`, with the dot as it stands. -/
def skipped : Pattern := alt (sequence (any :: letters "amq".toList)) (literal "events".toList)

/-- `^(?!amq.|events)(.+)$` -/
def allExchanges : Pattern := sequence ([eol, seq any (star any), notAhead skipped] ++ [bol])

theorem parse_allExchanges : parse allExchangesPolicy.pattern = some allExchanges := by
  decide +kernel

/-- The look-ahead stops a name that begins with `amq` and one more character, or with `events`. -/
theorem fits_skipped {s : Place} (hline : '\n' ∉ s.rest) : Fits skipped s ↔
    (∃ c rest, s.rest = "amq".toList ++ c :: rest) ∨ "events".toList <+: s.rest := by
  rw [skipped, fits_alt, fits_literal, fits_cons]
  refine or_congr ⟨?_, ?_⟩ Iff.rfl
  · rintro ⟨u, hu, hany⟩
    obtain ⟨c, rest, -, hc⟩ := fits_any.mp hany
    exact ⟨c, rest, hc ▸ (mem_ends_literal.mp hu).1⟩
  · rintro ⟨c, rest, hrest⟩
    have hne : c ≠ '\n' := fun h => hline (by rw [hrest, h]; simp)
    exact ⟨⟨false, c :: rest⟩, mem_ends_literal.mpr ⟨hrest, (Bool.and_false _).symm⟩,
      fits_any.mpr ⟨c, rest, hne, rfl⟩⟩

/-- On a line of its own the pattern is the look-ahead at the start of the name. -/
theorem matches_allExchanges {name : String} (hne : name ≠ "") (hline : '\n' ∉ name.toList) :
    isMatch allExchangesPolicy.pattern name = true ↔
      ¬ ((∃ c rest, name.toList = "amq".toList ++ c :: rest) ∨
        "events".toList <+: name.toList) := by
  have hchars : name.toList ≠ [] := fun h => hne (String.toList_eq_nil_iff.mp h)
  rw [isMatch_iff parse_allExchanges, allExchanges, search_append_bol,
    ← fits_skipped (s := ⟨true, name.toList⟩) hline]
  constructor
  · rintro ⟨t, ht⟩
    obtain ⟨u, hu, -⟩ := mem_ends_cons.mp ht
    obtain ⟨v, hv, -⟩ := mem_ends_cons.mp hu
    obtain ⟨w, hw, hskip⟩ := mem_ends_cons.mp hv
    obtain rfl : w = ⟨true, name.toList⟩ := List.mem_singleton.mp hw
    exact (mem_ends_notAhead.mp hskip).1
  · intro hskip
    obtain ⟨t, ht, hend⟩ := some_to_end true hchars hline
    have hahead : (⟨true, name.toList⟩ : Place) ∈ ends (notAhead skipped) ⟨true, name.toList⟩ :=
      mem_ends_notAhead.mpr ⟨hskip, rfl⟩
    refine ⟨t, mem_ends_cons.mpr ⟨t, mem_ends_cons.mpr ⟨_, ?_, ht⟩, ?_⟩⟩
    · exact mem_ends_cons.mpr ⟨_, List.mem_singleton_self _, hahead⟩
    · exact mem_ends_eol.mpr ⟨Or.inl hend, rfl⟩

/-! ### The policy in force -/

theorem rabbitmq3_exchange_policies {p : Policy} (hp : p ∈ rabbitmq3.policies)
    (hq : p.applies .exchanges = true) : p = allExchangesPolicy := by
  have hcases : p = deliveryLimitPolicy ∨ p = allExchangesPolicy ∨ p = allQueuesPolicy := by
    simpa [rabbitmq3, shared] using hp
  rcases hcases with rfl | rfl | rfl
  · exact absurd hq (by decide)
  · rfl
  · exact absurd hq (by decide)

/-- An exchange that the pattern matches has no other policy. -/
theorem allExchanges_policy {name : String}
    (hm : isMatch allExchangesPolicy.pattern name = true) :
    rabbitmq3.policy .exchanges name = some allExchangesPolicy := by
  have huniq : rabbitmq3.UniqueInForce .exchanges name := rabbitmq3_unique (by decide) name
  refine policy_of_unique (mem_candidates.mpr ⟨?_, fun q hq => ?_⟩) huniq
  · exact mem_matching.mpr ⟨by decide, by decide, hm⟩
  · obtain ⟨hmem, happ, -⟩ := mem_matching.mp hq
    exact (rabbitmq3_exchange_policies hmem happ ▸ Int.le_refl _)

theorem federated_iff (name : String) :
    Federated name ↔ isMatch allExchangesPolicy.pattern name = true := by
  constructor
  · intro h
    obtain ⟨v, hv, -⟩ := Option.bind_eq_some_iff.mp h
    obtain ⟨p, hp, -⟩ := Option.bind_eq_some_iff.mp hv
    have hmem : p ∈ rabbitmq3.candidates .exchanges name := List.mem_of_mem_head? hp
    obtain ⟨hpol, happ, hm⟩ := mem_matching.mp (mem_candidates.mp hmem).1
    rwa [rabbitmq3_exchange_policies hpol happ] at hm
  · intro hm
    rw [Federated, Federation.upstreamOf, show instances.top .rabbitmq3 = rabbitmq3 from rfl,
      allExchanges_policy hm]
    decide

/-! ### The law -/

theorem events_log_skipped :
    ¬ ∀ name, name ≠ "" → '\n' ∉ name.toList → FederateLaw name := by
  intro hall
  have hmatch := (hall "events.log" (by decide) (by decide)).1
  have hintended : Intended "events.log" := by decide
  have hskip : isMatch allExchangesPolicy.pattern "events.log" = false := by decide +kernel
  exact absurd (hskip.symm.trans (hmatch.mpr hintended)) nofun

/-- What the pattern skips although it is intended. -/
theorem intended_skipped (name : String) :
    (Intended name ∧ ((∃ c rest, name.toList = "amq".toList ++ c :: rest) ∨
        "events".toList <+: name.toList)) ↔
      (∃ c rest, c ≠ '.' ∧ name.toList = "amq".toList ++ c :: rest) ∨
        ("events".toList <+: name.toList ∧ name ≠ "events") := by
  constructor
  · rintro ⟨⟨hamq, hevents⟩, ⟨c, rest, hname⟩ | hpre⟩
    · refine Or.inl ⟨c, rest, ?_, hname⟩
      rintro rfl
      exact hamq ⟨rest, hname.symm⟩
    · exact Or.inr ⟨hpre, hevents⟩
  · rintro (⟨c, rest, hdot, hname⟩ | ⟨hpre, hne⟩)
    · refine ⟨⟨?_, ?_⟩, Or.inl ⟨c, rest, hname⟩⟩
      · rintro ⟨more, hmore⟩
        have hsplit : "amq".toList ++ '.' :: more = "amq".toList ++ c :: rest := hmore.trans hname
        exact hdot (List.cons.inj (List.append_cancel_left hsplit)).1.symm
      · rintro rfl
        exact absurd hname (by simp [events])
    · refine ⟨⟨?_, hne⟩, Or.inr hpre⟩
      rintro ⟨more, hmore⟩
      obtain ⟨rest, hrest⟩ := hpre
      rw [← hmore] at hrest
      exact absurd hrest (by simp)

/-- CORRECT: for every name without a newline the pattern matches and federates exactly the intended
    exchanges, if and only if the name does not begin with `amq` and another character than a dot,
    and does not go on after `events` if it begins so. -/
theorem federate_law_iff {name : String} (hne : name ≠ "") (hline : '\n' ∉ name.toList) :
    FederateLaw name ↔
      ¬ ((∃ c rest, c ≠ '.' ∧ name.toList = "amq".toList ++ c :: rest) ∨
        ("events".toList <+: name.toList ∧ name ≠ "events")) := by
  have hmatch := matches_allExchanges hne hline
  rw [FederateLaw, federated_iff, ← intended_skipped]
  constructor
  · rintro ⟨-, hlaw⟩ ⟨hintended, hskip⟩
    exact hmatch.mp (hlaw hintended) hskip
  · intro hno
    have hlaw : Intended name → isMatch allExchangesPolicy.pattern name = true :=
      fun hintended => hmatch.mpr fun hskip => hno ⟨hintended, hskip⟩
    refine ⟨⟨fun hm => ⟨?_, ?_⟩, hlaw⟩, hlaw⟩
    · rintro ⟨rest, hrest⟩
      exact hmatch.mp hm (Or.inl ⟨'.', rest, hrest.symm⟩)
    · rintro rfl
      exact hmatch.mp hm (Or.inr (List.prefix_refl _))

theorem federate_law_requests : FederateLaw requests.name := by
  refine (federate_law_iff (by decide) (by decide)).mpr ?_
  rintro (⟨c, rest, -, hname⟩ | ⟨hpre, -⟩)
  · exact absurd hname (by simp [requests])
  · exact absurd hpre (by decide)

end RabbitmqCluster.Terraform
