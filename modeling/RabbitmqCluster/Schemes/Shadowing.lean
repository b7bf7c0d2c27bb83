import RabbitmqCluster.Schemes.Policies

/-! @scheme shadowing | family:selection

    Policies are set one after another, each in place of the one of its name, and they are not
    merged: what a matching policy gives is lost where another one is in force. If every setting is
    given by one policy only, nothing is lost exactly where no policy with a setting matches beside
    one of at least its priority (`kept_iff`).

        p (k ↦ v) ── priority ≤ ──▶ q   ⟹   q in force, k lost -/

namespace RabbitmqCluster.Schemes

/-- `set_policy`: the policy takes the place of the one of its name. -/
def setPolicy (ps : List Policy) (p : Policy) : List Policy := ps.filter (·.name ≠ p.name) ++ [p]

theorem mem_setPolicy {ps : List Policy} {p q : Policy} :
    q ∈ setPolicy ps p ↔ (q ∈ ps ∧ q.name ≠ p.name) ∨ q = p := by
  simp [setPolicy]

/-- RULE (set): where a name stands for one policy, setting them adds them all. -/
theorem mem_foldl_setPolicy {settings ps : List Policy} {q : Policy}
    (h : ∀ p ∈ ps ++ settings, ∀ r ∈ ps ++ settings, p.name = r.name → p = r) :
    q ∈ settings.foldl setPolicy ps ↔ q ∈ ps ∨ q ∈ settings := by
  induction settings generalizing ps with
  | nil => simp
  | cons p settings ih =>
    have hstep : ∀ r, r ∈ setPolicy ps p ↔ r ∈ ps ∨ r = p := by
      intro r
      rw [mem_setPolicy]
      constructor
      · rintro (⟨hr, -⟩ | hr)
        · exact Or.inl hr
        · exact Or.inr hr
      · rintro (hr | hr)
        · by_cases hname : r.name = p.name
          · exact Or.inr (h r (by simp [hr]) p (by simp) hname)
          · exact Or.inl ⟨hr, hname⟩
        · exact Or.inr hr
    have hsub : ∀ r ∈ setPolicy ps p ++ settings, r ∈ ps ++ p :: settings := by
      intro r hr
      rcases List.mem_append.mp hr with hr | hr
      · rcases (hstep r).mp hr with hr | rfl
        · exact List.mem_append_left _ hr
        · exact List.mem_append_right _ List.mem_cons_self
      · exact List.mem_append_right _ (List.mem_cons_of_mem _ hr)
    rw [List.foldl_cons, ih fun r hr s hs => h r (hsub r hr) s (hsub s hs), hstep, List.mem_cons,
      or_assoc]

namespace Topology

variable {top : Topology} {kind : ApplyTo} {name : String} {p q : Policy} {keys : List String}

/-- Whichever candidate is in force, it gives the value. -/
def Gives (top : Topology) (kind : ApplyTo) (name k : String) (v : Value) : Prop :=
  (∃ q, q ∈ top.candidates kind name) ∧
    ∀ q ∈ top.candidates kind name, q.definition.lookup k = some v

/-- What a matching policy gives under the keys is in force. -/
def Kept (top : Topology) (kind : ApplyTo) (keys : List String) (name : String) : Prop :=
  ∀ p ∈ top.matching kind name, ∀ k ∈ keys, ∀ v, p.definition.lookup k = some v →
    top.Gives kind name k v

/-- The policy has a setting under one of the keys. -/
def Sets (keys : List String) (p : Policy) : Prop :=
  ∃ k ∈ keys, (p.definition.lookup k).isSome = true

instance (keys : List String) (p : Policy) : Decidable (Sets keys p) :=
  inferInstanceAs (Decidable (∃ k ∈ keys, _ = true))

theorem exists_highest {ps : List Policy} (h : ps ≠ []) :
    ∃ c ∈ ps, ∀ r ∈ ps, r.priority ≤ c.priority := by
  induction ps with
  | nil => exact absurd rfl h
  | cons p ps ih =>
    by_cases hps : ps = []
    · exact ⟨p, List.mem_cons_self, by simp [hps]⟩
    · obtain ⟨c, hc, hmax⟩ := ih hps
      rcases Int.le_total p.priority c.priority with hle | hle
      · exact ⟨c, List.mem_cons_of_mem _ hc, List.forall_mem_cons.mpr ⟨hle, hmax⟩⟩
      · refine ⟨p, List.mem_cons_self, List.forall_mem_cons.mpr ⟨Int.le_refl _, ?_⟩⟩
        intro r hr
        exact Int.le_trans (hmax r hr) hle

/-- A matching policy leaves a candidate of at least its priority. -/
theorem exists_candidate (hp : p ∈ top.matching kind name) :
    ∃ c ∈ top.candidates kind name, p.priority ≤ c.priority := by
  obtain ⟨c, hc, hmax⟩ := exists_highest (List.ne_nil_of_mem hp)
  exact ⟨c, mem_candidates.mpr ⟨hc, hmax⟩, hmax p hp⟩

/-- A policy beside another one of at least its priority is not the only candidate. -/
theorem exists_other (hp : p ∈ top.matching kind name) (hq : q ∈ top.matching kind name)
    (hle : p.priority ≤ q.priority) (hne : q ≠ p) : ∃ c ∈ top.candidates kind name, c ≠ p := by
  obtain ⟨c, hc, hqc⟩ := exists_candidate hq
  by_cases hcp : c = p
  · subst hcp
    refine ⟨q, mem_candidates.mpr ⟨hq, fun r hr => ?_⟩, hne⟩
    exact Int.le_trans ((mem_candidates.mp hc).2 r hr) hle
  · exact ⟨c, hc, hcp⟩

/-- RULE (shadow): if no two policies give the same, the settings are kept exactly where a policy
    with a setting has a higher priority than all others that match. -/
theorem kept_iff
    (hone : ∀ p ∈ top.policies, ∀ q ∈ top.policies, ∀ k ∈ keys,
      (p.definition.lookup k).isSome = true → p.definition.lookup k = q.definition.lookup k →
        p = q) :
    top.Kept kind keys name ↔ ∀ p ∈ top.matching kind name, Sets keys p →
      ∀ q ∈ top.matching kind name, p.priority ≤ q.priority → q = p := by
  constructor
  · rintro hkept p hp ⟨k, hk, hsome⟩ q hq hle
    obtain ⟨v, hv⟩ := Option.isSome_iff_exists.mp hsome
    by_contra hne
    obtain ⟨c, hc, hcp⟩ := exists_other hp hq hle hne
    have hmem := (mem_matching.mp (mem_candidates.mp hc).1).1
    have hsame := (hkept p hp k hk v hv).2 c hc
    exact hcp (hone p (mem_matching.mp hp).1 c hmem k hk hsome (hv.trans hsame.symm)).symm
  · intro hfree p hp k hk v hv
    refine ⟨(exists_candidate hp).imp fun c hc => hc.1, fun q hq => ?_⟩
    obtain ⟨hqm, hmax⟩ := mem_candidates.mp hq
    rw [hfree p hp ⟨k, hk, by rw [hv]; rfl⟩ q hqm (hmax p hp)]
    exact hv

end Topology

end RabbitmqCluster.Schemes
