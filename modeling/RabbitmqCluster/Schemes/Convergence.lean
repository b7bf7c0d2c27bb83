import RabbitmqCluster.Schemes.Inventory
import Mathlib.Data.List.Nodup
import Mathlib.Tactic.Common

/-! @scheme convergence | family:declared-state

    Scripts that bring objects into a store, and what running them again does. A command adds a new
    object, declares one that may already be there, or puts one in the place of another. If the
    script agrees with itself and brings everything after what it needs, a run in which nothing
    fails ends in a state that can be read off the script (`mem_runAll`), and a rerun reaches it
    after any run in which commands failed (`rerun`). A script under `set -e` gets there as well if
    nothing is refused (`rerun_script`), but one that begins with an `add` is stuck once it has got
    beyond it (`stuck`).

        s ─ ✓ ✗ ✓ ✗ ─▶ s′ ─ ✓ ✓ ✓ ✓ ─▶ t
        s ────────── ✓ ✓ ✓ ✓ ─────────▶ t -/

namespace RabbitmqCluster.Schemes

variable {O K : Type} {N : Naming O K}

/-- How an object is brought: only under a new key, unless another object has the key, or in the
    place of that one. -/
inductive Mode where | add | declare | put
  deriving DecidableEq

structure Bring (O : Type) where
  mode : Mode
  object : O
  deriving DecidableEq

/-- Every object of the list comes after what it needs, `known` being there before. -/
def Supplied (N : Naming O K) : List K → List O → Prop
  | _, [] => True
  | known, o :: os => (∀ k ∈ N.needs (N.key o), k ∈ known) ∧ Supplied N (N.key o :: known) os

instance Supplied.dec [DecidableEq K] : ∀ (known : List K) (os : List O),
    Decidable (Supplied N known os)
  | _, [] => isTrue trivial
  | known, o :: os =>
    have := Supplied.dec (N.key o :: known) os
    inferInstanceAs (Decidable ((∀ k ∈ N.needs (N.key o), k ∈ known) ∧ _))

theorem Supplied.mono {known known' : List K} {os : List O} (h : Supplied N known os)
    (hsub : ∀ k ∈ known, k ∈ known') : Supplied N known' os := by
  induction os generalizing known known' with
  | nil => trivial
  | cons o os ih =>
    refine ⟨fun k hk => hsub k (h.1 k hk), ih h.2 fun k hk => ?_⟩
    rcases List.mem_cons.mp hk with rfl | hk
    · exact List.mem_cons_self
    · exact List.mem_cons_of_mem _ (hsub k hk)

/-- A script without `set -e`: it goes on after a command that fails, be it refused or, at the
    positions in `broken`, for a reason of its own. -/
def runAll {S C : Type} (exec : C → S → Option S) : List C → (ℕ → Bool) → S → S
  | [], _, s => s
  | c :: cs, broken, s =>
    runAll exec cs (fun i => broken (i + 1)) (if broken 0 then s else (exec c s).getD s)

variable [DecidableEq K] [DecidableEq O]

def Bring.exec (b : Bring O) (s : Store N) : Option (Store N) :=
  match b.mode with
  | .add => s.add b.object
  | .declare => s.declare b.object
  | .put => s.put b.object

/-- The store after the command, which may have been refused. -/
def Bring.after (b : Bring O) (s : Store N) : Store N := (b.exec s).getD s

/-! ### One command -/

variable {b : Bring O} {s t : Store N} {o : O}

/-- The command takes effect: it puts its object, or nothing has the key. -/
def Bring.Takes (b : Bring O) (s : Store N) : Prop := b.mode = .put ∨ N.key b.object ∉ s.keys

omit [DecidableEq O] in
instance (b : Bring O) (s : Store N) : Decidable (b.Takes s) :=
  inferInstanceAs (Decidable (_ ∨ _))

omit [DecidableEq O] in
theorem add_after (hr : s.Ready o) :
    ((s.add o).getD s).objects = if N.key o ∈ s.keys then s.objects else s.objects ++ [o] := by
  rw [Store.add, dif_pos hr]
  split
  · rfl
  · rfl

theorem declare_after (hr : s.Ready o) :
    ((s.declare o).getD s).objects = if N.key o ∈ s.keys then s.objects else s.objects ++ [o] := by
  rw [Store.declare]
  split
  · next ho => rw [if_pos (Store.mem_keys.mpr ⟨o, ho, rfl⟩)]; rfl
  · exact add_after hr

omit [DecidableEq O] in
theorem put_after (hr : s.Ready o) : ((s.put o).getD s).objects = s.replaced o := by
  rw [Store.put, dif_pos hr]
  rfl

/-- RULE (command): what is there after a command whose needs are met. -/
theorem mem_after (hr : s.Ready b.object) : o ∈ (b.after s).objects ↔
    (o ∈ s.objects ∧ ¬ (b.mode = .put ∧ N.key b.object = N.key o)) ∨
      (o = b.object ∧ b.Takes s) := by
  obtain ⟨mode, p⟩ := b
  cases mode with
  | add =>
    rw [show (Bring.after ⟨.add, p⟩ s) = (s.add p).getD s from rfl, add_after hr]
    by_cases hk : N.key p ∈ s.keys <;> simp [Bring.Takes, hk]
  | declare =>
    rw [show (Bring.after ⟨.declare, p⟩ s) = (s.declare p).getD s from rfl, declare_after hr]
    by_cases hk : N.key p ∈ s.keys <;> simp [Bring.Takes, hk]
  | put =>
    rw [show (Bring.after ⟨.put, p⟩ s) = (s.put p).getD s from rfl, put_after hr]
    have hkey : N.key o ≠ N.key p ↔ ¬ N.key p = N.key o := not_congr eq_comm
    simp [Bring.Takes, Store.replaced, hkey]

theorem after_of_not_ready (hr : ¬ s.Ready b.object) : b.after s = s := by
  have hno : b.object ∉ s.objects := fun ho => hr (s.closed _ ho)
  rw [Bring.after, Bring.exec]
  cases b.mode with
  | add => rw [Store.add, dif_neg hr]; rfl
  | declare => rw [Store.declare, if_neg hno, Store.add, dif_neg hr]; rfl
  | put => rw [Store.put, dif_neg hr]; rfl

theorem keys_after (hr : s.Ready b.object) {k : K} :
    k ∈ (b.after s).keys ↔ k = N.key b.object ∨ k ∈ s.keys := by
  rw [Store.mem_keys]
  constructor
  · rintro ⟨o, ho, rfl⟩
    rcases (mem_after hr).mp ho with ⟨ho, -⟩ | ⟨rfl, -⟩
    · exact Or.inr (Store.mem_keys.mpr ⟨o, ho, rfl⟩)
    · exact Or.inl rfl
  · rintro (rfl | hk)
    · by_cases htakes : b.Takes s
      · exact ⟨b.object, (mem_after hr).mpr (Or.inr ⟨rfl, htakes⟩), rfl⟩
      · rw [Bring.Takes, not_or, not_not] at htakes
        obtain ⟨o, ho, hkey⟩ := Store.mem_keys.mp htakes.2
        exact ⟨o, (mem_after hr).mpr (Or.inl ⟨ho, fun h => htakes.1 h.1⟩), hkey⟩
    · obtain ⟨o, ho, rfl⟩ := Store.mem_keys.mp hk
      by_cases hput : b.mode = .put ∧ N.key b.object = N.key o
      · exact ⟨b.object, (mem_after hr).mpr (Or.inr ⟨rfl, Or.inl hput.1⟩), hput.2⟩
      · exact ⟨o, (mem_after hr).mpr (Or.inl ⟨ho, hput⟩), rfl⟩

/-! ### A run in which nothing fails -/

/-- The script brings one object under a key, in one way. -/
def Consistent (N : Naming O K) (script : List (Bring O)) : Prop :=
  ∀ b ∈ script, ∀ c ∈ script, N.key b.object = N.key c.object → b = c

instance (script : List (Bring O)) : Decidable (Consistent N script) :=
  inferInstanceAs (Decidable (∀ b ∈ script, ∀ c ∈ script, _ → b = c))

omit [DecidableEq K] [DecidableEq O] in
theorem consistent_of_nodup {script : List (Bring O)}
    (h : (script.map (N.key ·.object)).Nodup) : Consistent N script := by
  intro b hb c hc hkey
  exact List.inj_on_of_nodup_map h hb hc hkey

/-- What the script makes of the store: what was there and nothing was put in the place of, and the
    objects of the script that were put or whose keys were new. -/
def Brought (script : List (Bring O)) (s : Store N) (o : O) : Prop :=
  (o ∈ s.objects ∧ ∀ b ∈ script, b.mode = .put → N.key b.object ≠ N.key o) ∨
    ∃ b ∈ script, b.object = o ∧ b.Takes s

theorem brought_cons {script : List (Bring O)} (hone : Consistent N (b :: script))
    (hr : s.Ready b.object) : Brought (b :: script) s o ↔ Brought script (b.after s) o := by
  have htaken : b.object = o → b.Takes s → Brought script (b.after s) o := by
    rintro rfl htakes
    by_cases hput : ∃ c ∈ script, c.mode = .put ∧ N.key c.object = N.key b.object
    · obtain ⟨c, hc, hmode, hkey⟩ := hput
      obtain rfl := hone c (List.mem_cons_of_mem _ hc) b List.mem_cons_self hkey
      exact Or.inr ⟨c, hc, rfl, Or.inl hmode⟩
    · refine Or.inl ⟨(mem_after hr).mpr (Or.inr ⟨rfl, htakes⟩), fun c hc hmode hkey => ?_⟩
      exact hput ⟨c, hc, hmode, hkey⟩
  constructor
  · rintro (⟨ho, hno⟩ | ⟨c, hc, hobj, htakes⟩)
    · have hkept : ¬ (b.mode = .put ∧ N.key b.object = N.key o) :=
        fun h => hno b List.mem_cons_self h.1 h.2
      exact Or.inl ⟨(mem_after hr).mpr (Or.inl ⟨ho, hkept⟩),
        fun c hc => hno c (List.mem_cons_of_mem _ hc)⟩
    · by_cases hkey : N.key c.object = N.key b.object
      · obtain rfl := hone c hc b List.mem_cons_self hkey
        exact htaken hobj htakes
      · rcases List.mem_cons.mp hc with rfl | hc
        · exact absurd rfl hkey
        · refine Or.inr ⟨c, hc, hobj, htakes.imp id fun hnew hk => ?_⟩
          rcases (keys_after hr).mp hk with hk | hk
          · exact hkey hk
          · exact hnew hk
  · rintro (⟨ho, hno⟩ | ⟨c, hc, hobj, htakes⟩)
    · rcases (mem_after hr).mp ho with ⟨ho, hkept⟩ | ⟨rfl, htakes⟩
      · refine Or.inl ⟨ho, fun c hc hmode hkey => ?_⟩
        rcases List.mem_cons.mp hc with rfl | hc
        · exact hkept ⟨hmode, hkey⟩
        · exact hno c hc hmode hkey
      · exact Or.inr ⟨b, List.mem_cons_self, rfl, htakes⟩
    · refine Or.inr ⟨c, List.mem_cons_of_mem _ hc, hobj, htakes.imp id fun hnew hk => ?_⟩
      exact hnew ((keys_after hr).mpr (Or.inr hk))

theorem supplied_after {os : List O} (h : Supplied N s.keys (b.object :: os)) :
    Supplied N (b.after s).keys os := by
  refine Supplied.mono h.2 fun k hk => (keys_after h.1).mpr ?_
  exact List.mem_cons.mp hk

/-- RULE (clean run): a run in which nothing fails ends in what the script makes of the store. -/
theorem mem_runAll {script : List (Bring O)} (hone : Consistent N script)
    (hs : Supplied N s.keys (script.map (·.object))) :
    o ∈ (runAll Bring.exec script unbroken s).objects ↔ Brought script s o := by
  induction script generalizing s with
  | nil => simp [runAll, Brought]
  | cons b script ih =>
    have hone' : Consistent N script := fun c hc d hd =>
      hone c (List.mem_cons_of_mem _ hc) d (List.mem_cons_of_mem _ hd)
    have hrun : runAll Bring.exec (b :: script) unbroken s =
        runAll Bring.exec script unbroken (b.after s) := rfl
    rw [hrun, ih hone' (supplied_after hs), brought_cons hone hs.1]

/-- After such a run every object of the script has something under its key. -/
theorem keys_runAll {script : List (Bring O)} (hs : Supplied N s.keys (script.map (·.object)))
    {k : K} (hk : k ∈ s.keys ∨ k ∈ (script.map (·.object)).map N.key) :
    k ∈ (runAll Bring.exec script unbroken s).keys := by
  induction script generalizing s with
  | nil => exact hk.resolve_right List.not_mem_nil
  | cons b script ih =>
    refine ih (supplied_after hs) ?_
    rcases hk with hk | hk
    · exact Or.inl ((keys_after hs.1).mpr (Or.inr hk))
    · rcases List.mem_cons.mp hk with rfl | hk
      · exact Or.inl ((keys_after hs.1).mpr (Or.inl rfl))
      · exact Or.inr hk

/-! ### A run in which commands fail -/

/-- The second store is the first with some of the script's objects. -/
structure Between (script : List (Bring O)) (s t : Store N) : Prop where
  keys : ∀ k ∈ s.keys, k ∈ t.keys
  new : ∀ o ∈ t.objects, o ∈ s.objects ∨ ∃ b ∈ script, b.object = o ∧ b.Takes s
  kept : ∀ o ∈ s.objects,
    o ∈ t.objects ∨ ∃ b ∈ script, b.mode = .put ∧ N.key b.object = N.key o

variable {script : List (Bring O)}

omit [DecidableEq K] [DecidableEq O] in
theorem Between.refl (s : Store N) : Between script s s :=
  ⟨fun _ hk => hk, fun _ ho => Or.inl ho, fun _ ho => Or.inl ho⟩

theorem Between.step (h : Between script s t) (hb : b ∈ script) :
    Between script s (b.after t) := by
  by_cases hr : t.Ready b.object
  · refine ⟨fun k hk => (keys_after hr).mpr (Or.inr (h.keys k hk)), fun o ho => ?_, fun o ho => ?_⟩
    · rcases (mem_after hr).mp ho with ⟨ho, -⟩ | ⟨rfl, htakes⟩
      · exact h.new o ho
      · exact Or.inr ⟨b, hb, rfl, htakes.imp id fun hnew hk => hnew (h.keys _ hk)⟩
    · by_cases hput : b.mode = .put ∧ N.key b.object = N.key o
      · exact Or.inr ⟨b, hb, hput⟩
      · exact (h.kept o ho).imp (fun ho => (mem_after hr).mpr (Or.inl ⟨ho, hput⟩)) id
  · rw [after_of_not_ready hr]
    exact h

/-- A run of a part of the script leaves a store between, whatever fails. -/
theorem runAll_between {part : List (Bring O)} (hpart : ∀ b ∈ part, b ∈ script)
    (broken : ℕ → Bool) (h : Between script s t) :
    Between script s (runAll Bring.exec part broken t) := by
  induction part generalizing broken t with
  | nil => exact h
  | cons b part ih =>
    obtain ⟨hb, hpart⟩ := List.forall_mem_cons.mp hpart
    rw [runAll]
    split
    · exact ih hpart _ h
    · exact ih hpart _ (h.step hb)

omit [DecidableEq O] in
theorem brought_between (hone : Consistent N script) (h : Between script s t) :
    Brought script t o ↔ Brought script s o := by
  constructor
  · rintro (⟨ho, hno⟩ | ⟨b, hb, hobj, htakes⟩)
    · rcases h.new o ho with ho | hnew
      · exact Or.inl ⟨ho, hno⟩
      · exact Or.inr hnew
    · exact Or.inr ⟨b, hb, hobj, htakes.imp id fun hnew hk => hnew (h.keys _ hk)⟩
  · rintro (⟨ho, hno⟩ | ⟨b, hb, rfl, htakes⟩)
    · rcases h.kept o ho with ho | ⟨b, hb, hmode, hkey⟩
      · exact Or.inl ⟨ho, hno⟩
      · exact absurd hkey (hno b hb hmode)
    · by_cases hput : b.mode = .put
      · exact Or.inr ⟨b, hb, rfl, Or.inl hput⟩
      · have hnew : N.key b.object ∉ s.keys := htakes.resolve_left hput
        by_cases hk : N.key b.object ∈ t.keys
        · -- what has the key now is the object itself: the first run brought it
          obtain ⟨o, ho, hkey⟩ := Store.mem_keys.mp hk
          have hsame : o = b.object := by
            rcases h.new o ho with ho | ⟨c, hc, rfl, -⟩
            · exact absurd (Store.mem_keys.mpr ⟨o, ho, hkey⟩) hnew
            · rw [hone c hc b hb hkey]
          refine Or.inl ⟨hsame ▸ ho, fun c hc hmode hkey => hput ?_⟩
          rw [← hone c hc b hb hkey]
          exact hmode
        · exact Or.inr ⟨b, hb, rfl, Or.inr hk⟩

/-- RULE (rerun): after any run, whatever failed in it, a run in which nothing fails ends in the
    same objects as if it had been the first. -/
theorem rerun (hone : Consistent N script) (hs : Supplied N s.keys (script.map (·.object)))
    (broken : ℕ → Bool) :
    o ∈ (runAll Bring.exec script unbroken (runAll Bring.exec script broken s)).objects ↔
      o ∈ (runAll Bring.exec script unbroken s).objects := by
  have hbetween : Between script s (runAll Bring.exec script broken s) :=
    runAll_between (fun _ hb => hb) broken (Between.refl s)
  rw [mem_runAll hone (hs.mono hbetween.keys), mem_runAll hone hs]
  exact brought_between hone hbetween

/-! ### Scripts under `set -e` -/

/-- What the store has under the keys of the script is what the script declares or replaces. -/
def Agrees (script : List (Bring O)) (s : Store N) : Prop :=
  ∀ b ∈ script, b.mode ≠ .put → ∀ o ∈ s.objects, N.key o = N.key b.object →
    b.mode = .declare ∧ o = b.object

instance (script : List (Bring O)) (s : Store N) : Decidable (Agrees script s) :=
  inferInstanceAs (Decidable (∀ b ∈ script, _ → ∀ o ∈ s.objects, _ → _ ∧ _))

theorem exec_isSome (hr : s.Ready b.object) (hagree : b.mode ≠ .put → ∀ o ∈ s.objects,
    N.key o = N.key b.object → b.mode = .declare ∧ o = b.object) :
    b.exec s = some (b.after s) := by
  have hsome : (b.exec s).isSome = true := by
    rw [Bring.exec]
    cases hm : b.mode with
    | put => rw [Store.put, dif_pos hr]; rfl
    | add =>
      have hnew : N.key b.object ∉ s.keys := by
        intro hk
        obtain ⟨o, ho, hkey⟩ := Store.mem_keys.mp hk
        have hdeclare := (hagree (by rw [hm]; decide) o ho hkey).1
        rw [hm] at hdeclare
        cases hdeclare
      rw [Store.add, dif_pos hr, if_neg hnew]
      rfl
    | declare =>
      by_cases ho : b.object ∈ s.objects
      · rw [Store.declare, if_pos ho]
        rfl
      · have hnew : N.key b.object ∉ s.keys := by
          intro hk
          obtain ⟨p, hp, hkey⟩ := Store.mem_keys.mp hk
          exact ho ((hagree (by rw [hm]; decide) p hp hkey).2 ▸ hp)
        rw [Store.declare, if_neg ho, Store.add, dif_pos hr, if_neg hnew]
        rfl
  obtain ⟨u, hu⟩ := Option.isSome_iff_exists.mp hsome
  rw [Bring.after, hu]
  rfl

/-- RULE (no refusal): a script under `set -e` that is refused nothing runs to its end. -/
theorem runScript_eq_runAll (hone : Consistent N script)
    (hadd : ∀ b ∈ script, b.mode = .add → script.count b = 1)
    (hs : Supplied N s.keys (script.map (·.object))) (hagree : Agrees script s) :
    runScript Bring.exec script unbroken s = runAll Bring.exec script unbroken s := by
  induction script generalizing s with
  | nil => rfl
  | cons b script ih =>
    have hexec := exec_isSome hs.1 (hagree b List.mem_cons_self)
    have hrun : runScript Bring.exec (b :: script) unbroken s =
        runScript Bring.exec script unbroken (b.after s) := by
      rw [runScript, if_neg (by simp [unbroken]), hexec]
      rfl
    have hall : runAll Bring.exec (b :: script) unbroken s =
        runAll Bring.exec script unbroken (b.after s) := rfl
    rw [hrun, hall]
    refine ih (fun c hc d hd => ?_) (fun c hc hm => ?_) (supplied_after hs)
      fun c hc hm o ho hk => ?_
    · exact hone c (List.mem_cons_of_mem _ hc) d (List.mem_cons_of_mem _ hd)
    · have hcount := hadd c (List.mem_cons_of_mem _ hc) hm
      have hpos := List.count_pos_iff.mpr hc
      rw [List.count_cons] at hcount
      omega
    · rcases (mem_after hs.1).mp ho with ⟨ho, -⟩ | ⟨rfl, -⟩
      · exact hagree c (List.mem_cons_of_mem _ hc) hm o ho hk
      · obtain rfl := hone b List.mem_cons_self c (List.mem_cons_of_mem _ hc) hk
        refine ⟨?_, rfl⟩
        cases hb : b.mode with
        | declare => rfl
        | put => exact absurd hb hm
        | add =>
          have hcount := hadd b List.mem_cons_self hb
          have hpos := List.count_pos_iff.mpr hc
          rw [List.count_cons_self] at hcount
          omega

omit [DecidableEq K] [DecidableEq O] in
/-- Scripts whose commands do the same do the same. -/
theorem runScript_congr {S C D : Type} {exec : C → S → Option S} {exec' : D → S → Option S}
    {cs : List C} {ds : List D} (h : List.Forall₂ (fun c d => ∀ s, exec c s = exec' d s) cs ds)
    (broken : ℕ → Bool) (s : S) : runScript exec cs broken s = runScript exec' ds broken s := by
  induction h generalizing broken s with
  | nil => rfl
  | @cons c d cs ds hcd _ ih =>
    rw [runScript, runScript, hcd s]
    split
    · rfl
    · split
      · rfl
      · exact ih _ _

/-- A run under `set -e` leaves a store between, wherever it stops. -/
theorem runScript_between {part : List (Bring O)} (hpart : ∀ b ∈ part, b ∈ script)
    (broken : ℕ → Bool) (h : Between script s t) :
    Between script s (runScript Bring.exec part broken t) := by
  induction part generalizing broken t with
  | nil => exact h
  | cons b part ih =>
    obtain ⟨hb, hpart⟩ := List.forall_mem_cons.mp hpart
    rw [runScript]
    split
    · exact h
    · cases hu : b.exec t with
      | none => exact h
      | some u =>
        have hafter : b.after t = u := by rw [Bring.after, hu]; rfl
        exact ih hpart _ (hafter ▸ h.step hb)

omit [DecidableEq K] [DecidableEq O] in
theorem agrees_between (hone : Consistent N script) (hadd : ∀ b ∈ script, b.mode ≠ .add)
    (h : Between script s t) (hagree : Agrees script s) : Agrees script t := by
  intro b hb hm o ho hkey
  rcases h.new o ho with ho | ⟨c, hc, rfl, -⟩
  · exact hagree b hb hm o ho hkey
  · obtain rfl := hone c hc b hb hkey
    refine ⟨?_, rfl⟩
    cases hc' : c.mode with
    | add => exact absurd hc' (hadd c hc)
    | declare => rfl
    | put => exact absurd hc' hm

/-- RULE (rerun under `set -e`): a script that adds nothing and that nothing contradicts has, in a
    run in which nothing fails, all its objects there, wherever it stopped before. -/
theorem rerun_script (hone : Consistent N script) (hadd : ∀ b ∈ script, b.mode ≠ .add)
    (hs : Supplied N s.keys (script.map (·.object))) (hagree : Agrees script s)
    (broken : ℕ → Bool) :
    ∀ b ∈ script, b.object ∈ (runScript Bring.exec script unbroken
      (runScript Bring.exec script broken s)).objects := by
  have hbetween : Between script s (runScript Bring.exec script broken s) :=
    runScript_between (fun _ hb => hb) broken (Between.refl s)
  have hs' := hs.mono hbetween.keys
  rw [runScript_eq_runAll hone (fun b hb hm => absurd hm (hadd b hb)) hs'
    (agrees_between hone hadd hbetween hagree)]
  intro b hb
  rw [mem_runAll hone hs', brought_between hone hbetween]
  by_cases htakes : b.Takes s
  · exact Or.inr ⟨b, hb, rfl, htakes⟩
  · rw [Bring.Takes, not_or, not_not] at htakes
    obtain ⟨o, ho, hkey⟩ := Store.mem_keys.mp htakes.2
    obtain rfl := (hagree b hb htakes.1 o ho hkey).2
    refine Or.inl ⟨ho, fun c hc hput hsame => htakes.1 ?_⟩
    rw [← hone c hc b hb hsame]
    exact hput

theorem add_refused {o : O} (hk : N.key o ∈ s.keys) : Bring.exec ⟨.add, o⟩ s = none := by
  show s.add o = none
  by_cases hr : s.Ready o
  · rw [Store.add, dif_pos hr, if_pos hk]
  · rw [Store.add, dif_neg hr]

/-- RULE (stuck): a script under `set -e` that begins by adding an object does nothing any more once
    it has got beyond that command, wherever it stopped. -/
theorem stuck {first : O} {rest : List (Bring O)} (hr : s.Ready first) (broken : ℕ → Bool)
    (hfirst : broken 0 = false) :
    runScript Bring.exec (⟨.add, first⟩ :: rest) unbroken
        (runScript Bring.exec (⟨.add, first⟩ :: rest) broken s) =
      runScript Bring.exec (⟨.add, first⟩ :: rest) broken s := by
  have hthere : N.key first ∈ (runScript Bring.exec (⟨.add, first⟩ :: rest) broken s).keys := by
    rw [runScript, if_neg (by simp [hfirst])]
    cases hu : Bring.exec ⟨.add, first⟩ s with
    | none =>
      by_contra hnew
      have hadd : s.add first = none := hu
      rw [Store.add, dif_pos hr, if_neg hnew] at hadd
      cases hadd
    | some u =>
      have hafter : Bring.after ⟨.add, first⟩ s = u := by rw [Bring.after, hu]; rfl
      have hkey : N.key first ∈ u.keys := hafter ▸ (keys_after (b := ⟨.add, first⟩) hr).mpr
        (Or.inl rfl)
      exact (runScript_between (fun _ hb => hb) _ (Between.refl u)).keys _ hkey
  rw [runScript, if_neg (by simp [unbroken]), add_refused hthere]

/-! ### Several stores -/

/-- The objects of several places; what an object needs it needs in its own place. -/
def Naming.located (B : Type) (N : Naming O K) : Naming (B × O) (B × K) where
  key o := (o.1, N.key o.2)
  needs k := (N.needs k.2).map (k.1, ·)
  trans := by
    rintro ⟨b, i⟩ ⟨c, j⟩ ⟨d, k⟩ hi hj
    obtain ⟨i', hi', hi⟩ := List.mem_map.mp hi
    obtain ⟨j', hj', hj⟩ := List.mem_map.mp hj
    obtain ⟨rfl, rfl⟩ := Prod.mk.inj hi
    obtain ⟨rfl, rfl⟩ := Prod.mk.inj hj
    exact List.mem_map_of_mem (N.trans _ _ _ hi' hj')

end RabbitmqCluster.Schemes
