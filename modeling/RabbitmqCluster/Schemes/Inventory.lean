import Mathlib.Data.List.Infix
import Mathlib.Data.Nat.Notation

/-! @scheme inventory | family:undo

    A store of objects that need one another: nothing is there without what it needs, and what needs
    a deleted object goes with it. Two scripts work on it that stop at their first failing step: one
    creates objects, the other deletes keys. If the keys are deleted in the order in which they are
    created, and every created object has one of the keys or needs one, the second script undoes the
    first wherever that stopped (`undo`).

        s ─ create o₁ ─▶ ─ create o₂ ─▶ … ✗        s ++ o₁ … oₙ
        s ◀─ delete k₁ ── delete k₂ ── … ✗ -/

namespace RabbitmqCluster.Schemes

/-- How the objects are told apart, and which others the object of a key needs. -/
structure Naming (O K : Type) where
  key : O → K
  needs : K → List K
  trans : ∀ i j k, i ∈ needs j → j ∈ needs k → i ∈ needs k

variable {O K : Type} {N : Naming O K}

/-- Objects beside all that they need. -/
@[ext]
structure Store (N : Naming O K) where
  objects : List O
  closed : ∀ o ∈ objects, ∀ k ∈ N.needs (N.key o), k ∈ objects.map N.key

namespace Store

def keys (s : Store N) : List K := s.objects.map N.key

/-- All that the object needs is there. -/
def Ready (s : Store N) (o : O) : Prop := ∀ k ∈ N.needs (N.key o), k ∈ s.keys

theorem mem_keys {s : Store N} {k : K} : k ∈ s.keys ↔ ∃ o ∈ s.objects, N.key o = k := List.mem_map

section Operations

variable [DecidableEq K]

instance (s : Store N) (o : O) : Decidable (s.Ready o) :=
  inferInstanceAs (Decidable (∀ k ∈ N.needs (N.key o), k ∈ s.keys))

/-- The store with one more object. -/
def append (s : Store N) (o : O) (h : s.Ready o) : Store N where
  objects := s.objects ++ [o]
  closed := by
    intro p hp k hk
    rw [List.map_append]
    refine List.mem_append_left _ ?_
    rcases List.mem_append.mp hp with hp | hp
    · exact s.closed p hp k hk
    · rw [List.mem_singleton.mp hp] at hk
      exact h k hk

/-- The object is new: one of its key may not be there. -/
def add (s : Store N) (o : O) : Option (Store N) :=
  if h : s.Ready o then if N.key o ∈ s.keys then none else some (s.append o h) else none

/-- The same object may be there, but not another one of its key. -/
def declare [DecidableEq O] (s : Store N) (o : O) : Option (Store N) :=
  if o ∈ s.objects then some s else s.add o

/-- The objects of other keys, and the object. -/
def replaced (s : Store N) (o : O) : List O := s.objects.filter (N.key · ≠ N.key o) ++ [o]

theorem mem_replaced_keys {s : Store N} {o : O} {k : K} (hk : k ∈ s.keys) :
    k ∈ (s.replaced o).map N.key := by
  obtain ⟨p, hp, rfl⟩ := mem_keys.mp hk
  by_cases hkey : N.key p = N.key o
  · exact List.mem_map.mpr ⟨o, List.mem_append_right _ (List.mem_singleton_self _), hkey.symm⟩
  · refine List.mem_map_of_mem (List.mem_append_left _ ?_)
    exact List.mem_filter.mpr ⟨hp, decide_eq_true hkey⟩

/-- The object takes the place of the one of its key. -/
def put (s : Store N) (o : O) : Option (Store N) :=
  if h : s.Ready o then
    some
      { objects := s.replaced o
        closed := by
          intro p hp k hk
          refine mem_replaced_keys ?_
          rcases List.mem_append.mp hp with hp | hp
          · exact s.closed p (List.mem_of_mem_filter hp) k hk
          · rw [List.mem_singleton.mp hp] at hk
            exact h k hk }
  else none

/-- The object neither has the key nor needs it. -/
def Spared (N : Naming O K) (k : K) (o : O) : Prop := N.key o ≠ k ∧ k ∉ N.needs (N.key o)

instance (k : K) (o : O) : Decidable (Spared N k o) := inferInstanceAs (Decidable (_ ∧ _))

/-- The object of the key is there, and goes with all that needs it. -/
def delete (s : Store N) (k : K) : Option (Store N) :=
  if k ∈ s.keys then
    some
      { objects := s.objects.filter (Spared N k ·)
        closed := by
          intro o ho j hj
          obtain ⟨hmem, hspared⟩ := List.mem_filter.mp ho
          obtain ⟨-, hneeds⟩ := of_decide_eq_true hspared
          obtain ⟨p, hp, rfl⟩ := mem_keys.mp (s.closed o hmem j hj)
          refine List.mem_map_of_mem (List.mem_filter.mpr ⟨hp, decide_eq_true ⟨?_, ?_⟩⟩)
          · exact fun hkey => hneeds (hkey ▸ hj)
          · exact fun hk => hneeds (N.trans _ _ _ hk hj) }
  else none

/-! ### What an operation does -/

theorem add_objects {s t : Store N} {o : O} (h : s.add o = some t) :
    t.objects = s.objects ++ [o] := by
  rw [add] at h
  split at h
  · split at h
    · exact absurd h nofun
    · rw [← Option.some.inj h]
      rfl
  · exact absurd h nofun

theorem declare_objects [DecidableEq O] {s t : Store N} {o : O} (hnew : N.key o ∉ s.keys)
    (h : s.declare o = some t) : t.objects = s.objects ++ [o] := by
  have hno : o ∉ s.objects := fun ho => hnew (mem_keys.mpr ⟨o, ho, rfl⟩)
  rw [declare, if_neg hno] at h
  exact add_objects h

theorem put_objects {s t : Store N} {o : O} (hnew : N.key o ∉ s.keys) (h : s.put o = some t) :
    t.objects = s.objects ++ [o] := by
  have hall : s.objects.filter (N.key · ≠ N.key o) = s.objects := by
    refine List.filter_eq_self.mpr fun p hp => decide_eq_true ?_
    exact fun hkey => hnew (mem_keys.mpr ⟨p, hp, hkey⟩)
  rw [put] at h
  split at h
  · rw [← Option.some.inj h]
    exact congrArg (· ++ [o]) hall
  · exact absurd h nofun

theorem delete_missing {s : Store N} {k : K} (h : k ∉ s.keys) : s.delete k = none := if_neg h

theorem delete_objects {s t : Store N} {k : K} (h : s.delete k = some t) :
    t.objects = s.objects.filter (Spared N k ·) := by
  rw [delete] at h
  split at h
  · rw [← Option.some.inj h]
  · exact absurd h nofun

theorem delete_isSome {s : Store N} {k : K} (h : k ∈ s.keys) : ∃ t, s.delete k = some t :=
  ⟨_, if_pos h⟩

end Operations

end Store

/-! ### Scripts -/

/-- `set -e`: the script stops at the first command that fails, be it that it is refused or, at the
    positions in `broken`, for a reason of its own. -/
def runScript {S C : Type} (exec : C → S → Option S) : List C → (ℕ → Bool) → S → S
  | [], _, s => s
  | c :: cs, broken, s =>
    if broken 0 then s
    else
      match exec c s with
      | none => s
      | some t => runScript exec cs (fun i => broken (i + 1)) t

/-- Nothing fails but what is refused. -/
def unbroken : ℕ → Bool := fun _ => false

section Undo

variable {C : Type} {exec : C → Store N → Option (Store N)}

/-- Where the key of the object is new the command can only add the object. -/
def Creates (exec : C → Store N → Option (Store N)) (c : C) (o : O) : Prop :=
  ∀ s t, N.key o ∉ s.keys → exec c s = some t → t.objects = s.objects ++ [o]

/-- A relation between the commands and what they name holds along a script that names something
    with each of them. -/
theorem forall₂_filterMap {B : Type} {R : C → B → Prop} {f : C → Option B}
    (hR : ∀ c b, f c = some b → R c b) {cs : List C} (hcs : ∀ c ∈ cs, (f c).isSome = true) :
    List.Forall₂ R cs (cs.filterMap f) := by
  induction cs with
  | nil => exact List.Forall₂.nil
  | cons c cs ih =>
    obtain ⟨hc, hrest⟩ := List.forall_mem_cons.mp hcs
    obtain ⟨b, hb⟩ := Option.isSome_iff_exists.mp hc
    rw [List.filterMap_cons_some hb]
    exact List.Forall₂.cons (hR c b hb) (ih hrest)

/-- RULE (create): however the script stops, it has created a prefix of its objects. -/
theorem run_creates {cs : List C} {os : List O} (hcs : List.Forall₂ (Creates exec) cs os)
    (broken : ℕ → Bool) (s : Store N) (hnew : ∀ o ∈ os, N.key o ∉ s.keys)
    (hdistinct : (os.map N.key).Nodup) :
    ∃ n, (runScript exec cs broken s).objects = s.objects ++ os.take n := by
  induction hcs generalizing broken s with
  | nil => exact ⟨0, (List.append_nil _).symm⟩
  | @cons c o cs os hc _ ih =>
    rw [runScript]
    split
    · exact ⟨0, (List.append_nil _).symm⟩
    · cases ht : exec c s with
      | none => exact ⟨0, (List.append_nil _).symm⟩
      | some t =>
        rw [List.map_cons, List.nodup_cons] at hdistinct
        have hadd := hc s t (hnew o List.mem_cons_self) ht
        have hnew' : ∀ p ∈ os, N.key p ∉ t.keys := by
          intro p hp hmem
          rw [Store.keys, hadd, List.map_append, List.mem_append] at hmem
          rcases hmem with hmem | hmem
          · exact hnew p (List.mem_cons_of_mem _ hp) hmem
          · exact hdistinct.1 (List.mem_singleton.mp hmem ▸ List.mem_map_of_mem hp)
        obtain ⟨n, hn⟩ := ih (fun i => broken (i + 1)) t hnew' hdistinct.2
        refine ⟨n + 1, ?_⟩
        rw [List.take_succ_cons, List.append_cons, ← hadd]
        exact hn

variable [DecidableEq K]

/-- The command deletes the key. -/
def Deletes (exec : C → Store N → Option (Store N)) (c : C) (k : K) : Prop :=
  ∀ s, exec c s = s.delete k

/-- RULE (delete): the script deletes the keys that are there, up to the first that is missing. -/
theorem run_deletes {cs : List C} {ks : List K} (hcs : List.Forall₂ (Deletes exec) cs ks)
    (hdistinct : ks.Nodup) (hfree : ∀ k ∈ ks, ∀ j ∈ ks, k ∉ N.needs j) (s : Store N) (m : ℕ)
    (hthere : ∀ k ∈ ks.take m, k ∈ s.keys) (hmissing : ∀ k ∈ (ks.drop m).head?, k ∉ s.keys) :
    (runScript exec cs unbroken s).objects =
      s.objects.filter fun o => ∀ k ∈ ks.take m, Store.Spared N k o := by
  induction hcs generalizing s m with
  | nil => simp [runScript]
  | @cons c k cs ks hc _ ih =>
    rw [runScript, if_neg (by simp [unbroken]), hc s]
    cases m with
    | zero =>
      rw [Store.delete_missing (hmissing k rfl)]
      simp
    | succ m =>
      rw [List.nodup_cons] at hdistinct
      obtain ⟨t, ht⟩ := Store.delete_isSome (hthere k List.mem_cons_self)
      have hobj := Store.delete_objects ht
      have hkeys : ∀ j ∈ t.keys, j ∈ s.keys := by
        intro j hj
        obtain ⟨o, ho, rfl⟩ := Store.mem_keys.mp hj
        rw [hobj] at ho
        exact Store.mem_keys.mpr ⟨o, List.mem_of_mem_filter ho, rfl⟩
      have hleft : ∀ j ∈ ks, j ∈ s.keys → j ∈ t.keys := by
        intro j hj hmem
        obtain ⟨o, ho, rfl⟩ := Store.mem_keys.mp hmem
        refine Store.mem_keys.mpr ⟨o, ?_, rfl⟩
        rw [hobj]
        refine List.mem_filter.mpr ⟨ho, decide_eq_true ⟨?_, ?_⟩⟩
        · exact fun hkey => hdistinct.1 (hkey ▸ hj)
        · exact hfree k List.mem_cons_self _ (List.mem_cons_of_mem _ hj)
      have hrest := ih hdistinct.2
        (fun i hi j hj => hfree i (List.mem_cons_of_mem _ hi) j (List.mem_cons_of_mem _ hj)) t m
        (fun j hj => hleft j (List.mem_of_mem_take hj) (hthere j (List.mem_cons_of_mem _ hj)))
        (fun j hj hmem => hmissing j hj (hkeys j hmem))
      rw [ht, List.take_succ_cons]
      refine hrest.trans ?_
      rw [hobj, List.filter_filter]
      refine List.filter_congr fun o _ => ?_
      simp [Bool.and_comm]

/-- Objects that all deletions spare stay where they are, however the script stops. -/
theorem run_deletes_prefix {cs : List C} {ks : List K} (hcs : List.Forall₂ (Deletes exec) cs ks)
    {base : List O} (hbase : ∀ o ∈ base, ∀ k ∈ ks, Store.Spared N k o) (broken : ℕ → Bool)
    (s : Store N) (h : base <+: s.objects) : base <+: (runScript exec cs broken s).objects := by
  induction hcs generalizing broken s with
  | nil => exact h
  | @cons c k cs ks hc _ ih =>
    rw [runScript, hc s]
    split
    · exact h
    · cases ht : s.delete k with
      | none => exact h
      | some t =>
        refine ih (fun o ho j hj => hbase o ho j (List.mem_cons_of_mem _ hj)) _ t ?_
        obtain ⟨rest, hrest⟩ := h
        have hall : base.filter (Store.Spared N k ·) = base :=
          List.filter_eq_self.mpr fun o ho =>
            decide_eq_true (hbase o ho k List.mem_cons_self)
        rw [Store.delete_objects ht, ← hrest, List.filter_append, hall]
        exact List.prefix_append _ _

/-- The keys undo the objects: they are deleted as they are created, none with another, and every
    object goes with one of them. -/
structure Undoes (N : Naming O K) (os : List O) (ks : List K) : Prop where
  distinct : (os.map N.key).Nodup
  order : (os.map N.key).filter (· ∈ ks) = ks
  free : ∀ k ∈ ks, ∀ j ∈ ks, k ∉ N.needs j
  covers : ∀ o ∈ os, ∃ k ∈ ks, ¬ Store.Spared N k o

namespace Undoes

variable {os : List O} {ks : List K} {s : Store N}

theorem keys_nodup (h : Undoes N os ks) : ks.Nodup := h.order ▸ h.distinct.filter _

omit [DecidableEq K] in
/-- Where no key is there, nothing has one of them or needs one. -/
theorem spared (hfresh : ∀ k ∈ ks, k ∉ s.keys) : ∀ o ∈ s.objects, ∀ k ∈ ks, Store.Spared N k o := by
  intro o ho k hk
  constructor
  · rintro rfl
    exact hfresh _ hk (Store.mem_keys.mpr ⟨o, ho, rfl⟩)
  · exact fun hneeds => hfresh k hk (s.closed o ho k hneeds)

theorem new (h : Undoes N os ks) (hfresh : ∀ k ∈ ks, k ∉ s.keys) :
    ∀ o ∈ os, N.key o ∉ s.keys := by
  intro o ho hmem
  obtain ⟨k, hk, hnot⟩ := h.covers o ho
  obtain ⟨p, hp, hkey⟩ := Store.mem_keys.mp hmem
  have hsp := spared hfresh p hp k hk
  rw [Store.Spared, hkey] at hsp
  exact hnot hsp

/-- CORRECT (undo): wherever the creating script stops, the deleting one leads back. -/
theorem undo (h : Undoes N os ks) {creates deletes : List C}
    (hcreates : List.Forall₂ (Creates exec) creates os)
    (hdeletes : List.Forall₂ (Deletes exec) deletes ks) (hfresh : ∀ k ∈ ks, k ∉ s.keys)
    (broken : ℕ → Bool) :
    runScript exec deletes unbroken (runScript exec creates broken s) = s := by
  obtain ⟨n, hn⟩ := run_creates hcreates broken s (h.new hfresh) h.distinct
  -- the keys that were created are the first `m` of those to delete
  obtain ⟨m, hm⟩ : ∃ m, ((os.take n).map N.key).filter (· ∈ ks) = ks.take m := by
    refine ⟨_, List.prefix_iff_eq_take.mp ?_⟩
    conv_rhs => rw [← h.order]
    exact ((List.take_prefix n os).map _).filter _
  have hcreated : ∀ k ∈ ks, k ∈ (runScript exec creates broken s).keys ↔ k ∈ ks.take m := by
    intro k hk
    rw [Store.keys, hn, List.map_append, List.mem_append, ← hm, List.mem_filter]
    constructor
    · rintro (hmem | hmem)
      · exact absurd hmem (hfresh k hk)
      · exact ⟨hmem, decide_eq_true hk⟩
    · exact fun hmem => Or.inr hmem.1
  have hsplit := List.disjoint_take_drop h.keys_nodup (Nat.le_refl m)
  have hdel := run_deletes hdeletes h.keys_nodup h.free (runScript exec creates broken s) m
    (fun k hk => (hcreated k (List.mem_of_mem_take hk)).mpr hk)
    (fun k hk hmem => by
      have hdrop := List.mem_of_mem_head? hk
      exact hsplit ((hcreated k (List.mem_of_mem_drop hdrop)).mp hmem) hdrop)
  refine Store.ext (hdel.trans ?_)
  rw [hn, List.filter_append, List.filter_eq_self.mpr, List.filter_eq_nil_iff.mpr,
    List.append_nil]
  · intro o ho hall
    obtain ⟨k, hk, hnot⟩ := h.covers o (List.mem_of_mem_take ho)
    refine hnot (of_decide_eq_true hall k ((hcreated k hk).mp ?_))
    have hmem : o ∈ (runScript exec creates broken s).objects := by
      rw [hn]
      exact List.mem_append_right _ ho
    by_cases hkey : N.key o = k
    · exact Store.mem_keys.mpr ⟨o, hmem, hkey⟩
    · exact Store.closed _ o hmem k (by_contra fun hneeds => hnot ⟨hkey, hneeds⟩)
  · exact fun o ho => decide_eq_true fun k hk => spared hfresh o ho k (List.mem_of_mem_take hk)

end Undoes

end Undo

end RabbitmqCluster.Schemes
