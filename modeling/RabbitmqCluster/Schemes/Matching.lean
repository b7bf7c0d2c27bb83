import RabbitmqCluster.Schemes.Pattern

/-! @scheme matching | family:regular-expression

    What a match says about the subject. A match that begins at one place and ends at another has
    consumed the characters between them (one `mem_ends_` lemma for each constructor), so a literal
    fits where the rest begins with it, and a searched literal is found in the subjects that contain
    it (`isMatch_literal`). A trailing star asks for nothing, and a pattern that begins with `^` is
    only tried at the start.

        ⟨start, c₁ c₂ … cₙ⟩ ─ c₁ ─▶ ⟨·, c₂ … cₙ⟩ ─ c₂ ─▶ … ─ cₙ ─▶ ⟨·, ε⟩ -/

namespace RabbitmqCluster.Schemes.Pattern

variable {p q : Pattern} {ps : List Pattern} {s t : Place} {subject cs : List Char} {c : Char}

/-- Some match of the pattern begins at the place. -/
def Fits (p : Pattern) (s : Place) : Prop := ∃ t, t ∈ ends p s

/-- The items of a literal, newest first as they are read. -/
def letters (cs : List Char) : List Pattern := cs.reverse.map char

/-- The pattern of a literal. -/
def literal (cs : List Char) : Pattern := sequence (letters cs)

-- `simp` unfolds a match by the constructor of the pattern.
attribute [local simp] Place.step ends sequence

/-! ### One constructor -/

theorem mem_step {ok : Char → Bool} :
    t ∈ Place.step ok s ↔ ∃ c, ok c = true ∧ s.rest = c :: t.rest ∧ t.start = false := by
  obtain ⟨b, rest⟩ := s
  obtain ⟨b', rest'⟩ := t
  cases rest with
  | nil => simp
  | cons d ds =>
    by_cases hd : ok d = true
    · simp only [Place.step, hd, if_true, List.mem_singleton, Place.mk.injEq, List.cons.injEq]
      constructor
      · rintro ⟨rfl, rfl⟩
        exact ⟨d, hd, ⟨rfl, rfl⟩, rfl⟩
      · rintro ⟨c, -, ⟨-, rfl⟩, rfl⟩
        exact ⟨rfl, rfl⟩
    · rw [Place.step, if_neg hd]
      constructor
      · exact nofun
      · rintro ⟨c, hc, heq, -⟩
        rw [List.cons.injEq] at heq
        exact absurd (heq.1 ▸ hc) hd

theorem mem_ends_char : t ∈ ends (char c) s ↔ s.rest = c :: t.rest ∧ t.start = false := by
  rw [ends, mem_step]
  simp

theorem mem_ends_any :
    t ∈ ends any s ↔ ∃ c, c ≠ '\n' ∧ s.rest = c :: t.rest ∧ t.start = false := by
  rw [ends, mem_step]
  simp

theorem fits_any : Fits any s ↔ ∃ c rest, c ≠ '\n' ∧ s.rest = c :: rest := by
  constructor
  · rintro ⟨t, ht⟩
    obtain ⟨c, hc, hrest, -⟩ := mem_ends_any.mp ht
    exact ⟨c, t.rest, hc, hrest⟩
  · rintro ⟨c, rest, hc, hrest⟩
    exact ⟨⟨false, rest⟩, mem_ends_any.mpr ⟨c, hc, hrest, rfl⟩⟩

theorem mem_ends_bol : t ∈ ends bol s ↔ s.start = true ∧ t = s := by
  simp only [ends, List.mem_ite_nil_right, List.mem_singleton]

theorem mem_ends_eol : t ∈ ends eol s ↔ (s.rest = [] ∨ s.rest = ['\n']) ∧ t = s := by
  simp only [ends, List.mem_ite_nil_right, List.mem_singleton]

theorem mem_ends_seq : t ∈ ends (seq p q) s ↔ ∃ u ∈ ends p s, t ∈ ends q u := List.mem_flatMap

theorem mem_ends_alt : t ∈ ends (alt p q) s ↔ t ∈ ends p s ∨ t ∈ ends q s := List.mem_append

theorem fits_alt : Fits (alt p q) s ↔ Fits p s ∨ Fits q s := by
  simp only [Fits, mem_ends_alt, exists_or]

theorem ends_isEmpty : (ends p s).isEmpty = true ↔ ¬ Fits p s := by
  rw [List.isEmpty_iff, List.eq_nil_iff_forall_not_mem, Fits, not_exists]

theorem mem_ends_notAhead : t ∈ ends (notAhead p) s ↔ ¬ Fits p s ∧ t = s := by
  simp only [ends, List.mem_ite_nil_right, List.mem_singleton, ends_isEmpty]

/-! ### Stars -/

theorem fits_star : Fits (star p) s := ⟨s, mem_rounds _ _ s⟩

theorem fits_seq_star : Fits (seq p (star q)) s ↔ Fits p s := by
  constructor
  · rintro ⟨t, ht⟩
    obtain ⟨u, hu, -⟩ := mem_ends_seq.mp ht
    exact ⟨u, hu⟩
  · rintro ⟨u, hu⟩
    exact ⟨u, mem_ends_seq.mpr ⟨u, hu, mem_rounds _ _ u⟩⟩

/-- A round that consumes something may be followed by more of them. -/
theorem rounds_step {f : Place → List Place} {n : ℕ} {u : Place} (hu : u ∈ f s)
    (hlt : u.rest.length < s.rest.length) (ht : t ∈ rounds f n u) : t ∈ rounds f (n + 1) s :=
  List.mem_cons_of_mem _ (List.mem_flatMap.mpr ⟨u, List.mem_filter.mpr ⟨hu, by simpa⟩, ht⟩)

/-- `.*` can run to the end of the line. -/
theorem any_to_end (b : Bool) (h : '\n' ∉ cs) : ∃ t ∈ ends (star any) ⟨b, cs⟩, t.rest = [] := by
  induction cs generalizing b with
  | nil => exact ⟨⟨b, []⟩, mem_rounds _ _ _, rfl⟩
  | cons d ds ih =>
    rw [List.mem_cons, not_or] at h
    obtain ⟨t, ht, hend⟩ := ih false h.2
    have hone : (⟨false, ds⟩ : Place) ∈ ends any ⟨b, d :: ds⟩ :=
      mem_ends_any.mpr ⟨d, Ne.symm h.1, rfl, rfl⟩
    exact ⟨t, rounds_step hone (Nat.lt_succ_self _) ht, hend⟩

/-- `.+` can run to the end of a line that is not empty. -/
theorem some_to_end (b : Bool) (hne : cs ≠ []) (h : '\n' ∉ cs) :
    ∃ t ∈ ends (seq any (star any)) ⟨b, cs⟩, t.rest = [] := by
  obtain ⟨d, ds, rfl⟩ := List.exists_cons_of_ne_nil hne
  rw [List.mem_cons, not_or] at h
  obtain ⟨t, ht, hend⟩ := any_to_end false h.2
  exact ⟨t, mem_ends_seq.mpr ⟨⟨false, ds⟩, mem_ends_any.mpr ⟨d, Ne.symm h.1, rfl, rfl⟩, ht⟩, hend⟩

/-! ### Sequences -/

theorem mem_ends_cons :
    t ∈ ends (sequence (p :: ps)) s ↔ ∃ u ∈ ends (sequence ps) s, t ∈ ends p u := by
  cases ps with
  | nil => simp
  | cons q qs => rw [sequence, mem_ends_seq]; exact nofun

theorem fits_cons : Fits (sequence (p :: ps)) s ↔ ∃ u ∈ ends (sequence ps) s, Fits p u := by
  simp only [Fits, mem_ends_cons]
  constructor
  · rintro ⟨t, u, hu, ht⟩
    exact ⟨u, hu, t, ht⟩
  · rintro ⟨u, hu, t, ht⟩
    exact ⟨t, u, hu, ht⟩

theorem fits_cons_star : Fits (sequence (star p :: ps)) s ↔ Fits (sequence ps) s := by
  rw [fits_cons]
  constructor
  · rintro ⟨u, hu, -⟩
    exact ⟨u, hu⟩
  · rintro ⟨u, hu⟩
    exact ⟨u, hu, fits_star⟩

/-- A `^` in front holds the other items at the start. -/
theorem mem_ends_append_bol :
    t ∈ ends (sequence (ps ++ [bol])) s ↔ s.start = true ∧ t ∈ ends (sequence ps) s := by
  induction ps generalizing t with
  | nil =>
    have hbol : sequence ([] ++ [bol]) = bol := rfl
    rw [hbol, mem_ends_bol]
    simp
  | cons p ps ih =>
    rw [List.cons_append, mem_ends_cons, mem_ends_cons]
    constructor
    · rintro ⟨u, hu, ht⟩
      exact ⟨(ih.mp hu).1, u, (ih.mp hu).2, ht⟩
    · rintro ⟨hstart, u, hu, ht⟩
      exact ⟨u, ih.mpr ⟨hstart, hu⟩, ht⟩

/-- A literal after other items: it consumes its own characters. -/
theorem mem_ends_letters :
    t ∈ ends (sequence (letters cs ++ ps)) s ↔
      ∃ u ∈ ends (sequence ps) s, u.rest = cs ++ t.rest ∧ t.start = (u.start && cs.isEmpty) := by
  induction cs using List.reverseRecOn generalizing t with
  | nil =>
    obtain ⟨b, rest⟩ := t
    constructor
    · intro h
      exact ⟨⟨b, rest⟩, h, rfl, (Bool.and_true b).symm⟩
    · rintro ⟨⟨b', rest'⟩, hu, rfl, hb⟩
      rwa [show b = b' from hb.trans (Bool.and_true b')]
  | append_singleton cs c ih =>
    have hcons : letters (cs ++ [c]) ++ ps = char c :: (letters cs ++ ps) := by simp [letters]
    rw [hcons, mem_ends_cons]
    constructor
    · rintro ⟨v, hv, ht⟩
      obtain ⟨u, hu, hrest, -⟩ := ih.mp hv
      rw [mem_ends_char] at ht
      exact ⟨u, hu, by rw [hrest, ht.1, List.append_assoc]; rfl, by simp [ht.2]⟩
    · rintro ⟨u, hu, hrest, hstart⟩
      refine ⟨⟨u.start && cs.isEmpty, c :: t.rest⟩, ih.mpr ⟨u, hu, ?_, rfl⟩, ?_⟩
      · rw [hrest, List.append_assoc]; rfl
      · exact mem_ends_char.mpr ⟨rfl, by simp [hstart]⟩

theorem mem_ends_literal :
    t ∈ ends (literal cs) s ↔ s.rest = cs ++ t.rest ∧ t.start = (s.start && cs.isEmpty) := by
  rw [literal, ← List.append_nil (letters cs), mem_ends_letters]
  simp

theorem fits_letters :
    Fits (sequence (letters cs ++ ps)) s ↔ ∃ u ∈ ends (sequence ps) s, cs <+: u.rest := by
  constructor
  · rintro ⟨t, ht⟩
    obtain ⟨u, hu, hrest, -⟩ := mem_ends_letters.mp ht
    exact ⟨u, hu, t.rest, hrest.symm⟩
  · rintro ⟨u, hu, rest, hrest⟩
    exact ⟨⟨u.start && cs.isEmpty, rest⟩, mem_ends_letters.mpr ⟨u, hu, hrest.symm, rfl⟩⟩

theorem fits_literal : Fits (literal cs) s ↔ cs <+: s.rest := by
  constructor
  · rintro ⟨t, ht⟩
    exact ⟨t.rest, (mem_ends_literal.mp ht).1.symm⟩
  · rintro ⟨rest, hrest⟩
    exact ⟨⟨s.start && cs.isEmpty, rest⟩, mem_ends_literal.mpr ⟨hrest.symm, rfl⟩⟩

/-! ### Searching -/

theorem mem_places :
    s ∈ places subject ↔ ∃ pre, subject = pre ++ s.rest ∧ s.start = pre.isEmpty := by
  obtain ⟨b, rest⟩ := s
  cases subject with
  | nil =>
    simp only [places, List.tails, List.tail_cons, List.map_nil, List.mem_singleton]
    constructor
    · intro h
      obtain ⟨rfl, rfl⟩ := Place.mk.inj h
      exact ⟨[], rfl, rfl⟩
    · rintro ⟨pre, hsub, hstart⟩
      obtain ⟨rfl, rfl⟩ := List.append_eq_nil_iff.mp hsub.symm
      rw [show b = true from hstart]
  | cons c cs =>
    simp only [places, List.tails_cons, List.tail_cons, List.mem_cons, List.mem_map,
      List.mem_tails, Place.mk.injEq]
    constructor
    · rintro (⟨rfl, rfl⟩ | ⟨r, ⟨pre, rfl⟩, rfl, rfl⟩)
      · exact ⟨[], rfl, rfl⟩
      · exact ⟨c :: pre, rfl, rfl⟩
    · rintro ⟨pre, hsub, hstart⟩
      cases pre with
      | nil => exact Or.inl ⟨hstart, hsub.symm⟩
      | cons d pre =>
        obtain ⟨rfl, rfl⟩ := List.cons.inj hsub
        exact Or.inr ⟨rest, ⟨pre, rfl⟩, hstart.symm, rfl⟩

theorem search_iff : search p subject = true ↔
    ∃ pre rest, subject = pre ++ rest ∧ Fits p ⟨pre.isEmpty, rest⟩ := by
  simp only [search, List.any_eq_true, Bool.not_eq_true', ← Bool.not_eq_true, ends_isEmpty,
    not_not, mem_places]
  constructor
  · rintro ⟨⟨b, rest⟩, ⟨pre, hsub, hstart⟩, hfit⟩
    exact ⟨pre, rest, hsub, hstart ▸ hfit⟩
  · rintro ⟨pre, rest, hsub, hfit⟩
    exact ⟨⟨pre.isEmpty, rest⟩, ⟨pre, hsub, rfl⟩, hfit⟩

/-- A star at the end of a pattern asks for nothing. -/
theorem search_cons_star :
    search (sequence (star p :: ps)) subject = true ↔ search (sequence ps) subject = true := by
  simp only [search_iff, fits_cons_star]

/-- A pattern with a `^` in front is searched at the start. -/
theorem search_append_bol :
    search (sequence (ps ++ [bol])) subject = true ↔ Fits (sequence ps) ⟨true, subject⟩ := by
  rw [search_iff]
  constructor
  · rintro ⟨pre, rest, rfl, t, ht⟩
    obtain ⟨hstart, hmem⟩ := mem_ends_append_bol.mp ht
    have hpre : pre = [] := List.isEmpty_iff.mp hstart
    subst hpre
    exact ⟨t, hmem⟩
  · rintro ⟨t, ht⟩
    exact ⟨[], subject, rfl, t, mem_ends_append_bol.mpr ⟨rfl, ht⟩⟩

/-- A pattern that asks about the rest only is searched in the suffixes. -/
theorem search_of_rest (P : List Char → Prop) (h : ∀ s, Fits p s ↔ P s.rest) :
    search p subject = true ↔ ∃ rest, P rest ∧ rest <:+ subject := by
  rw [search_iff]
  constructor
  · rintro ⟨pre, rest, rfl, hfit⟩
    exact ⟨rest, (h _).mp hfit, pre, rfl⟩
  · rintro ⟨rest, hP, pre, rfl⟩
    exact ⟨pre, rest, rfl, (h _).mpr hP⟩

theorem search_literal : search (literal cs) subject = true ↔ cs <:+: subject := by
  rw [search_of_rest (cs <+: ·) fun _ => fits_literal, List.infix_iff_prefix_suffix]

theorem isMatch_iff {text name : String} (h : parse text = some p) :
    isMatch text name = true ↔ search p name.toList = true := by
  rw [isMatch, h]

/-- RULE (literal): a literal pattern matches the names that contain it. -/
theorem isMatch_literal {text name : String} (h : parse text = some (literal cs)) :
    isMatch text name = true ↔ cs <:+: name.toList :=
  (isMatch_iff h).trans search_literal

end RabbitmqCluster.Schemes.Pattern
