import Mathlib.Data.Int.Notation
import Mathlib.Data.List.Forall2
import Mathlib.Data.List.Infix

/-! @scheme routing | family:topic headers

    How a binding matches a message. A topic binding compares words: routing key and binding key
    split at their dots, `*` stands for one word and `#` for any number of them. A headers binding
    compares the binding's arguments with the message's headers, all of them or any one, with the
    `x-` arguments or without. -/

namespace RabbitmqCluster.Schemes

/-- A value in a header or argument table; the types not named here by their encoding. -/
inductive Value where
  | str (s : String)
  | int (n : ℤ)
  | bool (b : Bool)
  | void
  | other (encoding : List ℕ)
  deriving DecidableEq

/-- A header or argument table. -/
abbrev Table := List (String × Value)

def Value.text : Value → Option String
  | .str s => some s
  | _ => none

def Value.number : Value → Option ℤ
  | .int n => some n
  | _ => none

namespace Topic

/-- The words of a routing key; the empty key has none. -/
def words (key : String) : List (List Char) :=
  if key = "" then [] else key.toList.splitOn '.'

/-- The word `*`: exactly one word. -/
def star : List Char := ['*']

/-- The word `#`: any number of words. -/
def hash : List Char := ['#']

def matchWords : List (List Char) → List (List Char) → Bool
  | [], ws => ws.isEmpty
  | p :: ps, ws =>
    if p = hash then ws.tails.any (matchWords ps)
    else match ws with
      | [] => false
      | w :: ws => (p = star || p = w) && matchWords ps ws

/-- The binding key `pattern` matches the routing key. -/
def topicMatch (pattern key : String) : Bool := matchWords (words pattern) (words key)

theorem words_injective : Function.Injective words := by
  intro k l h
  unfold words at h
  split at h
  · split at h
    · next hk hl => rw [hk, hl]
    · exact absurd h.symm (List.splitOn_ne_nil _ _)
  · split at h
    · exact absurd h (List.splitOn_ne_nil _ _)
    · have hlist := congrArg (List.intercalate ['.']) h
      rw [List.intercalate_splitOn, List.intercalate_splitOn] at hlist
      exact String.toList_injective hlist

@[simp] theorem matchWords_hash (ws : List (List Char)) : matchWords [hash] ws = true := by
  simp only [matchWords, if_true, List.any_eq_true, List.mem_tails]
  exact ⟨[], List.nil_suffix, rfl⟩

/-- A pattern without wildcards matches its own words only. -/
theorem matchWords_literal : ∀ {ps ws : List (List Char)}, star ∉ ps → hash ∉ ps →
    (matchWords ps ws = true ↔ ws = ps)
  | [], ws, _, _ => by simp [matchWords]
  | p :: ps, ws, hs, hh => by
    rw [List.mem_cons, not_or] at hs hh
    have hstar : p ≠ star := fun heq => hs.1 heq.symm
    have hhash : p ≠ hash := fun heq => hh.1 heq.symm
    cases ws with
    | nil => simp [matchWords, hhash]
    | cons w ws =>
      have ih : matchWords ps ws = true ↔ ws = ps := matchWords_literal hs.2 hh.2
      simp only [matchWords, hhash, hstar, if_false, decide_false, Bool.false_or,
        Bool.and_eq_true, decide_eq_true_eq, ih, List.cons.injEq]
      exact and_congr_left fun _ => eq_comm

/-- A pattern without `#` matches word by word. -/
theorem matchWords_fixed : ∀ {ps ws : List (List Char)}, hash ∉ ps →
    (matchWords ps ws = true ↔ List.Forall₂ (fun p w => p = star ∨ p = w) ps ws)
  | [], ws, _ => by
    rw [matchWords, List.isEmpty_iff, List.forall₂_nil_left_iff]
  | p :: ps, ws, hh => by
    rw [List.mem_cons, not_or] at hh
    have hhash : p ≠ hash := fun heq => hh.1 heq.symm
    cases ws with
    | nil => simp [matchWords, hhash, List.forall₂_nil_right_iff]
    | cons w ws =>
      have ih : matchWords ps ws = true ↔ List.Forall₂ (fun p w => p = star ∨ p = w) ps ws :=
        matchWords_fixed hh.2
      simp only [matchWords, hhash, if_false, Bool.and_eq_true, Bool.or_eq_true,
        decide_eq_true_eq, ih, List.forall₂_cons]

theorem topicMatch_hash (key : String) : topicMatch "#" key = true :=
  matchWords_hash _

theorem topicMatch_literal {pattern key : String} (hs : star ∉ words pattern)
    (hh : hash ∉ words pattern) : topicMatch pattern key = true ↔ key = pattern := by
  rw [topicMatch, matchWords_literal hs hh]
  exact words_injective.eq_iff

end Topic

namespace Headers

/-- How many of its arguments a headers binding wants matched, and whether `x-` ones count. -/
structure Mode where
  all : Bool
  withX : Bool

/-- The argument `x-match`; a binding without it wants all. -/
def mode (args : Table) : Mode :=
  match args.lookup "x-match" with
  | some (.str "any") => ⟨false, false⟩
  | some (.str "any-with-x") => ⟨false, true⟩
  | some (.str "all-with-x") => ⟨true, true⟩
  | _ => ⟨true, false⟩

/-- The arguments that are compared. -/
def compared (args : Table) : Table :=
  args.filter fun kv => kv.1 ≠ "x-match" && ((mode args).withX || !"x-".isPrefixOf kv.1)

/-- One argument against the headers; a void argument asks only for presence. -/
def holds (headers : Table) (kv : String × Value) : Bool :=
  match headers.lookup kv.1 with
  | some v => kv.2 = .void || kv.2 = v
  | none => false

/-- The arguments of a headers binding match the headers of a message. -/
def headersMatch (args headers : Table) : Bool :=
  if (mode args).all then (compared args).all (holds headers)
  else (compared args).any (holds headers)

/-- An `any` binding asks for one of its headers, if none of them is an `x-` one. -/
theorem headersMatch_any {kvs : Table}
    (h : ∀ kv ∈ kvs, kv.1 ≠ "x-match" ∧ "x-".isPrefixOf kv.1 = false ∧ kv.2 ≠ .void)
    (headers : Table) : headersMatch (("x-match", .str "any") :: kvs) headers = true ↔
      ∃ kv ∈ kvs, headers.lookup kv.1 = some kv.2 := by
  have hmode : mode (("x-match", .str "any") :: kvs) = ⟨false, false⟩ := by
    simp [mode]
  have hcomp : compared (("x-match", .str "any") :: kvs) = kvs := by
    rw [compared, hmode, List.filter_cons_of_neg (by simp)]
    refine List.filter_eq_self.mpr fun kv hkv => ?_
    obtain ⟨hmatch, hprefix, -⟩ := h kv hkv
    simp [hmatch, hprefix]
  have hholds : ∀ kv ∈ kvs, holds headers kv = true ↔ headers.lookup kv.1 = some kv.2 := by
    intro kv hkv
    obtain ⟨-, -, hvoid⟩ := h kv hkv
    rw [holds]
    cases headers.lookup kv.1 with
    | none => simp
    | some v => simp [hvoid, eq_comm]
  rw [headersMatch, hmode, hcomp]
  simp only [Bool.false_eq_true, if_false, List.any_eq_true]
  exact exists_congr fun kv => and_congr_right fun hkv => hholds kv hkv

/-- An `any-with-x` binding with one argument asks for that header. -/
theorem headersMatch_single {k : String} {v : Value} (hk : k ≠ "x-match") (hv : v ≠ .void)
    (headers : Table) :
    headersMatch [("x-match", .str "any-with-x"), (k, v)] headers = true ↔
      headers.lookup k = some v := by
  have hmode : mode [("x-match", .str "any-with-x"), (k, v)] = ⟨false, true⟩ := by
    simp [mode]
  have hcomp : compared [("x-match", .str "any-with-x"), (k, v)] = [(k, v)] := by
    simp [compared, hmode, hk]
  rw [headersMatch, hmode, hcomp]
  cases hl : headers.lookup k with
  | none => simp [holds, hl]
  | some w => simp [holds, hl, hv, eq_comm]

end Headers

end RabbitmqCluster.Schemes
