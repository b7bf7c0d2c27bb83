import Mathlib.Data.Nat.Notation
import Mathlib.Data.List.Infix

/-! @scheme pattern | family:regular-expression

    The PCRE patterns that name objects in policies and permissions, as far as such patterns go:
    literals, `.`, groups, alternatives, `*`, `+`, `?`, `^`, `$` and negative look-ahead. `parse`
    reads the text of a pattern, `ends` lists the places where a match that begins at one place can
    end, and a pattern matches a name if it matches anywhere in it. -/

namespace RabbitmqCluster.Schemes

inductive Pattern where
  | empty
  | char (c : Char)
  | any
  | bol
  | eol
  | seq (p q : Pattern)
  | alt (p q : Pattern)
  | star (p : Pattern)
  | notAhead (p : Pattern)
  deriving DecidableEq

namespace Pattern

/-- A place in the subject: whether it is its start, and what is left of it. -/
structure Place where
  start : Bool
  rest : List Char
  deriving DecidableEq

/-- One character further, if it passes the test. -/
def Place.step (ok : Char → Bool) : Place → List Place
  | ⟨_, []⟩ => []
  | ⟨_, c :: rest⟩ => if ok c then [⟨false, rest⟩] else []

/-- Any number of rounds, each of which consumes something. -/
def rounds (f : Place → List Place) : ℕ → Place → List Place
  | 0, s => [s]
  | n + 1, s => s :: ((f s).filter (·.rest.length < s.rest.length)).flatMap (rounds f n)

/-- Where a match that begins at the place can end. -/
def ends : Pattern → Place → List Place
  | empty => fun s => [s]
  | char c => Place.step (· = c)
  | any => Place.step (· ≠ '\n')
  | bol => fun s => if s.start then [s] else []
  | eol => fun s => if s.rest = [] ∨ s.rest = ['\n'] then [s] else []
  | seq p q => fun s => (ends p s).flatMap (ends q)
  | alt p q => fun s => ends p s ++ ends q s
  | star p => fun s => rounds (ends p) s.rest.length s
  | notAhead p => fun s => if (ends p s).isEmpty then [s] else []

/-- The places of a subject, its start first. -/
def places (subject : List Char) : List Place :=
  ⟨true, subject⟩ :: subject.tails.tail.map (⟨false, ·⟩)

/-- The pattern matches somewhere in the subject. -/
def search (p : Pattern) (subject : List Char) : Bool :=
  (places subject).any fun s => !(ends p s).isEmpty

inductive Token where
  | lit (c : Char)
  | any
  | bol
  | eol
  | star
  | plus
  | opt
  | bar
  | group
  | groupNotAhead
  | groupEnd
  | unsupported
  deriving DecidableEq

def tokens : List Char → List Token
  | [] => []
  | '\\' :: c :: cs => .lit c :: tokens cs
  | '(' :: '?' :: '!' :: cs => .groupNotAhead :: tokens cs
  | c :: cs =>
    (match c with
      | '(' => .group
      | ')' => .groupEnd
      | '|' => .bar
      | '.' => .any
      | '^' => .bol
      | '$' => .eol
      | '*' => .star
      | '+' => .plus
      | '?' => .opt
      | '[' | ']' | '{' | '}' | '\\' => .unsupported
      | c => .lit c) :: tokens cs

/-- An open group: the finished alternatives and the items of the current one, newest first. -/
structure Frame where
  negative : Bool
  alternatives : List Pattern
  items : List Pattern

def Frame.fresh (negative : Bool) : Frame := ⟨negative, [], []⟩

def sequence : List Pattern → Pattern
  | [] => empty
  | [p] => p
  | p :: ps => seq (sequence ps) p

/-- The pattern of a group that is closed now. -/
def Frame.pattern (f : Frame) : Pattern :=
  let body := f.alternatives.foldl (fun q p => alt p q) (sequence f.items)
  if f.negative then notAhead body else body

def Frame.push (f : Frame) (p : Pattern) : Frame := { f with items := p :: f.items }

/-- A postfix operator takes the newest item. -/
def Frame.onLast (f : Frame) (op : Pattern → Pattern) : Option Frame :=
  match f.items with
  | [] => none
  | p :: ps => some { f with items := op p :: ps }

def read : List Frame → Token → Option (List Frame)
  | f :: fs, .lit c => some (f.push (char c) :: fs)
  | f :: fs, .any => some (f.push any :: fs)
  | f :: fs, .bol => some (f.push bol :: fs)
  | f :: fs, .eol => some (f.push eol :: fs)
  | f :: fs, .star => (f.onLast star).map (· :: fs)
  | f :: fs, .plus => (f.onLast fun p => seq p (star p)).map (· :: fs)
  | f :: fs, .opt => (f.onLast fun p => alt p empty).map (· :: fs)
  | f :: fs, .bar => some (⟨f.negative, sequence f.items :: f.alternatives, []⟩ :: fs)
  | fs, .group => some (Frame.fresh false :: fs)
  | fs, .groupNotAhead => some (Frame.fresh true :: fs)
  | f :: g :: fs, .groupEnd => some (g.push f.pattern :: fs)
  | _, _ => none

/-- The pattern that a text denotes; `none` for a text outside the fragment. -/
def parse (text : String) : Option Pattern :=
  match (tokens text.toList).foldlM read [Frame.fresh false] with
  | some [f] => some f.pattern
  | _ => none

/-- The name is matched by the pattern of this text. -/
def isMatch (text name : String) : Bool :=
  match parse text with
  | some p => p.search name.toList
  | none => false

/-- A star can stop where it is. -/
theorem mem_rounds (f : Place → List Place) (n : ℕ) (s : Place) : s ∈ rounds f n s := by
  cases n with
  | zero => exact List.mem_singleton_self s
  | succ n => exact List.mem_cons_self

/-- A starred pattern is found in every subject, at its start. -/
theorem search_star (p : Pattern) (subject : List Char) : search (star p) subject = true := by
  have hmem := mem_rounds (ends p) subject.length ⟨true, subject⟩
  have hend : (ends (star p) ⟨true, subject⟩).isEmpty = false :=
    List.isEmpty_eq_false_iff.mpr (List.ne_nil_of_mem hmem)
  simp [search, places, hend]

theorem isMatch_star {text : String} {p : Pattern} (h : parse text = some (star p))
    (name : String) : isMatch text name = true := by
  rw [isMatch, h]
  exact search_star p name.toList

example : isMatch "(^(?!amq.|events)(.+)$)" "requests" = true ∧
    isMatch "(^(?!amq.|events)(.+)$)" "events.log" = false := by decide +kernel

end Pattern

end RabbitmqCluster.Schemes
