import RabbitmqCluster.Clients.Cleanup
import RabbitmqCluster.Schemes.Matching

/-! @src clients setup.sh | scheme:matching | family:selection

    What the four users of the clients may do: each has one pattern, for one operation, which names
    one resource with its dot escaped. But the pattern is searched in the name and not anchored, so
    the publisher may also write to `team.my.exchange.v2` (`longer_name_granted`). A user is
    confined to the resource exactly among the names that do not contain it (`confined_iff`). -/

namespace RabbitmqCluster.Clients

open RabbitmqCluster.Schemes Pattern

inductive Operation where | configure | write | read
  deriving DecidableEq

def Permission.pattern (p : Permission) : Operation → String
  | .configure => p.configure
  | .write => p.write
  | .read => p.read

/-- The broker searches the pattern in the name; an empty pattern is for the empty name. -/
def Permission.grants (p : Permission) (op : Operation) (name : String) : Bool :=
  if p.pattern op = "" then name = "" else isMatch (p.pattern op) name

/-- The permission that the script sets last. -/
def permissionSet (script : List Command) (v user : String) : Option Permission :=
  script.foldl
    (fun found c =>
      match c with
      | .setPermissions v' user' p => if v' = v ∧ user' = user then some p else found
      | _ => found)
    none

inductive Client where | publisher | consumer | publishStream | consumeStream
  deriving DecidableEq

namespace Client

def user : Client → String
  | publisher => "publisher"
  | consumer => "consumer"
  | publishStream => "publish_stream"
  | consumeStream => "consume_stream"

/-- What the client does. -/
def operation : Client → Operation
  | publisher | publishStream => .write
  | consumer | consumeStream => .read

/-- What it does this with. -/
def resource : Client → String
  | publisher => myExchange.name
  | consumer => myQueue.name
  | publishStream | consumeStream => myStream.name

/-- `setup.sh` lets the user do this. -/
def granted (c : Client) (op : Operation) (name : String) : Bool :=
  match permissionSet setup vhost c.user with
  | some p => p.grants op name
  | none => false

/-- The user may do this if and only if it is the client's operation on its resource. -/
def Confined (c : Client) (op : Operation) (name : String) : Prop :=
  c.granted op name = true ↔ op = c.operation ∧ name = c.resource

theorem longer_name_granted : ¬ ∀ (c : Client) (op : Operation) (name : String),
    c.Confined op name := by
  intro hall
  have hgranted : publisher.granted .write "team.my.exchange.v2" = true := by decide +kernel
  exact absurd ((hall _ _ _).mp hgranted).2 (by decide)

/-! ### The patterns -/

/-- The one pattern of a user is the literal name of the resource. -/
theorem pattern_own (c : Client) : ∃ p, permissionSet setup vhost c.user = some p ∧
    p.pattern c.operation ≠ "" ∧
      parse (p.pattern c.operation) = some (literal c.resource.toList) := by
  cases c with
  | publisher => exact ⟨_, rfl, by decide, by decide +kernel⟩
  | consumer => exact ⟨_, rfl, by decide, by decide +kernel⟩
  | publishStream => exact ⟨_, rfl, by decide, by decide +kernel⟩
  | consumeStream => exact ⟨_, rfl, by decide, by decide +kernel⟩

theorem pattern_other (c : Client) {op : Operation} (hop : op ≠ c.operation) :
    ∃ p, permissionSet setup vhost c.user = some p ∧ p.pattern op = "" := by
  cases c <;> cases op <;> first
    | exact absurd rfl hop
    | exact ⟨_, rfl, rfl⟩

/-- The operation of the client is granted on every name that contains the resource. -/
theorem granted_own (c : Client) (name : String) :
    c.granted c.operation name = true ↔ c.resource.toList <:+: name.toList := by
  obtain ⟨p, hp, hne, hparse⟩ := c.pattern_own
  rw [granted, hp]
  simp only [Permission.grants, if_neg hne]
  exact isMatch_literal hparse

theorem granted_other (c : Client) {op : Operation} (hop : op ≠ c.operation) (name : String) :
    c.granted op name = true ↔ name = "" := by
  obtain ⟨p, hp, hempty⟩ := c.pattern_other hop
  rw [granted, hp]
  simp only [Permission.grants, if_pos hempty, decide_eq_true_eq]

/-! ### The law -/

/-- CORRECT: a user is confined to its resource if and only if the name does not contain that of the
    resource, other than being it, and is not empty where it is about another operation. -/
theorem confined_iff (c : Client) (op : Operation) (name : String) : c.Confined op name ↔
    (op = c.operation → c.resource.toList <:+: name.toList → name = c.resource) ∧
      (op ≠ c.operation → name ≠ "") := by
  by_cases hop : op = c.operation
  · subst hop
    rw [Confined, granted_own]
    constructor
    · intro h
      exact ⟨fun _ hinfix => (h.mp hinfix).2, fun hne => absurd rfl hne⟩
    · rintro ⟨hname, -⟩
      refine ⟨fun hinfix => ⟨rfl, hname rfl hinfix⟩, ?_⟩
      rintro ⟨-, rfl⟩
      exact List.infix_refl _
  · rw [Confined, c.granted_other hop]
    constructor
    · intro h
      exact ⟨fun heq => absurd heq hop, fun _ hempty => hop (h.mp hempty).1⟩
    · rintro ⟨-, hname⟩
      exact ⟨fun hempty => absurd hempty (hname hop), fun h => absurd h.1 hop⟩

/-! ### On the broker -/

theorem created_permission (c : Client) : ∀ o ∈ created, o.key = .permission vhost c.user →
    some o = (permissionSet setup vhost c.user).map (.permission vhost c.user) := by
  cases c <;> decide

theorem user_created (c : Client) : Key.user c.user ∈ sevenNames := by
  cases c <;> decide

/-- A permission of a client that the broker has after `setup.sh` is the one that the script sets
    last, if the names were not in use before. -/
theorem permission_afterSetup {s : Definitions} (h : Fresh s) (broken : ℕ → Bool) (c : Client)
    {p : Permission} (hp : .permission vhost c.user p ∈ (afterSetup broken s).objects) :
    permissionSet setup vhost c.user = some p := by
  obtain ⟨n, hn⟩ := run_creates setup_creates broken s (cleanup_order.new h) cleanup_order.distinct
  rw [afterSetup, hn, List.mem_append] at hp
  rcases hp with hp | hp
  · have huser := s.closed _ hp (.user c.user) (by simp [naming, Object.key, Key.needs])
    exact absurd huser (h _ c.user_created)
  · have hset := created_permission c _ (List.mem_of_mem_take hp) rfl
    obtain ⟨q, hq, heq⟩ := Option.map_eq_some_iff.mp hset.symm
    rw [hq, (Object.permission.inj heq).2.2]

end Client

end RabbitmqCluster.Clients
