import RabbitmqCluster.Schemes.Machine
import Mathlib.Logic.Function.Basic
import Mathlib.Data.Fintype.Defs
import Mathlib.Data.Finset.Insert

/-! @src clients/go/consumer.go | scheme:machine | family:shutdown

    The consumer as one machine: `main`, the goroutine of `SetupCloseHandler`, the goroutine
    `handle`, and the client library with the broker behind it. `main` and the signal goroutine run
    the same `Shutdown`, so their program points are one type and its statements are actions of a
    party. `done` is unbuffered: its send and a receive of it are one action (`recv`). A call into
    the library takes effect at one moment; whether it fails is decided by what is open then.

        main, lifetime > 0:   idle ──────▶ cancel ─▶ close ─▶ waitHandle ─▶ ok ─▶ exit
        main, otherwise:      awaitDone ─▶ cancel ...   (a failing call: ─▶ failed ─▶ exit)
        signal goroutine:     idle ──────▶ cancel ...
        handle:               range ⇄ body t
                                └─▶ sending ─▶ finished -/

namespace RabbitmqCluster.Consumer

open RabbitmqCluster.Schemes

/-- The two callers of `Shutdown`. -/
inductive Party where | main | signal
  deriving DecidableEq

instance : Fintype Party where
  elems := {.main, .signal}
  complete p := by cases p <;> decide

/-- The other caller. -/
def Party.other : Party → Party
  | .main => .signal
  | .signal => .main

/-- Program points of a caller of `Shutdown`: in the sleep of `main` or the wait for a signal, in
    the receive of `main` (line 44), at the three statements of `Shutdown` (lines 122, 126 and 133),
    returned `nil`, returned an error. -/
inductive Pc where | idle | awaitDone | cancel | close | waitHandle | ok | failed
  deriving DecidableEq

/-- Program points of `handle`; in `body t` the delivery `t` is counted and not yet acked. -/
inductive HandlePc where
  | range
  | body (t : ℕ)
  | sending
  | finished
  deriving DecidableEq

/-- Status 1 is `ErrLog.Fatalf`. -/
inductive Process where
  | running
  | exited (status : ℕ)
  deriving DecidableEq

/-- The program's state. `buffered` holds the delivery tags the library has not handed to `handle`
    yet. The lists below it record the tags pushed by the broker, counted by `handle`, acked, and
    acked in vain; `cancels` and `closes` count the calls that succeeded, `lateCalls` those made on
    a closed connection. -/
structure State where
  pc : Party → Pc
  handle : HandlePc
  process : Process
  connOpen : Bool
  channelOpen : Bool
  consuming : Bool
  buffered : List ℕ
  pushed : List ℕ
  counted : List ℕ
  acked : List ℕ
  ackFailed : List ℕ
  cancels : ℕ
  closes : ℕ
  lateCalls : ℕ

/-- `main` after `SetupCloseHandler`; `lifetime` is the command-line flag. -/
def init (lifetime : ℤ) : State where
  pc
    | .main => if 0 < lifetime then .idle else .awaitDone
    | .signal => .idle
  handle := .range
  process := .running
  connOpen := true
  channelOpen := true
  consuming := true
  buffered := []
  pushed := []
  counted := []
  acked := []
  ackFailed := []
  cancels := 0
  closes := 0
  lateCalls := 0

/-- The library will put nothing more in the deliveries channel. -/
def State.deliveriesEnded (s : State) : Bool := !s.consuming || !s.channelOpen

/-- The party is blocked in a receive from `done`. -/
def State.waiting (s : State) (p : Party) : Bool := s.pc p = .awaitDone || s.pc p = .waitHandle

/-- One statement of a party, or one event from outside. -/
inductive Act where
  -- broker and library
  | push (t : ℕ)
  | drop
  | serverCancel
  | channelLoss
  | connLoss
  -- handle
  | take (t : ℕ)
  | bodyEnd (t : ℕ)
  | rangeEnd
  -- main and signal goroutine
  | wake
  | sigint
  | recv (p : Party)
  | cancel (p : Party)
  | close (p : Party)
  | fatal (p : Party)
  | exit (p : Party)
  deriving DecidableEq

/-- The statement is the next one of its party and can proceed. -/
def guard (s : State) : Act → Bool
  | .push t => s.consuming && s.channelOpen && s.pushed.all (· < t)
  -- on a close the library may drop what it has not handed over
  | .drop => !s.channelOpen
  | .serverCancel => s.consuming && s.channelOpen
  | .channelLoss => s.channelOpen
  | .connLoss => s.connOpen
  | .take t => s.handle = .range && s.buffered.head? = some t
  | .bodyEnd t => s.handle = .body t
  | .rangeEnd => s.handle = .range && s.buffered = [] && s.deliveriesEnded
  | .wake => s.pc .main = .idle
  | .sigint => s.pc .signal = .idle
  | .recv p => s.handle = .sending && s.waiting p
  | .cancel p => s.pc p = .cancel
  | .close p => s.pc p = .close
  | .fatal p => s.pc p = .failed
  | .exit p => s.pc p = .ok

/-- Nothing steps once the process has ended. -/
def enabled (s : State) (a : Act) : Bool := s.process = .running && guard s a

/-- The party moves on to `c`. -/
def State.goto (s : State) (p : Party) (c : Pc) : State :=
  { s with pc := Function.update s.pc p c }

/-- A call of the party failed: the library returned `ErrClosed`. -/
def State.callFails (s : State) (p : Party) : State :=
  { s.goto p .failed with lateCalls := if s.connOpen then s.lateCalls else s.lateCalls + 1 }

/-- `c.channel.Cancel(c.tag, true)`. -/
def State.cancelCall (s : State) (p : Party) : State :=
  if s.channelOpen then
    { s.goto p .close with consuming := false, cancels := s.cancels + 1 }
  else s.callFails p

/-- `c.conn.Close()`: the channel is closed with its connection. -/
def State.closeCall (s : State) (p : Party) : State :=
  if s.connOpen then
    { s.goto p .waitHandle with
      connOpen := false, channelOpen := false, closes := s.closes + 1 }
  else s.callFails p

/-- `d.Ack(false)`, whose error `handle` ignores. -/
def State.ackCall (s : State) (t : ℕ) : State :=
  if s.channelOpen then { s with acked := s.acked ++ [t] }
  else { s with ackFailed := s.ackFailed ++ [t] }

/-- The receive from `done` returns: `main` goes on to its `Shutdown`, or `Shutdown` returns. -/
def received : Pc → Pc
  | .awaitDone => .cancel
  | _ => .ok

/-- What the action does; `autoAck` is the command-line flag. -/
def next (autoAck : Bool) (s : State) : Act → State
  | .push t => { s with buffered := s.buffered ++ [t], pushed := s.pushed ++ [t] }
  | .drop => { s with buffered := [] }
  | .serverCancel => { s with consuming := false }
  | .channelLoss => { s with channelOpen := false }
  | .connLoss => { s with connOpen := false, channelOpen := false }
  | .take t =>
    { s with handle := .body t, buffered := s.buffered.tail, counted := s.counted ++ [t] }
  | .bodyEnd t => { if autoAck then s else s.ackCall t with handle := .range }
  | .rangeEnd => { s with handle := .sending }
  | .wake => s.goto .main .cancel
  | .sigint => s.goto .signal .cancel
  | .recv p => { s.goto p (received (s.pc p)) with handle := .finished }
  | .cancel p => s.cancelCall p
  | .close p => s.closeCall p
  | .fatal _ => { s with process := .exited 1 }
  | .exit _ => { s with process := .exited 0 }

/-- The consumer program. -/
def consumer (lifetime : ℤ) (autoAck : Bool) : Machine State Act where
  init := init lifetime
  enabled := enabled
  next := next autoAck

/-- The connection and its channel stay open unless the client closes them. -/
def Healthy (_ : State) (a : Act) : Prop := a ≠ .connLoss ∧ a ≠ .channelLoss

instance (s : State) (a : Act) : Decidable (Healthy s a) :=
  inferInstanceAs (Decidable (a ≠ .connLoss ∧ a ≠ .channelLoss))

theorem enabled_iff {s : State} {a : Act} :
    enabled s a = true ↔ s.process = .running ∧ guard s a = true := by
  simp [enabled]

theorem step_one {lifetime : ℤ} {autoAck : Bool} {C : State → Act → Prop} {s : State} (a : Act)
    (hrun : s.process = .running) (hg : guard s a = true) (hc : C s a) :
    (consumer lifetime autoAck).Steps C s (next autoAck s a) :=
  Machine.Steps.one a (enabled_iff.mpr ⟨hrun, hg⟩) hc

@[simp] theorem goto_pc_self (s : State) (p : Party) (c : Pc) : (s.goto p c).pc p = c :=
  Function.update_self ..

theorem goto_pc (s : State) (p q : Party) (c : Pc) :
    (s.goto p c).pc q = if q = p then c else s.pc q :=
  Function.update_apply ..

/-- What the callers of `Shutdown` see and have done. -/
def State.view (s : State) : (Party → Pc) × Process × Bool × Bool × ℕ × ℕ × ℕ :=
  (s.pc, s.process, s.connOpen, s.channelOpen, s.cancels, s.closes, s.lateCalls)

theorem view_eq {s s' : State} : s'.view = s.view ↔ s'.pc = s.pc ∧ s'.process = s.process ∧
    s'.connOpen = s.connOpen ∧ s'.channelOpen = s.channelOpen ∧ s'.cancels = s.cancels ∧
    s'.closes = s.closes ∧ s'.lateCalls = s.lateCalls := by
  simp [State.view]

theorem bodyEnd_view (autoAck : Bool) (s : State) (t : ℕ) :
    (next autoAck s (.bodyEnd t)).view = s.view := by
  simp only [next, State.ackCall]
  split
  · rfl
  · split <;> rfl

theorem Party.other_ne (p : Party) : p.other ≠ p := by
  cases p <;> decide

theorem Party.eq_or_other (p q : Party) : q = p ∨ q = p.other := by
  cases p <;> cases q <;> decide

end RabbitmqCluster.Consumer
