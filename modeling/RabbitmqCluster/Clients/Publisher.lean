import RabbitmqCluster.Schemes.Machine
import Mathlib.Data.Finset.Card
import Mathlib.Logic.Function.Basic

/-! @src clients/go/publisher.go | scheme:machine | family:confirm-handler

    The confirming publisher as one machine: the loop of `publish`, the goroutine of
    `startConfirmHandler` with `checkConfirmations` and `waitConfirmations`, the goroutine of
    `setupCloseHandler`, and a broker that settles published tags when it likes. A `select` is one
    action per branch, so any ready branch can be taken; a timer branch is always ready, which
    covers every timing. `confirmsCh` is unbuffered, so its send and receive are one action
    (`deliver`).

        publish:  connecting ─▶ awaitOk ─▶ publishing ─▶ handOver ─▶ pause ─▶ awaitOk
                                                                       └─▶ initiateStop ─▶ stopping
        handler:  top ─▶ offerOk ─▶ recv ─▶ check loop ─▶ top
                   └── exit ──▶ check exit ─▶ wait ⇄ waitTag ─▶ closing ─▶ finished -/

namespace RabbitmqCluster.Publisher

open RabbitmqCluster.Schemes

/-- What the broker did with a delivery tag. For its `DeferredConfirmation`, `Done()` is closed
    unless `pending` and `Acked()` is true only at `acked`. -/
inductive Settlement where | pending | acked | nacked
  deriving DecidableEq

/-- The log line on which `publish` returned. -/
inductive Outcome where | allConfirmsSeen | maybeOutstanding
  deriving DecidableEq

/-- Program points of `publish`. -/
inductive PublishPc where
  | connecting
  | awaitOk
  | publishing
  | handOver (dtag : ℕ)
  | pause
  | initiateStop
  | stopping
  | returned (o : Outcome)
  deriving DecidableEq

/-- Who called `checkConfirmations`: the handler loop, or `waitConfirmations` on the way out. -/
inductive Caller where | loop | exit
  deriving DecidableEq

/-- Program points of the confirm handler; `todo` holds the map keys a `range` has not visited. -/
inductive HandlerPc where
  | top
  | offerOk
  | recv
  | check (c : Caller) (todo : Finset ℕ)
  | wait (todo : Finset ℕ)
  | waitTag (k : ℕ) (todo : Finset ℕ)
  | closing
  | finished
  deriving DecidableEq

/-- Program points of the signal goroutine. -/
inductive SignalPc where | waiting | caught | finished
  deriving DecidableEq

/-- `fatal` is `ErrLog.Fatalf`, `panicked` is "close of closed channel". -/
inductive Process where | running | exited | fatal | panicked
  deriving DecidableEq

/-- The program's state. `exitCloses` counts the executed `close(exitCh)`; the map `confirms` holds
    under a tag that tag's own confirmation, so its keys determine it. `published`, `entered` and
    `confirmedLog` record the tags published, put in the map and logged as confirmed. -/
structure State where
  publish : PublishPc
  handler : HandlerPc
  signal : SignalPc
  process : Process
  publishOkCh : Bool
  exitCloses : ℕ
  confirmsDoneCh : Bool
  confirms : Finset ℕ
  connected : Bool
  broker : ℕ → Settlement
  published : List ℕ
  entered : List ℕ
  confirmedLog : List ℕ
  exitReport : Option ℕ

/-- `main` after `setupCloseHandler` and `startConfirmHandler`, about to enter `publish`. -/
def init : State where
  publish := .connecting
  handler := .top
  signal := .waiting
  process := .running
  publishOkCh := false
  exitCloses := 0
  confirmsDoneCh := false
  confirms := ∅
  connected := true
  broker := fun _ => .pending
  published := []
  entered := []
  confirmedLog := []
  exitReport := none

/-- `exitCh` is closed: every receive from it is ready. -/
def State.exitClosed (s : State) : Bool := 0 < s.exitCloses

/-- `Done()` is closed. -/
def State.settled (s : State) (t : ℕ) : Bool := s.broker t ≠ .pending

/-- `outstandingConfirmationCount <= 8` lets the handler give the OK. -/
def threshold : ℕ := 8

/-- One branch of a `select`, one statement of a party, or one event from outside. -/
inductive Act where
  -- publish
  | connect
  | connectFail
  | gotOk
  | okDone
  | stillWaiting
  | publishMsg (t : ℕ)
  | publishErr
  | deliver (t : ℕ)
  | deliverDone (t : ℕ)
  | pauseDone
  | pauseOver
  | closeExit
  | stopDone
  | stopTimeout
  | mainReturn (o : Outcome)
  -- confirm handler
  | exitTop
  | pass
  | sendOk
  | sendOkTimeout
  | exitRecv
  | checkTag (c : Caller) (todo : Finset ℕ) (k : ℕ)
  | checked (c : Caller)
  | waitNext (todo : Finset ℕ) (k : ℕ)
  | waitDone (k : ℕ) (todo : Finset ℕ)
  | waitTimeout (k : ℕ) (todo : Finset ℕ)
  | waited
  | closeDone
  -- signal goroutine
  | sigint
  | sigClose
  -- broker
  | ack (t : ℕ)
  | nack (t : ℕ)
  | connLoss
  deriving DecidableEq

/-- The branch or statement is the next one of its party and can proceed. -/
def guard (s : State) : Act → Bool
  | .connect => s.publish = .connecting
  | .connectFail => s.publish = .connecting
  | .gotOk => s.publish = .awaitOk && s.publishOkCh
  | .okDone => s.publish = .awaitOk && s.confirmsDoneCh
  | .stillWaiting => s.publish = .awaitOk
  | .publishMsg t => s.publish = .publishing && s.connected && s.published.all (· < t)
  | .publishErr => s.publish = .publishing
  | .deliver t => s.publish = .handOver t && s.handler = .recv
  | .deliverDone t => s.publish = .handOver t && s.confirmsDoneCh
  | .pauseDone => s.publish = .pause && s.confirmsDoneCh
  | .pauseOver => s.publish = .pause
  | .closeExit => s.publish = .initiateStop
  | .stopDone => s.publish = .stopping && s.confirmsDoneCh
  | .stopTimeout => s.publish = .stopping
  | .mainReturn o => s.publish = .returned o
  | .exitTop => s.handler = .top && s.exitClosed
  -- a `default` is taken only when no other branch is ready
  | .pass => s.handler = .top && !s.exitClosed
  | .sendOk => s.handler = .offerOk && !s.publishOkCh
  | .sendOkTimeout => s.handler = .offerOk
  | .exitRecv => s.handler = .recv && s.exitClosed
  | .checkTag c todo k => s.handler = .check c todo && k ∈ todo
  | .checked c => s.handler = .check c ∅
  | .waitNext todo k => s.handler = .wait todo && k ∈ todo
  | .waitDone k todo => s.handler = .waitTag k todo && s.settled k
  | .waitTimeout k todo => s.handler = .waitTag k todo
  | .waited => s.handler = .wait ∅
  | .closeDone => s.handler = .closing
  | .sigint => s.signal = .waiting
  | .sigClose => s.signal = .caught
  | .ack t => s.connected && t ∈ s.published && s.broker t = .pending
  | .nack t => s.connected && t ∈ s.published && s.broker t = .pending
  | .connLoss => s.connected

/-- Nothing steps once the process has ended. -/
def enabled (s : State) (a : Act) : Bool := s.process = .running && guard s a

/-- `close(exitCh)`: on a closed channel it panics. -/
def State.closeExitCh (s : State) : State :=
  { s with
    exitCloses := s.exitCloses + 1
    process := if s.exitClosed then .panicked else s.process }

/-- `exitConfirmHandler` begins: `waitConfirmations` first calls `checkConfirmations`. -/
def State.exitHandler (s : State) : State := { s with handler := .check .exit s.confirms }

/-- `Log.Printf("... confirmed delivery with tag: %d", k)` and `delete(confirms, k)`. -/
def State.confirm (s : State) (k : ℕ) : State :=
  { s with confirms := s.confirms.erase k, confirmedLog := s.confirmedLog ++ [k] }

/-- What the action does; `continuous` is the command-line flag. -/
def next (continuous : Bool) (s : State) : Act → State
  | .connect => { s with publish := .awaitOk }
  | .connectFail => { s with process := .fatal }
  | .gotOk => { s with publish := .publishing, publishOkCh := false }
  | .okDone => { s with publish := .returned .allConfirmsSeen }
  | .stillWaiting => s
  | .publishMsg t => { s with publish := .handOver t, published := s.published ++ [t] }
  | .publishErr => { s with process := .fatal }
  | .deliver t =>
    { s with
      publish := .pause
      handler := .check .loop (insert t s.confirms)
      confirms := insert t s.confirms
      entered := s.entered ++ [t] }
  | .deliverDone _ => { s with publish := .returned .allConfirmsSeen }
  | .pauseDone => { s with publish := .returned .allConfirmsSeen }
  | .pauseOver => { s with publish := if continuous then .awaitOk else .initiateStop }
  | .closeExit => { s.closeExitCh with publish := .stopping }
  | .stopDone => { s with publish := .returned .allConfirmsSeen }
  | .stopTimeout => { s with publish := .returned .maybeOutstanding }
  | .mainReturn _ => { s with process := .exited }
  | .exitTop => s.exitHandler
  | .pass => { s with handler := if s.confirms.card ≤ threshold then .offerOk else .recv }
  | .sendOk => { s with handler := .recv, publishOkCh := true }
  | .sendOkTimeout => { s with handler := .recv }
  | .exitRecv => s.exitHandler
  | .checkTag c todo k =>
    if s.broker k = .acked then { s.confirm k with handler := .check c (todo.erase k) }
    else { s with handler := .check c (todo.erase k) }
  | .checked .loop => { s with handler := .top }
  | .checked .exit => { s with handler := .wait s.confirms }
  | .waitNext todo k => { s with handler := .waitTag k (todo.erase k) }
  | .waitDone k todo => { s.confirm k with handler := .wait todo }
  | .waitTimeout _ todo => { s with handler := .wait todo }
  | .waited => { s with handler := .closing, exitReport := some s.confirms.card }
  | .closeDone => { s with handler := .finished, confirmsDoneCh := true }
  | .sigint => { s with signal := .caught }
  | .sigClose => { s.closeExitCh with signal := .finished }
  | .ack t => { s with broker := Function.update s.broker t .acked }
  | .nack t => { s with broker := Function.update s.broker t .nacked }
  -- the library settles what is outstanding as nacked
  | .connLoss =>
    { s with
      connected := false
      broker := fun t =>
        if t ∈ s.published ∧ s.broker t = .pending then .nacked else s.broker t }

/-- The publisher program. -/
def publisher (continuous : Bool) : Machine State Act where
  init := init
  enabled := enabled
  next := next continuous

end RabbitmqCluster.Publisher
