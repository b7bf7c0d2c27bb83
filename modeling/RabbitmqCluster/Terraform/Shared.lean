import RabbitmqCluster.Schemes.Broker

/-! @src var/terraform/src main.tf request-retry.tf variables.tf | scheme:broker | family:topology

    The topology that every instance gets: the events topology and the request topology, resource by
    resource under their Terraform names.

        requests ─ # ─▶ requests.current ─ dies ─▶ retry.requests ─┬─▶ requests.delayed
                                                                   ├─▶ requests.error
                                     otherwise: error.requests ─ # ─┘ -/

namespace RabbitmqCluster.Terraform

open RabbitmqCluster.Schemes

/-! ### variables.tf -/

def msgTtlArguments : Table := [("x-queue-type", .str "quorum"), ("x-message-ttl", .int 5000)]

def streamArguments : Table := [("x-queue-type", .str "stream")]

def streamArgumentsShort : Table :=
  [("x-queue-type", .str "stream"), ("x-stream-max-segment-size-bytes", .int 250),
    ("x-max-age", .str "5m")]

def xDeathArguments : Table :=
  [("x-match", .str "any-with-x"), ("x-first-death-reason", .str "rejected")]

def xDeathLimitArguments : Table :=
  [("x-match", .str "any-with-x"), ("x-delivery-count", .int 2)]

/-! ### main.tf -/

def quorumArguments : Table := [("x-queue-type", .str "quorum")]

def events : Exchange := { name := "events", type := .topic }

def allEvents : Queue := { name := "all-events", arguments := streamArguments }

def lastEvents : Queue := { name := "last-events", arguments := streamArgumentsShort }

def systemEvents : Queue := { name := "system-events", arguments := quorumArguments }

def createEvents : Queue := { name := "create-events", arguments := quorumArguments }

def updateEvents : Queue := { name := "update-events", arguments := quorumArguments }

/-- A binding of an exchange to a queue. -/
def bind (source : Exchange) (destination : Queue) (routingKey : String) : Binding :=
  { source := source.name, destination := .queue destination.name, routingKey := routingKey }

theorem bind_to {x : Exchange} {p : Queue} {key q : String} :
    (bind x p key).destination = .queue q ↔ q = p.name := by
  simp [bind, eq_comm]

def allEventsBinding : Binding := bind events allEvents "#"

def lastEventsBinding : Binding := bind events lastEvents "#"

def systemEventsBinding : Binding := bind events systemEvents "system.*.*"

def createEventsBinding : Binding := bind events createEvents "*.create.*"

def updateEventsBinding : Binding := bind events updateEvents "*.update.*"

/-! ### request-retry.tf -/

def requests : Exchange := { name := "requests", type := .topic }

def errorRequests : Exchange := { name := "error.requests", type := .topic }

def retryRequests : Exchange :=
  { name := "retry.requests"
    type := .headers
    arguments := [("alternate-exchange", .str errorRequests.name)] }

def currentRequestsQueue : Queue :=
  { name := "requests.current"
    arguments :=
      [("x-queue-type", .str "quorum"), ("x-dead-letter-exchange", .str retryRequests.name)] }

def delayedRequestsQueue : Queue := { name := "requests.delayed", arguments := quorumArguments }

def errorRequestsQueue : Queue := { name := "requests.error", arguments := quorumArguments }

def currentRequestsBinding : Binding := bind requests currentRequestsQueue "#"

def deliveryLimitPolicy : Policy :=
  { name := "delivery-limit"
    pattern := "(^" ++ delayedRequestsQueue.name ++ "$)"
    priority := 1
    applyTo := .queues
    definition := [("delivery-limit", .int 3)] }

def retryRequestsBinding : Binding :=
  { source := retryRequests.name
    destination := .queue delayedRequestsQueue.name
    arguments := xDeathArguments }

def errorRequestsBinding : Binding :=
  { source := retryRequests.name
    destination := .queue errorRequestsQueue.name
    arguments := xDeathLimitArguments }

def delayedRequestsBinding : Binding := bind errorRequests errorRequestsQueue "#"

/-- What `src` declares on every instance. -/
def shared : Topology where
  exchanges := [events, requests, retryRequests, errorRequests]
  queues :=
    [allEvents, lastEvents, systemEvents, createEvents, updateEvents, currentRequestsQueue,
      delayedRequestsQueue, errorRequestsQueue]
  bindings :=
    [allEventsBinding, lastEventsBinding, systemEventsBinding, createEventsBinding,
      updateEventsBinding, currentRequestsBinding, retryRequestsBinding, errorRequestsBinding,
      delayedRequestsBinding]
  policies := [deliveryLimitPolicy]

end RabbitmqCluster.Terraform
