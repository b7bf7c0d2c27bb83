import RabbitmqCluster.Terraform.Shared

/-! @src var/terraform/rabbitmq1 | scheme:broker | family:topology

    The topology of the instance rabbitmq1: what every instance gets, a federated exchange, a filter
    of two exchanges, a legacy queue with its successor, and the retry topology.

        system.events ─ 3 keys ─▶ api.events ─ rejected ─▶ dlx.events
                                      ▲                        │ *.*.*
                    dlx.retry ─ 3 keys ┘◀─ expired ─ dead.events ◀┘ -/

namespace RabbitmqCluster.Terraform

open RabbitmqCluster.Schemes

/-! ### federation.tf -/

def downstreamExchange : Exchange := { name := "ExchangeFederated", type := .topic }

def downstreamQueue : Queue := { name := "downStreamQueue" }

def downstreamExchangeQueueBinding : Binding := bind downstreamExchange downstreamQueue "#"

def exchangePolicy : Policy :=
  { name := "RabbitMQ2"
    pattern := "(^" ++ downstreamExchange.name ++ "$)"
    priority := 1
    applyTo := .exchanges
    definition := [("federation-upstream", .str "rabbitmq2")] }

/-! ### filter-topology.tf -/

def bindingArguments1 : Table :=
  [("x-match", .str "any"), ("country", .str "1"), ("rid", .str "1")]

def bindingArguments2 : Table :=
  [("x-match", .str "any"), ("country", .str "2"), ("rid", .str "2")]

def bindingArgumentsAll : Table := [("x-match", .str "any"), ("root", .str "1")]

def unfiltered : Exchange := { name := "Unfiltered", type := .topic }

def eventrouter : Exchange := { name := "Eventrouter", type := .headers }

def unfilteredLog : Queue := { name := "unfiltered-log" }

def filtered1 : Queue := { name := "filtered-1" }

def filtered2 : Queue := { name := "filtered-2" }

def filteredAll : Queue := { name := "filtered-all" }

def unfilteredFilterBinding : Binding :=
  { source := unfiltered.name, destination := .exchange eventrouter.name, routingKey := "#" }

def unfilteredLogBinding : Binding := bind unfiltered unfilteredLog "#"

def filtered1Binding : Binding :=
  { source := eventrouter.name
    destination := .queue filtered1.name
    arguments := bindingArguments1 }

def filtered2Binding : Binding :=
  { source := eventrouter.name
    destination := .queue filtered2.name
    arguments := bindingArguments2 }

def filteredAllBinding : Binding :=
  { source := eventrouter.name
    destination := .queue filteredAll.name
    arguments := bindingArgumentsAll }

/-! ### legacy-queue.tf -/

def legacy : Queue := { name := "legacy_queue" }

def new : Queue := { name := "new_queue", arguments := quorumArguments }

/-! ### retry-topology.tf -/

def systemExchange : Exchange := { name := "system.events", type := .topic }

def deadletterExchange : Exchange := { name := "dlx.events", type := .topic }

def retryExchange : Exchange := { name := "dlx.retry", type := .topic }

def apieventsQueue : Queue := { name := "api.events", arguments := quorumArguments }

def deadeventsQueue : Queue := { name := "dead.events", arguments := msgTtlArguments }

def createExchangeQueueBinding : Binding :=
  bind systemExchange apieventsQueue "user.create.account"

def updateExchangeQueueBinding : Binding :=
  bind systemExchange apieventsQueue "user.update.account"

def deleteExchangeQueueBinding : Binding :=
  bind systemExchange apieventsQueue "user.delete.account"

def deadExchangeQueueBinding : Binding := bind deadletterExchange deadeventsQueue "*.*.*"

def retryCreateExchangeQueueBinding : Binding :=
  bind retryExchange apieventsQueue "user.create.account"

def retryUpdateExchangeQueueBinding : Binding :=
  bind retryExchange apieventsQueue "user.update.account"

def retryDeleteExchangeQueueBinding : Binding :=
  bind retryExchange apieventsQueue "user.delete.account"

def haEvents : Policy :=
  { name := "ha-events"
    pattern := "(^api.events$)"
    priority := 2
    applyTo := .queues
    definition :=
      [("ha-mode", .str "all"), ("ha-sync-mode", .str "automatic"),
        ("dead-letter-exchange", .str "dlx.events")] }

def haRetryEvents : Policy :=
  { name := "ha-retry-events"
    pattern := "(^dead.events$)"
    priority := 3
    applyTo := .queues
    definition :=
      [("ha-mode", .str "all"), ("ha-sync-mode", .str "automatic"),
        ("dead-letter-exchange", .str "dlx.retry")] }

/-- What is declared on rabbitmq1. -/
def rabbitmq1 : Topology where
  exchanges := shared.exchanges ++
    [downstreamExchange, unfiltered, eventrouter, systemExchange, deadletterExchange, retryExchange]
  queues := shared.queues ++
    [downstreamQueue, unfilteredLog, filtered1, filtered2, filteredAll, legacy, new,
      apieventsQueue, deadeventsQueue]
  bindings := shared.bindings ++
    [downstreamExchangeQueueBinding, unfilteredFilterBinding, unfilteredLogBinding,
      filtered1Binding, filtered2Binding, filteredAllBinding, createExchangeQueueBinding,
      updateExchangeQueueBinding, deleteExchangeQueueBinding, deadExchangeQueueBinding,
      retryCreateExchangeQueueBinding, retryUpdateExchangeQueueBinding,
      retryDeleteExchangeQueueBinding]
  policies := shared.policies ++ [exchangePolicy, haEvents, haRetryEvents]

end RabbitmqCluster.Terraform
