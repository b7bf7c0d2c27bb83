import RabbitmqCluster.Terraform.Rabbitmq1

/-! @src var/terraform/rabbitmq2 rabbitmq3/federate-all.tf | scheme:broker | family:topology

    The topologies of the instances rabbitmq2, which has only what every instance gets, and
    rabbitmq3, which federates all its exchanges and queues with rabbitmq1. -/

namespace RabbitmqCluster.Terraform

open RabbitmqCluster.Schemes

/-- What is declared on rabbitmq2. -/
def rabbitmq2 : Topology := shared

/-! ### federate-all.tf -/

/-- The upstream resource `rabbitmq1`, by its name. -/
def rabbitmq1Upstream : String := "rabbitmq1"

def allExchangesPolicy : Policy :=
  { name := "rabbitmq1AllExchanges"
    pattern := "(^(?!amq.|events)(.+)$)"
    priority := 1
    applyTo := .exchanges
    definition := [("federation-upstream", .str rabbitmq1Upstream)] }

def allQueuesPolicy : Policy :=
  { name := "rabbitmq1AllQueues"
    pattern := "(.*)"
    priority := 1
    applyTo := .queues
    definition := [("federation-upstream", .str rabbitmq1Upstream)] }

/-- What is declared on rabbitmq3. -/
def rabbitmq3 : Topology :=
  { shared with policies := shared.policies ++ [allExchangesPolicy, allQueuesPolicy] }

/-- The instances of the Terraform setup. -/
inductive Instance where | rabbitmq1 | rabbitmq2 | rabbitmq3
  deriving DecidableEq

/-- The files of `src` and the instance's own, applied. -/
def Instance.topology : Instance → Topology
  | .rabbitmq1 => Terraform.rabbitmq1
  | .rabbitmq2 => Terraform.rabbitmq2
  | .rabbitmq3 => Terraform.rabbitmq3

end RabbitmqCluster.Terraform
