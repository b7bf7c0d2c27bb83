import RabbitmqCluster.Schemes.Machine
import RabbitmqCluster.Schemes.Window
import RabbitmqCluster.Clients.Publisher
import RabbitmqCluster.Clients.PublisherWindow
import RabbitmqCluster.Clients.PublisherFlow
import RabbitmqCluster.Clients.PublisherConfirms
import RabbitmqCluster.Clients.PublisherExit
import RabbitmqCluster.Clients.PublisherStop
import RabbitmqCluster.Clients.PublisherSettled
import RabbitmqCluster.Clients.Consumer
import RabbitmqCluster.Clients.ConsumerShutdown
import RabbitmqCluster.Clients.ConsumerStop
import RabbitmqCluster.Clients.ConsumerAcks
import RabbitmqCluster.Schemes.Broker
import RabbitmqCluster.Schemes.Copies
import RabbitmqCluster.Terraform.Shared
import RabbitmqCluster.Terraform.RequestRetry
import RabbitmqCluster.Terraform.RequestPlaces
import RabbitmqCluster.Terraform.Rabbitmq1
import RabbitmqCluster.Terraform.RetryTopology
import RabbitmqCluster.Schemes.RetryLoop
import RabbitmqCluster.Scripts.RetryDlx
import RabbitmqCluster.Schemes.Policies
import RabbitmqCluster.Terraform.Rabbitmq3
import RabbitmqCluster.Terraform.PolicyClash
import RabbitmqCluster.Schemes.Shovel
import RabbitmqCluster.Schemes.Relay
import RabbitmqCluster.Scripts.ShovelChain
import RabbitmqCluster.Terraform.LegacyQueue
import RabbitmqCluster.Schemes.Federation
import RabbitmqCluster.Terraform.FederateAll
import RabbitmqCluster.Schemes.Matching
import RabbitmqCluster.Terraform.FederatedNames
import RabbitmqCluster.Schemes.Shadowing
import RabbitmqCluster.Scripts.ScriptPolicies
import RabbitmqCluster.Schemes.Inventory
import RabbitmqCluster.Clients.Setup
import RabbitmqCluster.Clients.Cleanup
import RabbitmqCluster.Clients.Permissions
import RabbitmqCluster.Results.PlotSeries
import RabbitmqCluster.Schemes.Convergence
import RabbitmqCluster.Clients.SetupRoutes
import RabbitmqCluster.Schemes.Delivery
import RabbitmqCluster.Clients.Pipeline
import RabbitmqCluster.Clients.PipelineOnce
import RabbitmqCluster.Clients.PipelineDrain
import RabbitmqCluster.Schemes.Potential
import RabbitmqCluster.Terraform.RequestBounds
import RabbitmqCluster.Site.Entities
import RabbitmqCluster.Site.Scripts
import RabbitmqCluster.Schemes.Apply
import RabbitmqCluster.Terraform.Resources
import RabbitmqCluster.Terraform.ApplyTopology
import RabbitmqCluster.Clients.PublisherEnds
import RabbitmqCluster.Clients.PublisherSingleShot
import RabbitmqCluster.Schemes.Resting
import RabbitmqCluster.Schemes.Walks
import RabbitmqCluster.Terraform.EventRoutes
import RabbitmqCluster.Terraform.FilterRoutes
