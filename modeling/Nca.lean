import Nca.CoreDS.CanonicalIntervalSet
import Nca.Lib.Dict
import Nca.Lib.ListDict
import Nca.Lib.ExactSet
import Nca.CoreDS.IntervalSearch
import Nca.CoreDS.IntervalRuns
import Nca.CoreDS.CanonicalHyperCubeSet
import Nca.CoreDS.LayerLaws
import Nca.CoreDS.HyperCubeForm
import Nca.CoreDS.HyperCubeUnion
import Nca.CoreDS.HyperCubeCombine
import Nca.CoreDS.HyperCubeDimensions
import Nca.CoreDS.HyperCubeAlign
import Nca.CoreDS.HyperCubeReduce
import Nca.CoreDS.HyperCubeOperations
import Nca.CoreDS.HyperCubeRuns
import Nca.CoreDS.HyperCubeHollow
import Nca.CoreDS.HyperCubeContainment
import Nca.CoreDS.ConnectivityProperties
import Nca.Lib.FirstMatch
import Nca.Lib.Bisect
import Nca.Resources.NetworkPolicy
import Nca.Resources.Policies
import Nca.NetworkConfig.NetworkLayer
import Nca.NetworkConfig.NetworkConfig
import Nca.NetworkConfig.FilterIndependence
import Nca.NetworkConfig.UnselectedPeers
import Nca.Resources.PolicyDecisions
import Nca.NetworkConfig.PolicyCollection
import Nca.NetworkConfig.K8sCalicoSemantics
import Nca.NetworkConfig.IstioSemantics
import Nca.NetworkConfig.PolicyInsertion
import Nca.NetworkConfig.IstioOrder
import Nca.Resources.PolicyRules
import Nca.NetworkConfig.NetworkConfigQuery
import Nca.NetworkConfig.SemanticDiff
import Nca.NetworkConfig.QueryAgreement
import Nca.CoreDS.MinDFA
import Nca.Parsers.IngressPaths
import Nca.Parsers.PathMatching
import Nca.Parsers.IngressPolicyYamlParser
import Nca.Parsers.IngressHosts
import Nca.Parsers.DefaultBackend
import Nca.CoreDS.HyperCubeDomains
import Nca.CoreDS.PeerDomains
import Nca.NetworkConfig.QueryExecution
import Nca.NetworkConfig.QueryRestore
import Nca.NetworkConfig.RuleRedundancy
import Nca.Parsers.IstioPolicyYamlParser
import Nca.Lib.Pattern
import Nca.NetworkConfig.PeerLookups
import Nca.Parsers.K8sPolicyYamlParser
import Nca.Parsers.LabelSelectors
import Nca.CoreDS.NamedPorts
import Nca.Parsers.K8sPolicyRules
import Nca.Parsers.HostPatterns
import Nca.Parsers.IstioPatterns
import Nca.Resources.VirtualService
import Nca.Parsers.IstioVirtualServiceYamlParser
import Nca.Parsers.IstioGatewayPolicyGenerator
import Nca.Parsers.RouteMatches
import Nca.Parsers.PathAutomata
import Nca.Parsers.IstioPrincipals
import Nca.Lib.Texts
import Nca.Parsers.CalicoPolicyYamlParser
import Nca.Parsers.SelectorSplitting
import Nca.Parsers.SelectorSyntax
import Nca.Parsers.SelectorPieces
import Nca.Parsers.SelectorAtoms
import Nca.Parsers.CalicoSelectors
import Nca.Parsers.SelectorParsing
import Nca.Parsers.SelectorErrors
import Nca.CoreDS.RuleCubes
import Nca.Parsers.CalicoRules
import Nca.Parsers.CalicoIcmp
import Nca.Parsers.CalicoPorts
import Nca.Parsers.CalicoProtocols
import Nca.NetworkConfig.RedundancyFindings
import Nca.NetworkConfig.LivesimPeers
import Nca.CoreDS.IntervalEndpoints
import Nca.CoreDS.PlacedIntervals
import Nca.CoreDS.IpBlock
import Nca.Lib.AlignedBlocks
import Nca.CoreDS.CidrLists
import Nca.CoreDS.PeerObjects
import Nca.CoreDS.PeerSetOperations
import Nca.CoreDS.RegisteredPeers
import Nca.CoreDS.PeerDecoding
import Nca.Parsers.IstioIpBlocks
import Nca.CoreDS.ConnectivitySpace
import Nca.CoreDS.Projection
import Nca.CoreDS.Reordering
import Nca.CoreDS.PropertiesOrder
import Nca.FWRules.Bicliques
import Nca.Resources.SidecarEgress
import Nca.Parsers.IstioGenericYamlParser
import Nca.Parsers.IstioSidecarYamlParser
import Nca.Parsers.SidecarPriorities
import Nca.FWRules.ClusterInfo
import Nca.FWRules.FWRule
import Nca.FWRules.LabelGrouping
import Nca.FWRules.LabelFormulas
import Nca.FWRules.PrintedLabels
import Nca.FWRules.EqualGroups
import Nca.FWRules.ShownGroups
import Nca.Lib.Numerals
import Nca.FWRules.Cliques
import Nca.FWRules.CliqueNames
import Nca.FWRules.DotGraph
import Nca.FWRules.LabelPasses
import Nca.FWRules.DrawnGraph
import Nca.FWRules.ShownLabels
import Nca.FWRules.ConnectivityDot
import Nca.Lib.RunScan
import Nca.NetworkConfig.SanityQuery
import Nca.CoreDS.DfaFlags
import Nca.CoreDS.HyperCubeHash
import Nca.FWRules.RuleElements
import Nca.FWRules.BasicGrouping
import Nca.FWRules.GroupedPairs
import Nca.FWRules.MinimizeCsFWRules
import Nca.FWRules.MinimizeFWRules
import Nca.NetworkConfig.ConnectivityMapQuery
import Nca.NetworkConfig.OrderIndependence
import Nca.Parsers.K8sPolicies
import Nca.NetworkConfig.KubernetesSemantics
import Nca.Parsers.IstioPolicies
import Nca.NetworkConfig.PoliciesFinder
import Nca.NetworkConfig.MeshSemantics
