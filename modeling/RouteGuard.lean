import RouteGuard.Main
import RouteGuard.Proofs.Rules.Freshness
import RouteGuard.Proofs.Rules.SingleFlight
import RouteGuard.Proofs.Rules.Protection
import RouteGuard.Proofs.Http.AdminGuard
import RouteGuard.Proofs.Http.Check
import RouteGuard.Proofs.Http.Loadable
import RouteGuard.Proofs.Directory.Backends
import RouteGuard.Proofs.Directory.Revocation
import RouteGuard.Proofs.Http.Coherence
import RouteGuard.Proofs.Http.AuthorityNames
import RouteGuard.Proofs.Rules.OwnAddress
import RouteGuard.Proofs.Rules.LoneCall
import RouteGuard.Proofs.FailClosed
import RouteGuard.Proofs.Directory.Integrity
import RouteGuard.Proofs.Rules.Unstuck
import RouteGuard.Proofs.Http.AllOrNothing
import RouteGuard.Proofs.Http.Permissive
import RouteGuard.Proofs.Path.Targets
import RouteGuard.Proofs.Path.Disguise
import RouteGuard.Proofs.Rules.Preference
import RouteGuard.Proofs.Directory.SplitLookup
import RouteGuard.Proofs.Rules.Specificity
import RouteGuard.Proofs.Rules.StoreOrder
import RouteGuard.Proofs.Rules.Collisions
import RouteGuard.Proofs.Glob.BarePrefix
import RouteGuard.Proofs.Glob.Folding
import RouteGuard.Proofs.Directory.Import
import RouteGuard.Proofs.Directory.Consistency
import RouteGuard.Proofs.AccessByNames
import RouteGuard.Proofs.Settings.Expansion
import RouteGuard.Proofs.Directory.FailedImport
