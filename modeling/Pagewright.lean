import Pagewright.Expression.Json
import Pagewright.Main
import Pagewright.Proofs.GrammarCompleteness
import Pagewright.Proofs.SubstitutionAccount
import Pagewright.Proofs.InternalErrors
import Pagewright.Proofs.TableHistory
import Pagewright.Proofs.InheritanceChains
import Pagewright.Proofs.GuardedInstances
import Pagewright.Proofs.NestedForms
import Pagewright.Proofs.ListConstructors
import Pagewright.Proofs.ManifestReading
import Pagewright.Proofs.FailedDeployments
import Pagewright.Proofs.Reanalysis
import Pagewright.Proofs.MarkersKept
import Pagewright.Proofs.SourceNumbering
