import CoroutineCheck.Main
import CoroutineCheck.Number.Shortest
import CoroutineCheck.Proofs.Fix.Orders
import CoroutineCheck.Proofs.Gradle.Scripts
import CoroutineCheck.Proofs.Kotlin.Comments.Layout
import CoroutineCheck.Proofs.Kotlin.ImportTexts
import CoroutineCheck.Proofs.Kotlin.Origins
import CoroutineCheck.Proofs.Kotlin.Positions
import CoroutineCheck.Proofs.Kotlin.Recursion
import CoroutineCheck.Proofs.Kotlin.Shadowing
import CoroutineCheck.Proofs.Kotlin.StarImports
import CoroutineCheck.Proofs.Rules.Annotations
import CoroutineCheck.Proofs.Rules.Chains
import CoroutineCheck.Proofs.Rules.ContextSwitch
import CoroutineCheck.Proofs.Rules.Independence
import CoroutineCheck.Proofs.Rules.NestedBuilders
import CoroutineCheck.Proofs.Rules.QualifiedReferences
import CoroutineCheck.Proofs.Rules.ScopeReferences
import CoroutineCheck.Proofs.Rules.Policies
import CoroutineCheck.Proofs.Suppression.Directives
import CoroutineCheck.Proofs.Analysis.Files
import CoroutineCheck.Proofs.Analysis.Roots
import CoroutineCheck.Proofs.Cli.Repairs
import CoroutineCheck.Proofs.Cli.SettingsSearch
import CoroutineCheck.Proofs.Cli.Targets
import CoroutineCheck.Proofs.Text.Lines
import CoroutineCheck.Proofs.Kotlin.ScopeStack
import CoroutineCheck.Proofs.Report.Locations
import CoroutineCheck.Proofs.Settings.Defaults
import CoroutineCheck.Proofs.Settings.RuleOrder
import CoroutineCheck.Proofs.Tree.Additions
import CoroutineCheck.Proofs.Tree.Preorder
import CoroutineCheck.Proofs.Kotlin.Visibility
import CoroutineCheck.Proofs.Rules.Nestings
