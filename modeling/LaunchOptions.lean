import LaunchOptions.FileTree.Change
import LaunchOptions.Main
import LaunchOptions.Proofs.LineGrammar
import LaunchOptions.Proofs.RunOutcome
import LaunchOptions.Proofs.FailFast
import LaunchOptions.Proofs.VersionIndependence
import LaunchOptions.Proofs.AssembledList
import LaunchOptions.Proofs.Precedence
import LaunchOptions.Proofs.PrimaryFileRoot
import LaunchOptions.Proofs.MaximalStretches
import LaunchOptions.Proofs.DecodedLines
import LaunchOptions.Proofs.ReaderProgress
import LaunchOptions.Proofs.LineAccounts
import LaunchOptions.Proofs.OnePass
import LaunchOptions.Proofs.MalformedLines
import LaunchOptions.Proofs.ReplacementOrder
import LaunchOptions.Proofs.OpenRange
import LaunchOptions.Proofs.DiscoveredFiles
import LaunchOptions.Proofs.LineEndings
import LaunchOptions.Proofs.Concatenation
import LaunchOptions.Proofs.VersionText
import LaunchOptions.Proofs.InvalidReport
import LaunchOptions.Proofs.Documents
import LaunchOptions.Proofs.PlanChanges
import LaunchOptions.Proofs.SettingsLoading
import LaunchOptions.Proofs.Words
import LaunchOptions.Proofs.SettingsLayout
