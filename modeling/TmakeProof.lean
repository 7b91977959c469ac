import TmakeProof.Progress
import TmakeProof.Scanner
import TmakeProof.ScanCache
import TmakeProof.Defines
import TmakeProof.RuleBase
import TmakeProof.Failure
import TmakeProof.DryRun
import TmakeProof.Loads
import TmakeProof.Reloads
import TmakeProof.Restart
import TmakeProof.RunAborts
import TmakeProof.Shadowed
import TmakeProof.LiveScan
import TmakeProof.BuiltFiles
import TmakeProof.Scopes
import TmakeProof.SpecErrors
import TmakeProof.Traversal
import TmakeProof.PhonyChain
import TmakeProof.AddedDo
import TmakeProof.BoundVars
import TmakeProof.RelativePath
import TmakeProof.Versions
import TmakeProof.FileNormalize
import TmakeProof.ExternalCommands
import TmakeProof.TemplateComparison
import TmakeProof.Trash
import TmakeProof.Products
import TmakeProof.Getopt
import TmakeProof.GlobNames
import TmakeProof.OptionGroups
import TmakeProof.Configure
import TmakeProof.Quoting
import TmakeProof.IncludePaths
import TmakeProof.Codecs
import TmakeProof.ScriptSyntax
import TmakeProof.Makecache
import TmakeProof.StoredCache
import TmakeProof.Stamps
import TmakeProof.ScanRuns
import TmakeProof.CacheTruth
import TmakeProof.Recording
import TmakeProof.RunRecords
import TmakeProof.NullBuild
import TmakeProof.Views
import TmakeProof.Outcomes
import TmakeProof.Outlines
import TmakeProof.Rebuilds
import TmakeProof.Untouched
import TmakeProof.Projects
import TmakeProof.CleanBuilds
