import JackTree.Main
import JackTree.Proofs.ProductionReading
import JackTree.Proofs.TokenConservation
import JackTree.Proofs.GrammarDerivation
import JackTree.Proofs.DocumentDetermination
import JackTree.Proofs.SourceSurvey
import JackTree.Proofs.CommentAgreement
import JackTree.Proofs.TokenPlaces
import JackTree.Proofs.Lookahead
import JackTree.Proofs.PrintedTokens
import JackTree.Proofs.Completion
import JackTree.Proofs.CorrectPrefix
import JackTree.Proofs.FileTrees
import JackTree.Proofs.PathPlaces
import JackTree.Proofs.DirectoryMaking
import JackTree.Proofs.JobFootprint
import JackTree.Proofs.JobOrder
import JackTree.Proofs.PlannedJobs
import JackTree.Proofs.CollectedResults
import JackTree.Proofs.JobInterference
import JackTree.Proofs.PathComponents
import JackTree.Proofs.PlanningDecisions
import JackTree.Proofs.JobOutcome
import JackTree.Proofs.DiscoveredSources
import JackTree.Proofs.DocumentPlacement
import JackTree.Proofs.LastingDirectories
import JackTree.Proofs.RepeatedJobs
import JackTree.Proofs.Recompilation
import JackTree.Proofs.ParserHistory
import JackTree.Proofs.ParserSight
import JackTree.Proofs.ParserDescent
import JackTree.Proofs.DocumentedGrammar
import JackTree.Proofs.CharacterScanner
import JackTree.Proofs.LexicalDivision
import JackTree.Proofs.OpenConstants
import JackTree.Proofs.SeparateLines
import JackTree.Proofs.CommentStripping
import JackTree.Proofs.LineEndings
import JackTree.Proofs.DocumentLayout
import JackTree.Proofs.MarkerNesting
import JackTree.Proofs.LexemeKinds
import JackTree.Proofs.StreamReplay
import JackTree.Proofs.WorkerPool
import JackTree.Proofs.SearchDepth
import JackTree.Proofs.DirectorySearch
