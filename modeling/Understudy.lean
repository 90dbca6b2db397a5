import Understudy.Fake
import Understudy.Proofs.FileReading
import Understudy.Proofs.RenderedTypes
import Understudy.Proofs.ResolvedNames
import Understudy.Proofs.ResolvedModule
import Understudy.Proofs.LoadSteps
import Understudy.Proofs.LoadedSets
import Understudy.Proofs.NameClosure
import Understudy.Proofs.FileTexts
import Understudy.Proofs.UnloadedImports
import Understudy.Proofs.ImportClosure
import Understudy.Proofs.LoadDepth
import Understudy.Proofs.Definitions
import Understudy.Proofs.Embedding
import Understudy.Proofs.FakeMethods
import Understudy.Proofs.ExpansionAgreement
import Understudy.Proofs.Renaming
import Understudy.Proofs.OrderlyImports
import Understudy.Proofs.FakeQualifiers
import Understudy.Proofs.ResolvedAlike
import Understudy.Proofs.LoadOutcomes
import Understudy.Proofs.CachedModules
import Understudy.Proofs.LoadAlike
import Understudy.Proofs.LoaderStack
import Understudy.Proofs.RepeatedLoads
import Understudy.Proofs.RegistryHistory
import Understudy.Proofs.RegisteredPaths
import Understudy.Proofs.FakeImports
import Understudy.Proofs.ReorderedInterfaces
import Understudy.Proofs.RedeclaredNames
import Understudy.Proofs.ReaderRuns
import Understudy.Proofs.TypeSpans
import Understudy.Proofs.FileSpans
import Understudy.Proofs.TextWords
import Understudy.Proofs.WordReading
import Understudy.Proofs.DisplayedWords
import Understudy.Proofs.DisplayedLists
import Understudy.Proofs.DisplayedTypes
import Understudy.Proofs.DisplayedFiles
import Understudy.Proofs.DisplayedMeaning
import Understudy.Proofs.ReportingResolver
import Understudy.Proofs.ImportCycles
import Understudy.Proofs.RequestedModules
import Understudy.Proofs.DraftedTypes
import Understudy.Proofs.UnsupportedTypes
import Understudy.Proofs.AliasedTypes
import Understudy.Proofs.TargetSpelling
import Understudy.Proofs.LineNumbers
import Understudy.Proofs.ReportedParts
import Understudy.Proofs.ReportedPlaces
import Understudy.Proofs.LocatedTypes
import Understudy.Proofs.PathLiterals
import Understudy.Proofs.ParameterNames
import Understudy.Proofs.VariadicParameters
import Understudy.Proofs.ReaderWalks
import Understudy.Proofs.ReaderRounds
import Understudy.Proofs.PieceEnds
import Understudy.Proofs.SpacedTexts
import Understudy.Proofs.ReaderGrafts
import Understudy.Proofs.ClauseEnds
import Understudy.Proofs.RecoveredFiles
import Understudy.Proofs.UnplacedTrees
import Understudy.Proofs.GroupedSpellings
import Understudy.Proofs.SpelledEntries
import Understudy.Proofs.SpelledTypes
import Understudy.Proofs.SpelledFiles
import Understudy.Proofs.ReadSpellings
import Understudy.Proofs.SpellingDepths
import Understudy.Proofs.RegroupedFiles
import Understudy.Proofs.PrintedTokens
import Understudy.Proofs.StrayCharacters
import Understudy.Proofs.DefinitionChains
import Understudy.Proofs.IndexedModules
import Understudy.Proofs.IndexedImports
import Understudy.Proofs.ExpansionRuns
