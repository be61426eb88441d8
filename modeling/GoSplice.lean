import GoSplice.Main
import GoSplice.Proofs.Match
import GoSplice.Proofs.Items
import GoSplice.Proofs.Siblings
import GoSplice.Proofs.Ranges
import GoSplice.Proofs.LayerFiles
import GoSplice.Proofs.Operations
import GoSplice.Proofs.Loading
import GoSplice.Proofs.Writing
import GoSplice.Proofs.Preservation
import GoSplice.Proofs.PackageNames
import GoSplice.Proofs.Mirrors
import GoSplice.Proofs.DryRun
import GoSplice.Proofs.Steps
import GoSplice.Proofs.Stages
import GoSplice.Proofs.Frames
import GoSplice.Proofs.Literals
import GoSplice.Proofs.Reading
import GoSplice.Proofs.Relexing
import GoSplice.Proofs.Excerpts
import GoSplice.Proofs.Appending
import GoSplice.Proofs.Rows
import GoSplice.Proofs.Phrases
import GoSplice.Proofs.Declared
import GoSplice.Proofs.Paragraphs
import GoSplice.Proofs.Composition
import GoSplice.Proofs.PartFiles
import GoSplice.Proofs.PartEdits
import GoSplice.Proofs.PartImports
import GoSplice.Proofs.PartPackages
import GoSplice.Proofs.PartSteps
import GoSplice.Proofs.Extracts
import GoSplice.Proofs.Snippets
import GoSplice.Proofs.Validity
import GoSplice.Proofs.Growth
import GoSplice.Proofs.Reloading
import GoSplice.Proofs.Additions
import GoSplice.Proofs.ImportLists
import GoSplice.Proofs.Failures
import GoSplice.Proofs.Batches
import GoSplice.Proofs.SnippetTexts
import GoSplice.Proofs.Outlines
import GoSplice.Proofs.OutlineFiles
import GoSplice.Proofs.Cuts
import GoSplice.Proofs.OutlineEdits
import GoSplice.Proofs.FileEdits
import GoSplice.Proofs.ValueGroups
import GoSplice.Proofs.Confinement
import GoSplice.Proofs.Coherence
import GoSplice.Proofs.Vocabulary
import GoSplice.Proofs.ImportPlaces
import GoSplice.Proofs.Tails
import GoSplice.Proofs.TakenTexts
import GoSplice.Proofs.Coverings
import GoSplice.Proofs.Retention
import GoSplice.Proofs.ImportParts
import GoSplice.Proofs.Remainders
import GoSplice.Proofs.ExistingFiles
import GoSplice.Proofs.JsonTexts
import GoSplice.Proofs.TransformLists
import GoSplice.Proofs.CommonBlocks
import GoSplice.Proofs.Patches
import GoSplice.Proofs.LayerDiffs
import GoSplice.Proofs.ClosingComments
import GoSplice.Proofs.Replacements
import GoSplice.Proofs.Insertions
import GoSplice.Proofs.ImportEdits
import GoSplice.Proofs.DiskTrees
import GoSplice.Proofs.LayerCalls
import GoSplice.Proofs.Footprints
import GoSplice.Proofs.BatchErrors
import GoSplice.Proofs.StoredFiles
import GoSplice.Proofs.TouchedFiles
import GoSplice.Proofs.Commutation
import GoSplice.Proofs.Holdings
import GoSplice.Proofs.OtherFiles
import GoSplice.Proofs.Spacings
import GoSplice.Proofs.Reruns
import GoSplice.Proofs.Deletions
import GoSplice.Proofs.WritableFiles
import GoSplice.Proofs.ExternalTests
import GoSplice.Proofs.ImportGroups
import GoSplice.Proofs.AddedImports
import GoSplice.Proofs.RoundTrips
import GoSplice.Proofs.InsertedItems
import GoSplice.Proofs.LineEnds
import GoSplice.Proofs.CommentLines
import GoSplice.Proofs.ErrorPlaces
import GoSplice.Proofs.UsableNames
import GoSplice.Proofs.BoundNames
import GoSplice.Proofs.Terminators
import GoSplice.Proofs.DocGroups
import GoSplice.Proofs.ModuleSearch
import GoSplice.Proofs.Spellings
import GoSplice.Proofs.LooseLookup
import GoSplice.Proofs.FormatPasses
import GoSplice.Proofs.MemberReads
import GoSplice.Proofs.FinalLineEnds
import GoSplice.Proofs.CanonicalPaths
import GoSplice.Proofs.LayerHistories
import GoSplice.Proofs.StrictReading
import GoSplice.Proofs.JoinedPaths
import GoSplice.Proofs.ModuleDirectives
import GoSplice.Proofs.WorkingModules
import GoSplice.Proofs.LayerTrees
import GoSplice.Proofs.TypeWords
import GoSplice.Proofs.LoadFailures
import GoSplice.Proofs.ClimbingPaths
import GoSplice.Proofs.TrailingDirectories
import GoSplice.Proofs.Positions
import GoSplice.Proofs.SpelledNames
import GoSplice.Proofs.FirstImports
