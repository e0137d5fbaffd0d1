import ElmScope.Main
import ElmScope.Proofs.Register.Order
import ElmScope.Proofs.Exports.Table
import ElmScope.Proofs.Exports.View
import ElmScope.Proofs.Exports.Listed
import ElmScope.Proofs.Exports.Contents
import ElmScope.Proofs.Lookup.Imports
import ElmScope.Proofs.Lookup.Defaults
import ElmScope.Proofs.Lookup.Qualifier
import ElmScope.Proofs.Lookup.Clause
import ElmScope.Proofs.Reference.Path
import ElmScope.Proofs.Reference.Constructors
import ElmScope.Proofs.Documents.Change
import ElmScope.Proofs.Documents.Mirror
import ElmScope.Proofs.Text.EditorPlaces
import ElmScope.Proofs.Referent.FixedPoint
import ElmScope.Proofs.Referent.Innermost
import ElmScope.Proofs.Documents.Separate
import ElmScope.Proofs.Lookup.Unrelated
import ElmScope.Proofs.Referent.WellFormed
import ElmScope.Proofs.Referent.Descent
import ElmScope.Proofs.FileId.Coding
import ElmScope.Proofs.FileId.Identity
import ElmScope.Proofs.Text.Rows
import ElmScope.Proofs.Text.Places
import ElmScope.Proofs.Text.Boundaries
import ElmScope.Proofs.Text.Replaced
import ElmScope.Proofs.Source.Before
import ElmScope.Proofs.Source.Cursor
import ElmScope.Proofs.Register.Commute
import ElmScope.Proofs.Disk.Below
import ElmScope.Proofs.Documents.Directory
import ElmScope.Proofs.Types.RecordAlias
import ElmScope.Proofs.Types.RecordFields
import ElmScope.Proofs.Types.Signatures
import ElmScope.Proofs.Types.AccessChain
import ElmScope.Proofs.Types.Parameters
import ElmScope.Proofs.Referent.Annotated
import ElmScope.Proofs.Referent.Accessed
