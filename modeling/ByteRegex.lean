import ByteRegex.Journal
import ByteRegex.Main
import ByteRegex.Pattern.Cursor
import ByteRegex.Pattern.Grammar
import ByteRegex.Pattern.Scan
import ByteRegex.Regex.Association
import ByteRegex.Regex.Context
import ByteRegex.Regex.Depth
import ByteRegex.Regex.Language
import ByteRegex.Regex.Normal
import ByteRegex.Regex.Plain
import ByteRegex.Regex.Similar
import ByteRegex.Proofs.Language
import ByteRegex.Proofs.Normal
import ByteRegex.Proofs.Simplification
import ByteRegex.Proofs.Similarity
import ByteRegex.Proofs.Regular
import ByteRegex.Proofs.Dead
import ByteRegex.Proofs.Height
import ByteRegex.Proofs.Size
import ByteRegex.Proofs.Splits
import ByteRegex.Proofs.Rounds
import ByteRegex.Proofs.BoundedHeight
import ByteRegex.Proofs.Search
import ByteRegex.Proofs.Contexts
import ByteRegex.Proofs.Offsets
import ByteRegex.Proofs.Grammar
import ByteRegex.Proofs.Parse
import ByteRegex.Proofs.Members
import ByteRegex.Proofs.Scan
import ByteRegex.Proofs.ErrorOffset
import ByteRegex.Proofs.Progress
import ByteRegex.Proofs.NormalForm
import ByteRegex.Proofs.Utf8
import ByteRegex.Proofs.Window
import ByteRegex.Proofs.Rendering
import ByteRegex.Proofs.Association
import ByteRegex.Proofs.Rereading
import ByteRegex.Proofs.Lines
import ByteRegex.Proofs.Arguments
import ByteRegex.Proofs.Script
import ByteRegex.Proofs.Program
import ByteRegex.Proofs.Truncation
