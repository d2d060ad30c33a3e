import RazorTidy.Text.Basic
import RazorTidy.Text.Ranges
import RazorTidy.Text.Blank
import RazorTidy.Text.Letter
import RazorTidy.Text.Numeral
import RazorTidy.Text.Word
import RazorTidy.Text.Case
import RazorTidy.Text.Lines
import RazorTidy.Text.Joining
import RazorTidy.Text.Hidden
import RazorTidy.Text.Bytes
import RazorTidy.Text.Cursor
import RazorTidy.Text.Quoted
import RazorTidy.Vocabulary
import RazorTidy.Token.Basic
import RazorTidy.Token.Literal
import RazorTidy.Token.Header
import RazorTidy.Token.Expression
import RazorTidy.Token.Tag
import RazorTidy.Token.Mode
import RazorTidy.Segmentation
import RazorTidy.CodeSection
import RazorTidy.Attribute.Map
import RazorTidy.Attribute.Region
import RazorTidy.Outline
import RazorTidy.Node.Basic
import RazorTidy.Node.Outline
import RazorTidy.Event
import RazorTidy.Scaffold
import RazorTidy.Template
import RazorTidy.Style
import RazorTidy.Doc.Basic
import RazorTidy.Doc.Render
import RazorTidy.Doc.Outline
import RazorTidy.Layout.LineBlock
import RazorTidy.Layout.Inline
import RazorTidy.Layout.Item
import RazorTidy.Layout.Node
import RazorTidy.Format
import RazorTidy.Files.Path
import RazorTidy.Files.Host
import RazorTidy.Files.Tree
import RazorTidy.StyleFile.Expansion
import RazorTidy.StyleFile.Toml
import RazorTidy.StyleFile.Lookup
import RazorTidy.Command.Invocation
import RazorTidy.Command.Run
import RazorTidy.Main
import RazorTidy.Proofs.Listing
import RazorTidy.Proofs.Visible
import RazorTidy.Proofs.Keyword
import RazorTidy.Proofs.Forest
import RazorTidy.Proofs.Serialization
import RazorTidy.Proofs.Spelling
import RazorTidy.Proofs.Reading
import RazorTidy.Proofs.Plain
import RazorTidy.Proofs.PlainPrinting
import RazorTidy.Proofs.AttributeRegions
import RazorTidy.Proofs.PlainTokens
import RazorTidy.Proofs.PlainReading
import RazorTidy.Proofs.RoundTrip
import RazorTidy.Proofs.Idempotence
import RazorTidy.Proofs.WellFormed
import RazorTidy.Proofs.Printing
import RazorTidy.Proofs.Isolation
import RazorTidy.Proofs.Octets
import RazorTidy.Proofs.ByteScan
import RazorTidy.Proofs.Spans
import RazorTidy.Proofs.Headers
import RazorTidy.Proofs.OpenModes
import RazorTidy.Proofs.LineBreaks
import RazorTidy.Proofs.LineBlocks
import RazorTidy.Proofs.Printable
import RazorTidy.Proofs.LineStructure
import RazorTidy.Proofs.Openers
import RazorTidy.Proofs.OneLine
import RazorTidy.Proofs.ForestLine
import RazorTidy.Proofs.KeptSections
import RazorTidy.Proofs.Lookahead
import RazorTidy.Proofs.TokensAhead
import RazorTidy.Proofs.UnnoticedModes
import RazorTidy.Proofs.VoidSpelling
import RazorTidy.Proofs.Strokes
import RazorTidy.Proofs.Placement
import RazorTidy.Proofs.Nesting
import RazorTidy.Proofs.RunStrokes
import RazorTidy.Proofs.OpenComments
import RazorTidy.Proofs.LineComments
import RazorTidy.Proofs.FileRuns
import RazorTidy.Proofs.FileChecks
import RazorTidy.Proofs.Reindentation
import RazorTidy.Proofs.Linearization
import RazorTidy.Proofs.PrintMarks
import RazorTidy.Proofs.FlatGroups
import RazorTidy.Proofs.PrintedAttributes
import RazorTidy.Proofs.Respacing
import RazorTidy.Proofs.RunLine
import RazorTidy.Proofs.HiddenCode
import RazorTidy.Proofs.RawText
import RazorTidy.Proofs.Neighbours
import RazorTidy.Proofs.FusedExpressions
import RazorTidy.Proofs.TagPattern
import RazorTidy.Proofs.AttributeGrammar
import RazorTidy.Proofs.TidyDocs
import RazorTidy.Proofs.HeaderPlaces
import RazorTidy.Proofs.TokensAlone
import RazorTidy.Proofs.Measuring
import RazorTidy.Proofs.StyleLookup
import RazorTidy.Proofs.UnbrokenTexts
