import WikiTidy.Diagram.Branch
import WikiTidy.Diagram.Edge
import WikiTidy.Diagram.Fence
import WikiTidy.Diagram.Graph
import WikiTidy.Diagram.Line
import WikiTidy.Diagram.NodeText
import WikiTidy.Diagram.Relocate
import WikiTidy.Disk
import WikiTidy.Glob.CharSet
import WikiTidy.Glob.Part
import WikiTidy.Glob.Pattern
import WikiTidy.Glob.Regular
import WikiTidy.Json.Basic
import WikiTidy.Json.Reader
import WikiTidy.Link.Anchors
import WikiTidy.Link.Blob
import WikiTidy.Link.Site
import WikiTidy.Main
import WikiTidy.Numbering.Index
import WikiTidy.Numbering.Renames
import WikiTidy.Numeral.Binary
import WikiTidy.Numeral.Text
import WikiTidy.Page.Cleanup
import WikiTidy.Page.Normalize
import WikiTidy.Path
import WikiTidy.Proofs.Diagram.Arrangement
import WikiTidy.Proofs.Diagram.Choice
import WikiTidy.Proofs.Diagram.Conservation
import WikiTidy.Proofs.Diagram.Counts
import WikiTidy.Proofs.Diagram.Decisions
import WikiTidy.Proofs.Diagram.EdgeLine
import WikiTidy.Proofs.Diagram.Evidence
import WikiTidy.Proofs.Diagram.Exits
import WikiTidy.Proofs.Diagram.Fences
import WikiTidy.Proofs.Diagram.LineKind
import WikiTidy.Proofs.Diagram.ListItem
import WikiTidy.Proofs.Diagram.NodeText
import WikiTidy.Proofs.Diagram.PageParts
import WikiTidy.Proofs.Diagram.Pass
import WikiTidy.Proofs.Diagram.Remarks
import WikiTidy.Proofs.Diagram.Repeat
import WikiTidy.Proofs.Diagram.Reread
import WikiTidy.Proofs.Diagram.Rerun
import WikiTidy.Proofs.Link.Blob
import WikiTidy.Proofs.Link.SectionForms
import WikiTidy.Proofs.Link.Sections
import WikiTidy.Proofs.Link.Site
import WikiTidy.Proofs.Link.SiteLines
import WikiTidy.Proofs.Numbering.Again
import WikiTidy.Proofs.Numbering.CompleteItems
import WikiTidy.Proofs.Numbering.Destinations
import WikiTidy.Proofs.Numbering.Entries
import WikiTidy.Proofs.Numbering.Items
import WikiTidy.Proofs.Numbering.LinkTargets
import WikiTidy.Proofs.Numbering.Nearest
import WikiTidy.Proofs.Numbering.Position
import WikiTidy.Proofs.Numbering.Priority
import WikiTidy.Proofs.Numbering.Renaming
import WikiTidy.Proofs.Numbering.Respelling
import WikiTidy.Proofs.Page.Cleanup
import WikiTidy.Proofs.Page.FinalNewline
import WikiTidy.Proofs.Page.Settled
import WikiTidy.Proofs.Path.LastName
import WikiTidy.Proofs.Settings.Excluded
import WikiTidy.Proofs.Settings.Operands
import WikiTidy.Proofs.Site.Confined
import WikiTidy.Proofs.Site.Discovery
import WikiTidy.Proofs.Site.DryRun
import WikiTidy.Proofs.Site.Export
import WikiTidy.Proofs.Site.FilePath
import WikiTidy.Proofs.Site.InPlace
import WikiTidy.Proofs.Site.Pages
import WikiTidy.Proofs.Site.Steps
import WikiTidy.Proofs.Table
import WikiTidy.Proofs.Text.LineEnds
import WikiTidy.Proofs.Text.LineRoundTrip
import WikiTidy.Proofs.Text.Lines
import WikiTidy.Proofs.Text.Parts
import WikiTidy.Proofs.Text.Replacing
import WikiTidy.Proofs.Text.Split
import WikiTidy.Proofs.Text.Tokens
import WikiTidy.Proofs.Tree.Changes
import WikiTidy.Settings.Arguments
import WikiTidy.Settings.File
import WikiTidy.Settings.Resolve
import WikiTidy.Site.Command
import WikiTidy.Site.Discovery
import WikiTidy.Site.Notice
import WikiTidy.Site.Run
import WikiTidy.Table
import WikiTidy.Text.Basic
import WikiTidy.Text.Lines
import WikiTidy.Text.Order
import WikiTidy.Text.Scan
import WikiTidy.Text.Utf8
import WikiTidy.Tree.Basic
import WikiTidy.Tree.Failure
import WikiTidy.Tree.Links
import WikiTidy.Tree.Operations
import WikiTidy.Tree.Place
import WikiTidy.Tree.RealPath
