import TemplateTree.Template
import TemplateTree.Node.Summary
import TemplateTree.Json.Writer
import TemplateTree.Command.Run
import TemplateTree.Main
import TemplateTree.Proofs.ElseBranches
import TemplateTree.Proofs.BackPatching
import TemplateTree.Proofs.Errors
import TemplateTree.Proofs.ReadBack
import TemplateTree.Proofs.Completions.Answer
import TemplateTree.Proofs.Contents
import TemplateTree.Proofs.Bodies
import TemplateTree.Proofs.Joining
import TemplateTree.Proofs.TokenSpellings
import TemplateTree.Proofs.AnonymousBlocks
import TemplateTree.Proofs.Provenance
import TemplateTree.Proofs.Divisions
import TemplateTree.Proofs.WellFormed
import TemplateTree.Proofs.HeadContents
import TemplateTree.Proofs.Conversion
import TemplateTree.Proofs.Headings
import TemplateTree.Proofs.Warnings
import TemplateTree.Proofs.HtmlRuns
import TemplateTree.Proofs.BlankLines
import TemplateTree.Proofs.TextRuns
import TemplateTree.Proofs.Addresses
import TemplateTree.Proofs.Walks
import TemplateTree.Proofs.Summaries
import TemplateTree.Proofs.PlainReports
import TemplateTree.Proofs.Progress.Plan
import TemplateTree.Proofs.Progress.Grammar
import TemplateTree.Proofs.Progress.Tracks
import TemplateTree.Proofs.Positions
