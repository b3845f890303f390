import ApiPresence.FileSystem.Directory
import ApiPresence.Main
import ApiPresence.Proofs.CommandLine.Parse
import ApiPresence.Proofs.Dependence
import ApiPresence.Proofs.ErrorLine
import ApiPresence.Proofs.Loading
import ApiPresence.Proofs.Refusal
import ApiPresence.Proofs.Render.Coloring
import ApiPresence.Proofs.Render.Lines
import ApiPresence.Proofs.Render.Newline
import ApiPresence.Proofs.Render.Yaml
import ApiPresence.Proofs.Report
import ApiPresence.Proofs.Report.Totals
import ApiPresence.Proofs.Settings
import ApiPresence.Proofs.Superset
import ApiPresence.Proofs.Tree.Accessors
import ApiPresence.Proofs.Validation.Counts
import ApiPresence.Proofs.Validation.Growth
import ApiPresence.Proofs.Validation.Insertion
import ApiPresence.Proofs.Validation.Unread
import ApiPresence.Proofs.Writer
import ApiPresence.Proofs.Yaml.Entries
import ApiPresence.Proofs.Yaml.Precedence
