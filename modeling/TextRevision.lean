import TextRevision.Main
import TextRevision.Change.Divide
import TextRevision.Change.Edit
import TextRevision.Change.Position
import TextRevision.ChangeSet.Divide
import TextRevision.ChangeSet.Edit
import TextRevision.ChangeSet.Walks
import TextRevision.Cursor.LineReader
import TextRevision.Grapheme.Category
import TextRevision.Grapheme.Cluster
import TextRevision.Grapheme.Column
import TextRevision.Json.Writer
import TextRevision.Proofs.Change.Bordering
import TextRevision.Proofs.Change.Convergence
import TextRevision.Proofs.Change.Dividing
import TextRevision.Proofs.Change.Fitting
import TextRevision.Proofs.Change.Misfits
import TextRevision.Proofs.Change.Numbers
import TextRevision.Proofs.Change.Outlines
import TextRevision.Proofs.Change.Patching
import TextRevision.Proofs.Change.Redoing
import TextRevision.Proofs.Change.Tiling
import TextRevision.Proofs.Change.Tracing
import TextRevision.Proofs.Change.Tracked
import TextRevision.Proofs.ChangeSet.Accepting
import TextRevision.Proofs.ChangeSet.Fitting
import TextRevision.Proofs.ChangeSet.Form
import TextRevision.Proofs.Cursor.Fragments
import TextRevision.Proofs.Cursor.LineRange
import TextRevision.Proofs.Grapheme.Caret
import TextRevision.Proofs.Replay
import TextRevision.Proofs.Rope.Bulk
import TextRevision.Proofs.Rope.Decomposing
import TextRevision.Proofs.Rope.Regrouping
import TextRevision.Proofs.Rope.Sameness
import TextRevision.Proofs.Rope.Unbroken
