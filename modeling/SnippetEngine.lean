import SnippetEngine.Document.Environment
import SnippetEngine.Proofs.Code.WholeIdentifiers
import SnippetEngine.Proofs.Document.ClassNames
import SnippetEngine.Proofs.Document.Completions
import SnippetEngine.Proofs.Document.Cursor
import SnippetEngine.Proofs.Document.EqualMatches
import SnippetEngine.Proofs.Document.FreeNames
import SnippetEngine.Proofs.Document.ImportPlace
import SnippetEngine.Proofs.Document.Placeholders
import SnippetEngine.Proofs.Document.Presence
import SnippetEngine.Proofs.Document.References
import SnippetEngine.Proofs.Document.Splice
import SnippetEngine.Proofs.Document.Substitution
import SnippetEngine.Proofs.Document.Validity
import SnippetEngine.Proofs.Folder
import SnippetEngine.Proofs.Match.Copying
import SnippetEngine.Proofs.Match.Roots
import SnippetEngine.Proofs.Project
import SnippetEngine.Proofs.Session.Excerpts
import SnippetEngine.Proofs.Session.Failures
import SnippetEngine.Proofs.Session.History
import SnippetEngine.Proofs.Session.Overviews
import SnippetEngine.Proofs.Session.Renderings
import SnippetEngine.Proofs.Session.Scoping
import SnippetEngine.Proofs.Session.States
import SnippetEngine.Proofs.Session.Walk
import SnippetEngine.Proofs.Template.Grammar
import SnippetEngine.Proofs.Template.RoundTrip
import SnippetEngine.Proofs.TypeName
import SnippetEngine.Rehearsal.Recorder
import SnippetEngine.Rehearsal.Scripted
