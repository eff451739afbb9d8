import TreeWalk.Main
import TreeWalk.Program.Cursor
import TreeWalk.Program.Equality
import TreeWalk.Proofs.Eval.Agreement
import TreeWalk.Proofs.Eval.FunctionFree
import TreeWalk.Proofs.Eval.HashLiteral
import TreeWalk.Proofs.Eval.LocalWrites
import TreeWalk.Proofs.Eval.Locality
import TreeWalk.Proofs.Eval.Repeatable
import TreeWalk.Proofs.Eval.Unmentioned
import TreeWalk.Proofs.Parser.Fallback
import TreeWalk.Proofs.Parser.Terminates
import TreeWalk.Proofs.Program.Boundaries
import TreeWalk.Proofs.Program.InOrder
import TreeWalk.Proofs.Program.Layout
import TreeWalk.Proofs.Program.Lines
import TreeWalk.Proofs.Program.Numeral
import TreeWalk.Proofs.Program.RoundTrip
import TreeWalk.Proofs.Program.Separate
import TreeWalk.Proofs.Program.ValidPrefix
import TreeWalk.Proofs.Shell.Session
import TreeWalk.Proofs.Store.Binding
import TreeWalk.Proofs.Store.Identity
import TreeWalk.Proofs.Value.ReadBack
import TreeWalk.Store.Inspect
import TreeWalk.Value.Equality
