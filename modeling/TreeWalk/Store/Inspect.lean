import TreeWalk.Store.Basic
import TreeWalk.Text.Quoted
import TreeWalk.Value.Display

/-!
# Looking into scopes and functions

Short descriptions for the user of the library.  A scope is described by its names only, since its
values may be functions that were made in this very scope.
-/

set_option autoImplicit false

namespace TreeWalk

/-- The names that a scope binds, and whether there is a scope around it. -/
def Frame.inspect (f : Frame) : String :=
  "Environment \x7b bindings: [" ++ ", ".intercalate (f.names.map Text.quote) ++
    "], has_parent: " ++ (if f.parent.isSome then "true" else "false") ++ " \x7d"

/-- The literal of a function value. -/
def Closure.inspect (c : Closure) : String :=
  "Function \x7b literal: " ++ Text.quote c.text ++ ", .. \x7d"

end TreeWalk
