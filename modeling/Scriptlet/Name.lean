/-!
# Names

Names of variables and functions ignore the case of the letters `a` to `z` and
of no others.  Every table is keyed by the folded name, in which these letters
are small; the spelling of a declaration is kept beside its entry.
-/

namespace Scriptlet.Name

/-- The form of a name under which tables keep it: its ASCII letters made small. -/
def fold (name : String) : String :=
  String.ofList (name.toList.map Char.toLower)

/-- The name that holds the arguments beyond the parameters of a variadic function. -/
def variadic : String := "..."

end Scriptlet.Name
