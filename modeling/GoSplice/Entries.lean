/-!
# Entries

Values under names, in the order in which the names were first used.
-/

namespace GoSplice.Entries

/-- The entries with one more, in the place of the one of the same name. -/
def put (name : String) (value : β) : List (String × β) → List (String × β)
  | [] => [(name, value)]
  | e :: r => if e.1 = name then (name, value) :: r else e :: put name value r

end GoSplice.Entries
