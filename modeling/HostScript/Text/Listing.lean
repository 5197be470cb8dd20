/-!
# Lists in messages
-/

set_option autoImplicit false

namespace HostScript

/-- Texts with a comma and a blank between them. -/
def commaSeparated (texts : List String) : String := ", ".intercalate texts

end HostScript
