/-!
# Release

The name and the version under which the program announces itself.
-/

namespace FrontEnd

namespace Release

/-- The announced name. -/
def name : String := "lexalr"

/-- The announced version. -/
def version : String := "0.1.0"

end Release

end FrontEnd
