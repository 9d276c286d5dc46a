/-!
# Service names

The name under which a service reports: its base name, and after a percent
sign the label that the operator gave it, if there is one.
-/

namespace BundleTracker

/-- The base name of a service that was not given one. -/
def defaultServiceName : String := "(scdb)"

def serviceName (base label : Option String) : String :=
  let base := base.getD defaultServiceName
  match label with
  | some label => s!"{base}%{label}"
  | none => base

end BundleTracker
