import ScriptModules.Load.Basic
import ScriptModules.Resolve.Basic

/-!
# Failures

A failure says what was to be done, and below that what prevented it, from the nearest cause to the
last.
-/

namespace ScriptModules.CommandLine

/-- What was to be done, and what prevented it. -/
structure Failure where
  context : String
  causes : List String
  deriving DecidableEq, Repr

/-- A cause that runs over several lines is indented on every line. -/
private def indentCause (first further : String) (cause : String) : String :=
  first ++ ("\n" ++ further).intercalate (cause.splitOn "\n")

/-- The lines below the heading. Several causes are numbered. -/
private def causeLines : List String → List String
  | [cause] => [indentCause "    " "    " cause]
  | causes => causes.zipIdx.map fun (cause, i) =>
    let number := toString i
    let padding := String.ofList (List.replicate (5 - number.length) ' ')
    indentCause (padding ++ number ++ ": ") "       " cause

/-- The report of a failure. -/
def Failure.text (f : Failure) : String :=
  "Error: " ++ f.context ++
    (if f.causes.isEmpty then ""
    else "\n\nCaused by:\n" ++ "\n".intercalate (causeLines f.causes)) ++ "\n"

/-- What prevented a configuration from being had. -/
def configCauses (f : Project.Fault) : List String :=
  match f with
  | .read _ cause => [f.text, cause.text]
  | .parse _ cause => [f.text, cause.text]
  | .glob _ pattern cause => [f.text, Project.globFaultText pattern cause]
  | .circularExtends _ | .extendsNotFound .. => [f.text]

/-- What prevented a specifier from being resolved. -/
def resolveCauses (f : Resolve.Fault) : List String :=
  match f with
  | .config cause => configCauses cause
  | _ => [f.text]

/-- What prevented a module from being loaded. -/
def loadCauses (f : Load.Fault) : List String :=
  match f with
  | .read _ cause => [f.text, cause.text]
  | .config cause => configCauses cause
  | .unsupportedUrl _ | .invalidUtf8 _ | .transform _ => [f.text]

end ScriptModules.CommandLine
