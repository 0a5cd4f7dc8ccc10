import GraphQubo.Job.Encode
import GraphQubo.Toml.Library
import GraphQubo.Yaml.Reader

/-!
# GraphQubo.Job.Load

Configurations and jobs from texts and files, and their TOML texts.

1. A text is read to its end as a document, then its weights are checked; so a
   malformed document is never reported as one with a bad weight.
2. TOML texts are written and read by a library, here the standard one.
3. A file whose name ends in `.yaml` or `.yml` is YAML, every other one is TOML.
   What follows the last point is the end of a name, unless the point is its
   first character.
4. A file that is not there, or whose bytes are not UTF-8, is unreadable.
-/

namespace GraphQubo

open Toml (Library)

/-- The formats of documents. -/
inductive Format where
  | toml
  | yaml
  deriving DecidableEq, Repr

/-! ## Configurations -/

/-- A configuration that was read, if its weights are finite; nothing was read
from a malformed document. -/
def Constraints.checked (malformed : ConfigError Float) :
    Option (Constraints Float) → Except (ConfigError Float) (Constraints Float)
  | some c => do
    c.validate
    return c
  | none => throw malformed

/-- The configuration that a TOML text describes, as a library reads it. -/
def Constraints.readToml (library : Library) (text : String) :
    Except (ConfigError Float) (Constraints Float) :=
  Constraints.checked .malformedToml
    ((library.read? text).bind fun t => Constraints.ofDocument? (Toml.Value.table t))

/-- The configuration that a text describes. -/
def Constraints.ofText (format : Format) (text : String) :
    Except (ConfigError Float) (Constraints Float) :=
  match format with
  | .toml => Constraints.readToml .standard text
  | .yaml => Constraints.checked .malformedYaml ((Yaml.parse? text).bind Constraints.ofDocument?)

/-- The TOML text that a library writes for a configuration. -/
def Constraints.writeToml? (library : Library) (c : Constraints Float) : Option String :=
  library.write? c.fields

/-- A configuration as a TOML text; it has no whole numbers, so there is one. -/
def Constraints.toToml (c : Constraints Float) : String := Toml.render (Toml.entries c.fields)

/-! ## Jobs -/

/-- A job that was read, if its penalty weights are finite. -/
def Job.checked (malformed : ConfigError Float) :
    Option (Job Float) → Except (ConfigError Float) (Job Float)
  | some j => do
    j.constraints.validate
    return j
  | none => throw malformed

/-- The job that a TOML text describes, as a library reads it. -/
def Job.readToml (library : Library) (text : String) : Except (ConfigError Float) (Job Float) :=
  Job.checked .malformedToml
    ((library.read? text).bind fun t => Job.ofDocument? (Toml.Value.table t))

/-- The job that a text describes. -/
def Job.ofText (format : Format) (text : String) : Except (ConfigError Float) (Job Float) :=
  match format with
  | .toml => Job.readToml .standard text
  | .yaml => Job.checked .malformedYaml ((Yaml.parse? text).bind Job.ofDocument?)

/-- The TOML text that a library writes for a job, if TOML has its numbers. -/
def Job.writeToml? (library : Library) (j : Job Float) : Option String :=
  library.write? j.fields

/-- A job as a TOML text, if TOML has its numbers. -/
def Job.toToml? (j : Job Float) : Option String := j.writeToml? .standard

/-! ## Files -/

/-- A file: its name, and its bytes if it is there. -/
structure SourceFile where
  name : String
  bytes : Option ByteArray

namespace SourceFile

/-- What follows the last point of a name, unless the name begins with it. -/
def extension? (name : String) : Option String :=
  let reversed := name.toList.reverse
  let ending := reversed.takeWhile (· != '.')
  let before := (reversed.dropWhile (· != '.')).drop 1
  if before.isEmpty then none else some (String.ofList ending.reverse)

/-- The format that a name stands for. -/
def formatOf (name : String) : Format :=
  match extension? name with
  | some "yaml" | some "yml" => .yaml
  | _ => .toml

/-- The text of a file. -/
def text (f : SourceFile) : Except (ConfigError Float) String :=
  match f.bytes.bind String.fromUTF8? with
  | some s => .ok s
  | none => .error .unreadable

end SourceFile

/-- The configuration in a file of a known format. -/
def Constraints.ofFile (format : Format) (f : SourceFile) :
    Except (ConfigError Float) (Constraints Float) := do
  Constraints.ofText format (← f.text)

/-- The configuration in a file, whose name tells the format. -/
def Constraints.load (f : SourceFile) : Except (ConfigError Float) (Constraints Float) :=
  Constraints.ofFile (SourceFile.formatOf f.name) f

/-- The job in a file, whose name tells the format. -/
def Job.load (f : SourceFile) : Except (ConfigError Float) (Job Float) := do
  Job.ofText (SourceFile.formatOf f.name) (← f.text)

/-- The matrix of the job in a file. -/
def Job.runFile (f : SourceFile) : Except (ConfigError Float) (Matrix Float) := do
  (← Job.load f).runInMemory

end GraphQubo
