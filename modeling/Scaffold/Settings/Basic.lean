/-
Scaffold/Settings/Basic.lean

Settings, and how layers of them combine.

Every setting is optional, so that settings from a file and settings from the
command line can be laid over each other: `Settings.merge` takes each value
from the upper layer where it is set there and from the lower one otherwise,
and collects the exclude patterns of both.  Unset values get their defaults
only when the settings are resolved.
-/
import Scaffold.Json.Value

namespace Scaffold

/-- One layer of settings. -/
structure Settings where
  /-- The directory sources are looked for in. -/
  src : Option String
  /-- The directory tests are written to. -/
  output : Option String
  /-- The glob a source has to match. -/
  pattern : Option String
  /-- The name of the test framework. -/
  framework : Option String
  /-- Whether existing tests are written again. -/
  overwrite : Option Bool
  /-- Whether only missing tests are written. -/
  onlyMissing : Option Bool
  /-- The globs a source must not match. -/
  exclude : List String
deriving DecidableEq, Repr

namespace Settings

def unset : Settings := ⟨none, none, none, none, none, none, []⟩

/-- The settings of `lower` with those of `upper` laid over them. -/
def merge (lower upper : Settings) : Settings :=
  { src := upper.src <|> lower.src
    output := upper.output <|> lower.output
    pattern := upper.pattern <|> lower.pattern
    framework := upper.framework <|> lower.framework
    overwrite := upper.overwrite <|> lower.overwrite
    onlyMissing := upper.onlyMissing <|> lower.onlyMissing
    exclude := lower.exclude ++ upper.exclude }

end Settings

end Scaffold
