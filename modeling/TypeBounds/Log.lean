/-!
# Log records and their filter

Records below the level of a warning are dropped unless they belong to an enabled section. The
section is an attribute, either of the record itself or given to the logger before.
-/

namespace TypeBounds.Log

/-- Levels are numbers; the larger, the more severe. -/
abbrev Level := Int

def Level.warn : Level := 4
def Level.error : Level := 8

/-- The sections whose records pass below the level of a warning. -/
def enabledSections : List String := ["bindings", "problem"]

/-- A section is enabled when it starts with the name of an enabled one. -/
def isEnabledSection (name : String) : Bool :=
  enabledSections.any fun s => name.startsWith s

/-- A key and its value. -/
structure Attribute where
  key : String
  value : String

def Attribute.label (a : Attribute) : String := a.key ++ "=" ++ a.value

/-- Whether an attribute puts what carries it into an enabled section. -/
def Attribute.enables (a : Attribute) : Bool := a.key = "section" && isEnabledSection a.value

/-- One record. -/
structure Record where
  level : Level
  message : String
  attributes : List Attribute

/-- What a logger was told before: attributes for all later records, or a group to put them in. -/
inductive Setting where
  | attr (a : Attribute)
  | group (name : String)

def Setting.label : Setting → String
  | attr a => a.label
  | group name => "group " ++ name

/-- A logger: the least level that is recorded, and its settings in order. -/
structure Logger where
  least : Level
  settings : List Setting := []

namespace Logger

/-- The logger with further attributes. -/
def withAttributes (l : Logger) (attributes : List Attribute) : Logger :=
  { l with settings := l.settings ++ attributes.map .attr }

/-- The logger inside a group; the empty name opens none. -/
def withGroup (l : Logger) (name : String) : Logger :=
  if name = "" then l else { l with settings := l.settings ++ [.group name] }

/-- Whether records of a level are recorded at all. -/
def isEnabled (l : Logger) (level : Level) : Bool := l.least ≤ level

/-- Whether the logger itself is in an enabled section. -/
def inSection (l : Logger) : Bool :=
  l.settings.any fun
    | .attr a => a.enables
    | .group _ => false

/-- **The filter.** Whether a record arrives. -/
def passes (l : Logger) (r : Record) : Bool :=
  l.isEnabled r.level &&
    (Level.warn ≤ r.level || l.inSection || r.attributes.any Attribute.enables)

end Logger

/-- The default logger records errors only. -/
def defaultLogger : Logger := ⟨Level.error, []⟩

/-- Whether an attribute is written out: the time is left out. -/
def isWritten (key : String) : Bool := key ≠ "time"

end TypeBounds.Log
