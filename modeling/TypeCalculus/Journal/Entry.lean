import TypeCalculus.Event
import TypeCalculus.Journal.Level

/-! Entries of a journal and the two forms they are written in: objects for machines, and coloured lines
    for people. Entries below the level of the journal are left out. -/

namespace TypeCalculus.Journal

/-- An entry; the part of the program it comes from may be unnamed. -/
structure Entry where
  level : Level
  message : String
  source : String := ""
  fields : List (String × Field) := []

/-- A character inside a quoted text. -/
def escape (c : Char) : String :=
  if c == '"' then "\\\""
  else if c == '\\' then "\\\\"
  else if c == '\n' then "\\n"
  else if c == '\r' then "\\r"
  else if c == '\t' then "\\t"
  else if c.toNat < 0x20 then "\\u" ++ Text.hexPadded 4 c.toNat
  else String.singleton c

def quote (s : String) : String := "\"" ++ String.join (s.toList.map escape) ++ "\""

def Field.write : Field → String
  | .text s => quote s
  | .number n => toString n
  | .flag b => if b then "true" else "false"

namespace Entry

/-- The members of the object of an entry, in order. -/
def members (e : Entry) : List (String × Field) :=
  [("level", .text e.level.name)] ++
    (if e.source = "" then [] else [("logger", .text e.source)]) ++
    [("msg", .text e.message)] ++ e.fields

/-- The object of an entry. -/
def object (e : Entry) : String :=
  "\x7b" ++ ",".intercalate (e.members.map fun (n, f) => quote n ++ ":" ++ Field.write f) ++ "\x7d"

/-- The coloured line of an entry. -/
def line (e : Entry) : String :=
  let level :=
    "\x1b[" ++ e.level.colour ++ "m" ++ Text.upper e.level.name ++ "\x1b[0m"
  let context :=
    "\x7b" ++ ", ".intercalate (e.fields.map fun (n, f) => quote n ++ ": " ++ Field.write f) ++ "\x7d"
  "\t".intercalate ([level] ++ (if e.source = "" then [] else [e.source]) ++ [e.message] ++
    (if e.fields.isEmpty then [] else [context]))

/-- The entry of an event in the work of a checker. -/
def ofEvent (e : Event) : Entry :=
  { level := if e.isWarning then .warn else .debug
    message := e.message
    source := "checker"
    fields := e.fields }

end Entry

/-- The level that a journal starts from, by its name. -/
def threshold (name : String) : Except String Level :=
  match Level.ofName? name with
  | some l => .ok l
  | none => .error ("log level: " ++ Level.unknownText name)

/-- The entries that a journal of some level keeps. -/
def kept (threshold : Level) (entries : List Entry) : List Entry :=
  entries.filter (·.level.reaches threshold)

end TypeCalculus.Journal
