import TypeCalculus.Text.Case
import TypeCalculus.Text.Quoted

/-! Levels of a journal, by rising weight. -/

namespace TypeCalculus.Journal

/-- How much attention an entry asks for. -/
inductive Level where
  | debug | info | warn | error | dpanic | panic | fatal
  deriving DecidableEq, Repr

namespace Level

def all : List Level := [debug, info, warn, error, dpanic, panic, fatal]

def name : Level → String
  | debug => "debug"
  | info => "info"
  | warn => "warn"
  | error => "error"
  | dpanic => "dpanic"
  | panic => "panic"
  | fatal => "fatal"

def rank (l : Level) : Nat := all.idxOf l

/-- The level with a name in any case; no name at all means `info`. -/
def ofName? (name : String) : Option Level :=
  if name = "" then some info
  else
    let lower := String.ofList (name.toList.map fun c => (Text.lowerChar c).headD c)
    all.find? (·.name = lower)

/-- How a name that no level has is told. -/
def unknownText (name : String) : String := "unrecognized level: " ++ Text.quote name

/-- The level is kept where only entries from a threshold on are. -/
def reaches (l threshold : Level) : Bool := threshold.rank ≤ l.rank

/-- The number of the terminal colour that shows a level. -/
def colour : Level → String
  | debug => "35"
  | info => "34"
  | warn => "33"
  | _ => "31"

end Level

end TypeCalculus.Journal
