import TypeCalculus.Ty.Literal

/-! Options of the `check` command. They stand before the documents, begin with one or two minus signs and
    end at the first argument that does not, or at `--`. -/

namespace TypeCalculus.CommandLine

/-- The options and what follows them. -/
structure Options where
  config : String := ""
  db : String := ""
  dump : Bool := false
  verbose : Bool := false
  documents : List String := []

/-- What is wrong with options. -/
inductive OptionError where
  | malformed (arg : String)
  | undefined (name : String)
  | valueMissing (name : String)
  | notFlag (name value : String)
  /-- Only the description of the options is asked for. -/
  | help

def OptionError.message? : OptionError → Option String
  | malformed arg => some ("bad flag syntax: " ++ arg)
  | undefined name => some ("flag provided but not defined: -" ++ name)
  | valueMissing name => some ("flag needs an argument: -" ++ name)
  | notFlag name value =>
    some ("invalid boolean value " ++ Text.quote value ++ " for -" ++ name ++ ": parse error")
  | help => none

/-- What an argument is where an option may stand. -/
inductive Argument where
  | plain
  | stop
  | malformed
  | option (name : String) (value : Option String)

/-- A name and the value after an equals sign, which is not the first character. -/
def splitValue (text : List Char) : Argument :=
  let name := text.take 1 ++ (text.drop 1).takeWhile (· ≠ '=')
  match text.drop name.length with
  | [] => .option (String.ofList name) none
  | _ :: value => .option (String.ofList name) (some (String.ofList value))

def Argument.of (arg : String) : Argument :=
  match arg.toList with
  | '-' :: '-' :: [] => stop
  | '-' :: '-' :: '-' :: _ | '-' :: '-' :: '=' :: _ | '-' :: '=' :: _ => malformed
  | '-' :: '-' :: text => splitValue text
  | '-' :: c :: text => splitValue (c :: text)
  | _ => plain

/-- An option that takes a text. -/
def Options.setText? (o : Options) (name : String) : Option (String → Options) :=
  match name with
  | "config" => some fun v => { o with config := v }
  | "db" => some fun v => { o with db := v }
  | _ => none

/-- An option that is on or off. -/
def Options.setFlag? (o : Options) (name : String) : Option (Bool → Options) :=
  match name with
  | "dump" => some fun b => { o with dump := b }
  | "v" => some fun b => { o with verbose := b }
  | _ => none

/-- Sets an option that is on or off; without a value it is on. -/
def setFlag (set : Bool → Options) (name : String) : Option String → Except OptionError Options
  | none => .ok (set true)
  | some value =>
    match readBool? value with
    | some b => .ok (set b)
    | none => .error (.notFlag name value)

/-- Reads options. -/
def Options.read (o : Options) : List String → Except OptionError Options
  | [] => .ok o
  | arg :: args =>
    match Argument.of arg with
    | .plain => .ok { o with documents := arg :: args }
    | .stop => .ok { o with documents := args }
    | .malformed => .error (.malformed arg)
    | .option name value =>
      match o.setText? name, o.setFlag? name with
      | some set, _ =>
        match value, args with
        | some v, args => (set v).read args
        | none, v :: args => (set v).read args
        | none, [] => .error (.valueMissing name)
      | none, some set =>
        match setFlag set name value with
        | .ok o => o.read args
        | .error e => .error e
      | none, none =>
        if name = "help" || name = "h" then .error .help else .error (.undefined name)

/-- The description of the options. -/
def describeOptions : String :=
  "Usage of check:\n" ++
  "  -config string\n    \tconfiguration file (default: nearest typeval.yaml)\n" ++
  "  -db string\n    \tSQLite result store (overrides store.path)\n" ++
  "  -dump\n    \tdump evaluated type trees to stderr\n" ++
  "  -v\tlog resolution steps\n"

end TypeCalculus.CommandLine
