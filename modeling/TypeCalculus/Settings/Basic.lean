import TypeCalculus.Journal.Level
import TypeCalculus.Path
import TypeCalculus.Settings.Duration
import TypeCalculus.Yaml.Decoding

/-! Settings of a run: limits of the checker, the journal and the store. They are read from text, checked,
    completed by the usual values, and their paths are seen from the folder of the text. -/

namespace TypeCalculus

/-- How the journal is kept. Without a file it goes to the error output. -/
structure JournalSettings where
  level : String := ""
  file : String := ""
  maxSizeMb : Int := 0
  maxBackups : Int := 0

/-- Settings; zero and the empty text stand for what is not set. -/
structure Settings where
  maxDepth : Int := 0
  cacheSize : Int := 0
  /-- Read, checked and hashed with a document. A match takes no time here, so none is cut off. -/
  templateTimeout : Duration := {}
  /-- Read and checked. Queries are answered one after another. -/
  parallelism : Int := 0
  journal : JournalSettings := {}
  /-- Where results are stored; without a path they are not. -/
  storePath : String := ""

/-- What is wrong with settings. -/
inductive SettingsFault where
  | text (failure : Yaml.Failure)
  | negativeDepth (n : Int)
  | negativeTimeout (d : Duration)
  | negativeParallelism (n : Int)
  | unknownLevel (level : String)
  | negativeRotation
  | strayRotation

/-- What is wrong, with the path of the text in its place. -/
def SettingsFault.message (path : String) : SettingsFault → String
  | text failure => "parsing " ++ path ++ ": " ++ failure.message
  | negativeDepth n => path ++ ": max_depth must not be negative, got " ++ toString n
  | negativeTimeout d => path ++ ": template_timeout must not be negative, got " ++ d.print
  | negativeParallelism n => path ++ ": parallelism must not be negative, got " ++ toString n
  | unknownLevel level => path ++ ": log.level: " ++ Journal.Level.unknownText level
  | negativeRotation => path ++ ": log rotation limits must not be negative"
  | strayRotation => path ++ ": log rotation is only valid with log.file"

namespace Settings

open Yaml (Node Graph Decoding)
open Yaml.Decoding (string int record ofScalar setting)

section Reading

variable (g : Graph)

/-- Reads a span of time; only text tells one. -/
def duration : Node → Decoding (Option Duration) :=
  ofScalar g "time.Duration" fun value _ =>
    match value with
    | .text s => Duration.read? s
    | _ => none

def readJournal : Node → Decoding (Option JournalSettings) :=
  record g "config.LogConfig" true {} fun
    | "level" => setting (string g) fun s j => { j with level := s }
    | "file" => setting (string g) fun s j => { j with file := s }
    | "max_size_mb" => setting (int g) fun n j => { j with maxSizeMb := n }
    | "max_backups" => setting (int g) fun n j => { j with maxBackups := n }
    | _ => none

/-- Reads the path of the store. -/
def readStore : Node → Decoding (Option String) :=
  record g "config.StoreConfig" true "" fun
    | "path" => setting (string g) fun s _ => s
    | _ => none

def read : Node → Decoding (Option Settings) :=
  record g "config.Config" true {} fun
    | "max_depth" => setting (int g) fun n s => { s with maxDepth := n }
    | "cache_size" => setting (int g) fun n s => { s with cacheSize := n }
    | "template_timeout" => setting (duration g) fun d s => { s with templateTimeout := d }
    | "parallelism" => setting (int g) fun n s => { s with parallelism := n }
    | "log" => setting (readJournal g) fun j s => { s with journal := j }
    | "store" => setting (readStore g) fun p s => { s with storePath := p }
    | _ => none

end Reading

/-- Checks settings; the first fault is told. -/
def check (s : Settings) : Except SettingsFault Unit := do
  if s.maxDepth < 0 then throw (.negativeDepth s.maxDepth)
  if s.templateTimeout.nanoseconds < 0 then throw (.negativeTimeout s.templateTimeout)
  if s.parallelism < 0 then throw (.negativeParallelism s.parallelism)
  if (Journal.Level.ofName? s.journal.level).isNone then throw (.unknownLevel s.journal.level)
  if s.journal.maxSizeMb < 0 || s.journal.maxBackups < 0 then throw .negativeRotation
  if s.journal.file = "" && (s.journal.maxSizeMb > 0 || s.journal.maxBackups > 0) then
    throw .strayRotation

def orElse (n usual : Int) : Int := if n = 0 then usual else n

/-- The settings with the usual values where nothing is set. Rotation matters only with a file. -/
def complete (s : Settings) : Settings :=
  { s with
    maxDepth := orElse s.maxDepth 1000
    cacheSize := orElse s.cacheSize 4096
    templateTimeout := if s.templateTimeout.nanoseconds = 0 then ⟨250000000⟩ else s.templateTimeout
    parallelism := orElse s.parallelism 4
    journal :=
      { s.journal with
        level := if s.journal.level = "" then "info" else s.journal.level
        maxSizeMb := if s.journal.file = "" then s.journal.maxSizeMb else orElse s.journal.maxSizeMb 10
        maxBackups :=
          if s.journal.file = "" then s.journal.maxBackups else orElse s.journal.maxBackups 3 } }

/-- The settings where nothing is set. -/
def usual : Settings := complete {}

/-- A path that is set and not absolute, seen from a folder. -/
def seenFrom (folder path : String) : String :=
  if path = "" || Path.isAbsolute path then path else Path.join folder path

/-- The settings with their paths seen from a folder. -/
def locate (folder : String) (s : Settings) : Settings :=
  { s with
    journal := { s.journal with file := seenFrom folder s.journal.file }
    storePath := seenFrom folder s.storePath }

/-- Reads settings from a text at a path. -/
def parse (path text : String) : Except SettingsFault Settings := do
  let (_, found) ← (Yaml.decode text read).mapError .text
  let s := found.getD {}
  s.check
  return s.complete.locate (Path.folder path)

/-- Answers are remembered. -/
def remembers (s : Settings) : Bool := s.cacheSize > 0

end Settings

end TypeCalculus
