-- When and where classes are dumped.
import ClassPatch.Json.Reader
import ClassPatch.Text.Blank

namespace ClassPatch

/-! ## Modes -/

inductive DumpMode where
  | off | failure | always
deriving DecidableEq

inductive ConfigError where
  | unknownMode (word : String)
  | notAFlag (setting word : String)
  | notJson
deriving DecidableEq

def ConfigError.message : ConfigError → String
  | unknownMode word => s!"invalid configuration: unknown dump mode '{word}'"
  | notAFlag setting word => s!"invalid configuration: {setting}: expected a boolean, got '{word}'"
  | notJson => "invalid json"

/-- Words are compared without blanks around them and without case. -/
def plainWord (s : String) : String := (Text.trim s).map Char.toLower

namespace DumpMode

def text : DumpMode → String
  | off => "off"
  | failure => "failure"
  | always => "always"

/-- The name of a mode in the detail of a configuration. -/
def title : DumpMode → String
  | off => "Off"
  | failure => "Failure"
  | always => "Always"

def all : List DumpMode := [off, failure, always]

def parse (s : String) : Except ConfigError DumpMode :=
  let word := plainWord s
  if word = "off" ∨ word = "none" then .ok off
  else if word = "failure" ∨ word = "fail" then .ok failure
  else if word = "always" ∨ word = "all" then .ok always
  else .error (.unknownMode word)

/-- A mode is its word, or an object with nothing under that word. -/
def ofJson? : JsonValue → Option DumpMode
  | .string (some s) => all.find? (·.text == s)
  | .object [(some s, .null)] => all.find? (·.text == s)
  | _ => none

end DumpMode

/-! ## Configurations -/

structure Config where
  dump : DumpMode := .failure
  dumpDir : String := "asm/graft"
  /-- Classes that were patched are dumped as bytes. -/
  raw : Bool := false
deriving DecidableEq

namespace Config

def modeVariable : String := "GRAFT_DUMP"
def rawVariable : String := "GRAFT_DUMP_RAW"
def dirVariable : String := "GRAFT_DUMP_DIR"

def parseFlag (setting s : String) : Except ConfigError Bool :=
  let word := plainWord s
  if ["1", "true", "yes", "on"].contains word then .ok true
  else if ["0", "false", "no", "off", ""].contains word then .ok false
  else .error (.notAFlag setting word)

/-- Takes what variables say over the defaults, first the mode, then the
flag. An empty directory says nothing. -/
def ofVariables (lookup : String → Option String) : Except ConfigError Config := do
  let dump ← match lookup modeVariable with
    | some s => DumpMode.parse s
    | none => .ok .failure
  let raw ← match lookup rawVariable with
    | some s => parseFlag rawVariable s
    | none => .ok false
  let c : Config := { dump, raw }
  match lookup dirVariable with
  | some dir => return if dir.isEmpty then c else { c with dumpDir := dir }
  | none => return c

/-! ## JSON -/

def ofJson? (v : JsonValue) : Option Config := do
  match ← v.fields? ["dump", "dump_dir", "raw"] with
  | [dump, dir, raw] =>
    let base : Config := {}
    let dump ← match dump with
      | some d => DumpMode.ofJson? d
      | none => some base.dump
    let dumpDir ← match dir with
      | some d => d.asString?
      | none => some base.dumpDir
    let raw ← match raw with
      | some r => r.asBool?
      | none => some base.raw
    return { dump, dumpDir, raw }
  | _ => none

def parse (json : String) : Except ConfigError Config :=
  match JsonReader.parse json >>= ofJson? with
  | some c => .ok c
  | none => .error .notJson

def toJson (c : Config) : JsonValue :=
  .record [("dump", .text c.dump.text), ("dump_dir", .text c.dumpDir), ("raw", .bool c.raw)]

def text (c : Config) : String := c.toJson.compact

/-- The configuration as the detail of a registry shows it. -/
def detail (c : Config) : String :=
  s!"TransformerConfig \x7b dump: {c.dump.title}, dump_dir: " ++ Text.quoted c.dumpDir ++
    s!", raw: {c.raw} \x7d"

end Config

end ClassPatch
