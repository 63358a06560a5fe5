import BraceTemplate.Error
import BraceTemplate.Json.Decode
import BraceTemplate.Source.Path
import BraceTemplate.Text.Blank

/-!
# Settings of an engine

Settings are written as JSON. Each of them has a default, and a blank text stands for the defaults.
-/

namespace BraceTemplate

/-- The settings of an engine. -/
structure Config where
  /-- The directory that paths of documents are relative to. -/
  templateDir : String := "."
  /-- Whether compiled templates are kept while their source does not change. -/
  cache : Bool := false
  /-- The name of templates that are compiled from a text without a name. -/
  name : String := "template"
  deriving DecidableEq, Repr

namespace Config

/-- Whether two settings say the same. Directories are compared as paths. -/
def same (a b : Config) : Bool :=
  samePath a.templateDir b.templateDir && a.cache == b.cache && a.name == b.name

/-- Decodes a setting, which has a default. -/
def setting? {α : Type} (decode : Json → Option α) (default : α) : Option Json → Option α
  | some json => decode json
  | none => some default

/-- Decodes settings. -/
def decode? (json : Json) : Option Config :=
  match Json.fields? ["template_dir", "cache", "name"] json with
  | some [templateDir, cache, name] => do
    return {
      templateDir := ← setting? Json.text? "." templateDir
      cache := ← setting? Json.bool? false cache
      name := ← setting? Json.text? "template" name }
  | _ => none

/-- Reads settings. -/
def ofText (text : String) : Except Error Config :=
  if (trim text.toList).isEmpty then .ok {}
  else
    match (Json.parse? text).bind decode? with
    | some config => .ok config
    | none => .error (.undecodable "not a configuration")

/-- The JSON of settings. -/
def encode (config : Config) : Json :=
  .object [("template_dir", .string config.templateDir), ("cache", .bool config.cache),
    ("name", .string config.name)]

end Config

end BraceTemplate
