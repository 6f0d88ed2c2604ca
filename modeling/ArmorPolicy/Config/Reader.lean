import ArmorPolicy.Config.Basic
import ArmorPolicy.FileSystem.Basic
import ArmorPolicy.Json.Basic

/-!
# Configuration from JSON

A record is an object, in which unknown members are passed over and known ones come once, or an
array of its fields in order, where fields at the end may be left out.
-/

namespace ArmorPolicy

namespace Json

def text? : Json → Option String
  | .string content => content
  | _ => none

def bool? : Json → Option Bool
  | .bool value => some value
  | _ => none

def array? : Json → Option (List Json)
  | .array items => some items
  | _ => none

/-- The values of one member; none where it comes twice. -/
def member? (members : List (Option String × Json)) (name : String) : Option (Option Json) :=
  match members.filter fun entry => entry.1 == some name with
  | [] => some none
  | [entry] => some (some entry.2)
  | _ => none

/-- The fields of a record, in the order of their names; absent ones are empty. -/
def fields? (names : List String) : Json → Option (List (Option Json))
  | .object members =>
    if members.any fun entry => entry.1.isNone then none else names.mapM (member? members)
  | .array items =>
    if items.length > names.length then none
    else some (items.map some ++ List.replicate (names.length - items.length) none)
  | _ => none

def orDefault {α : Type} (read : Json → Option α) (default : α) : Option Json → Option α
  | none => some default
  | some json => read json

end Json

def RequiredHats.ofJson? (json : Json) : Option RequiredHats := do
  let [some glob, hats] ← json.fields? ["profile_glob", "hats"] | none
  let readHats (json : Json) : Option (List String) := do (← json.array?).mapM Json.text?
  return { profileGlob := ← glob.text?, hats := ← Json.orDefault readHats [] hats }

namespace Config

def ofJson? (json : Json) : Option Config := do
  let [dir, resolves, hats] ← json.fields? ["profile_dir", "resolve_includes", "required_hats"]
    | none
  let standard : Config := {}
  let readHats (json : Json) : Option (List RequiredHats) := do
    (← json.array?).mapM RequiredHats.ofJson?
  return {
    profileDir := ← Json.orDefault Json.text? standard.profileDir dir
    resolveIncludes := ← Json.orDefault Json.bool? standard.resolveIncludes resolves
    requiredHats := ← Json.orDefault readHats standard.requiredHats hats }

def parse (text : String) : Checked Config :=
  match (Json.parse? text).bind ofJson? with
  | some config => .ok config
  | none => .error .badConfig

def ofFile (files : FileSystem) (path : String) : Checked Config := do
  parse (← files.readText path)

end Config

end ArmorPolicy
