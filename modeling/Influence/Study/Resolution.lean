import Influence.Study.FileTree
import Influence.Study.Reading
import Influence.Study.Validation

/-!
# Finding settings

Settings come from the first place that has them: the path given on the command line, the
path or directory that the environment names, the user's configuration directory, or the
defaults.  A path is taken if anything is there, a directory if it has a settings file of
either notation.
-/

namespace Influence

/-- Where settings came from. -/
inductive SettingsSource where
  | commandLine
  | environment
  | userDirectory
  | builtin
  deriving Repr, DecidableEq

/-- How reports name a source. -/
def SettingsSource.text : SettingsSource → String
  | .commandLine => "CLI argument"
  | .environment => "environment variable"
  | .userDirectory => "XDG config"
  | .builtin => "builtin default"

/-- The settings file to use, if any, and where it came from. -/
structure SettingsPath where
  path : Option String
  source : SettingsSource
  deriving Repr, DecidableEq

/-- The places to search. -/
structure SettingsPlaces where
  commandLine : Option String
  environmentPath : Option String
  environmentDirectory : Option String
  userDirectory : Option String
  deriving Repr, DecidableEq

/-- A file in a directory. -/
def inDirectory (directory name : String) : String :=
  if directory = "" then name
  else if directory.toList.getLast? = some '/' then directory ++ name
  else directory ++ "/" ++ name

/-- The name of the directory for settings inside the user's configuration directory. -/
def applicationName : String := "decision-programming"

/-- The user's directory for settings.  The configuration directory that the environment
names must be an absolute path; otherwise it is `.config` at home. -/
def userDirectory (configHome home : Option String) : Option String :=
  let base := (configHome.filter (·.startsWith "/")).or
    ((home.filter (· ≠ "")).map (inDirectory · ".config"))
  base.map (inDirectory · applicationName)

namespace SettingsPlaces

/-- The variables of the environment that say where to search. -/
def names : List String := ["DP_SETTINGS", "DP_CONFIG_DIR", "XDG_CONFIG_HOME", "HOME"]

/-- The places that the command line and the environment name. -/
def ofEnvironment (commandLine : Option String) (environment : String → Option String) :
    SettingsPlaces where
  commandLine := commandLine
  environmentPath := environment "DP_SETTINGS"
  environmentDirectory := environment "DP_CONFIG_DIR"
  userDirectory := Influence.userDirectory (environment "XDG_CONFIG_HOME") (environment "HOME")

/-- The settings files that a directory may have; the first one counts. -/
def filesIn (directory : String) : List String :=
  ["settings.json", "settings.toml"].map (inDirectory directory)

/-- Every path that the search may look up. -/
def candidates (places : SettingsPlaces) : List String :=
  places.commandLine.toList ++ places.environmentPath.toList ++
    places.environmentDirectory.toList.flatMap filesIn ++
    places.userDirectory.toList.flatMap filesIn

end SettingsPlaces

/-- A path at which there is something. -/
def FileTree.existing (files : FileTree) (path : String) : Option String :=
  if files.exists? path then some path else none

/-- The settings file of a directory. -/
def FileTree.settingsIn (files : FileTree) (directory : String) : Option String :=
  (SettingsPlaces.filesIn directory).find? files.isFile

/-- The settings file to use. -/
def FileTree.resolve (files : FileTree) (places : SettingsPlaces) : SettingsPath :=
  match places.commandLine.bind files.existing with
  | some path => ⟨some path, .commandLine⟩
  | none =>
    match (places.environmentPath.bind files.existing).or
        (places.environmentDirectory.bind files.settingsIn) with
    | some path => ⟨some path, .environment⟩
    | none =>
      match places.userDirectory.bind files.settingsIn with
      | some path => ⟨some path, .userDirectory⟩
      | none => ⟨none, .builtin⟩

/-- The settings in force, with the text of their file. -/
def FileTree.loadSettings (files : FileTree) (found : SettingsPath) :
    Except (FileError Float) (Settings Float × Option String) :=
  match found.path with
  | none => .ok (.default, none)
  | some path => do
    let text ← files.read path
    match Settings.read? (Format.ofPath path) text with
    | none => .error .parse
    | some settings =>
      settings.validate
      pure (settings, some text)

/-- The definition file at a path. -/
def FileTree.loadDiagram (files : FileTree) (path : String) :
    Except (FileError Float) (DiagramFile Float) := do
  match DiagramFile.read? (Format.ofPath path) (← files.read path) with
  | none => .error .parse
  | some f => pure f

end Influence
