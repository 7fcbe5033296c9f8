import Stagecraft.Files.Fault
import Stagecraft.Files.Path
import Stagecraft.Json.Printer

/-!
# Faults

Every way in which a step can fail is a constructor with the values that
caused it. What a reader sees of a fault is a notice: a stable code, a message,
and the passage of the story where it arose, if it arose in one.

* `Fault`: the causes.
* `Fault.notice`: the code, the message and the passage of a fault.
-/

namespace Stagecraft

/-- The records of a scene. -/
inductive RecordKind where
  | storable
  | atom
deriving DecidableEq, Repr

def RecordKind.word : RecordKind → String
  | .storable => "sub-record"
  | .atom => "container"

/-- The settings files. -/
inductive SettingsKind where
  | config
  | blueprint
deriving DecidableEq, Repr

/-- The first word of the codes about a settings file. -/
def SettingsKind.code : SettingsKind → String
  | .config => "CONFIG"
  | .blueprint => "BLUEPRINT"

/-- The directories that a configuration names. -/
inductive ConfiguredDir where
  | game
  | projects
  | templates
  | scenes
deriving DecidableEq, Repr

namespace ConfiguredDir

def code : ConfiguredDir → String
  | .game => "CONFIG_VAM_PATH_NOT_FOUND"
  | .projects => "CONFIG_PROJECTS_NOT_FOUND"
  | .templates => "TEMPLATE_DIR_NOT_FOUND"
  | .scenes => "CONFIG_SCENES_NOT_FOUND"

/-- The name of the setting, or what the directory is for. -/
def label : ConfiguredDir → String
  | .game => "VAM_PATH"
  | .projects => "PROJECTS_PATH"
  | .templates => "TEMPLATES_PATH"
  | .scenes => "scene directory"

end ConfiguredDir

/-- What is wrong with the tags of a passage. -/
inductive TagFault where
  | noTags
  | noVerb (speaker : String)
  | unknownVerb (verb : String)
  | notDuration (tag : String)
deriving DecidableEq, Repr

def quoted (s : String) : String := "\"" ++ s ++ "\""

def TagFault.message : TagFault → String
  | .noTags => "passage has no tags"
  | .noVerb speaker => "speaker " ++ quoted speaker ++ " has no says/thinks tag"
  | .unknownVerb verb => "unrecognized verb " ++ quoted verb
  | .notDuration tag => quoted tag ++ " is not a duration"

/-- Why a step failed. -/
inductive Fault where
  | notObject (kind : RecordKind) (got : Json)
  /-- A record without a text under its id. -/
  | noId (kind : RecordKind)
  /-- An atom whose storables are no list. -/
  | storablesNotList (atom : String)
  | sceneNotObject
  | sceneWithoutAtoms
  /-- Merged scene data whose atoms are no list. -/
  | atomsNotList
  | sceneMissing (path : Path)
  | sceneUnreadable (why : FileFault)
  | sceneNotJson (path : Path)
  | storyMissing (path : Path)
  | storyUnreadable (why : FileFault)
  /-- A story text that is none; the path, if it came from a file. -/
  | storyNotJson (source : Option Path)
  | storyEmpty (source : Option Path)
  | malformedTags (passage : String) (why : TagFault)
  /-- A link of `passage` to a passage that the story lacks. -/
  | unknownTarget (passage target : String)
  /-- A line that leads back into its own timeline. -/
  | chainCycle (passage next : String)
  /-- The scene lacks an atom of a branch, or a storable in it. -/
  | branchMissing (atom storable : String)
  | placeholderUnknown (template token : String)
  | placeholderUnresolved (template token : String)
  | templatesMissing (root : Path)
  | templateMissing (template : String) (path : Path)
  | templateUnreadable (path : Path) (why : FileFault)
  | templateNotJson (template : String)
  | templateNotList (template : String)
  | templateNotObject (template : String)
  | settingsMissing (kind : SettingsKind) (path : Path)
  | settingsUnreadable (kind : SettingsKind) (path : Path) (why : FileFault)
  | settingsNotJson (kind : SettingsKind) (path : Path)
  | gameNotSet
  | dirMissing (dir : ConfiguredDir) (path : Path)
  | buildDirNotCleared (path : Path) (why : FileFault)
  | sceneNotCopied (path : Path) (why : FileFault)
  /-- A planned scene whose file name is not that of a document. -/
  | scenePathInvalid (scene project : String)
  | sceneNotWritten (path : Path) (why : FileFault)
  | projectsNotListed (path : Path) (why : FileFault)
  | projectUnknown (name : String)
  | logNotOpened (why : FileFault)

/-- What is shown of a fault. -/
structure Notice where
  code : String
  message : String
  passage : Option String := none
deriving DecidableEq, Repr

/-- A notice in one line. -/
def Notice.text (n : Notice) : String := n.code ++ ": " ++ n.message

/-- The words that stand for the details of a text that is no document. -/
def notJsonDetail : String := "<json>"

namespace Fault

/-- The message of a path and a refusal. -/
def refusal (path : Path) (why : FileFault) : String := path.text ++ ": " ++ why.text

/-- A message, with the file that it is about. -/
def about (message : String) : Option Path → String
  | none => message
  | some path => message ++ " (" ++ path.text ++ ")"

def notice : Fault → Notice
  | notObject kind got =>
    ⟨"RECORD_INVALID", "Expected " ++ kind.word ++ " to be a JSON object, got " ++ got.compact ++ ".", none⟩
  | noId kind => ⟨"RECORD_INVALID", "Expected " ++ kind.word ++ " to carry a string \"id\".", none⟩
  | storablesNotList atom =>
    ⟨"RECORD_INVALID", "Container " ++ quoted atom ++ " has a non-array \"storables\".", none⟩
  | sceneNotObject => ⟨"SCENE_INVALID", "Scene document must be a JSON object.", none⟩
  | sceneWithoutAtoms => ⟨"SCENE_INVALID", "Scene document needs an \"atoms\" array.", none⟩
  | atomsNotList => ⟨"SCENE_INVALID", "Scene \"atoms\" must be an array.", none⟩
  | sceneMissing path => ⟨"SCENE_NOT_FOUND", "Scene file does not exist: " ++ path.text, none⟩
  | sceneUnreadable why => ⟨"SCENE_READ", why.text, none⟩
  | sceneNotJson path =>
    ⟨"SCENE_PARSE", "Failed to parse scene " ++ path.text ++ ": " ++ notJsonDetail, none⟩
  | storyMissing path => ⟨"DIALOG_NOT_FOUND", "Dialog file does not exist: " ++ path.text, none⟩
  | storyUnreadable why => ⟨"DIALOG_READ", why.text, none⟩
  | storyNotJson source => ⟨"DIALOG_PARSE", about notJsonDetail source, none⟩
  | storyEmpty source => ⟨"DIALOG_EMPTY", about "Dialog document contains no passages." source, none⟩
  | malformedTags passage why =>
    ⟨"DIALOG_TAGS_MALFORMED",
      "Malformed tags in passage " ++ quoted passage ++ ": " ++ why.message ++ ".", some passage⟩
  | unknownTarget passage target =>
    ⟨"DIALOG_LINK_UNRESOLVED",
      "Passage " ++ quoted passage ++ " links to unknown passage " ++ quoted target ++ ".", some passage⟩
  | chainCycle passage next =>
    ⟨"DIALOG_CHAIN_CYCLE",
      "Passage " ++ quoted passage ++ " continues into " ++ quoted next
        ++ ", which already plays earlier in the same timeline.", some passage⟩
  | branchMissing atom storable =>
    ⟨"DIALOG_BRANCH_MISSING",
      "Scene has no " ++ quoted atom ++ " container with a " ++ quoted storable
        ++ " record; the dialog needs more branches than were scaffolded.", none⟩
  | placeholderUnknown template token =>
    ⟨"TEMPLATE_PLACEHOLDER_UNKNOWN",
      "Template " ++ quoted template ++ " uses unknown placeholder $" ++ token ++ ".", none⟩
  | placeholderUnresolved template token =>
    ⟨"TEMPLATE_PLACEHOLDER_UNRESOLVED",
      "Template " ++ quoted template ++ " needs a value for $" ++ token ++ ".", none⟩
  | templatesMissing root =>
    ⟨"TEMPLATE_DIR_NOT_FOUND", "Template directory not found: " ++ root.text, none⟩
  | templateMissing template path =>
    ⟨"TEMPLATE_NOT_FOUND", "Template " ++ quoted template ++ " not found at " ++ path.text, none⟩
  | templateUnreadable path why =>
    ⟨"TEMPLATE_READ", "Failed to read template " ++ refusal path why, none⟩
  | templateNotJson template =>
    ⟨"TEMPLATE_PARSE",
      "Template " ++ quoted template ++ " is not valid JSON: " ++ notJsonDetail, none⟩
  | templateNotList template =>
    ⟨"TEMPLATE_INVALID",
      "Template " ++ quoted template ++ " must be a JSON array of containers.", none⟩
  | templateNotObject template =>
    ⟨"TEMPLATE_INVALID", "Template " ++ quoted template ++ " must be a JSON object.", none⟩
  | settingsMissing kind path =>
    ⟨kind.code ++ "_NOT_FOUND", "File does not exist: " ++ path.text, none⟩
  | settingsUnreadable kind path why =>
    ⟨kind.code ++ "_READ", "Failed to read " ++ refusal path why, none⟩
  | settingsNotJson kind path =>
    ⟨kind.code ++ "_PARSE", "Failed to parse " ++ path.text ++ ": " ++ notJsonDetail, none⟩
  | gameNotSet =>
    ⟨"CONFIG_VAM_PATH_MISSING",
      "VAM_PATH is not set; specify it in config.json or with --vam-path.", none⟩
  | dirMissing dir path =>
    ⟨dir.code, dir.label ++ " does not exist or is not a directory: " ++ path.text, none⟩
  | buildDirNotCleared path why => ⟨"PROJECT_BUILD_DIR_CLEAR", refusal path why, none⟩
  | sceneNotCopied path why => ⟨"PROJECT_COPY", refusal path why, none⟩
  | scenePathInvalid scene project =>
    ⟨"PROJECT_SCENE_PATH_INVALID",
      "Scene path " ++ quoted scene ++ " in project " ++ quoted project ++ " must end in .json.", none⟩
  | sceneNotWritten path why => ⟨"SCENE_WRITE", refusal path why, none⟩
  | projectsNotListed path why => ⟨"PROJECT_SCAN", refusal path why, none⟩
  | projectUnknown name =>
    ⟨"CLI_PROJECT_NOT_FOUND", "No project named " ++ quoted name ++ " under PROJECTS_PATH.", none⟩
  | logNotOpened why => ⟨"CLI_LOG_FILE", why.text, none⟩

end Fault

end Stagecraft
