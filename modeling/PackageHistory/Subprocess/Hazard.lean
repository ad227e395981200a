import PackageHistory.Subprocess.Invocation

/-!
# Commands that could start other programs

Some switches and settings of git name a program to start, or a folder with programs. What looks
like one of them is a hazard.
-/

namespace PackageHistory.Subprocess

/-- Something that a command must not do without a permission. -/
structure Hazard where
  use : String
  permission : String
  deriving DecidableEq, Repr

def Hazard.message (h : Hazard) : Text :=
  (h.use ++ " is not permitted without enabling " ++ h.permission).toList

/-- Whether some end of a text passes a test. -/
def someTail (test : Text → Bool) : Text → Bool
  | [] => test []
  | c :: t => test (c :: t) || someTail test t

/-! ## Switches -/

/-- What a hazardous switch looks like. -/
inductive SwitchForm where
  /-- It holds one of the names. -/
  | named (names : List String)
  /-- It is a cluster of letters, digits and underscores with the letter. -/
  | letter (c : Char)

def isWordCharacter (c : Char) : Bool := c.isAlphanum || c = '_'

def SwitchForm.fits : SwitchForm → Text → Bool
  | named names, switch => names.any fun name => someTail (name.toList.isPrefixOf ·) switch
  | letter c, switch =>
    switch.head? = some '-' && (switch.tail.takeWhile isWordCharacter).contains c

/-- A switch that is a hazard in one task or in all. -/
structure HazardousSwitch where
  task : Option String
  form : SwitchForm
  hazard : Hazard

def hazardousSwitches : List HazardousSwitch :=
  [⟨none, .named ["--upload-pack", "--receive-pack"],
      ⟨"Use of --upload-pack or --receive-pack", "allowUnsafePack"⟩⟩,
    ⟨some "clone", .letter 'u',
      ⟨"Use of clone with option /^-\\w*u/", "allowUnsafePack"⟩⟩,
    ⟨some "clone", .named ["--u"], ⟨"Use of clone with option --u", "allowUnsafePack"⟩⟩,
    ⟨some "push", .named ["--exec"], ⟨"Use of push with option --exec", "allowUnsafePack"⟩⟩,
    ⟨none, .named ["--template"], ⟨"Use of --template", "allowUnsafeTemplateDir"⟩⟩]

def HazardousSwitch.covers (h : HazardousSwitch) (task : Option Text) (switch : Text) : Bool :=
  h.task.all (fun t => task = some t.toList) && h.form.fits switch

/-- The hazard of a switch; the first that fits. -/
def hazardOfSwitch? (task : Option Text) (switch : Text) : Option Hazard :=
  (hazardousSwitches.find? (·.covers task switch)).map (·.hazard)

/-! ## Settings -/

/-- A setting that is a hazard. -/
structure HazardousSetting where
  /-- Its section and its name, or the section alone. -/
  parts : List String
  /-- Whether more can stand between section and name than one character. -/
  divided : Bool
  permission : String

def hazardousSettings : List HazardousSetting :=
  [⟨["alias"], false, "allowUnsafeAlias"⟩,
    ⟨["core", "askPass"], false, "allowUnsafeAskPass"⟩,
    ⟨["core", "editor"], false, "allowUnsafeEditor"⟩,
    ⟨["core", "fsmonitor"], false, "allowUnsafeFsMonitor"⟩,
    ⟨["core", "gitProxy"], false, "allowUnsafeGitProxy"⟩,
    ⟨["core", "hooksPath"], false, "allowUnsafeHooksPath"⟩,
    ⟨["core", "pager"], false, "allowUnsafePager"⟩,
    ⟨["core", "sshCommand"], false, "allowUnsafeSshCommand"⟩,
    ⟨["credential", "helper"], true, "allowUnsafeCredentialHelper"⟩,
    ⟨["diff", "command"], true, "allowUnsafeDiffExternal"⟩,
    ⟨["diff", "external"], false, "allowUnsafeDiffExternal"⟩,
    ⟨["diff", "textconv"], true, "allowUnsafeDiffTextConv"⟩,
    ⟨["filter", "clean"], true, "allowUnsafeFilter"⟩,
    ⟨["filter", "smudge"], true, "allowUnsafeFilter"⟩,
    ⟨["gpg", "program"], true, "allowUnsafeGpgProgram"⟩,
    ⟨["init", "templateDir"], false, "allowUnsafeTemplateDir"⟩,
    ⟨["merge", "driver"], true, "allowUnsafeMergeDriver"⟩,
    ⟨["mergetool", "path"], true, "allowUnsafeMergeDriver"⟩,
    ⟨["mergetool", "cmd"], true, "allowUnsafeMergeDriver"⟩,
    ⟨["protocol", "allow"], true, "allowUnsafeProtocolOverride"⟩,
    ⟨["remote", "receivepack"], true, "allowUnsafePack"⟩,
    ⟨["remote", "uploadpack"], true, "allowUnsafePack"⟩,
    ⟨["sequence", "editor"], false, "allowUnsafeEditor"⟩]

namespace HazardousSetting

def hazard (s : HazardousSetting) : Hazard :=
  ⟨"Configuring " ++ ".".intercalate s.parts, s.permission⟩

def isLineBreak (c : Char) : Bool := ['\n', '\r', '\u2028', '\u2029'].contains c

/-- Whether the name follows in the line, behind one character or, if it can be divided from the
section, behind three or more. -/
def nameFollows (divided : Bool) (name line : Text) : Bool :=
  match line with
  | _ :: t => name.isPrefixOf t || divided && someTail name.isPrefixOf (t.drop 2)
  | [] => false

/-- Whether a setting, given in lower case, holds the name of this one, with any character for the
dot. -/
def covers (s : HazardousSetting) (setting : Text) : Bool :=
  match s.parts.map fun part => lower part.toList with
  | [] => false
  | part :: names => someTail (fun t => match Text.stripStart? part t with
      | some t =>
        names.all fun name => nameFollows s.divided name (t.takeWhile fun c => !isLineBreak c)
      | none => false) setting

end HazardousSetting

/-- The hazard of a setting; the first that fits. -/
def hazardOfSetting? (setting : Text) : Option Hazard :=
  (hazardousSettings.find? (·.covers setting)).map (·.hazard)

/-- The first hazard of a command; switches come before settings. -/
def Invocation.hazard? (i : Invocation) : Option Hazard :=
  (i.switches.findSome? (hazardOfSwitch? i.task)).or (i.settings.findSome? hazardOfSetting?)

end PackageHistory.Subprocess
