import ArmorPolicy.Rule.Kind

/-!
# Errors and their messages

A policy text can be at fault (`PolicyFault`, reported with the place where it was found), a caller
can ask for something that makes no sense (`Misuse`), two registrations can contradict each other
(`Clash`), and a file can be unreadable (`FileFault`).  Each cause is a constructor; the wording is
in one function for each family.
-/

namespace ArmorPolicy

private def quoted (text : String) : String := "'" ++ text ++ "'"

/-! ## Faults of a policy text -/

/-- What is wrong with a policy text. -/
inductive PolicyFault where
  | stated (message : String)
  | emptyPattern
  | relativePattern (glob : String)
  | modifiersForbidden (kind : RuleKind)
  | malformed (kind : RuleKind) (statement : String)
  | abiIfExists
  | emptyAbiPath
  | aliasPathNotAbsolute (path : String)
  | aliasTargetNotAbsolute (path : String)
  | badBooleanName (name : String)
  | execModeWithoutCondition
  | badExecCondition (glob : String)
  | emptyIncludePath
  | includePathNeedsQuotes (path : String)
  | unknownNetworkDomain (word : String)
  | unknownNetworkType (word : String)
  | unknownNetworkWords (words : List String)
  | unknownRlimit (name : String)
  | badRlimitValue (name value : String)
  | badSignal (name : String)
  | assignmentTrailingComma
  | assignmentLeftover (rest : String)
  | badVariableName (name : String)
  | noVariableValues (name : String)
  | duplicateCondition (key : String)
  | unknownCondition (key place : String)
  | unbalancedClose (body : String)
  | unbalancedOpen
  | strayCharacterInList
  | missingValue (key : String)
  | badAccess (word : String) (kind : RuleKind)
  | listNotAccepted (key : String)
  | bindWithPeer
  | badPeerCondition (item : String)
  | bareExec
  | unknownPermissions (rest : String)
  | conflictingExec (first second : String)
  | appendAndWrite
  | denyExecMode (mode : String)
  | execModeMissing
  | targetWithoutExec
  | variableRedefined (name : String) (values : List String)
  | booleanRedefined (name statement : String)
  | outsideProfile (kind : RuleKind) (statement : String)
  | insideProfile (kind : RuleKind) (statement : String)
  | definitionInProfile (kind : RuleKind) (profile : String)
  | childInsideChild (parent child : String)
  | duplicateHat (hat profile : String)
  | unterminatedStatement (preview : String)
  | endInsideConditional
  | endInsideProfile (profile : String)
  | strayElse
  | changeHatOutside
  | unknownLine (preview : String)
  | profileInInclude
  | externalHatBeforeParent (hat parent : String)
  | profileKeywordMissing (parent : String)
  | profileInsideChild (parent : String)
  | hatOutside
  | hatInsideChild (parent : String)
  | strayEnd
  | parentMissing (parent : String)
  | profileTwice (profile : String)
  | includeCycle (path : String)
  | includeMissing (path : String)
  deriving DecidableEq, Repr

def PolicyFault.message : PolicyFault → String
  | .stated message => message
  | .emptyPattern => "Empty AARE pattern"
  | .relativePattern glob => "Pattern " ++ quoted glob ++ " doesn't start with '/' or a variable"
  | .modifiersForbidden kind => kind.name ++ " rules cannot use 'audit', 'allow' or 'deny'"
  | .malformed .freeform statement => "Invalid rule " ++ quoted statement
  | .malformed kind statement => "Invalid " ++ kind.name ++ " rule " ++ quoted statement
  | .abiIfExists => "abi rules do not support 'if exists'"
  | .emptyAbiPath => "Empty abi path"
  | .aliasPathNotAbsolute path => "Alias path doesn't start with '/': " ++ path
  | .aliasTargetNotAbsolute path => "Alias target doesn't start with '/': " ++ path
  | .badBooleanName name => "Invalid boolean variable name " ++ quoted name
  | .execModeWithoutCondition => "change_profile exec mode requires an exec condition"
  | .badExecCondition glob => "Exec condition " ++ quoted glob ++ " must start with '/' or '@'"
  | .emptyIncludePath => "Empty include path"
  | .includePathNeedsQuotes path => "Include path with spaces requires quotes: " ++ quoted path
  | .unknownNetworkDomain word => "Unknown network domain " ++ quoted word
  | .unknownNetworkType word => "Unknown network type or protocol " ++ quoted word
  | .unknownNetworkWords words =>
    "Invalid or unknown keywords in " ++ quoted ("network " ++ " ".intercalate words)
  | .unknownRlimit name => "Unknown rlimit keyword " ++ quoted name
  | .badRlimitValue name value => "Invalid value " ++ quoted value ++ " for rlimit " ++ name
  | .badSignal name => "Invalid signal " ++ quoted name
  | .assignmentTrailingComma => "Variable declarations do not accept trailing commas"
  | .assignmentLeftover rest =>
    "Variable assignment contains invalid parts (unbalanced quotes?): " ++ rest
  | .badVariableName name => "Invalid variable name " ++ quoted name
  | .noVariableValues name => "Empty value list for variable " ++ name
  | .duplicateCondition key => "Duplicate " ++ quoted key ++ " condition"
  | .unknownCondition key place => "Unknown condition " ++ quoted key ++ " in " ++ place ++ " rule"
  | .unbalancedClose body => "Unbalanced ')' in " ++ quoted body
  | .unbalancedOpen => "Unbalanced '(' in rule"
  | .strayCharacterInList => "Unexpected character in '(...)' list"
  | .missingValue key => "Missing value for " ++ quoted key
  | .badAccess word kind => "Invalid access " ++ quoted word ++ " in " ++ kind.name ++ " rule"
  | .listNotAccepted key => quoted key ++ " does not accept a list of values"
  | .bindWithPeer => "dbus 'bind' access cannot be combined with a peer"
  | .badPeerCondition item => "Invalid dbus peer condition " ++ quoted item
  | .bareExec => "'x' must be preceded by an exec qualifier (i, P, C or U)"
  | .unknownPermissions rest => "Permission contains unknown character(s) " ++ quoted rest
  | .conflictingExec first second =>
    "Conflicting execute permissions found: " ++ first ++ " and " ++ second
  | .appendAndWrite => "Conflicting permissions found: 'a' and 'w'"
  | .denyExecMode mode => "File deny rules only allow 'x' as execute mode, but not " ++ mode
  | .execModeMissing =>
    "Execute flag ('x') in file rule must specify the exec mode (ix, Px, Cx etc.)"
  | .targetWithoutExec => "Exec target requires an exec mode or link permission"
  | .variableRedefined name values =>
    "Redefining existing variable " ++ name ++ ": " ++ " ".intercalate values
  | .booleanRedefined name statement =>
    "Redefining existing boolean variable " ++ name ++ ": " ++ statement
  | .outsideProfile kind statement =>
    "Unexpected " ++ kind.name ++ " rule outside of a profile: " ++ statement
  | .insideProfile kind statement =>
    "Unexpected " ++ kind.name ++ " rule inside a profile: " ++ statement
  | .definitionInProfile kind profile =>
    "Unexpected " ++ kind.name ++ " definition found inside profile " ++ profile
  | .childInsideChild parent child =>
    "A child profile inside another child profile is not allowed: " ++ parent ++ "//" ++ child
  | .duplicateHat hat profile =>
    "Multiple definitions for hat " ++ hat ++ " in profile " ++ profile
  | .unterminatedStatement preview => "Unterminated statement (missing ','?): " ++ preview
  | .endInsideConditional => "Reached end of file inside a conditional block"
  | .endInsideProfile profile =>
    "Missing '\x7d' or ','. Reached end of file while inside profile " ++ profile
  | .strayElse => "Unexpected 'else' outside of a conditional block"
  | .changeHatOutside => "Unexpected change hat declaration outside of a profile"
  | .unknownLine preview => "Unknown line found: " ++ preview
  | .profileInInclude => "Unexpected profile definition in an include file"
  | .externalHatBeforeParent hat parent =>
    "External hat " ++ hat ++ " defined before its parent profile " ++ parent
  | .profileKeywordMissing parent =>
    parent ++ " profile contains syntax errors: missing \"profile\" keyword"
  | .profileInsideChild parent =>
    parent ++ " profile contains syntax errors: " ++
      "a child profile inside another child profile is not allowed"
  | .hatOutside => "Unexpected hat definition outside of a profile"
  | .hatInsideChild parent =>
    parent ++ " profile contains syntax errors: " ++
      "a hat inside another child profile is not allowed"
  | .strayEnd => "Unexpected end of profile reached"
  | .parentMissing parent => "Parent profile " ++ parent ++ " not found"
  | .profileTwice profile => "Profile " ++ profile ++ " defined twice"
  | .includeCycle path => "Include cycle detected at " ++ path
  | .includeMissing path => "Include file not found: " ++ path

/-! ## Mistakes of a caller -/

/-- What a caller asked for that cannot be. -/
inductive Misuse where
  | stated (message : String)
  | denyAndAllow
  | emptyAliasPath
  | emptyAliasTarget
  | badCapabilityName (name : String)
  | noCapabilities
  | noAccess (kind : RuleKind)
  | noSignals
  | unknownPermission (permission : Char)
  | noPermissions
  | unknownExecMode (mode : String)
  | pathWithoutPermissions
  | execOnBareFile
  | pathOnBareFile
  | kindsDiffer (left right : RuleKind)
  | deletedMissing (kind : RuleKind) (statement : String)
  | fileListed (filename : String)
  | fileNotListed (filename : String)
  deriving DecidableEq, Repr

def Misuse.message : Misuse → String
  | .stated message => message
  | .denyAndAllow => "Rule cannot be both 'deny' and 'allow'"
  | .emptyAliasPath => "Alias path is empty"
  | .emptyAliasTarget => "Alias target is empty"
  | .badCapabilityName name => "Invalid capability name " ++ quoted name
  | .noCapabilities => "Empty capability list"
  | .noAccess kind => "Empty " ++ kind.name ++ " access set"
  | .noSignals => "Empty signal set"
  | .unknownPermission permission =>
    "Unknown file permission " ++ quoted (String.singleton permission)
  | .noPermissions => "Empty permissions in file rule"
  | .unknownExecMode mode => "Unknown execute mode " ++ quoted mode
  | .pathWithoutPermissions => "Either specify path and perms, or none of them"
  | .execOnBareFile => "Exec perms or target specified for bare file rule"
  | .pathOnBareFile => "Cannot set a path on a bare file rule"
  | .kindsDiffer left right =>
    "Cannot compare " ++ left.name ++ " rule with " ++ right.name ++ " rule"
  | .deletedMissing kind statement =>
    "Attempt to delete non-existing " ++ kind.name ++ " rule: " ++ statement
  | .fileListed filename => filename ++ " already listed in registry files"
  | .fileNotListed filename => filename ++ " not listed in registry files"

/-! ## Contradictory registrations -/

/-- Two registrations, or two definitions of a variable, that contradict each other. -/
inductive Clash where
  | stated (message : String)
  | profileElsewhere (profile first second : String)
  | attachmentElsewhere (attachment first second : String)
  | profileTwice (profile filename : String)
  | attachmentTwice (attachment filename : String)
  | variableTwice (filename variableName first second : String)
  | variableUndeclared (filename variableName source : String)
  deriving DecidableEq, Repr

def Clash.message : Clash → String
  | .stated message => message
  | .profileElsewhere profile first second =>
    "Profile " ++ profile ++ " exists in " ++ first ++ " and " ++ second
  | .attachmentElsewhere attachment first second =>
    "Attachment " ++ attachment ++ " exists in " ++ first ++ " and " ++ second
  | .profileTwice profile filename => "Profile " ++ profile ++ " defined twice in " ++ filename
  | .attachmentTwice attachment filename =>
    "Attachment " ++ attachment ++ " defined twice in " ++ filename
  | .variableTwice filename variableName first second =>
    "While parsing " ++ filename ++ ": Conflicting variable definitions for variable " ++
      variableName ++ " found in " ++ first ++ " and " ++ second
  | .variableUndeclared filename variableName source =>
    "While parsing " ++ filename ++ ": Variable " ++ variableName ++
      " was not previously declared, but is being assigned additional value in file " ++ source

/-! ## Unreadable files -/

/-- Why a file or directory cannot be read. -/
inductive FileFault where
  | notFound
  | notDirectory
  | isDirectory
  | notUtf8
  | nulInName
  | nameTooLong
  deriving DecidableEq, Repr

def FileFault.message : FileFault → String
  | .notFound => "No such file or directory (os error 2)"
  | .notDirectory => "Not a directory (os error 20)"
  | .isDirectory => "Is a directory (os error 21)"
  | .notUtf8 => "stream did not contain valid UTF-8"
  | .nulInName => "file name contained an unexpected NUL byte"
  | .nameTooLong => "File name too long (os error 36)"

/-! ## Errors -/

/-- A line of a file; lines count from one. -/
structure Location where
  file : String
  line : Nat
  deriving DecidableEq, Repr

inductive PolicyError where
  | policy (fault : PolicyFault) (location : Option Location)
  | misuse (mistake : Misuse)
  | clash (contradiction : Clash)
  | unreadable (path : String) (fault : FileFault)
  | badConfig
  deriving DecidableEq, Repr

namespace PolicyError

/-- A fault whose place in the text is not known yet. -/
def fault (cause : PolicyFault) : PolicyError := .policy cause none

/-- Places a fault in a file.  A fault that has its place already, from a file included there,
keeps it. -/
def located (error : PolicyError) (file : String) (line : Nat) : PolicyError :=
  match error with
  | .policy fault none => .policy fault (some ⟨file, line⟩)
  | other => other

def location? : PolicyError → Option Location
  | .policy _ location => location
  | _ => none

def isPolicyFault : PolicyError → Bool
  | .policy _ _ => true
  | _ => false

def isMisuse : PolicyError → Bool
  | .misuse _ => true
  | _ => false

private def placeText : Option Location → String
  | none => ""
  | some place => " (file: " ++ place.file ++ ", line: " ++ toString place.line ++ ")"

/-- The full text of an error, with its place where that is known. -/
def message : PolicyError → String
  | .policy fault location => "Syntax error: " ++ fault.message ++ placeText location
  | .misuse mistake => "Internal invariant violated: " ++ mistake.message
  | .clash contradiction => "Registry conflict: " ++ contradiction.message
  | .unreadable path fault => "IO operation failed on " ++ path ++ ": " ++ fault.message
  | .badConfig => "Config parse failed"

end PolicyError

abbrev Checked (α : Type) : Type := Except PolicyError α

instance {α : Type} [DecidableEq α] : DecidableEq (Checked α)
  | .ok a, .ok b =>
    if same : a = b then isTrue (same ▸ rfl) else isFalse fun equal => same (Except.ok.inj equal)
  | .error e, .error f =>
    if same : e = f then isTrue (same ▸ rfl) else isFalse fun equal => same (Except.error.inj equal)
  | .ok _, .error _ => isFalse nofun
  | .error _, .ok _ => isFalse nofun

def refuse {α : Type} (fault : PolicyFault) : Checked α := .error (.fault fault)

def reject {α : Type} (mistake : Misuse) : Checked α := .error (.misuse mistake)

end ArmorPolicy
