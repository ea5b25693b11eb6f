import PackageAudit.Schema

/-! # Settings

The names and limits that an audit works with. A setting is taken from the values that are given
directly, else from the environment, else it has its default. Names are compared without regard to
case, and those of the environment begin with `MODCOMPLY_`. Of two names that differ in case only,
the first counts among the values and the last in the environment. Unknown values are refused and
unknown environment names ignored.

Some values are no settings but directives: they say how the environment is looked at.
-/

namespace PackageAudit

/-- The settings of an audit. -/
structure Settings where
  manifestName : Text
  typeConfigName : Text
  ignoreFileName : Text
  readmeName : Text
  readmeMinLength : Nat
  maxFileLines : Nat
  /-- Seconds that a check may take. -/
  ruleTimeout : Binary64
  maxParallel : Nat
  maxDepth : Nat
  backupDirectory : Path
  maxFilesToFix : Nat
  logLevel : Text
deriving DecidableEq

/-- An environment: names and values, in order. -/
abbrev Environment := List (Text × Text)

namespace Settings

/-- The settings that nothing was said about. -/
def default : Settings where
  manifestName := "package.json"
  typeConfigName := "tsconfig.json"
  ignoreFileName := ".gitignore"
  readmeName := "README.md"
  readmeMinLength := 50
  maxFileLines := 200
  ruleTimeout := Binary64.ofInt 30
  maxParallel := 3
  maxDepth := 10
  backupDirectory := ⟨.here, [".modcomply-backup"]⟩
  maxFilesToFix := 100
  logLevel := "INFO"

/-- The names of the settings. -/
def names : List Text :=
  ["manifest_name", "type_config_name", "ignore_file_name", "readme_name", "readme_min_length",
    "max_file_lines", "rule_timeout", "max_parallel", "max_depth", "backup_directory",
    "max_files_to_fix", "log_level"]

/-- The names of the directives. -/
def directives : List Text :=
  ["_case_sensitive", "_nested_model_default_partial_update", "_env_prefix", "_env_prefix_target",
    "_env_file", "_env_file_encoding", "_env_ignore_empty", "_env_nested_delimiter",
    "_env_nested_max_split", "_env_parse_none_str", "_env_parse_enums", "_cli_prog_name",
    "_cli_parse_args", "_cli_settings_source", "_cli_parse_none_str", "_cli_hide_none_type",
    "_cli_avoid_json", "_cli_enforce_required", "_cli_use_class_docs_for_groups",
    "_cli_exit_on_error", "_cli_prefix", "_cli_flag_prefix_char", "_cli_implicit_flags",
    "_cli_ignore_unknown_args", "_cli_kebab_case", "_cli_shortcuts", "_secrets_dir",
    "_build_sources"]

/-- How the environment is looked at. -/
structure Outlook where
  /-- What the names of settings begin with. -/
  stem : Text
  /-- Is case regarded in names? -/
  caseSensitive : Bool
  /-- Do empty texts count as missing? -/
  ignoresEmpty : Bool
  /-- The text that stands for null. -/
  nullText : Option Text

/-- How the directives among values say to look at the environment. -/
def outlook (values : Json.Members) : Outlook where
  stem := (values.text? "_env_prefix").getD "MODCOMPLY_"
  caseSensitive := ((values.get? "_case_sensitive").getD .null).isTruthy
  ignoresEmpty := ((values.get? "_env_ignore_empty").getD .null).isTruthy
  nullText := values.text? "_env_parse_none_str"

/-- The value that is given directly for a setting. -/
def given? (values : Json.Members) (name : Text) : Option Json :=
  (values.find? fun (key, _) => key.lower == name).map (·.2)

/-- The environment's value of a setting. -/
def fromEnvironment? (o : Outlook) (env : Environment) (name : Text) : Option Json :=
  let fold (t : Text) : Text := if o.caseSensitive then t else t.lower
  let env := env.filter fun (_, v) => !(o.ignoresEmpty && v.isEmpty)
  (env.reverse.find? fun (key, _) => fold key == fold (o.stem ++ name)).map fun (_, v) =>
    if o.nullText = some v then .null else .str v

/-- The values to read the settings from. -/
def sources (values : Json.Members) (env : Environment) : Json.Members :=
  names.filterMap fun name =>
    ((given? values name).or (fromEnvironment? (outlook values) env name)).map (name, ·)

/-- The names of values that are neither settings nor directives. -/
def strangers (values : Json.Members) : List Text :=
  values.names.filter fun name => !names.contains name.lower && !directives.contains name

/-- One complaint for each value that is neither a setting nor a directive. -/
def unknown (values : Json.Members) : Checked Unit :=
  match strangers values with
  | [] => .accepted ()
  | strange => .rejected (strange.map fun name => ⟨[name], .unknownField⟩)

/-- Reads the settings from values of which none has an unreadable name. -/
def readLegible (values : Json.Members) (env : Environment) : Checked Settings :=
  let ms := sources values env
  let d := default
  (fun s _ => s) <$> (Settings.mk
    <$> Schema.defaulted ms "manifest_name" Schema.text d.manifestName
    <*> Schema.defaulted ms "type_config_name" Schema.text d.typeConfigName
    <*> Schema.defaulted ms "ignore_file_name" Schema.text d.ignoreFileName
    <*> Schema.defaulted ms "readme_name" Schema.text d.readmeName
    <*> Schema.defaulted ms "readme_min_length" (Schema.atLeast 0) d.readmeMinLength
    <*> Schema.defaulted ms "max_file_lines" (Schema.atLeast 1) d.maxFileLines
    <*> Schema.defaulted ms "rule_timeout"
      (fun v => (Schema.number v).require .notAbove Binary64.isPositive) d.ruleTimeout
    <*> Schema.defaulted ms "max_parallel" (Schema.atLeast 1) d.maxParallel
    <*> Schema.defaulted ms "max_depth" (Schema.atLeast 0) d.maxDepth
    <*> Schema.defaulted ms "backup_directory" Schema.path d.backupDirectory
    <*> Schema.defaulted ms "max_files_to_fix" (Schema.atLeast 0) d.maxFilesToFix
    <*> Schema.defaulted ms "log_level" Schema.text d.logLevel)
  <*> unknown values

/-- Reads the settings. If the name of a value has no UTF-8 form, that is the only complaint. -/
def read (values : Json.Members) (env : Environment) : Checked Settings :=
  if (strangers values).any fun name => name.any CodePoint.isSurrogate then .misfit .notUnicode
  else readLegible values env

end Settings

end PackageAudit
