import Transclude.Config.Amount
import Transclude.Value.Basic

/-!
# Configurations

A configuration comes from the command line, which says what a run does, and from a configuration file, which has its
limits and plugins.
-/

namespace Transclude

inductive InputMode where
  | file
  | directory
  | stdin
deriving Repr, BEq, DecidableEq

def InputMode.name : InputMode → String
  | .file => "file"
  | .directory => "directory"
  | .stdin => "stdin"

def defaultSequence : List String := [
  "embedm_plugins.file_plugin", "embedm_plugins.query_path_plugin", "embedm_plugins.table_plugin",
  "embedm_plugins.hello_world_plugin", "embedm_plugins.synopsis_plugin",
  "embedm_plugins.recall_plugin", "embedm_plugins.toc_plugin"]

structure Config where
  mode : InputMode := .file
  input : String := ""
  outputFile : Option String := none
  outputFolder : Option String := none
  maxFile : Amount := .int 1048576
  maxRecursion : Amount := .int 8
  maxMemory : Amount := .int 104857600
  maxEmbed : Amount := .int 524288
  rootKind : String := "file"
  sequence : List Value := defaultSequence.map .text
  acceptAll : Bool := false
  dryRun : Bool := false
  verify : Bool := false
  lineEndings : String := "lf"
  configFile : Option String := none
  initPath : Option String := none
  listPlugins : Bool := false
  verbosity : Int := 2
  noColor : Bool := false
  settings : List (Value × Value) := []
deriving Repr, BEq

def Config.merge (cli file : Config) (path : String) : Config :=
  { file with
    mode := cli.mode
    input := cli.input
    outputFile := cli.outputFile
    outputFolder := cli.outputFolder
    acceptAll := cli.acceptAll
    dryRun := cli.dryRun
    verify := cli.verify
    verbosity := cli.verbosity
    noColor := cli.noColor
    initPath := cli.initPath
    listPlugins := cli.listPlugins
    configFile := some path }

end Transclude
