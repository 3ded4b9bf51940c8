import Transclude.Directive.Options
import Transclude.Query
import Transclude.Table.Basic

/-!
# Plugins

A plugin handles the directives of one kind, also under older names. Seven behaviours are built in; a custom plugin has
fixed answers.
-/

namespace Transclude

inductive Data where
  | rows (rows : List Table.Row)
  | answer (answer : Query.Answer)
  | text (s : String)
deriving Repr

structure Custom where
  data : Option String := none
  problems : List Status := []
  /-- What is written, in which `{data}` stands for the data. -/
  output : String := ""
deriving Repr

inductive Behaviour where
  | embed
  | query
  | table
  | greeting
  | synopsis
  | recollection
  | contents
  | custom (answers : Custom)
deriving Repr

structure Plugin where
  name : String
  kind : String
  module : String
  oldKinds : List String := []
  oldOptions : List (String × List String) := []
  behaviour : Behaviour
deriving Repr

namespace Plugin

def renameOptions (p : Plugin) (d : Directive) : Directive × List Status :=
  let (options, warnings) := d.options.renameOld p.oldOptions
  ({ d with options }, warnings)

end Plugin

/-! ## The standard plugins -/

namespace Plugin.Standard

def file : Plugin where
  name := "file plugin"
  kind := "file"
  module := "embedm_plugins.file_plugin"
  oldOptions := [("show_link", ["link"]), ("show_line_range", ["line_numbers_range"])]
  behaviour := .embed

def contents : Plugin where
  name := "toc plugin"
  kind := "toc"
  module := "embedm_plugins.toc_plugin"
  behaviour := .contents

def greeting : Plugin where
  name := "hello world plugin"
  kind := "hello_world"
  module := "embedm_plugins.hello_world_plugin"
  behaviour := .greeting

def table : Plugin where
  name := "table plugin"
  kind := "table"
  module := "embedm_plugins.table_plugin"
  behaviour := .table

def synopsis : Plugin where
  name := "synopsis plugin"
  kind := "synopsis"
  module := "embedm_plugins.synopsis_plugin"
  behaviour := .synopsis

def recollection : Plugin where
  name := "recall plugin"
  kind := "recall"
  module := "embedm_plugins.recall_plugin"
  behaviour := .recollection

def query : Plugin where
  name := "query path plugin"
  kind := "query_path"
  module := "embedm_plugins.query_path_plugin"
  oldKinds := ["query-path"]
  behaviour := .query

def all : List (String × Plugin) := [
  ("embedm_file", file), ("table_of_contents", contents), ("hello_world", greeting),
  ("table", table), ("synopsis", synopsis), ("recall", recollection), ("query_path", query)]

end Plugin.Standard

end Transclude
