import Replatform.Project.Block
/-!
# Settings of a project

The files that describe a project to the program that runs it: the project itself, the connection
to a database, the sources, and the models with their columns. Sources and models are listed in the
order of their names.
-/

namespace Replatform.Project

open Text (lines)

/-- The fields in the order of their names. -/
def byName {α : Type} (fields : List (String × α)) : List (String × α) :=
  fields.mergeSort fun a b => a.1 ≤ b.1

/-- The columns of a source or model at an indent, each with a description. -/
def columnEntries (indent note : String) (columns : List String) : List String :=
  columns.flatMap fun c =>
    [indent ++ "- name: \"" ++ c ++ "\"", indent ++ "  description: \"Column " ++ c ++ note ++ "\""]

def sourceEntry (table : String) (s : Source) : List String :=
  ["      - name: " ++ table, "        description: \"" ++ s.description ++ "\""]
  ++ (if s.columns.isEmpty then []
      else "        columns:" :: columnEntries "          " " from source" s.columns)

def sourceList (sources : List (String × List (String × Source))) : String :=
  lines <|
    ["version: 2", "", "sources:"]
    ++ (byName sources).flatMap fun (schema, tables) =>
      ["  - name: " ++ schema,
       "    description: \"Source data from " ++ schema ++ "\"",
       "    tables:"]
      ++ (byName tables).flatMap fun (table, s) => sourceEntry table s

def modelEntry (name : String) (m : Model) : List String :=
  ["  - name: " ++ name, "    description: \"" ++ m.description ++ "\"", "    columns:"]
  ++ (if m.columns.isEmpty then
        ["      # TODO: Add column definitions",
         "      # - name: \"column_name\"",
         "      #   description: \"Column description\""]
      else columnEntries "      " "" m.columns)
  ++ [""]

/-- The list of the models of a layer. -/
def modelList (models : List (String × Model)) : String :=
  lines <|
    ["version: 2", "", "models:"] ++ (byName models).flatMap fun (name, m) => modelEntry name m

def projectText (name : String) (now : Moment) : String := lines [
  "name: '" ++ name ++ "'",
  "version: '1.0.0'",
  "config-version: 2", "",
  "# ============================================================",
  "# TARGET PLATFORM: Starburst (Trino-based)",
  "# ============================================================",
  "# This dbt project is configured for Starburst/Trino.",
  "# Ensure you have dbt-trino adapter installed:",
  "#   pip install dbt-trino",
  "# ============================================================", "",
  "profile: '" ++ name ++ "'", "",
  "model-paths: [\"models\"]",
  "analysis-paths: [\"analyses\"]",
  "test-paths: [\"tests\"]",
  "seed-paths: [\"seeds\"]",
  "macro-paths: [\"macros\"]",
  "snapshot-paths: [\"snapshots\"]", "",
  "target-path: \"target\"",
  "clean-targets:",
  "  - \"target\"",
  "  - \"dbt_packages\"", "",
  "models:",
  "  " ++ name ++ ":",
  "    bronze:",
  "      +materialized: table",
  "      +schema: bronze",
  "    silver:",
  "      +materialized: table",
  "      +schema: silver",
  "    gold:",
  "      +materialized: view",
  "      +schema: gold", "",
  "tests:",
  "  " ++ name ++ ":",
  "    +severity: warn", "",
  "# Generated: " ++ now.write,
  "# Migrated from Alteryx ETL workflows to Starburst/Trino ELT.",
  "# Review and customize the models before running."]

/-- A pattern for the connection of a project to its database. -/
def profileText (name : String) : String := lines [
  "# ============================================================",
  "# Starburst/Trino dbt Profile Configuration",
  "# ============================================================",
  "# Copy this file to ~/.dbt/profiles.yml and configure your connection.",
  "# Documentation: https://docs.getdbt.com/docs/core/connect-data-platform/trino-setup",
  "# ============================================================", "",
  name ++ ":",
  "  target: dev",
  "  outputs:",
  "    dev:",
  "      type: trino",
  "      method: ldap  # or 'none', 'kerberos', 'oauth', 'jwt', 'certificate'",
  "      host: your-starburst-host.company.com",
  "      port: 443",
  "      user: your_username",
  "      password: your_password  # Or use environment variable",
  "      catalog: your_catalog",
  "      schema: your_schema",
  "      http_scheme: https",
  "      threads: 4", "",
  "    prod:",
  "      type: trino",
  "      method: ldap",
  "      host: your-starburst-host.company.com",
  "      port: 443",
  "      user: \"\x7b\x7b env_var('DBT_USER') \x7d\x7d\"",
  "      password: \"\x7b\x7b env_var('DBT_PASSWORD') \x7d\x7d\"",
  "      catalog: your_catalog",
  "      schema: your_schema",
  "      http_scheme: https",
  "      threads: 8", "",
  "# Notes for Starburst Galaxy users:",
  "# - Use method: 'oauth' or 'jwt' for authentication",
  "# - Host format: your-cluster.galaxy.starburst.io",
  "# - See: https://docs.starburst.io/starburst-galaxy/"]

namespace Work

/-- Writes the list of the sources. -/
def writeSourceList : Work Unit := do
  let b ← get
  writeText (b.dir / "models" / "bronze" / "_sources.yml") (sourceList b.sources)

/-- Writes the lists of the models. -/
def writeModelLists : Work Unit :=
  Layer.all.forM fun layer => do
    let b ← get
    let models := b.models.filter (·.2.layer = layer)
    if !models.isEmpty then
      writeText (b.dir / "models" / layer.name / ("_" ++ layer.name ++ "_schema.yml"))
        (modelList models)

/-- Writes the settings. -/
def writeProject : Work Unit := do
  let b ← get
  writeText (b.dir / "dbt_project.yml") (projectText b.name b.session.now)
  writeText (b.dir / "profiles.yml.template") (profileText b.name)

end Work

end Replatform.Project
