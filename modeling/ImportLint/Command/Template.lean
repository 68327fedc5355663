import ImportLint.Path.Basic

/-!
# A configuration to start from
-/

namespace ImportLint.Template

/-- The file that is written. -/
def file : Path := Path.ofString "import-patterns.toml"

/-- What is written. -/
def text : String :=
  "# import-patterns configuration
#
# Each [[import-patterns]] entry pairs a \x60target\x60 glob, matched against file
# paths relative to the project root, with \x60restrictions\x60: one glob or a list
# of globs that every non-relative import in those files must match.
# The first entry whose target matches a file is the only one applied, so
# list more specific targets first. Relative imports (\"./x\", \"../y\") are
# never restricted.

# Severity of reported violations: \"error\", \"warning\" or \"info\".
severity = \"error\"

# Exit with status 1 when a violation at or above this severity is found.
fail_on = \"error\"

[analyzer]
root = \".\"
exclude = [\"**/node_modules/**\", \"**/dist/**\", \"**/out/**\"]
respect_gitignore = true

[[import-patterns]]
target = \"src/vs/base/common/**\"
restrictions = \"vs/base/common/**\"

[[import-patterns]]
target = \"src/vs/workbench/**\"
restrictions = [\"vs/base/**\", \"vs/platform/**\", \"vs/workbench/**\"]
# doc = \"ARCHITECTURE.md#layers\"
"

/-- What is said when it has been written. -/
def notice : List String :=
  ["Created import-patterns.toml", "", "Next steps:",
    "  1. Edit the [[import-patterns]] entries for your project", "  2. Run: import-patterns check"]

end ImportLint.Template
