import RouteGuard.CommandLine.Arguments

/-! # Help on the command line -/

namespace RouteGuard.CommandLine

def versionText : String := "pathgate 0.1.0\n"

/-- Rows of two columns, the second one aligned. -/
def columns (rows : List (String × String)) : String :=
  let width := (rows.map (·.1.length)).foldl max 0
  String.join (rows.map fun (name, about) =>
    "  " ++ name ++ String.ofList (List.replicate (width - name.length) ' ') ++ "  " ++ about ++
      "\n")

def configRow : String × String :=
  ("-c, --config <CONFIG>",
    "Path to config file (defaults to ./pathgate.toml if it exists, " ++
      "otherwise built-in defaults are used)")

def helpRow : String × String := ("-h, --help", "Print help")

namespace Topic

def about : Topic → String
  | program => "Data-driven URL authorization service"
  | serve => "Start the server (default)"
  | check => "Evaluate one authorization decision and print it as JSON"
  | rules => "Print the resource rule table in match order"
  | migrate => "Run SQLite migrations and optionally import a seed file"
  | help => "Print this message or the help of the given subcommand(s)"

def usage : Topic → String
  | program => "pathgate [OPTIONS] [COMMAND]"
  | serve => "pathgate serve [OPTIONS]"
  | check => "pathgate check [OPTIONS] --path <PATH>"
  | rules => "pathgate rules [OPTIONS]"
  | migrate => "pathgate migrate [OPTIONS]"
  | help => "pathgate help [COMMAND]"

def optionRows : Topic → List (String × String)
  | program => [configRow, helpRow, ("-V, --version", "Print version")]
  | check =>
    [configRow,
      ("-p, --principal <PRINCIPAL>",
        "Principal username. Omit to check as an anonymous caller"),
      ("    --path <PATH>", "Request path, optionally with a query string"), helpRow]
  | migrate =>
    [configRow,
      ("-s, --seed <SEED>",
        "Seed file to import after migrating (defaults to the configured one)"), helpRow]
  | help => []
  | _ => [configRow, helpRow]

def text (t : Topic) : String :=
  let commands :=
    if t = program then
      "\nCommands:\n" ++ columns (topics.map fun (name, topic) => (name, topic.about))
    else ""
  let options :=
    if t.optionRows.isEmpty then "" else "\nOptions:\n" ++ columns t.optionRows
  t.about ++ "\n\nUsage: " ++ t.usage ++ "\n" ++ commands ++ options

end Topic

end RouteGuard.CommandLine
