/-! # Switches

The switches of the command line, in the order in which they are told to the user. Some exclude
each other.
-/

namespace MdxLint

inductive Taking where
  /-- Nothing; the switch is set. -/
  | nothing
  /-- A text. -/
  | text
  /-- One of some texts. -/
  | choice (options : List String)
  /-- A whole number. -/
  | number
  /-- A text that is added to those given before. -/
  | more
  /-- Nothing; the version is told and the run is over. -/
  | version
  /-- Nothing; the usage is told and the run is over. -/
  | help
  deriving DecidableEq, Repr

/-- A switch: its spellings, the argument it sets, and what it takes. -/
structure Switch where
  spellings : List String
  target : String
  taking : Taking
  deriving DecidableEq, Repr

def Switch.standsAlone (s : Switch) : Bool :=
  match s.taking with
  | .nothing => true
  | .version => true
  | .help => true
  | _ => false

def Switch.title (s : Switch) : String := "/".intercalate s.spellings

def switches : List Switch :=
  [⟨["-h", "--help"], "help", .help⟩,
   ⟨["--version"], "version", .version⟩,
   ⟨["-c", "--cwd"], "cwd", .text⟩,
   ⟨["-r", "--git-range"], "git_range", .text⟩,
   ⟨["--all"], "all", .nothing⟩,
   ⟨["--include"], "include", .more⟩,
   ⟨["--exclude"], "exclude", .more⟩,
   ⟨["--format"], "file_format", .choice ["mdx", "md", "detect"]⟩,
   ⟨["-g", "--globals"], "globals", .nothing⟩,
   ⟨["--globals-list"], "globals_list", .text⟩,
   ⟨["--no-globals"], "no_globals", .nothing⟩,
   ⟨["--extend-globals"], "extend_globals", .nothing⟩,
   ⟨["--config"], "config", .text⟩,
   ⟨["--jobs"], "jobs", .number⟩,
   ⟨["--compile-timeout"], "compile_timeout_seconds", .number⟩,
   ⟨["--output"], "output", .choice ["text", "json"]⟩,
   ⟨["--json"], "json", .nothing⟩,
   ⟨["--out-file"], "out_file", .text⟩,
   ⟨["--run-id"], "run_id", .text⟩,
   ⟨["--log-json"], "log_json", .nothing⟩,
   ⟨["-v", "--verbose"], "verbose", .nothing⟩,
   ⟨["-q", "--quiet"], "quiet", .nothing⟩]

def exclusiveGroups : List (List String) :=
  [["git_range", "all"], ["globals", "globals_list", "no_globals"], ["verbose", "quiet"]]

def Switch.excluded (s : Switch) : List Switch :=
  switches.filter fun t =>
    t.target ≠ s.target && exclusiveGroups.any fun g => s.target ∈ g && t.target ∈ g

def spellings : List (String × Switch) := switches.flatMap fun s => s.spellings.map (·, s)

def switchOf? (spelling : String) : Option Switch :=
  (spellings.find? fun s => s.1 = spelling).map (·.2)

end MdxLint
