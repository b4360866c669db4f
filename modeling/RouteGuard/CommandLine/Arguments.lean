/-! # Command-line arguments

The arguments are options, a command, and options again. An option is written
in full or as a letter, and its value stands behind it or is attached to it.
Values that look like options have to be attached.
-/

namespace RouteGuard.CommandLine

inductive Command
  | serve
  | check (principal : Option String) (path : String)
  | rules
  | migrate (seed : Option String)
  deriving DecidableEq, Repr

inductive Topic
  | program
  | serve
  | check
  | rules
  | migrate
  | help
  deriving DecidableEq, Repr

inductive Invocation
  | run (command : Command) (settingsFile : Option String)
  | help (topic : Topic)
  | version
  deriving DecidableEq, Repr

inductive UsageError
  | unexpected (argument : String)
  | noValue (option : String)
  | emptyValue (option : String)
  | repeated (option : String)
  | required (option : String)
  deriving DecidableEq, Repr

def UsageError.message : UsageError → String
  | unexpected argument => "error: unexpected argument '" ++ argument ++ "' found"
  | noValue option => "error: a value is required for '" ++ option ++ "' but none was supplied"
  | emptyValue option => "error: an empty value was supplied for '" ++ option ++ "'"
  | repeated option => "error: the argument '" ++ option ++ "' cannot be used multiple times"
  | required option => "error: the required argument '" ++ option ++ "' was not provided"

/-- An option that takes a value. -/
structure OptionName where
  full : String
  letter : Option Char := none
  /-- the value names a file, so that it cannot be empty -/
  isFile : Bool := false
  deriving DecidableEq, Repr

namespace OptionName

def config : OptionName := ⟨"config", some 'c', true⟩

def principal : OptionName := ⟨"principal", some 'p', false⟩

def path : OptionName := ⟨"path", none, false⟩

def seed : OptionName := ⟨"seed", some 's', true⟩

end OptionName

/-- How one argument is to be taken. -/
inductive Argument
  | full (name : String) (attached : Option String)
  | letters (cs : List Char)
  /-- the mark behind which no options follow -/
  | mark
  | word (s : String)
  deriving DecidableEq, Repr

/-- Splits a full option from its attached value. -/
def Argument.ofFull (cs : List Char) : Argument :=
  let name := String.ofList (cs.takeWhile (· ≠ '='))
  match cs.dropWhile (· ≠ '=') with
  | [] => full name none
  | _ :: value => full name (some (String.ofList value))

/-- The form of an argument. A single dash is a word. -/
def Argument.of (s : String) : Argument :=
  match s.toList with
  | ['-', '-'] => mark
  | '-' :: '-' :: cs => ofFull cs
  | '-' :: c :: cs => letters (c :: cs)
  | _ => word s

/-- The options that may stand before a command, or behind one. -/
structure OptionSet where
  topic : Topic
  options : List OptionName
  hasVersion : Bool := false

/-- Why reading stops before the end: an error, or a question about the program
itself. -/
inductive Stop
  | wrong (e : UsageError)
  | ask (invocation : Invocation)

/-- Options with their values, and the words that follow. -/
structure Given where
  values : List (OptionName × String) := []
  rest : List String := []

/-- Adds a value. No option is given twice on one side of the command. -/
def Given.add (g : Given) (o : OptionName) (value : String) : Except Stop Given :=
  if g.values.any (·.1 == o) then .error (.wrong (.repeated o.full))
  else if o.isFile && value.isEmpty then .error (.wrong (.emptyValue o.full))
  else .ok { g with values := g.values ++ [(o, value)] }

/-- The value behind an option: the next argument, if it is a word. -/
def valueBehind (o : OptionName) : List String → Except Stop (String × List String)
  | next :: rest =>
    match Argument.of next with
    | .word value => .ok (value, rest)
    | _ => .error (.wrong (.noValue o.full))
  | [] => .error (.wrong (.noValue o.full))

theorem length_lt_of_valueBehind {o : OptionName} {args rest : List String} {value : String}
    (h : valueBehind o args = .ok (value, rest)) : rest.length < args.length := by
  unfold valueBehind at h
  split at h
  · split at h
    · simp only [Except.ok.injEq, Prod.mk.injEq] at h
      simp [h.2]
    · simp at h
  · simp at h

/-- What an option as it is written stands for. -/
inductive Meaning
  | stop (s : Stop)
  | value (o : OptionName) (attached : Option String)

/-- Reads letters up to the first that takes a value; what follows it is
attached to it, with or without an equals sign. -/
def Meaning.ofLetters (p : OptionSet) : List Char → Meaning
  | [] => stop (.wrong (.unexpected "-"))
  | c :: rest =>
    if c = 'h' then stop (.ask (.help p.topic))
    else if c = 'V' && p.hasVersion then stop (.ask .version)
    else
      match p.options.find? (·.letter == some c) with
      | none => stop (.wrong (.unexpected (String.ofList ['-', c])))
      | some o =>
        match rest with
        | [] => value o none
        | '=' :: cs => value o (some (String.ofList cs))
        | cs => value o (some (String.ofList cs))

def Meaning.ofFull (p : OptionSet) (name : String) (attached : Option String) : Meaning :=
  match p.options.find? (·.full == name) with
  | some o => value o attached
  | none =>
    match attached with
    | some _ => stop (.wrong (.unexpected ("--" ++ name)))
    | none =>
      if name = "help" then stop (.ask (.help p.topic))
      else if name = "version" && p.hasVersion then stop (.ask .version)
      else stop (.wrong (.unexpected ("--" ++ name)))

/-- Reads options up to the first word. Nothing may follow the mark. -/
def readOptions (p : OptionSet) (g : Given) : List String → Except Stop Given
  | [] => .ok { g with rest := [] }
  | arg :: args =>
    let option : Meaning → Except Stop Given := fun
      | .stop s => .error s
      | .value o (some v) => do readOptions p (← g.add o v) args
      | .value o none =>
        match h : valueBehind o args with
        | .error s => .error s
        | .ok (v, rest) =>
          have := length_lt_of_valueBehind h
          do readOptions p (← g.add o v) rest
    match Argument.of arg with
    | .word _ => .ok { g with rest := arg :: args }
    | .mark =>
      match args with
      | [] => .ok { g with rest := [] }
      | next :: _ => .error (.wrong (.unexpected next))
    | .full name attached => option (.ofFull p name attached)
    | .letters cs => option (.ofLetters p cs)
termination_by args => args.length

/-- Reads the options of a command, behind which nothing may follow. -/
def readLast (p : OptionSet) (args : List String) : Except Stop Given := do
  let g ← readOptions p {} args
  match g.rest with
  | [] => return g
  | next :: _ => throw (.wrong (.unexpected next))

def topics : List (String × Topic) :=
  [("serve", .serve), ("check", .check), ("rules", .rules), ("migrate", .migrate),
    ("help", .help)]

def Topic.options : Topic → List OptionName
  | check => [.config, .principal, .path]
  | migrate => [.config, .seed]
  | _ => [.config]

def Given.value? (g : Given) (o : OptionName) : Option String := g.values.lookup o

/-- The command that a topic and its options make. -/
def Topic.command (t : Topic) (g : Given) : Except Stop Command :=
  match t with
  | check =>
    match g.value? .path with
    | none => .error (.wrong (.required "--path <PATH>"))
    | some path => .ok (.check (g.value? .principal) path)
  | rules => .ok .rules
  | migrate => .ok (.migrate (g.value? .seed))
  | _ => .ok .serve

/-- The topic that is asked about behind the word `help`. -/
def askedTopic : List String → Except Stop Invocation
  | [] => .ok (.help .program)
  | [name] =>
    match topics.lookup name with
    | some t => .ok (.help t)
    | none => .error (.wrong (.unexpected name))
  | _ :: next :: _ => .error (.wrong (.unexpected next))

/-- Reads all arguments. Without a command the program serves. Where a file of
settings is named before and behind the command, the later one counts. -/
def readAll (args : List String) : Except Stop Invocation := do
  let g ← readOptions ⟨.program, [.config], true⟩ {} args
  match g.rest with
  | [] => return .run .serve (g.value? .config)
  | name :: args =>
    match topics.lookup name with
    | none => throw (.wrong (.unexpected name))
    | some .help => askedTopic args
    | some topic =>
      let own ← readLast ⟨topic, topic.options, false⟩ args
      return .run (← topic.command own) ((own.value? .config).or (g.value? .config))

def Invocation.ofArguments (args : List String) : Except UsageError Invocation :=
  match readAll args with
  | .ok invocation => .ok invocation
  | .error (.ask invocation) => .ok invocation
  | .error (.wrong e) => .error e

end RouteGuard.CommandLine
