import DeltaSlice.Drawing
import DeltaSlice.Model.Examples
import DeltaSlice.Options

/-!
The command line: computes the system dependence graph of an example system and prints it, as a
drawing or, on a terminal, as a summary.
-/

namespace DeltaSlice

namespace Command

/-- The values of the flags. -/
structure Flags where
  config : String
  system : String
  threads : Int64
  advanced : Bool
  slice : String
  format : String
  output : String
  verbose : Bool
  dot : Bool

def Flags.default : Flags :=
  ⟨"", "producer-consumer", 0, false, "", "", "sdg", false, false⟩

/-- What a command leaves behind. -/
structure Outcome where
  exit : Nat
  stdout : String
  stderr : String

def truth? (s : String) : Option Bool :=
  if ["1", "t", "T", "true", "TRUE", "True"].contains s then some true
  else if ["0", "f", "F", "false", "FALSE", "False"].contains s then some false
  else none

def isSwitch (name : String) : Bool := ["advanced", "v", "dot"].contains name

def isValued (name : String) : Bool :=
  ["config", "system", "threads", "slice", "format", "o"].contains name

def Flags.setSwitch (f : Flags) (name : String) (b : Bool) : Flags :=
  match name with
  | "advanced" => { f with advanced := b }
  | "v" => { f with verbose := b }
  | _ => { f with dot := b }

def Flags.set? (f : Flags) (name value : String) : Option Flags :=
  match name with
  | "config" => some { f with config := value }
  | "system" => some { f with system := value }
  | "threads" => (Text.word? value).map fun n => { f with threads := n }
  | "slice" => some { f with slice := value }
  | "format" => some { f with format := value }
  | "o" => some { f with output := value }
  | _ => none

/-- Why the flags could not be read. -/
inductive FlagProblem where
  | help
  | invalid

/-- The name of a flag and the value that is attached to it. -/
def splitFlag (cs : List Char) : String × Option String :=
  let name := cs.takeWhile (· ≠ '=')
  match cs.dropWhile (· ≠ '=') with
  | [] => (String.ofList name, none)
  | _ :: value => (String.ofList name, some (String.ofList value))

/-- The text of a flag after one or two dashes; other arguments end the flags. -/
inductive Argument where
  | flag (cs : List Char)
  | invalid
  | rest

def Argument.of (s : String) : Argument :=
  match s.toList with
  | ['-', '-'] => rest
  | '-' :: '-' :: cs => named cs
  | '-' :: c :: cs => named (c :: cs)
  | _ => rest
where
  named : List Char → Argument
    | [] => invalid
    | c :: cs => if c = '-' || c = '=' then invalid else flag (c :: cs)

/-- Reads flags up to the first argument that is none. -/
def parse (f : Flags) : List String → Except FlagProblem Flags
  | [] => .ok f
  | s :: args =>
    match Argument.of s with
    | .rest => .ok f
    | .invalid => .error .invalid
    | .flag cs =>
      match splitFlag cs with
      | (name, some value) =>
        if isSwitch name then
          match truth? value with
          | some b => parse (f.setSwitch name b) args
          | none => .error .invalid
        else if isValued name then
          match f.set? name value with
          | some f => parse f args
          | none => .error .invalid
        else if name = "help" || name = "h" then .error .help
        else .error .invalid
      | (name, none) =>
        if isSwitch name then parse (f.setSwitch name true) args
        else if isValued name then
          match args with
          | [] => .error .invalid
          | value :: args =>
            match f.set? name value with
            | some f => parse f args
            | none => .error .invalid
        else if name = "help" || name = "h" then .error .help
        else .error .invalid

/-- The example systems that the command knows, by name. -/
def systems : List (String × System) :=
  Examples.all.filter fun s => s.1 ≠ "unknown-event"

def usage : String :=
  "Usage of sdg4go:\n"
    ++ "  -advanced\n    \ttrack trigger variables\n"
    ++ "  -config string\n    \tYAML file with analysis options\n"
    ++ "  -dot\n    \twrite DOT even on a terminal\n"
    ++ "  -format string\n    \trender an image of this format with graphviz (svg, png, ...)\n"
    ++ "  -o string\n    \timage file name without extension (default \"sdg\")\n"
    ++ "  -slice string\n    \tonly draw the backwards slice of this node, e.g. \"p3(IN top.g)\"\n"
    ++ "  -system string\n    \texample system to analyze (default \"producer-consumer\")\n"
    ++ "  -threads int\n    \tnumber of exploration workers (overrides the config)\n"
    ++ "  -v\tlog the analysis to stderr\n"

def failed (stderr message : String) : Outcome := ⟨1, "", stderr ++ "sdg4go: " ++ message ++ "\n"⟩

/-- The content of the file with the options, as far as it could be read. -/
inductive Source where
  | none
  | missing
  | text (content : String)

/-- The options of the flags and the file. -/
def options (f : Flags) (source : Source) : Except String Options := do
  let o ← match source with
    | .none => .ok Options.default
    | .missing => .error ("open " ++ f.config ++ ": no such file or directory")
    | .text content =>
      match Options.ofText? content with
      | some o => .ok o
      | none => .error (f.config ++ ": yaml: no valid options")
  let o := if 0 < f.threads then { o with threads := f.threads } else o
  return if f.advanced then { o with advanced := true } else o

def haltText : Halt → String
  | .failed f => f.text
  | .broken f => f.text?.getD "undefined"
  | .exhausted => "exhausted"

def problemText : Analysis.Problem → String
  | .failed f => f.text
  | .internal f => (Analysis.internalText? f).getD "internal error in dependence analysis"
  | .exhausted => "exhausted"

/-- What is left out of the result. -/
def warnings (o : Options) (a : Analysis) : String :=
  String.join (a.exploration.incomplete.map fun f => "skipped: " ++ f.text ++ "\n")
    ++ if a.exploration.truncated then
      "exploration truncated at " ++ toString o.maxStates.toInt ++ " states\n" else ""

/-- The sizes of the result and the edges between transitions. -/
def summary (a : Analysis) : String :=
  let r := a.exploration.record
  toString r.states.length ++ " states, " ++ toString (r.size - 1) ++ " transitions, "
    ++ toString a.graph.graphs.size ++ " PDGs, " ++ toString a.graph.nodes.length ++ " nodes, "
    ++ toString a.chains.length ++ " chains\n"
    ++ String.join (a.graph.crossEdges.map fun e => "\t " ++ e.text ++ "\n")

/-- The node to draw the slice of; the empty name asks for the whole graph. -/
def sliceOf (f : Flags) (g : SystemGraph) : Except String (Option SystemNodeId) :=
  if f.slice = "" then .ok none
  else match g.nodeIds.find? fun i => i.text = f.slice with
    | some i => .ok (some i)
    | none => .error ("no node " ++ Text.quoted f.slice)

/-- Prints the result of an analysis. -/
def present (f : Flags) (terminal : Bool) (stderr : String) (a : Analysis) : Outcome :=
  match sliceOf f a.graph with
  | .error m => failed stderr m
  | .ok slice =>
    match (Drawing.mk f.system false slice).render a.graph with
    | .error e => failed stderr e.text
    | .ok drawing =>
      if f.format ≠ "" then
        failed stderr "graphviz not found: exec: \"dot\": executable file not found in $PATH"
      else ⟨0, if terminal && !f.dot then summary a else drawing, stderr⟩

/-- Runs the command with its flags read. -/
def run (f : Flags) (source : Source) (terminal : Bool) : Outcome :=
  match systems.lookup f.system with
  | none =>
    failed "" ("unknown system " ++ Text.quoted f.system ++ "; known: ["
      ++ " ".intercalate (sortByText id (systems.map (·.1))) ++ "]")
  | some sys =>
    match options f source with
    | .error m => failed "" m
    | .ok o =>
      match o.task sys with
      | .error h => failed "" (haltText h)
      | .ok task =>
        match Analysis.run task with
        | .error p => failed "" (problemText p)
        | .ok a => present f terminal ((if f.verbose then a.log else "") ++ warnings o a) a

/-- The outcome of flags that could not be read. -/
def refuse : FlagProblem → Outcome
  | .help => ⟨0, "", usage⟩
  | .invalid => ⟨2, "", usage⟩

/-- The outcome of arguments. Files are read by name; those that cannot be read are absent. -/
def outcome (args : List String) (file : String → Option String) (terminal : Bool) : Outcome :=
  match parse .default args with
  | .error p => refuse p
  | .ok f =>
    let source := if f.config = "" then .none
      else match file f.config with
        | some content => .text content
        | none => .missing
    run f source terminal

end Command

end DeltaSlice
