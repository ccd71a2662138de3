import TopDown.Grammar.Sample
import TopDown.Report
import TopDown.Sentence.Generator
import TopDown.Text

namespace TopDown.CommandLine

def programName : String := "predictive"

def programVersion : String := "0.1.0"

/-- One thing said by an argument; one argument may say several. -/
inductive Item where
  | verbose
  | version
  | switch (name : String)
  /-- The option that takes a value, and its value as far as it is known. -/
  | option (value : Option String)
  | operand (text : String)
  | unknown
deriving DecidableEq, Repr

/-- What a subcommand understands: switches by their long names, possibly one option with a value,
and how many operands it takes. -/
structure Form where
  name : String
  switches : List String
  valued : Option (Char × String)
  operands : Nat

def forms : List Form :=
  [⟨"sets", [], none, 0⟩, ⟨"table", [], none, 0⟩, ⟨"parse", ["trace"], none, 1⟩,
   ⟨"generate", ["parse"], some ('n', "max-length"), 0⟩]

def bareForm : Form := ⟨"", [], none, 0⟩

/-- Equality signs between an option and its value are skipped. -/
def inlineOption (cs : List Char) : Item :=
  .option (if cs.isEmpty then none else some (String.ofList (cs.dropWhile (· = '='))))

namespace Form

def longItem (form : Form) (cs : List Char) : Item :=
  let name := String.ofList (cs.takeWhile (· ≠ '='))
  let rest := cs.dropWhile (· ≠ '=')
  if form.valued.any (·.2 = name) then inlineOption rest
  else if name ∈ form.switches then .switch name
  else if name = "version" then .version
  else .unknown

def shortItems (form : Form) : List Char → List Item
  | [] => []
  | c :: cs =>
    if form.valued.any (·.1 = c) then [inlineOption cs]
    else if c = 'v' then .verbose :: form.shortItems cs
    else if c = 'V' then [.version]
    else [.unknown]

/-- What an argument that starts with a hyphen says; a hyphen alone is no option. -/
def optionItems? (form : Form) (arg : String) : Option (List Item) :=
  match arg.toList with
  | '-' :: '-' :: cs => some [form.longItem (cs.dropWhile (· = '-'))]
  | '-' :: c :: cs => some (form.shortItems (c :: cs))
  | _ => none

/-- All that the arguments of a subcommand say. An option without a value takes the next argument
unless that is an option; two hyphens end the options. -/
def items (form : Form) : List String → List Item
  | [] => []
  | arg :: rest =>
    if arg = "--" then rest.map .operand
    else
      match form.optionItems? arg, rest with
      | none, rest => .operand arg :: form.items rest
      | some is, [] => is
      | some is, next :: rest =>
        if is.getLast? = some (.option none) ∧ form.optionItems? next = none then
          is.dropLast ++ .option (some next) :: form.items rest
        else is ++ form.items (next :: rest)
termination_by args => args.length

end Form

inductive Interrupt where
  | version
  | usage
deriving DecidableEq, Repr

/-- The first item that puts an end to reading, with room for `room` operands. -/
def interrupt? : (room : Nat) → List Item → Option Interrupt
  | _, [] => none
  | room, .operand _ :: is =>
    match room with
    | 0 => some .usage
    | room + 1 => interrupt? room is
  | _, .version :: _ => some .version
  | _, .unknown :: _ => some .usage
  | room, _ :: is => interrupt? room is

inductive Command where
  | version (text : String)
  | sets
  | table
  | parse (sentence : String) (withTrace : Bool)
  | generate (maxLength : String) (withVerdict : Bool)
deriving DecidableEq, Repr

def defaultMaxLength : String := "15"

def Item.operand? : Item → Option String
  | .operand text => some text
  | _ => none

def Item.value? : Item → Option String
  | .option value => value
  | _ => none

def hasRepetition (is : List Item) : Bool :=
  let switches := is.filter fun i => i matches .switch _
  let options := is.filter fun i => i matches .option _
  switches.eraseDups.length < switches.length || 1 < options.length

def Form.command? (form : Form) (args : List String) : Option Command :=
  let is := form.items args
  match interrupt? form.operands is with
  | some .version => some (.version (programName ++ "-" ++ form.name ++ " "))
  | some .usage => none
  | none =>
    if hasRepetition is then none
    else
      match form.name, is.filterMap Item.operand? with
      | "sets", [] => some .sets
      | "table", [] => some .table
      | "parse", [sentence] => some (.parse sentence (.switch "trace" ∈ is))
      | "generate", [] =>
        some (.generate ((is.findSome? Item.value?).getD defaultMaxLength) (.switch "parse" ∈ is))
      | _, _ => none

def command? : List String → Option Command
  | [] => none
  | arg :: args =>
    match forms.find? (·.name = arg) with
    | some form => form.command? args
    | none =>
      if arg = "--" then none
      else
        match bareForm.optionItems? arg with
        | none => none
        | some is =>
          match interrupt? 0 is with
          | some .version => some (.version (programName ++ " " ++ programVersion))
          | some .usage => none
          | none => command? args

inductive Failure where
  | usage
  | numeral (e : Text.NumeralError)
  | parse (e : ParseError)
  | generate (e : GenerateError)
deriving DecidableEq, Repr

def numeralErrorText : Text.NumeralError → String
  | .empty => "Empty"
  | .invalidDigit => "InvalidDigit"
  | .tooLarge => "PosOverflow"

def Failure.line : Failure → String
  | .usage => "usage"
  | .numeral e => "Error: ParseIntError \x7b kind: " ++ numeralErrorText e ++ " \x7d"
  | .parse .tableNotReady => "Error: TableNotReady"
  | .generate (.invalidLength min max) =>
    s!"Error: InvalidLength \x7b min: {min}, max: {max} \x7d"
  | .generate (.notTerminating attempts) =>
    s!"Error: NotTerminating \x7b attempts: {attempts} \x7d"
  | .generate .noRule => "Error: NoRule"

def Command.execute {σ : Type} [Chooser σ] (s : σ) : Command → Except Failure (List String)
  | .version text => .ok [text]
  | .sets => .ok sampleParser.setLines
  | .table => .ok (sampleParser.tableOf.lines sampleGrammar)
  | .parse sentence withTrace => do
    let r ← parseText sentence
    return (if withTrace then r.traceLines sampleGrammar else []) ++ [r.verdictLine]
  | .generate maxLength withVerdict => do
    let max ← (Text.readNumeral maxLength).mapError .numeral
    let w ← (sampleGrammar.generateUpTo max s).1.result.mapError .generate
    let sentence := String.ofList w
    if withVerdict then
      let r ← parseText sentence
      return [sentence, r.verdictLine]
    else return [sentence]
where
  sampleParser : Parser Char Char := Parser.ofGrammar sampleGrammar
  parseText (sentence : String) : Except Failure (Run Char Char) :=
    (sampleParser.parse sentence.toList).mapError .parse

def answer {σ : Type} [Chooser σ] (s : σ) (args : List String) : Except Failure (List String) :=
  match command? args with
  | none => .error .usage
  | some c => c.execute s

end TopDown.CommandLine
