import MessageCatalog.Separated

/-!
# Usages

How a command may be called. Its arguments are switches and operands. A switch
is a hyphen and a letter, or two hyphens and a word; some switches take a value,
which is the next argument unless it is attached. Letters may share a hyphen.
After two hyphens alone all arguments are operands, and a hyphen alone is always
an operand or a value.

Some switches ask about the command itself. Such an inquiry ends the arguments:
what follows it is not looked at, and only a mistake before it counts.

One operand may look like a switch (`Usage.loose`): in its place, whatever is
not made of known switches is an operand or a value.

* `Usage.read`: the call that a list of arguments is, or why it is none.
-/

namespace MessageCatalog.CommandLine

/-- What a switch does. -/
inductive Effect where
  /-- It is given or not. -/
  | flag
  /-- It takes a value. -/
  | value
  /-- It takes a value that is not empty. -/
  | name
  /-- It asks about the command. -/
  | inquiry
  deriving DecidableEq, Repr

/-- A switch of a command. -/
structure Switch where
  /-- The letter after one hyphen. -/
  letter : Char
  /-- The word after two hyphens. -/
  word : String
  /-- What the switch does. -/
  effect : Effect
  deriving DecidableEq, Repr

/-- How a command may be called. -/
structure Usage where
  /-- The switches, each of which may be given once. -/
  switches : List Switch
  /-- The words of the switches that have to be given. -/
  required : List String
  /-- The least number of operands. -/
  least : Nat
  /-- The greatest number of operands, if there is one. -/
  most : Option Nat
  /-- The index of the operand that may look like a switch, if there is one. -/
  loose : Option Nat
  deriving DecidableEq, Repr

/-- The switches and operands of a call. -/
structure Call where
  /-- The words of the switches, with their values. -/
  settings : List (String × Option String)
  /-- The operands. -/
  operands : List String
  deriving DecidableEq, Repr

/-- Why arguments are no call. -/
inductive Refusal where
  /-- The command cannot be called with them. -/
  | misuse
  /-- They ask about the command. -/
  | inquiry
  deriving DecidableEq, Repr

/-- What an argument is. -/
inductive Argument where
  /-- An operand, or the value of the switch before it. -/
  | plain
  /-- The end of the switches. -/
  | terminator
  /-- Switches with their values, and a last one whose value is to follow. -/
  | switches (settings : List (String × Option String)) (pending : Option Switch)
  /-- A mistake. -/
  | wrong
  deriving DecidableEq, Repr

/-- Whether a switch takes a value. -/
def Effect.takesValue : Effect → Bool
  | value | name => true
  | flag | inquiry => false

/-- Whether a switch is given. -/
def Call.has (call : Call) (word : String) : Bool :=
  call.settings.any (·.1 == word)

/-- The value of a switch. -/
def Call.value? (call : Call) (word : String) : Option String :=
  (call.settings.lookup word).join

namespace Usage

variable (u : Usage)

/-- The switch with a letter. -/
def byLetter? (letter : Char) : Option Switch :=
  u.switches.find? (·.letter == letter)

/-- The switch with a word. -/
def byWord? (word : String) : Option Switch :=
  u.switches.find? (·.word == word)

/-- What two hyphens and a text are. -/
def readWord (isLoose : Bool) (text : List Char) : Argument :=
  let (word, value) := match cut? '=' text with
    | some (word, value) => (word, some (String.ofList value))
    | none => (text, none)
  match u.byWord? (String.ofList word) with
  | none => if isLoose then .plain else .wrong
  | some switch =>
    match switch.effect.takesValue, value with
    | true, none => .switches [] (some switch)
    | false, some _ => .wrong
    | _, _ => .switches [(switch.word, value)] none

/-- What a hyphen and letters are. The text after the letter of a switch with a
    value is its value. -/
def readLetters : List Char → Argument
  | [] => .switches [] none
  | letter :: rest =>
    match u.byLetter? letter with
    | none => .wrong
    | some switch =>
      match switch.effect with
      | .value | .name =>
        match rest with
        | [] => .switches [] (some switch)
        | '=' :: value => .switches [(switch.word, some (String.ofList value))] none
        | value => .switches [(switch.word, some (String.ofList value))] none
      | .flag =>
        match readLetters rest with
        | .switches settings pending => .switches ((switch.word, none) :: settings) pending
        | other => other
      | .inquiry => .switches [(switch.word, none)] none

/-- What an argument is that follows `index` operands. -/
def readArgument (index : Nat) (argument : String) : Argument :=
  let isLoose := u.loose == some index
  match argument.toList with
  | ['-', '-'] => .terminator
  | '-' :: '-' :: text => u.readWord isLoose text
  | '-' :: letter :: letters =>
    -- One unknown letter is enough: it makes the whole argument plain.
    if isLoose && (letter :: letters).any fun l => (u.byLetter? l).isNone then .plain
    else u.readLetters (letter :: letters)
  | _ => .plain

/-- Whether a call asks about the command. -/
def inquires (call : Call) : Bool :=
  u.switches.any fun switch => switch.effect = .inquiry ∧ call.has switch.word

/-- Continues a call with arguments, the first of which is the value of the
    pending switch. An inquiry ends them. -/
def continue? (call : Call) : (pending : Option Switch) → List String → Option Call
  | none, [] => some call
  | some _, [] => none
  | pending, argument :: arguments =>
    match u.readArgument call.operands.length argument, pending with
    | .plain, none =>
      continue? { call with operands := call.operands ++ [argument] } none arguments
    | .plain, some switch =>
      continue? { call with settings := call.settings ++ [(switch.word, some argument)] } none
        arguments
    | .switches settings next, none =>
      let call := { call with settings := call.settings ++ settings }
      if u.inquires call then some call else continue? call next arguments
    | .terminator, none => some { call with operands := call.operands ++ arguments }
    | .switches .., some _ | .terminator, some _ | .wrong, _ => none

/-- Whether nothing in a call is wrong: no switch is repeated, no name is empty,
    and there are not too many operands. -/
def admits (call : Call) : Bool :=
  (call.settings.map (·.1)).Nodup ∧
    (u.switches.all fun switch => switch.effect = .name → call.value? switch.word ≠ some "") ∧
    u.most.all (call.operands.length ≤ ·)

/-- Whether nothing is missing in a call. -/
def completes (call : Call) : Bool :=
  u.required.all call.has ∧ u.least ≤ call.operands.length

/-- The call that a list of arguments is. What is missing does not matter to an
    inquiry. -/
def read (arguments : List String) : Except Refusal Call :=
  match (u.continue? ⟨[], []⟩ none arguments).filter u.admits with
  | none => .error .misuse
  | some call =>
    if u.inquires call then .error .inquiry
    else if u.completes call then .ok call
    else .error .misuse

end Usage

end MessageCatalog.CommandLine
