/-!
# Flags and variables

Settings are given by flags on the command line, else by environment variables, else they keep
their defaults. A flag is written `--name value` or `--name=value`. A value that is a separate word
does not start with a dash, unless it is a single dash. A value given after `=` is checked at once;
one in a separate word is checked when the next known flag or the end of the line is reached, so an
unknown word after it wins over a fault in it.

A `Knob` is one setting: how it is called, and how a text changes the settings.
-/

namespace ChainNode.Settings

/-- Why settings are refused, or not even wanted. -/
inductive UsageError
  /-- A word that is neither a known flag nor the value of one. -/
  | unknownArgument
  /-- A flag without its value. -/
  | missingValue
  /-- A value that does not read. -/
  | badValue
  /-- A flag that was given before. -/
  | repeated
  /-- A value for a flag that takes none. -/
  | unwantedValue
  /-- The user asked how the program is used. -/
  | help
  deriving DecidableEq, Repr

/-- One setting of settings `σ`. -/
structure Knob (σ : Type) where
  /-- The name of the flag, without its dashes. -/
  flag : String
  /-- What a text makes of the settings, if it reads. -/
  read : String → Option (σ → σ)

namespace Knob

variable {σ τ : Type}

/-- The environment variable of a knob. -/
def environmentName (k : Knob σ) : String :=
  "TESSERA_" ++ k.flag.map fun c => if c = '-' then '_' else c.toUpper

/-- A knob of the first part of a pair of settings. -/
def onFirst (k : Knob σ) : Knob (σ × τ) :=
  ⟨k.flag, fun s => (k.read s).map fun f (a, b) => (f a, b)⟩

/-- A knob of the second part of a pair of settings. -/
def onSecond (k : Knob τ) : Knob (σ × τ) :=
  ⟨k.flag, fun s => (k.read s).map fun f (a, b) => (a, f b)⟩

end Knob

/-- A word of the command line. -/
inductive Word
  /-- Two dashes: no flags come after. -/
  | endOfFlags
  | long (name : String) (value : Option String)
  /-- One dash and at least one letter. -/
  | short (letter : Char)
  | plain (text : String)
  deriving DecidableEq, Repr

/-- Tells what a word is. -/
def Word.ofString (s : String) : Word :=
  match s.toList with
  | '-' :: '-' :: [] => .endOfFlags
  | '-' :: '-' :: rest =>
    let name := rest.takeWhile (· ≠ '=')
    match rest.dropWhile (· ≠ '=') with
    | [] => .long (String.ofList name) none
    | _ :: value => .long (String.ofList name) (some (String.ofList value))
  | '-' :: letter :: _ => .short letter
  | _ => .plain s

/-- What has been read of a command line. -/
structure Progress (σ : Type) where
  /-- The flags whose values were accepted. -/
  given : List (String × (σ → σ))
  /-- The last flag, and its value once that has come, if it is not accepted yet. -/
  pending : Option (Knob σ × Option String)

namespace Progress

variable {σ : Type}

/-- Takes a value for a knob. -/
def accept (s : Progress σ) (k : Knob σ) (value : String) : Except UsageError (Progress σ) :=
  if s.given.any fun g => g.1 == k.flag then .error .repeated
  else match k.read value with
    | none => .error .badValue
    | some f => .ok ⟨(k.flag, f) :: s.given, none⟩

/-- Settles the flag that is pending. -/
def resolve (s : Progress σ) : Except UsageError (Progress σ) :=
  match s.pending with
  | none => .ok s
  | some (_, none) => .error .missingValue
  | some (k, some value) => s.accept k value

end Progress

variable {σ : Type}

/-- Reads the rest of a command line. -/
def readWords (knobs : List (Knob σ)) :
    Progress σ → List String → Except UsageError (Progress σ)
  | s, [] => s.resolve
  | s, word :: rest =>
    match Word.ofString word with
    | .endOfFlags => if rest.isEmpty then s.resolve else .error .unknownArgument
    | .long name value =>
      if name = "help" then
        match value with
        | some _ => .error .unwantedValue
        | none => s.resolve.bind fun _ => .error .help
      else match knobs.find? (·.flag = name), value with
        | none, _ => .error .unknownArgument
        | some k, some v => do
          let s ← (← s.resolve).accept k v
          readWords knobs s rest
        | some k, none => do
          let s ← s.resolve
          readWords knobs { s with pending := some (k, none) } rest
    | .short letter =>
      if letter = 'h' then s.resolve.bind fun _ => .error .help else .error .unknownArgument
    | .plain text =>
      match s.pending with
      | some (k, none) => readWords knobs { s with pending := some (k, some text) } rest
      | _ => .error .unknownArgument

/-- Settings from a command line and an environment, over defaults. -/
def read (knobs : List (Knob σ)) (defaults : σ) (arguments : List String)
    (environment : List (String × String)) : Except UsageError σ := do
  let progress ← readWords knobs ⟨[], none⟩ arguments
  knobs.foldlM (fun settings k =>
    match progress.given.lookup k.flag, environment.lookup k.environmentName with
    | some f, _ => .ok (f settings)
    | none, none => .ok settings
    | none, some text => match k.read text with
      | some f => .ok (f settings)
      | none => .error .badValue) defaults

end ChainNode.Settings
