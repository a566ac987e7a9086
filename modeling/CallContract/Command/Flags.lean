import CallContract.Command.Usage
import CallContract.Json.Value
import CallContract.OptionSchema
import CallContract.Text.Split

/-!
# Flags

The words of a call as option values. An option is given as `--name=value`, as `--name value`
or by its short name as `-s value`; a boolean option takes a value only behind an equals sign
and is true without one. The values of an option that may be given more than once are collected
in an array; of any other option the last value counts.
-/

namespace CallContract.Command

open Json (Value Fields)
open Text

/-- An option as a word names it, with the value behind the equals sign. -/
structure Flag where
  name : String
  inlineValue : Option String
deriving DecidableEq, Repr

namespace Flag

/-- The option that a word behind two dashes names. -/
def ofLong (s : List Char) : Flag :=
  match splitFirst '=' s with
  | some (name, value) => ⟨String.ofList name, some (String.ofList value)⟩
  | none => ⟨String.ofList s, none⟩

/-- The option that a word names. -/
def ofWord (schema : OptionSchema) (word : String) : Except UsageError Flag :=
  match word.toList with
  | '-' :: '-' :: s => .ok (ofLong s)
  | ['-', c] =>
    match schema.named? (String.singleton c) with
    | some name => .ok ⟨name, none⟩
    | none => .error (.unknownOption word)
  | _ => .error (.unexpectedWord word)

/-- What a word says about a boolean option. -/
def booleanValue (f : Flag) : Except UsageError Value :=
  match f.inlineValue with
  | none => .ok (.bool true)
  | some raw =>
    if raw = "true" then .ok (.bool true)
    else if raw = "false" then .ok (.bool false)
    else .error (.notBoolean f.name raw)

end Flag

/-- The values of an option with one more. -/
def collected (old : Option Value) (v : Value) : Value :=
  match old with
  | some (.array items) => .array (items ++ [v])
  | _ => .array [v]

/-- Option values with one more for an option. -/
def withValue (values : Fields) (spec : OptionSpec) (name : String) (v : Value) : Fields :=
  if spec.multiple then Fields.insert values name (collected (Fields.find? values name) v)
  else Fields.insert values name v

/-- Reads words on top of option values. -/
def readFlagsOnto (schema : OptionSchema) (values : Fields) :
    List String → Except UsageError Fields
  | [] => .ok values
  | word :: words =>
    match Flag.ofWord schema word with
    | .error e => .error e
    | .ok f =>
      match schema.options.find? f.name with
      | none => .error (.unknownOption ("--" ++ f.name))
      | some spec =>
        match spec.kind with
        | .boolean =>
          match f.booleanValue with
          | .error e => .error e
          | .ok v => readFlagsOnto schema (withValue values spec f.name v) words
        | .string =>
          match f.inlineValue with
          | some raw => readFlagsOnto schema (withValue values spec f.name (.string raw)) words
          | none =>
            match words with
            | [] => .error (.missingValue f.name)
            | raw :: words =>
              readFlagsOnto schema (withValue values spec f.name (.string raw)) words

/-- The option values that words give. -/
def readFlags (schema : OptionSchema) (words : List String) : Except UsageError Fields :=
  readFlagsOnto schema [] words

/-- How output is written, and when named types are recorded. -/
structure OutputOptions where
  pretty : Bool := false
  hoist : Bool := false
deriving DecidableEq, Repr

/-- Reads words on top of output options. -/
def readOutputOptionsOnto (o : OutputOptions) : List String → Except UsageError OutputOptions
  | [] => .ok o
  | word :: words =>
    if word = "--pretty" then readOutputOptionsOnto { o with pretty := true } words
    else if word = "--hoist-typedefs" then readOutputOptionsOnto { o with hoist := true } words
    else .error (.unknownOption word)

/-- The output options that words give. -/
def readOutputOptions (words : List String) : Except UsageError OutputOptions :=
  readOutputOptionsOnto {} words

end CallContract.Command
