import TreeManifest.Json.Wording

/-!
# What is wrong with a setting

Every way in which the value of a setting is refused, with its code and its sentence, and the report
on all refused settings that the command line prints.
-/

namespace TreeManifest

/-- The settings, in the order in which problems are reported. -/
inductive Setting where
  | anthropicKey
  | openaiKey
  | model
  | timeout
  | maxOutputTokens
  | temperature
  | manifestName
  | maxListed
  | maxDefinitions
  | logLevel
  deriving DecidableEq, Repr

def Setting.name : Setting → String
  | anthropicKey => "anthropic_api_key"
  | openaiKey => "openai_api_key"
  | model => "litellm_model"
  | timeout => "llm_timeout_seconds"
  | maxOutputTokens => "llm_max_output_tokens"
  | temperature => "llm_temperature"
  | manifestName => "manifest_filename"
  | maxListed => "max_listed_files"
  | maxDefinitions => "max_definition_files"
  | logLevel => "log_level"

inductive Complaint where
  | notText
  | notInteger
  | notIntegerText
  | hasFraction
  | notFinite
  | tooLarge
  | notNumber
  | notNumberText
  | emptyModel
  | notBareName (name : String)
  | limitTooSmall
  deriving DecidableEq, Repr

namespace Complaint

def code : Complaint → String
  | notText => "string_type"
  | notInteger => "int_type"
  | notIntegerText => "int_parsing"
  | hasFraction => "int_from_float"
  | notFinite => "finite_number"
  | tooLarge => "int_parsing_size"
  | notNumber => "float_type"
  | notNumberText => "float_parsing"
  | emptyModel | notBareName _ | limitTooSmall => "value_error"

def message : Complaint → String
  | notText => "Input should be a valid string"
  | notInteger => "Input should be a valid integer"
  | notIntegerText => "Input should be a valid integer, unable to parse string as an integer"
  | hasFraction => "Input should be a valid integer, got a number with a fractional part"
  | notFinite => "Input should be a finite number"
  | tooLarge => "Unable to parse input string as an integer, exceeded maximum size"
  | notNumber => "Input should be a valid number"
  | notNumberText => "Input should be a valid number, unable to parse string as a number"
  | emptyModel => "Value error, litellm_model must not be empty"
  | notBareName name =>
    "Value error, manifest_filename must be a bare file name, got " ++ Text.quote name
  | limitTooSmall => "Value error, file limits must be at least 1"

end Complaint

structure Problem where
  setting : Setting
  complaint : Complaint
  /-- The value that was refused. -/
  input : Json

namespace Problem

def abbreviated (text : String) : String :=
  let cs := text.toList
  if 50 < cs.length then String.ofList (cs.take 25 ++ "...".toList ++ cs.drop (cs.length - 24))
  else text

def lines (problem : Problem) : List String :=
  let code := problem.complaint.code
  let input := abbreviated problem.input.quotedText
  [problem.setting.name,
    "  " ++ problem.complaint.message ++ " [type=" ++ code ++ ", input_value=" ++ input ++
      ", input_type=" ++ problem.input.kindName ++ "]",
    "    For further information visit https://errors.pydantic.dev/2.14/v/" ++ code]

def report (problems : List Problem) : String :=
  let count := problems.length
  let noun := if count = 1 then "error" else "errors"
  String.intercalate "\n"
    ((toString count ++ " validation " ++ noun ++ " for Settings") :: problems.flatMap lines)

end Problem

end TreeManifest
