import CircuitProof.Contract.Language
import CircuitProof.Field.Word

/-!
# Contracts as text

Every statement has its line or lines, four blanks deeper inside each pair of braces. The groups of
constants and the functions are set apart by empty lines, and every line ends with a line feed.
-/

namespace CircuitProof

namespace Contract

/-- Items with a comma and a blank between them. -/
def commas (items : List String) : String := String.intercalate ", " items

/-- Items on lines of their own, a comma behind each but the last. -/
def commaLines : List String → List String
  | [] => []
  | [item] => [item]
  | item :: rest => (item ++ ",") :: commaLines rest

/-- A size: two hexadecimal digits if it fits in a byte, decimal otherwise. -/
def sizeText (n : Nat) : String :=
  if n < 256 then "0x" ++ String.ofList [Nat.digitChar (n / 16), Nat.digitChar (n % 16)]
  else decimal n

namespace Term

/-- Whether a term is in parentheses where it is an operand. -/
def isOperation : Term → Bool
  | add .. | sub .. | mod .. => true
  | _ => false

def text : Term → String
  | number n => decimal n
  | name x => x
  | length array => array ++ ".length"
  | item array index => array ++ "[" ++ index.text ++ "]"
  | cell table row column => table ++ "[" ++ row.text ++ "][" ++ column.text ++ "]"
  | add s t => operand s.isOperation s.text ++ " + " ++ operand t.isOperation t.text
  | sub s t => operand s.isOperation s.text ++ " - " ++ operand t.isOperation t.text
  | mod s t => operand s.isOperation s.text ++ " % " ++ operand t.isOperation t.text
where
  operand (isOperation : Bool) (s : String) : String := if isOperation then "(" ++ s ++ ")" else s

end Term

def Test.text : Test → String
  | equal s t => s.text ++ " == " ++ t.text
  | less s t => s.text ++ " < " ++ t.text
  | holds flag => flag

def Call.text (call : Call) : String :=
  call.routine ++ "(" ++ commas (call.arguments.map Term.text) ++ ")"

def Step.lines (margin : String) : Step → List String
  | require test reason => [margin ++ "require(" ++ test.text ++ ", \"" ++ reason ++ "\");"]
  | declarePair x y call =>
    [margin ++ "(uint256 " ++ x ++ ", uint256 " ++ y ++ ") = " ++ call.text ++ ";"]
  | assignPair x y call => [margin ++ "(" ++ x ++ ", " ++ y ++ ") = " ++ call.text ++ ";"]
  | declareZeros array size =>
    [margin ++ "uint256[" ++ decimal size ++ "] memory " ++ array ++ ";"]
  | declareItems array items =>
    [margin ++ "uint256[" ++ decimal items.length ++ "] memory " ++ array ++ " = [" ++
      commas (items.map Term.text) ++ "];"]
  | setItem array index value =>
    [margin ++ array ++ "[" ++ decimal index ++ "] = " ++ value.text ++ ";"]
  | declareFlag flag => [margin ++ "bool " ++ flag ++ ";"]
  | callPrecompile flag precompile input inputSize output outputSize =>
    [margin ++ "assembly \x7b",
      margin ++ "    " ++ flag ++ " := staticcall(" ++
        commas ["gas()", sizeText precompile.address, input, sizeText inputSize, output,
          sizeText outputSize] ++ ")",
      margin ++ "\x7d"]
  | remark text => [margin ++ "// " ++ text]
  | blank => [""]

def Statement.lines : Statement → List String
  | step s => s.lines margin
  | forEach index array body =>
    [margin ++ "for (uint256 " ++ index ++ " = 0; " ++ index ++ " < " ++ array ++ ".length; " ++
        index ++ "++) \x7b"] ++
      body.flatMap (Step.lines (margin ++ "    ")) ++ [margin ++ "\x7d"]
  | returnPairIf test x y =>
    [margin ++ "if (" ++ test.text ++ ") return (" ++ commas [x.text, y.text] ++ ");"]
  | returnPair x y => [margin ++ "return (" ++ commas [x.text, y.text] ++ ");"]
  | returnTest test => [margin ++ "return " ++ test.text ++ ";"]
  | revert reason => [margin ++ "revert(\"" ++ reason ++ "\");"]
where
  margin : String := "        "

def Kind.text : Kind → String
  | word => "uint256"
  | truth => "bool"
  | words none => "uint256[] calldata"
  | words (some size) => "uint256[" ++ decimal size ++ "] calldata"
  | table rows columns => "uint256[" ++ decimal columns ++ "][" ++ decimal rows ++ "] calldata"

namespace Routine

def parameterTexts (r : Routine) : List String := r.parameters.map fun (kind, name) =>
  kind.text ++ " " ++ name

/-- What stands between the parameters and the body. -/
def modifierTexts (r : Routine) : List String :=
  let results := r.results.map fun
    | (kind, none) => kind.text
    | (kind, some name) => kind.text ++ " " ++ name
  r.modifiers ++ ["returns (" ++ commas results ++ ")"]

def heading (r : Routine) : List String :=
  let start := "    function " ++ r.name ++ "("
  let modifiers := String.intercalate " " r.modifierTexts
  match r.breaks with
  | .nowhere => [start ++ commas r.parameterTexts ++ ") " ++ modifiers ++ " \x7b"]
  | .parameters =>
    [start] ++ (commaLines r.parameterTexts).map ("        " ++ ·) ++
      ["    ) " ++ modifiers ++ " \x7b"]
  | .modifiers =>
    [start ++ commas r.parameterTexts ++ ")"] ++ r.modifierTexts.map ("        " ++ ·) ++
      ["    \x7b"]

def lines (r : Routine) : List String :=
  r.heading ++ r.body.flatMap Statement.lines ++ ["    \x7d"]

end Routine

def constantLine (name : String) (value : Nat) : String :=
  "    uint256 constant " ++ name ++ " = " ++ decimal value ++ ";"

namespace Code

def members (code : Code) : List (List String) :=
  code.constants.map (List.map fun (name, value) => constantLine name value) ++
    code.routines.map Routine.lines

def lines (code : Code) : List String :=
  ["// SPDX-License-Identifier: MIT",
    "pragma solidity ^0.8.0;",
    "",
    "/// " ++ code.title,
    "contract " ++ code.name ++ " \x7b"] ++
  List.intercalate [""] code.members ++ ["\x7d"]

def text (code : Code) : String := String.join (code.lines.map (· ++ "\n"))

end Code

end Contract

end CircuitProof
