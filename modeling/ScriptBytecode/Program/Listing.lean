import ScriptBytecode.Program.Basic

/-!
# Listings

The listing of a program has a line for each instruction, an empty line, and a line for each constant. Strings stand in
it as they are.
-/

namespace ScriptBytecode.Program

/-- The lines of the constants from a place in the pool on. -/
def listConstants : Nat → List Constant → List Char
  | _, [] => []
  | index, constant :: constants =>
      'k' :: Nat.toDigits 10 index ++ ':' :: ' ' :: constant.listing ++ '\n' :: listConstants (index + 1) constants

def listInstructions (instructions : List (Instruction JumpTarget)) : List Char :=
  instructions.flatMap fun instruction => instruction.listing ++ ['\n']

def listing (program : Program) : String :=
  String.ofList <|
    listInstructions program.instructions.toList ++
      '\n' :: listConstants 0 program.constants.constants.toList

end ScriptBytecode.Program
