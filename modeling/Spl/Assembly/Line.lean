import Spl.Assembly.Register
import Spl.Text
import Spl.Word

/-!
# ECO32 assembly

The assembly language of the ECO32 machine, as far as compiled programs use it: the instructions,
the directives, and the lines that the assembler reads. An instruction names its registers first,
and then a register, an immediate or a label.

* `Inst.text`: an instruction, directive or label.
* `Line.text`: a line with its comment.
* `assemblyText`: the text of a module.
-/

namespace Spl

/-- The last operand of an arithmetic instruction. -/
inductive Operand where
  | register (r : Reg)
  | immediate (value : Word)
  deriving DecidableEq

/-- An arithmetic operation on words. -/
inductive AluOp where
  | add
  | sub
  | mul
  | div
  deriving DecidableEq

/-- The condition of a branch. All but the last compare with signs. -/
inductive Cond where
  | eq
  | ne
  | lt
  | le
  | gt
  | ge
  | geu
  deriving DecidableEq

/-- An instruction, a directive, a label or an empty line. -/
inductive Inst where
  | importName (name : String)
  | exportName (name : String)
  | code
  | align (bytes : Nat)
  | label (name : String)
  | blank
  | alu (op : AluOp) (target source : Reg) (operand : Operand)
  | load (target base : Reg) (offset : Word)
  | store (source base : Reg) (offset : Word)
  | branch (cond : Cond) (left right : Reg) (target : String)
  | jump (target : String)
  | jumpRegister (r : Reg)
  | call (target : String)
  deriving DecidableEq

/-- A line of a module. -/
structure Line where
  inst : Inst
  comment : Option String := none
  deriving DecidableEq

namespace Operand

/-- An operand as the assembler reads it. -/
def text : Operand → String
  | .register r => r.text
  | .immediate value => value.text

end Operand

namespace AluOp

/-- The mnemonic of an operation. -/
def mnemonic : AluOp → String
  | .add => "add"
  | .sub => "sub"
  | .mul => "mul"
  | .div => "div"

end AluOp

namespace Cond

/-- The mnemonic of a branch. -/
def mnemonic : Cond → String
  | .eq => "beq"
  | .ne => "bne"
  | .lt => "blt"
  | .le => "ble"
  | .gt => "bgt"
  | .ge => "bge"
  | .geu => "bgeu"

end Cond

namespace Inst

/-- True of instructions of the machine, false of what only the assembler reads. -/
def isInstruction : Inst → Bool
  | .importName _ | .exportName _ | .code | .align _ | .label _ | .blank => false
  | .alu .. | .load .. | .store .. | .branch .. | .jump _ | .jumpRegister _ | .call _ => true

/-- A mnemonic and its operands, as the assembler reads them. -/
def columns (mnemonic : String) (operands : List String) : String :=
  "\t" ++ mnemonic ++ "\t" ++ ",".intercalate operands

/-- An instruction, directive or label as the assembler reads it. A label stands at the margin. -/
def text : Inst → String
  | .importName name => columns ".import" [name]
  | .exportName name => columns ".export" [name]
  | .code => "\t.code"
  | .align bytes => columns ".align" [toString bytes]
  | .label name => name ++ ":"
  | .blank => ""
  | .alu op target source operand => columns op.mnemonic [target.text, source.text, operand.text]
  | .load target base offset => columns "ldw" [target.text, base.text, offset.text]
  | .store source base offset => columns "stw" [source.text, base.text, offset.text]
  | .branch cond left right target => columns cond.mnemonic [left.text, right.text, target]
  | .jump target => columns "j" [target]
  | .jumpRegister r => columns "jr" [r.text]
  | .call target => columns "jal" [target]

end Inst

namespace Line

/-- A line as the assembler reads it. A comment follows a semicolon, one tab further to the right
behind an instruction. -/
def text (l : Line) : String :=
  match l.comment with
  | none => l.inst.text
  | some comment =>
    l.inst.text ++ (if l.inst.isInstruction then "\t\t; " else "\t; ") ++ comment

end Line

/-- The text of a module. -/
def assemblyText (lines : List Line) : String := unlines (lines.map Line.text)

end Spl
