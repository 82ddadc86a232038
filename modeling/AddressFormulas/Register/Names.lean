namespace AddressFormulas

inductive RegisterClass where
  | none
  | general
  | flag
  | status
  | pseudo
  | stackOperation
  | stackReg
  | temp
  | instructionPointer
  | zero
  deriving DecidableEq, Repr

namespace RegisterClass

def rank : RegisterClass → Nat
  | none => 0
  | general => 1
  | flag => 2
  | status => 3
  | pseudo => 4
  | stackOperation => 5
  | stackReg => 6
  | temp => 7
  | instructionPointer => 8
  | zero => 9

def text : RegisterClass → String
  | none => "None"
  | general => "General"
  | flag => "Flag"
  | status => "Status"
  | pseudo => "Pseudo"
  | stackOperation => "StackOperation"
  | stackReg => "StackReg"
  | temp => "Temp"
  | instructionPointer => "InstructionPointer"
  | zero => "Zero"

end RegisterClass

instance neZero_lines : @NeZero Nat Zero.ofOfNat0 89 := ⟨by decide⟩

/-- One line of the name table; `parent` is the line of the containing register. -/
structure NameEntry where
  text : String
  parent : Fin 89
  cls : RegisterClass
  lsb : Nat
  msb : Nat
  deriving DecidableEq, Repr

namespace NameTable

def family (i : Fin 89) (quad double word byte : String) : List NameEntry :=
  [⟨quad, i, .general, 0, 63⟩, ⟨double, i, .general, 0, 31⟩, ⟨word, i, .general, 0, 15⟩,
    ⟨byte, i, .general, 0, 7⟩]

def generalNames : List NameEntry :=
  family 0 "rax" "eax" "ax" "al" ++ family 4 "rbx" "ebx" "bx" "bl" ++
  family 8 "rcx" "ecx" "cx" "cl" ++ family 12 "rdx" "edx" "dx" "dl" ++
  family 16 "rsi" "esi" "si" "sil" ++ family 20 "rdi" "edi" "di" "dil" ++
  family 24 "rbp" "ebp" "bp" "bpl" ++ family 28 "rsp" "esp" "sp" "spl" ++
  family 32 "r8" "r8d" "r8w" "r8b" ++ family 36 "r9" "r9d" "r9w" "r9b" ++
  family 40 "r10" "r10d" "r10w" "r10b" ++ family 44 "r11" "r11d" "r11w" "r11b" ++
  family 48 "r12" "r12d" "r12w" "r12b" ++ family 52 "r13" "r13d" "r13w" "r13b" ++
  family 56 "r14" "r14d" "r14w" "r14b" ++ family 60 "r15" "r15d" "r15w" "r15b"

def highByteNames : List NameEntry :=
  [⟨"ah", 0, .general, 8, 15⟩, ⟨"bh", 4, .general, 8, 15⟩, ⟨"ch", 8, .general, 8, 15⟩,
    ⟨"dh", 12, .general, 8, 15⟩]

def controlNames : List NameEntry :=
  [⟨"rip", 68, .instructionPointer, 0, 63⟩, ⟨"eip", 68, .instructionPointer, 0, 31⟩,
    ⟨"rflags", 70, .flag, 0, 63⟩, ⟨"cf", 70, .flag, 0, 0⟩, ⟨"pf", 70, .flag, 2, 2⟩,
    ⟨"zf", 70, .flag, 6, 6⟩, ⟨"sf", 70, .flag, 7, 7⟩, ⟨"of", 70, .flag, 11, 11⟩,
    ⟨"mxcsr", 76, .status, 0, 31⟩, ⟨"fpsw", 77, .status, 0, 15⟩,
    ⟨"fptop", 78, .stackOperation, 0, 2⟩, ⟨"zero", 79, .zero, 0, 63⟩, ⟨"seg", 80, .pseudo, 0, 15⟩]

def stackNames : List NameEntry :=
  [⟨"st0", 81, .stackReg, 0, 79⟩, ⟨"st1", 82, .stackReg, 0, 79⟩, ⟨"st2", 83, .stackReg, 0, 79⟩,
    ⟨"st3", 84, .stackReg, 0, 79⟩, ⟨"st4", 85, .stackReg, 0, 79⟩, ⟨"st5", 86, .stackReg, 0, 79⟩,
    ⟨"st6", 87, .stackReg, 0, 79⟩, ⟨"st7", 88, .stackReg, 0, 79⟩]

def lines : List NameEntry := generalNames ++ highByteNames ++ controlNames ++ stackNames

def table : Array NameEntry := lines.toArray

theorem size_table : table.size = 89 := by decide

def entry (i : Fin 89) : NameEntry :=
  have h : i.val < table.size := size_table.symm ▸ i.isLt
  table[i.val]

def find? (text : String) : Option (Fin 89) :=
  (List.finRange 89).find? fun i => (entry i).text == text

theorem entry_parent (i : Fin 89) :
    (entry (entry i).parent).parent = (entry i).parent ∧
      (entry (entry i).parent).cls = (entry i).cls := by
  revert i; decide

end NameTable

end AddressFormulas
