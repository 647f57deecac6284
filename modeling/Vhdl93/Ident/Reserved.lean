set_option autoImplicit false

namespace Vhdl93

def reservedWords : List String :=
  [ "abs", "access", "after", "alias", "all", "and", "architecture", "array", "assert",
    "attribute", "begin", "block", "body", "buffer", "bus", "case", "component", "configuration",
    "constant", "disconnect", "downto", "else", "elsif", "end", "entity", "exit", "file", "for",
    "function", "generate", "generic", "group", "guarded", "if", "impure", "in", "inertial",
    "inout", "is", "label", "library", "linkage", "literal", "loop", "map", "mod", "nand", "new",
    "next", "nor", "not", "null", "of", "on", "open", "or", "others", "out", "package", "port",
    "postponed", "procedure", "process", "pure", "range", "record", "register", "reject", "rem",
    "report", "return", "rol", "ror", "select", "severity", "signal", "shared", "sla", "sll",
    "sra", "srl", "subtype", "then", "to", "transport", "type", "unaffected", "units", "until",
    "use", "variable", "wait", "when", "while", "with", "xnor", "xor"]

def reservedWord? (text : String) : Option String :=
  reservedWords.find? (fun word => word = text.toLower)

def reservedIndex? (text : String) : Option Nat :=
  reservedWords.findIdx? (fun word => word = text.toLower)

def isReserved (text : String) : Bool := (reservedWord? text).isSome

theorem isReserved_iff (text : String) : isReserved text = true ↔ text.toLower ∈ reservedWords := by
  simp [isReserved, reservedWord?]

end Vhdl93
