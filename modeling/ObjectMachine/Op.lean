/-!
# ObjectMachine.Op

The operation codes of the bytecode.

* `Op` — the operations.
* `Format` — how the 24-bit operand field of an instruction is read.
* `Op.byte`, `Op.ofByte?` — the byte of an operation, and the operation of a byte.
* `Op.mnemonic`, `Op.name` — the two spellings: in listings, and in messages to a code generator.
-/

namespace ObjectMachine

/-- How the operand field of an instruction is read. -/
inductive Format where
  /-- No operand; the field is zero. -/
  | none
  /-- Three 8-bit operands, of which only the first is used. -/
  | args
  /-- One 24-bit instruction address. -/
  | addr
deriving DecidableEq, Repr

inductive Op where
  | pushConst
  | pushName
  | storeName
  | pushNil
  | dup
  | pop
  | jump
  | jumpIfTrue
  | jumpIfFalse
  | ret
  | makeArray
  | makeHash
  | makeClosure
  | getAttr
  | getItem
  | call
  | getClass
  | add
  | sub
  | mul
  | div
  | eq
  | neq
  | gt
  | gte
  | lt
  | lte
  | not
  | spawn
deriving DecidableEq, Repr, Inhabited

namespace Op

/-- Every operation, in the order of the bytes. -/
def all : List Op :=
  [.pushConst, .pushName, .storeName, .pushNil, .dup, .pop,
   .jump, .jumpIfTrue, .jumpIfFalse, .ret,
   .makeArray, .makeHash, .makeClosure,
   .getAttr, .getItem, .call, .getClass,
   .add, .sub, .mul, .div, .eq, .neq, .gt, .gte, .lt, .lte, .not,
   .spawn]

/-- The operation's byte in an instruction word. -/
def byte : Op → UInt8
  | pushConst => 0x01
  | pushName => 0x02
  | storeName => 0x03
  | pushNil => 0x04
  | dup => 0x05
  | pop => 0x06
  | jump => 0x10
  | jumpIfTrue => 0x11
  | jumpIfFalse => 0x12
  | ret => 0x13
  | makeArray => 0x20
  | makeHash => 0x21
  | makeClosure => 0x22
  | getAttr => 0x30
  | getItem => 0x31
  | call => 0x32
  | getClass => 0x33
  | add => 0x40
  | sub => 0x41
  | mul => 0x42
  | div => 0x43
  | eq => 0x48
  | neq => 0x49
  | gt => 0x4a
  | gte => 0x4b
  | lt => 0x4c
  | lte => 0x4d
  | not => 0x4e
  | spawn => 0x50

/-- The operation a byte stands for; `none` for a byte outside the table. -/
def ofByte? (b : UInt8) : Option Op :=
  match b.toNat with
  | 0x01 => some pushConst
  | 0x02 => some pushName
  | 0x03 => some storeName
  | 0x04 => some pushNil
  | 0x05 => some dup
  | 0x06 => some pop
  | 0x10 => some jump
  | 0x11 => some jumpIfTrue
  | 0x12 => some jumpIfFalse
  | 0x13 => some ret
  | 0x20 => some makeArray
  | 0x21 => some makeHash
  | 0x22 => some makeClosure
  | 0x30 => some getAttr
  | 0x31 => some getItem
  | 0x32 => some call
  | 0x33 => some getClass
  | 0x40 => some add
  | 0x41 => some sub
  | 0x42 => some mul
  | 0x43 => some div
  | 0x48 => some eq
  | 0x49 => some neq
  | 0x4a => some gt
  | 0x4b => some gte
  | 0x4c => some lt
  | 0x4d => some lte
  | 0x4e => some not
  | 0x50 => some spawn
  | _ => none

/-- Jumps take an address; operations that index a pool or count operands take arguments. -/
def format : Op → Format
  | pushConst | pushName | storeName | makeArray | makeHash | makeClosure | getAttr | call => .args
  | jump | jumpIfTrue | jumpIfFalse => .addr
  | _ => .none

def isJump (op : Op) : Bool :=
  op.format == .addr

/-- The spelling in listings. -/
def mnemonic : Op → String
  | pushConst => "push_const"
  | pushName => "push_name"
  | storeName => "store_name"
  | pushNil => "push_nil"
  | dup => "dup"
  | pop => "pop"
  | jump => "jump"
  | jumpIfTrue => "jump_if_true"
  | jumpIfFalse => "jump_if_false"
  | ret => "return"
  | makeArray => "make_array"
  | makeHash => "make_hash"
  | makeClosure => "make_closure"
  | getAttr => "getattr"
  | getItem => "getitem"
  | call => "call"
  | getClass => "get_class"
  | add => "add"
  | sub => "sub"
  | mul => "mul"
  | div => "div"
  | eq => "eq"
  | neq => "neq"
  | gt => "gt"
  | gte => "gte"
  | lt => "lt"
  | lte => "lte"
  | not => "not"
  | spawn => "spawn"

/-- The spelling in messages. -/
def name : Op → String
  | pushConst => "PushConst"
  | pushName => "PushName"
  | storeName => "StoreName"
  | pushNil => "PushNil"
  | dup => "Dup"
  | pop => "Pop"
  | jump => "Jump"
  | jumpIfTrue => "JumpIfTrue"
  | jumpIfFalse => "JumpIfFalse"
  | ret => "Return"
  | makeArray => "MakeArray"
  | makeHash => "MakeHash"
  | makeClosure => "MakeClosure"
  | getAttr => "GetAttr"
  | getItem => "GetItem"
  | call => "Call"
  | getClass => "GetClass"
  | add => "Add"
  | sub => "Sub"
  | mul => "Mul"
  | div => "Div"
  | eq => "Eq"
  | neq => "Neq"
  | gt => "Gt"
  | gte => "Gte"
  | lt => "Lt"
  | lte => "Lte"
  | not => "Not"
  | spawn => "Spawn"

/-- The operation with a given mnemonic. -/
def ofMnemonic? (s : String) : Option Op :=
  all.find? fun op => op.mnemonic == s

theorem ofByte?_byte (op : Op) : ofByte? op.byte = some op := by
  cases op <;> rfl

end Op
end ObjectMachine
