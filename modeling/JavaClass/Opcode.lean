/-!
# Operation codes

An instruction starts with a one-byte operation code. The code decides the
shape of the operands that follow; the shapes partition all 256 codes, the last
one being the codes without a meaning.

## Implementation notes

Short forms (a local variable access with the slot in the code, the `wide`
modifier, the long form of a constant load) have no mnemonic of their own
except for the first code of each family: instructions are kept in their
general form, and the compact form is chosen when code is assembled.
-/

namespace JavaClass

/-- A one-byte operation code. -/
structure Opcode where
  byte : UInt8
  deriving DecidableEq, Repr, Hashable

namespace Opcode

/-- The codes that have a mnemonic. -/
def mnemonics : List (UInt8 × String) :=
  [(0, "nop"), (1, "aconst_null"), (2, "iconst_m1"), (3, "iconst_0"), (4, "iconst_1"),
   (5, "iconst_2"), (6, "iconst_3"), (7, "iconst_4"), (8, "iconst_5"), (9, "lconst_0"),
   (10, "lconst_1"), (11, "fconst_0"), (12, "fconst_1"), (13, "fconst_2"), (14, "dconst_0"),
   (15, "dconst_1"), (16, "bipush"), (17, "sipush"), (18, "ldc"), (19, "ldc_w"),
   (20, "ldc2_w"), (21, "iload"), (22, "lload"), (23, "fload"), (24, "dload"), (25, "aload"),
   (26, "iload_0"), (30, "lload_0"), (34, "fload_0"), (38, "dload_0"), (42, "aload_0"),
   (46, "iaload"), (47, "laload"), (48, "faload"), (49, "daload"), (50, "aaload"),
   (51, "baload"), (52, "caload"), (53, "saload"), (54, "istore"), (55, "lstore"),
   (56, "fstore"), (57, "dstore"), (58, "astore"), (59, "istore_0"), (63, "lstore_0"),
   (67, "fstore_0"), (71, "dstore_0"), (75, "astore_0"), (79, "iastore"), (80, "lastore"),
   (81, "fastore"), (82, "dastore"), (83, "aastore"), (84, "bastore"), (85, "castore"),
   (86, "sastore"), (87, "pop"), (88, "pop2"), (89, "dup"), (90, "dup_x1"), (91, "dup_x2"),
   (92, "dup2"), (93, "dup2_x1"), (94, "dup2_x2"), (95, "swap"), (96, "iadd"), (97, "ladd"),
   (98, "fadd"), (99, "dadd"), (100, "isub"), (101, "lsub"), (102, "fsub"), (103, "dsub"),
   (104, "imul"), (105, "lmul"), (106, "fmul"), (107, "dmul"), (108, "idiv"), (109, "ldiv"),
   (110, "fdiv"), (111, "ddiv"), (112, "irem"), (113, "lrem"), (114, "frem"), (115, "drem"),
   (116, "ineg"), (117, "lneg"), (118, "fneg"), (119, "dneg"), (120, "ishl"), (121, "lshl"),
   (122, "ishr"), (123, "lshr"), (124, "iushr"), (125, "lushr"), (126, "iand"), (127, "land"),
   (128, "ior"), (129, "lor"), (130, "ixor"), (131, "lxor"), (132, "iinc"), (133, "i2l"),
   (134, "i2f"), (135, "i2d"), (136, "l2i"), (137, "l2f"), (138, "l2d"), (139, "f2i"),
   (140, "f2l"), (141, "f2d"), (142, "d2i"), (143, "d2l"), (144, "d2f"), (145, "i2b"),
   (146, "i2c"), (147, "i2s"), (148, "lcmp"), (149, "fcmpl"), (150, "fcmpg"), (151, "dcmpl"),
   (152, "dcmpg"), (153, "ifeq"), (154, "ifne"), (155, "iflt"), (156, "ifge"), (157, "ifgt"),
   (158, "ifle"), (159, "if_icmpeq"), (160, "if_icmpne"), (161, "if_icmplt"),
   (162, "if_icmpge"), (163, "if_icmpgt"), (164, "if_icmple"), (165, "if_acmpeq"),
   (166, "if_acmpne"), (167, "goto"), (168, "jsr"), (169, "ret"), (170, "tableswitch"),
   (171, "lookupswitch"), (172, "ireturn"), (173, "lreturn"), (174, "freturn"),
   (175, "dreturn"), (176, "areturn"), (177, "return"), (178, "getstatic"),
   (179, "putstatic"), (180, "getfield"), (181, "putfield"), (182, "invokevirtual"),
   (183, "invokespecial"), (184, "invokestatic"), (185, "invokeinterface"),
   (186, "invokedynamic"), (187, "new"), (188, "newarray"), (189, "anewarray"),
   (190, "arraylength"), (191, "athrow"), (192, "checkcast"), (193, "instanceof"),
   (194, "monitorenter"), (195, "monitorexit"), (196, "wide"), (197, "multianewarray"),
   (198, "ifnull"), (199, "ifnonnull"), (200, "goto_w"), (201, "jsr_w")]

/-- The mnemonic of a code, if it has one. -/
def mnemonic? (op : Opcode) : Option String :=
  mnemonics.lookup op.byte

/-- The mnemonic, or the number of a code that has none. -/
def text (op : Opcode) : String :=
  op.mnemonic?.getD s!"opcode#{op.byte}"

def bipush : Opcode := ⟨16⟩
def sipush : Opcode := ⟨17⟩
def ldc : Opcode := ⟨18⟩
def ldcWide : Opcode := ⟨19⟩
def ldcLong : Opcode := ⟨20⟩
def iload : Opcode := ⟨21⟩
def iloadShort : Opcode := ⟨26⟩
def istore : Opcode := ⟨54⟩
def istoreShort : Opcode := ⟨59⟩
def iinc : Opcode := ⟨132⟩
def ret : Opcode := ⟨169⟩
def tableSwitch : Opcode := ⟨170⟩
def lookupSwitch : Opcode := ⟨171⟩
def invokeInterface : Opcode := ⟨185⟩
def invokeDynamic : Opcode := ⟨186⟩
def newArray : Opcode := ⟨188⟩
def wide : Opcode := ⟨196⟩
def multiNewArray : Opcode := ⟨197⟩
def gotoWide : Opcode := ⟨200⟩
def jsrWide : Opcode := ⟨201⟩

/-- What follows a code in the code array. -/
inductive Shape where
  /-- Nothing. -/
  | bare
  /-- A signed byte to push. -/
  | pushByte
  /-- A signed 16-bit number to push. -/
  | pushShort
  /-- A constant pool index of one byte. -/
  | constant
  /-- A constant pool index of two bytes. -/
  | wideConstant
  /-- A local variable slot of one byte. -/
  | localVar
  /-- Nothing: the slot of the load is part of the code. -/
  | shortLoad
  /-- Nothing: the slot of the store is part of the code. -/
  | shortStore
  /-- A slot and a signed byte to add to it. -/
  | increment
  /-- A branch offset of two bytes. -/
  | jump
  /-- A branch offset of four bytes. -/
  | wideJump
  /-- Padding, a default offset, two bounds, and an offset for each key between them. -/
  | tableSwitch
  /-- Padding, a default offset, a count, and that many pairs of a key and an offset. -/
  | lookupSwitch
  /-- A field reference. -/
  | field
  /-- A method reference, and for interface calls a count and a zero byte. -/
  | method
  /-- A call site and two zero bytes. -/
  | callSite
  /-- A class. -/
  | type
  /-- An array type code of one byte. -/
  | arrayType
  /-- A local variable access or increment with a slot of two bytes. -/
  | widened
  /-- An array class and a number of dimensions. -/
  | multiArray
  /-- The code has no meaning. -/
  | undefined
  deriving DecidableEq, Repr

/-- The shape that a code stands for. -/
def shape (op : Opcode) : Shape :=
  let n := op.byte
  if n ≤ 15 then .bare
  else if n = 16 then .pushByte
  else if n = 17 then .pushShort
  else if n = 18 then .constant
  else if n ≤ 20 then .wideConstant
  else if n ≤ 25 then .localVar
  else if n ≤ 45 then .shortLoad
  else if n ≤ 53 then .bare
  else if n ≤ 58 then .localVar
  else if n ≤ 78 then .shortStore
  else if n ≤ 131 then .bare
  else if n = 132 then .increment
  else if n ≤ 152 then .bare
  else if n ≤ 168 then .jump
  else if n = 169 then .localVar
  else if n = 170 then .tableSwitch
  else if n = 171 then .lookupSwitch
  else if n ≤ 177 then .bare
  else if n ≤ 181 then .field
  else if n ≤ 185 then .method
  else if n = 186 then .callSite
  else if n = 187 then .type
  else if n = 188 then .arrayType
  else if n = 189 then .type
  else if n ≤ 191 then .bare
  else if n ≤ 193 then .type
  else if n ≤ 195 then .bare
  else if n = 196 then .widened
  else if n = 197 then .multiArray
  else if n ≤ 199 then .jump
  else if n ≤ 201 then .wideJump
  else .undefined

/-- Whether the code is a jump, of either width. -/
def isJump (op : Opcode) : Bool :=
  op.shape = .jump || op.shape = .wideJump

/-- Whether the code is a jump with an offset of four bytes. -/
def isWideJump (op : Opcode) : Bool :=
  op.shape = .wideJump

/-- The first of the four codes for slots 0 to 3, where an access has them. -/
def shortForm? (op : Opcode) : Option Opcode :=
  if iload.byte ≤ op.byte ∧ op.byte ≤ iload.byte + 4 then
    some ⟨iloadShort.byte + 4 * (op.byte - iload.byte)⟩
  else if istore.byte ≤ op.byte ∧ op.byte ≤ istore.byte + 4 then
    some ⟨istoreShort.byte + 4 * (op.byte - istore.byte)⟩
  else none

/-- The access and the slot that a short load stands for. -/
def ofShortLoad (op : Opcode) : Opcode × UInt16 :=
  (⟨iload.byte + (op.byte - iloadShort.byte) / 4⟩, ((op.byte - iloadShort.byte) % 4).toUInt16)

/-- The access and the slot that a short store stands for. -/
def ofShortStore (op : Opcode) : Opcode × UInt16 :=
  (⟨istore.byte + (op.byte - istoreShort.byte) / 4⟩, ((op.byte - istoreShort.byte) % 4).toUInt16)

end Opcode

end JavaClass
