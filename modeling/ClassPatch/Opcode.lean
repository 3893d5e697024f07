-- The instruction set: for each opcode its byte, its mnemonic, the shape
-- of its operands and what it does to the depth of the stack.
namespace ClassPatch

/-! ## Opcodes -/

/-- The shape of the operands that follow an opcode. -/
inductive OperandKind where
  /-- No operands. -/
  | bare
  /-- An immediate number. -/
  | int
  /-- A loadable constant. -/
  | ldc
  /-- A local variable. -/
  | var
  /-- A local variable and an increment. -/
  | iinc
  /-- A branch offset. -/
  | jump
  /-- A field reference. -/
  | field
  /-- A method reference. -/
  | method
  /-- A class name. -/
  | type
  /-- A dense switch. -/
  | tableSwitch
  /-- A sparse switch. -/
  | lookupSwitch
deriving DecidableEq, Repr

/-- The canonical opcodes. Forms that only save or spend bytes (a slot in
the opcode, a wide index or offset) are not among them. -/
inductive Opcode where
  | NOP | ACONST_NULL | ICONST_M1 | ICONST_0 | ICONST_1 | ICONST_2 | ICONST_3 | ICONST_4
  | ICONST_5 | LCONST_0 | LCONST_1 | FCONST_0 | FCONST_1 | FCONST_2 | DCONST_0 | DCONST_1
  | BIPUSH | SIPUSH | LDC | ILOAD | LLOAD | FLOAD | DLOAD | ALOAD | IALOAD | LALOAD
  | FALOAD | DALOAD | AALOAD | BALOAD | CALOAD | SALOAD | ISTORE | LSTORE | FSTORE | DSTORE
  | ASTORE | IASTORE | LASTORE | FASTORE | DASTORE | AASTORE | BASTORE | CASTORE | SASTORE
  | POP | POP2 | DUP | DUP_X1 | DUP_X2 | DUP2 | DUP2_X1 | DUP2_X2 | SWAP | IADD | LADD
  | FADD | DADD | ISUB | LSUB | FSUB | DSUB | IMUL | LMUL | FMUL | DMUL | IDIV | LDIV
  | FDIV | DDIV | IREM | LREM | FREM | DREM | INEG | LNEG | FNEG | DNEG | ISHL | LSHL
  | ISHR | LSHR | IUSHR | LUSHR | IAND | LAND | IOR | LOR | IXOR | LXOR | IINC | I2L | I2F
  | I2D | L2I | L2F | L2D | F2I | F2L | F2D | D2I | D2L | D2F | I2B | I2C | I2S | LCMP
  | FCMPL | FCMPG | DCMPL | DCMPG | IFEQ | IFNE | IFLT | IFGE | IFGT | IFLE | IF_ICMPEQ
  | IF_ICMPNE | IF_ICMPLT | IF_ICMPGE | IF_ICMPGT | IF_ICMPLE | IF_ACMPEQ | IF_ACMPNE
  | GOTO | TABLESWITCH | LOOKUPSWITCH | IRETURN | LRETURN | FRETURN | DRETURN | ARETURN
  | RETURN | GETSTATIC | PUTSTATIC | GETFIELD | PUTFIELD | INVOKEVIRTUAL | INVOKESPECIAL
  | INVOKESTATIC | INVOKEINTERFACE | NEW | NEWARRAY | ANEWARRAY | ARRAYLENGTH | ATHROW
  | CHECKCAST | INSTANCEOF | MONITORENTER | MONITOREXIT | IFNULL | IFNONNULL
deriving DecidableEq, Repr, Hashable

namespace Opcode

/-- What the instruction set says of an opcode. -/
structure Info where
  byte : UInt8
  kind : OperandKind
  /-- The change of depth, for opcodes whose operands do not decide it. -/
  delta : Int

def info : Opcode → Info
  | .NOP => ⟨0x00, .bare, 0⟩
  | .ACONST_NULL => ⟨0x01, .bare, 1⟩
  | .ICONST_M1 => ⟨0x02, .bare, 1⟩
  | .ICONST_0 => ⟨0x03, .bare, 1⟩
  | .ICONST_1 => ⟨0x04, .bare, 1⟩
  | .ICONST_2 => ⟨0x05, .bare, 1⟩
  | .ICONST_3 => ⟨0x06, .bare, 1⟩
  | .ICONST_4 => ⟨0x07, .bare, 1⟩
  | .ICONST_5 => ⟨0x08, .bare, 1⟩
  | .LCONST_0 => ⟨0x09, .bare, 2⟩
  | .LCONST_1 => ⟨0x0a, .bare, 2⟩
  | .FCONST_0 => ⟨0x0b, .bare, 1⟩
  | .FCONST_1 => ⟨0x0c, .bare, 1⟩
  | .FCONST_2 => ⟨0x0d, .bare, 1⟩
  | .DCONST_0 => ⟨0x0e, .bare, 2⟩
  | .DCONST_1 => ⟨0x0f, .bare, 2⟩
  | .BIPUSH => ⟨0x10, .int, 1⟩
  | .SIPUSH => ⟨0x11, .int, 1⟩
  | .LDC => ⟨0x12, .ldc, 0⟩
  | .ILOAD => ⟨0x15, .var, 1⟩
  | .LLOAD => ⟨0x16, .var, 2⟩
  | .FLOAD => ⟨0x17, .var, 1⟩
  | .DLOAD => ⟨0x18, .var, 2⟩
  | .ALOAD => ⟨0x19, .var, 1⟩
  | .IALOAD => ⟨0x2e, .bare, -1⟩
  | .LALOAD => ⟨0x2f, .bare, 0⟩
  | .FALOAD => ⟨0x30, .bare, -1⟩
  | .DALOAD => ⟨0x31, .bare, 0⟩
  | .AALOAD => ⟨0x32, .bare, -1⟩
  | .BALOAD => ⟨0x33, .bare, -1⟩
  | .CALOAD => ⟨0x34, .bare, -1⟩
  | .SALOAD => ⟨0x35, .bare, -1⟩
  | .ISTORE => ⟨0x36, .var, -1⟩
  | .LSTORE => ⟨0x37, .var, -2⟩
  | .FSTORE => ⟨0x38, .var, -1⟩
  | .DSTORE => ⟨0x39, .var, -2⟩
  | .ASTORE => ⟨0x3a, .var, -1⟩
  | .IASTORE => ⟨0x4f, .bare, -3⟩
  | .LASTORE => ⟨0x50, .bare, -4⟩
  | .FASTORE => ⟨0x51, .bare, -3⟩
  | .DASTORE => ⟨0x52, .bare, -4⟩
  | .AASTORE => ⟨0x53, .bare, -3⟩
  | .BASTORE => ⟨0x54, .bare, -3⟩
  | .CASTORE => ⟨0x55, .bare, -3⟩
  | .SASTORE => ⟨0x56, .bare, -3⟩
  | .POP => ⟨0x57, .bare, -1⟩
  | .POP2 => ⟨0x58, .bare, -2⟩
  | .DUP => ⟨0x59, .bare, 1⟩
  | .DUP_X1 => ⟨0x5a, .bare, 1⟩
  | .DUP_X2 => ⟨0x5b, .bare, 1⟩
  | .DUP2 => ⟨0x5c, .bare, 2⟩
  | .DUP2_X1 => ⟨0x5d, .bare, 2⟩
  | .DUP2_X2 => ⟨0x5e, .bare, 2⟩
  | .SWAP => ⟨0x5f, .bare, 0⟩
  | .IADD => ⟨0x60, .bare, -1⟩
  | .LADD => ⟨0x61, .bare, -2⟩
  | .FADD => ⟨0x62, .bare, -1⟩
  | .DADD => ⟨0x63, .bare, -2⟩
  | .ISUB => ⟨0x64, .bare, -1⟩
  | .LSUB => ⟨0x65, .bare, -2⟩
  | .FSUB => ⟨0x66, .bare, -1⟩
  | .DSUB => ⟨0x67, .bare, -2⟩
  | .IMUL => ⟨0x68, .bare, -1⟩
  | .LMUL => ⟨0x69, .bare, -2⟩
  | .FMUL => ⟨0x6a, .bare, -1⟩
  | .DMUL => ⟨0x6b, .bare, -2⟩
  | .IDIV => ⟨0x6c, .bare, -1⟩
  | .LDIV => ⟨0x6d, .bare, -2⟩
  | .FDIV => ⟨0x6e, .bare, -1⟩
  | .DDIV => ⟨0x6f, .bare, -2⟩
  | .IREM => ⟨0x70, .bare, -1⟩
  | .LREM => ⟨0x71, .bare, -2⟩
  | .FREM => ⟨0x72, .bare, -1⟩
  | .DREM => ⟨0x73, .bare, -2⟩
  | .INEG => ⟨0x74, .bare, 0⟩
  | .LNEG => ⟨0x75, .bare, 0⟩
  | .FNEG => ⟨0x76, .bare, 0⟩
  | .DNEG => ⟨0x77, .bare, 0⟩
  | .ISHL => ⟨0x78, .bare, -1⟩
  | .LSHL => ⟨0x79, .bare, -1⟩
  | .ISHR => ⟨0x7a, .bare, -1⟩
  | .LSHR => ⟨0x7b, .bare, -1⟩
  | .IUSHR => ⟨0x7c, .bare, -1⟩
  | .LUSHR => ⟨0x7d, .bare, -1⟩
  | .IAND => ⟨0x7e, .bare, -1⟩
  | .LAND => ⟨0x7f, .bare, -2⟩
  | .IOR => ⟨0x80, .bare, -1⟩
  | .LOR => ⟨0x81, .bare, -2⟩
  | .IXOR => ⟨0x82, .bare, -1⟩
  | .LXOR => ⟨0x83, .bare, -2⟩
  | .IINC => ⟨0x84, .iinc, 0⟩
  | .I2L => ⟨0x85, .bare, 1⟩
  | .I2F => ⟨0x86, .bare, 0⟩
  | .I2D => ⟨0x87, .bare, 1⟩
  | .L2I => ⟨0x88, .bare, -1⟩
  | .L2F => ⟨0x89, .bare, -1⟩
  | .L2D => ⟨0x8a, .bare, 0⟩
  | .F2I => ⟨0x8b, .bare, 0⟩
  | .F2L => ⟨0x8c, .bare, 1⟩
  | .F2D => ⟨0x8d, .bare, 1⟩
  | .D2I => ⟨0x8e, .bare, -1⟩
  | .D2L => ⟨0x8f, .bare, 0⟩
  | .D2F => ⟨0x90, .bare, -1⟩
  | .I2B => ⟨0x91, .bare, 0⟩
  | .I2C => ⟨0x92, .bare, 0⟩
  | .I2S => ⟨0x93, .bare, 0⟩
  | .LCMP => ⟨0x94, .bare, -3⟩
  | .FCMPL => ⟨0x95, .bare, -1⟩
  | .FCMPG => ⟨0x96, .bare, -1⟩
  | .DCMPL => ⟨0x97, .bare, -3⟩
  | .DCMPG => ⟨0x98, .bare, -3⟩
  | .IFEQ => ⟨0x99, .jump, -1⟩
  | .IFNE => ⟨0x9a, .jump, -1⟩
  | .IFLT => ⟨0x9b, .jump, -1⟩
  | .IFGE => ⟨0x9c, .jump, -1⟩
  | .IFGT => ⟨0x9d, .jump, -1⟩
  | .IFLE => ⟨0x9e, .jump, -1⟩
  | .IF_ICMPEQ => ⟨0x9f, .jump, -2⟩
  | .IF_ICMPNE => ⟨0xa0, .jump, -2⟩
  | .IF_ICMPLT => ⟨0xa1, .jump, -2⟩
  | .IF_ICMPGE => ⟨0xa2, .jump, -2⟩
  | .IF_ICMPGT => ⟨0xa3, .jump, -2⟩
  | .IF_ICMPLE => ⟨0xa4, .jump, -2⟩
  | .IF_ACMPEQ => ⟨0xa5, .jump, -2⟩
  | .IF_ACMPNE => ⟨0xa6, .jump, -2⟩
  | .GOTO => ⟨0xa7, .jump, 0⟩
  | .TABLESWITCH => ⟨0xaa, .tableSwitch, -1⟩
  | .LOOKUPSWITCH => ⟨0xab, .lookupSwitch, -1⟩
  | .IRETURN => ⟨0xac, .bare, -1⟩
  | .LRETURN => ⟨0xad, .bare, -2⟩
  | .FRETURN => ⟨0xae, .bare, -1⟩
  | .DRETURN => ⟨0xaf, .bare, -2⟩
  | .ARETURN => ⟨0xb0, .bare, -1⟩
  | .RETURN => ⟨0xb1, .bare, 0⟩
  | .GETSTATIC => ⟨0xb2, .field, 0⟩
  | .PUTSTATIC => ⟨0xb3, .field, 0⟩
  | .GETFIELD => ⟨0xb4, .field, 0⟩
  | .PUTFIELD => ⟨0xb5, .field, 0⟩
  | .INVOKEVIRTUAL => ⟨0xb6, .method, 0⟩
  | .INVOKESPECIAL => ⟨0xb7, .method, 0⟩
  | .INVOKESTATIC => ⟨0xb8, .method, 0⟩
  | .INVOKEINTERFACE => ⟨0xb9, .method, 0⟩
  | .NEW => ⟨0xbb, .type, 1⟩
  | .NEWARRAY => ⟨0xbc, .int, 0⟩
  | .ANEWARRAY => ⟨0xbd, .type, 0⟩
  | .ARRAYLENGTH => ⟨0xbe, .bare, 0⟩
  | .ATHROW => ⟨0xbf, .bare, -1⟩
  | .CHECKCAST => ⟨0xc0, .type, 0⟩
  | .INSTANCEOF => ⟨0xc1, .type, 0⟩
  | .MONITORENTER => ⟨0xc2, .bare, -1⟩
  | .MONITOREXIT => ⟨0xc3, .bare, -1⟩
  | .IFNULL => ⟨0xc6, .jump, -1⟩
  | .IFNONNULL => ⟨0xc7, .jump, -1⟩

def toByte (op : Opcode) : UInt8 := op.info.byte

def kind (op : Opcode) : OperandKind := op.info.kind

def fixedDelta (op : Opcode) : Int := op.info.delta

def mnemonic : Opcode → String
  | .NOP => "NOP"
  | .ACONST_NULL => "ACONST_NULL"
  | .ICONST_M1 => "ICONST_M1"
  | .ICONST_0 => "ICONST_0"
  | .ICONST_1 => "ICONST_1"
  | .ICONST_2 => "ICONST_2"
  | .ICONST_3 => "ICONST_3"
  | .ICONST_4 => "ICONST_4"
  | .ICONST_5 => "ICONST_5"
  | .LCONST_0 => "LCONST_0"
  | .LCONST_1 => "LCONST_1"
  | .FCONST_0 => "FCONST_0"
  | .FCONST_1 => "FCONST_1"
  | .FCONST_2 => "FCONST_2"
  | .DCONST_0 => "DCONST_0"
  | .DCONST_1 => "DCONST_1"
  | .BIPUSH => "BIPUSH"
  | .SIPUSH => "SIPUSH"
  | .LDC => "LDC"
  | .ILOAD => "ILOAD"
  | .LLOAD => "LLOAD"
  | .FLOAD => "FLOAD"
  | .DLOAD => "DLOAD"
  | .ALOAD => "ALOAD"
  | .IALOAD => "IALOAD"
  | .LALOAD => "LALOAD"
  | .FALOAD => "FALOAD"
  | .DALOAD => "DALOAD"
  | .AALOAD => "AALOAD"
  | .BALOAD => "BALOAD"
  | .CALOAD => "CALOAD"
  | .SALOAD => "SALOAD"
  | .ISTORE => "ISTORE"
  | .LSTORE => "LSTORE"
  | .FSTORE => "FSTORE"
  | .DSTORE => "DSTORE"
  | .ASTORE => "ASTORE"
  | .IASTORE => "IASTORE"
  | .LASTORE => "LASTORE"
  | .FASTORE => "FASTORE"
  | .DASTORE => "DASTORE"
  | .AASTORE => "AASTORE"
  | .BASTORE => "BASTORE"
  | .CASTORE => "CASTORE"
  | .SASTORE => "SASTORE"
  | .POP => "POP"
  | .POP2 => "POP2"
  | .DUP => "DUP"
  | .DUP_X1 => "DUP_X1"
  | .DUP_X2 => "DUP_X2"
  | .DUP2 => "DUP2"
  | .DUP2_X1 => "DUP2_X1"
  | .DUP2_X2 => "DUP2_X2"
  | .SWAP => "SWAP"
  | .IADD => "IADD"
  | .LADD => "LADD"
  | .FADD => "FADD"
  | .DADD => "DADD"
  | .ISUB => "ISUB"
  | .LSUB => "LSUB"
  | .FSUB => "FSUB"
  | .DSUB => "DSUB"
  | .IMUL => "IMUL"
  | .LMUL => "LMUL"
  | .FMUL => "FMUL"
  | .DMUL => "DMUL"
  | .IDIV => "IDIV"
  | .LDIV => "LDIV"
  | .FDIV => "FDIV"
  | .DDIV => "DDIV"
  | .IREM => "IREM"
  | .LREM => "LREM"
  | .FREM => "FREM"
  | .DREM => "DREM"
  | .INEG => "INEG"
  | .LNEG => "LNEG"
  | .FNEG => "FNEG"
  | .DNEG => "DNEG"
  | .ISHL => "ISHL"
  | .LSHL => "LSHL"
  | .ISHR => "ISHR"
  | .LSHR => "LSHR"
  | .IUSHR => "IUSHR"
  | .LUSHR => "LUSHR"
  | .IAND => "IAND"
  | .LAND => "LAND"
  | .IOR => "IOR"
  | .LOR => "LOR"
  | .IXOR => "IXOR"
  | .LXOR => "LXOR"
  | .IINC => "IINC"
  | .I2L => "I2L"
  | .I2F => "I2F"
  | .I2D => "I2D"
  | .L2I => "L2I"
  | .L2F => "L2F"
  | .L2D => "L2D"
  | .F2I => "F2I"
  | .F2L => "F2L"
  | .F2D => "F2D"
  | .D2I => "D2I"
  | .D2L => "D2L"
  | .D2F => "D2F"
  | .I2B => "I2B"
  | .I2C => "I2C"
  | .I2S => "I2S"
  | .LCMP => "LCMP"
  | .FCMPL => "FCMPL"
  | .FCMPG => "FCMPG"
  | .DCMPL => "DCMPL"
  | .DCMPG => "DCMPG"
  | .IFEQ => "IFEQ"
  | .IFNE => "IFNE"
  | .IFLT => "IFLT"
  | .IFGE => "IFGE"
  | .IFGT => "IFGT"
  | .IFLE => "IFLE"
  | .IF_ICMPEQ => "IF_ICMPEQ"
  | .IF_ICMPNE => "IF_ICMPNE"
  | .IF_ICMPLT => "IF_ICMPLT"
  | .IF_ICMPGE => "IF_ICMPGE"
  | .IF_ICMPGT => "IF_ICMPGT"
  | .IF_ICMPLE => "IF_ICMPLE"
  | .IF_ACMPEQ => "IF_ACMPEQ"
  | .IF_ACMPNE => "IF_ACMPNE"
  | .GOTO => "GOTO"
  | .TABLESWITCH => "TABLESWITCH"
  | .LOOKUPSWITCH => "LOOKUPSWITCH"
  | .IRETURN => "IRETURN"
  | .LRETURN => "LRETURN"
  | .FRETURN => "FRETURN"
  | .DRETURN => "DRETURN"
  | .ARETURN => "ARETURN"
  | .RETURN => "RETURN"
  | .GETSTATIC => "GETSTATIC"
  | .PUTSTATIC => "PUTSTATIC"
  | .GETFIELD => "GETFIELD"
  | .PUTFIELD => "PUTFIELD"
  | .INVOKEVIRTUAL => "INVOKEVIRTUAL"
  | .INVOKESPECIAL => "INVOKESPECIAL"
  | .INVOKESTATIC => "INVOKESTATIC"
  | .INVOKEINTERFACE => "INVOKEINTERFACE"
  | .NEW => "NEW"
  | .NEWARRAY => "NEWARRAY"
  | .ANEWARRAY => "ANEWARRAY"
  | .ARRAYLENGTH => "ARRAYLENGTH"
  | .ATHROW => "ATHROW"
  | .CHECKCAST => "CHECKCAST"
  | .INSTANCEOF => "INSTANCEOF"
  | .MONITORENTER => "MONITORENTER"
  | .MONITOREXIT => "MONITOREXIT"
  | .IFNULL => "IFNULL"
  | .IFNONNULL => "IFNONNULL"

/-- All opcodes, by ascending byte. -/
def all : List Opcode := [
  .NOP, .ACONST_NULL, .ICONST_M1, .ICONST_0, .ICONST_1, .ICONST_2, .ICONST_3, .ICONST_4,
  .ICONST_5, .LCONST_0, .LCONST_1, .FCONST_0, .FCONST_1, .FCONST_2, .DCONST_0, .DCONST_1,
  .BIPUSH, .SIPUSH, .LDC, .ILOAD, .LLOAD, .FLOAD, .DLOAD, .ALOAD, .IALOAD, .LALOAD,
  .FALOAD, .DALOAD, .AALOAD, .BALOAD, .CALOAD, .SALOAD, .ISTORE, .LSTORE, .FSTORE, .DSTORE,
  .ASTORE, .IASTORE, .LASTORE, .FASTORE, .DASTORE, .AASTORE, .BASTORE, .CASTORE, .SASTORE,
  .POP, .POP2, .DUP, .DUP_X1, .DUP_X2, .DUP2, .DUP2_X1, .DUP2_X2, .SWAP, .IADD, .LADD,
  .FADD, .DADD, .ISUB, .LSUB, .FSUB, .DSUB, .IMUL, .LMUL, .FMUL, .DMUL, .IDIV, .LDIV,
  .FDIV, .DDIV, .IREM, .LREM, .FREM, .DREM, .INEG, .LNEG, .FNEG, .DNEG, .ISHL, .LSHL,
  .ISHR, .LSHR, .IUSHR, .LUSHR, .IAND, .LAND, .IOR, .LOR, .IXOR, .LXOR, .IINC, .I2L, .I2F,
  .I2D, .L2I, .L2F, .L2D, .F2I, .F2L, .F2D, .D2I, .D2L, .D2F, .I2B, .I2C, .I2S, .LCMP,
  .FCMPL, .FCMPG, .DCMPL, .DCMPG, .IFEQ, .IFNE, .IFLT, .IFGE, .IFGT, .IFLE, .IF_ICMPEQ,
  .IF_ICMPNE, .IF_ICMPLT, .IF_ICMPGE, .IF_ICMPGT, .IF_ICMPLE, .IF_ACMPEQ, .IF_ACMPNE,
  .GOTO, .TABLESWITCH, .LOOKUPSWITCH, .IRETURN, .LRETURN, .FRETURN, .DRETURN, .ARETURN,
  .RETURN, .GETSTATIC, .PUTSTATIC, .GETFIELD, .PUTFIELD, .INVOKEVIRTUAL, .INVOKESPECIAL,
  .INVOKESTATIC, .INVOKEINTERFACE, .NEW, .NEWARRAY, .ANEWARRAY, .ARRAYLENGTH, .ATHROW,
  .CHECKCAST, .INSTANCEOF, .MONITORENTER, .MONITOREXIT, .IFNULL, .IFNONNULL]

def ofByte? (b : UInt8) : Option Opcode := all.find? (·.toByte == b)

theorem mem_all (op : Opcode) : op ∈ all := by
  have h : all[op.ctorIdx]? = some op := by cases op <;> rfl
  exact List.mem_of_getElem? h

theorem ofByte?_toByte (op : Opcode) : ofByte? op.toByte = some op :=
  (by decide +kernel : ∀ op ∈ all, ofByte? op.toByte = some op) op (mem_all op)

/-! ## Properties -/

def isLoad : Opcode → Bool
  | .ILOAD | .LLOAD | .FLOAD | .DLOAD | .ALOAD => true
  | _ => false

def isStore : Opcode → Bool
  | .ISTORE | .LSTORE | .FSTORE | .DSTORE | .ASTORE => true
  | _ => false

/-- How many local slots an access spans. -/
def slotWidth : Opcode → Nat
  | .LLOAD | .DLOAD | .LSTORE | .DSTORE => 2
  | _ => 1

/-- The next instruction never follows. -/
def endsFlow : Opcode → Bool
  | .GOTO | .TABLESWITCH | .LOOKUPSWITCH | .IRETURN | .LRETURN | .FRETURN | .DRETURN | .ARETURN
  | .RETURN | .ATHROW => true
  | _ => false

/-! ## Alternative forms -/

/-- A constant load with a two-byte pool index. -/
def wideLdc : UInt8 := 0x13

/-- A load of a constant of two slots. -/
def doubleLdc : UInt8 := 0x14

/-- Announces a two-byte local index. -/
def wide : UInt8 := 0xC4

/-- A jump with a four-byte offset. -/
def wideGoto : UInt8 := 0xC8

/-- The first byte of the loads with the slot in the opcode. -/
def shortLoads : Nat := 0x1A

/-- The first byte of the stores with the slot in the opcode. -/
def shortStores : Nat := 0x3B

/-- Accesses of one kind and slots 0 to 3 have single bytes, four for each
opcode in the order of the opcodes. -/
def shortForm? (op : Opcode) (slot : Nat) : Option UInt8 :=
  if 3 < slot then none
  else if op.isLoad then
    some (UInt8.ofNat (shortLoads + (op.toByte.toNat - Opcode.ILOAD.toByte.toNat) * 4 + slot))
  else if op.isStore then
    some (UInt8.ofNat (shortStores + (op.toByte.toNat - Opcode.ISTORE.toByte.toNat) * 4 + slot))
  else none

/-- The access that a single byte stands for. -/
def ofShortForm? (b : UInt8) : Option (Opcode × Nat) :=
  let n := b.toNat
  if shortLoads ≤ n ∧ n < shortLoads + 20 then
    (ofByte? (UInt8.ofNat (Opcode.ILOAD.toByte.toNat + (n - shortLoads) / 4))).map
      (·, (n - shortLoads) % 4)
  else if shortStores ≤ n ∧ n < shortStores + 20 then
    (ofByte? (UInt8.ofNat (Opcode.ISTORE.toByte.toNat + (n - shortStores) / 4))).map
      (·, (n - shortStores) % 4)
  else none

end Opcode

end ClassPatch
