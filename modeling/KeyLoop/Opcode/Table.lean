/-
# The instruction table

Every defined instruction of CIL has one row: its opcode and what follows it
in code, its name, category and control flow, its effect on the stack depth,
and the action it asks of the evaluation machine.  Decoding, encoding, the
queries on instructions and the machine all read this one table, so they
cannot disagree about an instruction.

Opcodes of one byte run from `00` to `E0`, those behind the lead byte `FE`
from `00` to `1E`.  A code inside these bounds that has no row is reserved; a
code beyond them is not an opcode.
-/
import KeyLoop.Opcode.Basic

namespace KeyLoop

structure Row extends Traits where
  opcode : Opcode
  operandType : OperandType
  action : Action
deriving DecidableEq, Repr

namespace Row

/-- A row of the one-byte opcodes. -/
def row (code : Byte) (mnemonic : String) (operandType : OperandType) (category : Category)
    (flow : Flow) (pops pushes : Nat) (action : Action) : Row :=
  { mnemonic, category, flow, pops, pushes, operandType, action, opcode := .single code }

/-- A row of the opcodes behind the lead byte. -/
def extendedRow (code : Byte) (mnemonic : String) (operandType : OperandType)
    (category : Category) (flow : Flow) (pops pushes : Nat) (action : Action) : Row :=
  { mnemonic, category, flow, pops, pushes, operandType, action, opcode := .extended code }

def singles : List Row := [
  row 0x00 "nop" .none .misc .sequential 0 0 .nop,
  row 0x01 "break" .none .misc .sequential 0 0 .nop,
  row 0x02 "ldarg.0" .none .loadStore .sequential 0 1 (.slot .argument .load (.implied 0)),
  row 0x03 "ldarg.1" .none .loadStore .sequential 0 1 (.slot .argument .load (.implied 1)),
  row 0x04 "ldarg.2" .none .loadStore .sequential 0 1 (.slot .argument .load (.implied 2)),
  row 0x05 "ldarg.3" .none .loadStore .sequential 0 1 (.slot .argument .load (.implied 3)),
  row 0x06 "ldloc.0" .none .loadStore .sequential 0 1 (.slot .localVar .load (.implied 0)),
  row 0x07 "ldloc.1" .none .loadStore .sequential 0 1 (.slot .localVar .load (.implied 1)),
  row 0x08 "ldloc.2" .none .loadStore .sequential 0 1 (.slot .localVar .load (.implied 2)),
  row 0x09 "ldloc.3" .none .loadStore .sequential 0 1 (.slot .localVar .load (.implied 3)),
  row 0x0A "stloc.0" .none .loadStore .sequential 1 0 (.slot .localVar .store (.implied 0)),
  row 0x0B "stloc.1" .none .loadStore .sequential 1 0 (.slot .localVar .store (.implied 1)),
  row 0x0C "stloc.2" .none .loadStore .sequential 1 0 (.slot .localVar .store (.implied 2)),
  row 0x0D "stloc.3" .none .loadStore .sequential 1 0 (.slot .localVar .store (.implied 3)),
  row 0x0E "ldarg.s" (.scalar .uint8) .loadStore .sequential 0 1 (.slot .argument .load .operand),
  row 0x0F "ldarga.s" (.scalar .uint8) .loadStore .sequential 0 1 (.slot .argument .address .operand),
  row 0x10 "starg.s" (.scalar .uint8) .loadStore .sequential 1 0 (.slot .argument .store .operand),
  row 0x11 "ldloc.s" (.scalar .uint8) .loadStore .sequential 0 1 (.slot .localVar .load .operand),
  row 0x12 "ldloca.s" (.scalar .uint8) .loadStore .sequential 0 1 (.slot .localVar .address .operand),
  row 0x13 "stloc.s" (.scalar .uint8) .loadStore .sequential 1 0 (.slot .localVar .store .operand),
  row 0x14 "ldnull" .none .loadStore .sequential 0 1 .unmodelled,
  row 0x15 "ldc.i4.m1" .none .loadStore .sequential 0 1 (.int32 (.implied (-1))),
  row 0x16 "ldc.i4.0" .none .loadStore .sequential 0 1 (.int32 (.implied 0)),
  row 0x17 "ldc.i4.1" .none .loadStore .sequential 0 1 (.int32 (.implied 1)),
  row 0x18 "ldc.i4.2" .none .loadStore .sequential 0 1 (.int32 (.implied 2)),
  row 0x19 "ldc.i4.3" .none .loadStore .sequential 0 1 (.int32 (.implied 3)),
  row 0x1A "ldc.i4.4" .none .loadStore .sequential 0 1 (.int32 (.implied 4)),
  row 0x1B "ldc.i4.5" .none .loadStore .sequential 0 1 (.int32 (.implied 5)),
  row 0x1C "ldc.i4.6" .none .loadStore .sequential 0 1 (.int32 (.implied 6)),
  row 0x1D "ldc.i4.7" .none .loadStore .sequential 0 1 (.int32 (.implied 7)),
  row 0x1E "ldc.i4.8" .none .loadStore .sequential 0 1 (.int32 (.implied 8)),
  row 0x1F "ldc.i4.s" (.scalar .int8) .loadStore .sequential 0 1 (.int32 .operand),
  row 0x20 "ldc.i4" (.scalar .int32) .loadStore .sequential 0 1 (.int32 .operand),
  row 0x21 "ldc.i8" (.scalar .int64) .loadStore .sequential 0 1 .int64,
  row 0x22 "ldc.r4" (.scalar .float32) .loadStore .sequential 0 1 .float,
  row 0x23 "ldc.r8" (.scalar .float64) .loadStore .sequential 0 1 .float,
  row 0x25 "dup" .none .misc .sequential 1 2 .dup,
  row 0x26 "pop" .none .misc .sequential 1 0 .pop,
  row 0x27 "jmp" .token .controlFlow .call 0 0 .unmodelled,
  row 0x28 "call" .token .controlFlow .call 0 0 .unmodelled,
  row 0x29 "calli" .token .controlFlow .call 0 0 .unmodelled,
  row 0x2A "ret" .none .controlFlow .ret 0 0 .unmodelled,
  row 0x2B "br.s" (.scalar .int8) .controlFlow .unconditional 0 0 .branch,
  row 0x2C "brfalse.s" (.scalar .int8) .controlFlow .conditional 1 0 .branch,
  row 0x2D "brtrue.s" (.scalar .int8) .controlFlow .conditional 1 0 .branch,
  row 0x2E "beq.s" (.scalar .int8) .controlFlow .conditional 2 0 .branch,
  row 0x2F "bge.s" (.scalar .int8) .controlFlow .conditional 2 0 .branch,
  row 0x30 "bgt.s" (.scalar .int8) .controlFlow .conditional 2 0 .branch,
  row 0x31 "ble.s" (.scalar .int8) .controlFlow .conditional 2 0 .branch,
  row 0x32 "blt.s" (.scalar .int8) .controlFlow .conditional 2 0 .branch,
  row 0x33 "bne.un.s" (.scalar .int8) .controlFlow .conditional 2 0 .branch,
  row 0x34 "bge.un.s" (.scalar .int8) .controlFlow .conditional 2 0 .branch,
  row 0x35 "bgt.un.s" (.scalar .int8) .controlFlow .conditional 2 0 .branch,
  row 0x36 "ble.un.s" (.scalar .int8) .controlFlow .conditional 2 0 .branch,
  row 0x37 "blt.un.s" (.scalar .int8) .controlFlow .conditional 2 0 .branch,
  row 0x38 "br" (.scalar .int32) .controlFlow .unconditional 0 0 .branch,
  row 0x39 "brfalse" (.scalar .int32) .controlFlow .conditional 1 0 .branch,
  row 0x3A "brtrue" (.scalar .int32) .controlFlow .conditional 1 0 .branch,
  row 0x3B "beq" (.scalar .int32) .controlFlow .conditional 2 0 .branch,
  row 0x3C "bge" (.scalar .int32) .controlFlow .conditional 2 0 .branch,
  row 0x3D "bgt" (.scalar .int32) .controlFlow .conditional 2 0 .branch,
  row 0x3E "ble" (.scalar .int32) .controlFlow .conditional 2 0 .branch,
  row 0x3F "blt" (.scalar .int32) .controlFlow .conditional 2 0 .branch,
  row 0x40 "bne.un" (.scalar .int32) .controlFlow .conditional 2 0 .branch,
  row 0x41 "bge.un" (.scalar .int32) .controlFlow .conditional 2 0 .branch,
  row 0x42 "bgt.un" (.scalar .int32) .controlFlow .conditional 2 0 .branch,
  row 0x43 "ble.un" (.scalar .int32) .controlFlow .conditional 2 0 .branch,
  row 0x44 "blt.un" (.scalar .int32) .controlFlow .conditional 2 0 .branch,
  row 0x45 "switch" .switch .controlFlow .switch 1 0 .branch,
  row 0x46 "ldind.i1" .none .loadStore .sequential 1 1 .unmodelled,
  row 0x47 "ldind.u1" .none .loadStore .sequential 1 1 (.loadNarrow 8),
  row 0x48 "ldind.i2" .none .loadStore .sequential 1 1 .unmodelled,
  row 0x49 "ldind.u2" .none .loadStore .sequential 1 1 (.loadNarrow 16),
  row 0x4A "ldind.i4" .none .loadStore .sequential 1 1 .unmodelled,
  row 0x4B "ldind.u4" .none .loadStore .sequential 1 1 .unmodelled,
  row 0x4C "ldind.i8" .none .loadStore .sequential 1 1 .unmodelled,
  row 0x4D "ldind.i" .none .loadStore .sequential 1 1 .unmodelled,
  row 0x4E "ldind.r4" .none .loadStore .sequential 1 1 .unmodelled,
  row 0x4F "ldind.r8" .none .loadStore .sequential 1 1 .unmodelled,
  row 0x50 "ldind.ref" .none .loadStore .sequential 1 1 .unmodelled,
  row 0x51 "stind.ref" .none .loadStore .sequential 2 0 .unmodelled,
  row 0x52 "stind.i1" .none .loadStore .sequential 2 0 .unmodelled,
  row 0x53 "stind.i2" .none .loadStore .sequential 2 0 .unmodelled,
  row 0x54 "stind.i4" .none .loadStore .sequential 2 0 .unmodelled,
  row 0x55 "stind.i8" .none .loadStore .sequential 2 0 .unmodelled,
  row 0x56 "stind.r4" .none .loadStore .sequential 2 0 .unmodelled,
  row 0x57 "stind.r8" .none .loadStore .sequential 2 0 .unmodelled,
  row 0x58 "add" .none .arithmetic .sequential 2 1 (.binary (.arithmetic (.add .wrap))),
  row 0x59 "sub" .none .arithmetic .sequential 2 1 (.binary (.arithmetic (.sub .wrap))),
  row 0x5A "mul" .none .arithmetic .sequential 2 1 (.binary (.arithmetic (.mul .wrap))),
  row 0x5B "div" .none .arithmetic .sequential 2 1 (.binary (.arithmetic (.div .signed))),
  row 0x5C "div.un" .none .arithmetic .sequential 2 1 (.binary (.arithmetic (.div .unsigned))),
  row 0x5D "rem" .none .arithmetic .sequential 2 1 (.binary (.arithmetic (.rem .signed))),
  row 0x5E "rem.un" .none .arithmetic .sequential 2 1 (.binary (.arithmetic (.rem .unsigned))),
  row 0x5F "and" .none .bitwise .sequential 2 1 (.binary (.arithmetic .and)),
  row 0x60 "or" .none .bitwise .sequential 2 1 (.binary (.arithmetic .or)),
  row 0x61 "xor" .none .bitwise .sequential 2 1 (.binary (.arithmetic .xor)),
  row 0x62 "shl" .none .bitwise .sequential 2 1 (.binary (.shift .left)),
  row 0x63 "shr" .none .bitwise .sequential 2 1 (.binary (.shift (.right .signed))),
  row 0x64 "shr.un" .none .bitwise .sequential 2 1 (.binary (.shift (.right .unsigned))),
  row 0x65 "neg" .none .arithmetic .sequential 1 1 (.unary .neg),
  row 0x66 "not" .none .bitwise .sequential 1 1 (.unary .not),
  row 0x67 "conv.i1" .none .conversion .sequential 1 1 (.convert (.integer .i1)),
  row 0x68 "conv.i2" .none .conversion .sequential 1 1 (.convert (.integer .i2)),
  row 0x69 "conv.i4" .none .conversion .sequential 1 1 (.convert (.integer .i4)),
  row 0x6A "conv.i8" .none .conversion .sequential 1 1 (.convert (.integer .i8)),
  row 0x6B "conv.r4" .none .conversion .sequential 1 1 (.convert .float32),
  row 0x6C "conv.r8" .none .conversion .sequential 1 1 (.convert .float64),
  row 0x6D "conv.u4" .none .conversion .sequential 1 1 (.convert (.integer .u4)),
  row 0x6E "conv.u8" .none .conversion .sequential 1 1 (.convert (.integer .u8)),
  row 0x6F "callvirt" .token .controlFlow .call 0 0 .unmodelled,
  row 0x70 "cpobj" .token .objectModel .sequential 2 0 .unmodelled,
  row 0x71 "ldobj" .token .objectModel .sequential 1 1 .unmodelled,
  row 0x72 "ldstr" .token .loadStore .sequential 0 1 .unmodelled,
  row 0x73 "newobj" .token .objectModel .call 0 0 .unmodelled,
  row 0x74 "castclass" .token .objectModel .sequential 1 1 .unmodelled,
  row 0x75 "isinst" .token .objectModel .sequential 1 1 .unmodelled,
  row 0x76 "conv.r.un" .none .conversion .sequential 1 1 (.convert .floatUnsigned),
  row 0x79 "unbox" .token .objectModel .sequential 1 1 .unmodelled,
  row 0x7A "throw" .none .controlFlow .throw 1 0 .unmodelled,
  row 0x7B "ldfld" .token .objectModel .sequential 1 1 .unmodelled,
  row 0x7C "ldflda" .token .objectModel .sequential 1 1 .unmodelled,
  row 0x7D "stfld" .token .objectModel .sequential 2 0 .unmodelled,
  row 0x7E "ldsfld" .token .objectModel .sequential 0 1 .unmodelled,
  row 0x7F "ldsflda" .token .objectModel .sequential 0 1 .unmodelled,
  row 0x80 "stsfld" .token .objectModel .sequential 1 0 .unmodelled,
  row 0x81 "stobj" .token .objectModel .sequential 2 0 .unmodelled,
  row 0x82 "conv.ovf.i1.un" .none .conversion .sequential 1 1 (.convert (.checked .i1 .unsigned)),
  row 0x83 "conv.ovf.i2.un" .none .conversion .sequential 1 1 (.convert (.checked .i2 .unsigned)),
  row 0x84 "conv.ovf.i4.un" .none .conversion .sequential 1 1 (.convert (.checked .i4 .unsigned)),
  row 0x85 "conv.ovf.i8.un" .none .conversion .sequential 1 1 (.convert (.checked .i8 .unsigned)),
  row 0x86 "conv.ovf.u1.un" .none .conversion .sequential 1 1 (.convert (.checked .u1 .unsigned)),
  row 0x87 "conv.ovf.u2.un" .none .conversion .sequential 1 1 (.convert (.checked .u2 .unsigned)),
  row 0x88 "conv.ovf.u4.un" .none .conversion .sequential 1 1 (.convert (.checked .u4 .unsigned)),
  row 0x89 "conv.ovf.u8.un" .none .conversion .sequential 1 1 (.convert (.checked .u8 .unsigned)),
  row 0x8A "conv.ovf.i.un" .none .conversion .sequential 1 1 (.convert (.checked .i .unsigned)),
  row 0x8B "conv.ovf.u.un" .none .conversion .sequential 1 1 (.convert (.checked .u .unsigned)),
  row 0x8C "box" .token .objectModel .sequential 1 1 .unmodelled,
  row 0x8D "newarr" .token .objectModel .sequential 1 1 .unmodelled,
  row 0x8E "ldlen" .none .objectModel .sequential 1 1 .unmodelled,
  row 0x8F "ldelema" .token .objectModel .sequential 2 1 .unmodelled,
  row 0x90 "ldelem.i1" .none .objectModel .sequential 2 1 .unmodelled,
  row 0x91 "ldelem.u1" .none .objectModel .sequential 2 1 (.loadNarrow 8),
  row 0x92 "ldelem.i2" .none .objectModel .sequential 2 1 .unmodelled,
  row 0x93 "ldelem.u2" .none .objectModel .sequential 2 1 (.loadNarrow 16),
  row 0x94 "ldelem.i4" .none .objectModel .sequential 2 1 .unmodelled,
  row 0x95 "ldelem.u4" .none .objectModel .sequential 2 1 .unmodelled,
  row 0x96 "ldelem.i8" .none .objectModel .sequential 2 1 .unmodelled,
  row 0x97 "ldelem.i" .none .objectModel .sequential 2 1 .unmodelled,
  row 0x98 "ldelem.r4" .none .objectModel .sequential 2 1 .unmodelled,
  row 0x99 "ldelem.r8" .none .objectModel .sequential 2 1 .unmodelled,
  row 0x9A "ldelem.ref" .none .objectModel .sequential 2 1 .unmodelled,
  row 0x9B "stelem.i" .none .objectModel .sequential 3 0 .unmodelled,
  row 0x9C "stelem.i1" .none .objectModel .sequential 3 0 .unmodelled,
  row 0x9D "stelem.i2" .none .objectModel .sequential 3 0 .unmodelled,
  row 0x9E "stelem.i4" .none .objectModel .sequential 3 0 .unmodelled,
  row 0x9F "stelem.i8" .none .objectModel .sequential 3 0 .unmodelled,
  row 0xA0 "stelem.r4" .none .objectModel .sequential 3 0 .unmodelled,
  row 0xA1 "stelem.r8" .none .objectModel .sequential 3 0 .unmodelled,
  row 0xA2 "stelem.ref" .none .objectModel .sequential 3 0 .unmodelled,
  row 0xA3 "ldelem" .token .objectModel .sequential 2 1 .unmodelled,
  row 0xA4 "stelem" .token .objectModel .sequential 3 0 .unmodelled,
  row 0xA5 "unbox.any" .token .objectModel .sequential 1 1 .unmodelled,
  row 0xB3 "conv.ovf.i1" .none .conversion .sequential 1 1 (.convert (.checked .i1 .signed)),
  row 0xB4 "conv.ovf.u1" .none .conversion .sequential 1 1 (.convert (.checked .u1 .signed)),
  row 0xB5 "conv.ovf.i2" .none .conversion .sequential 1 1 (.convert (.checked .i2 .signed)),
  row 0xB6 "conv.ovf.u2" .none .conversion .sequential 1 1 (.convert (.checked .u2 .signed)),
  row 0xB7 "conv.ovf.i4" .none .conversion .sequential 1 1 (.convert (.checked .i4 .signed)),
  row 0xB8 "conv.ovf.u4" .none .conversion .sequential 1 1 (.convert (.checked .u4 .signed)),
  row 0xB9 "conv.ovf.i8" .none .conversion .sequential 1 1 (.convert (.checked .i8 .signed)),
  row 0xBA "conv.ovf.u8" .none .conversion .sequential 1 1 (.convert (.checked .u8 .signed)),
  row 0xC2 "refanyval" .token .objectModel .sequential 1 1 .unmodelled,
  row 0xC3 "ckfinite" .none .arithmetic .sequential 1 1 .unmodelled,
  row 0xC6 "mkrefany" .token .objectModel .sequential 1 1 .unmodelled,
  row 0xD0 "ldtoken" .token .loadStore .sequential 0 1 .unmodelled,
  row 0xD1 "conv.u2" .none .conversion .sequential 1 1 (.convert (.integer .u2)),
  row 0xD2 "conv.u1" .none .conversion .sequential 1 1 (.convert (.integer .u1)),
  row 0xD3 "conv.i" .none .conversion .sequential 1 1 (.convert (.integer .i)),
  row 0xD4 "conv.ovf.i" .none .conversion .sequential 1 1 (.convert (.checked .i .signed)),
  row 0xD5 "conv.ovf.u" .none .conversion .sequential 1 1 (.convert (.checked .u .signed)),
  row 0xD6 "add.ovf" .none .arithmetic .sequential 2 1 (.binary (.arithmetic (.add (.check .signed)))),
  row 0xD7 "add.ovf.un" .none .arithmetic .sequential 2 1 (.binary (.arithmetic (.add (.check .unsigned)))),
  row 0xD8 "mul.ovf" .none .arithmetic .sequential 2 1 (.binary (.arithmetic (.mul (.check .signed)))),
  row 0xD9 "mul.ovf.un" .none .arithmetic .sequential 2 1 (.binary (.arithmetic (.mul (.check .unsigned)))),
  row 0xDA "sub.ovf" .none .arithmetic .sequential 2 1 (.binary (.arithmetic (.sub (.check .signed)))),
  row 0xDB "sub.ovf.un" .none .arithmetic .sequential 2 1 (.binary (.arithmetic (.sub (.check .unsigned)))),
  row 0xDC "endfinally" .none .controlFlow .endFinally 0 0 .unmodelled,
  row 0xDD "leave" (.scalar .int32) .controlFlow .leave 0 0 .unmodelled,
  row 0xDE "leave.s" (.scalar .int8) .controlFlow .leave 0 0 .unmodelled,
  row 0xDF "stind.i" .none .loadStore .sequential 2 0 .unmodelled,
  row 0xE0 "conv.u" .none .conversion .sequential 1 1 (.convert (.integer .u))]

def extendeds : List Row := [
  extendedRow 0x00 "arglist" .none .misc .sequential 0 1 .unmodelled,
  extendedRow 0x01 "ceq" .none .comparison .sequential 2 1 (.compare .eq),
  extendedRow 0x02 "cgt" .none .comparison .sequential 2 1 (.compare (.gt .signed)),
  extendedRow 0x03 "cgt.un" .none .comparison .sequential 2 1 (.compare (.gt .unsigned)),
  extendedRow 0x04 "clt" .none .comparison .sequential 2 1 (.compare (.lt .signed)),
  extendedRow 0x05 "clt.un" .none .comparison .sequential 2 1 (.compare (.lt .unsigned)),
  extendedRow 0x06 "ldftn" .token .loadStore .sequential 0 1 .unmodelled,
  extendedRow 0x07 "ldvirtftn" .token .loadStore .sequential 1 1 .unmodelled,
  extendedRow 0x09 "ldarg" (.scalar .uint16) .loadStore .sequential 0 1 (.slot .argument .load .operand),
  extendedRow 0x0A "ldarga" (.scalar .uint16) .loadStore .sequential 0 1 (.slot .argument .address .operand),
  extendedRow 0x0B "starg" (.scalar .uint16) .loadStore .sequential 1 0 (.slot .argument .store .operand),
  extendedRow 0x0C "ldloc" (.scalar .uint16) .loadStore .sequential 0 1 (.slot .localVar .load .operand),
  extendedRow 0x0D "ldloca" (.scalar .uint16) .loadStore .sequential 0 1 (.slot .localVar .address .operand),
  extendedRow 0x0E "stloc" (.scalar .uint16) .loadStore .sequential 1 0 (.slot .localVar .store .operand),
  extendedRow 0x0F "localloc" .none .misc .sequential 1 1 .unmodelled,
  extendedRow 0x11 "endfilter" .none .controlFlow .endFinally 1 0 .unmodelled,
  extendedRow 0x12 "unaligned." (.scalar .uint8) .modifier .sequential 0 0 .nop,
  extendedRow 0x13 "volatile." .none .modifier .sequential 0 0 .nop,
  extendedRow 0x14 "tail." .none .modifier .sequential 0 0 .nop,
  extendedRow 0x15 "initobj" .token .objectModel .sequential 1 0 .unmodelled,
  extendedRow 0x16 "constrained." .token .modifier .sequential 0 0 .nop,
  extendedRow 0x17 "cpblk" .none .misc .sequential 3 0 .unmodelled,
  extendedRow 0x18 "initblk" .none .misc .sequential 3 0 .unmodelled,
  extendedRow 0x19 "no." (.scalar .uint8) .modifier .sequential 0 0 .nop,
  extendedRow 0x1A "rethrow" .none .controlFlow .throw 0 0 .unmodelled,
  extendedRow 0x1C "sizeof" .token .loadStore .sequential 0 1 .unmodelled,
  extendedRow 0x1D "refanytype" .none .objectModel .sequential 1 1 .unmodelled,
  extendedRow 0x1E "readonly." .none .modifier .sequential 0 0 .nop]

def all : List Row := singles ++ extendeds

/-- The row that stands for a reserved code in a printed table. -/
def reserved (opcode : Opcode) : Row :=
  { mnemonic := "", category := .misc, flow := .sequential, pops := 0, pushes := 0
    operandType := .none, action := .unmodelled, opcode }

/-- The instruction with this name. -/
def ofMnemonic? (mnemonic : String) : Option Row := all.find? (·.mnemonic == mnemonic)

end Row

namespace Opcode

/-- The instruction with this opcode. -/
def row? (o : Opcode) : Option Row := Row.all.find? (·.opcode == o)

/-- The greatest code behind a lead byte, or without one. -/
def lastCode (lead : Byte) : Byte := if lead = 0 then 0xE0 else 0x1E

/-- The code lies within the bounds of its table, defined or reserved. -/
def isAssigned (o : Opcode) : Bool := o.code ≤ lastCode o.lead

/-- The lead byte is one that opcodes can have. -/
def hasKnownLead (o : Opcode) : Bool := o.lead == 0 || o.lead == extendedLead

/-- What the machine does for this opcode.  Of a code without a row only the
effect on the stack depth counts. -/
def action (o : Opcode) : Action := (o.row?.map (·.action)).getD .unmodelled

/-! ## Opcodes that code patterns are made of -/

def ldcI4Short : Opcode := single 0x1F
def br : Opcode := single 0x38
def brShort : Opcode := single 0x2B
def bneUn : Opcode := single 0x40
def bneUnShort : Opcode := single 0x33
def add : Opcode := single 0x58
def sub : Opcode := single 0x59
def or : Opcode := single 0x60
def convR8 : Opcode := single 0x6C
def convU4 : Opcode := single 0x6D
def convRUn : Opcode := single 0x76
def ldelemU1 : Opcode := single 0x91
def convU : Opcode := single 0xE0

end Opcode

end KeyLoop
