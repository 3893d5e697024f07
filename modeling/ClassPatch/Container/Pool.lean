-- The constant pool: the entries that the rest of a container refers to
-- by index. Every entry has one index, from 1 on; 0 stands for no entry.
import ClassPatch.Container.Cursor
import ClassPatch.Insn

namespace ClassPatch

/-! ## Entries -/

inductive Entry where
  | utf8 (value : String)
  | int (value : Int32)
  | float (bits : UInt32)
  | long (value : Int64)
  | double (bits : UInt64)
  | classRef (name : UInt16)
  | string (value : UInt16)
  | fieldRef (owner nameAndType : UInt16)
  | methodRef (owner nameAndType : UInt16)
  | interfaceMethodRef (owner nameAndType : UInt16)
  | nameAndType (name desc : UInt16)
deriving DecidableEq, Hashable

/-- The byte that an entry starts with. -/
def Entry.tag : Entry → UInt8
  | utf8 _ => 1
  | int _ => 3
  | float _ => 4
  | long _ => 5
  | double _ => 6
  | classRef _ => 7
  | string _ => 8
  | fieldRef .. => 9
  | methodRef .. => 10
  | interfaceMethodRef .. => 11
  | nameAndType .. => 12

/-- What follows the tag. -/
def Entry.payload : Entry → List UInt8
  | utf8 s => let bs := Utf8.encode s; bytesOf 2 bs.length ++ bs
  | int v => bytesOf 4 v.toUInt32.toNat
  | float bits => bytesOf 4 bits.toNat
  | long v => bytesOf 8 v.toUInt64.toNat
  | double bits => bytesOf 8 bits.toNat
  | classRef i | string i => bytesOf 2 i.toNat
  | fieldRef a b | methodRef a b | interfaceMethodRef a b | nameAndType a b =>
    bytesOf 2 a.toNat ++ bytesOf 2 b.toNat

def Entry.bytes (e : Entry) : List UInt8 := e.tag :: e.payload

/-! ## Reading -/

structure Pool where
  entries : Array Entry

namespace Pool
open Reader

def readText : Reader String := do
  let bytes ← take (← u16).toNat
  match Utf8.decode bytes with
  | .ok s => return s
  | .error f => throw (.invalidUtf8 f)

/-- Reads two indices. -/
def readPair (f : UInt16 → UInt16 → Entry) : Reader Entry := do
  let a ← u16
  let b ← u16
  return f a b

def readEntry : Reader Entry := do
  let start ← Reader.offset
  let tag ← u8
  if tag = 1 then return .utf8 (← readText)
  else if tag = 3 then return .int (← i32)
  else if tag = 4 then return .float (← u32)
  else if tag = 5 then return .long (← i64)
  else if tag = 6 then return .double (← u64)
  else if tag = 7 then return .classRef (← u16)
  else if tag = 8 then return .string (← u16)
  else if tag = 9 then readPair .fieldRef
  else if tag = 10 then readPair .methodRef
  else if tag = 11 then readPair .interfaceMethodRef
  else if tag = 12 then readPair .nameAndType
  else throw (.unknownPoolTag tag start)

/-- The pool is announced with one more than its entries; 0 announces none
either. -/
def read : Reader Pool := do
  let count ← u16
  let entries ← times (count.toNat - 1) readEntry
  return ⟨entries.toArray⟩

/-! ## Looking up -/

def entry (p : Pool) (i : UInt16) : Except Fault Entry :=
  if i = 0 then .error (.invalidPoolIndex i)
  else
    match p.entries[i.toNat - 1]? with
    | some e => .ok e
    | none => .error (.invalidPoolIndex i)

def utf8 (p : Pool) (i : UInt16) : Except Fault String := do
  match ← p.entry i with
  | .utf8 s => return s
  | _ => throw (.wrongPoolEntry i .utf8)

def className (p : Pool) (i : UInt16) : Except Fault String := do
  match ← p.entry i with
  | .classRef name => p.utf8 name
  | _ => throw (.wrongPoolEntry i .classRef)

/-- A class name or, for index 0, none. -/
def className? (p : Pool) (i : UInt16) : Except Fault (Option String) :=
  if i = 0 then .ok none else (p.className i).map some

def nameAndType (p : Pool) (i : UInt16) : Except Fault (String × String) := do
  match ← p.entry i with
  | .nameAndType name desc => return (← p.utf8 name, ← p.utf8 desc)
  | _ => throw (.wrongPoolEntry i .nameAndType)

/-- A member is looked up by its name and type first, then by its owner. -/
def member (p : Pool) (owner nameAndType : UInt16) (interface : Bool) : Except Fault MemberRef := do
  let (name, desc) ← p.nameAndType nameAndType
  return ⟨← p.className owner, name, desc, interface⟩

def field (p : Pool) (i : UInt16) : Except Fault MemberRef := do
  match ← p.entry i with
  | .fieldRef owner nt => p.member owner nt false
  | _ => throw (.wrongPoolEntry i .fieldRef)

def method (p : Pool) (i : UInt16) : Except Fault MemberRef := do
  match ← p.entry i with
  | .methodRef owner nt => p.member owner nt false
  | .interfaceMethodRef owner nt => p.member owner nt true
  | _ => throw (.wrongPoolEntry i .methodRef)

def constant (p : Pool) (i : UInt16) : Except Fault Constant := do
  match ← p.entry i with
  | .int v => return .int v
  | .float bits => return .float bits
  | .long v => return .long v
  | .double bits => return .double bits
  | .string s => return .string (← p.utf8 s)
  | .classRef name => return .classRef (← p.utf8 name)
  | _ => throw (.wrongPoolEntry i .loadable)

end Pool

end ClassPatch
