-- A pool under construction: each distinct entry once, in the order in
-- which the entries were first asked for.
import ClassPatch.Container.Pool
import Std.Data.HashMap

namespace ClassPatch

structure PoolBuilder where
  entries : Array Entry := #[]
  index : Std.HashMap Entry UInt16 := ∅

abbrev Builder (α : Type) := StateT PoolBuilder (Except Fault) α

namespace PoolBuilder

/-- The count of a pool is its entries plus one and has two bytes. -/
def maxEntries : Nat := 65534

/-- The index of an entry, a new one if the pool has none. -/
def intern (e : Entry) : Builder UInt16 := fun b =>
  match b.index[e]? with
  | some i => .ok (i, b)
  | none =>
    if b.entries.size < maxEntries then
      let i := UInt16.ofNat (b.entries.size + 1)
      .ok (i, ⟨b.entries.push e, b.index.insert e i⟩)
    else .error .poolOverflow

/-- The length of a text in bytes is written with two bytes. -/
def utf8 (s : String) : Builder UInt16 :=
  if s.utf8ByteSize ≤ 65535 then intern (.utf8 s)
  else throw (.stringTooLong s.utf8ByteSize)

def className (name : String) : Builder UInt16 := do
  intern (.classRef (← utf8 name))

/-- A class name; none has index 0. -/
def className? : Option String → Builder UInt16
  | some name => className name
  | none => return 0

def nameAndType (name desc : String) : Builder UInt16 := do
  let n ← utf8 name
  let d ← utf8 desc
  intern (.nameAndType n d)

def field (m : MemberRef) : Builder UInt16 := do
  let owner ← className m.owner
  let nt ← nameAndType m.name m.desc
  intern (.fieldRef owner nt)

def method (m : MemberRef) : Builder UInt16 := do
  let owner ← className m.owner
  let nt ← nameAndType m.name m.desc
  intern (if m.interface then .interfaceMethodRef owner nt else .methodRef owner nt)

def constant : Constant → Builder UInt16
  | .int v => intern (.int v)
  | .float bits => intern (.float bits)
  | .long v => intern (.long v)
  | .double bits => intern (.double bits)
  | .string s => do intern (.string (← utf8 s))
  | .classRef name => className name

/-- The count and the entries. -/
def bytes (b : PoolBuilder) : List UInt8 :=
  bytesOf 2 (b.entries.size + 1) ++ b.entries.toList.flatMap Entry.bytes

end PoolBuilder

end ClassPatch
