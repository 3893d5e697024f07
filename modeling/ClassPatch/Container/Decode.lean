-- Reading a whole container: header, pool, and the class made of them.
import ClassPatch.Class
import ClassPatch.Container.CodeBody

namespace ClassPatch
open Reader

namespace Field

def read (pool : Pool) : Reader Field := do
  let access ← u16
  let name ← pool.utf8 (← u16)
  let desc ← pool.utf8 (← u16)
  let _ ← fieldWidth desc
  if (← u8) = 0 then return { access, name, desc }
  else return { access, name, desc, value := some (← pool.constant (← u16)) }

end Field

namespace Method

/-- A body that is announced follows and makes the method's code and limits. -/
def readBody (pool : Pool) (m : Method) : Reader Method := do
  let body ← CodeBody.read pool m.signature
  body.check
  let (code, locals) := body.resolve
  return { m with maxStack := body.maxStack, maxLocals := body.maxLocals, code, locals }

def read (pool : Pool) : Reader Method := do
  let access ← u16
  let name ← pool.utf8 (← u16)
  let desc ← pool.utf8 (← u16)
  let _ ← methodShape desc
  let exceptions ← counted do pool.className (← u16)
  let m := { create access name desc with exceptions }
  if (← u8) = 0 then return m else m.readBody pool

end Method

namespace Class

/-- Magic and version. Any minor version of a known major one is read. -/
def readHeader : Reader (UInt16 × UInt16) := do
  let magic ← u32
  if magic.toNat ≠ Fault.magic then throw (.badMagic magic)
  let major ← u16
  let minor ← u16
  if formatMajor < major then throw (.unsupportedVersion major minor)
  return (major, minor)

def read : Reader Class := do
  let (major, minor) ← readHeader
  let pool ← Pool.read
  let access ← u16
  let name ← pool.className (← u16)
  let superName ← pool.className? (← u16)
  let interfaces ← counted do pool.className (← u16)
  let fields ← counted (Field.read pool)
  let methods ← counted (Method.read pool)
  return { major, minor, access, name, superName, interfaces, fields, methods }

/-- The class that the bytes hold, all of them. -/
def decode (bytes : List UInt8) : Except Fault Class := do
  let (c, rest) ← read ⟨bytes, 0⟩
  if rest.rest.isEmpty then return c else throw (.trailingBytes rest.rest.length)

end Class

end ClassPatch
