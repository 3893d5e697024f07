-- Classes: a name, what it extends and implements, fields and methods.
import ClassPatch.Method

namespace ClassPatch

structure Field where
  access : UInt16
  name : String
  desc : String
  value : Option Constant := none
deriving DecidableEq

structure Class where
  major : UInt16 := 1
  minor : UInt16 := 0
  access : UInt16 := 1
  name : String
  superName : Option String := none
  interfaces : List String := []
  fields : List Field := []
  methods : List Method := []
deriving DecidableEq

namespace Class

/-- The newest revision of the container format. -/
def formatMajor : UInt16 := 1

/-- The index of the first method of a name and descriptor. -/
def methodIndex? (c : Class) (name desc : String) : Option Nat :=
  c.methods.findIdx? fun m => m.name == name && m.desc == desc

def findMethod? (c : Class) (name desc : String) : Option Method :=
  c.methods.find? fun m => m.name == name && m.desc == desc

def findField? (c : Class) (name desc : String) : Option Field :=
  c.fields.find? fun f => f.name == name && f.desc == desc

/-- Changes the method at an index. -/
def modifyMethod (c : Class) (index : Nat) (f : Method → Method) : Class :=
  { c with methods := c.methods.modify index f }

end Class

end ClassPatch
