/-!
# Linkage

How a name that one module defines relates to the definitions in other modules.
-/

namespace Redzone

/-- Where the definition of a name may come from and who may see it. -/
inductive Linkage
  | external
  | internal
  | priv
  | weak
  | weakOdr
  | linkOnce
  | linkOnceOdr
  | common
  | externWeak
  | availableExternally
  deriving DecidableEq

namespace Linkage

/-- Not visible outside the object file. -/
def isLocal : Linkage → Bool
  | internal | priv => true
  | _ => false

/-- The definition in this module is the one the program will use. -/
def hasExactDefinition : Linkage → Bool
  | availableExternally | externWeak | common | linkOnce => false
  | _ => true

end Linkage

end Redzone
