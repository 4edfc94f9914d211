/-!
# Access flags

Flags are the sixteen bits of the file; only the few that matter here have names.
-/

namespace Renaming.AccessFlags

def isInterface (flags : UInt16) : Bool := flags &&& 0x0200 ≠ 0

/-- Neither private nor static, so that a subclass can override it. -/
def isVirtual (flags : UInt16) : Bool := flags &&& 0x000a = 0

/-- Neither public, private nor protected. -/
def isPackagePrivate (flags : UInt16) : Bool := flags &&& 0x0007 = 0

end Renaming.AccessFlags
