import PackageHistory.Text.Basic

/-! # Names that every table of names knows -/

namespace PackageHistory

/-- Names that are found in any table of names without standing for anything in it. -/
def reservedNames : List Text :=
  ["constructor".toList, "toString".toList, "__proto__".toList, "hasOwnProperty".toList,
    "valueOf".toList, "isPrototypeOf".toList, "propertyIsEnumerable".toList,
    "toLocaleString".toList, "__defineGetter__".toList, "__defineSetter__".toList,
    "__lookupGetter__".toList, "__lookupSetter__".toList]

end PackageHistory
