import ApiAssembly.Schema.OfTypeExpr

/-!
# Errors in type definitions

What can be wrong with a type definition and with the properties that it declares.
-/

namespace ApiAssembly

/-- Why a declaration has no effect, or a type definition no schema. -/
inductive TypedefError where
  | conversion (error : ConversionError)
  /-- A property is declared below one that was not declared before. -/
  | undeclaredParent (property parent : String)
  /-- A property is declared below an array whose items share a schema. -/
  | homogeneousArrayParent (property parent : String)
  /-- A keyword is set on a property that was not declared. -/
  | unknownExtensionTarget (property keyword : String)
  | missingName
deriving DecidableEq

def TypedefError.message : TypedefError → String
  | .conversion error => error.message
  | .undeclaredParent property parent =>
    "property " ++ property ++ " is declared before its parent " ++ parent
  | .homogeneousArrayParent property parent =>
    "property " ++ property ++ " cannot be added to " ++ parent ++
      ", its items already share one schema"
  | .unknownExtensionTarget property keyword =>
    "cannot set " ++ keyword ++ " on undeclared property " ++ property
  | .missingName => "typedef has no name"

end ApiAssembly
