import EnumCodegen.Emission.Definition

/-! The two files generated for a description. -/

namespace EnumCodegen

structure Emission where
  description : Description
  token : Text
  title : Text
  command? : Option Text := none
  unit : Text := ['\t']
  deriving DecidableEq, Repr

namespace Emission

def declarationFile (e : Emission) : Text := e.title ++ "." ++ e.description.declarationSuffix

def declaration (e : Emission) : Text :=
  (Declaration.code e.description e.token e.command?).render e.unit

def definition (e : Emission) : Text :=
  (Definition.code e.description e.declarationFile e.command?).render e.unit

end Emission

end EnumCodegen
