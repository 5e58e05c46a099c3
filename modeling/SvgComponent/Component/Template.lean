/-
  SvgComponent.Component.Template — the module around a component's markup.
-/

namespace SvgComponent.Component

structure Template where
  name : String
  markup : String
  /-- Import the stylesheet. -/
  styles : Bool
  memo : Bool
  types : Bool
  deriving DecidableEq

namespace Template

def stylesImport (t : Template) : String :=
  if t.styles then "import styles from \"./" ++ t.name ++ ".module.css\";\n\n" else ""

def reactImport (t : Template) : String :=
  "import React" ++ (if t.memo then ", \x7b memo \x7d" else "") ++ " from \"react\";\n\n"

def parameters : String := "(\x7b className, size = 24, color, ...props \x7d) => \x7b\n"

/-- The interface of the properties, and the start of the component. -/
def opening (t : Template) : String :=
  if t.types then
    "interface " ++ t.name ++ "Props extends React.SVGProps<SVGSVGElement> \x7b\n" ++
      "  className?: string;\n" ++
      "  size?: number | string;\n" ++
      "  color?: string;\n" ++
      "\x7d\n\n" ++
      "const " ++ t.name ++ ": React.FC<" ++ t.name ++ "Props> = " ++ parameters
  else "const " ++ t.name ++ " = " ++ parameters

def exported (t : Template) : String :=
  "export default " ++ (if t.memo then "memo(" ++ t.name ++ ")" else t.name) ++ ";\n"

def render (t : Template) : String :=
  t.stylesImport ++ t.reactImport ++ t.opening ++ "  return (\n" ++ t.markup ++ "\n  );\n\x7d;\n\n" ++ t.exported

end Template

end SvgComponent.Component
